/-
A list laid out in a function from a place on.
- `laid_congr`: only the places it lies on matter.
- `Laid.read`: what is read back from them.
-/
import Mathlib.Tactic

namespace Pegainfer.Lib

variable {α : Type*} {f g : ℕ → α} {n : ℕ} {l m : List α}

/-- `f` holds the list from `n` on -/
def Laid (f : ℕ → α) : ℕ → List α → Prop
  | _, [] => True
  | n, a :: l => f n = a ∧ Laid f (n + 1) l

theorem Laid.congr (hagree : ∀ k, n ≤ k → k < n + l.length → g k = f k) (h : Laid f n l) : Laid g n l := by
  induction l generalizing n with
  | nil => trivial
  | cons a l ih =>
    rw [List.length_cons] at hagree
    refine ⟨(hagree n (le_refl n) (by omega)).trans h.1, ih (fun k hle hlt => ?_) h.2⟩
    exact hagree k (by omega) (by omega)

theorem laid_append : Laid f n (l ++ m) ↔ Laid f n l ∧ Laid f (n + l.length) m := by
  induction l generalizing n with
  | nil => exact ⟨fun h => ⟨trivial, h⟩, fun h => h.2⟩
  | cons a l ih =>
    rw [List.length_cons, ← Nat.add_assoc, Nat.add_right_comm]
    change f n = a ∧ Laid f (n + 1) (l ++ m) ↔ (f n = a ∧ Laid f (n + 1) l) ∧ Laid f (n + 1 + l.length) m
    rw [ih, and_assoc]

/-- reading `k` places of it -/
theorem Laid.read (h : Laid f n l) : ∀ {k : ℕ}, k ≤ l.length →
    (List.range k).map (fun i => f (n + i)) = l.take k := by
  induction l generalizing n with
  | nil =>
    intro k hk
    obtain rfl := Nat.le_zero.1 hk
    rfl
  | cons a l ih =>
    intro k hk
    rcases k with _ | k
    · rfl
    · have hrest := ih h.2 (Nat.le_of_succ_le_succ hk)
      rw [List.range_succ_eq_map, List.map_cons, List.map_map, List.take_succ_cons, ← hrest, Nat.add_zero, h.1]
      refine congrArg (a :: ·) (List.map_congr_left fun i _ => ?_)
      change f (n + (i + 1)) = f (n + 1 + i)
      rw [Nat.add_right_comm, Nat.add_assoc]

end Pegainfer.Lib
