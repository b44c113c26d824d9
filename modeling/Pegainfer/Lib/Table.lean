/-
A table of slots of which one changes at a time: a list, read with `l[i]?` and written with `l.set i b`.

Whatever is summed over the slots (guards held, blocks owed) splits into the slot's share and a rest that the write
leaves alone.
-/
import Mathlib.Tactic

namespace Pegainfer.Lib

/-- the sum over a table, one slot apart -/
theorem sum_map_eraseIdx {α M : Type*} [AddCommMonoid M] (f : α → M) {l : List α} {i : ℕ} {a : α}
    (h : l[i]? = some a) :
    (l.map f).sum = f a + ((l.eraseIdx i).map f).sum ∧
      ∀ b, ((l.set i b).map f).sum = f b + ((l.eraseIdx i).map f).sum := by
  induction l generalizing i with
  | nil => simp at h
  | cons x l ih =>
    cases i with
    | zero =>
      obtain rfl : x = a := by simpa using h
      exact ⟨by simp, fun b => by simp⟩
    | succ i =>
      obtain ⟨hsum, hset⟩ := ih (i := i) (by simpa using h)
      refine ⟨?_, ?_⟩
      · rw [List.map_cons, List.sum_cons, hsum, List.eraseIdx_cons_succ, List.map_cons, List.sum_cons, add_left_comm]
      · intro b
        rw [List.set_cons_succ, List.map_cons, List.sum_cons, hset, List.eraseIdx_cons_succ, List.map_cons,
          List.sum_cons, add_left_comm]

/-- **One slot changes.** The sum over a table is the slot's share and a rest no write to that slot touches. -/
theorem sum_map_set {α M : Type*} [AddCommMonoid M] (f : α → M) {l : List α} {i : ℕ} {a : α} (h : l[i]? = some a) :
    ∃ rest, (l.map f).sum = f a + rest ∧ ∀ b, ((l.set i b).map f).sum = f b + rest :=
  ⟨_, sum_map_eraseIdx f h⟩

theorem sum_map_concat {α M : Type*} [AddCommMonoid M] (f : α → M) (l : List α) (b : α) :
    ((l ++ [b]).map f).sum = f b + (l.map f).sum := by
  rw [List.map_append, List.sum_append, List.map_singleton, List.sum_singleton, add_comm]

/-- what holds of every entry and of the written one holds of every entry after the write -/
theorem forall_mem_set {α : Type*} {P : α → Prop} {l : List α} {i : ℕ} {b : α} (h : ∀ a ∈ l, P a) (hb : P b) :
    ∀ a ∈ l.set i b, P a := by
  intro a ha
  rcases List.mem_or_eq_of_mem_set ha with ha | rfl
  · exact h a ha
  · exact hb

end Pegainfer.Lib
