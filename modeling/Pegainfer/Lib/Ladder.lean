/-
Rungs in ascending order, and the first that covers a size.

A size is rounded up to a rung of a fixed ladder (bucket sizes, page sizes). The search takes the first rung that is
large enough; since the rungs ascend, that is the smallest one.
- `covering_eq_some_iff`: the rung found is the smallest that covers the size.
- `SmallestCover.mono`: a smaller size never needs a larger rung.
-/
import Mathlib.Tactic

namespace Pegainfer.Lib

/-- the first rung that covers `size` -/
def covering (rungs : List ℕ) (size : ℕ) : Option ℕ := rungs.find? fun rung => decide (size ≤ rung)

/-- `rung` is the smallest of the rungs that cover `size` -/
structure SmallestCover (rungs : List ℕ) (size rung : ℕ) : Prop where
  mem : rung ∈ rungs
  covers : size ≤ rung
  least : ∀ other ∈ rungs, size ≤ other → rung ≤ other

variable {rungs : List ℕ} {size small rung low : ℕ}

theorem SmallestCover.unique (h : SmallestCover rungs size rung) (h' : SmallestCover rungs size low) : rung = low :=
  le_antisymm (h.least low h'.mem h'.covers) (h'.least rung h.mem h.covers)

/-- a smaller size above the next rung down is rounded to the same rung -/
theorem SmallestCover.shrink (h : SmallestCover rungs size rung) (hle : small ≤ size)
    (hgap : ∀ other ∈ rungs, other < rung → other < small) : SmallestCover rungs small rung := by
  refine ⟨h.mem, hle.trans h.covers, fun other hin hcovers => ?_⟩
  by_contra hlt
  exact absurd hcovers (not_le.2 (hgap other hin (not_le.1 hlt)))

/-- a rung is its own smallest cover -/
theorem SmallestCover.self (h : rung ∈ rungs) : SmallestCover rungs rung rung :=
  ⟨h, le_refl rung, fun _ _ hle => hle⟩

theorem SmallestCover.mono (h : SmallestCover rungs size rung) (h' : SmallestCover rungs small low)
    (hle : small ≤ size) : low ≤ rung :=
  h'.least rung h.mem (hle.trans h.covers)

/-- the rungs before the first that covers the size lie below it, those after it above -/
theorem smallestCover_of_covering (hsorted : rungs.Pairwise (· < ·)) (hfind : covering rungs size = some rung) :
    SmallestCover rungs size rung := by
  obtain ⟨hcovers, before, after, hsplit, hbefore⟩ := List.find?_eq_some_iff_append.1 hfind
  refine ⟨List.mem_of_find?_eq_some hfind, of_decide_eq_true hcovers, fun other hother hle => ?_⟩
  rw [hsplit] at hsorted hother
  rcases List.mem_append.1 hother with hin | hin
  · have hno := hbefore other hin
    rw [Bool.not_eq_true', decide_eq_false_iff_not] at hno
    exact absurd hle hno
  · rcases List.mem_cons.1 hin with rfl | hin
    · exact le_refl _
    · exact (List.rel_of_pairwise_cons (List.pairwise_append.1 hsorted).2.1 hin).le

/-- **The rung found is the smallest cover.** -/
theorem covering_eq_some_iff (hsorted : rungs.Pairwise (· < ·)) :
    covering rungs size = some rung ↔ SmallestCover rungs size rung := by
  refine ⟨smallestCover_of_covering hsorted, fun hcover => ?_⟩
  cases hfind : covering rungs size with
  | none => exact absurd (decide_eq_true hcover.covers) (List.find?_eq_none.1 hfind rung hcover.mem)
  | some found => rw [(smallestCover_of_covering hsorted hfind).unique hcover]

/-- no rung covers a size that lies above them all -/
theorem covering_eq_none_iff : covering rungs size = none ↔ ∀ rung ∈ rungs, rung < size := by
  simp [covering, List.find?_eq_none]

end Pegainfer.Lib
