/-
Filling the rows of a table level by level.

`level wants k m` is how far a round robin has got: the first `m` rows hold one unit above level `k`, the others up to
level `k`, and no row holds more than it wants. Rows are read with `getD`, so a row that is not there holds nothing.
- `getD_level`: what a row holds.
- `level_fair`: a row below its want is at most one unit behind any other row.
- `sum_level_le`, `sum_level_zero`: the units of a table, and those of its first level.
-/
import Mathlib.Tactic
import Mathlib.Data.List.GetD

namespace Pegainfer.Lib

/-- the first `m` rows up to level `k + 1`, the others up to level `k` -/
def level (wants : List ℕ) (k m : ℕ) : List ℕ := (wants.take m).map (min (k + 1)) ++ (wants.drop m).map (min k)

variable {wants : List ℕ} {k m i j want : ℕ}

@[simp] theorem length_level : (level wants k m).length = wants.length := by
  simp only [level, List.length_append, List.length_map, List.length_take, List.length_drop]
  omega

@[simp] theorem level_nil : level [] k m = [] := by simp [level]

theorem level_cons_zero : level (want :: wants) k 0 = min k want :: level wants k 0 := by simp [level]

@[simp] theorem level_cons_succ : level (want :: wants) k (m + 1) = min (k + 1) want :: level wants k m := by
  simp [level]

theorem level_none : level wants k 0 = wants.map (min k) := by simp [level]

/-- a level that every row reached -/
theorem level_all (h : wants.length ≤ m) : level wants k m = wants.map (min (k + 1)) := by
  simp [level, List.take_of_length_le h, List.drop_of_length_le h]

theorem getD_level : (level wants k m).getD i 0 = min (if i < m then k + 1 else k) (wants.getD i 0) := by
  induction wants generalizing i m with
  | nil => simp
  | cons want wants ih =>
    cases m with
    | zero =>
      rw [level_cons_zero]
      cases i with
      | zero => simp
      | succ i => simpa using ih (i := i) (m := 0)
    | succ m =>
      rw [level_cons_succ]
      cases i with
      | zero => simp
      | succ i => simpa using ih (i := i) (m := m)

theorem level_le : (level wants k m).getD i 0 ≤ wants.getD i 0 := by
  rw [getD_level]
  exact Nat.min_le_right _ _

theorem level_fair (h : (level wants k m).getD i 0 < wants.getD i 0) :
    (level wants k m).getD j 0 ≤ (level wants k m).getD i 0 + 1 := by
  rw [getD_level] at h ⊢
  rw [getD_level]
  split_ifs at h ⊢ <;> omega

theorem sum_level_le : (level wants k m).sum ≤ wants.sum := by
  induction wants generalizing m with
  | nil => simp
  | cons want wants ih =>
    cases m with
    | zero =>
      rw [level_cons_zero, List.sum_cons, List.sum_cons]
      exact Nat.add_le_add (Nat.min_le_right _ _) ih
    | succ m =>
      rw [level_cons_succ, List.sum_cons, List.sum_cons]
      exact Nat.add_le_add (Nat.min_le_right _ _) ih

/-- on the first level every wanting row holds one unit -/
theorem sum_level_zero : (level wants 0 m).sum = (wants.take m).countP (0 < ·) := by
  induction wants generalizing m with
  | nil => simp
  | cons want wants ih =>
    cases m with
    | zero =>
      have hrest := ih (m := 0)
      rw [level_cons_zero, List.sum_cons, hrest]
      simp
    | succ m =>
      rw [level_cons_succ, List.sum_cons, ih, List.take_succ_cons, List.countP_cons]
      rcases Nat.eq_zero_or_pos want with rfl | hpos
      · simp
      · rw [if_pos (by simpa using hpos)]
        omega

end Pegainfer.Lib
