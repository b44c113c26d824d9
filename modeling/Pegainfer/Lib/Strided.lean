/-
Cells of one size on a grid with two strides.

Cell `(i, j)` starts `i * outer + j * inner` bytes in and is `size` bytes long, for `i < rows` and `j < columns`.
- `end_le_reach`: the last cell ends at `reach`, and no cell ends behind it.
- `apart_of_fits`: where a row's cells are `size` apart and a row fits into the outer stride, no two cells overlap.
- `inner_of_apart`: without overlap the cells of a row are `size` apart.
-/
import Mathlib.Tactic
import Mathlib.Order.CompletePartialOrder

namespace Pegainfer.Lib

/-- a grid of cells -/
structure Strided where
  rows : ℕ
  columns : ℕ
  size : ℕ
  inner : ℕ
  outer : ℕ
deriving DecidableEq, Repr

namespace Strided

variable (g : Strided)

def start (i j : ℕ) : ℕ := i * g.outer + j * g.inner

/-- the bytes of a cell -/
def cell (i j : ℕ) : Set ℕ := Set.Ico (g.start i j) (g.start i j + g.size)

/-- from the start of a row to the end of its last cell -/
def extent : ℕ := (g.columns - 1) * g.inner + g.size

def reach : ℕ := (g.rows - 1) * g.outer + g.extent

/-- different cells share no byte -/
def Apart : Prop :=
  ∀ i < g.rows, ∀ j < g.columns, ∀ i' < g.rows, ∀ j' < g.columns, (i, j) ≠ (i', j') → Disjoint (g.cell i j) (g.cell i' j')

variable {g} {i j i' j' : ℕ}

theorem start_le_extent (hj : j < g.columns) : j * g.inner + g.size ≤ g.extent :=
  Nat.add_le_add_right (Nat.mul_le_mul_right _ (Nat.le_sub_one_of_lt hj)) _

theorem end_le_reach (hi : i < g.rows) (hj : j < g.columns) : g.start i j + g.size ≤ g.reach := by
  have hrow : i * g.outer ≤ (g.rows - 1) * g.outer := Nat.mul_le_mul_right _ (Nat.le_sub_one_of_lt hi)
  have hcell := start_le_extent hj
  unfold start reach
  omega

/-- the last cell ends at the reach -/
theorem end_last : g.start (g.rows - 1) (g.columns - 1) + g.size = g.reach := by
  unfold start reach extent
  omega

theorem disjoint_cells (h : g.start i j + g.size ≤ g.start i' j') : Disjoint (g.cell i j) (g.cell i' j') :=
  Set.disjoint_left.2 fun x hx hx' => absurd (lt_of_lt_of_le hx.2 (h.trans hx'.1)) (lt_irrefl x)

/-- a later row starts behind every cell of an earlier one -/
theorem end_le_start_of_row (hfits : g.extent ≤ g.outer) (hj : j < g.columns) (hlt : i < i') :
    g.start i j + g.size ≤ g.start i' j' :=
  calc g.start i j + g.size = i * g.outer + (j * g.inner + g.size) := Nat.add_assoc _ _ _
    _ ≤ i * g.outer + g.outer := Nat.add_le_add_left ((start_le_extent hj).trans hfits) _
    _ = (i + 1) * g.outer := (Nat.succ_mul _ _).symm
    _ ≤ i' * g.outer := Nat.mul_le_mul_right _ hlt
    _ ≤ g.start i' j' := Nat.le_add_right _ _

theorem end_le_start_of_column (hsize : g.size ≤ g.inner) (hlt : j < j') : g.start i j + g.size ≤ g.start i j' :=
  calc g.start i j + g.size ≤ i * g.outer + (j * g.inner + g.inner) := by unfold start; omega
    _ = i * g.outer + (j + 1) * g.inner := by rw [Nat.succ_mul]
    _ ≤ g.start i j' := Nat.add_le_add_left (Nat.mul_le_mul_right _ hlt) _

theorem apart_of_fits (hfits : g.extent ≤ g.outer) (hsize : 1 < g.columns → g.size ≤ g.inner) : g.Apart := by
  intro i hi j hj i' hi' j' hj' hne
  rcases lt_trichotomy i i' with hlt | rfl | hlt
  · exact disjoint_cells (end_le_start_of_row hfits hj hlt)
  · have hinner : j ≠ j' → g.size ≤ g.inner := fun hjj => hsize (by omega)
    rcases lt_trichotomy j j' with hlt | rfl | hlt
    · exact disjoint_cells (end_le_start_of_column (hinner hlt.ne) hlt)
    · exact absurd rfl hne
    · exact (disjoint_cells (end_le_start_of_column (hinner hlt.ne') hlt)).symm
  · exact (disjoint_cells (end_le_start_of_row hfits hj' hlt)).symm

/-- the first two cells of the first row -/
theorem inner_of_apart (h : g.Apart) (hrows : 0 < g.rows) (hcolumns : 1 < g.columns) : g.size ≤ g.inner := by
  by_contra hlt
  have hdisj := h 0 hrows 0 (by omega) 0 hrows 1 hcolumns (by decide)
  have hstart : g.start 0 1 = g.inner := by simp [start]
  have hzero : g.start 0 0 = 0 := by simp [start]
  have hfirst : g.inner ∈ g.cell 0 0 := ⟨by omega, by omega⟩
  have hsecond : g.inner ∈ g.cell 0 1 := ⟨by omega, by omega⟩
  exact Set.disjoint_left.1 hdisj hfirst hsecond

end Strided

end Pegainfer.Lib
