/-
Ragged tables: rows of differing lengths stored end to end, with the offset each row starts at.

The tables live in buffers that are longer than what they hold, so every fact is about a prefix of a buffer.
- `offsets`: where each row starts, and where the last one ends.
- `row_flatten`: the rows read back are the rows stored.
- `row_isPrefix`: a table in front of a longer buffer reads the same.
- `offsets_cell`: the offsets around a row are its length apart, and its cells lie between them.
- `offsets_pairwise`, `offsets_getLast?`: the offsets ascend to the number of cells.
- `overlay`: writing the front of a buffer; `bump`: adding one to the first entries of a buffer.
-/
import Mathlib.Tactic

namespace Pegainfer.Lib

variable {α : Type*}

/-! ## Rows and offsets -/

/-- where each row starts when the first one starts at `base`, and where the last one ends -/
def offsetsFrom (base : ℕ) : List (List α) → List ℕ
  | [] => [base]
  | x :: xs => base :: offsetsFrom (base + x.length) xs

def offsets (rows : List (List α)) : List ℕ := offsetsFrom 0 rows

/-- row `r` of the cells, as its offsets delimit it -/
def row (offs : List ℕ) (cells : List α) (r : ℕ) : Option (List α) :=
  match offs[r]?, offs[r + 1]? with
  | some lo, some hi => some ((cells.drop lo).take (hi - lo))
  | _, _ => none

@[simp] theorem length_offsetsFrom (base : ℕ) (rows : List (List α)) :
    (offsetsFrom base rows).length = rows.length + 1 := by
  induction rows generalizing base with
  | nil => rfl
  | cons x xs ih => simp [offsetsFrom, ih]

@[simp] theorem length_offsets (rows : List (List α)) : (offsets rows).length = rows.length + 1 :=
  length_offsetsFrom 0 rows

theorem offsetsFrom_head (base : ℕ) (rows : List (List α)) : (offsetsFrom base rows)[0]? = some base := by
  cases rows <;> rfl

theorem row_offsetsFrom (pre : List α) (rows : List (List α)) (r : ℕ) (x : List α) (h : rows[r]? = some x) :
    row (offsetsFrom pre.length rows) (pre ++ rows.flatten) r = some x := by
  induction rows generalizing pre r with
  | nil => simp at h
  | cons y ys ih =>
    cases r with
    | zero =>
      simp only [List.getElem?_cons_zero, Option.some.injEq] at h
      subst h
      have h0 := offsetsFrom_head (pre.length + y.length) ys
      simp only [row, offsetsFrom, List.getElem?_cons_zero, List.getElem?_cons_succ, h0]
      simp
    | succ r =>
      have hr := ih (pre ++ y) r (by simpa using h)
      simpa [row, offsetsFrom, List.append_assoc] using hr

theorem row_flatten (rows : List (List α)) (r : ℕ) (x : List α) (h : rows[r]? = some x) :
    row (offsets rows) rows.flatten r = some x := by
  simpa [offsets] using row_offsetsFrom [] rows r x h

theorem offsetsFrom_last_le (base : ℕ) (rows : List (List α)) (r lo : ℕ)
    (h : (offsetsFrom base rows)[r]? = some lo) : lo ≤ base + rows.flatten.length := by
  induction rows generalizing base r with
  | nil =>
    cases r with
    | zero => simp [offsetsFrom] at h; omega
    | succ r => simp [offsetsFrom] at h
  | cons x xs ih =>
    cases r with
    | zero => simp [offsetsFrom] at h; omega
    | succ r =>
      have := ih (base + x.length) r (by simpa [offsetsFrom] using h)
      simp only [List.flatten_cons, List.length_append]
      omega

/-- a row's cells lie between its offset and the next -/
theorem offsetsFrom_cell (pre : List α) (rows : List (List α)) (r : ℕ) (x : List α) (h : rows[r]? = some x) :
    ∃ lo, (offsetsFrom pre.length rows)[r]? = some lo ∧
      (offsetsFrom pre.length rows)[r + 1]? = some (lo + x.length) ∧
      ∀ k < x.length, (pre ++ rows.flatten)[lo + k]? = x[k]? := by
  induction rows generalizing pre r with
  | nil => simp at h
  | cons y ys ih =>
    rcases r with _ | r
    · obtain rfl := Option.some.inj h
      refine ⟨pre.length, rfl, offsetsFrom_head (pre.length + y.length) ys, fun k hk => ?_⟩
      rw [List.getElem?_append_right (Nat.le_add_right _ _), Nat.add_sub_cancel_left, List.flatten_cons,
        List.getElem?_append_left hk]
    · obtain ⟨lo, hlo, hhi, hcell⟩ := ih (pre ++ y) r h
      rw [List.length_append] at hlo hhi
      refine ⟨lo, hlo, hhi, fun k hk => ?_⟩
      rw [List.flatten_cons, ← List.append_assoc]
      exact hcell k hk

theorem offsets_cell (rows : List (List α)) (r : ℕ) (x : List α) (h : rows[r]? = some x) :
    ∃ lo, (offsets rows)[r]? = some lo ∧ (offsets rows)[r + 1]? = some (lo + x.length) ∧
      ∀ k < x.length, rows.flatten[lo + k]? = x[k]? := offsetsFrom_cell [] rows r x h

theorem le_of_mem_offsetsFrom {base : ℕ} {rows : List (List α)} {lo : ℕ} (h : lo ∈ offsetsFrom base rows) :
    base ≤ lo := by
  induction rows generalizing base with
  | nil => exact (List.mem_singleton.1 h).ge
  | cons x xs ih =>
    rcases List.mem_cons.1 h with rfl | h
    · exact le_refl _
    · exact (Nat.le_add_right _ _).trans (ih h)

theorem offsetsFrom_pairwise (base : ℕ) (rows : List (List α)) : (offsetsFrom base rows).Pairwise (· ≤ ·) := by
  induction rows generalizing base with
  | nil => exact List.pairwise_singleton _ _
  | cons x xs ih =>
    refine List.pairwise_cons.2 ⟨fun lo hlo => ?_, ih _⟩
    exact (Nat.le_add_right _ _).trans (le_of_mem_offsetsFrom hlo)

theorem offsets_pairwise (rows : List (List α)) : (offsets rows).Pairwise (· ≤ ·) := offsetsFrom_pairwise 0 rows

theorem offsetsFrom_getLast? (base : ℕ) (rows : List (List α)) :
    (offsetsFrom base rows).getLast? = some (base + rows.flatten.length) := by
  induction rows generalizing base with
  | nil => rfl
  | cons x xs ih =>
    rw [offsetsFrom, List.getLast?_cons, ih, List.flatten_cons, List.length_append, ← Nat.add_assoc]
    rfl

theorem offsets_getLast? (rows : List (List α)) : (offsets rows).getLast? = some rows.flatten.length := by
  rw [offsets, offsetsFrom_getLast?, Nat.zero_add]

/-- empty rows at the end start where the last row ends -/
theorem offsetsFrom_append_replicate (base : ℕ) (rows : List (List α)) (n : ℕ) :
    offsetsFrom base (rows ++ List.replicate n []) =
      offsetsFrom base rows ++ List.replicate n (base + rows.flatten.length) := by
  induction rows generalizing base with
  | nil =>
    induction n with
    | zero => rfl
    | succ n ih => exact congrArg (base :: ·) ih
  | cons x xs ih =>
    rw [List.cons_append, offsetsFrom, ih, offsetsFrom, List.flatten_cons, List.length_append, Nat.add_assoc,
      List.cons_append]

theorem getElem?_of_isPrefix {l l' : List α} (h : l <+: l') {i : ℕ} {x : α} (hx : l[i]? = some x) :
    l'[i]? = some x := by
  obtain ⟨t, rfl⟩ := h
  obtain ⟨hi, -⟩ := List.getElem?_eq_some_iff.1 hx
  rwa [List.getElem?_append_left hi]

/-- a table stored in front of longer buffers reads the same -/
theorem row_isPrefix {rows : List (List α)} {offs : List ℕ} {cells : List α} (ho : offsets rows <+: offs)
    (hc : rows.flatten <+: cells) (r : ℕ) (x : List α) (h : rows[r]? = some x) : row offs cells r = some x := by
  have hx := row_flatten rows r x h
  simp only [row] at hx
  split at hx
  · rename_i lo hi hlo hhi
    simp only [row, getElem?_of_isPrefix ho hlo, getElem?_of_isPrefix ho hhi]
    have hle : hi ≤ rows.flatten.length := by simpa using offsetsFrom_last_le 0 rows (r + 1) hi hhi
    obtain ⟨t, rfl⟩ := hc
    rw [← hx, List.drop_append, List.take_append_of_le_length]
    rw [List.length_drop]
    omega
  · cases hx

/-! ## Buffers -/

/-- `values` written over the front of `slot` -/
def overlay (slot values : List α) : List α := values ++ slot.drop values.length

theorem isPrefix_overlay (slot values : List α) : values <+: overlay slot values := List.prefix_append _ _

/-- one added to each of the first `n` entries -/
def bump (n : ℕ) (l : List ℕ) : List ℕ := (l.take n).map (· + 1) ++ l.drop n

theorem bump_isPrefix {l buf : List ℕ} {n : ℕ} (h : l <+: buf) (hn : l.length = n) :
    l.map (· + 1) <+: bump n buf := by
  obtain ⟨t, rfl⟩ := h
  subst hn
  simp [bump]

end Pegainfer.Lib
