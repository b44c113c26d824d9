/-
Matrices in one row-major list, split over ranks by rows or by columns.

Entry `(i, j)` of a matrix with `cols` columns is element `i * cols + j`. `parts` ranks each take `n` rows, or `n` columns
and the matching segment of the vector.
- `nthRuns_flatten`: the segments of a list, in order, are the list.
- `matVec_rows`: the products of the row shards, one behind the other, are the product.
- `matVec_cols`, `matVec_sum`: the products of the column shards sum up to the product, also under a further matrix.
-/
import Mathlib.Algebra.BigOperators.Ring.Finset
import Mathlib.Data.List.GetD
import Mathlib.Tactic
import Pegainfer.Lib.Cells

namespace Pegainfer.Lib

open Finset

variable {α R : Type} {parts n part rows cols off i j : ℕ}

/-! ## Segments -/

/-- the `part`th run of `n` elements -/
def nthRun (n part : ℕ) (l : List α) : List α := (l.drop (part * n)).take n

theorem length_nthRun {l : List α} (h : (part + 1) * n ≤ l.length) : (nthRun n part l).length = n := by
  rw [Nat.succ_mul] at h
  rw [nthRun, List.length_take, List.length_drop]
  omega

theorem getD_nthRun {l : List α} {d : α} (hj : j < n) : (nthRun n part l).getD j d = l.getD (part * n + j) d := by
  rw [nthRun, List.getD_eq_getElem?_getD, List.getD_eq_getElem?_getD, List.getElem?_take_of_lt hj, List.getElem?_drop]

theorem nthRuns_flatten {l : List α} (h : l.length = parts * n) :
    ((List.range parts).flatMap fun part => nthRun n part l) = l := by
  have htake : ∀ k ≤ parts, ((List.range k).flatMap fun part => nthRun n part l) = l.take (k * n) := by
    intro k
    induction k with
    | zero => intro _; simp
    | succ k ih =>
      intro hk
      rw [List.range_succ, List.flatMap_append, ih (by omega), List.flatMap_singleton, Nat.succ_mul, List.take_add]
      rfl
  rw [htake parts (le_refl _), ← h, List.take_length]

/-- all columns of all rows -/
theorem colShard_whole {l : List α} (h : l.length = rows * cols) : colShard rows cols 0 cols l = l := nthRuns_flatten h

/-- indices cut into runs of `n` -/
theorem range_runs (f : ℕ → α) :
    ((List.range parts).flatMap fun part => (List.range n).map fun i => f (part * n + i)) =
      (List.range (parts * n)).map f := by
  induction parts with
  | zero => simp
  | succ parts ih =>
    rw [List.range_succ, List.flatMap_append, ih, List.flatMap_singleton, Nat.succ_mul, List.range_add, List.map_append,
      List.map_map]
    rfl

theorem sum_runs [AddCommMonoid R] (f : ℕ → R) :
    ∑ part ∈ range parts, ∑ j ∈ range n, f (part * n + j) = ∑ j ∈ range (parts * n), f j := by
  induction parts with
  | zero => simp
  | succ parts ih => rw [sum_range_succ, ih, Nat.succ_mul, sum_range_add]

/-- a row of a column shard -/
theorem nthRun_colShard {l : List α} (hfits : off + n ≤ cols) (hl : l.length = rows * cols) (hi : i < rows) :
    nthRun n i (colShard rows cols off n l) = (l.drop (i * cols + off)).take n := by
  have hrow : ∀ k < rows, ((l.drop (k * cols + off)).take n).length = n := by
    intro k hk
    have hend : k * cols + cols ≤ l.length := by
      rw [hl, ← Nat.succ_mul]
      exact Nat.mul_le_mul_right _ hk
    rw [List.length_take, List.length_drop]
    omega
  have hsplit : colShard rows cols off n l = ((List.range i).flatMap fun k => (l.drop (k * cols + off)).take n) ++
      ((l.drop (i * cols + off)).take n ++
        (List.range' (i + 1) (rows - (i + 1))).flatMap fun k => (l.drop (k * cols + off)).take n) := by
    have hrange : List.range rows = List.range i ++ (i :: List.range' (i + 1) (rows - (i + 1))) := by
      have hrows : rows = i + (rows - (i + 1) + 1) := by omega
      rw [← List.range'_succ, List.range_eq_range', List.range_eq_range']
      conv_lhs => rw [hrows]
      rw [← List.range'_append_1, Nat.zero_add]
    rw [colShard, hrange, List.flatMap_append, List.flatMap_cons]
  have hbefore : ((List.range i).flatMap fun k => (l.drop (k * cols + off)).take n).length = i * n := by
    rw [List.length_flatMap]
    have hmap : ((List.range i).map fun k => ((l.drop (k * cols + off)).take n).length) = List.replicate i n := by
      refine List.eq_replicate_iff.2 ⟨by simp, fun len hlen => ?_⟩
      obtain ⟨k, hk, rfl⟩ := List.mem_map.1 hlen
      exact hrow k ((List.mem_range.1 hk).trans hi)
    rw [hmap, List.sum_replicate]
    rfl
  rw [nthRun, hsplit, ← hbefore, List.drop_left, List.take_append_of_le_length (hrow i hi).ge,
    List.take_of_length_le (hrow i hi).le]

/-- an entry of a column shard -/
theorem getD_colShard {l : List α} {d : α} (hfits : off + n ≤ cols) (hl : l.length = rows * cols) (hi : i < rows)
    (hj : j < n) : (colShard rows cols off n l).getD (i * n + j) d = l.getD (i * cols + off + j) d := by
  rw [← getD_nthRun hj, nthRun_colShard hfits hl hi, List.getD_eq_getElem?_getD, List.getD_eq_getElem?_getD,
    List.getElem?_take_of_lt hj, List.getElem?_drop]

/-- a row over its column shards -/
theorem nthRun_colShards {l : List α} (h : l.length = rows * (parts * n)) (hi : i < rows) :
    ((List.range parts).flatMap fun part => nthRun n i (colShard rows (parts * n) (part * n) n l)) =
      nthRun (parts * n) i l := by
  have hrow : (nthRun (parts * n) i l).length = parts * n :=
    length_nthRun (by rw [h]; exact Nat.mul_le_mul_right _ hi)
  conv_rhs => rw [← nthRuns_flatten hrow]
  refine List.flatMap_congr fun part hpart => ?_
  have hfits : part * n + n ≤ parts * n := by
    rw [← Nat.succ_mul]
    exact Nat.mul_le_mul_right _ (List.mem_range.1 hpart)
  rw [nthRun_colShard hfits h hi, nthRun, nthRun, List.drop_take, List.drop_drop, List.take_take,
    Nat.min_eq_left (by omega)]

/-! ## Products -/

variable [NonUnitalNonAssocSemiring R]

/-- the product with a vector -/
def matVec (rows cols : ℕ) (data x : List R) : List R :=
  (List.range rows).map fun i => ∑ j ∈ range cols, data.getD (i * cols + j) 0 * x.getD j 0

/-- vectors added entry by entry -/
def sumVecs (rows : ℕ) (vecs : List (List R)) : List R :=
  (List.range rows).map fun i => (vecs.map fun v => v.getD i 0).sum

variable {data x : List R}

theorem getD_matVec (hi : i < rows) :
    (matVec rows cols data x).getD i 0 = ∑ j ∈ range cols, data.getD (i * cols + j) 0 * x.getD j 0 := by
  rw [List.getD_eq_getElem _ _ (by simpa [matVec] using hi)]
  simp [matVec]

/-- **Row shards concatenate.** -/
theorem matVec_rows (parts n cols : ℕ) (data x : List R) :
    ((List.range parts).flatMap fun part => matVec n cols (nthRun (n * cols) part data) x) =
      matVec (parts * n) cols data x := by
  rw [matVec, ← range_runs]
  refine List.flatMap_congr fun part _ => List.map_congr_left fun i hi => ?_
  refine sum_congr rfl fun j hj => ?_
  have hin : i * cols + j < n * cols := by
    have hrow : (i + 1) * cols ≤ n * cols := Nat.mul_le_mul_right _ (List.mem_range.1 hi)
    rw [Nat.succ_mul] at hrow
    have hcol := mem_range.1 hj
    omega
  rw [getD_nthRun hin, ← Nat.mul_assoc, ← Nat.add_assoc, ← Nat.add_mul]

/-- **Column shards sum up**, also under a further matrix `b`. -/
theorem matVec_cols (out parts n rows : ℕ) (b data x : List R) (hdata : data.length = rows * (parts * n)) :
    sumVecs out ((List.range parts).map fun part =>
        matVec out rows b (matVec rows n (colShard rows (parts * n) (part * n) n data) (nthRun n part x))) =
      matVec out rows b (matVec rows (parts * n) data x) := by
  refine List.map_congr_left fun i hi => ?_
  rw [List.map_map]
  have hentry : ∀ part ∈ List.range parts,
      ((fun v : List R => v.getD i 0) ∘ fun part =>
        matVec out rows b (matVec rows n (colShard rows (parts * n) (part * n) n data) (nthRun n part x))) part =
      ∑ k ∈ range rows, ∑ j ∈ range n,
        b.getD (i * rows + k) 0 * (data.getD (k * (parts * n) + (part * n + j)) 0 * x.getD (part * n + j) 0) := by
    intro part hpart
    have hfits : part * n + n ≤ parts * n := by
      rw [← Nat.succ_mul]
      exact Nat.mul_le_mul_right _ (List.mem_range.1 hpart)
    rw [Function.comp_apply, getD_matVec (List.mem_range.1 hi)]
    refine sum_congr rfl fun k hk => ?_
    rw [getD_matVec (mem_range.1 hk), mul_sum]
    refine sum_congr rfl fun j hj => ?_
    rw [getD_colShard hfits hdata (mem_range.1 hk) (mem_range.1 hj), getD_nthRun (mem_range.1 hj), Nat.add_assoc]
  rw [List.map_congr_left hentry, ← List.sum_toFinset _ List.nodup_range, List.toFinset_range, sum_comm]
  refine sum_congr rfl fun k hk => ?_
  rw [sum_runs fun j => b.getD (i * rows + k) 0 * (data.getD (k * (parts * n) + j) 0 * x.getD j 0), ← mul_sum,
    getD_matVec (mem_range.1 hk)]

end Pegainfer.Lib
