/-
Slices cut into chunks, and memory written cell by cell.

A mutable slice is the list of its cells, so cutting it into chunks is the same function as cutting a list of values. A
copy pairs the cells of a slice with values; writes to different cells end in the same memory in whatever order they run.
- `chunks_flatten`, `chunks_chunks`: chunks concatenate, and chunks of chunks are chunks.
- `forall₂_chunks`: two slices cut in proportion have chunks in proportion.
- `eachPair_zip`: copying piece by piece writes what copying the whole writes.
- `store_perm`, `store_range`: the order of the writes does not matter; what a slice holds afterwards.
-/
import Mathlib.Tactic

namespace Pegainfer.Lib

variable {α β γ : Type} {n k a b : ℕ}

/-! ## Chunks -/

/-- pieces of `size` elements, the last one shorter -/
def chunks (size : ℕ) (l : List α) : List (List α) :=
  if 0 < size ∧ 0 < l.length then l.take size :: chunks size (l.drop size) else []
termination_by l.length

variable {l m : List α}

@[simp] theorem chunks_nil : chunks n ([] : List α) = [] := by
  rw [chunks, if_neg (by simp)]

theorem chunks_cons (hn : 0 < n) (hl : 0 < l.length) : chunks n l = l.take n :: chunks n (l.drop n) := by
  rw [chunks, if_pos ⟨hn, hl⟩]

theorem chunks_flatten (hn : 0 < n) (l : List α) : (chunks n l).flatten = l := by
  fun_induction chunks n l with
  | case1 l h ih => rw [List.flatten_cons, ih, List.take_append_drop]
  | case2 l h =>
    have hempty : l = [] := List.length_eq_zero_iff.1 (by omega)
    rw [hempty]
    rfl

theorem length_le_of_mem_chunks {piece : List α} (h : piece ∈ chunks n l) : piece.length ≤ n := by
  fun_induction chunks n l with
  | case1 l hl ih =>
    rcases List.mem_cons.1 h with rfl | h
    · exact List.length_take_le _ _
    · exact ih h
  | case2 => cases h

theorem chunks_append (hn : 0 < n) (hk : l.length = k * n) (m : List α) : chunks n (l ++ m) = chunks n l ++ chunks n m := by
  induction k generalizing l with
  | zero =>
    have hempty : l = [] := List.length_eq_zero_iff.1 (by omega)
    rw [hempty, chunks_nil]
    rfl
  | succ k ih =>
    rw [Nat.succ_mul] at hk
    rw [chunks_cons hn (by rw [List.length_append]; omega), chunks_cons hn (by omega : 0 < l.length),
      List.take_append_of_le_length (by omega), List.drop_append_of_le_length (by omega),
      ih (by rw [List.length_drop]; omega), List.cons_append]

/-- pieces of `k * n` elements, cut again into pieces of `n` -/
theorem chunks_chunks (hn : 0 < n) (hk : 0 < k) (l : List α) : (chunks (k * n) l).flatMap (chunks n) = chunks n l := by
  have hkn : 0 < k * n := Nat.mul_pos hk hn
  induction hlen : l.length using Nat.strong_induction_on generalizing l with
  | _ len ih =>
    rcases Nat.eq_zero_or_pos l.length with hzero | hpos
    · rw [List.length_eq_zero_iff.1 hzero, chunks_nil, chunks_nil]
      rfl
    rw [chunks_cons hkn hpos, List.flatMap_cons]
    rcases le_or_gt (k * n) l.length with hfull | hshort
    · rw [ih _ (by rw [List.length_drop]; omega) _ rfl,
        ← chunks_append hn (by rw [List.length_take]; omega : (l.take (k * n)).length = k * n),
        List.take_append_drop]
    · rw [List.take_of_length_le hshort.le, List.drop_of_length_le hshort.le, chunks_nil, List.flatMap_nil,
        List.append_nil]

/-- **Cut in proportion.** Of two slices with `rows` rows each, pieces of `k` rows hold the same rows. -/
theorem forall₂_chunks (rows : ℕ) {l : List α} {m : List β} (ha : 0 < a) (hb : 0 < b) (hk : 0 < k) (hl : l.length = rows * a)
    (hm : m.length = rows * b) :
    List.Forall₂ (fun d s => ∃ r, 0 < r ∧ r ≤ k ∧ d.length = r * a ∧ s.length = r * b) (chunks (k * a) l)
      (chunks (k * b) m) := by
  induction rows using Nat.strong_induction_on generalizing l m with
  | _ rows ih =>
    rcases Nat.eq_zero_or_pos rows with rfl | hrows
    · rw [Nat.zero_mul] at hl hm
      rw [List.length_eq_zero_iff.1 hl, List.length_eq_zero_iff.1 hm, chunks_nil, chunks_nil]
      exact .nil
    have hla : 0 < l.length := hl ▸ Nat.mul_pos hrows ha
    have hmb : 0 < m.length := hm ▸ Nat.mul_pos hrows hb
    rw [chunks_cons (Nat.mul_pos hk ha) hla, chunks_cons (Nat.mul_pos hk hb) hmb]
    refine .cons ⟨min k rows, by omega, Nat.min_le_left _ _, ?_, ?_⟩ (ih (rows - k) (by omega) ?_ ?_)
    · rw [List.length_take, hl, Nat.mul_min_mul_right]
    · rw [List.length_take, hm, Nat.mul_min_mul_right]
    · rw [List.length_drop, hl, Nat.sub_mul]
    · rw [List.length_drop, hm, Nat.sub_mul]

/-- chunks of fixed-width encodings are the encodings of chunks -/
theorem take_flatMap {enc : α → List β} {width : ℕ} (henc : ∀ x, (enc x).length = width) (n : ℕ) (l : List α) :
    (l.flatMap enc).take (n * width) = (l.take n).flatMap enc := by
  induction l generalizing n with
  | nil => simp
  | cons x l ih =>
    cases n with
    | zero => simp
    | succ n =>
      rw [List.flatMap_cons, List.take_succ_cons, List.flatMap_cons, ← ih n, Nat.succ_mul, Nat.add_comm, ← henc x,
        List.take_length_add_append]

theorem drop_flatMap {enc : α → List β} {width : ℕ} (henc : ∀ x, (enc x).length = width) (n : ℕ) (l : List α) :
    (l.flatMap enc).drop (n * width) = (l.drop n).flatMap enc := by
  induction l generalizing n with
  | nil => simp
  | cons x l ih =>
    cases n with
    | zero => simp
    | succ n =>
      rw [List.flatMap_cons, List.drop_succ_cons, ← ih n, Nat.succ_mul, Nat.add_comm, ← henc x,
        List.drop_length_add_append]

/-! ## Columns -/

/-- the columns from `off` on of each row, row by row -/
def rowsCols (stride off take : ℕ) (l : List α) : List α :=
  ((chunks stride l).map fun row => (row.take (off + take)).drop off).flatten

/-- the same, row by row from the whole -/
def colShard (rows stride off take : ℕ) (l : List α) : List α :=
  (List.range rows).flatMap fun row => (l.drop (row * stride + off)).take take

variable {stride off take rows : ℕ}

theorem rowsCols_append (hs : 0 < stride) (hl : l.length = k * stride) (m : List α) :
    rowsCols stride off take (l ++ m) = rowsCols stride off take l ++ rowsCols stride off take m := by
  rw [rowsCols, chunks_append hs hl, List.map_append, List.flatten_append]
  rfl

theorem rowsCols_chunks (hs : 0 < stride) (hk : 0 < k) (l : List α) :
    ((chunks (k * stride) l).map (rowsCols stride off take)).flatten = rowsCols stride off take l := by
  rw [rowsCols, ← chunks_chunks hs hk, List.map_flatMap, List.flatMap_def, List.flatten_flatten, List.map_map]
  rfl

/-- a row's columns -/
theorem cut_row (h : off + take ≤ stride) (row : List α) (hrow : stride ≤ row.length) (m : List α) :
    (row.take (off + take)).drop off = ((row ++ m).drop off).take take := by
  rw [List.drop_append_of_le_length (by omega), List.take_append_of_le_length (by rw [List.length_drop]; omega),
    List.drop_take, Nat.add_sub_cancel_left]

theorem rowsCols_eq_colShard (hs : 0 < stride) (hfits : off + take ≤ stride) (hl : l.length = rows * stride) :
    rowsCols stride off take l = colShard rows stride off take l := by
  induction rows generalizing l with
  | zero =>
    rw [List.length_eq_zero_iff.1 (hl.trans (Nat.zero_mul _)), rowsCols, chunks_nil]
    rfl
  | succ rows ih =>
    rw [Nat.succ_mul] at hl
    have hrow : (l.take stride).length = stride := by rw [List.length_take]; omega
    have hrest : (l.drop stride).length = rows * stride := by rw [List.length_drop]; omega
    rw [rowsCols, chunks_cons hs (by omega), List.map_cons, List.flatten_cons]
    change _ ++ rowsCols stride off take (l.drop stride) = _
    rw [ih hrest, colShard, colShard, List.range_succ_eq_map, List.flatMap_cons, List.flatMap_map,
      cut_row hfits (l.take stride) hrow.ge (l.drop stride), List.take_append_drop, Nat.zero_mul, Nat.zero_add]
    congr 1
    refine List.flatMap_congr fun row _ => ?_
    rw [List.drop_drop, Nat.succ_mul]
    congr 2
    omega

theorem length_rowsCols (hs : 0 < stride) (hfits : off + take ≤ stride) (hl : l.length = rows * stride) :
    (rowsCols stride off take l).length = rows * take := by
  induction rows generalizing l with
  | zero =>
    rw [List.length_eq_zero_iff.1 (hl.trans (Nat.zero_mul _)), rowsCols, chunks_nil]
    simp
  | succ rows ih =>
    rw [Nat.succ_mul] at hl
    have hrest : (l.drop stride).length = rows * stride := by rw [List.length_drop]; omega
    rw [rowsCols, chunks_cons hs (by omega), List.map_cons, List.flatten_cons, List.length_append]
    change _ + (rowsCols stride off take (l.drop stride)).length = _
    rw [ih hrest, List.length_drop, List.length_take, List.length_take, Nat.succ_mul]
    omega

/-- columns of fixed-width encodings -/
theorem colShard_flatMap {enc : α → List β} {width : ℕ} (henc : ∀ x, (enc x).length = width)
    (rows stride off take : ℕ) (l : List α) :
    colShard rows (stride * width) (off * width) (take * width) (l.flatMap enc) =
      (colShard rows stride off take l).flatMap enc := by
  rw [colShard, colShard, List.flatMap_assoc]
  refine List.flatMap_congr fun row _ => ?_
  rw [← Nat.mul_assoc, ← Nat.add_mul, drop_flatMap henc, take_flatMap henc]

/-! ## Copies -/

/-- `f` on each pair of pieces, as far as both go, the results in order -/
def eachPair (f : α → β → Except String (List γ)) : List α → List β → Except String (List γ)
  | x :: xs, y :: ys => do
    let first ← f x y
    let others ← eachPair f xs ys
    pure (first ++ others)
  | _, _ => pure []

theorem eachPair_ok {f : α → β → Except String (List γ)} {g : α → β → List γ} {xs : List α} {ys : List β}
    (h : List.Forall₂ (fun x y => f x y = .ok (g x y)) xs ys) :
    eachPair f xs ys = .ok ((List.zipWith g xs ys).flatten) := by
  induction h with
  | nil => rfl
  | cons hf _ ih =>
    rw [eachPair, hf, ih]
    rfl

/-- pieces of the same lengths, paired piece by piece -/
theorem zipWith_zip_flatten {xs : List (List α)} {ys : List (List β)}
    (h : List.Forall₂ (fun x y => x.length = y.length) xs ys) :
    (List.zipWith List.zip xs ys).flatten = xs.flatten.zip ys.flatten := by
  induction h with
  | nil => rfl
  | cons hlen _ ih => rw [List.zipWith_cons_cons, List.flatten_cons, List.flatten_cons, List.flatten_cons, ih,
      List.zip_append hlen]

/-! ## Memory -/

/-- each write sets its cell -/
def store (mem : ℕ → Option β) (writes : List (ℕ × β)) : ℕ → Option β :=
  writes.foldl (fun mem w => Function.update mem w.1 (some w.2)) mem

variable {mem : ℕ → Option β} {writes writes' : List (ℕ × β)} {cell : ℕ} {value : β}

theorem store_append : store mem (writes ++ writes') = store (store mem writes) writes' := List.foldl_append

theorem store_of_not_mem (h : cell ∉ writes.map Prod.fst) : store mem writes cell = mem cell := by
  induction writes generalizing mem with
  | nil => rfl
  | cons w writes ih =>
    rw [List.map_cons, List.mem_cons, not_or] at h
    have hlater : store (Function.update mem w.1 (some w.2)) writes cell = _ := ih h.2
    exact hlater.trans (Function.update_of_ne h.1 _ _)

theorem store_of_mem (hnodup : (writes.map Prod.fst).Nodup) (h : (cell, value) ∈ writes) :
    store mem writes cell = some value := by
  induction writes generalizing mem with
  | nil => cases h
  | cons w writes ih =>
    rw [List.map_cons, List.nodup_cons] at hnodup
    rcases List.mem_cons.1 h with rfl | h
    · have hlater : store (Function.update mem cell (some value)) writes cell = _ := store_of_not_mem hnodup.1
      exact hlater.trans (Function.update_self _ _ _)
    · exact ih hnodup.2 h

/-- **Writes to different cells run in any order.** -/
theorem store_perm (hperm : writes.Perm writes') (hnodup : (writes.map Prod.fst).Nodup) :
    store mem writes = store mem writes' := by
  funext cell
  have hnodup' := (hperm.map Prod.fst).nodup_iff.1 hnodup
  by_cases h : cell ∈ writes.map Prod.fst
  · obtain ⟨⟨_, value⟩, hw, rfl⟩ := List.mem_map.1 h
    rw [store_of_mem hnodup hw, store_of_mem hnodup' (hperm.mem_iff.1 hw)]
  · rw [store_of_not_mem h, store_of_not_mem fun h' => h ((hperm.map Prod.fst).mem_iff.2 h')]

/-- the cells from `start` on, each paired with its value -/
def filling (start : ℕ) (content : List β) : List (ℕ × β) := (List.range' start content.length).zip content

variable {start : ℕ} {content content' : List β}

theorem filling_append (start : ℕ) (content content' : List β) :
    filling start (content ++ content') = filling start content ++ filling (start + content.length) content' := by
  rw [filling, filling, filling, List.length_append, ← List.range'_append_1, List.zip_append (by simp)]

theorem cells_filling : (filling start content).map Prod.fst = List.range' start content.length :=
  List.map_fst_zip (by simp)

theorem nodup_filling : ((filling start content).map Prod.fst).Nodup := by
  rw [cells_filling]
  exact List.nodup_range'

theorem filling_shift (base : ℕ) :
    (filling start content).map (fun w => (base + w.1, w.2)) = filling (base + start) content := by
  rw [filling, filling, ← List.map_add_range', List.zip_map_left]
  rfl

theorem store_filling {i : ℕ} (hi : i < content.length) :
    store mem (filling start content) (start + i) = some content[i] := by
  refine store_of_mem nodup_filling (List.mem_iff_getElem.2 ⟨i, by simp [filling, hi], ?_⟩)
  simp [filling]

theorem store_filling_outside (h : cell < start ∨ start + content.length ≤ cell) :
    store mem (filling start content) cell = mem cell := by
  refine store_of_not_mem fun hin => ?_
  rw [cells_filling, List.mem_range'_1] at hin
  omega

end Pegainfer.Lib
