/-
Removing entries of a list by index with the last entry moved into the hole, as a vector does in constant time.

Removal does not keep the order, so what is kept is stated up to permutation.
- `swapRemove_perm`: one removal takes out the entry at the index and nothing else.
- `swapRemoveAll_perm`: removing at falling indices takes out the entries that stood there at the start. A removal only
  moves entries at or above its own index, so the lower indices still point at what they pointed at.
- `removeWhere_perm`: removing the entries a test picked, last index first, leaves the others.
-/
import Mathlib.Tactic

namespace Pegainfer.Lib

variable {α : Type*}

/-- remove the entry at `i` by moving the last entry there -/
def swapRemove (l : List α) (i : ℕ) : List α :=
  match l.getLast? with
  | none => l
  | some last => (l.set i last).dropLast

/-- remove at each index in turn; an index out of range is refused -/
def swapRemoveAll (l : List α) : List ℕ → Except String (List α)
  | [] => .ok l
  | i :: is => if i < l.length then swapRemoveAll (swapRemove l i) is else .error "swap_remove index out of range"

theorem swapRemove_concat (l : List α) (x : α) (i : ℕ) :
    swapRemove (l ++ [x]) i = if i < l.length then l.set i x else l := by
  simp only [swapRemove, List.getLast?_append, List.getLast?_singleton, Option.some_or]
  split_ifs with hi
  · rw [List.set_append_left i x hi, List.dropLast_concat]
  · rw [List.set_append_right i x (by omega)]
    cases h : i - l.length with
    | zero => simp
    | succ n => simp

/-- **One removal.** The entry at the index leaves and the others stay. -/
theorem swapRemove_perm (l : List α) (i : ℕ) (x : α) (hx : l[i]? = some x) : l.Perm (x :: swapRemove l i) := by
  obtain ⟨hi, rfl⟩ := List.getElem?_eq_some_iff.1 hx
  rcases List.eq_nil_or_concat' l with rfl | ⟨init, last, rfl⟩
  · simp at hi
  rw [swapRemove_concat]
  simp only [List.length_append, List.length_singleton] at hi
  split_ifs with hlt
  · rw [List.getElem_append_left hlt]
    have hset := List.set_perm_cons_eraseIdx hlt last
    have hget := List.getElem_cons_eraseIdx_perm hlt
    calc (init ++ [last]).Perm (last :: init) := List.perm_append_singleton last init
      _ |>.Perm (last :: init[i] :: init.eraseIdx i) := hget.symm.cons last
      _ |>.Perm (init[i] :: last :: init.eraseIdx i) := List.Perm.swap _ _ _
      _ |>.Perm (init[i] :: init.set i last) := hset.symm.cons _
  · have heq : i = init.length := by omega
    subst heq
    simp [List.perm_append_singleton]

theorem swapRemove_length (l : List α) (i : ℕ) (hi : i < l.length) : (swapRemove l i).length + 1 = l.length := by
  have h := (swapRemove_perm l i l[i] (List.getElem?_eq_getElem hi)).length_eq
  simpa using h.symm

/-- an entry below the index stays where it is -/
theorem swapRemove_get (l : List α) (i j : ℕ) (hi : i < l.length) (hj : j < i) : (swapRemove l i)[j]? = l[j]? := by
  rcases List.eq_nil_or_concat' l with rfl | ⟨init, last, rfl⟩
  · simp at hi
  simp only [List.length_append, List.length_singleton] at hi
  rw [swapRemove_concat, List.getElem?_append_left (by omega)]
  split_ifs with hlt
  · rw [List.getElem?_set_ne (by omega)]
  · rfl

/-- **Removal at falling indices.** What leaves is what stood at those indices before the first removal. -/
theorem swapRemoveAll_perm (is : List ℕ) (l : List α) (hdesc : is.Pairwise (· > ·)) (hlt : ∀ i ∈ is, i < l.length) :
    ∃ kept, swapRemoveAll l is = .ok kept ∧ l.Perm (is.filterMap (l[·]?) ++ kept) := by
  induction is generalizing l with
  | nil => exact ⟨l, rfl, by simp⟩
  | cons i is ih =>
    obtain ⟨hi, hdesc⟩ := List.pairwise_cons.1 hdesc
    have hil : i < l.length := hlt i (by simp)
    have hlen := swapRemove_length l i hil
    obtain ⟨kept, hk, hperm⟩ := ih (swapRemove l i) hdesc (fun j hj => by have := hi j hj; omega)
    refine ⟨kept, by simp [swapRemoveAll, hil, hk], ?_⟩
    have hsame : is.filterMap ((swapRemove l i)[·]?) = is.filterMap (l[·]?) :=
      List.filterMap_congr fun j hj => swapRemove_get l i j hil (hi j hj)
    rw [hsame] at hperm
    have hone := swapRemove_perm l i l[i] (List.getElem?_eq_getElem hil)
    rw [List.filterMap_cons_some (List.getElem?_eq_getElem hil)]
    exact hone.trans (hperm.cons _)

/-- the indices of the entries `p` picks, in order -/
def pickedIdxs (p : α → Bool) (l : List α) : List ℕ := (List.range l.length).filter fun i => (l[i]?).any p

/-- remove the entries `p` picks, last index first -/
def removeWhere (p : α → Bool) (l : List α) : List α := (pickedIdxs p l).reverse.foldl swapRemove l

theorem pickedIdxs_concat (p : α → Bool) (l : List α) (x : α) :
    pickedIdxs p (l ++ [x]) = pickedIdxs p l ++ if p x then [l.length] else [] := by
  simp only [pickedIdxs, List.length_append, List.length_singleton, List.range_succ, List.filter_append]
  congr 1
  · refine List.filter_congr fun i hi => ?_
    rw [List.getElem?_append_left (List.mem_range.1 hi)]
  · cases hx : p x <;> simp [hx]

theorem filterMap_pickedIdxs (p : α → Bool) (l : List α) : (pickedIdxs p l).filterMap (l[·]?) = l.filter p := by
  induction l using List.reverseRecOn with
  | nil => rfl
  | append_singleton l x ih =>
    rw [pickedIdxs_concat, List.filterMap_append, List.filter_append, ← ih]
    congr 1
    · refine List.filterMap_congr fun i hi => ?_
      simp only [pickedIdxs, List.mem_filter, List.mem_range] at hi
      rw [List.getElem?_append_left hi.1]
    · cases hx : p x <;> simp [hx]

theorem foldl_swapRemove_of_ok {is : List ℕ} : ∀ {l kept : List α}, swapRemoveAll l is = .ok kept →
    is.foldl swapRemove l = kept := by
  induction is with
  | nil =>
    intro l kept h
    exact Except.ok.inj h
  | cons i is ih =>
    intro l kept h
    simp only [swapRemoveAll] at h
    split at h
    · exact ih h
    · cases h

/-- **Removal by a test.** What the test picks leaves, and the others stay. -/
theorem removeWhere_perm (p : α → Bool) (l : List α) : (removeWhere p l).Perm (l.filter fun a => !p a) := by
  have hdesc : (pickedIdxs p l).reverse.Pairwise (· > ·) := by
    rw [List.pairwise_reverse]
    exact List.Pairwise.filter _ List.pairwise_lt_range
  have hlt : ∀ i ∈ (pickedIdxs p l).reverse, i < l.length := by
    intro i hi
    simp only [List.mem_reverse, pickedIdxs, List.mem_filter, List.mem_range] at hi
    exact hi.1
  obtain ⟨kept, hk, hperm⟩ := swapRemoveAll_perm _ l hdesc hlt
  rw [removeWhere, foldl_swapRemove_of_ok hk]
  have hpicked : ((pickedIdxs p l).reverse.filterMap (l[·]?)).Perm (l.filter p) := by
    rw [List.filterMap_reverse, filterMap_pickedIdxs]
    exact List.reverse_perm _
  have hsplit : (l.filter p ++ l.filter fun a => !p a).Perm l := List.filter_append_perm p l
  have := hsplit.trans (hperm.trans (hpicked.append_right kept))
  exact ((List.perm_append_left_iff _).1 this).symm

end Pegainfer.Lib
