/-
Rows taken apart by a key and put back by their indices.

- `pushGroup`, `groupBy`: the indices of the rows, one group to a key, groups in order of first appearance.
- `takeRows`, `takeGroups`: the rows of the groups moved out of their list, each at most once.
- `restore`: rows back in the order of their indices.
- `takeGroups_groupBy`: taking the groups of a list apart moves every row out, each to the group of its key.
- `restore_eq`: whatever order the parts were handled in, the rows kept come back in the order of the list.
-/
import Mathlib.Tactic

namespace Pegainfer.Lib

variable {α β κ : Type*}

/-! ## Back in order -/

/-- the rows with their indices -/
def enumerate (rows : List α) : List (ℕ × α) := rows.zipIdx.map Prod.swap

/-- the rows in the order of their indices -/
def restore (rows : List (ℕ × α)) : List α := (rows.mergeSort fun a b => decide (a.1 ≤ b.1)).map Prod.snd

/-- a row handled where it stands -/
def keepAt (f : α → Option β) (row : ℕ × α) : Option (ℕ × β) := (f row.2).map fun b => (row.1, b)

theorem enumerate_fst (rows : List α) : (enumerate rows).map Prod.fst = List.range rows.length := by
  rw [enumerate, List.map_map, List.range_eq_range']
  exact List.zipIdx_map_snd 0 rows

theorem enumerate_snd (rows : List α) : (enumerate rows).map Prod.snd = rows := by
  rw [enumerate, List.map_map]
  exact List.zipIdx_map_fst 0 rows

/-- indices rise along the rows kept -/
theorem keepAt_sorted (f : α → Option β) {rows : List (ℕ × α)} (h : (rows.map Prod.fst).Pairwise (· < ·)) :
    (rows.filterMap (keepAt f)).Pairwise fun a b => a.1 < b.1 := by
  rw [List.pairwise_map] at h
  refine h.filterMap _ fun a b hab a' ha b' hb => ?_
  obtain ⟨_, -, rfl⟩ := Option.map_eq_some_iff.1 ha
  obtain ⟨_, -, rfl⟩ := Option.map_eq_some_iff.1 hb
  exact hab

theorem keepAt_snd (f : α → Option β) (rows : List (ℕ × α)) :
    (rows.filterMap (keepAt f)).map Prod.snd = (rows.map Prod.snd).filterMap f := by
  induction rows with
  | nil => rfl
  | cons row rows ih =>
    rw [List.map_cons]
    cases h : f row.2 with
    | none => rw [List.filterMap_cons_none (by rw [keepAt, h]; rfl), List.filterMap_cons_none h, ih]
    | some b =>
      rw [List.filterMap_cons_some (by rw [keepAt, h]; rfl), List.filterMap_cons_some h, List.map_cons, ih]

/-- **The rows kept come back in order**, however they were grouped on the way. -/
theorem restore_eq (f : α → Option β) {rows : List α} {kept : List (ℕ × β)}
    (h : kept.Perm ((enumerate rows).filterMap (keepAt f))) : restore kept = rows.filterMap f := by
  have hsorted : ((enumerate rows).filterMap (keepAt f)).Pairwise fun a b => a.1 < b.1 := by
    apply keepAt_sorted
    rw [enumerate_fst]
    exact List.pairwise_lt_range
  have hmerge : kept.mergeSort (fun a b => decide (a.1 ≤ b.1)) = (enumerate rows).filterMap (keepAt f) := by
    have hperm := (List.mergeSort_perm kept fun a b => decide (a.1 ≤ b.1)).trans h
    have hle : (kept.mergeSort fun a b => decide (a.1 ≤ b.1)).Pairwise fun a b => a.1 ≤ b.1 := by
      refine (List.pairwise_mergeSort ?_ ?_ kept).imp of_decide_eq_true
      · intro a b c hab hbc
        exact decide_eq_true ((of_decide_eq_true hab).trans (of_decide_eq_true hbc))
      · intro a b
        rcases Nat.le_total a.1 b.1 with hab | hab
        · rw [decide_eq_true hab, Bool.true_or]
        · rw [decide_eq_true hab, Bool.or_true]
    -- two rows of one index are one row
    refine hperm.eq_of_pairwise (fun a b ha hb hab hba => ?_) hle (hsorted.imp fun hab => hab.le)
    have ha' := hperm.mem_iff.1 ha
    by_contra hne
    have hlt := List.pairwise_iff_getElem.1 hsorted
    obtain ⟨i, hi, rfl⟩ := List.getElem_of_mem ha'
    obtain ⟨j, hj, rfl⟩ := List.getElem_of_mem hb
    rcases Nat.lt_trichotomy i j with hij | rfl | hij
    · exact absurd (hlt i j hi hj hij) (by omega)
    · exact hne rfl
    · exact absurd (hlt j i hj hi hij) (by omega)
  rw [restore, hmerge, keepAt_snd, enumerate_snd]

/-! ## Apart by key -/

section Groups

variable [DecidableEq κ]

/-- an index joins the first group of its key, or opens one -/
def pushGroup (key : κ) (i : ℕ) : List (κ × List ℕ) → List (κ × List ℕ)
  | [] => [(key, [i])]
  | group :: groups => if group.1 = key then (group.1, group.2 ++ [i]) :: groups else group :: pushGroup key i groups

/-- the indices of the keys, one group to a key -/
def groupBy (keys : List κ) : List (κ × List ℕ) :=
  (enumerate keys).foldl (fun groups row => pushGroup row.2 row.1 groups) []

theorem pushGroup_perm (key : κ) (i : ℕ) (groups : List (κ × List ℕ)) :
    ((pushGroup key i groups).flatMap Prod.snd).Perm (groups.flatMap Prod.snd ++ [i]) := by
  induction groups with
  | nil => exact List.Perm.refl _
  | cons group groups ih =>
    rw [pushGroup]
    split_ifs with hkey
    · rw [List.flatMap_cons, List.flatMap_cons, List.append_assoc, List.append_assoc]
      exact List.perm_append_comm.append_left _
    · rw [List.flatMap_cons, List.flatMap_cons, List.append_assoc]
      exact ih.append_left _

/-- every member of a group has the group's key -/
def Keyed (keys : List κ) (groups : List (κ × List ℕ)) : Prop :=
  ∀ group ∈ groups, group.2 ≠ [] ∧ ∀ i ∈ group.2, keys[i]? = some group.1

theorem Keyed.push {keys : List κ} {groups : List (κ × List ℕ)} (h : Keyed keys groups) {key : κ} {i : ℕ}
    (hi : keys[i]? = some key) : Keyed keys (pushGroup key i groups) := by
  induction groups with
  | nil =>
    intro group hgroup
    rw [List.mem_singleton.1 hgroup]
    refine ⟨List.cons_ne_nil _ _, fun j hj => ?_⟩
    rw [List.mem_singleton.1 hj]
    exact hi
  | cons group groups ih =>
    have hrest : Keyed keys groups := fun g hg => h g (List.mem_cons_of_mem _ hg)
    obtain ⟨hne, hmem⟩ := h group List.mem_cons_self
    rw [pushGroup]
    split_ifs with hkey
    · intro g hg
      rcases List.mem_cons.1 hg with rfl | hg
      · refine ⟨List.append_ne_nil_of_left_ne_nil hne _, fun j hj => ?_⟩
        rcases List.mem_append.1 hj with hj | hj
        · exact hmem j hj
        · rw [List.mem_singleton.1 hj, hi, hkey]
      · exact hrest g hg
    · intro g hg
      rcases List.mem_cons.1 hg with rfl | hg
      · exact ⟨hne, hmem⟩
      · exact ih hrest g hg

/-- **Groups.** Every index is in one group, its key's. -/
theorem groupBy_spec (keys : List κ) :
    ((groupBy keys).flatMap Prod.snd).Perm (List.range keys.length) ∧ Keyed keys (groupBy keys) := by
  suffices h : ∀ (rows : List (ℕ × κ)) (groups : List (κ × List ℕ)), Keyed keys groups →
      (∀ row ∈ rows, keys[row.1]? = some row.2) →
      ((rows.foldl (fun groups row => pushGroup row.2 row.1 groups) groups).flatMap Prod.snd).Perm
        (groups.flatMap Prod.snd ++ rows.map Prod.fst) ∧
        Keyed keys (rows.foldl (fun groups row => pushGroup row.2 row.1 groups) groups) by
    obtain ⟨hperm, hkeyed⟩ := h (enumerate keys) [] nofun (fun row hrow => by
      obtain ⟨⟨key, i⟩, hmem, rfl⟩ := List.mem_map.1 hrow
      exact List.mem_zipIdx_iff_getElem?.1 hmem)
    rw [enumerate_fst] at hperm
    exact ⟨hperm, hkeyed⟩
  intro rows
  induction rows with
  | nil =>
    intro groups hkeyed _
    refine ⟨?_, hkeyed⟩
    rw [List.map_nil, List.append_nil]
    exact List.Perm.refl _
  | cons row rows ih =>
    intro groups hkeyed hrows
    obtain ⟨hperm, hkeyed'⟩ := ih (pushGroup row.2 row.1 groups) (hkeyed.push (hrows row List.mem_cons_self))
      fun r hr => hrows r (List.mem_cons_of_mem _ hr)
    refine ⟨hperm.trans ?_, hkeyed'⟩
    rw [List.map_cons, ← List.singleton_append, ← List.append_assoc]
    exact (pushGroup_perm row.2 row.1 groups).append_right _

end Groups

/-! ## Moved out -/

/-- the rows at the indices, moved out of their places -/
def takeRows : List ℕ → List (Option α) → Option (List (ℕ × α) × List (Option α))
  | [], places => some ([], places)
  | i :: is, places =>
    match places[i]? with
    | some (some a) => (takeRows is (places.set i none)).map fun r => ((i, a) :: r.1, r.2)
    | _ => none

/-- group by group -/
def takeGroups : List (List ℕ) → List (Option α) → Option (List (List (ℕ × α)))
  | [], _ => some []
  | is :: groups, places =>
    match takeRows is places with
    | none => none
    | some r => (takeGroups groups r.2).map fun rest => r.1 :: rest

/-- places that still hold what `rows` has there -/
def Placed (rows : List α) (places : List (Option α)) (is : List ℕ) : Prop :=
  ∀ i ∈ is, ∃ a, rows[i]? = some a ∧ places[i]? = some (some a)

theorem takeRows_spec {rows : List α} {is js : List ℕ} {places : List (Option α)} (hn : (is ++ js).Nodup)
    (h : Placed rows places (is ++ js)) :
    ∃ taken places', takeRows is places = some (taken, places') ∧ taken.map Prod.fst = is ∧
      (∀ row ∈ taken, rows[row.1]? = some row.2) ∧ Placed rows places' js := by
  induction is generalizing places with
  | nil => exact ⟨[], places, rfl, rfl, nofun, h⟩
  | cons i is ih =>
    rw [List.cons_append, List.nodup_cons] at hn
    obtain ⟨a, hrow, hplace⟩ := h i List.mem_cons_self
    have hrest : Placed rows (places.set i none) (is ++ js) := by
      intro j hj
      obtain ⟨b, hb, hb'⟩ := h j (List.mem_cons_of_mem _ hj)
      refine ⟨b, hb, ?_⟩
      rw [List.getElem?_set_ne (fun hij : i = j => hn.1 (hij ▸ hj))]
      exact hb'
    obtain ⟨taken, places', htake, hfst, hrows, hplaced⟩ := ih hn.2 hrest
    refine ⟨(i, a) :: taken, places', ?_, by rw [List.map_cons, hfst], fun row hmem => ?_, hplaced⟩
    · rw [takeRows, hplace]
      dsimp only
      rw [htake]
      rfl
    · rcases List.mem_cons.1 hmem with rfl | hmem
      · exact hrow
      · exact hrows row hmem

theorem takeGroups_spec {rows : List α} {groups : List (List ℕ)} {places : List (Option α)}
    (hn : groups.flatten.Nodup) (h : Placed rows places groups.flatten) :
    ∃ taken, takeGroups groups places = some taken ∧ taken.map (List.map Prod.fst) = groups ∧
      ∀ row ∈ taken.flatten, rows[row.1]? = some row.2 := by
  induction groups generalizing places with
  | nil => exact ⟨[], rfl, rfl, nofun⟩
  | cons is groups ih =>
    rw [List.flatten_cons] at hn h
    obtain ⟨taken, places', htake, hfst, hrows, hplaced⟩ := takeRows_spec hn h
    obtain ⟨rest, hrest, hmap, hrows'⟩ := ih (List.nodup_append.1 hn).2.1 hplaced
    refine ⟨taken :: rest, ?_, by rw [List.map_cons, hfst, hmap], fun row hmem => ?_⟩
    · rw [takeGroups, htake]
      dsimp only
      rw [hrest]
      rfl
    · rw [List.flatten_cons] at hmem
      rcases List.mem_append.1 hmem with hmem | hmem
      · exact hrows row hmem
      · exact hrows' row hmem

/-- rows that stand where their indices say, one to an index, are the list's own -/
theorem perm_enumerate {rows : List α} {taken : List (ℕ × α)}
    (hfst : (taken.map Prod.fst).Perm (List.range rows.length)) (h : ∀ row ∈ taken, rows[row.1]? = some row.2) :
    taken.Perm (enumerate rows) := by
  have hrange : (enumerate rows).map Prod.fst = List.range rows.length := enumerate_fst rows
  have hnodup : taken.Nodup := List.Nodup.of_map Prod.fst (hfst.nodup_iff.2 List.nodup_range)
  have hnodup' : (enumerate rows).Nodup := List.Nodup.of_map Prod.fst (hrange ▸ List.nodup_range)
  refine (List.perm_ext_iff_of_nodup hnodup hnodup').2 fun row => ⟨fun hrow => ?_, fun hrow => ?_⟩
  · refine List.mem_map.2 ⟨(row.2, row.1), List.mem_zipIdx_iff_getElem?.2 (h row hrow), rfl⟩
  · have hat : rows[row.1]? = some row.2 := by
      obtain ⟨⟨a, i⟩, hmem, rfl⟩ := List.mem_map.1 hrow
      exact List.mem_zipIdx_iff_getElem?.1 hmem
    have hi : row.1 ∈ taken.map Prod.fst := by
      refine hfst.mem_iff.2 (List.mem_range.2 ?_)
      exact (List.getElem?_eq_some_iff.1 hat).1
    obtain ⟨row', hrow', heq⟩ := List.mem_map.1 hi
    have hsnd := h row' hrow'
    rw [heq, hat, Option.some.injEq] at hsnd
    rwa [show row = row' from Prod.ext heq.symm hsnd]

/-- **Taken apart.** The groups of a list's keys take every row out once, and each group's rows have its key. -/
theorem takeGroups_groupBy [DecidableEq κ] (key : α → κ) (rows : List α) :
    ∃ taken, takeGroups ((groupBy (rows.map key)).map Prod.snd) (rows.map some) = some taken ∧
      taken.flatten.Perm (enumerate rows) ∧
      ∀ group ∈ taken, group ≠ [] ∧ ∃ k, ∀ row ∈ group, key row.2 = k := by
  obtain ⟨hperm, hkeyed⟩ := groupBy_spec (rows.map key)
  rw [List.length_map, List.flatMap_def] at hperm
  have hplaced : Placed rows (rows.map some) ((groupBy (rows.map key)).map Prod.snd).flatten := by
    intro i hi
    have hlt := List.mem_range.1 (hperm.mem_iff.1 hi)
    refine ⟨rows[i], List.getElem?_eq_getElem hlt, ?_⟩
    rw [List.getElem?_map, List.getElem?_eq_getElem hlt]
    rfl
  obtain ⟨taken, htake, hfst, hrows⟩ := takeGroups_spec (hperm.nodup_iff.2 List.nodup_range) hplaced
  refine ⟨taken, htake, perm_enumerate ?_ hrows, fun group hgroup => ?_⟩
  · rw [List.map_flatten, hfst]
    exact hperm
  · have hmem : group.map Prod.fst ∈ (groupBy (rows.map key)).map Prod.snd := hfst ▸ List.mem_map_of_mem hgroup
    obtain ⟨⟨k, is⟩, hplan, his⟩ := List.mem_map.1 hmem
    obtain ⟨hne, hkey⟩ := hkeyed _ hplan
    dsimp only at his hne hkey
    refine ⟨fun hnil => hne (by rw [his, hnil]; rfl), k, fun row hrow => ?_⟩
    have hat := hrows row (List.mem_flatten.2 ⟨group, hgroup, hrow⟩)
    have hk := hkey row.1 (his ▸ List.mem_map_of_mem hrow)
    rw [List.getElem?_map, hat] at hk
    exact Option.some.inj hk

end Pegainfer.Lib
