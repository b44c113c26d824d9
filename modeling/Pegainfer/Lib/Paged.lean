/-
Sequences stored in pages of a shared memory.

A row keeps one entry per position of its sequence, `page` positions to a page, and may have given up its first
`origin` pages. The memory is shared: `Stored` says that no page has two owners, and that every position a row still
keeps reads what its prefix of the sequence determines.
- `write`, `writeSpan`: the entries of a span of positions, through the row's pages.
- `copyPages`: whole pages copied, as they are.
- `Stored.grow`, `Stored.release`, `Stored.extend`, `Stored.forget`, `Stored.copy`: a row takes pages, gives up its
  front, is written further, is dropped, or is copied up to a position into pages of its own.
-/
import Mathlib.Tactic
import Pegainfer.Lib.Holdings

namespace Pegainfer.Lib

variable {T K : Type*}

/-- page by page, position by position -/
abbrev PageMemory (K : Type*) := ℕ → ℕ → K

/-- a stored sequence: its first `origin` pages are gone, the next ones are `pages` -/
structure PageRow (T : Type*) where
  tokens : List T
  origin : ℕ
  pages : List ℕ

/-- one position of a page is written -/
def write (mem : PageMemory K) (id slot : ℕ) (k : K) : PageMemory K :=
  Function.update mem id (Function.update (mem id) slot k)

/-- the page that keeps position `p` -/
def PageRow.pageOf (row : PageRow T) (page p : ℕ) : Option ℕ := row.pages[p / page - row.origin]?

/-- position `p` is written with what the sequence up to it determines -/
def PageRow.writeAt (row : PageRow T) (page : ℕ) (keyOf : List T → K) (mem : PageMemory K) (p : ℕ) : PageMemory K :=
  match row.pageOf page p with
  | none => mem
  | some id => write mem id (p % page) (keyOf (row.tokens.take (p + 1)))

/-- the positions from `start` on, `count` of them -/
def PageRow.writeSpan (row : PageRow T) (page : ℕ) (keyOf : List T → K) (mem : PageMemory K) (start count : ℕ) :
    PageMemory K := (List.range' start count).foldl (row.writeAt page keyOf) mem

/-- whole pages, in order -/
def copyPages (mem : PageMemory K) (src dst : List ℕ) : PageMemory K :=
  (src.zip dst).foldl (fun mem p => Function.update mem p.2 (mem p.1)) mem

/-- every position the row still keeps reads what its prefix determines -/
def Keys (page : ℕ) (keyOf : List T → K) (mem : PageMemory K) (row : PageRow T) : Prop :=
  ∀ p, row.origin * page ≤ p → p < row.tokens.length →
    ∃ id, row.pageOf page p = some id ∧ mem id (p % page) = keyOf (row.tokens.take (p + 1))

section Rows

variable {page : ℕ} {keyOf : List T → K} {mem mem' : PageMemory K} {row : PageRow T}

theorem PageRow.pageOf_mem {p id : ℕ} (h : row.pageOf page p = some id) : id ∈ row.pages := List.mem_of_getElem? h

/-- a row whose pages read the same reads the same -/
theorem Keys.frame (h : Keys page keyOf mem row) (hmem : ∀ id ∈ row.pages, mem' id = mem id) :
    Keys page keyOf mem' row := by
  intro p hlow hhigh
  obtain ⟨id, hid, hkey⟩ := h p hlow hhigh
  exact ⟨id, hid, by rw [hmem id (PageRow.pageOf_mem hid), hkey]⟩

/-- distinct positions of a row are kept at distinct places -/
theorem PageRow.pageOf_inj (hn : row.pages.Nodup) {p q id : ℕ} (hp : row.origin * page ≤ p)
    (hq : row.origin * page ≤ q) (hpage : 0 < page) (h : row.pageOf page p = some id) (h' : row.pageOf page q = some id)
    (hslot : p % page = q % page) : p = q := by
  obtain ⟨hi, hpi⟩ := List.getElem?_eq_some_iff.1 h
  obtain ⟨hj, hqj⟩ := List.getElem?_eq_some_iff.1 h'
  have hidx := (List.Nodup.getElem_inj_iff hn).1 (hpi.trans hqj.symm)
  have hple := (Nat.le_div_iff_mul_le hpage).2 hp
  have hqle := (Nat.le_div_iff_mul_le hpage).2 hq
  have hdiv : p / page = q / page := by omega
  rw [← Nat.div_add_mod p page, ← Nat.div_add_mod q page, hdiv, hslot]

theorem write_same (id slot : ℕ) (k : K) : write mem id slot k id slot = k := by simp [write]

theorem write_other_page {id id' : ℕ} (slot : ℕ) (k : K) (h : id' ≠ id) : write mem id slot k id' = mem id' := by
  simp [write, Function.update_of_ne h]

theorem write_other_slot {slot slot' : ℕ} (id : ℕ) (k : K) (h : slot' ≠ slot) :
    write mem id slot k id slot' = mem id slot' := by simp [write, Function.update_of_ne h]

/-- writing through a row touches its own pages only -/
theorem PageRow.writeSpan_other {start count id : ℕ} (h : id ∉ row.pages) :
    row.writeSpan page keyOf mem start count id = mem id := by
  unfold PageRow.writeSpan
  induction List.range' start count generalizing mem with
  | nil => rfl
  | cons p ps ih =>
    rw [List.foldl_cons, ih, PageRow.writeAt]
    cases hid' : row.pageOf page p with
    | none => rfl
    | some id' =>
      refine write_other_page _ _ ?_
      rintro rfl
      exact h (PageRow.pageOf_mem hid')

/-- a written position reads what was written, any other of the row what it did -/
theorem PageRow.writeSpan_read (hn : row.pages.Nodup) (hpage : 0 < page) {start count q id : ℕ}
    (hstart : row.origin * page ≤ start) (hq : row.origin * page ≤ q) (hid : row.pageOf page q = some id) :
    row.writeSpan page keyOf mem start count id (q % page) =
      if start ≤ q ∧ q < start + count then keyOf (row.tokens.take (q + 1)) else mem id (q % page) := by
  unfold PageRow.writeSpan
  induction count generalizing start mem with
  | zero =>
    rw [if_neg (by omega)]
    rfl
  | succ count ih =>
    rw [List.range'_succ, List.foldl_cons, ih (by omega)]
    by_cases hqs : q = start
    · subst hqs
      rw [if_neg (by omega), if_pos (by omega)]
      unfold PageRow.writeAt
      rw [hid]
      exact write_same _ _ _
    · have hkeep : row.writeAt page keyOf mem start id (q % page) = mem id (q % page) := by
        rw [PageRow.writeAt]
        cases hid' : row.pageOf page start with
        | none => rfl
        | some id' =>
          by_cases hsame : id = id'
          · subst hsame
            refine write_other_slot _ _ fun hslot => hqs ?_
            exact PageRow.pageOf_inj hn hq hstart hpage hid hid' hslot
          · exact congrFun (write_other_page _ _ hsame) _
      rw [hkeep]
      by_cases hin : start ≤ q ∧ q < start + (count + 1)
      · rw [if_pos hin, if_pos (by omega)]
      · rw [if_neg hin, if_neg (by omega)]

/-- copying touches the destination only -/
theorem copyPages_other {src dst : List ℕ} {id : ℕ} (h : id ∉ dst) : copyPages mem src dst id = mem id := by
  unfold copyPages
  induction src generalizing mem dst with
  | nil => rfl
  | cons s src ih =>
    cases dst with
    | nil => rfl
    | cons d dst =>
      rw [List.mem_cons, not_or] at h
      rw [List.zip_cons_cons, List.foldl_cons, ih h.2, Function.update_of_ne h.1]

/-- a copied page reads what its source did -/
theorem copyPages_read {src dst : List ℕ} (hn : dst.Nodup) (hapart : ∀ id ∈ dst, id ∉ src) {i s d : ℕ}
    (hs : src[i]? = some s) (hd : dst[i]? = some d) : copyPages mem src dst d = mem s := by
  induction src generalizing mem dst i with
  | nil => simp at hs
  | cons s₀ src ih =>
    cases dst with
    | nil => simp at hd
    | cons d₀ dst =>
      obtain ⟨hnew, hn⟩ := List.nodup_cons.1 hn
      have hrest : copyPages mem (s₀ :: src) (d₀ :: dst) = copyPages (Function.update mem d₀ (mem s₀)) src dst := rfl
      rw [hrest]
      cases i with
      | zero =>
        simp only [List.getElem?_cons_zero, Option.some.injEq] at hs hd
        subst hs hd
        rw [copyPages_other hnew, Function.update_self]
      | succ i =>
        rw [List.getElem?_cons_succ] at hs hd
        rw [ih hn (fun id hid => fun hmem => hapart id (List.mem_cons_of_mem _ hid) (List.mem_cons_of_mem _ hmem))
          hs hd]
        refine Function.update_of_ne ?_ _ _
        rintro rfl
        exact hapart _ List.mem_cons_self (List.mem_cons_of_mem _ (List.mem_of_getElem? hs))

end Rows

/-! ## Rows over one memory -/

/-- no page has two owners, and every row reads right -/
structure Stored (page : ℕ) (keyOf : List T → K) (mem : PageMemory K) (spare : Multiset ℕ)
    (rows : List (PageRow T)) : Prop where
  owned : (spare + heldUnits PageRow.pages rows).Nodup
  keys : ∀ row ∈ rows, Keys page keyOf mem row

namespace Stored

variable {page : ℕ} {keyOf : List T → K} {mem mem' : PageMemory K} {spare spare' : Multiset ℕ}
  {rows rows' : List (PageRow T)} {row : PageRow T}

theorem perm (h : Stored page keyOf mem spare rows) (hs : spare' = spare) (hp : rows.Perm rows') :
    Stored page keyOf mem spare' rows' := by
  subst hs
  refine ⟨?_, fun row hrow => h.keys row (hp.mem_iff.2 hrow)⟩
  rw [← heldUnits_perm hp]
  exact h.owned

theorem nodup (h : Stored page keyOf mem spare (row :: rows)) : row.pages.Nodup :=
  heldUnits_nodup (i := 0) (Multiset.nodup_add.1 h.owned).2.1 rfl

/-- the other rows own none of this one's pages -/
theorem apart (h : Stored page keyOf mem spare (row :: rows)) {other : PageRow T} (ho : other ∈ rows) {id : ℕ}
    (hid : id ∈ other.pages) : id ∉ row.pages := by
  have hn := (Multiset.nodup_add.1 h.owned).2.1
  rw [heldUnits_cons, Multiset.nodup_add] at hn
  intro hrow
  exact Multiset.disjoint_left.1 hn.2.2 (Multiset.mem_coe.2 hrow) (mem_heldUnits.2 ⟨other, ho, hid⟩)

/-- spare pages are no row's -/
theorem spare_apart (h : Stored page keyOf mem spare rows) (hr : row ∈ rows) {id : ℕ} (hid : id ∈ spare) :
    id ∉ row.pages := fun hrow =>
  Multiset.disjoint_left.1 (Multiset.nodup_add.1 h.owned).2.2 hid (mem_heldUnits.2 ⟨row, hr, hrow⟩)

/-- a row takes spare pages at its back -/
theorem grow {new : List ℕ} (h : Stored page keyOf mem ((new : Multiset ℕ) + spare) (row :: rows)) :
    Stored page keyOf mem spare ({ row with pages := row.pages ++ new } :: rows) := by
  refine ⟨?_, fun r hr => ?_⟩
  · have hown := h.owned
    rw [heldUnits_cons] at hown ⊢
    dsimp only
    rw [← Multiset.coe_add]
    convert hown using 1
    abel
  · rcases List.mem_cons.1 hr with rfl | hr
    · intro p hlow hhigh
      obtain ⟨id, hid, hkey⟩ := h.keys row List.mem_cons_self p hlow hhigh
      refine ⟨id, ?_, hkey⟩
      obtain ⟨hlt, -⟩ := List.getElem?_eq_some_iff.1 hid
      unfold PageRow.pageOf
      rw [List.getElem?_append_left hlt]
      exact hid
    · exact h.keys r (List.mem_cons_of_mem _ hr)

/-- a row gives up pages at its front -/
theorem release (hpage : 0 < page) (k : ℕ) (h : Stored page keyOf mem spare (row :: rows)) :
    Stored page keyOf mem ((row.pages.take k : List ℕ) + spare)
      ({ row with origin := row.origin + k, pages := row.pages.drop k } :: rows) := by
  refine ⟨?_, fun r hr => ?_⟩
  · have hown := h.owned
    rw [heldUnits_cons] at hown ⊢
    dsimp only
    rw [← List.take_append_drop k row.pages, ← Multiset.coe_add] at hown
    convert hown using 1
    abel
  · rcases List.mem_cons.1 hr with rfl | hr
    · intro p hlow hhigh
      dsimp only at hlow hhigh
      have hle : row.origin * page ≤ p := (Nat.mul_le_mul_right page (Nat.le_add_right _ _)).trans hlow
      obtain ⟨id, hid, hkey⟩ := h.keys row List.mem_cons_self p hle hhigh
      refine ⟨id, ?_, hkey⟩
      unfold PageRow.pageOf at hid ⊢
      dsimp only
      have hdiv := (Nat.le_div_iff_mul_le hpage).2 hlow
      rw [List.getElem?_drop, ← hid]
      congr 1
      omega
    · exact h.keys r (List.mem_cons_of_mem _ hr)

/-- a row that has the pages for it is written further -/
theorem extend (hpage : 0 < page) (more : List T) (h : Stored page keyOf mem spare (row :: rows))
    (hlow : row.origin * page ≤ row.tokens.length)
    (hheld : row.tokens.length + more.length ≤ (row.origin + row.pages.length) * page) :
    Stored page keyOf
      (PageRow.writeSpan { row with tokens := row.tokens ++ more } page keyOf mem row.tokens.length more.length) spare
      ({ row with tokens := row.tokens ++ more } :: rows) := by
  refine ⟨h.owned, fun r hr => ?_⟩
  rcases List.mem_cons.1 hr with rfl | hr
  · intro p hp hlt
    dsimp only at hp hlt
    rw [List.length_append] at hlt
    have hpos : p / page - row.origin < row.pages.length := by
      have hdiv : p / page < row.origin + row.pages.length := by
        rw [Nat.div_lt_iff_lt_mul hpage]
        omega
      have hge := (Nat.le_div_iff_mul_le hpage).2 hp
      omega
    have hid : PageRow.pageOf { row with tokens := row.tokens ++ more } page p =
        some row.pages[p / page - row.origin] := List.getElem?_eq_getElem hpos
    refine ⟨_, hid, ?_⟩
    have hnodup : ({ row with tokens := row.tokens ++ more } : PageRow T).pages.Nodup := h.nodup
    rw [PageRow.writeSpan_read hnodup hpage hlow hp hid]
    by_cases hnew : row.tokens.length ≤ p
    · rw [if_pos ⟨hnew, hlt⟩]
    · rw [if_neg (by omega)]
      obtain ⟨id, hid', hkey⟩ := h.keys row List.mem_cons_self p hp (by omega)
      have hsame : id = row.pages[p / page - row.origin] := by
        rw [PageRow.pageOf, List.getElem?_eq_getElem hpos] at hid'
        exact (Option.some.inj hid').symm
      rw [← hsame, hkey, List.take_append_of_le_length (by omega)]
  · refine (h.keys r (List.mem_cons_of_mem _ hr)).frame fun id hid => ?_
    exact PageRow.writeSpan_other (h.apart hr hid)

/-- a dropped row's pages are spare again -/
theorem forget (h : Stored page keyOf mem spare (row :: rows)) :
    Stored page keyOf mem ((row.pages : Multiset ℕ) + spare) rows := by
  refine ⟨?_, fun r hr => h.keys r (List.mem_cons_of_mem _ hr)⟩
  have hown := h.owned
  rw [heldUnits_cons] at hown
  convert hown using 1
  abel

/-- an empty row -/
theorem fresh (h : Stored page keyOf mem spare rows) : Stored page keyOf mem spare (⟨[], 0, []⟩ :: rows) := by
  refine ⟨by simpa using h.owned, fun r hr => ?_⟩
  rcases List.mem_cons.1 hr with rfl | hr
  · intro p _ hlt
    exact absurd hlt (Nat.not_lt_zero p)
  · exact h.keys r hr

/-- a row up to position `t` and from page `origin` on is copied into spare pages -/
theorem copy (hpage : 0 < page) {new : List ℕ} (t origin : ℕ)
    (h : Stored page keyOf mem ((new : Multiset ℕ) + spare) rows) (hr : row ∈ rows) (ht : t ≤ row.tokens.length)
    (horigin : row.origin ≤ origin) (hlen : t ≤ (origin + new.length) * page) :
    Stored page keyOf (copyPages mem ((row.pages.drop (origin - row.origin)).take new.length) new) spare
      (⟨row.tokens.take t, origin, new⟩ :: rows) := by
  have hfresh : ∀ r ∈ rows, ∀ id ∈ r.pages, id ∉ new := fun r hrow id hid hnew =>
    h.spare_apart hrow (Multiset.mem_add.2 (Or.inl (Multiset.mem_coe.2 hnew))) hid
  refine ⟨?_, fun r hmem => ?_⟩
  · have hown := h.owned
    rw [heldUnits_cons]
    dsimp only
    convert hown using 1
    abel
  · rcases List.mem_cons.1 hmem with rfl | hmem
    · intro p hp hlt
      dsimp only at hp hlt
      rw [List.length_take] at hlt
      have hge := (Nat.le_div_iff_mul_le hpage).2 hp
      have hpos : p / page - origin < new.length := by
        have hdiv : p / page < origin + new.length := by
          rw [Nat.div_lt_iff_lt_mul hpage]
          omega
        omega
      have hid : PageRow.pageOf (⟨row.tokens.take t, origin, new⟩ : PageRow T) page p = some new[p / page - origin] :=
        List.getElem?_eq_getElem hpos
      have hlow : row.origin * page ≤ p := (Nat.mul_le_mul_right page horigin).trans hp
      obtain ⟨id, hid', hkey⟩ := h.keys row hr p hlow (by omega)
      have hsource : ((row.pages.drop (origin - row.origin)).take new.length)[p / page - origin]? = some id := by
        rw [List.getElem?_take_of_lt hpos, List.getElem?_drop, ← hid', PageRow.pageOf]
        congr 1
        omega
      have hn : new.Nodup := Multiset.coe_nodup.1 (Multiset.nodup_add.1 (Multiset.nodup_add.1 h.owned).1).1
      refine ⟨_, hid, ?_⟩
      rw [copyPages_read hn ?_ hsource (List.getElem?_eq_getElem hpos), hkey, List.take_take, min_eq_left (by omega)]
      intro d hd hmem
      exact hfresh row hr d (List.drop_subset _ _ (List.take_subset _ _ hmem)) hd
    · refine (h.keys r hmem).frame fun id hid => copyPages_other (hfresh r hmem id hid)

end Stored

end Pegainfer.Lib
