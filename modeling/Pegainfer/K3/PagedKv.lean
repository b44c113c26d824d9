/-
The paged latent cache of one rank.

A slot's positions live in pages claimed from a free list and found through the slot's row of a block table.
- `Owned`: no page has two owners. Claims, stores, copies and releases keep it.
- `read`: the latent a slot keeps at a position. Claiming a page, or writing another position, leaves it as it is.
-/
import Mathlib.Tactic
import Pegainfer.Lib.Fallible

namespace Pegainfer.K3

open Pegainfer.Lib

/-! ## Model -/

def k3KvPageTokens : ℕ := 64

/-- the slab page by page and token by token, the block table, and the pages nobody holds, next one first -/
structure K3PagedKv (κ : Type) where
  slab : ℕ → ℕ → κ
  maxPagesPerSlot : ℕ
  table : ℕ → ℕ → Option ℕ
  free : List ℕ

variable {κ : Type}

namespace K3PagedKv

variable (kv : K3PagedKv κ)

/-- a table row's entry -/
def mapPage (row pageSlot page : ℕ) : ℕ → ℕ → Option ℕ :=
  Function.update kv.table row (Function.update (kv.table row) pageSlot (some page))

/-- a freshly claimed page is zeroed -/
def ensureMapped [Inhabited κ] (row position : ℕ) : Except String (K3PagedKv κ) :=
  let pageSlot := position / k3KvPageTokens
  if pageSlot < kv.maxPagesPerSlot then
    match kv.table row pageSlot with
    | some _ => .ok kv
    | none =>
      match kv.free with
      | page :: free =>
        .ok { kv with
          slab := Function.update kv.slab page fun _ => default
          table := kv.mapPage row pageSlot page
          free := free }
      | [] => .error "K3 KV pool is out of pages; raise kv_pages"
  else .error s!"K3 KV row {row} position {position} exceeds its {kv.maxPagesPerSlot} pages"

/-- where a row's cache write at a position goes -/
def writeIndex (row position : ℕ) : Except String (ℕ × ℕ) :=
  match kv.table row (position / k3KvPageTokens) with
  | some page => .ok (page, position % k3KvPageTokens)
  | none => .error s!"K3 KV row {row} position {position} has no mapped page"

def releaseRow (row : ℕ) : K3PagedKv κ :=
  { kv with
    table := Function.update kv.table row fun _ => none
    free := ((List.range kv.maxPagesPerSlot).filterMap (kv.table row)).reverse ++ kv.free }

/-- a page of a source row, its latents by position, over a page -/
def copyPage (source : ℕ → κ) (pageSlot target : ℕ) : K3PagedKv κ :=
  { kv with slab := Function.update kv.slab target fun token => source (pageSlot * k3KvPageTokens + token) }

/-- the indexed store of one latent -/
def append (index : ℕ × ℕ) (latent : κ) : K3PagedKv κ :=
  { kv with slab := Function.update kv.slab index.1 (Function.update (kv.slab index.1) index.2 latent) }

/-- the latent a row keeps at a position -/
def read (row position : ℕ) : Option κ :=
  (kv.table row (position / k3KvPageTokens)).map fun page => kv.slab page (position % k3KvPageTokens)

/-! ## Ownership -/

/-- every page is free or mapped once -/
structure Owned : Prop where
  free : kv.free.Nodup
  apart : ∀ row pageSlot page, kv.table row pageSlot = some page → page ∉ kv.free
  once : ∀ row pageSlot row' pageSlot' page, kv.table row pageSlot = some page → kv.table row' pageSlot' = some page →
    row = row' ∧ pageSlot = pageSlot'
  within : ∀ row pageSlot page, kv.table row pageSlot = some page → pageSlot < kv.maxPagesPerSlot

variable {kv} {kv' : K3PagedKv κ} {row row' position position' pageSlot page : ℕ} {latent : κ}

theorem mapPage_cases (h : kv.mapPage row pageSlot page row' position = some position') :
    (row' = row ∧ position = pageSlot ∧ position' = page) ∨ kv.table row' position = some position' := by
  unfold mapPage at h
  by_cases hrow : row' = row
  · subst hrow
    rw [Function.update_self] at h
    by_cases hslot : position = pageSlot
    · subst hslot
      rw [Function.update_self] at h
      exact .inl ⟨rfl, rfl, (Option.some.inj h).symm⟩
    · rw [Function.update_of_ne hslot] at h
      exact .inr h
  · rw [Function.update_of_ne hrow] at h
    exact .inr h

/-- what a claim changes -/
inductive Claimed [Inhabited κ] (kv : K3PagedKv κ) (row pageSlot : ℕ) : K3PagedKv κ → Prop
  | mapped (page : ℕ) (h : kv.table row pageSlot = some page) : Claimed kv row pageSlot kv
  | fresh (page : ℕ) (free : List ℕ) (hunmapped : kv.table row pageSlot = none) (hfree : kv.free = page :: free) :
      Claimed kv row pageSlot { kv with
        slab := Function.update kv.slab page fun _ => default
        table := kv.mapPage row pageSlot page
        free := free }

section Claims

variable [Inhabited κ]

theorem ensureMapped_claimed (h : kv.ensureMapped row position = .ok kv') :
    position / k3KvPageTokens < kv.maxPagesPerSlot ∧ Claimed kv row (position / k3KvPageTokens) kv' := by
  unfold ensureMapped at h
  dsimp only at h
  split_ifs at h with hlt
  rcases hentry : kv.table row (position / k3KvPageTokens) with _ | page
  · rw [hentry] at h
    rcases hfree : kv.free with _ | ⟨page, free⟩
    · rw [hfree] at h
      cases h
    · rw [hfree] at h
      obtain rfl := Except.ok.inj h
      exact ⟨hlt, .fresh page free hentry hfree⟩
  · rw [hentry] at h
    obtain rfl := Except.ok.inj h
    exact ⟨hlt, .mapped page hentry⟩

theorem Claimed.entry (h : Claimed kv row pageSlot kv') : ∃ page, kv'.table row pageSlot = some page := by
  cases h with
  | mapped page h => exact ⟨page, h⟩
  | fresh page free hunmapped hfree =>
    refine ⟨page, ?_⟩
    change kv.mapPage row pageSlot page row pageSlot = some page
    rw [mapPage, Function.update_self, Function.update_self]

theorem Claimed.maxPages (h : Claimed kv row pageSlot kv') : kv'.maxPagesPerSlot = kv.maxPagesPerSlot := by
  cases h with
  | mapped => rfl
  | fresh => rfl

/-- an entry stays what it was -/
theorem Claimed.keeps (h : Claimed kv row pageSlot kv') (hentry : kv.table row' position = some page) :
    kv'.table row' position = some page := by
  cases h with
  | mapped => exact hentry
  | fresh claimed free hunmapped hfree =>
    change kv.mapPage row pageSlot claimed row' position = some page
    unfold mapPage
    by_cases hrow : row' = row
    · subst hrow
      rw [Function.update_self]
      by_cases hslot : position = pageSlot
      · subst hslot
        exact absurd (hentry.symm.trans hunmapped) (Option.some_ne_none page)
      · rw [Function.update_of_ne hslot]
        exact hentry
    · rw [Function.update_of_ne hrow]
      exact hentry

theorem Claimed.other_row (h : Claimed kv row pageSlot kv') (hne : row' ≠ row) : kv'.table row' = kv.table row' := by
  cases h with
  | mapped => rfl
  | fresh page free hunmapped hfree => exact Function.update_of_ne hne _ _

theorem Claimed.owned (h : Claimed kv row pageSlot kv') (hlt : pageSlot < kv.maxPagesPerSlot) (howned : kv.Owned) :
    kv'.Owned := by
  cases h with
  | mapped => exact howned
  | fresh page free hunmapped hfree =>
    have hnodup : (page :: free).Nodup := hfree ▸ howned.free
    have hclaimed : ∀ row pageSlot, kv.table row pageSlot ≠ some page := fun row pageSlot hentry =>
      howned.apart row pageSlot page hentry (hfree ▸ List.mem_cons_self)
    refine ⟨(List.nodup_cons.1 hnodup).2, fun r s p hentry => ?_, fun r s r' s' p hentry hentry' => ?_,
      fun r s p hentry => ?_⟩
    · rcases mapPage_cases hentry with ⟨-, -, rfl⟩ | hold
      · exact (List.nodup_cons.1 hnodup).1
      · exact fun hin => howned.apart r s p hold (hfree ▸ List.mem_cons_of_mem _ hin)
    · rcases mapPage_cases hentry with ⟨rfl, rfl, rfl⟩ | hold
      · rcases mapPage_cases hentry' with ⟨rfl, rfl, -⟩ | hold'
        · exact ⟨rfl, rfl⟩
        · exact absurd hold' (hclaimed r' s')
      · rcases mapPage_cases hentry' with ⟨-, -, rfl⟩ | hold'
        · exact absurd hold (hclaimed r s)
        · exact howned.once r s r' s' p hold hold'
    · rcases mapPage_cases hentry with ⟨-, rfl, -⟩ | hold
      · exact hlt
      · exact howned.within r s p hold

/-- claiming a page changes no latent that is kept -/
theorem Claimed.read (h : Claimed kv row pageSlot kv') (howned : kv.Owned) (hread : kv.read row' position = some latent) :
    kv'.read row' position = some latent := by
  obtain ⟨page, hentry, hlatent⟩ := Option.map_eq_some_iff.1 hread
  refine Option.map_eq_some_iff.2 ⟨page, h.keeps hentry, ?_⟩
  cases h with
  | mapped => exact hlatent
  | fresh claimed free hunmapped hfree =>
    have hne : page ≠ claimed := by
      rintro rfl
      exact howned.apart row' _ page hentry (hfree ▸ List.mem_cons_self)
    change Function.update kv.slab claimed (fun _ => default) page _ = latent
    rw [Function.update_of_ne hne]
    exact hlatent

end Claims

/-! ## Stores -/

theorem writeIndex_ok_iff {index : ℕ × ℕ} : kv.writeIndex row position = .ok index ↔
    kv.table row (position / k3KvPageTokens) = some index.1 ∧ index.2 = position % k3KvPageTokens := by
  unfold writeIndex
  rcases hentry : kv.table row (position / k3KvPageTokens) with _ | page
  · constructor
    · intro h
      cases h
    · rintro ⟨h, -⟩
      cases h
  · constructor
    · intro h
      obtain rfl := Except.ok.inj h
      exact ⟨rfl, rfl⟩
    · rintro ⟨hpage, htoken⟩
      rw [Option.some.inj hpage, ← htoken]

theorem append_owned {index : ℕ × ℕ} (h : kv.Owned) : (kv.append index latent).Owned :=
  ⟨h.free, h.apart, h.once, h.within⟩

theorem append_read_self {index : ℕ × ℕ} (h : kv.writeIndex row position = .ok index) :
    (kv.append index latent).read row position = some latent := by
  obtain ⟨hentry, htoken⟩ := writeIndex_ok_iff.1 h
  refine Option.map_eq_some_iff.2 ⟨index.1, hentry, ?_⟩
  change Function.update kv.slab index.1 _ index.1 _ = latent
  rw [Function.update_self, ← htoken, Function.update_self]

/-- another row or another position keeps its latent -/
theorem append_read_other {index : ℕ × ℕ} (howned : kv.Owned) (h : kv.writeIndex row position = .ok index)
    (hne : row' ≠ row ∨ position' ≠ position) :
    (kv.append index latent).read row' position' = kv.read row' position' := by
  obtain ⟨hentry, htoken⟩ := writeIndex_ok_iff.1 h
  unfold read
  change (kv.table row' _).map _ = (kv.table row' _).map _
  rcases hentry' : kv.table row' (position' / k3KvPageTokens) with _ | page
  · rfl
  · refine congrArg some ?_
    change Function.update kv.slab index.1 _ page _ = kv.slab page _
    by_cases hpage : page = index.1
    · subst hpage
      obtain ⟨rfl, hslot⟩ := howned.once _ _ _ _ _ hentry' hentry
      rw [Function.update_self, Function.update_of_ne]
      rw [htoken]
      intro hmod
      rcases hne with hrow | hposition
      · exact hrow rfl
      · apply hposition
        rw [← Nat.div_add_mod position' k3KvPageTokens, ← Nat.div_add_mod position k3KvPageTokens, hslot, hmod]
    · rw [Function.update_of_ne hpage]

/-! ## Whole rows -/

/-- the position `token` of a page lies in that page -/
theorem page_of {token : ℕ} (h : token < k3KvPageTokens) :
    (pageSlot * k3KvPageTokens + token) / k3KvPageTokens = pageSlot ∧
      (pageSlot * k3KvPageTokens + token) % k3KvPageTokens = token := by
  unfold k3KvPageTokens at h ⊢
  omega

/-- a row reads a copied page as its source, and nothing else changes -/
theorem copyPage_spec (source : ℕ → κ) {target : ℕ} (howned : kv.Owned)
    (htarget : kv.table row pageSlot = some target) :
    (kv.copyPage source pageSlot target).Owned ∧
      (∀ token < k3KvPageTokens, (kv.copyPage source pageSlot target).read row (pageSlot * k3KvPageTokens + token) =
        some (source (pageSlot * k3KvPageTokens + token))) ∧
      ∀ row' position latent, (row' ≠ row ∨ position / k3KvPageTokens ≠ pageSlot) →
        kv.read row' position = some latent → (kv.copyPage source pageSlot target).read row' position = some latent := by
  refine ⟨⟨howned.free, howned.apart, howned.once, howned.within⟩, fun token htoken => ?_, ?_⟩
  · obtain ⟨hpage, hoffset⟩ : (pageSlot * k3KvPageTokens + token) / k3KvPageTokens = pageSlot ∧
        (pageSlot * k3KvPageTokens + token) % k3KvPageTokens = token := page_of htoken
    refine Option.map_eq_some_iff.2 ⟨target, hpage.symm ▸ htarget, ?_⟩
    unfold copyPage
    dsimp only
    rw [Function.update_self, hoffset]
  · intro row' position latent hne hread
    obtain ⟨page, hpage, hlatent⟩ := Option.map_eq_some_iff.1 hread
    refine Option.map_eq_some_iff.2 ⟨page, hpage, ?_⟩
    unfold copyPage
    dsimp only
    rw [Function.update_of_ne, hlatent]
    rintro rfl
    obtain ⟨hrow, hsame⟩ := howned.once _ _ _ _ _ hpage htarget
    rcases hne with hother | hother
    · exact hother hrow
    · exact hother hsame

theorem releaseRow_table_some (h : (kv.releaseRow row).table row' pageSlot = some page) :
    row' ≠ row ∧ kv.table row' pageSlot = some page := by
  change Function.update kv.table row (fun _ => none) row' pageSlot = some page at h
  by_cases hrow : row' = row
  · subst hrow
    rw [Function.update_self] at h
    cases h
  · rw [Function.update_of_ne hrow] at h
    exact ⟨hrow, h⟩

theorem releaseRow_owned (howned : kv.Owned) : (kv.releaseRow row).Owned := by
  have hheld : ∀ page, page ∈ (List.range kv.maxPagesPerSlot).filterMap (kv.table row) ↔
      ∃ pageSlot, kv.table row pageSlot = some page := by
    intro page
    rw [List.mem_filterMap]
    constructor
    · rintro ⟨pageSlot, -, hentry⟩
      exact ⟨pageSlot, hentry⟩
    · rintro ⟨pageSlot, hentry⟩
      exact ⟨pageSlot, List.mem_range.2 (howned.within row pageSlot page hentry), hentry⟩
  refine ⟨?_, fun r s p hentry hin => ?_, fun r s r' s' p hentry hentry' => ?_, fun r s p hentry => ?_⟩
  · refine List.nodup_append.2 ⟨List.nodup_reverse.2 ?_, howned.free, ?_⟩
    · refine List.nodup_range.filterMap ?_
      intro s s' page hentry hentry'
      exact (howned.once row s row s' page hentry hentry').2
    · rintro page hin other hfree rfl
      obtain ⟨pageSlot, hentry⟩ := (hheld page).1 (List.mem_reverse.1 hin)
      exact howned.apart row pageSlot page hentry hfree
  · obtain ⟨hne, hold⟩ := releaseRow_table_some hentry
    rcases List.mem_append.1 hin with hin | hin
    · obtain ⟨pageSlot, hrow⟩ := (hheld p).1 (List.mem_reverse.1 hin)
      exact hne (howned.once r s row pageSlot p hold hrow).1
    · exact howned.apart r s p hold hin
  · exact howned.once r s r' s' p (releaseRow_table_some hentry).2 (releaseRow_table_some hentry').2
  · exact howned.within r s p (releaseRow_table_some hentry).2

theorem releaseRow_read (hne : row' ≠ row) : (kv.releaseRow row).read row' position = kv.read row' position := by
  unfold read
  change (Function.update kv.table row (fun _ => none) row' _).map _ = _
  rw [Function.update_of_ne hne]
  rfl

end K3PagedKv

end Pegainfer.K3
