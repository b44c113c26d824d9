/-
Gemma4's KV over whole runs: requests and cached tails sharing the two pools.

`ServeState` holds the pools with their pages' contents, the live requests and the prefix cache. What the model writes
for a position is a function of the tokens up to it (`Contents`). A request is settled, has tokens admitted, or has an
overlapped prefill in flight; only a settled one is captured, and only one in flight is joined, as the engine does.
- `Inv`, `apply_inv`: accounts agree with the frontiers, no page has two owners, and every page reads right.
-/
import Mathlib.Tactic
import Pegainfer.Gemma4.PrefixCache
import Pegainfer.Lib.Paged

set_option linter.unusedSectionVars false

namespace Pegainfer.Gemma4

open Pegainfer.Kvbm (divCeil divCeil_le_iff le_divCeil_mul divCeil_mono)
open Pegainfer.Lib

variable {T K : Type} [DecidableEq T]

/-! ## The state -/

/-- between its steps a request is settled, has tokens admitted, or has a prefill in flight -/
inductive Phase
  | settled
  | admitted
  | launched
deriving DecidableEq, Repr

/-- a request's families, and the tokens fed so far -/
structure Session (T : Type) where
  kv : RankKv
  tokens : List T
  phase : Phase
deriving DecidableEq, Repr

/-- what each family's page keeps for a position, as a function of the tokens up to it -/
structure Contents (T K : Type) where
  slide : List T → K
  span : List T → K

structure ServeState (T K : Type) where
  slidingWindow : ℕ
  cosMaxPos : ℕ
  localPool : KvPool
  globalPool : KvPool
  localMem : PageMemory K
  globalMem : PageMemory K
  requests : List (Session T)
  cache : PrefixCache T
  nextId : ℕ

inductive RestoreError
  | outsideEntry (t tokens : ℕ)
  | precedesWindow (t origin localOrigin : ℕ)
  | windowSlice (skip last pages : ℕ)
  | outOfPages (grow available : ℕ)
  | pageCount (cached allocated : ℕ)
  | localOutOfPages
deriving DecidableEq, Repr

/-- the restore asked the entry for something it does not have -/
def RestoreError.IsRange : RestoreError → Bool
  | .outsideEntry .. | .precedesWindow .. | .windowSlice .. | .pageCount .. => true
  | .outOfPages .. | .localOutOfPages => false

/-- pages a capture leaves free in each pool -/
def POOL_SLACK_PAGES : ℕ := 128

def Session.slideRow (r : Session T) : PageRow T := ⟨r.tokens, r.kv.slide.originPages, r.kv.slide.resident⟩

def Session.spanRow (r : Session T) : PageRow T := ⟨r.tokens, 0, r.kv.span.pages⟩

def CachedKv.slideRow (e : CachedKv T) : PageRow T := ⟨e.tokenIds, e.localOrigin, e.localPages⟩

def CachedKv.spanRow (e : CachedKv T) : PageRow T := ⟨e.tokenIds, 0, e.globalPages⟩

namespace ServeState

/-! ## Steps -/

def view (s : ServeState T K) (r : Session T) : RankView := ⟨r.kv, s.localPool, s.globalPool⟩

/-- request `i` becomes `r` with the families and pools of `v` -/
def setRank (s : ServeState T K) (i : ℕ) (r : Session T) (v : RankView) : ServeState T K :=
  { s with
    localPool := v.localPool
    globalPool := v.globalPool
    requests := s.requests.set i { r with kv := v.kv } }

/-- a fresh request -/
def allocKv (s : ServeState T K) : ServeState T K :=
  { s with
    requests := s.requests ++ [⟨⟨⟨[], 0, 0⟩, ⟨[], 0⟩, s.nextId⟩, [], .settled⟩]
    nextId := s.nextId + 1 }

def admitTokens (s : ServeState T K) (i : ℕ) (r : Session T) (newTokens : ℕ) : Except AccountError Unit × ServeState T K :=
  match (s.view r).admitTokens newTokens with
  | (.error e, v) => (.error e, s.setRank i r v)
  | (.ok (), v) => (.ok (), s.setRank i { r with phase := .admitted } v)

/-- both families' pages take the entries of a step over `tokens` -/
def writeStep (keys : Contents T K) (s : ServeState T K) (r : Session T) (tokens : List T) : ServeState T K :=
  { s with
    localMem := PageRow.writeSpan { r.slideRow with tokens := r.tokens ++ tokens } s.localPool.pageSize keys.slide
      s.localMem r.kv.slide.frontier tokens.length
    globalMem := PageRow.writeSpan { r.spanRow with tokens := r.tokens ++ tokens } s.globalPool.pageSize keys.span
      s.globalMem r.kv.slide.frontier tokens.length }

/-- append, attend, release -/
def step (keys : Contents T K) (s : ServeState T K) (i : ℕ) (r : Session T) (tokens : List T) :
    Except AccountError Unit × ServeState T K :=
  match (s.view r).planStep s.cosMaxPos tokens.length with
  | .error e => (.error e, s)
  | .ok _ =>
    let s := s.writeStep keys r tokens
    match (s.view r).advanceAndRelease tokens.length s.slidingWindow with
    | (.error e, v) => (.error e, s.setRank i r v)
    | (.ok (), v) =>
      (.ok (), s.setRank i { r with tokens := r.tokens ++ tokens, phase := .settled } (v.advanceGlobal tokens.length))

/-- an overlapped prefill, its release deferred to the join -/
def launch (keys : Contents T K) (s : ServeState T K) (i : ℕ) (r : Session T) (tokens : List T) :
    Except AccountError Unit × ServeState T K :=
  match (s.view r).planStep s.cosMaxPos tokens.length with
  | .error e => (.error e, s)
  | .ok _ =>
    let s := s.writeStep keys r tokens
    (.ok (), s.setRank i { r with tokens := r.tokens ++ tokens, phase := .launched }
      (((s.view r).advanceLocal tokens.length).advanceGlobal tokens.length))

/-- the deferred release -/
def join (s : ServeState T K) (i : ℕ) (r : Session T) : Except AccountError Unit × ServeState T K :=
  match (s.view r).advanceAndRelease 0 s.slidingWindow with
  | (.error e, v) => (.error e, s.setRank i r v)
  | (.ok (), v) => (.ok (), s.setRank i { r with phase := .settled } v)

/-- a finished or failed request gives its pages back -/
def close (s : ServeState T K) (i : ℕ) (r : Session T) : ServeState T K :=
  { s with
    localPool := s.localPool.dropEach r.kv.slide.resident
    globalPool := s.globalPool.dropReservation r.kv.span.pages
    requests := s.requests.eraseIdx i }

/-! ## The cache -/

/-- an entry that left the cache gives its pages back -/
def dropEntry (s : ServeState T K) (e : CachedKv T) : ServeState T K :=
  { s with
    localPool := s.localPool.dropEach e.localPages
    globalPool := s.globalPool.dropReservation e.globalPages }

/-- copy a settled request's pages into the cache, when both pools can spare them -/
def capture (s : ServeState T K) (r : Session T) (ancestor : Option ℕ) : ServeState T K :=
  let held := r.kv.slide.resident.length
  let globalSrc := r.kv.span.pages
  if entryGlobalPages s.cosMaxPos < globalSrc.length then s
  else if s.localPool.availablePages < held + POOL_SLACK_PAGES ∨
      s.globalPool.availablePages < globalSrc.length + POOL_SLACK_PAGES then s
  else
    match s.globalPool.tryReserve globalSrc.length with
    | none => s
    | some (globalPages, globalPool) =>
      let localRs := s.localPool.reserveEach held
      if localRs.1.length = held then
        let inserted := s.cache.insert ⟨r.tokens, globalPages, localRs.1, r.kv.slide.originPages, 0, 0⟩ ancestor
        inserted.1.foldl dropEntry { s with
          localPool := localRs.2
          globalPool := globalPool
          localMem := copyPages s.localMem r.kv.slide.resident localRs.1
          globalMem := copyPages s.globalMem globalSrc globalPages
          cache := inserted.2 }
      else { s with
        localPool := localRs.2.dropEach localRs.1
        globalPool := globalPool.dropReservation globalPages }

/-- rebuild a request from a cached tail at `t` -/
def restoreFromCheckpoint (s : ServeState T K) (entry : CachedKv T) (t : ℕ) :
    Except RestoreError Unit × ServeState T K :=
  let page := s.localPool.pageSize
  let originT := originPagesAt t s.slidingWindow page
  let localTake := divCeil t page - originT
  let localSkip := originT - entry.localOrigin
  if t = 0 ∨ entry.tokenIds.length < t then (.error (.outsideEntry t entry.tokenIds.length), s)
  else if originT < entry.localOrigin then (.error (.precedesWindow t originT entry.localOrigin), s)
  else if entry.localPages.length < localSkip + localTake then
    (.error (.windowSlice localSkip (localSkip + localTake) entry.localPages.length), s)
  else
    let needed := divCeil t s.globalPool.pageSize
    match s.globalPool.tryReserve needed with
    | none => (.error (.outOfPages needed s.globalPool.availablePages), s)
    | some (globalPages, globalPool) =>
      let globalSrc := entry.globalPages.take globalPages.length
      if globalSrc.length = globalPages.length then
        let localRs := s.localPool.reserveEach localTake
        if localRs.1.length = localTake then
          (.ok (), { s with
            localPool := localRs.2
            globalPool := globalPool
            localMem := copyPages s.localMem ((entry.localPages.drop localSkip).take localTake) localRs.1
            globalMem := copyPages s.globalMem globalSrc globalPages
            requests := s.requests ++
              [⟨⟨⟨localRs.1, originT, t⟩, ⟨globalPages, t⟩, s.nextId⟩, entry.tokenIds.take t, .settled⟩]
            nextId := s.nextId + 1 })
        else (.error .localOutOfPages, { s with
          localPool := localRs.2.dropEach localRs.1
          globalPool := globalPool.dropReservation globalPages })
      else (.error (.pageCount globalSrc.length globalPages.length),
        { s with globalPool := globalPool.dropReservation globalPages })

def evictLru (s : ServeState T K) : ServeState T K :=
  let evicted := s.cache.evictLru
  evicted.1.toList.foldl dropEntry { s with cache := evicted.2 }

/-! ## Runs -/

inductive KvOp (T : Type)
  | alloc
  | admitTokens (i newTokens : ℕ)
  | step (i : ℕ) (tokens : List T)
  | launch (i : ℕ) (tokens : List T)
  | join (i : ℕ)
  | close (i : ℕ)
  | capture (i : ℕ) (ancestor : Option ℕ)
  | resolve (prompt : List T)
  | restore (entry t : ℕ)
  | evict
deriving DecidableEq, Repr

/-- one operation; a refused one leaves what its refusal left -/
def apply (keys : Contents T K) (s : ServeState T K) : KvOp T → ServeState T K
  | .alloc => s.allocKv
  | .admitTokens i newTokens =>
    match s.requests[i]? with
    | none => s
    | some r => (s.admitTokens i r newTokens).2
  | .step i tokens =>
    match s.requests[i]? with
    | none => s
    | some r => (s.step keys i r tokens).2
  | .launch i tokens =>
    match s.requests[i]? with
    | none => s
    | some r => (s.launch keys i r tokens).2
  | .join i =>
    match s.requests[i]? with
    | none => s
    | some r => if r.phase = .launched then (s.join i r).2 else s
  | .close i =>
    match s.requests[i]? with
    | none => s
    | some r => s.close i r
  | .capture i ancestor =>
    match s.requests[i]? with
    | none => s
    | some r => if r.phase = .settled then s.capture r ancestor else s
  | .resolve prompt => { s with cache := (s.cache.resolve prompt).2 }
  | .restore index t =>
    match s.cache.entries[index]? with
    | none => s
    | some entry => (s.restoreFromCheckpoint entry t).2
  | .evict => s.evictLru

attribute [grind =] apply

def run (keys : Contents T K) (s : ServeState T K) (ops : List (KvOp T)) : ServeState T K := ops.foldl (apply keys) s

/-- the engine as loaded: no request, an empty cache -/
def load (slidingWindow cosMaxPos cap : ℕ) (localPool globalPool : KvPool) (mem : PageMemory K) : ServeState T K :=
  ⟨slidingWindow, cosMaxPos, localPool, globalPool, mem, mem, [], PrefixCache.new cap slidingWindow, 0⟩

/-! ## The invariant -/

/-- what no operation changes -/
structure Geometry where
  window : ℕ
  cosMaxPos : ℕ
  localPage : ℕ
  globalPage : ℕ
  cap : ℕ
  cacheWindow : ℕ

def geometry (s : ServeState T K) : Geometry :=
  ⟨s.slidingWindow, s.cosMaxPos, s.localPool.pageSize, s.globalPool.pageSize, s.cache.cap, s.cache.window⟩

/-- a request's account is that of its tokens -/
structure SessionOk (g : Geometry) (r : Session T) : Prop where
  account : ∃ k, (r.phase ≠ .admitted → k = 0) ∧ Account g.window g.localPage g.globalPage r.kv k
  settled : r.phase = .settled → r.kv.slide.originPages = originPagesAt r.kv.slide.frontier g.window g.localPage
  tokens : r.tokens.length = r.kv.slide.frontier

/-- an entry is the image of a settled request -/
structure EntryOk (g : Geometry) (e : CachedKv T) : Prop where
  origin : e.localOrigin = originPagesAt e.tokenIds.length g.window g.localPage
  slide : e.localOrigin + e.localPages.length = divCeil e.tokenIds.length g.localPage
  span : e.globalPages.length = divCeil e.tokenIds.length g.globalPage

/-- the rows of the requests and of the cache -/
def slideRows (s : ServeState T K) : List (PageRow T) :=
  s.requests.map Session.slideRow ++ s.cache.entries.map CachedKv.slideRow

def spanRows (s : ServeState T K) : List (PageRow T) :=
  s.requests.map Session.spanRow ++ s.cache.entries.map CachedKv.spanRow

/-- the pages of a pool that no row holds -/
def spare (pool : KvPool) : Multiset ℕ := (pool.free : Multiset ℕ) + (pool.paddingPermit : Multiset ℕ)

structure Inv (g : Geometry) (keys : Contents T K) (s : ServeState T K) : Prop where
  geometry : s.geometry = g
  sessions : ∀ r ∈ s.requests, SessionOk g r
  entries : ∀ e ∈ s.cache.entries, EntryOk g e
  capped : 0 < g.cap → s.cache.entries.length ≤ g.cap
  slide : Stored g.localPage keys.slide s.localMem (spare s.localPool) s.slideRows
  span : Stored g.globalPage keys.span s.globalMem (spare s.globalPool) s.spanRows

/-- one request of the list replaced or dropped, and what that does to the rows -/
theorem rows_split (f : Session T → PageRow T) (cached : List (PageRow T)) {l : List (Session T)} {i : ℕ}
    {r : Session T} (h : l[i]? = some r) :
    ∃ rest, (l.map f ++ cached).Perm (f r :: rest) ∧ (∀ r', ((l.set i r').map f ++ cached).Perm (f r' :: rest)) ∧
      ((l.eraseIdx i).map f ++ cached).Perm rest := by
  obtain ⟨pre, post, hl, hset, herase⟩ := split_at h
  have hperm : ∀ r', ((pre ++ r' :: post).map f ++ cached).Perm (f r' :: ((pre ++ post).map f ++ cached)) := by
    intro r'
    rw [List.map_append, List.map_cons, List.map_append, List.append_assoc, List.append_assoc, List.cons_append]
    exact List.perm_middle
  exact ⟨(pre ++ post).map f ++ cached, hl ▸ hperm r, fun r' => hset r' ▸ hperm r', herase ▸ List.Perm.refl _⟩

theorem spare_dropEach (pool : KvPool) (pages : List ℕ) :
    spare (pool.dropEach pages) = (pages : Multiset ℕ) + spare pool := by
  obtain ⟨hfree, -, hpad⟩ := KvPool.dropEach_eq pages pool
  rw [spare, spare, hfree, hpad, ← Multiset.coe_add, Multiset.coe_reverse, add_assoc]

theorem spare_dropReservation (pool : KvPool) (pages : List ℕ) :
    spare (pool.dropReservation pages) = (pages : Multiset ℕ) + spare pool := by
  rw [spare, spare, KvPool.dropReservation_free, KvPool.dropReservation_padding, ← Multiset.coe_add, add_assoc]

/-- pages taken off the free list -/
theorem spare_taken {pool pool' : KvPool} {pages : List ℕ} (hfree : pool.free = pages ++ pool'.free)
    (hpad : pool'.paddingPermit = pool.paddingPermit) : spare pool = (pages : Multiset ℕ) + spare pool' := by
  rw [spare, spare, hfree, hpad, ← Multiset.coe_add, add_assoc]

variable {g : Geometry} {keys : Contents T K} {s s' : ServeState T K} {i : ℕ} {r : Session T}

theorem set_same {α : Type} {l : List α} {i : ℕ} {a : α} (h : l[i]? = some a) : l.set i a = l := by
  obtain ⟨pre, post, hl, hset, -⟩ := split_at h
  rw [hset a, hl]

/-- the sessions after request `i` was replaced -/
theorem sessions_set {l : List (Session T)} {r' : Session T} (h : ∀ r ∈ l, SessionOk g r) (h' : SessionOk g r') :
    ∀ x ∈ l.set i r', SessionOk g x := by
  intro x hx
  rcases List.mem_or_eq_of_mem_set hx with hx | rfl
  · exact h x hx
  · exact h'

theorem SessionOk.fresh (hl : 0 < g.localPage) (hg : 0 < g.globalPage) (id : ℕ) :
    SessionOk g (⟨⟨⟨[], 0, 0⟩, ⟨[], 0⟩, id⟩, [], .settled⟩ : Session T) := by
  refine ⟨⟨0, fun _ => rfl, Account.fresh hl hg id⟩, fun _ => ?_, rfl⟩
  simp [originPagesAt]

/-- where the pools of a view stand against those of the state -/
theorem setRank_geometry {r' : Session T} {v : RankView} (hl : v.localPool.pageSize = s.localPool.pageSize)
    (hg : v.globalPool.pageSize = s.globalPool.pageSize) : (s.setRank i r' v).geometry = s.geometry := by
  simp only [geometry, setRank, hl, hg]

/-- a new request's row joins the others -/
theorem rows_append (f : Session T → PageRow T) (cached : List (PageRow T)) (l : List (Session T)) (r : Session T) :
    (f r :: (l.map f ++ cached)).Perm ((l ++ [r]).map f ++ cached) := by
  rw [List.map_append, List.append_assoc]
  exact List.perm_middle.symm

theorem allocKv_inv (hl : 0 < g.localPage) (hg : 0 < g.globalPage) (h : Inv g keys s) : Inv g keys s.allocKv := by
  refine ⟨h.geometry, fun x hx => ?_, h.entries, h.capped, ?_, ?_⟩
  · rcases List.mem_append.1 hx with hx | hx
    · exact h.sessions x hx
    · rw [List.mem_singleton.1 hx]
      exact SessionOk.fresh hl hg _
  · exact h.slide.fresh.perm rfl (rows_append Session.slideRow _ s.requests ⟨⟨⟨[], 0, 0⟩, ⟨[], 0⟩, s.nextId⟩, [], .settled⟩)
  · exact h.span.fresh.perm rfl (rows_append Session.spanRow _ s.requests ⟨⟨⟨[], 0, 0⟩, ⟨[], 0⟩, s.nextId⟩, [], .settled⟩)

theorem admitTokens_inv (hr : s.requests[i]? = some r) (n : ℕ) (h : Inv g keys s) : Inv g keys (s.admitTokens i r n).2 := by
  have hgeo := h.geometry
  unfold admitTokens
  cases hv : (s.view r).admitTokens n with
  | mk result v =>
    cases result with
    | error e =>
      obtain ⟨hkv, hglobal, hfree, hsize, hpad⟩ := RankView.admitTokens_error hv
      have hself : s.requests.set i { r with kv := v.kv } = s.requests := by
        rw [hkv]
        exact set_same hr
      have hspare : spare v.localPool = spare s.localPool := by
        rw [spare, spare, hpad, Multiset.coe_eq_coe.2 hfree]
        rfl
      refine ⟨(setRank_geometry hsize (by rw [hglobal]; rfl)).trans hgeo, ?_, h.entries, h.capped, ?_, ?_⟩
      · simp only [setRank, hself]
        exact h.sessions
      · simp only [slideRows, setRank, hself, hspare]
        exact h.slide
      · simp only [spanRows, setRank, hself, hglobal]
        exact h.span
    | ok u =>
      obtain ⟨hfrontier, ⟨localPages, globalPages, hkv, hlfree, hgfree⟩, ⟨hlsize, hlpad⟩, ⟨hgsize, hgpad⟩, hslide,
        hspan⟩ := RankView.admitTokens_ok hv
      obtain ⟨restL, hl₁, hl₂, -⟩ := rows_split Session.slideRow (s.cache.entries.map CachedKv.slideRow) hr
      obtain ⟨restG, hg₁, hg₂, -⟩ := rows_split Session.spanRow (s.cache.entries.map CachedKv.spanRow) hr
      have hok := h.sessions r (List.mem_of_getElem? hr)
      have hpages : g.localPage = s.localPool.pageSize ∧ g.globalPage = s.globalPool.pageSize := by
        rw [← hgeo]
        exact ⟨rfl, rfl⟩
      have hnew : SessionOk g { r with kv := v.kv, phase := .admitted } := by
        obtain ⟨k, -, hacc⟩ := hok.account
        refine ⟨⟨n, fun hp => absurd rfl hp, ?_⟩, nofun, ?_⟩
        · refine ⟨?_, ?_, ?_, ?_⟩
          · rw [hkv]
            exact hacc.frontier
          · rw [hkv]
            exact hacc.origin
          · rw [hpages.1]
            dsimp only
            rw [hslide, hkv]
            rfl
          · rw [hpages.2]
            dsimp only
            rw [hspan, hkv]
            rfl
        · rw [hkv]
          exact hok.tokens
      refine ⟨(setRank_geometry hlsize hgsize).trans hgeo, sessions_set h.sessions hnew, h.entries, h.capped, ?_, ?_⟩
      · have hstored := (h.slide.perm (spare_taken hlfree hlpad).symm hl₁).grow
        refine hstored.perm rfl (List.Perm.trans ?_ (hl₂ _).symm)
        rw [hkv]
        exact List.Perm.refl _
      · have hstored := (h.span.perm (spare_taken hgfree hgpad).symm hg₁).grow
        refine hstored.perm rfl (List.Perm.trans ?_ (hg₂ _).symm)
        rw [hkv]
        exact List.Perm.refl _

/-! ## Settled and launched steps -/

/-- the pages of a geometry are those of the state's pools -/
theorem Inv.pages (h : Inv g keys s) : s.localPool.pageSize = g.localPage ∧ s.globalPool.pageSize = g.globalPage ∧
    s.slidingWindow = g.window := by
  rw [← h.geometry]
  exact ⟨rfl, rfl, rfl⟩

/-- a planned step's entries go to pages the request holds -/
theorem writeStep_slide (hl : 0 < g.localPage) (h : Inv g keys s) (hr : r ∈ s.requests) {tokens : List T}
    {span : ResidentSpan} (hplan : (s.view r).planStep s.cosMaxPos tokens.length = .ok span)
    {rest : List (PageRow T)} (hrows : s.slideRows.Perm (r.slideRow :: rest)) :
    Stored g.localPage keys.slide (s.writeStep keys r tokens).localMem (spare s.localPool)
      ({ r.slideRow with tokens := r.tokens ++ tokens } :: rest) := by
  obtain ⟨hlp, -, -⟩ := h.pages
  have hok := h.sessions r hr
  obtain ⟨k, -, hacc⟩ := hok.account
  obtain ⟨-, -, hheld, -⟩ := RankView.planStep_ok (v := s.view r) (hlp ▸ hl) hplan
  change r.kv.slide.originPages + r.kv.slide.resident.length =
    divCeil (r.kv.slide.frontier + tokens.length) s.localPool.pageSize at hheld
  have hlow := hacc.origin_mul_le
  have hstored := (h.slide.perm rfl hrows).extend hl tokens ?_ ?_
  · have hlen : r.slideRow.tokens.length = r.kv.slide.frontier := hok.tokens
    rw [hlen] at hstored
    unfold writeStep
    rw [hlp]
    exact hstored
  · change r.kv.slide.originPages * g.localPage ≤ r.tokens.length
    rw [hok.tokens]
    omega
  · change r.tokens.length + tokens.length ≤ (r.kv.slide.originPages + r.kv.slide.resident.length) * g.localPage
    rw [hok.tokens, hheld, hlp]
    exact le_divCeil_mul _ hl

theorem writeStep_span (hl : 0 < g.localPage) (hg : 0 < g.globalPage) (h : Inv g keys s) (hr : r ∈ s.requests)
    {tokens : List T} {span : ResidentSpan} (hplan : (s.view r).planStep s.cosMaxPos tokens.length = .ok span)
    {rest : List (PageRow T)} (hrows : s.spanRows.Perm (r.spanRow :: rest)) :
    Stored g.globalPage keys.span (s.writeStep keys r tokens).globalMem (spare s.globalPool)
      ({ r.spanRow with tokens := r.tokens ++ tokens } :: rest) := by
  obtain ⟨hlp, hgp, -⟩ := h.pages
  have hok := h.sessions r hr
  obtain ⟨-, -, -, hheld⟩ := RankView.planStep_ok (v := s.view r) (hlp ▸ hl) hplan
  change r.kv.span.pages.length = divCeil (r.kv.slide.frontier + tokens.length) s.globalPool.pageSize at hheld
  have hstored := (h.span.perm rfl hrows).extend hg tokens ?_ ?_
  · have hlen : r.spanRow.tokens.length = r.kv.slide.frontier := hok.tokens
    rw [hlen] at hstored
    unfold writeStep
    rw [hgp]
    exact hstored
  · change 0 * g.globalPage ≤ r.tokens.length
    omega
  · change r.tokens.length + tokens.length ≤ (0 + r.kv.span.pages.length) * g.globalPage
    rw [hok.tokens, Nat.zero_add, hheld, hgp]
    exact le_divCeil_mul _ hg

/-- what a settled step leaves of its request -/
theorem step_session (hl : 0 < g.localPage) (h : Inv g keys s) (hr : r ∈ s.requests) {tokens : List T}
    {span : ResidentSpan} {v : RankView} (hplan : (s.view r).planStep s.cosMaxPos tokens.length = .ok span)
    (hv : (s.view r).advanceAndRelease tokens.length s.slidingWindow = (.ok (), v)) :
    SessionOk g { r with tokens := r.tokens ++ tokens, phase := .settled, kv := (v.advanceGlobal tokens.length).kv } := by
  obtain ⟨hlp, hgp, hw⟩ := h.pages
  have hok := h.sessions r hr
  obtain ⟨hseq, -, hlocal, hglobal⟩ := RankView.planStep_ok (v := s.view r) (hlp ▸ hl) hplan
  obtain ⟨horigin, hpages, hkv, -, -, -⟩ := RankView.advanceAndRelease_ok hv
  simp only [view, hlp, hgp, hw] at hseq hlocal hglobal horigin hpages hkv
  refine ⟨⟨0, fun _ => rfl, ?_, ?_, ?_, ?_⟩, fun _ => ?_, ?_⟩
  · simp only [RankView.advanceGlobal, hkv, hseq]
  · simp only [RankView.advanceGlobal, hkv]
    exact le_rfl
  · simp only [RankView.advanceGlobal, hkv, List.length_drop, Nat.add_zero]
    omega
  · simp only [RankView.advanceGlobal, hkv, Nat.add_zero]
    exact hglobal
  · simp only [RankView.advanceGlobal, hkv]
  · simp only [RankView.advanceGlobal, hkv, List.length_append, hok.tokens]

/-- a planned step's release goes through -/
theorem step_release (hl : 0 < g.localPage) (h : Inv g keys s) (hr : r ∈ s.requests) {tokens : List T}
    {span : ResidentSpan} (hplan : (s.view r).planStep s.cosMaxPos tokens.length = .ok span) :
    ∃ v, (s.view r).advanceAndRelease tokens.length s.slidingWindow = (.ok (), v) := by
  obtain ⟨hlp, -, hw⟩ := h.pages
  obtain ⟨k, -, hacc⟩ := (h.sessions r hr).account
  obtain ⟨-, -, hlocal, -⟩ := RankView.planStep_ok (v := s.view r) (hlp ▸ hl) hplan
  refine RankView.advanceAndRelease_succeeds (v := s.view r) (hlp ▸ hl) ?_ hlocal.ge
  refine hacc.origin.trans ?_
  rw [hw]
  change _ ≤ originPagesAt (r.kv.slide.frontier + tokens.length) g.window s.localPool.pageSize
  rw [hlp]
  exact originPagesAt_mono (Nat.le_add_right _ _)

theorem step_ok {tokens : List T} {span : ResidentSpan} {v : RankView}
    (hplan : (s.view r).planStep s.cosMaxPos tokens.length = .ok span)
    (hv : (s.view r).advanceAndRelease tokens.length s.slidingWindow = (.ok (), v)) :
    s.step keys i r tokens = (.ok (), (s.writeStep keys r tokens).setRank i
      { r with tokens := r.tokens ++ tokens, phase := .settled } (v.advanceGlobal tokens.length)) := by
  have hv' : ((s.writeStep keys r tokens).view r).advanceAndRelease tokens.length
      (s.writeStep keys r tokens).slidingWindow = (.ok (), v) := hv
  unfold step
  rw [hplan]
  dsimp only
  rw [hv']

theorem step_inv (hl : 0 < g.localPage) (hg : 0 < g.globalPage) (hr : s.requests[i]? = some r) (tokens : List T)
    (h : Inv g keys s) : Inv g keys (s.step keys i r tokens).2 := by
  have hmem := List.mem_of_getElem? hr
  cases hplan : (s.view r).planStep s.cosMaxPos tokens.length with
  | error e =>
    unfold step
    rw [hplan]
    exact h
  | ok span =>
    obtain ⟨v, hv⟩ := step_release hl h hmem hplan
    have hnew := step_session hl h hmem hplan hv
    obtain ⟨horigin, hpages, hkv, hfree, ⟨hsize, hpad⟩, hglobal⟩ := RankView.advanceAndRelease_ok hv
    obtain ⟨restL, hl₁, hl₂, -⟩ := rows_split Session.slideRow (s.cache.entries.map CachedKv.slideRow) hr
    obtain ⟨restG, hg₁, hg₂, -⟩ := rows_split Session.spanRow (s.cache.entries.map CachedKv.spanRow) hr
    have hslide := (writeStep_slide hl h hmem hplan hl₁).release hl
      (originPagesAt (r.kv.slide.frontier + tokens.length) s.slidingWindow s.localPool.pageSize -
        r.kv.slide.originPages)
    have hspan := writeStep_span hl hg h hmem hplan hg₁
    rw [step_ok hplan hv]
    refine ⟨?_, sessions_set h.sessions hnew, h.entries, h.capped, ?_, ?_⟩
    · refine Eq.trans (setRank_geometry hsize ?_) h.geometry
      change v.globalPool.pageSize = s.globalPool.pageSize
      rw [hglobal]
      rfl
    · refine hslide.perm ?_ (List.Perm.trans ?_ (hl₂ _).symm)
      · change spare v.localPool = _
        rw [spare, spare, hfree, hpad, ← Multiset.coe_add, Multiset.coe_reverse, add_assoc]
        rfl
      · have horow : r.kv.slide.originPages + (originPagesAt (r.kv.slide.frontier + tokens.length) s.slidingWindow
            s.localPool.pageSize - r.kv.slide.originPages) =
            originPagesAt (r.kv.slide.frontier + tokens.length) s.slidingWindow s.localPool.pageSize :=
          Nat.add_sub_cancel' horigin
        simp only [Session.slideRow, RankView.advanceGlobal, hkv, view, horow]
        exact List.Perm.refl _
    · refine hspan.perm ?_ (List.Perm.trans ?_ (hg₂ _).symm)
      · change spare v.globalPool = _
        rw [hglobal]
        rfl
      · simp only [Session.spanRow, RankView.advanceGlobal, hkv, view]
        exact List.Perm.refl _

theorem launch_inv (hl : 0 < g.localPage) (hg : 0 < g.globalPage) (hr : s.requests[i]? = some r) (tokens : List T)
    (h : Inv g keys s) : Inv g keys (s.launch keys i r tokens).2 := by
  have hmem := List.mem_of_getElem? hr
  unfold launch
  cases hplan : (s.view r).planStep s.cosMaxPos tokens.length with
  | error e => exact h
  | ok span =>
    obtain ⟨hlp, hgp, hw⟩ := h.pages
    have hok := h.sessions r hmem
    obtain ⟨k, -, hacc⟩ := hok.account
    obtain ⟨hseq, -, hlocal, hglobal⟩ := RankView.planStep_ok (v := s.view r) (hlp ▸ hl) hplan
    simp only [view, hlp, hgp] at hseq hlocal hglobal
    obtain ⟨restL, hl₁, hl₂, -⟩ := rows_split Session.slideRow (s.cache.entries.map CachedKv.slideRow) hr
    obtain ⟨restG, hg₁, hg₂, -⟩ := rows_split Session.spanRow (s.cache.entries.map CachedKv.spanRow) hr
    have hslide := writeStep_slide hl h hmem hplan hl₁
    have hspan := writeStep_span hl hg h hmem hplan hg₁
    refine ⟨h.geometry, sessions_set h.sessions ⟨⟨0, fun _ => rfl, ?_, ?_, ?_, ?_⟩, nofun, ?_⟩, h.entries, h.capped,
      ?_, ?_⟩
    · simp only [RankView.advanceGlobal, RankView.advanceLocal, SlidingLocalKv.advance, view, hseq]
    · simp only [RankView.advanceGlobal, RankView.advanceLocal, SlidingLocalKv.advance, view]
      exact hacc.origin.trans (originPagesAt_mono (Nat.le_add_right _ _))
    · simpa only [RankView.advanceGlobal, RankView.advanceLocal, SlidingLocalKv.advance, view, Nat.add_zero] using hlocal
    · simpa only [RankView.advanceGlobal, RankView.advanceLocal, SlidingLocalKv.advance, view, Nat.add_zero] using hglobal
    · simp only [RankView.advanceGlobal, RankView.advanceLocal, SlidingLocalKv.advance, view, List.length_append,
        hok.tokens]
    · refine hslide.perm rfl (List.Perm.trans ?_ (hl₂ _).symm)
      exact List.Perm.refl _
    · refine hspan.perm rfl (List.Perm.trans ?_ (hg₂ _).symm)
      exact List.Perm.refl _

/-- joining a prefill in flight settles it -/
theorem join_inv (hl : 0 < g.localPage) (hr : s.requests[i]? = some r) (hphase : r.phase = .launched)
    (h : Inv g keys s) : Inv g keys (s.join i r).2 ∧ ∃ v, (s.view r).advanceAndRelease 0 s.slidingWindow = (.ok (), v) ∧
      SessionOk g { r with phase := .settled, kv := v.kv } := by
  have hmem := List.mem_of_getElem? hr
  obtain ⟨hlp, hgp, hw⟩ := h.pages
  have hok := h.sessions r hmem
  obtain ⟨k, hk, hacc⟩ := hok.account
  have hk0 : k = 0 := hk (by rw [hphase]; decide)
  subst hk0
  have hslideCount := hacc.slide
  rw [Nat.add_zero] at hslideCount
  obtain ⟨v, hv⟩ : ∃ v, (s.view r).advanceAndRelease 0 s.slidingWindow = (.ok (), v) := by
    refine RankView.advanceAndRelease_succeeds (v := s.view r) (hlp ▸ hl) ?_ ?_
    · rw [hw]
      change r.kv.slide.originPages ≤ originPagesAt (r.kv.slide.frontier + 0) g.window s.localPool.pageSize
      rw [hlp]
      exact hacc.origin
    · change divCeil (r.kv.slide.frontier + 0) s.localPool.pageSize ≤
        r.kv.slide.originPages + r.kv.slide.resident.length
      rw [hlp]
      exact hslideCount.ge
  obtain ⟨horigin, hpages, hkv, hfree, ⟨hsize, hpad⟩, hglobal⟩ := RankView.advanceAndRelease_ok hv
  have hnew : SessionOk g { r with phase := .settled, kv := v.kv } := by
    simp only [view, hlp, hw, Nat.add_zero] at horigin hpages hkv
    refine ⟨⟨0, fun _ => rfl, ?_, ?_, ?_, ?_⟩, fun _ => ?_, ?_⟩
    · simp only [hkv]
      exact hacc.frontier
    · simp only [hkv]
      exact le_rfl
    · simp only [hkv, List.length_drop, Nat.add_zero]
      omega
    · simp only [hkv]
      exact hacc.span
    · simp only [hkv]
    · simp only [hkv]
      exact hok.tokens
  refine ⟨?_, v, hv, hnew⟩
  obtain ⟨restL, hl₁, hl₂, -⟩ := rows_split Session.slideRow (s.cache.entries.map CachedKv.slideRow) hr
  have hslide := (h.slide.perm rfl hl₁).release hl
    (originPagesAt (r.kv.slide.frontier + 0) s.slidingWindow s.localPool.pageSize - r.kv.slide.originPages)
  obtain ⟨restG, hg₁, hg₂, -⟩ := rows_split Session.spanRow (s.cache.entries.map CachedKv.spanRow) hr
  have hspan := h.span.perm rfl hg₁
  unfold join
  simp only [hv]
  refine ⟨?_, sessions_set h.sessions hnew, h.entries, h.capped, ?_, ?_⟩
  · refine Eq.trans (setRank_geometry hsize ?_) h.geometry
    rw [hglobal]
    rfl
  · refine hslide.perm ?_ (List.Perm.trans ?_ (hl₂ _).symm)
    · change spare v.localPool = _
      rw [spare, spare, hfree, hpad, ← Multiset.coe_add, Multiset.coe_reverse, add_assoc]
      rfl
    · have horow : r.kv.slide.originPages + (originPagesAt (r.kv.slide.frontier + 0) s.slidingWindow
          s.localPool.pageSize - r.kv.slide.originPages) =
          originPagesAt (r.kv.slide.frontier + 0) s.slidingWindow s.localPool.pageSize :=
        Nat.add_sub_cancel' horigin
      simp only [Session.slideRow, hkv, view, horow]
      exact List.Perm.refl _
  · refine hspan.perm ?_ (List.Perm.trans ?_ (hg₂ _).symm)
    · change spare v.globalPool = _
      rw [hglobal]
      rfl
    · simp only [Session.spanRow, hkv, view]
      exact List.Perm.refl _

/-! ## Closing and dropping -/

theorem close_inv (hr : s.requests[i]? = some r) (h : Inv g keys s) : Inv g keys (s.close i r) := by
  obtain ⟨restL, hl₁, -, hl₃⟩ := rows_split Session.slideRow (s.cache.entries.map CachedKv.slideRow) hr
  obtain ⟨restG, hg₁, -, hg₃⟩ := rows_split Session.spanRow (s.cache.entries.map CachedKv.spanRow) hr
  obtain ⟨-, hsize, -⟩ := KvPool.dropEach_eq r.kv.slide.resident s.localPool
  refine ⟨?_, fun x hx => h.sessions x (List.mem_of_mem_eraseIdx hx), h.entries, h.capped, ?_, ?_⟩
  · rw [← h.geometry]
    simp only [geometry, close, hsize, KvPool.dropReservation_pageSize]
  · exact (h.slide.perm rfl hl₁).forget.perm (spare_dropEach _ _) hl₃.symm
  · exact (h.span.perm rfl hg₁).forget.perm (spare_dropReservation _ _) hg₃.symm

/-- the pages of entries that left the cache become spare -/
theorem dropEntries_inv (dropped : List (CachedKv T)) : ∀ s : ServeState T K, s.geometry = g →
    (∀ r ∈ s.requests, SessionOk g r) → (∀ e ∈ s.cache.entries, EntryOk g e) →
    (0 < g.cap → s.cache.entries.length ≤ g.cap) →
    Stored g.localPage keys.slide s.localMem (spare s.localPool) (dropped.map CachedKv.slideRow ++ s.slideRows) →
    Stored g.globalPage keys.span s.globalMem (spare s.globalPool) (dropped.map CachedKv.spanRow ++ s.spanRows) →
    Inv g keys (dropped.foldl dropEntry s) := by
  induction dropped with
  | nil => exact fun s hgeo hsessions hentries hcapped hslide hspan => ⟨hgeo, hsessions, hentries, hcapped, hslide, hspan⟩
  | cons e dropped ih =>
    intro s hgeo hsessions hentries hcapped hslide hspan
    obtain ⟨-, hsize, -⟩ := KvPool.dropEach_eq e.localPages s.localPool
    refine ih (s.dropEntry e) ?_ hsessions hentries hcapped ?_ ?_
    · rw [← hgeo]
      simp only [geometry, dropEntry, hsize, KvPool.dropReservation_pageSize]
    · exact hslide.forget.perm (spare_dropEach _ _) (List.Perm.refl _)
    · exact hspan.forget.perm (spare_dropReservation _ _) (List.Perm.refl _)

/-- a cache that lost `dropped` and kept `stay` -/
theorem rows_dropped (f : CachedKv T → PageRow T) (rows : List (PageRow T)) {entries dropped stay : List (CachedKv T)}
    (h : entries.Perm (dropped ++ stay)) :
    (rows ++ entries.map f).Perm (dropped.map f ++ (rows ++ stay.map f)) := by
  refine ((h.map f).append_left rows).trans ?_
  rw [List.map_append, ← List.append_assoc, ← List.append_assoc]
  exact List.perm_append_comm.append_right _

/-- a cache that lost `dropped`, kept `stay` and took a new entry -/
theorem rows_inserted (f : CachedKv T → PageRow T) (rows : List (PageRow T))
    {entries dropped stay : List (CachedKv T)} (h : entries.Perm (dropped ++ stay)) (new : CachedKv T) :
    (f new :: (rows ++ entries.map f)).Perm (dropped.map f ++ (rows ++ (stay ++ [new]).map f)) := by
  refine ((rows_dropped f rows h).cons (f new)).trans ?_
  have hassoc : dropped.map f ++ (rows ++ (stay ++ [new]).map f) = dropped.map f ++ (rows ++ stay.map f) ++ [f new] := by
    simp
  rw [hassoc]
  exact (List.perm_append_singleton _ _).symm

theorem evictLru_inv (h : Inv g keys s) : Inv g keys s.evictLru := by
  unfold evictLru
  rcases PrefixCache.evictLru_cases s.cache with ⟨-, hev⟩ | ⟨e, entries, hev, hperm⟩
  · rw [hev]
    exact h
  · have hdropped : s.cache.entries.Perm ([e] ++ entries) := hperm
    rw [hev]
    refine dropEntries_inv [e] _ h.geometry h.sessions (fun x hx => ?_) (fun hcap => ?_) ?_ ?_
    · exact h.entries x (hperm.mem_iff.2 (List.mem_cons_of_mem _ hx))
    · have hlen := hperm.length_eq
      have hle := h.capped hcap
      rw [List.length_cons] at hlen
      change entries.length ≤ g.cap
      omega
    · exact h.slide.perm rfl (rows_dropped CachedKv.slideRow _ hdropped)
    · exact h.span.perm rfl (rows_dropped CachedKv.spanRow _ hdropped)

/-- resolving marks one entry as used -/
theorem resolve_inv (prompt : List T) (h : Inv g keys s) :
    Inv g keys { s with cache := (s.cache.resolve prompt).2 } := by
  cases hres : s.cache.resolve prompt with
  | mk found c =>
    cases found with
    | none =>
      rw [PrefixCache.resolve_none hres]
      exact ⟨h.geometry, h.sessions, h.entries, h.capped, h.slide, h.span⟩
    | some found =>
      obtain ⟨index, e₀, he₀, -, he, rfl, -⟩ := PrefixCache.resolve_some (e := found.1) (t := found.2) hres
      have hrow : ∀ f : CachedKv T → PageRow T, f found.1 = f e₀ →
          (s.cache.entries.set index found.1).map f = s.cache.entries.map f := by
        intro f hf
        rw [List.map_set, hf]
        exact set_same (by rw [List.getElem?_map, he₀]; rfl)
      refine ⟨h.geometry, h.sessions, fun x hx => ?_, fun hcap => ?_, ?_, ?_⟩
      · rcases List.mem_or_eq_of_mem_set hx with hx | rfl
        · exact h.entries x hx
        · have hok := h.entries e₀ (List.mem_of_getElem? he₀)
          rw [he]
          exact ⟨hok.origin, hok.slide, hok.span⟩
      · rw [List.length_set]
        exact h.capped hcap
      · simp only [slideRows, hrow CachedKv.slideRow (by rw [he]; rfl)]
        exact h.slide
      · simp only [spanRows, hrow CachedKv.spanRow (by rw [he]; rfl)]
        exact h.span

/-! ## Capture -/

/-- reservations that are dropped again leave the spare pages as they were -/
theorem spare_rolled_back (pool : KvPool) (n : ℕ) :
    spare ((pool.reserveEach n).2.dropEach (pool.reserveEach n).1) = spare pool := by
  obtain ⟨hfree, -, -, hpad⟩ := pool.reserveEach_free n
  rw [spare_dropEach, spare_taken hfree hpad]

theorem spare_reserved {pool pool' : KvPool} {n : ℕ} {pages : List ℕ} (h : pool.tryReserve n = some (pages, pool')) :
    spare (pool'.dropReservation pages) = spare pool := by
  obtain ⟨-, hfree, -, hpad⟩ := KvPool.tryReserve_ok h
  rw [spare_dropReservation, spare_taken hfree hpad]

/-- the row a capture copies is the request's own -/
theorem captured_row {pages new : List ℕ} (origin : ℕ) (hlen : new.length = pages.length) :
    (pages.drop (origin - origin)).take new.length = pages := by
  rw [Nat.sub_self, List.drop_zero, hlen, List.take_length]

theorem capture_inv (hl : 0 < g.localPage) (hg : 0 < g.globalPage) (hr : r ∈ s.requests) (hphase : r.phase = .settled)
    (ancestor : Option ℕ) (h : Inv g keys s) : Inv g keys (s.capture r ancestor) := by
  have hok := h.sessions r hr
  obtain ⟨k, hk, hacc⟩ := hok.account
  have hk0 : k = 0 := hk (by rw [hphase]; decide)
  subst hk0
  have hslideCount := hacc.slide
  have hspanCount := hacc.span
  rw [Nat.add_zero, ← hok.tokens] at hslideCount hspanCount
  unfold capture
  dsimp only
  by_cases hbig : entryGlobalPages s.cosMaxPos < r.kv.span.pages.length
  · rw [if_pos hbig]
    exact h
  rw [if_neg hbig]
  by_cases hslack : s.localPool.availablePages < r.kv.slide.resident.length + POOL_SLACK_PAGES ∨
      s.globalPool.availablePages < r.kv.span.pages.length + POOL_SLACK_PAGES
  · rw [if_pos hslack]
    exact h
  rw [if_neg hslack]
  rcases hglobal : s.globalPool.tryReserve r.kv.span.pages.length with _ | ⟨globalPages, globalPool⟩
  · exact h
  · obtain ⟨hglen, hgfree, hgsize, hgpad⟩ := KvPool.tryReserve_ok hglobal
    obtain ⟨hlfree, -, hlsize, hlpad⟩ := s.localPool.reserveEach_free r.kv.slide.resident.length
    dsimp only
    split_ifs with hgranted
    · obtain ⟨stay, hperm, hcache, hroom⟩ :=
        s.cache.insert_spec ⟨r.tokens, globalPages, (s.localPool.reserveEach r.kv.slide.resident.length).1,
          r.kv.slide.originPages, 0, 0⟩ ancestor
      have hmemL : r.slideRow ∈ s.slideRows := List.mem_append_left _ (List.mem_map_of_mem hr)
      have hmemG : r.spanRow ∈ s.spanRows := List.mem_append_left _ (List.mem_map_of_mem hr)
      have hcopyL := (h.slide.perm (spare_taken hlfree hlpad).symm (List.Perm.refl _)).copy hl
        r.tokens.length r.kv.slide.originPages hmemL le_rfl le_rfl (by
          rw [hgranted, hslideCount]
          exact le_divCeil_mul _ hl)
      have hcopyG := (h.span.perm (spare_taken hgfree hgpad).symm (List.Perm.refl _)).copy hg
        r.tokens.length 0 hmemG le_rfl le_rfl (by
          rw [hglen, hspanCount, Nat.zero_add]
          exact le_divCeil_mul _ hg)
      refine dropEntries_inv _ _ ?_ h.sessions (fun x hx => ?_) (fun hcap => ?_) ?_ ?_
      · rw [← h.geometry]
        simp only [geometry, hlsize, hgsize, hcache]
      · simp only [hcache, List.mem_append, List.mem_singleton] at hx
        rcases hx with hx | rfl
        · exact h.entries x (hperm.mem_iff.2 (List.mem_append_right _ hx))
        · refine ⟨?_, ?_, ?_⟩
          · rw [hok.tokens]
            exact hok.settled hphase
          · rw [hgranted]
            exact hslideCount
          · rw [hglen]
            exact hspanCount
      · simp only [hcache, List.length_append, List.length_singleton]
        have hgcap : s.cache.cap = g.cap := by
          rw [← h.geometry]
          rfl
        rw [← hgcap] at hcap ⊢
        exact hroom hcap (hgcap ▸ h.capped (hgcap ▸ hcap))
      · have hrow := captured_row r.kv.slide.originPages hgranted
        simp only [Session.slideRow, List.take_length] at hcopyL
        rw [hrow] at hcopyL
        refine hcopyL.perm rfl ?_
        simp only [slideRows, hcache]
        exact rows_inserted CachedKv.slideRow _ hperm ⟨r.tokens, globalPages, _, r.kv.slide.originPages, _, _⟩
      · have hrow := captured_row 0 hglen
        simp only [Session.spanRow, List.take_length] at hcopyG
        rw [hrow] at hcopyG
        refine hcopyG.perm rfl ?_
        simp only [spanRows, hcache]
        exact rows_inserted CachedKv.spanRow _ hperm ⟨r.tokens, globalPages, _, r.kv.slide.originPages, _, _⟩
    · refine ⟨?_, h.sessions, h.entries, h.capped, ?_, ?_⟩
      · obtain ⟨-, hsize, -⟩ := KvPool.dropEach_eq (s.localPool.reserveEach r.kv.slide.resident.length).1
          (s.localPool.reserveEach r.kv.slide.resident.length).2
        rw [← h.geometry]
        simp only [geometry, hsize, hlsize, KvPool.dropReservation_pageSize, hgsize]
      · exact h.slide.perm (spare_rolled_back _ _) (List.Perm.refl _)
      · exact h.span.perm (spare_reserved hglobal) (List.Perm.refl _)

/-! ## Restore -/

/-- what a successful restore added -/
structure Restored (s : ServeState T K) (e : CachedKv T) (t : ℕ) (s' : ServeState T K) : Prop where
  positive : 0 < t
  inside : t ≤ e.tokenIds.length
  origin : e.localOrigin ≤ originPagesAt t s.slidingWindow s.localPool.pageSize
  added : ∃ localPages globalPages,
    s'.requests = s.requests ++ [⟨⟨⟨localPages, originPagesAt t s.slidingWindow s.localPool.pageSize, t⟩,
      ⟨globalPages, t⟩, s.nextId⟩, e.tokenIds.take t, .settled⟩] ∧
    localPages.length = divCeil t s.localPool.pageSize - originPagesAt t s.slidingWindow s.localPool.pageSize ∧
    globalPages.length = divCeil t s.globalPool.pageSize ∧
    s.localPool.free = localPages ++ s'.localPool.free ∧ s.globalPool.free = globalPages ++ s'.globalPool.free ∧
    s'.localMem = copyPages s.localMem ((e.localPages.drop (originPagesAt t s.slidingWindow s.localPool.pageSize -
      e.localOrigin)).take localPages.length) localPages ∧
    s'.globalMem = copyPages s.globalMem (e.globalPages.take globalPages.length) globalPages
  localPool : s'.localPool.pageSize = s.localPool.pageSize ∧ s'.localPool.paddingPermit = s.localPool.paddingPermit
  globalPool : s'.globalPool.pageSize = s.globalPool.pageSize ∧ s'.globalPool.paddingPermit = s.globalPool.paddingPermit
  rest : s'.slidingWindow = s.slidingWindow ∧ s'.cosMaxPos = s.cosMaxPos ∧ s'.cache = s.cache

/-- a refused restore leaves requests, cache, contents and spare pages as they were -/
structure Refused (s s' : ServeState T K) : Prop where
  geometry : s'.geometry = s.geometry
  requests : s'.requests = s.requests
  cache : s'.cache = s.cache
  localMem : s'.localMem = s.localMem
  globalMem : s'.globalMem = s.globalMem
  localPool : spare s'.localPool = spare s.localPool
  globalPool : spare s'.globalPool = spare s.globalPool

theorem Refused.refl (s : ServeState T K) : Refused s s := ⟨rfl, rfl, rfl, rfl, rfl, rfl, rfl⟩

theorem restore_cases (e : CachedKv T) (t : ℕ) {result : Except RestoreError Unit}
    (h : s.restoreFromCheckpoint e t = (result, s')) :
    (result = .ok () ∧ Restored s e t s') ∨ (∃ err, result = .error err ∧ Refused s s') := by
  unfold restoreFromCheckpoint at h
  dsimp only at h
  by_cases hinside : t = 0 ∨ e.tokenIds.length < t
  · rw [if_pos hinside] at h
    cases h
    exact Or.inr ⟨_, rfl, Refused.refl s⟩
  rw [if_neg hinside] at h
  by_cases horigin : originPagesAt t s.slidingWindow s.localPool.pageSize < e.localOrigin
  · rw [if_pos horigin] at h
    cases h
    exact Or.inr ⟨_, rfl, Refused.refl s⟩
  rw [if_neg horigin] at h
  by_cases hslice : e.localPages.length < originPagesAt t s.slidingWindow s.localPool.pageSize - e.localOrigin +
      (divCeil t s.localPool.pageSize - originPagesAt t s.slidingWindow s.localPool.pageSize)
  · rw [if_pos hslice] at h
    cases h
    exact Or.inr ⟨_, rfl, Refused.refl s⟩
  rw [if_neg hslice] at h
  rcases hglobal : s.globalPool.tryReserve (divCeil t s.globalPool.pageSize) with _ | ⟨globalPages, globalPool⟩
  · rw [hglobal] at h
    cases h
    exact Or.inr ⟨_, rfl, Refused.refl s⟩
  rw [hglobal] at h
  dsimp only at h
  obtain ⟨hglen, hgfree, hgsize, hgpad⟩ := KvPool.tryReserve_ok hglobal
  by_cases hcount : (e.globalPages.take globalPages.length).length = globalPages.length
  · rw [if_pos hcount] at h
    generalize htake : divCeil t s.localPool.pageSize - originPagesAt t s.slidingWindow s.localPool.pageSize = localTake
      at h
    obtain ⟨hlfree, -, hlsize, hlpad⟩ := s.localPool.reserveEach_free localTake
    by_cases hgranted : (s.localPool.reserveEach localTake).1.length = localTake
    · rw [if_pos hgranted] at h
      cases h
      refine Or.inl ⟨rfl, Nat.pos_of_ne_zero fun h0 => hinside (Or.inl h0), not_lt.1 fun hlt => hinside (Or.inr hlt),
        not_lt.1 horigin, ⟨_, globalPages, rfl, ?_, hglen, hlfree, hgfree, ?_, rfl⟩, ⟨hlsize, hlpad⟩, ⟨hgsize, hgpad⟩,
        rfl, rfl, rfl⟩
      · rw [hgranted, htake]
      · rw [hgranted]
    · rw [if_neg hgranted] at h
      cases h
      obtain ⟨-, hsize, -⟩ := KvPool.dropEach_eq (s.localPool.reserveEach localTake).1
        (s.localPool.reserveEach localTake).2
      refine Or.inr ⟨_, rfl, ?_, rfl, rfl, rfl, rfl, spare_rolled_back _ _, spare_reserved hglobal⟩
      simp only [geometry, hsize, hlsize, KvPool.dropReservation_pageSize, hgsize]
  · rw [if_neg hcount] at h
    cases h
    refine Or.inr ⟨_, rfl, ?_, rfl, rfl, rfl, rfl, rfl, spare_reserved hglobal⟩
    simp only [geometry, KvPool.dropReservation_pageSize, hgsize]

/-- a restored request is settled at its resume point -/
theorem restored_session (hl : 0 < g.localPage) (id : ℕ) {t : ℕ} {localPages globalPages : List ℕ} {tokens : List T}
    (ht : t ≤ tokens.length)
    (hlocal : localPages.length = divCeil t g.localPage - originPagesAt t g.window g.localPage)
    (hglobal : globalPages.length = divCeil t g.globalPage) :
    SessionOk g (⟨⟨⟨localPages, originPagesAt t g.window g.localPage, t⟩, ⟨globalPages, t⟩, id⟩, tokens.take t,
      .settled⟩ : Session T) := by
  have hle := origin_le_pages g.window hl t
  refine ⟨⟨0, fun _ => rfl, rfl, le_rfl, ?_, hglobal⟩, fun _ => rfl, ?_⟩
  · simp only [hlocal, Nat.add_zero]
    omega
  · simp only [List.length_take]
    omega

theorem restore_inv (hl : 0 < g.localPage) (hg : 0 < g.globalPage) {e : CachedKv T} (he : e ∈ s.cache.entries)
    (t : ℕ) (h : Inv g keys s) : Inv g keys (s.restoreFromCheckpoint e t).2 := by
  obtain ⟨hlp, hgp, hw⟩ := h.pages
  obtain ⟨result, s', hresult⟩ : ∃ result s', s.restoreFromCheckpoint e t = (result, s') := ⟨_, _, rfl⟩
  rw [hresult]
  rcases restore_cases e t hresult with ⟨-, hres⟩ | ⟨err, -, href⟩
  · obtain ⟨hpos, hinside, horigin, ⟨localPages, globalPages, hreq, hllen, hglen, hlfree, hgfree, hlmem, hgmem⟩,
      ⟨hlsize, hlpad⟩, ⟨hgsize, hgpad⟩, hwin, hcos, hcache⟩ := hres
    rw [hw, hlp] at horigin hreq hllen hlmem
    rw [hgp] at hglen
    have hle := origin_le_pages g.window hl t
    have hmemL : e.slideRow ∈ s.slideRows := List.mem_append_right _ (List.mem_map_of_mem he)
    have hmemG : e.spanRow ∈ s.spanRows := List.mem_append_right _ (List.mem_map_of_mem he)
    have hcopyL := (h.slide.perm (spare_taken hlfree hlpad).symm (List.Perm.refl _)).copy hl t
      (originPagesAt t g.window g.localPage) hmemL hinside horigin (by
        rw [hllen, Nat.add_sub_cancel' hle]
        exact le_divCeil_mul _ hl)
    have hcopyG := (h.span.perm (spare_taken hgfree hgpad).symm (List.Perm.refl _)).copy hg t 0
      hmemG hinside le_rfl (by
        rw [hglen, Nat.zero_add]
        exact le_divCeil_mul _ hg)
    refine ⟨?_, ?_, ?_, ?_, ?_, ?_⟩
    · rw [← h.geometry]
      simp only [geometry, hwin, hcos, hlsize, hgsize, hcache]
    · rw [hreq]
      intro x hx
      rcases List.mem_append.1 hx with hx | hx
      · exact h.sessions x hx
      · rw [List.mem_singleton.1 hx]
        exact restored_session hl s.nextId hinside hllen hglen
    · rw [hcache]
      exact h.entries
    · rw [hcache]
      exact h.capped
    · rw [hlmem, slideRows, hreq, hcache]
      exact hcopyL.perm rfl (rows_append Session.slideRow _ s.requests
        ⟨⟨⟨localPages, originPagesAt t g.window g.localPage, t⟩, ⟨globalPages, t⟩, s.nextId⟩, e.tokenIds.take t,
          .settled⟩)
    · rw [hgmem, spanRows, hreq, hcache]
      exact hcopyG.perm rfl (rows_append Session.spanRow _ s.requests
        ⟨⟨⟨localPages, originPagesAt t g.window g.localPage, t⟩, ⟨globalPages, t⟩, s.nextId⟩, e.tokenIds.take t,
          .settled⟩)
  · refine ⟨href.geometry.trans h.geometry, ?_, ?_, ?_, ?_, ?_⟩
    · rw [href.requests]
      exact h.sessions
    · rw [href.cache]
      exact h.entries
    · rw [href.cache]
      exact h.capped
    · rw [href.localMem, href.localPool, slideRows, href.requests, href.cache]
      exact h.slide
    · rw [href.globalMem, href.globalPool, spanRows, href.requests, href.cache]
      exact h.span

/-! ## Runs -/

/-- **One operation.** -/
theorem apply_inv (hl : 0 < g.localPage) (hg : 0 < g.globalPage) (op : KvOp T) (h : Inv g keys s) :
    Inv g keys (s.apply keys op) := by
  cases op with
  | alloc => exact allocKv_inv hl hg h
  | admitTokens i n =>
    unfold apply
    dsimp only
    cases hr : s.requests[i]? with
    | none => exact h
    | some r => exact admitTokens_inv hr n h
  | step i tokens =>
    unfold apply
    dsimp only
    cases hr : s.requests[i]? with
    | none => exact h
    | some r => exact step_inv hl hg hr tokens h
  | launch i tokens =>
    unfold apply
    dsimp only
    cases hr : s.requests[i]? with
    | none => exact h
    | some r => exact launch_inv hl hg hr tokens h
  | join i =>
    unfold apply
    dsimp only
    cases hr : s.requests[i]? with
    | none => exact h
    | some r =>
      dsimp only
      split_ifs with hphase
      · exact (join_inv hl hr hphase h).1
      · exact h
  | close i =>
    unfold apply
    dsimp only
    cases hr : s.requests[i]? with
    | none => exact h
    | some r => exact close_inv hr h
  | capture i ancestor =>
    unfold apply
    dsimp only
    cases hr : s.requests[i]? with
    | none => exact h
    | some r =>
      dsimp only
      split_ifs with hphase
      · exact capture_inv hl hg (List.mem_of_getElem? hr) hphase ancestor h
      · exact h
  | resolve prompt => exact resolve_inv prompt h
  | restore index t =>
    unfold apply
    dsimp only
    cases he : s.cache.entries[index]? with
    | none => exact h
    | some e => exact restore_inv hl hg (List.mem_of_getElem? he) t h
  | evict => exact evictLru_inv h

/-- **Every run.** -/
theorem run_inv (hl : 0 < g.localPage) (hg : 0 < g.globalPage) (ops : List (KvOp T)) (h : Inv g keys s) :
    Inv g keys (s.run keys ops) := by
  unfold run
  induction ops generalizing s with
  | nil => exact h
  | cons op ops ih => exact ih (apply_inv hl hg op h)

/-- a pool as built has every page once -/
theorem spare_new {pageSize numPages : ℕ} {pool : KvPool} (h : KvPool.new pageSize numPages = some pool) :
    pool.pageSize = pageSize ∧ (spare pool).Nodup := by
  unfold KvPool.new PagePool.tryAcquireMany at h
  split_ifs at h with hlt
  · cases h
  · cases h
    refine ⟨rfl, ?_⟩
    rw [spare, KvPool.free, add_comm, Multiset.coe_add, List.take_append_drop]
    exact Multiset.coe_nodup.2 List.nodup_range

theorem load_inv {localPage globalPage localPages globalPages : ℕ} {localPool globalPool : KvPool}
    (hlocal : KvPool.new localPage localPages = some localPool)
    (hglobal : KvPool.new globalPage globalPages = some globalPool) (window cosMaxPos cap : ℕ) (mem : PageMemory K) :
    Inv ⟨window, cosMaxPos, localPage, globalPage, cap, window⟩ keys
      (load window cosMaxPos cap localPool globalPool mem : ServeState T K) := by
  obtain ⟨hl, hln⟩ := spare_new hlocal
  obtain ⟨hg, hgn⟩ := spare_new hglobal
  refine ⟨?_, nofun, nofun, fun _ => Nat.zero_le _, ⟨?_, nofun⟩, ⟨?_, nofun⟩⟩
  · simp only [geometry, load, hl, hg, PrefixCache.new]
  · simpa [slideRows, load, PrefixCache.new] using hln
  · simpa [spanRows, load, PrefixCache.new] using hgn

end ServeState

end Pegainfer.Gemma4
