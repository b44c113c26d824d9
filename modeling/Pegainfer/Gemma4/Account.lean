/-
The two-family KV account over its pools, at any window and page size.

`Gemma4.Kv` follows one request at the serving page size and takes the pools' answers as given. Here the pools are part
of the step: a family's pages come off the free list one reservation at a time and go back when dropped.
- `PagePool`, `KvPool`: the fixed-page allocator, last page returned first out.
- `admitTokens`, `advanceAndRelease`: what a step takes and returns, with the state after a refusal.
- `Account`: origin, held pages and frontier agree, `k` tokens being admitted ahead of the frontier.
- `admitTokens_ok`, `advanceAndRelease_ok`, `planStep_ok`: what a successful admission, release and plan found and left.
- `admitTokens_error`, `advanceAndRelease_error`: a refusal leaves the request and the pools' available counts alone.
-/
import Mathlib.Tactic
import Pegainfer.Gemma4.Kv
import Pegainfer.Kvbm.Calls

namespace Pegainfer.Gemma4

open Pegainfer.Kvbm (divCeil divCeil_le_iff le_divCeil_mul divCeil_mono)

/-! ## The pools -/

/-- the fixed-page allocator; the free list's head is the top of the source's stack -/
structure PagePool where
  capacityPages : ℕ
  freeList : List ℕ
deriving DecidableEq, Repr

namespace PagePool

def new (capacityPages : ℕ) : PagePool := ⟨capacityPages, List.range capacityPages⟩

def tryAcquireMany (pool : PagePool) (n : ℕ) : Option (List ℕ × PagePool) :=
  if pool.freeList.length < n then none
  else some (pool.freeList.take n, { pool with freeList := pool.freeList.drop n })

def availablePages (pool : PagePool) : ℕ := pool.freeList.length

/-- a dropped permit pushes its pages back last page first -/
def dropPermit (pool : PagePool) (pages : List ℕ) : PagePool := { pool with freeList := pages ++ pool.freeList }

end PagePool

/-- a family's pool: one page is reserved for padding -/
structure KvPool where
  pageSize : ℕ
  pool : PagePool
  paddingPermit : List ℕ
deriving DecidableEq, Repr

namespace KvPool

def new (pageSize numPages : ℕ) : Option KvPool :=
  ((PagePool.new numPages).tryAcquireMany 1).map fun r => ⟨pageSize, r.2, r.1⟩

def availablePages (pool : KvPool) : ℕ := pool.pool.availablePages

def tryReserve (pool : KvPool) (pages : ℕ) : Option (List ℕ × KvPool) :=
  (pool.pool.tryAcquireMany pages).map fun r => (r.1, { pool with pool := r.2 })

/-- a dropped reservation -/
def dropReservation (pool : KvPool) (pages : List ℕ) : KvPool := { pool with pool := pool.pool.dropPermit pages }

/-- reservations of one page each, up to `n` or the first refusal -/
def reserveEach (pool : KvPool) : ℕ → List ℕ × KvPool
  | 0 => ([], pool)
  | n + 1 =>
    match pool.tryReserve 1 with
    | none => ([], pool)
    | some r =>
      let rest := reserveEach r.2 n
      (r.1 ++ rest.1, rest.2)

/-- reservations of one page each, dropped front to back -/
def dropEach (pool : KvPool) (pages : List ℕ) : KvPool := pages.foldl (fun pool page => pool.dropReservation [page]) pool

/-- the free pages -/
def free (pool : KvPool) : List ℕ := pool.pool.freeList

theorem tryReserve_eq (pool : KvPool) (n : ℕ) :
    pool.tryReserve n = if pool.free.length < n then none
      else some (pool.free.take n, { pool with pool := { pool.pool with freeList := pool.free.drop n } }) := by
  unfold tryReserve PagePool.tryAcquireMany free
  split_ifs <;> rfl

/-- what was granted is the top of the free list -/
theorem tryReserve_ok {pool pool' : KvPool} {n : ℕ} {pages : List ℕ} (h : pool.tryReserve n = some (pages, pool')) :
    pages.length = n ∧ pool.free = pages ++ pool'.free ∧ pool'.pageSize = pool.pageSize ∧
      pool'.paddingPermit = pool.paddingPermit := by
  rw [tryReserve_eq] at h
  split_ifs at h with hlt
  cases h
  refine ⟨?_, (List.take_append_drop n pool.free).symm, rfl, rfl⟩
  rw [List.length_take]
  omega

theorem tryReserve_isSome {pool : KvPool} {n : ℕ} : (pool.tryReserve n).isSome = true ↔ n ≤ pool.availablePages := by
  rw [tryReserve_eq]
  split_ifs with hlt
  · simpa [availablePages, PagePool.availablePages, free] using hlt
  · simpa [availablePages, PagePool.availablePages, free] using hlt

/-- one reservation a page takes the top of the free list, as far as it goes -/
theorem reserveEach_eq (n : ℕ) : ∀ pool : KvPool, pool.reserveEach n =
    (pool.free.take n, { pool with pool := { pool.pool with freeList := pool.free.drop n } }) := by
  induction n with
  | zero =>
    intro pool
    rfl
  | succ n ih =>
    intro pool
    obtain ⟨pageSize, ⟨capacity, freeList⟩, padding⟩ := pool
    cases freeList with
    | nil => rfl
    | cons page freeList =>
      have hgrant : (⟨pageSize, ⟨capacity, page :: freeList⟩, padding⟩ : KvPool).tryReserve 1 =
          some ([page], ⟨pageSize, ⟨capacity, freeList⟩, padding⟩) := by
        rw [tryReserve_eq]
        exact if_neg (by simp [free])
      simp only [reserveEach, hgrant, ih]
      rfl

theorem reserveEach_free (pool : KvPool) (n : ℕ) :
    pool.free = (pool.reserveEach n).1 ++ (pool.reserveEach n).2.free ∧
      (pool.reserveEach n).1.length = min n pool.availablePages ∧
      (pool.reserveEach n).2.pageSize = pool.pageSize ∧ (pool.reserveEach n).2.paddingPermit = pool.paddingPermit := by
  rw [reserveEach_eq]
  exact ⟨(List.take_append_drop n pool.free).symm, List.length_take, rfl, rfl⟩

@[simp] theorem dropReservation_free (pool : KvPool) (pages : List ℕ) :
    (pool.dropReservation pages).free = pages ++ pool.free := rfl

@[simp] theorem dropReservation_pageSize (pool : KvPool) (pages : List ℕ) :
    (pool.dropReservation pages).pageSize = pool.pageSize := rfl

@[simp] theorem dropReservation_padding (pool : KvPool) (pages : List ℕ) :
    (pool.dropReservation pages).paddingPermit = pool.paddingPermit := rfl

/-- pages dropped one by one come back in turn, the last on top -/
theorem dropEach_eq (pages : List ℕ) : ∀ pool : KvPool,
    (pool.dropEach pages).free = pages.reverse ++ pool.free ∧ (pool.dropEach pages).pageSize = pool.pageSize ∧
      (pool.dropEach pages).paddingPermit = pool.paddingPermit := by
  induction pages with
  | nil =>
    intro pool
    exact ⟨rfl, rfl, rfl⟩
  | cons page pages ih =>
    intro pool
    obtain ⟨hfree, hsize, hpad⟩ := ih (pool.dropReservation [page])
    refine ⟨?_, hsize, hpad⟩
    rw [dropEach, List.foldl_cons, ← dropEach, hfree]
    simp

theorem available_eq (pool : KvPool) : pool.availablePages = pool.free.length := rfl

end KvPool

/-! ## Steps of an account -/

/-- a refused admission, reported after the rollback -/
structure AdmissionRefusal where
  newTokens : ℕ
  kvLen : ℕ
  localNeed : ℕ
  localAvailable : ℕ
  localGranted : Bool
  globalNeed : ℕ
  globalAvailable : ℕ
  globalGranted : Bool
deriving DecidableEq, Repr

inductive AccountError
  | kv (error : KvError)
  | refused (refusal : AdmissionRefusal)
deriving DecidableEq, Repr

/-- one rank's families with the pools their pages come from -/
structure RankView where
  kv : RankKv
  localPool : KvPool
  globalPool : KvPool
deriving DecidableEq, Repr

/-- the least frontier whose origin reaches `originPages` -/
def frontierReaching (originPages window pageSize : ℕ) : ℕ :=
  if originPages = 0 then 0 else originPages * pageSize + window

structure ReleasePlan where
  frontier : ℕ
  originPages : ℕ
  releasePages : ℕ
deriving DecidableEq, Repr

/-- what moving `kv` by `tokens` releases -/
def planRelease (kv : SlidingLocalKv) (tokens window pageSize : ℕ) : Except AccountError ReleasePlan :=
  let frontier := kv.frontier + tokens
  let originPages := originPagesAt frontier window pageSize
  if originPages < kv.originPages then .error (.kv (.originPast kv.originPages frontier originPages))
  else
    let releasePages := originPages - kv.originPages
    if releasePages ≤ kv.resident.length then .ok ⟨frontier, originPages, releasePages⟩
    else .error (.kv (.releaseShort releasePages kv.resident.length frontier))

/-- `SlidingLocalKv.residentSpan` at the pool's page size -/
def SlidingLocalKv.residentSpanIn (kv : SlidingLocalKv) (page start kvLen : ℕ) : Except AccountError ResidentSpan :=
  let originTokens := kv.originPages * page
  if kvLen < originTokens then .error (.kv .windowPastFrontier)
  else if start < originTokens then .error (.kv .startBeforeWindow)
  else
    let relKvLen := kvLen - originTokens
    let pages := divCeil relKvLen page
    if kv.resident.length = pages then
      .ok ⟨start - originTokens, pages, if relKvLen % page = 0 then page else relKvLen % page⟩
    else .error (.kv (.residentRow kv.resident.length relKvLen))

/-- `KvState.descForLen` at the pool's page size -/
def KvState.descForLenIn (kv : KvState) (page seqLen : ℕ) : Except AccountError ℕ :=
  let needed := divCeil seqLen page
  if kv.pages.length = needed then .ok (lastPageLenFor seqLen page)
  else .error (.kv (.globalRow kv.pages.length seqLen needed))

namespace RankView

/-- the sliding family's frontier moves, and the pages that leave the window go back to its pool -/
def advanceAndRelease (v : RankView) (count window : ℕ) : Except AccountError Unit × RankView :=
  match planRelease v.kv.slide count window v.localPool.pageSize with
  | .error e => (.error e, v)
  | .ok plan =>
    (.ok (), { v with
      kv := { v.kv with slide :=
        { resident := v.kv.slide.resident.drop plan.releasePages
          originPages := plan.originPages
          frontier := plan.frontier } }
      localPool := v.localPool.dropEach (v.kv.slide.resident.take plan.releasePages) })

/-- the global frontier moves along -/
def advanceGlobal (v : RankView) (count : ℕ) : RankView :=
  { v with kv := { v.kv with span := { v.kv.span with seqLen := v.kv.span.seqLen + count } } }

/-- the sliding frontier alone, its release deferred -/
def advanceLocal (v : RankView) (count : ℕ) : RankView := { v with kv := { v.kv with slide := v.kv.slide.advance count } }

/-- the checks a step plan makes before anything is launched -/
def planStep (v : RankView) (cosMaxPos count : ℕ) : Except AccountError ResidentSpan := do
  let kvLen := v.kv.slide.frontier + count
  if v.kv.slide.frontier ≠ v.kv.span.seqLen then throw (.kv (.frontiersDiverged v.kv.slide.frontier v.kv.span.seqLen))
  if cosMaxPos < kvLen then throw (.kv (.ropeRows kvLen cosMaxPos))
  let _ ← v.kv.span.descForLenIn v.globalPool.pageSize kvLen
  v.kv.slide.residentSpanIn v.localPool.pageSize v.kv.slide.frontier kvLen

/-- pages a family still has to reserve -/
def pagesToReserve (kvLen accounted pageSize : ℕ) : Except AccountError ℕ :=
  let want := divCeil kvLen pageSize
  if want < accounted then .error (.kv (.accountPast accounted kvLen want)) else .ok (want - accounted)

/-- what both families have to reserve -/
def admissionNeed (v : RankView) (newTokens : ℕ) : Except AccountError (ℕ × ℕ) := do
  let kvLen := v.kv.slide.frontier + newTokens
  if v.kv.slide.frontier ≠ v.kv.span.seqLen then throw (.kv (.frontiersDiverged v.kv.slide.frontier v.kv.span.seqLen))
  let localNeed ← pagesToReserve kvLen (v.kv.slide.originPages + v.kv.slide.resident.length) v.localPool.pageSize
  let globalNeed ← pagesToReserve kvLen v.kv.span.pages.length v.globalPool.pageSize
  pure (localNeed, globalNeed)

/-- reserve on both sides, or roll both back -/
def reserveBoth (v : RankView) (newTokens localNeed globalNeed : ℕ) : Except AccountError Unit × RankView :=
  let localRs := v.localPool.reserveEach localNeed
  let localGranted := decide (localRs.1.length = localNeed)
  match localGranted, if localGranted then v.globalPool.tryReserve globalNeed else none with
  | true, some globalR =>
    (.ok (), { kv := { v.kv with slide := { v.kv.slide with resident := v.kv.slide.resident ++ localRs.1 },
                                 span := { v.kv.span with pages := v.kv.span.pages ++ globalR.1 } }
               localPool := localRs.2
               globalPool := globalR.2 })
  | localGranted, globalR =>
    let localPool := localRs.2.dropEach localRs.1
    (.error (.refused ⟨newTokens, v.kv.slide.frontier + newTokens, localNeed, localPool.availablePages, localGranted,
      globalNeed, v.globalPool.availablePages, globalR.isSome⟩), { v with localPool := localPool })

/-- atomic across the two pools -/
def admitTokens (v : RankView) (newTokens : ℕ) : Except AccountError Unit × RankView :=
  match v.admissionNeed newTokens with
  | .error e => (.error e, v)
  | .ok need => v.reserveBoth newTokens need.1 need.2

end RankView

/-- at the serving page size these are the checks of `Gemma4.Kv` -/
theorem SlidingLocalKv.residentSpanIn_local (kv : SlidingLocalKv) (start kvLen : ℕ) :
    kv.residentSpanIn LOCAL_PAGE_SIZE start kvLen = (kv.residentSpan start kvLen).mapError .kv := by
  unfold SlidingLocalKv.residentSpanIn SlidingLocalKv.residentSpan
  dsimp only
  split_ifs <;> rfl

theorem KvState.descForLenIn_global (kv : KvState) (seqLen : ℕ) :
    kv.descForLenIn GLOBAL_PAGE_SIZE seqLen = (kv.descForLen seqLen).mapError .kv := by
  unfold KvState.descForLenIn KvState.descForLen
  dsimp only
  split_ifs <;> rfl

theorem RankView.advanceAndRelease_local {v : RankView} (hp : v.localPool.pageSize = LOCAL_PAGE_SIZE)
    (count window : ℕ) :
    (v.advanceAndRelease count window).1.map (fun _ => (v.advanceAndRelease count window).2.kv.slide) =
      (v.kv.slide.advanceAndRelease count window).mapError .kv := by
  unfold RankView.advanceAndRelease planRelease SlidingLocalKv.advanceAndRelease
  rw [hp]
  dsimp only
  split_ifs <;> rfl

theorem SlidingLocalKv.residentSpanIn_ok {kv : SlidingLocalKv} {page start kvLen : ℕ} {span : ResidentSpan}
    (h : kv.residentSpanIn page start kvLen = .ok span) :
    kv.originPages * page ≤ start ∧ kv.resident.length = divCeil (kvLen - kv.originPages * page) page := by
  unfold SlidingLocalKv.residentSpanIn at h
  dsimp only at h
  by_cases hpast : kvLen < kv.originPages * page
  · rw [if_pos hpast] at h
    cases h
  by_cases hstart : start < kv.originPages * page
  · rw [if_neg hpast, if_pos hstart] at h
    cases h
  by_cases hrow : kv.resident.length = divCeil (kvLen - kv.originPages * page) page
  · exact ⟨not_lt.1 hstart, hrow⟩
  · rw [if_neg hpast, if_neg hstart, if_neg hrow] at h
    cases h

/-! ## The window in pages -/

section Pages

variable {window page : ℕ}

theorem origin_mul_le (frontier : ℕ) : originPagesAt frontier window page * page ≤ frontier - window :=
  Nat.div_mul_le_self _ _

theorem originPagesAt_mono {f f' : ℕ} (h : f ≤ f') : originPagesAt f window page ≤ originPagesAt f' window page :=
  Nat.div_le_div_right (Nat.sub_le_sub_right h window)

/-- the origin of a frontier reaches `origin` from `frontierReaching origin` on -/
theorem origin_reached (hp : 0 < page) (frontier origin : ℕ) :
    origin ≤ originPagesAt frontier window page ↔ frontierReaching origin window page ≤ frontier := by
  unfold originPagesAt frontierReaching
  rw [Nat.le_div_iff_mul_le hp]
  split_ifs with h0
  · simp [h0]
  · have hpos : 0 < origin * page := Nat.mul_pos (Nat.pos_of_ne_zero h0) hp
    omega

/-- the window's origin is no later than the pages the frontier needs -/
theorem origin_le_pages (window : ℕ) {page : ℕ} (hp : 0 < page) (frontier : ℕ) :
    originPagesAt frontier window page ≤ divCeil frontier page := by
  have h₁ : originPagesAt frontier window page ≤ frontier / page := Nat.div_le_div_right (Nat.sub_le _ _)
  exact h₁.trans (Pegainfer.Kvbm.div_le_divCeil frontier hp)

/-- a settled row holds the window's pages and at most one more -/
theorem settled_row_le (window : ℕ) {page : ℕ} (hp : 0 < page) (frontier : ℕ) :
    divCeil frontier page - originPagesAt frontier window page ≤ divCeil window page + 1 := by
  have hlt : frontier - window < (originPagesAt frontier window page + 1) * page := by
    rw [Nat.mul_comm]
    exact Nat.lt_mul_div_succ _ hp
  have hw := le_divCeil_mul window hp
  have hle : divCeil frontier page ≤ originPagesAt frontier window page + 1 + divCeil window page := by
    refine (divCeil_le_iff hp).2 ?_
    rw [Nat.add_mul]
    omega
  omega

/-- pages counted from the origin on -/
theorem divCeil_sub_mul (hp : 0 < page) {tokens origin : ℕ} (h : origin * page ≤ tokens) :
    origin + divCeil (tokens - origin * page) page = divCeil tokens page := by
  have hle := le_divCeil_mul (tokens - origin * page) hp
  apply le_antisymm
  · have horigin : origin ≤ divCeil tokens page := by
      have := h.trans (le_divCeil_mul tokens hp)
      exact Nat.le_of_mul_le_mul_right this hp
    have hrest : divCeil (tokens - origin * page) page ≤ divCeil tokens page - origin := by
      refine (divCeil_le_iff hp).2 ?_
      rw [Nat.sub_mul]
      have := le_divCeil_mul tokens hp
      omega
    omega
  · refine (divCeil_le_iff hp).2 ?_
    rw [Nat.add_mul]
    omega

/-- a position below the tokens accounted for lies in a page accounted for -/
theorem div_lt_divCeil (hp : 0 < page) {p tokens : ℕ} (h : p < tokens) : p / page < divCeil tokens page := by
  rw [Nat.div_lt_iff_lt_mul hp]
  exact h.trans_le (le_divCeil_mul tokens hp)

end Pages

/-! ## The account -/

/-- a request's families agree: `k` tokens are admitted ahead of the frontier, and the origin is not past it -/
structure Account (window localPage globalPage : ℕ) (kv : RankKv) (k : ℕ) : Prop where
  frontier : kv.span.seqLen = kv.slide.frontier
  origin : kv.slide.originPages ≤ originPagesAt kv.slide.frontier window localPage
  slide : kv.slide.originPages + kv.slide.resident.length = divCeil (kv.slide.frontier + k) localPage
  span : kv.span.pages.length = divCeil (kv.slide.frontier + k) globalPage

namespace Account

variable {window localPage globalPage k : ℕ} {kv : RankKv}

/-- a fresh request -/
theorem fresh (hl : 0 < localPage) (hg : 0 < globalPage) (id : ℕ) :
    Account window localPage globalPage ⟨⟨[], 0, 0⟩, ⟨[], 0⟩, id⟩ 0 := by
  have hzero : ∀ {b : ℕ}, 0 < b → divCeil 0 b = 0 := fun hb => Nat.le_zero.1 ((divCeil_le_iff hb).2 (by simp))
  exact ⟨rfl, Nat.zero_le _, (hzero hl).symm, (hzero hg).symm⟩

theorem origin_mul_le (h : Account window localPage globalPage kv k) :
    kv.slide.originPages * localPage ≤ kv.slide.frontier - window :=
  (Nat.mul_le_mul_right localPage h.origin).trans (Gemma4.origin_mul_le _)

/-- **Residency.** Every key the window of the next query can read is on a resident page. -/
theorem window_resident (hp : 0 < localPage) (h : Account window localPage globalPage kv k) {p : ℕ}
    (hlow : kv.slide.frontier - (window - 1) ≤ p) (hhigh : p < kv.slide.frontier + k) :
    kv.slide.originPages ≤ p / localPage ∧
      p / localPage < kv.slide.originPages + kv.slide.resident.length := by
  constructor
  · rw [Nat.le_div_iff_mul_le hp]
    have := h.origin_mul_le
    omega
  · rw [h.slide]
    exact div_lt_divCeil hp hhigh

/-- **The admitted span.** The row covers exactly the tokens admitted. -/
theorem residentSpan_ok (hp : 0 < localPage) (h : Account window localPage globalPage kv k) :
    ∃ span, kv.slide.residentSpanIn localPage kv.slide.frontier (kv.slide.frontier + k) = .ok span := by
  have horigin := h.origin_mul_le
  have hkept : kv.slide.originPages * localPage ≤ kv.slide.frontier + k := by omega
  have hrow := divCeil_sub_mul hp hkept
  have hheld := h.slide
  unfold SlidingLocalKv.residentSpanIn
  dsimp only
  rw [if_neg (by omega), if_neg (by omega), if_pos (by omega)]
  exact ⟨_, rfl⟩

/-- a settled row is short -/
theorem settled_le (hp : 0 < localPage) (h : Account window localPage globalPage kv 0)
    (hsettled : kv.slide.originPages = originPagesAt kv.slide.frontier window localPage) :
    kv.slide.resident.length ≤ divCeil window localPage + 1 := by
  have hle := settled_row_le window hp kv.slide.frontier
  have hheld := h.slide
  rw [Nat.add_zero] at hheld
  omega

end Account

namespace RankView

variable {v v' : RankView} {n window cosMaxPos : ℕ}

theorem pagesToReserve_ok {kvLen accounted pageSize need : ℕ} (h : pagesToReserve kvLen accounted pageSize = .ok need) :
    accounted + need = divCeil kvLen pageSize := by
  unfold pagesToReserve at h
  dsimp only at h
  split_ifs at h with hlt
  cases h
  omega

theorem admissionNeed_ok {need : ℕ × ℕ} (h : v.admissionNeed n = .ok need) :
    v.kv.span.seqLen = v.kv.slide.frontier ∧
      v.kv.slide.originPages + v.kv.slide.resident.length + need.1 =
        divCeil (v.kv.slide.frontier + n) v.localPool.pageSize ∧
      v.kv.span.pages.length + need.2 = divCeil (v.kv.slide.frontier + n) v.globalPool.pageSize := by
  unfold admissionNeed at h
  simp only [bind, Except.bind, pure, Except.pure, throw, throwThe, MonadExceptOf.throw] at h
  split_ifs at h with hfrontier
  split at h
  · cases h
  · rename_i localNeed hlocal
    split at h
    · cases h
    · rename_i globalNeed hglobal
      cases h
      exact ⟨(not_not.1 hfrontier).symm, pagesToReserve_ok hlocal, pagesToReserve_ok hglobal⟩

/-- what a successful admission took -/
structure Granted (v v' : RankView) (n : ℕ) : Prop where
  frontier : v.kv.span.seqLen = v.kv.slide.frontier
  pages : ∃ localPages globalPages,
    v'.kv = { v.kv with slide := { v.kv.slide with resident := v.kv.slide.resident ++ localPages },
                        span := { v.kv.span with pages := v.kv.span.pages ++ globalPages } } ∧
    v.localPool.free = localPages ++ v'.localPool.free ∧ v.globalPool.free = globalPages ++ v'.globalPool.free
  localPool : v'.localPool.pageSize = v.localPool.pageSize ∧ v'.localPool.paddingPermit = v.localPool.paddingPermit
  globalPool : v'.globalPool.pageSize = v.globalPool.pageSize ∧ v'.globalPool.paddingPermit = v.globalPool.paddingPermit
  slide : v'.kv.slide.originPages + v'.kv.slide.resident.length =
    divCeil (v.kv.slide.frontier + n) v.localPool.pageSize
  span : v'.kv.span.pages.length = divCeil (v.kv.slide.frontier + n) v.globalPool.pageSize

theorem admitTokens_ok (h : v.admitTokens n = (.ok (), v')) : Granted v v' n := by
  unfold admitTokens at h
  split at h
  · cases h
  · rename_i need hneed
    obtain ⟨hfrontier, hlocal, hglobal⟩ := admissionNeed_ok hneed
    unfold reserveBoth at h
    dsimp only at h
    obtain ⟨hfree, hlen, hsize, hpad⟩ := v.localPool.reserveEach_free need.1
    split at h
    · rename_i globalR hgranted hglobalR
      rw [hgranted, if_pos rfl] at hglobalR
      obtain ⟨hglen, hgfree, hgsize, hgpad⟩ := KvPool.tryReserve_ok hglobalR
      have hllen : (v.localPool.reserveEach need.1).1.length = need.1 := of_decide_eq_true hgranted
      cases h
      refine ⟨hfrontier, ⟨_, _, rfl, hfree, hgfree⟩, ⟨hsize, hpad⟩, ⟨hgsize, hgpad⟩, ?_, ?_⟩
      · dsimp only
        rw [List.length_append, hllen, ← hlocal, Nat.add_assoc]
      · dsimp only
        rw [List.length_append, hglen, ← hglobal]
    · cases h

/-- **A refused admission.** The request is as before, and so are the pages each pool has to give. -/
theorem admitTokens_error {e : AccountError} (h : v.admitTokens n = (.error e, v')) :
    v'.kv = v.kv ∧ v'.globalPool = v.globalPool ∧ v'.localPool.free.Perm v.localPool.free ∧
      v'.localPool.pageSize = v.localPool.pageSize ∧ v'.localPool.paddingPermit = v.localPool.paddingPermit := by
  unfold admitTokens at h
  split at h
  · cases h
    exact ⟨rfl, rfl, List.Perm.refl _, rfl, rfl⟩
  · rename_i need hneed
    unfold reserveBoth at h
    dsimp only at h
    obtain ⟨hfree, -, hsize, hpad⟩ := v.localPool.reserveEach_free need.1
    split at h
    · cases h
    · cases h
      obtain ⟨hdrop, hdropSize, hdropPad⟩ :=
        KvPool.dropEach_eq (v.localPool.reserveEach need.1).1 (v.localPool.reserveEach need.1).2
      refine ⟨rfl, rfl, ?_, hdropSize.trans hsize, hdropPad.trans hpad⟩
      rw [hdrop, hfree]
      exact (List.reverse_perm _).append_right _

/-- **Admitting again.** A second admission of the same tokens takes nothing. -/
theorem admitTokens_again (h : v.admitTokens n = (.ok (), v')) : v'.admitTokens n = (.ok (), v') := by
  obtain ⟨hfrontier, ⟨localPages, globalPages, hkv, -, -⟩, ⟨hsize, -⟩, ⟨hgsize, -⟩, hslide, hspan⟩ := admitTokens_ok h
  have hf : v'.kv.slide.frontier = v.kv.slide.frontier := by rw [hkv]
  have hs : v'.kv.span.seqLen = v.kv.span.seqLen := by rw [hkv]
  have hneed : v'.admissionNeed n = .ok (0, 0) := by
    unfold admissionNeed
    rw [hf, hs, hfrontier, hsize, hgsize, hslide, hspan]
    simp [pagesToReserve, bind, Except.bind, pure, Except.pure]
  have hzero : v'.globalPool.tryReserve 0 = some ([], v'.globalPool) := by
    rw [KvPool.tryReserve_eq]
    rfl
  unfold admitTokens
  rw [hneed]
  unfold reserveBoth
  simp only [KvPool.reserveEach, List.length_nil, decide_true, if_true, hzero, List.append_nil]

/-! ## Moving the frontier -/

/-- a refused release changes nothing -/
theorem advanceAndRelease_error {e : AccountError} (h : v.advanceAndRelease n window = (.error e, v')) : v' = v := by
  unfold advanceAndRelease at h
  split at h
  · cases h
    rfl
  · cases h

/-- what a release did -/
structure Released (v v' : RankView) (n window : ℕ) : Prop where
  origin : v.kv.slide.originPages ≤ originPagesAt (v.kv.slide.frontier + n) window v.localPool.pageSize
  pages : originPagesAt (v.kv.slide.frontier + n) window v.localPool.pageSize - v.kv.slide.originPages ≤
    v.kv.slide.resident.length
  kv : v'.kv = { v.kv with slide :=
    { resident := v.kv.slide.resident.drop
        (originPagesAt (v.kv.slide.frontier + n) window v.localPool.pageSize - v.kv.slide.originPages)
      originPages := originPagesAt (v.kv.slide.frontier + n) window v.localPool.pageSize
      frontier := v.kv.slide.frontier + n } }
  free : v'.localPool.free = (v.kv.slide.resident.take
    (originPagesAt (v.kv.slide.frontier + n) window v.localPool.pageSize - v.kv.slide.originPages)).reverse ++
      v.localPool.free
  localPool : v'.localPool.pageSize = v.localPool.pageSize ∧ v'.localPool.paddingPermit = v.localPool.paddingPermit
  globalPool : v'.globalPool = v.globalPool

theorem advanceAndRelease_ok (h : v.advanceAndRelease n window = (.ok (), v')) : Released v v' n window := by
  unfold advanceAndRelease at h
  split at h
  · cases h
  · rename_i plan hplan
    unfold planRelease at hplan
    dsimp only at hplan
    split_ifs at hplan with hpast hshort
    cases hplan
    cases h
    obtain ⟨hfree, hsize, hpad⟩ := KvPool.dropEach_eq (v.kv.slide.resident.take
      (originPagesAt (v.kv.slide.frontier + n) window v.localPool.pageSize - v.kv.slide.originPages)) v.localPool
    exact ⟨not_lt.1 hpast, hshort, rfl, hfree, ⟨hsize, hpad⟩, rfl⟩

/-- the frontier's pages being held, a release goes through -/
theorem advanceAndRelease_succeeds (hp : 0 < v.localPool.pageSize)
    (horigin : v.kv.slide.originPages ≤ originPagesAt (v.kv.slide.frontier + n) window v.localPool.pageSize)
    (hheld : divCeil (v.kv.slide.frontier + n) v.localPool.pageSize ≤
      v.kv.slide.originPages + v.kv.slide.resident.length) :
    ∃ v', v.advanceAndRelease n window = (.ok (), v') := by
  have hle := origin_le_pages window hp (v.kv.slide.frontier + n)
  unfold advanceAndRelease planRelease
  dsimp only
  rw [if_neg (by omega), if_pos (by omega)]
  exact ⟨_, rfl⟩

/-! ## Step plans -/

theorem planStep_ok {span : ResidentSpan} (hp : 0 < v.localPool.pageSize) (h : v.planStep cosMaxPos n = .ok span) :
    v.kv.span.seqLen = v.kv.slide.frontier ∧ v.kv.slide.frontier + n ≤ cosMaxPos ∧
      v.kv.slide.originPages + v.kv.slide.resident.length =
        divCeil (v.kv.slide.frontier + n) v.localPool.pageSize ∧
      v.kv.span.pages.length = divCeil (v.kv.slide.frontier + n) v.globalPool.pageSize := by
  unfold planStep at h
  simp only [bind, Except.bind, throw, throwThe, MonadExceptOf.throw] at h
  split_ifs at h with hfrontier hrope
  split at h
  · cases h
  · rename_i last hlast
    unfold KvState.descForLenIn at hlast
    dsimp only at hlast
    split_ifs at hlast with hspan
    obtain ⟨hstart, hrow⟩ := SlidingLocalKv.residentSpanIn_ok h
    refine ⟨(not_not.1 hfrontier).symm, not_lt.1 hrope, ?_, hspan⟩
    rw [hrow, divCeil_sub_mul hp (hstart.trans (Nat.le_add_right _ _))]

end RankView

end Pegainfer.Gemma4
