/-
What every run of Gemma4's KV keeps: the two-family account, and exact resumes from the conversation-tail cache.

- `kv_account`: in every state that requests sharing the two pools can reach, admissions and settled steps leave the
  account the frontier asks for, the window stays resident, and refusals change nothing.
- `resume_exact`: the cache stays within its cap, resolves to the largest point an entry admits, and a resume there
  passes every range check and is, position by position, what a prefill of the same tokens holds.
-/
import Mathlib.Tactic
import Pegainfer.Gemma4.Checkpoint

set_option linter.unusedSectionVars false

namespace Pegainfer.Gemma4.ServeState

open Pegainfer.Kvbm (divCeil divCeil_le_iff le_divCeil_mul divCeil_mono)
open Pegainfer.Lib

variable {T K : Type} [DecidableEq T] {g : Geometry} {keys : Contents T K} {s s' : ServeState T K} {i : ℕ}
  {r : Session T}

/-! ## The account -/

/-- a request's account with `k` tokens admitted ahead of its frontier -/
structure Levelled (g : Geometry) (kv : RankKv) (k : ℕ) : Prop where
  frontier : kv.span.seqLen = kv.slide.frontier
  slide : kv.slide.originPages + kv.slide.resident.length = divCeil (kv.slide.frontier + k) g.localPage
  span : kv.span.pages.length = divCeil (kv.slide.frontier + k) g.globalPage
  row : ∃ span, kv.slide.residentSpanIn g.localPage kv.slide.frontier (kv.slide.frontier + k) = .ok span
  /-- no key the next query reads has been released -/
  kept : kv.slide.originPages * g.localPage ≤ kv.slide.frontier - (g.window - 1)
  /-- and each of them has its page -/
  resident : ∀ p, kv.slide.frontier - (g.window - 1) ≤ p → p < kv.slide.frontier + k →
    kv.slide.originPages ≤ p / g.localPage ∧ p / g.localPage < kv.slide.originPages + kv.slide.resident.length

/-- the account after a settled step -/
structure SettledKv (g : Geometry) (kv : RankKv) : Prop where
  levelled : Levelled g kv 0
  origin : kv.slide.originPages = originPagesAt kv.slide.frontier g.window g.localPage
  short : kv.slide.resident.length ≤ divCeil g.window g.localPage + 1

theorem levelled_of_account (hl : 0 < g.localPage) {kv : RankKv} {k : ℕ}
    (h : Account g.window g.localPage g.globalPage kv k) : Levelled g kv k where
  frontier := h.frontier
  slide := h.slide
  span := h.span
  row := h.residentSpan_ok hl
  kept := by
    have := h.origin_mul_le
    omega
  resident _ hlow hhigh := h.window_resident hl hlow hhigh

theorem SessionOk.settledKv (hl : 0 < g.localPage) (h : SessionOk g r) (hphase : r.phase = .settled) :
    SettledKv g r.kv := by
  obtain ⟨k, hk, hacc⟩ := h.account
  have hk0 : k = 0 := hk (by rw [hphase]; decide)
  subst hk0
  exact ⟨levelled_of_account hl hacc, h.settled hphase, hacc.settled_le hl (h.settled hphase)⟩

theorem setRank_get (r' : Session T) (v : RankView) (hr : s.requests[i]? = some r) :
    (s.setRank i r' v).requests[i]? = some { r' with kv := v.kv } := by
  obtain ⟨hi, -⟩ := List.getElem?_eq_some_iff.1 hr
  exact List.getElem?_set_self hi

/-- an admission leaves `n` tokens admitted, and the same admission again draws nothing -/
theorem admit_levelled (hl : 0 < g.localPage) (h : Inv g keys s) (hr : s.requests[i]? = some r) {n : ℕ}
    (hok : s.admitTokens i r n = (.ok (), s')) :
    ∃ r', s'.requests[i]? = some r' ∧ r'.kv.slide.frontier = r.kv.slide.frontier ∧ Levelled g r'.kv n ∧
      s'.admitTokens i r' n = (.ok (), s') := by
  obtain ⟨hlp, hgp, -⟩ := h.pages
  unfold admitTokens at hok
  cases hv : (s.view r).admitTokens n with
  | mk result v =>
    rw [hv] at hok
    cases result with
    | error e => cases hok
    | ok u =>
      cases hok
      obtain ⟨hfrontier, ⟨localPages, globalPages, hkv, -, -⟩, -, -, hslide, hspan⟩ := RankView.admitTokens_ok hv
      have hagain := RankView.admitTokens_again hv
      obtain ⟨k, -, hacc⟩ := (h.sessions r (List.mem_of_getElem? hr)).account
      have hfr : v.kv.slide.frontier = r.kv.slide.frontier := by
        rw [hkv]
        rfl
      refine ⟨_, setRank_get _ _ hr, hfr, levelled_of_account hl ⟨?_, ?_, ?_, ?_⟩, ?_⟩
      · rw [hkv]
        exact hacc.frontier
      · rw [hkv]
        exact hacc.origin
      · dsimp only
        rw [hslide, hfr, ← hlp]
        rfl
      · dsimp only
        rw [hspan, hfr, ← hgp]
        rfl
      · have hview : (s.setRank i { r with phase := .admitted } v).view
            { r with phase := .admitted, kv := v.kv } = v := rfl
        unfold admitTokens
        rw [hview, hagain]
        simp only [setRank, List.set_set]

/-- a refused admission leaves the requests and the pages each pool has to give -/
theorem admit_refused (hr : s.requests[i]? = some r) {n : ℕ} {e : AccountError}
    (herr : s.admitTokens i r n = (.error e, s')) :
    s'.requests = s.requests ∧ s'.localPool.availablePages = s.localPool.availablePages ∧
      s'.globalPool.availablePages = s.globalPool.availablePages := by
  unfold admitTokens at herr
  cases hv : (s.view r).admitTokens n with
  | mk result v =>
    rw [hv] at herr
    cases result with
    | ok u => cases herr
    | error e' =>
      cases herr
      obtain ⟨hkv, hglobal, hfree, -, -⟩ := RankView.admitTokens_error hv
      refine ⟨?_, hfree.length_eq, ?_⟩
      · simp only [setRank, hkv]
        exact set_same hr
      · simp only [setRank, hglobal]
        rfl

theorem step_settled (hl : 0 < g.localPage) (h : Inv g keys s) (hr : s.requests[i]? = some r) {tokens : List T}
    (hok : s.step keys i r tokens = (.ok (), s')) :
    ∃ r', s'.requests[i]? = some r' ∧ r'.kv.slide.frontier = r.kv.slide.frontier + tokens.length ∧
      SettledKv g r'.kv := by
  have hmem := List.mem_of_getElem? hr
  cases hplan : (s.view r).planStep s.cosMaxPos tokens.length with
  | error e =>
    unfold step at hok
    rw [hplan] at hok
    cases hok
  | ok span =>
    obtain ⟨v, hv⟩ := step_release hl h hmem hplan
    have hnew := step_session hl h hmem hplan hv
    rw [step_ok hplan hv] at hok
    cases hok
    refine ⟨_, setRank_get (s := s.writeStep keys r tokens) _ _ hr, ?_, hnew.settledKv hl rfl⟩
    simp only [RankView.advanceGlobal, (RankView.advanceAndRelease_ok hv).kv]
    rfl

/-- a prefill in flight has its tokens behind the frontier and its window unreleased -/
theorem launch_levelled (hl : 0 < g.localPage) (hg : 0 < g.globalPage) (h : Inv g keys s)
    (hr : s.requests[i]? = some r) {tokens : List T} (hok : s.launch keys i r tokens = (.ok (), s')) :
    ∃ r', s'.requests[i]? = some r' ∧ r'.kv.slide.frontier = r.kv.slide.frontier + tokens.length ∧
      r'.phase = .launched ∧ Levelled g r'.kv 0 := by
  have hinv := launch_inv hl hg hr tokens h
  rw [hok] at hinv
  unfold launch at hok
  split at hok
  · cases hok
  · cases hok
    have hget := setRank_get (s := s.writeStep keys r tokens)
      { r with tokens := r.tokens ++ tokens, phase := .launched }
      (((s.view r).advanceLocal tokens.length).advanceGlobal tokens.length) hr
    obtain ⟨k, hk, hacc⟩ := (hinv.sessions _ (List.mem_of_getElem? hget)).account
    have hk0 : k = 0 := hk nofun
    subst hk0
    exact ⟨_, hget, rfl, rfl, levelled_of_account hl hacc⟩

theorem join_settled (hl : 0 < g.localPage) (h : Inv g keys s) (hr : s.requests[i]? = some r)
    (hphase : r.phase = .launched) :
    ∃ s' r', s.join i r = (.ok (), s') ∧ s'.requests[i]? = some r' ∧
      r'.kv.slide.frontier = r.kv.slide.frontier ∧ SettledKv g r'.kv := by
  obtain ⟨-, v, hv, hnew⟩ := join_inv hl hr hphase h
  refine ⟨s.setRank i { r with phase := .settled } v, _, ?_, setRank_get _ _ hr, ?_, hnew.settledKv hl rfl⟩
  · unfold join
    rw [hv]
  · rw [(RankView.advanceAndRelease_ok hv).kv]
    rfl

theorem restore_settled (hl : 0 < g.localPage) (h : Inv g keys s) {e : CachedKv T} {t : ℕ}
    (hok : s.restoreFromCheckpoint e t = (.ok (), s')) :
    ∃ r', s'.requests = s.requests ++ [r'] ∧ r'.kv.slide.frontier = t ∧ r'.tokens = e.tokenIds.take t ∧
      r'.phase = .settled ∧ SettledKv g r'.kv := by
  obtain ⟨hlp, hgp, hw⟩ := h.pages
  rcases restore_cases e t hok with ⟨-, hres⟩ | ⟨err, herr, -⟩
  · obtain ⟨-, hinside, -, ⟨localPages, globalPages, hreq, hllen, hglen, -, -, -, -⟩, -, -, -⟩ := hres
    rw [hw, hlp] at hreq hllen
    rw [hgp] at hglen
    exact ⟨_, hreq, rfl, rfl, rfl,
      (restored_session hl s.nextId hinside hllen hglen).settledKv hl rfl⟩
  · cases herr

/-- **The account over every run.** -/
theorem kv_account (keys : Contents T K) (window cosMaxPos cap localPage globalPage localPages globalPages : ℕ)
    (hl : 0 < localPage) (hg : 0 < globalPage) (localPool globalPool : KvPool)
    (hlocal : KvPool.new localPage localPages = some localPool)
    (hglobal : KvPool.new globalPage globalPages = some globalPool) (mem : PageMemory K) (ops : List (KvOp T))
    (s : ServeState T K) (hs : s = (load window cosMaxPos cap localPool globalPool mem).run keys ops) :
    (∀ i r, s.requests[i]? = some r →
      r.kv.span.seqLen = r.kv.slide.frontier ∧
      (r.phase = .settled → SettledKv ⟨window, cosMaxPos, localPage, globalPage, cap, window⟩ r.kv) ∧
      (∀ n s', s.admitTokens i r n = (.ok (), s') → ∃ r', s'.requests[i]? = some r' ∧
        r'.kv.slide.frontier = r.kv.slide.frontier ∧
        Levelled ⟨window, cosMaxPos, localPage, globalPage, cap, window⟩ r'.kv n ∧
        s'.admitTokens i r' n = (.ok (), s')) ∧
      (∀ n e s', s.admitTokens i r n = (.error e, s') → s'.requests = s.requests ∧
        s'.localPool.availablePages = s.localPool.availablePages ∧
        s'.globalPool.availablePages = s.globalPool.availablePages) ∧
      (∀ tokens s', s.step keys i r tokens = (.ok (), s') → ∃ r', s'.requests[i]? = some r' ∧
        r'.kv.slide.frontier = r.kv.slide.frontier + tokens.length ∧
        SettledKv ⟨window, cosMaxPos, localPage, globalPage, cap, window⟩ r'.kv) ∧
      (∀ tokens s', s.launch keys i r tokens = (.ok (), s') → ∃ r', s'.requests[i]? = some r' ∧
        r'.kv.slide.frontier = r.kv.slide.frontier + tokens.length ∧ r'.phase = .launched ∧
        Levelled ⟨window, cosMaxPos, localPage, globalPage, cap, window⟩ r'.kv 0) ∧
      (r.phase = .launched → ∃ s' r', s.join i r = (.ok (), s') ∧ s'.requests[i]? = some r' ∧
        r'.kv.slide.frontier = r.kv.slide.frontier ∧
        SettledKv ⟨window, cosMaxPos, localPage, globalPage, cap, window⟩ r'.kv) ∧
      (∀ count e v, (s.view r).advanceAndRelease count window = (.error e, v) → v = s.view r)) ∧
    ∀ e t s', s.restoreFromCheckpoint e t = (.ok (), s') → ∃ r', s'.requests = s.requests ++ [r'] ∧
      r'.kv.slide.frontier = t ∧ SettledKv ⟨window, cosMaxPos, localPage, globalPage, cap, window⟩ r'.kv := by
  have hinv : Inv ⟨window, cosMaxPos, localPage, globalPage, cap, window⟩ keys s := by
    rw [hs]
    exact run_inv hl hg ops (load_inv hlocal hglobal window cosMaxPos cap mem)
  refine ⟨fun i r hr => ?_, fun e t s' hok => ?_⟩
  · have hsession := hinv.sessions r (List.mem_of_getElem? hr)
    obtain ⟨k, -, hacc⟩ := hsession.account
    refine ⟨hacc.frontier, fun hphase => hsession.settledKv hl hphase, fun n s' hok => admit_levelled hl hinv hr hok,
      fun n e s' herr => admit_refused hr herr, fun tokens s' hok => step_settled hl hinv hr hok,
      fun tokens s' hok => launch_levelled hl hg hinv hr hok, fun hphase => join_settled hl hinv hr hphase,
      fun count e v herr => RankView.advanceAndRelease_error herr⟩
  · obtain ⟨r', hreq, hfrontier, -, -, hsettled⟩ := restore_settled hl hinv hok
    exact ⟨r', hreq, hfrontier, hsettled⟩

/-- a page, a prefill and a decode step of one request, at pages of four -/
theorem kv_account_decoded :
    ∃ r', (((load 5 64 1 ⟨4, ⟨8, [1, 2, 3, 4, 5, 6, 7]⟩, [0]⟩ ⟨4, ⟨8, [1, 2, 3, 4, 5, 6, 7]⟩, [0]⟩ (fun _ _ => 0)).run
      ⟨List.length, List.sum⟩ [.alloc, .admitTokens 0 9, .step 0 [1, 2, 3, 4, 5, 6, 7, 8, 9], .admitTokens 0 1, .step 0 [3]] :
      ServeState ℕ ℕ).requests)[0]? = some r' ∧ r'.kv.slide.frontier = 10 ∧
      SettledKv ⟨5, 64, 4, 4, 1, 5⟩ r'.kv := by
  have hrun := kv_account ⟨List.length, List.sum⟩ 5 64 1 4 4 8 8 (by decide) (by decide)
    ⟨4, ⟨8, [1, 2, 3, 4, 5, 6, 7]⟩, [0]⟩ ⟨4, ⟨8, [1, 2, 3, 4, 5, 6, 7]⟩, [0]⟩ rfl rfl (fun _ _ => 0)
    [.alloc, .admitTokens 0 9, .step 0 [1, 2, 3, 4, 5, 6, 7, 8, 9], .admitTokens 0 1, .step 0 [3]] _ rfl
  exact ⟨_, rfl, rfl, (hrun.1 0 _ rfl).2.1 rfl⟩

/-! ## Resumed prefills -/

/-- `t` is a point where `prompt` may resume from `e` -/
structure Admits (window : ℕ) (e : CachedKv T) (prompt : List T) (t : ℕ) : Prop where
  shared : t ≤ commonPrefix e.tokenIds prompt
  suffix : t < prompt.length
  worth : MIN_RESUME_TOKENS ≤ t
  windowed : e.localOrigin ≤ originPagesAt t window LOCAL_PAGE_SIZE

/-- an entry's resume point is the largest point it admits -/
theorem Admits.le_resume {window t : ℕ} {e : CachedKv T} {prompt : List T} (h : Admits window e prompt t) :
    ∃ t', e.resume window prompt = some t' ∧ t ≤ t' := by
  have hsuffix := h.suffix
  have hle : t ≤ min (commonPrefix e.tokenIds prompt) (prompt.length - 1) := le_min h.shared (by omega)
  refine ⟨_, resumePoint_iff.2 ⟨rfl, ?_, h.worth.trans hle, h.windowed.trans (originPagesAt_mono hle)⟩, hle⟩
  exact lt_of_le_of_lt (Nat.zero_le t) hsuffix

/-- a position two rows over the same tokens still keep reads the same in both -/
theorem keys_agree {page p : ℕ} {keyOf : List T → K} {mem mem' : PageMemory K} {row row' : PageRow T}
    (h : Keys page keyOf mem row) (h' : Keys page keyOf mem' row') (htokens : row.tokens = row'.tokens)
    (hlow : row.origin * page ≤ p) (hlow' : row'.origin * page ≤ p) (hp : p < row.tokens.length) :
    ∃ id id', row.pageOf page p = some id ∧ row'.pageOf page p = some id' ∧
      mem id (p % page) = mem' id' (p % page) := by
  obtain ⟨id, hid, hread⟩ := h p hlow hp
  obtain ⟨id', hid', hread'⟩ := h' p hlow' (htokens ▸ hp)
  refine ⟨id, id', hid, hid', ?_⟩
  calc mem id (p % page) = keyOf (row.tokens.take (p + 1)) := hread
    _ = keyOf (row'.tokens.take (p + 1)) := by rw [htokens]
    _ = mem' id' (p % page) := hread'.symm

/-- two requests, possibly of two engines, whose KV is the same up to the names of the pages -/
structure SameKv (g : Geometry) (s f : ServeState T K) (r r' : Session T) : Prop where
  frontier : r.kv.slide.frontier = r'.kv.slide.frontier
  seqLen : r.kv.span.seqLen = r'.kv.span.seqLen
  origin : r.kv.slide.originPages = r'.kv.slide.originPages
  resident : r.kv.slide.resident.length = r'.kv.slide.resident.length
  pages : r.kv.span.pages.length = r'.kv.span.pages.length
  /-- every position of a resident local page, so of the window -/
  slide : ∀ p, r.kv.slide.originPages * g.localPage ≤ p → p < r.kv.slide.frontier →
    ∃ id id', r.slideRow.pageOf g.localPage p = some id ∧ r'.slideRow.pageOf g.localPage p = some id' ∧
      s.localMem id (p % g.localPage) = f.localMem id' (p % g.localPage)
  span : ∀ p < r.kv.slide.frontier,
    ∃ id id', r.spanRow.pageOf g.globalPage p = some id ∧ r'.spanRow.pageOf g.globalPage p = some id' ∧
      s.globalMem id (p % g.globalPage) = f.globalMem id' (p % g.globalPage)

/-- **Settled requests over the same tokens hold the same**, whatever brought them there. -/
theorem settled_same (hl : 0 < g.localPage) {g' : Geometry} (hwindow : g'.window = g.window)
    (hlocal : g'.localPage = g.localPage) (hglobal : g'.globalPage = g.globalPage) {f : ServeState T K}
    {r' : Session T} (h : Inv g keys s) (h' : Inv g' keys f) (hr : r ∈ s.requests) (hr' : r' ∈ f.requests)
    (hphase : r.phase = .settled) (hphase' : r'.phase = .settled) (htokens : r.tokens = r'.tokens) : SameKv g s f r r' := by
  have hok := h.sessions r hr
  have hok' := h'.sessions r' hr'
  obtain ⟨⟨hseq, hslide, hspan, -, -, -⟩, horigin, -⟩ := hok.settledKv hl hphase
  obtain ⟨⟨hseq', hslide', hspan', -, -, -⟩, horigin', -⟩ := hok'.settledKv (hlocal.symm ▸ hl) hphase'
  have hslideKeys := h'.slide.keys r'.slideRow (List.mem_append_left _ (List.mem_map_of_mem hr'))
  have hspanKeys := h'.span.keys r'.spanRow (List.mem_append_left _ (List.mem_map_of_mem hr'))
  rw [hlocal] at hslide' hslideKeys
  rw [hglobal] at hspan' hspanKeys
  rw [hwindow, hlocal] at horigin'
  have hfrontier : r.kv.slide.frontier = r'.kv.slide.frontier := by
    rw [← hok.tokens, ← hok'.tokens, htokens]
  have horig : r.kv.slide.originPages = r'.kv.slide.originPages := by rw [horigin, horigin', hfrontier]
  have hlen : r.tokens.length = r.kv.slide.frontier := hok.tokens
  refine ⟨hfrontier, ?_, horig, ?_, ?_, fun p hlow hp => ?_, fun p hp => ?_⟩
  · rw [hseq, hseq', hfrontier]
  · rw [hfrontier, horig] at hslide
    exact Nat.add_left_cancel (hslide.trans hslide'.symm)
  · rw [hspan, hspan', hfrontier]
  · refine keys_agree (h.slide.keys r.slideRow ?_) hslideKeys htokens hlow ?_ (hlen.symm ▸ hp)
    · exact List.mem_append_left _ (List.mem_map_of_mem hr)
    · change r'.kv.slide.originPages * g.localPage ≤ p
      rwa [← horig]
  · refine keys_agree (h.span.keys r.spanRow ?_) hspanKeys htokens ?_ ?_ (hlen.symm ▸ hp)
    · exact List.mem_append_left _ (List.mem_map_of_mem hr)
    · exact (Nat.zero_mul _).trans_le (Nat.zero_le p)
    · exact (Nat.zero_mul _).trans_le (Nat.zero_le p)

/-- a cached image has the pages of every point it admits -/
theorem restore_in_range (h : Inv g keys s) {e : CachedKv T} (he : EntryOk g e) {t : ℕ} (hpos : 0 < t)
    (hinside : t ≤ e.tokenIds.length) (horigin : e.localOrigin ≤ originPagesAt t g.window g.localPage)
    (hl : 0 < g.localPage) (hg : 0 < g.globalPage) {err : RestoreError}
    (herr : s.restoreFromCheckpoint e t = (.error err, s')) :
    err.IsRange = false := by
  obtain ⟨hlp, hgp, hw⟩ := h.pages
  have hlocal := divCeil_mono hl hinside
  have hglobal := divCeil_mono hg hinside
  have hle := origin_le_pages g.window hl t
  have hslide := he.slide
  have hspan := he.span
  unfold restoreFromCheckpoint at herr
  dsimp only at herr
  rw [hlp, hgp, hw, if_neg (by omega), if_neg (by omega), if_neg (by omega)] at herr
  rcases hres : s.globalPool.tryReserve (divCeil t g.globalPage) with _ | ⟨globalPages, globalPool⟩
  · rw [hres] at herr
    cases herr
    rfl
  · obtain ⟨hglen, -, -, -⟩ := KvPool.tryReserve_ok hres
    rw [hres] at herr
    dsimp only at herr
    rw [if_pos (by rw [List.length_take, hglen, hspan, min_eq_left hglobal])] at herr
    split_ifs at herr
    · cases herr
    · cases herr
      rfl

/-- what a prompt resumes from is in the cache it leaves, and admits the point -/
theorem resolved_admits {window : ℕ} {c c' : PrefixCache T} (hw : c.window = window) {prompt : List T} {e : CachedKv T}
    {t : ℕ} (h : c.resolve prompt = (some (e, t), c')) :
    e ∈ c'.entries ∧ Admits window e prompt t ∧ ∀ e' ∈ c.entries, ∀ t', Admits window e' prompt t' → t' ≤ t := by
  subst hw
  obtain ⟨hshared, hsuffix, hmin, horigin, hmax⟩ := PrefixCache.resolve_best h
  obtain ⟨index, e₀, he₀, -, -, rfl, -⟩ := PrefixCache.resolve_some h
  refine ⟨?_, ⟨hshared, hsuffix, hmin, horigin⟩, fun e' he' t' hadmits => ?_⟩
  · obtain ⟨hi, -⟩ := List.getElem?_eq_some_iff.1 he₀
    exact List.mem_of_getElem? (List.getElem?_set_self hi)
  · obtain ⟨t'', hresume, hle⟩ := hadmits.le_resume
    exact hle.trans (hmax e' he' t'' hresume)

/-- **Resumes are exact.** The fresh prefill is any request, in any run over pools of its own, that is settled over the
same tokens. -/
theorem resume_exact (keys : Contents T K) (window cosMaxPos cap localPages globalPages : ℕ) (hcap : 0 < cap)
    (localPool globalPool : KvPool) (hlocal : KvPool.new LOCAL_PAGE_SIZE localPages = some localPool)
    (hglobal : KvPool.new GLOBAL_PAGE_SIZE globalPages = some globalPool) (mem : PageMemory K) (ops : List (KvOp T))
    (s : ServeState T K) (hs : s = (load window cosMaxPos cap localPool globalPool mem).run keys ops) :
    (∀ f o, o ≤ originPagesAt f window LOCAL_PAGE_SIZE ↔ frontierReaching o window LOCAL_PAGE_SIZE ≤ f) ∧
    s.cache.entries.length ≤ cap ∧
    ∀ prompt e t c', s.cache.resolve prompt = (some (e, t), c') →
      t ≤ commonPrefix e.tokenIds prompt ∧ t < prompt.length ∧
      (∀ e' ∈ s.cache.entries, ∀ t', Admits window e' prompt t' → t' ≤ t) ∧
      (∀ err s', { s with cache := c' }.restoreFromCheckpoint e t = (.error err, s') → err.IsRange = false) ∧
      ∀ s', { s with cache := c' }.restoreFromCheckpoint e t = (.ok (), s') →
        ∃ r, s'.requests = s.requests ++ [r] ∧ r.tokens = prompt.take t ∧ r.kv.slide.frontier = t ∧
          SettledKv ⟨window, cosMaxPos, LOCAL_PAGE_SIZE, GLOBAL_PAGE_SIZE, cap, window⟩ r.kv ∧
          ∀ freshLocal freshGlobal freshCap freshMax localPool' globalPool',
            KvPool.new LOCAL_PAGE_SIZE freshLocal = some localPool' →
            KvPool.new GLOBAL_PAGE_SIZE freshGlobal = some globalPool' → ∀ mem' ops' f,
            f = (load window freshMax freshCap localPool' globalPool' mem').run keys ops' →
            ∀ r' ∈ f.requests, r'.phase = .settled → r'.tokens = prompt.take t →
              SameKv ⟨window, cosMaxPos, LOCAL_PAGE_SIZE, GLOBAL_PAGE_SIZE, cap, window⟩ s' f r r' := by
  have hl : 0 < LOCAL_PAGE_SIZE := by decide
  have hg : 0 < GLOBAL_PAGE_SIZE := by decide
  have hinv : Inv ⟨window, cosMaxPos, LOCAL_PAGE_SIZE, GLOBAL_PAGE_SIZE, cap, window⟩ keys s := by
    rw [hs]
    exact run_inv hl hg ops (load_inv hlocal hglobal window cosMaxPos cap mem)
  refine ⟨origin_reached hl, hinv.capped hcap, fun prompt e t c' hres => ?_⟩
  have hwin : s.cache.window = window := congrArg Geometry.cacheWindow hinv.geometry
  obtain ⟨hmem, hadmits, hmax⟩ := resolved_admits hwin hres
  have hinv' := resolve_inv prompt hinv
  rw [hres] at hinv'
  have hpos : 0 < t := lt_of_lt_of_le (by decide) hadmits.worth
  have hinside := hadmits.shared.trans (commonPrefix_le_left e.tokenIds prompt)
  have htake : e.tokenIds.take t = prompt.take t := by
    have hprefix := congrArg (List.take t) (commonPrefix_take e.tokenIds prompt)
    rwa [List.take_take, List.take_take, min_eq_left hadmits.shared] at hprefix
  refine ⟨hadmits.shared, hadmits.suffix, hmax, fun err s' herr => ?_, fun s' hok => ?_⟩
  · exact restore_in_range hinv' (hinv'.entries e hmem) hpos hinside hadmits.windowed hl hg herr
  · obtain ⟨r, hreq, hfrontier, htokens, hphase, hsettled⟩ := restore_settled hl hinv' hok
    have hrestored := restore_inv hl hg hmem t hinv'
    rw [hok] at hrestored
    refine ⟨r, hreq, htokens.trans htake, hfrontier, hsettled, ?_⟩
    intro freshLocal freshGlobal freshCap freshMax localPool' globalPool' hlocal' hglobal' mem' ops' f hf r' hr' hphase'
      htokens'
    have hfresh : Inv ⟨window, freshMax, LOCAL_PAGE_SIZE, GLOBAL_PAGE_SIZE, freshCap, window⟩ keys f := by
      rw [hf]
      exact run_inv hl hg ops' (load_inv hlocal' hglobal' window freshMax freshCap mem')
    have hr : r ∈ s'.requests := by
      rw [hreq]
      exact List.mem_append_right _ (List.mem_singleton_self r)
    exact settled_same hl (by rfl) (by rfl) (by rfl) hrestored hfresh hr hr' hphase hphase'
      ((htokens.trans htake).trans htokens'.symm)

set_option maxRecDepth 20000 in
/-- a turn of 66 tokens captured, and the next turn resumed from its end -/
theorem resume_exact_next_turn :
    ∃ (s s' : ServeState ℕ ℕ) (e : CachedKv ℕ) (c' : PrefixCache ℕ) (r r' : Session ℕ),
      s = (load 16 4096 1 ⟨64, ⟨140, (List.range 140).drop 1⟩, [0]⟩ ⟨64, ⟨140, (List.range 140).drop 1⟩, [0]⟩
        (fun _ _ => 0)).run ⟨List.length, List.sum⟩
          [.alloc, .admitTokens 0 66, .step 0 (List.range 66), .capture 0 none] ∧
      s.cache.resolve (List.range 67) = (some (e, 66), c') ∧
      { s with cache := c' }.restoreFromCheckpoint e 66 = (.ok (), s') ∧ r ∈ s'.requests ∧ r' ∈ s.requests ∧
      SameKv ⟨16, 4096, LOCAL_PAGE_SIZE, GLOBAL_PAGE_SIZE, 1, 16⟩ s' s r r' := by
  have hrun := resume_exact ⟨List.length, List.sum⟩ 16 4096 1 140 140 (by decide)
    ⟨64, ⟨140, (List.range 140).drop 1⟩, [0]⟩ ⟨64, ⟨140, (List.range 140).drop 1⟩, [0]⟩ rfl rfl (fun _ _ => 0)
    [.alloc, .admitTokens 0 66, .step 0 (List.range 66), .capture 0 none] _ rfl
  obtain ⟨-, -, -, -, hresumed⟩ := hrun.2.2 (List.range 67) _ 66 _ rfl
  obtain ⟨r, hreq, -, -, -, hfresh⟩ := hresumed _ rfl
  refine ⟨_, _, _, _, r, _, rfl, rfl, rfl, ?_, List.mem_singleton_self _,
    hfresh 140 140 1 4096 _ _ rfl rfl (fun _ _ => 0) _ _ rfl _ (List.mem_singleton_self _) rfl rfl⟩
  rw [hreq]
  exact List.mem_append_right _ (List.mem_singleton_self r)

end Pegainfer.Gemma4.ServeState
