/-
A request's KV across Gemma4's two families, as one rank holds it.

The sliding family releases pages at its front as the window moves; the global family only grows.
- `SlidingLocalKv`, `KvState`, `RankKv`: the two families' accounts and the request's id.
- `SlidingLocalKv.advanceAndRelease`: the frontier moves and the pages that leave the window go.
- `admitTokens`: the pages a step needs, both families or neither.
- `Grew`: what any sequence of these can have done to a request; a page held before and still in the window stays where
  it was.
-/
import Mathlib.Tactic
import Pegainfer.Kvbm.Sequence

namespace Pegainfer.Gemma4

open Pegainfer.Kvbm (divCeil)

def LOCAL_PAGE_SIZE : ℕ := 64

def GLOBAL_PAGE_SIZE : ℕ := 64

/-- what a request's accounts, or a plan over them, can be refused for -/
inductive KvError
  | originPast (origin frontier allowed : ℕ)
  | releaseShort (pages resident frontier : ℕ)
  | windowPastFrontier
  | startBeforeWindow
  | residentRow (held tokens : ℕ)
  | globalRow (held tokens needed : ℕ)
  | frontiersDiverged (slide span : ℕ)
  | ropeRows (kvLen rows : ℕ)
  | accountPast (accounted kvLen want : ℕ)
  | refused (newTokens kvLen localNeed globalNeed : ℕ)
  | i32Range
  | noPages (request : ℕ)
  | zeroChunk
  | zeroCap
  | chunkBound (chunks cap kvLen chunkSize : ℕ)
  | batchBound (rows padded : ℕ)
deriving DecidableEq, Repr

/-! ## The accounts -/

/-- the first resident page of the sliding family at `frontier` -/
def originPagesAt (frontier window pageSize : ℕ) : ℕ := (frontier - window) / pageSize

/-- the sliding family: the pages still resident, in order, and how many have been released before them -/
structure SlidingLocalKv where
  resident : List ℕ
  originPages : ℕ
  frontier : ℕ
deriving DecidableEq, Repr

/-- the global family: one permit that only grows -/
structure KvState where
  pages : List ℕ
  seqLen : ℕ
deriving DecidableEq, Repr

structure RankKv where
  slide : SlidingLocalKv
  span : KvState
  id : ℕ
deriving DecidableEq, Repr

structure ResidentSpan where
  start : ℕ
  pages : ℕ
  lastPageLen : ℕ
deriving DecidableEq, Repr

def lastPageLenFor (tokenCount pageSize : ℕ) : ℕ :=
  if tokenCount = 0 then 0 else if tokenCount % pageSize = 0 then pageSize else tokenCount % pageSize

namespace SlidingLocalKv

/-- the step writing `[start, kvLen)`, in the coordinates of the resident row -/
def residentSpan (kv : SlidingLocalKv) (start kvLen : ℕ) : Except KvError ResidentSpan :=
  let originTokens := kv.originPages * LOCAL_PAGE_SIZE
  if kvLen < originTokens then .error .windowPastFrontier
  else if start < originTokens then .error .startBeforeWindow
  else
    let relKvLen := kvLen - originTokens
    let pages := divCeil relKvLen LOCAL_PAGE_SIZE
    if kv.resident.length = pages then
      .ok { start := start - originTokens, pages := pages,
            lastPageLen := if relKvLen % LOCAL_PAGE_SIZE = 0 then LOCAL_PAGE_SIZE else relKvLen % LOCAL_PAGE_SIZE }
    else .error (.residentRow kv.resident.length relKvLen)

/-- the frontier alone: the overlapped prefill defers its release -/
def advance (kv : SlidingLocalKv) (count : ℕ) : SlidingLocalKv := { kv with frontier := kv.frontier + count }

/-- the frontier moves and what that makes releasable is dropped; a refused move changes nothing -/
def advanceAndRelease (kv : SlidingLocalKv) (count window : ℕ) : Except KvError SlidingLocalKv :=
  let frontier := kv.frontier + count
  let origin := originPagesAt frontier window LOCAL_PAGE_SIZE
  if origin < kv.originPages then .error (.originPast kv.originPages frontier origin)
  else
    let release := origin - kv.originPages
    if release ≤ kv.resident.length then
      .ok { resident := kv.resident.drop release, originPages := origin, frontier := frontier }
    else .error (.releaseShort release kv.resident.length frontier)

end SlidingLocalKv

/-- the last page's length, given that exactly the pages `seqLen` tokens need are held -/
def KvState.descForLen (kv : KvState) (seqLen : ℕ) : Except KvError ℕ :=
  let needed := divCeil seqLen GLOBAL_PAGE_SIZE
  if kv.pages.length = needed then .ok (lastPageLenFor seqLen GLOBAL_PAGE_SIZE)
  else .error (.globalRow kv.pages.length seqLen needed)

namespace RankKv

/-- append-then-attend: both frontiers move past the tokens a step wrote -/
def advanceStep (kv : RankKv) (count window : ℕ) : Except KvError RankKv :=
  match kv.slide.advanceAndRelease count window with
  | .ok slide => .ok { kv with slide := slide, span := { kv.span with seqLen := kv.span.seqLen + count } }
  | .error e => .error e

/-- the pages one family still has to reserve; an account past its frontier is an error -/
def pagesToReserve (kvLen accounted pageSize : ℕ) : Except KvError ℕ :=
  let want := divCeil kvLen pageSize
  if want < accounted then .error (.accountPast accounted kvLen want) else .ok (want - accounted)

/-- `admit_tokens`, the pools' answers given: both families' pages are taken or neither's -/
def admitTokens (kv : RankKv) (newTokens : ℕ) (localGrant globalGrant : List ℕ) : Except KvError RankKv := do
  let kvLen := kv.slide.frontier + newTokens
  if kv.slide.frontier ≠ kv.span.seqLen then throw (.frontiersDiverged kv.slide.frontier kv.span.seqLen)
  let localNeed ← pagesToReserve kvLen (kv.slide.originPages + kv.slide.resident.length) LOCAL_PAGE_SIZE
  let globalNeed ← pagesToReserve kvLen kv.span.pages.length GLOBAL_PAGE_SIZE
  if localGrant.length = localNeed ∧ globalGrant.length = globalNeed then
    pure { kv with slide := { kv.slide with resident := kv.slide.resident ++ localGrant },
                   span := { kv.span with pages := kv.span.pages ++ globalGrant } }
  else throw (.refused newTokens kvLen localNeed globalNeed)

end RankKv

theorem SlidingLocalKv.residentSpan_ok {kv : SlidingLocalKv} {start kvLen : ℕ} {span : ResidentSpan}
    (h : kv.residentSpan start kvLen = .ok span) :
    kv.originPages * LOCAL_PAGE_SIZE ≤ start ∧
      kv.resident.length = divCeil (kvLen - kv.originPages * LOCAL_PAGE_SIZE) LOCAL_PAGE_SIZE ∧
      span = ⟨start - kv.originPages * LOCAL_PAGE_SIZE, kv.resident.length,
        if (kvLen - kv.originPages * LOCAL_PAGE_SIZE) % LOCAL_PAGE_SIZE = 0 then LOCAL_PAGE_SIZE
        else (kvLen - kv.originPages * LOCAL_PAGE_SIZE) % LOCAL_PAGE_SIZE⟩ := by
  rw [SlidingLocalKv.residentSpan] at h
  by_cases h1 : kvLen < kv.originPages * LOCAL_PAGE_SIZE
  · simp [h1] at h
  by_cases h2 : start < kv.originPages * LOCAL_PAGE_SIZE
  · simp [h1, h2] at h
  by_cases h3 : kv.resident.length = divCeil (kvLen - kv.originPages * LOCAL_PAGE_SIZE) LOCAL_PAGE_SIZE
  · simp only [if_neg h1, if_neg h2, if_pos h3] at h
    exact ⟨not_lt.1 h2, h3, by rw [h3]; exact (Except.ok.inj h).symm⟩
  · simp [h1, h2, h3] at h

theorem KvState.descForLen_ok {kv : KvState} {seqLen last : ℕ} (h : kv.descForLen seqLen = .ok last) :
    kv.pages.length = divCeil seqLen GLOBAL_PAGE_SIZE ∧ last = lastPageLenFor seqLen GLOBAL_PAGE_SIZE := by
  simp only [KvState.descForLen] at h
  split at h
  · rename_i hl
    exact ⟨hl, (Except.ok.inj h).symm⟩
  · cases h

/-! ## What can have happened to a request -/

/-- `new` is `old` later: pages are appended, and leave only at the sliding family's front -/
structure Grew (old new : RankKv) : Prop where
  id : new.id = old.id
  frontier : old.slide.frontier ≤ new.slide.frontier
  origin : old.slide.originPages ≤ new.slide.originPages
  resident : old.slide.resident.drop (new.slide.originPages - old.slide.originPages) <+: new.slide.resident
  span : old.span.pages <+: new.span.pages

namespace Grew

variable {a b c : RankKv}

theorem refl (a : RankKv) : Grew a a :=
  ⟨rfl, le_rfl, le_rfl, by simp, List.prefix_rfl⟩

theorem trans (h : Grew a b) (h' : Grew b c) : Grew a c where
  id := h'.id.trans h.id
  frontier := h.frontier.trans h'.frontier
  origin := h.origin.trans h'.origin
  resident := by
    have hdrop := h.resident.drop (c.slide.originPages - b.slide.originPages)
    rw [List.drop_drop] at hdrop
    have hadd : c.slide.originPages - a.slide.originPages =
        b.slide.originPages - a.slide.originPages + (c.slide.originPages - b.slide.originPages) := by
      have := h.origin
      have := h'.origin
      omega
    rw [hadd]
    exact hdrop.trans h'.resident
  span := h.span.trans h'.span

/-- the window not having moved, equally many resident pages are the same pages -/
theorem resident_eq (h : Grew a b) (ho : b.slide.originPages = a.slide.originPages)
    (hl : b.slide.resident.length = a.slide.resident.length) : b.slide.resident = a.slide.resident := by
  have hp := h.resident
  rw [ho, Nat.sub_self, List.drop_zero] at hp
  exact (hp.eq_of_length hl.symm).symm

theorem pages_eq (h : Grew a b) (hl : b.span.pages.length = a.span.pages.length) : b.span.pages = a.span.pages :=
  (h.span.eq_of_length hl.symm).symm

end Grew

theorem RankKv.advanceStep_grew {kv kv' : RankKv} {count window : ℕ} (h : kv.advanceStep count window = .ok kv') :
    Grew kv kv' := by
  simp only [RankKv.advanceStep, SlidingLocalKv.advanceAndRelease] at h
  split at h
  · rename_i slide hs
    split_ifs at hs with h1 h2
    cases hs
    cases h
    exact ⟨rfl, Nat.le_add_right _ _, not_lt.1 h1, by simp, by simp⟩
  · cases h

theorem RankKv.advanceStep_frontier {kv kv' : RankKv} {count window : ℕ} (h : kv.advanceStep count window = .ok kv') :
    kv'.slide.frontier = kv.slide.frontier + count := by
  simp only [RankKv.advanceStep, SlidingLocalKv.advanceAndRelease] at h
  split at h
  · rename_i slide hs
    split_ifs at hs with h1 h2
    cases hs
    cases h
    rfl
  · cases h

theorem RankKv.admitTokens_ok {kv kv' : RankKv} {n : ℕ} {l g : List ℕ} (h : kv.admitTokens n l g = .ok kv') :
    kv' = { kv with slide := { kv.slide with resident := kv.slide.resident ++ l },
                    span := { kv.span with pages := kv.span.pages ++ g } } := by
  simp only [RankKv.admitTokens, bind, Except.bind, pure, Except.pure, throw, throwThe, MonadExceptOf.throw] at h
  split at h
  · cases h
  · rename_i hf
    split at h
    · cases h
    · split at h
      · cases h
      · split at h
        · exact (Except.ok.inj h).symm
        · cases h

theorem RankKv.admitTokens_grew {kv kv' : RankKv} {n : ℕ} {l g : List ℕ} (h : kv.admitTokens n l g = .ok kv') :
    Grew kv kv' := by
  rw [RankKv.admitTokens_ok h]
  exact ⟨rfl, le_rfl, le_rfl, by simp, by simp⟩

theorem RankKv.admitTokens_frontier {kv kv' : RankKv} {n : ℕ} {l g : List ℕ} (h : kv.admitTokens n l g = .ok kv') :
    kv'.slide.frontier = kv.slide.frontier := by
  rw [RankKv.admitTokens_ok h]

end Pegainfer.Gemma4
