/-
Gemma4's steady decode: when a step advances the batch of the last one by a token, its plan is the last one's tables,
already incremented on the device.

The step arena remembers a fingerprint of the batch it last planned. Any operation may come in between: admissions,
prefills of other requests, mixed steps, joins and retirements, the start-up capture sweep, and steps that fail at any
point, leaving the tables in any state.
- `SteadyDecode.advancesTo`: the fingerprint test.
- `planDecodeBatch`: the fast path, or the full plan and its uploads.
- `Inv`: the tables belong to the fingerprint's batch, one token on, unless no request of it has moved.
- `steady_decode_exact`: in every run, the fast path's tables are the full plan's for every row of the batch, and its
  padding rows stay on the padding pages.
-/
import Mathlib.Tactic
import Pegainfer.Gemma4.DecodePlan
import Pegainfer.Lib.Machine

namespace Pegainfer.Gemma4

open Pegainfer.Kvbm (divCeil)
open Pegainfer.Lib

/-! ## The fingerprint -/

structure SteadyRow where
  kv : ℕ
  kvLen : ℕ
  localOrigin : ℕ
  localPages : ℕ
  globalPages : ℕ
  globalChunks : ℕ
deriving DecidableEq, Repr

structure SteadyDecode where
  padded : ℕ
  rows : List SteadyRow
deriving DecidableEq, Repr

def SteadyRow.advancesTo (current next : SteadyRow) : Bool :=
  decide (next.kv = current.kv ∧ next.kvLen = current.kvLen + 1 ∧ next.localOrigin = current.localOrigin ∧
    next.localPages = current.localPages ∧ next.globalPages = current.globalPages ∧
    next.globalChunks = current.globalChunks)

def SteadyDecode.advancesTo (current next : SteadyDecode) : Bool :=
  decide (current.padded = next.padded) && decide (current.rows.length = next.rows.length) &&
    (current.rows.zip next.rows).all fun p => p.1.advancesTo p.2

def steadyRow (kv : RankKv) : Option SteadyRow :=
  let position := kv.slide.frontier
  let kvLen := position + 1
  match kv.slide.residentSpan position kvLen, kv.span.descForLen kvLen with
  | .ok span, .ok _ =>
    some { kv := kv.id, kvLen := kvLen, localOrigin := kv.slide.originPages, localPages := span.pages,
           globalPages := kv.span.pages.length, globalChunks := divCeil kvLen GLOBAL_SPLIT_CHUNK_TOKENS }
  | _, _ => none

def decodeFingerprint (kvs : List RankKv) (padded : ℕ) : Option SteadyDecode :=
  (kvs.mapM steadyRow).map fun rows => ⟨padded, rows⟩

/-! ## The arena -/

structure StepArena where
  tables : Tables
  steady : Option SteadyDecode
  minBucket : ℕ
  maxRows : ℕ

/-- where a step fails, if it does -/
inductive Fault
  | none
  /-- an entry check: the stream, the token ids, the arena's row ceiling -/
  | entry
  /-- an upload of the plan -/
  | upload
  /-- the upload of the token ids -/
  | ids
  /-- the GPU body, or its graph's launch -/
  | body
deriving DecidableEq, Repr

namespace StepArena

/-- the power-of-two bucket a batch computes at -/
def bucket (arena : StepArena) (batch : ℕ) : ℕ := max (2 ^ Nat.clog 2 batch) arena.minBucket

/-- the arena's last fingerprint advances to the batch's -/
def regular (arena : StepArena) (kvs : List RankKv) (padded : ℕ) : Bool :=
  match arena.steady, decodeFingerprint kvs padded with
  | some current, some next => current.advancesTo next
  | _, _ => false

/-- `garbage` is what the tables hold after a plan that failed part-way -/
def planDecodeBatch (serve : GemmaServe) (arena : StepArena) (kvs : List RankKv) (padded : ℕ) (fault : Fault)
    (garbage : Tables) : StepArena × Bool :=
  let fresh := decodeFingerprint kvs padded
  if arena.regular kvs padded then
    match kvs.forM fun kv => serve.checkStepBounds kv (kv.slide.frontier + 1) with
    | .ok _ => ({ arena with steady := fresh }, true)
    | .error _ => (arena, false)
  else
    match fullPlan serve kvs padded with
    | .ok t =>
      if fault = .upload then ({ arena with steady := fresh, tables := garbage }, false)
      else ({ arena with steady := fresh, tables := arena.tables.upload t }, true)
    | .error _ => ({ arena with steady := fresh, tables := garbage }, false)

/-- the checks, the plan and the id upload; the padded size when all of it succeeded -/
def prepareDecodeStep (serve : GemmaServe) (arena : StepArena) (kvs : List RankKv) (fault : Fault) (garbage : Tables) :
    StepArena × Option ℕ :=
  if kvs = [] ∨ arena.maxRows < kvs.length ∨ fault = .entry then (arena, none)
  else
    let padded := arena.bucket kvs.length
    match arena.planDecodeBatch serve kvs padded fault garbage with
    | (arena, true) => if fault = .ids then (arena, none) else (arena, some padded)
    | (arena, false) => (arena, none)

/-- the GPU body ends by advancing the tables it read -/
def decodeGpuBody (serve : GemmaServe) (arena : StepArena) (rows : ℕ) : StepArena :=
  { arena with tables := arena.tables.advanceDecodeMetadata rows serve.globalSplitFactor }

end StepArena

/-! ## The engine around it -/

/-- a request's KV, and whether it has joined the decode batch -/
structure Req where
  kv : RankKv
  active : Bool
deriving DecidableEq, Repr

structure Engine where
  reqs : ℕ → Option Req
  nextId : ℕ
  arena : StepArena

inductive Op
  /-- a new request: empty, or restored from a checkpoint -/
  | spawn (slide : SlidingLocalKv) (span : KvState)
  /-- pages for a request's next tokens, as the pools grant them -/
  | admitTokens (id newTokens : ℕ) (localGrant globalGrant : List ℕ)
  /-- a prompt pass of a request outside the batch -/
  | prefill (id count : ℕ)
  /-- a prompt pass on the lane, which leaves its window release for later -/
  | launch (id count : ℕ)
  | releaseWindow (id : ℕ)
  /-- the request joins the decode batch -/
  | join (id : ℕ)
  | retire (id : ℕ)
  | decode (ids : List ℕ) (fault : Fault) (garbage : Tables)
  | mixed (prefills : List (ℕ × ℕ)) (ids : List ℕ) (fault : Fault) (garbage : Tables)
  /-- the warm pass of the capture sweep: an eager body over one dummy request, at a given bucket -/
  | warm (id bucket : ℕ) (fault : Fault) (garbage : Tables)
  /-- the end of the capture sweep -/
  | sweepEnd

/-- a call the engine's own types exclude: no such request, one borrowed twice, one in the wrong set -/
inductive Misuse
  | notHeld
deriving DecidableEq, Repr

namespace Engine

def new (maxRows : ℕ) (tables : Tables) : Engine := ⟨fun _ => none, 0, ⟨tables, none, 1, maxRows⟩⟩

/-- the KVs of the active requests `ids`, each borrowed once -/
def batch (st : Engine) (ids : List ℕ) : Option (List RankKv) :=
  if ids.Nodup then
    ids.mapM fun id =>
      match st.reqs id with
      | some r => if r.active then some r.kv else none
      | none => none
  else none

/-- each request's frontier moves past what the step wrote; the first refusal ends the loop -/
def advanceRows (window : ℕ) (reqs : ℕ → Option Req) : List (ℕ × ℕ) → ℕ → Option Req
  | [] => reqs
  | (id, count) :: rest =>
    match reqs id with
    | some r =>
      match r.kv.advanceStep count window with
      | .ok kv => advanceRows window (Function.update reqs id (some { r with kv := kv })) rest
      | .error _ => reqs
    | none => advanceRows window reqs rest

def decodeBatchStep (serve : GemmaServe) (st : Engine) (ids : List ℕ) (kvs : List RankKv) (fault : Fault)
    (garbage : Tables) : Engine :=
  match st.arena.prepareDecodeStep serve kvs fault garbage with
  | (arena, some padded) =>
    if fault = .body then { st with arena := { arena with tables := garbage } }
    else
      { st with arena := arena.decodeGpuBody serve padded
                reqs := advanceRows serve.slidingWindow st.reqs (ids.map fun id => (id, 1)) }
  | (arena, none) => { st with arena := arena }

/-- the prompt rows of a mixed step are checked like any other -/
def prefillRow (serve : GemmaServe) (kv : RankKv) (count : ℕ) : Except KvError Unit := do
  let kvLen := kv.slide.frontier + count
  serve.checkStepBounds kv kvLen
  let _ ← kv.slide.residentSpan kv.slide.frontier kvLen
  let _ ← kv.span.descForLen kvLen

/-- a mixed step drops the fingerprint first, and overwrites the split-KV tables of the global family -/
def mixedStep (serve : GemmaServe) (st : Engine) (prefills : List (RankKv × ℕ)) (ids : List ℕ) (kvs : List RankKv)
    (fault : Fault) (garbage : Tables) : Engine :=
  if prefills = [] ∨ (prefills.map Prod.snd).sum = 0 ∨ kvs = [] ∨ st.arena.maxRows < kvs.length + prefills.length ∨
      fault = .entry then st
  else
    let arena := { st.arena with steady := none }
    let planned : Except KvError SplitTables := do
      prefills.forM fun p => prefillRow serve p.1 p.2
      let rows ← kvs.mapM (decodeRow serve)
      planSplitKv serve rows
    match planned with
    | .ok split =>
      if fault = .none then
        { st with arena := { arena with tables := { arena.tables with pseudo := arena.tables.pseudo.upload split } }
                  reqs := advanceRows serve.slidingWindow st.reqs
                    (prefills.map (fun p => (p.1.id, p.2)) ++ ids.map fun id => (id, 1)) }
      else { st with arena := { arena with tables := garbage } }
    | .error _ => { st with arena := { arena with tables := garbage } }

/-- the requests outside the batch that a mixed step prefills -/
def newcomers (st : Engine) (prefills : List (ℕ × ℕ)) : Option (List (RankKv × ℕ)) :=
  if (prefills.map Prod.fst).Nodup then
    prefills.mapM fun p =>
      match st.reqs p.1 with
      | some r => if r.active then none else some (r.kv, p.2)
      | none => none
  else none

/-- a change to one request outside the batch; a refused one changes nothing -/
def outside (st : Engine) (id : ℕ) (f : RankKv → Except KvError RankKv) : Except Misuse Engine :=
  match st.reqs id with
  | some ⟨kv, false⟩ =>
    match f kv with
    | .ok kv' => .ok { st with reqs := Function.update st.reqs id (some ⟨kv', false⟩) }
    | .error _ => .ok st
  | _ => .error .notHeld

end Engine

open Engine in
/-- one operation -/
def step (serve : GemmaServe) (st : Engine) : Op → Except Misuse Engine
  | .spawn slide span =>
    .ok { st with reqs := Function.update st.reqs st.nextId (some ⟨⟨slide, span, st.nextId⟩, false⟩)
                  nextId := st.nextId + 1 }
  | .admitTokens id n localGrant globalGrant =>
    match st.reqs id with
    | some r =>
      match r.kv.admitTokens n localGrant globalGrant with
      | .ok kv => .ok { st with reqs := Function.update st.reqs id (some { r with kv := kv }) }
      | .error _ => .ok st
    | none => .error .notHeld
  | .prefill id count => st.outside id fun kv => kv.advanceStep count serve.slidingWindow
  | .launch id count => st.outside id fun kv =>
    .ok { kv with slide := kv.slide.advance count, span := { kv.span with seqLen := kv.span.seqLen + count } }
  | .releaseWindow id => st.outside id fun kv =>
    match kv.slide.advanceAndRelease 0 serve.slidingWindow with
    | .ok slide => .ok { kv with slide := slide }
    | .error e => .error e
  | .join id =>
    match st.reqs id with
    | some r => .ok { st with reqs := Function.update st.reqs id (some { r with active := true }) }
    | none => .error .notHeld
  | .retire id => .ok { st with reqs := Function.update st.reqs id none }
  | .decode ids fault garbage =>
    match st.batch ids with
    | some kvs => .ok (st.decodeBatchStep serve ids kvs fault garbage)
    | none => .error .notHeld
  | .mixed prefills ids fault garbage =>
    match st.newcomers prefills, st.batch ids with
    | some news, some kvs => .ok (st.mixedStep serve news ids kvs fault garbage)
    | _, _ => .error .notHeld
  | .warm id bucket fault garbage =>
    match st.batch [id] with
    | some kvs =>
      match { st.arena with minBucket := bucket, steady := none }.prepareDecodeStep serve kvs fault garbage with
      | (arena, some padded) =>
        if fault = .body then .ok { st with arena := { arena with tables := garbage } }
        else .ok { st with arena := arena.decodeGpuBody serve padded }
      | (arena, none) => .ok { st with arena := arena }
    | none => .error .notHeld
  | .sweepEnd => .ok { st with arena := { st.arena with minBucket := 1 } }

attribute [grind =] step

/-! ## Rows one token on -/

/-- the row of a request's next token -/
def rowOf (kv : RankKv) : PlanRow :=
  let rel := kv.slide.frontier + 1 - kv.slide.originPages * LOCAL_PAGE_SIZE
  { localPages := kv.slide.resident
    localLast := if rel % LOCAL_PAGE_SIZE = 0 then LOCAL_PAGE_SIZE else rel % LOCAL_PAGE_SIZE
    localStart := kv.slide.frontier - kv.slide.originPages * LOCAL_PAGE_SIZE
    localOrigin := kv.slide.originPages
    globalPages := kv.span.pages
    globalLast := lastPageLenFor (kv.slide.frontier + 1) GLOBAL_PAGE_SIZE
    position := kv.slide.frontier }

/-- a request holds exactly the pages its next token needs -/
structure Covered (kv : RankKv) : Prop where
  window : kv.slide.originPages * LOCAL_PAGE_SIZE ≤ kv.slide.frontier
  resident : kv.slide.resident.length =
    divCeil (kv.slide.frontier + 1 - kv.slide.originPages * LOCAL_PAGE_SIZE) LOCAL_PAGE_SIZE
  span : kv.span.pages.length = divCeil (kv.slide.frontier + 1) GLOBAL_PAGE_SIZE

theorem steadyRow_eq_some {kv : RankKv} {r : SteadyRow} (h : steadyRow kv = some r) :
    Covered kv ∧ r = ⟨kv.id, kv.slide.frontier + 1, kv.slide.originPages, kv.slide.resident.length,
      kv.span.pages.length, divCeil (kv.slide.frontier + 1) GLOBAL_SPLIT_CHUNK_TOKENS⟩ := by
  simp only [steadyRow] at h
  split at h
  · rename_i span last hs hg
    obtain ⟨hw, hl, rfl⟩ := SlidingLocalKv.residentSpan_ok hs
    obtain ⟨hp, -⟩ := KvState.descForLen_ok hg
    cases h
    exact ⟨⟨hw, hl, hp⟩, rfl⟩
  · cases h

theorem decodeRow_of_covered {serve : GemmaServe} {kv : RankKv} (h : Covered kv)
    (hb : serve.checkStepBounds kv (kv.slide.frontier + 1) = .ok ()) : decodeRow serve kv = .ok (rowOf kv) := by
  have h1 : ¬ kv.slide.frontier + 1 < kv.slide.originPages * LOCAL_PAGE_SIZE := by
    have := h.window
    omega
  simp only [decodeRow, hb, SlidingLocalKv.residentSpan, KvState.descForLen, if_neg h1, if_neg (not_lt.2 h.window),
    if_pos h.resident, if_pos h.span, bind, Except.bind, pure, Except.pure, rowOf]

theorem decodeRow_ok {serve : GemmaServe} {kv : RankKv} {r : PlanRow} (h : decodeRow serve kv = .ok r) :
    Covered kv ∧ serve.checkStepBounds kv (kv.slide.frontier + 1) = .ok () ∧ r = rowOf kv := by
  have hb : serve.checkStepBounds kv (kv.slide.frontier + 1) = .ok () := by
    simp only [decodeRow, bind, Except.bind] at h
    split at h
    · cases h
    · assumption
  simp only [decodeRow, hb, bind, Except.bind, pure, Except.pure] at h
  split at h
  · cases h
  · rename_i span hs
    obtain ⟨hw, hl, rfl⟩ := SlidingLocalKv.residentSpan_ok hs
    split at h
    · cases h
    · rename_i last hg
      obtain ⟨hp, rfl⟩ := KvState.descForLen_ok hg
      exact ⟨⟨hw, hl, hp⟩, hb, (Except.ok.inj h).symm⟩

theorem last_len (n : ℕ) : (if n % 64 = 0 then 64 else n % 64) = (n + 63) % 64 + 1 := by
  by_cases h : n % 64 = 0
  · rw [if_pos h]
    omega
  · rw [if_neg h]
    omega

theorem rowOf_localLast (kv : RankKv) :
    (rowOf kv).localLast = (kv.slide.frontier + 1 - kv.slide.originPages * 64 + 63) % 64 + 1 :=
  last_len _

theorem rowOf_globalLast (kv : RankKv) : (rowOf kv).globalLast = kv.slide.frontier % 64 + 1 := by
  calc (rowOf kv).globalLast = (kv.slide.frontier + 1 + 63) % 64 + 1 := last_len (kv.slide.frontier + 1)
    _ = kv.slide.frontier % 64 + 1 := by omega

/-- a local chunk is a page, so the sliding family's chunk count is its page count -/
theorem rowOf_localChunks {kv : RankKv} (h : Covered kv) :
    splitChunks LOCAL_SPLIT_CHUNK_TOKENS (rowOf kv).localKvLen = kv.slide.resident.length := by
  have hw := h.window
  have hr := h.resident
  have hp : (rowOf kv).localPages.length = kv.slide.resident.length := rfl
  simp only [splitChunks, PlanRow.localKvLen, rowOf_localLast, hp, divCeil, LOCAL_PAGE_SIZE,
    LOCAL_SPLIT_CHUNK_TOKENS] at hw hr ⊢
  omega

theorem rowOf_globalKvLen {kv : RankKv} (h : Covered kv) : (rowOf kv).globalKvLen = kv.slide.frontier + 1 := by
  have hs := h.span
  have hp : (rowOf kv).globalPages.length = kv.span.pages.length := rfl
  simp only [PlanRow.globalKvLen, rowOf_globalLast, hp, divCeil, GLOBAL_PAGE_SIZE] at hs ⊢
  omega

theorem rowOf_localLast_pos (kv : RankKv) : 1 ≤ (rowOf kv).localLast := by
  rw [rowOf_localLast]
  omega

theorem rowOf_localLast_le (kv : RankKv) : (rowOf kv).localLast ≤ LOCAL_PAGE_SIZE := by
  rw [rowOf_localLast]
  unfold LOCAL_PAGE_SIZE
  omega

theorem rowOf_globalLast_le (kv : RankKv) : (rowOf kv).globalLast ≤ GLOBAL_PAGE_SIZE := by
  rw [rowOf_globalLast]
  unfold GLOBAL_PAGE_SIZE
  omega

/-- **The fingerprint's meaning.** A request whose fingerprint row advances is on the same pages, one token on. -/
theorem rowOf_advances {k k' : RankKv} {c n : SteadyRow} (hg : Grew k k') (hc : steadyRow k = some c)
    (hn : steadyRow k' = some n) (h : c.advancesTo n = true) :
    rowOf k' = (rowOf k).bump ∧ SameShape (rowOf k) (rowOf k).bump := by
  obtain ⟨hk, rfl⟩ := steadyRow_eq_some hc
  obtain ⟨hk', rfl⟩ := steadyRow_eq_some hn
  simp only [SteadyRow.advancesTo, decide_eq_true_eq] at h
  obtain ⟨-, hlen, ho, hlp, hgp, hgc⟩ := h
  have hfr : k'.slide.frontier = k.slide.frontier + 1 := by omega
  have hres : k'.slide.resident = k.slide.resident := hg.resident_eq ho hlp
  have hpages : k'.span.pages = k.span.pages := hg.pages_eq hgp
  have hrow : rowOf k' = (rowOf k).bump := by
    have hw := hk.window
    have h1 := hk.resident
    have h1' := hk'.resident
    have h2 := hk.span
    have h2' := hk'.span
    rw [hres, ho, hfr] at h1'
    rw [hpages, hfr] at h2'
    have hlast : (rowOf k').localLast = (rowOf k).localLast + 1 := by
      rw [rowOf_localLast, rowOf_localLast, hfr, ho]
      simp only [divCeil, LOCAL_PAGE_SIZE] at hw h1 h1'
      omega
    have hglast : (rowOf k').globalLast = (rowOf k).globalLast + 1 := by
      rw [rowOf_globalLast, rowOf_globalLast, hfr]
      simp only [divCeil, GLOBAL_PAGE_SIZE] at h2 h2'
      omega
    have hstart : (rowOf k').localStart = (rowOf k).localStart + 1 := by
      simp only [rowOf, hfr, ho]
      omega
    exact PlanRow.ext hres hlast hstart ho hpages hglast hfr
  refine ⟨hrow, rfl, rfl, rfl, ?_, ?_⟩
  · rw [← hrow, rowOf_localChunks hk', rowOf_localChunks hk, hres]
  · rw [← hrow, rowOf_globalKvLen hk', rowOf_globalKvLen hk]
    simp only [splitChunks, hgc]

/-! ## The tables of a batch -/

/-- the batch's rows, then padding rows bumped `j` times -/
def plannedRows (serve : GemmaServe) (kvs : List RankKv) (padded j : ℕ) : List PlanRow :=
  kvs.map rowOf ++ List.replicate (padded - kvs.length) (padRow serve j)

/-- the buffers hold the batch's tables, the padding rows no further on than any row of the batch is into its page -/
structure Loaded (serve : GemmaServe) (kvs : List RankKv) (padded : ℕ) (dev : Tables) (j : ℕ) (t : Tables) : Prop where
  plan : planRows serve (plannedRows serve kvs padded j) = .ok t
  holds : dev.Holds t
  slack : ∀ kv ∈ kvs, j + 1 ≤ (rowOf kv).localLast

/-- the buffers hold the batch's tables one token on -/
structure Moved (serve : GemmaServe) (kvs : List RankKv) (padded : ℕ) (dev : Tables) (j : ℕ) (t : Tables) : Prop where
  plan : planRows serve (plannedRows serve kvs padded j) = .ok t
  holds : dev.Holds t.bump
  slack : ∀ kv ∈ kvs, j + 1 ≤ (rowOf kv).localLast

/-- padding rows no further on than a row of the batch are inside their page -/
theorem slack_lt {kvs : List RankKv} {j : ℕ} (hne : kvs ≠ []) (h : ∀ kv ∈ kvs, j + 1 ≤ (rowOf kv).localLast) :
    j < 64 := by
  obtain ⟨kv, hkv⟩ := List.exists_mem_of_ne_nil kvs hne
  have h1 := h kv hkv
  have h2 := rowOf_localLast_le kv
  unfold LOCAL_PAGE_SIZE at h2
  omega

theorem padRow_bump (serve : GemmaServe) (j : ℕ) : (padRow serve j).bump = padRow serve (j + 1) := by
  simp only [padRow, PlanRow.bump]
  rfl

theorem padRow_sameShape (serve : GemmaServe) {j j' : ℕ} (h : j < 64) (h' : j' < 64) :
    SameShape (padRow serve j) (padRow serve j') where
  localPages := rfl
  localOrigin := rfl
  globalPages := rfl
  localChunks := by
    simp only [splitChunks, PlanRow.localKvLen, padRow, List.length_singleton, divCeil, LOCAL_SPLIT_CHUNK_TOKENS]
    omega
  globalChunks := by
    simp only [splitChunks, PlanRow.globalKvLen, padRow, List.length_singleton, divCeil, GLOBAL_SPLIT_CHUNK_TOKENS]
    omega

theorem padRow_fits (serve : GemmaServe) {j : ℕ} (h : j < 64) :
    rowFits (padRow serve j) = true ∧ (padRow serve j).globalLast ≤ I32_MAX := by
  have hmax : 65 ≤ I32_MAX := by decide
  refine ⟨decide_eq_true ?_, ?_⟩
  · simp only [padRow, List.length_singleton]
    omega
  · simp only [padRow]
    omega

theorem mem_plannedRows {serve : GemmaServe} {kvs : List RankKv} {padded j : ℕ} {r : PlanRow}
    (h : r ∈ plannedRows serve kvs padded j) : (∃ kv ∈ kvs, r = rowOf kv) ∨ r = padRow serve j := by
  rcases List.mem_append.1 h with h | h
  · obtain ⟨kv, hkv, rfl⟩ := List.mem_map.1 h
    exact Or.inl ⟨kv, hkv, rfl⟩
  · exact Or.inr (List.eq_of_mem_replicate h)

theorem plannedRows_bump (serve : GemmaServe) {kvs kvs' : List RankKv} (padded j : ℕ)
    (h : List.Forall₂ (fun k k' => rowOf k' = (rowOf k).bump) kvs kvs') :
    plannedRows serve kvs' padded (j + 1) = (plannedRows serve kvs padded j).map PlanRow.bump := by
  have hmap : kvs'.map rowOf = (kvs.map rowOf).map PlanRow.bump := by
    induction h with
    | nil => rfl
    | cons hk _ ih => simp only [List.map_cons, hk, ih]
  rw [plannedRows, plannedRows, hmap, List.map_append, List.map_replicate, padRow_bump, ← h.length_eq]

theorem rowOf_fits {serve : GemmaServe} {kv : RankKv} (hc : Covered kv)
    (hb : serve.checkStepBounds kv (kv.slide.frontier + 1) = .ok ()) :
    rowFits (rowOf kv) = true ∧ (rowOf kv).globalLast ≤ I32_MAX := by
  have hlen : kv.slide.frontier + 1 ≤ I32_MAX := by
    simp only [GemmaServe.checkStepBounds] at hb
    split_ifs at hb with h1 h2
    exact h2.trans serve.cosMaxPos_le
  have hw := hc.window
  have hp : (rowOf kv).globalPages.length = divCeil (kv.slide.frontier + 1) GLOBAL_PAGE_SIZE := hc.span
  have hl := rowOf_localLast_le kv
  have hg := rowOf_globalLast_le kv
  have hstart : (rowOf kv).localStart = kv.slide.frontier - kv.slide.originPages * LOCAL_PAGE_SIZE := rfl
  have horigin : (rowOf kv).localOrigin = kv.slide.originPages := rfl
  have hpos : (rowOf kv).position = kv.slide.frontier := rfl
  simp only [rowFits, decide_eq_true_eq, hp, hstart, horigin, hpos, divCeil, I32_MAX, LOCAL_PAGE_SIZE,
    GLOBAL_PAGE_SIZE] at hlen hw hl hg ⊢
  omega

/-- what the test of the fingerprints and the bounds establish, row by row -/
structure Advances (serve : GemmaServe) (k k' : RankKv) : Prop where
  row : rowOf k' = (rowOf k).bump
  shape : SameShape (rowOf k) (rowOf k).bump
  covered : Covered k'
  bounds : serve.checkStepBounds k' (k'.slide.frontier + 1) = .ok ()

/-- a batch that advances is loaded with the tables its last step left -/
theorem Moved.next {serve : GemmaServe} {kvs kvs' : List RankKv} {padded j : ℕ} {dev t : Tables}
    (h : Moved serve kvs padded dev j t) (hne : kvs ≠ []) (ha : List.Forall₂ (Advances serve) kvs kvs') :
    Loaded serve kvs' padded dev (j + 1) t.bump := by
  have hrows := plannedRows_bump serve padded j (ha.imp fun _ _ h => h.row)
  have hlast : ∀ k' ∈ kvs', j + 1 + 1 ≤ (rowOf k').localLast := by
    intro k' hk'
    obtain ⟨i, hi, rfl⟩ := List.mem_iff_getElem.1 hk'
    have hi' : i < kvs.length := ha.length_eq ▸ hi
    have hr := (List.forall₂_iff_get.1 ha).2 i hi' hi
    have hs := h.slack kvs[i] (List.getElem_mem hi')
    have heq : rowOf kvs'[i] = (rowOf kvs[i]).bump := hr.row
    rw [heq]
    exact Nat.succ_le_succ hs
  have hj : j + 1 < 64 := by
    refine slack_lt ?_ hlast
    rintro rfl
    exact hne (List.forall₂_nil_right_iff.1 ha)
  refine ⟨?_, h.holds, hlast⟩
  rw [hrows]
  have hmem : ∀ r ∈ plannedRows serve kvs padded j,
      SameShape r r.bump ∧ rowFits r.bump = true ∧ r.bump.globalLast ≤ I32_MAX := by
    intro r hr
    rcases mem_plannedRows hr with ⟨k, hk, rfl⟩ | rfl
    · obtain ⟨i, hi, rfl⟩ := List.mem_iff_getElem.1 hk
      have hi' : i < kvs'.length := ha.length_eq ▸ hi
      have hr := (List.forall₂_iff_get.1 ha).2 i hi hi'
      have heq : rowOf kvs'[i] = (rowOf kvs[i]).bump := hr.row
      have hf := rowOf_fits hr.covered hr.bounds
      exact ⟨hr.shape, heq ▸ hf⟩
    · rw [padRow_bump]
      exact ⟨padRow_sameShape serve (by omega) hj, padRow_fits serve hj⟩
  exact planRows_bump h.plan (fun r hr => (hmem r hr).1) (fun r hr => (hmem r hr).2.1) fun r hr => (hmem r hr).2.2

theorem Loaded.advance {serve : GemmaServe} {kvs : List RankKv} {padded j : ℕ} {dev t : Tables}
    (h : Loaded serve kvs padded dev j t) (hp : kvs.length ≤ padded) :
    Moved serve kvs padded (dev.advanceDecodeMetadata padded serve.globalSplitFactor) j t := by
  have hlen : (plannedRows serve kvs padded j).length = padded := by
    simp only [plannedRows, List.length_append, List.length_map, List.length_replicate]
    omega
  have hadv := h.holds.advance h.plan
  rw [hlen] at hadv
  exact ⟨h.plan, hadv, h.slack⟩

theorem fullPlan_ok {serve : GemmaServe} {kvs : List RankKv} {padded : ℕ} {t : Tables}
    (h : fullPlan serve kvs padded = .ok t) : planRows serve (plannedRows serve kvs padded 0) = .ok t := by
  simp only [fullPlan, bind, Except.bind] at h
  split at h
  · cases h
  · rename_i rows hrows
    have hmap : rows = kvs.map rowOf := by
      clear h
      induction kvs generalizing rows with
      | nil => simpa [List.mapM_nil, pure, Except.pure] using hrows.symm
      | cons kv kvs ih =>
        simp only [List.mapM_cons, bind, Except.bind, pure, Except.pure] at hrows
        split at hrows
        · cases hrows
        · rename_i r hr
          split at hrows
          · cases hrows
          · rename_i rest hrest
            cases hrows
            rw [List.map_cons, (decodeRow_ok hr).2.2, ih rest hrest]
    rw [hmap] at h
    exact h

theorem fullPlan_of_covered {serve : GemmaServe} {kvs : List RankKv} {padded : ℕ}
    (h : ∀ kv ∈ kvs, Covered kv ∧ serve.checkStepBounds kv (kv.slide.frontier + 1) = .ok ()) :
    fullPlan serve kvs padded = planRows serve (plannedRows serve kvs padded 0) := by
  have hmap : kvs.mapM (decodeRow serve) = .ok (kvs.map rowOf) := by
    induction kvs with
    | nil => rfl
    | cons kv kvs ih =>
      have hkv := h kv List.mem_cons_self
      rw [List.mapM_cons, decodeRow_of_covered hkv.1 hkv.2, ih fun k hk => h k (List.mem_cons_of_mem _ hk)]
      rfl
  rw [fullPlan, hmap]
  rfl

/-! ## What the device reads -/

/-- for the batch's rows the buffers hold what `plan` would upload: the page tables, the offsets, the origins and both
split-KV plans whole, the counters row by row -/
structure Agrees (serve : GemmaServe) (batch : ℕ) (dev plan : Tables) : Prop where
  fixed : dev.HoldsFixed plan
  positions : dev.positions.take batch = plan.positions.take batch
  localLast : dev.localLast.take batch = plan.localLast.take batch
  kvChunk : dev.kvChunk.take batch = plan.kvChunk.take batch
  pseudoLast : dev.pseudo.last.take (batch * serve.globalSplitFactor) =
    plan.pseudo.last.take (batch * serve.globalSplitFactor)

/-- padding row `r` reads and writes one page of each family, its padding page: its window is that page alone, and its
position lies in it -/
structure OnPaddingPage (serve : GemmaServe) (dev : Tables) (r p : ℕ) : Prop where
  position : dev.positions[r]? = some p
  inLocal : p < LOCAL_PAGE_SIZE
  inGlobal : p < GLOBAL_PAGE_SIZE
  localLast : dev.localLast[r]? = some (p + 1)
  localOrigin : dev.localOrigins[r]? = some 0
  localPages : row dev.localIndptr dev.localPages r = some [serve.localPaddingPage]
  globalPages : row dev.globalIndptr dev.globalPages r = some [serve.globalPaddingPage]
  pseudoLast : ∀ c < serve.globalSplitFactor, dev.pseudo.last[r * serve.globalSplitFactor + c]? = some (p + 1)
  pseudoPages : ∀ c < serve.globalSplitFactor,
    row dev.pseudo.indptr dev.pseudo.pages (r * serve.globalSplitFactor + c) = some [serve.globalPaddingPage]

theorem take_of_isPrefix {l l' : List ℕ} (h : l <+: l') {n : ℕ} (hn : n ≤ l.length) : l'.take n = l.take n := by
  obtain ⟨t, rfl⟩ := h
  exact List.take_append_of_le_length hn

theorem pseudoRows_append (serve : GemmaServe) (a b : List PlanRow) :
    pseudoRows serve (a ++ b) = pseudoRows serve a ++ pseudoRows serve b := List.flatMap_append

theorem getElem?_pseudoRows {serve : GemmaServe} {rows : List PlanRow} {i c : ℕ} {x : PlanRow} (h : rows[i]? = some x)
    (hc : c < serve.globalSplitFactor) : (pseudoRows serve rows)[i * serve.globalSplitFactor + c]? = some x := by
  induction rows generalizing i with
  | nil => simp at h
  | cons y ys ih =>
    have hsplit : pseudoRows serve (y :: ys) = List.replicate serve.globalSplitFactor y ++ pseudoRows serve ys := rfl
    rw [hsplit]
    cases i with
    | zero =>
      obtain rfl : y = x := by simpa using h
      rw [Nat.zero_mul, Nat.zero_add, List.getElem?_append_left (by simpa using hc)]
      simp [hc]
    | succ i =>
      have hle : serve.globalSplitFactor ≤ (i + 1) * serve.globalSplitFactor + c := by
        rw [Nat.succ_mul]
        omega
      have hsub : (i + 1) * serve.globalSplitFactor + c - serve.globalSplitFactor = i * serve.globalSplitFactor + c := by
        rw [Nat.succ_mul]
        omega
      rw [List.getElem?_append_right (by simpa using hle), List.length_replicate, hsub]
      exact ih (by simpa using h)

/-- loaded buffers against the full plan of the same batch -/
theorem Loaded.agrees {serve : GemmaServe} {kvs : List RankKv} {padded j : ℕ} {dev t : Tables}
    (h : Loaded serve kvs padded dev j t) (hne : kvs ≠ [])
    (hk : ∀ kv ∈ kvs, Covered kv ∧ serve.checkStepBounds kv (kv.slide.frontier + 1) = .ok ()) :
    ∃ plan, fullPlan serve kvs padded = .ok plan ∧ Agrees serve kvs.length dev plan := by
  have hj := slack_lt hne h.slack
  have hs : List.Forall₂ SameShape (plannedRows serve kvs padded j) (plannedRows serve kvs padded 0) := by
    refine List.rel_append (List.forall₂_same.2 fun r _ => ⟨rfl, rfl, rfl, rfl, rfl⟩) ?_
    refine List.forall₂_iff_get.2 ⟨by simp, fun i _ _ => ?_⟩
    simpa using padRow_sameShape serve hj (by omega)
  have hfit : ∀ r ∈ plannedRows serve kvs padded 0, rowFits r = true ∧ r.globalLast ≤ I32_MAX := by
    intro r hr
    rcases mem_plannedRows hr with ⟨kv, hkv, rfl⟩ | rfl
    · exact rowOf_fits (hk kv hkv).1 (hk kv hkv).2
    · exact padRow_fits serve (by omega)
  refine ⟨_, (fullPlan_of_covered hk).trans
    (planRows_congr h.plan hs (fun r hr => (hfit r hr).1) fun r hr => (hfit r hr).2), ?_⟩
  have hh := h.holds
  obtain ⟨-, -, -, split, pseudo, -, hpseudo, rfl⟩ := planRows_ok h.plan
  obtain ⟨-, csr, -, rfl⟩ := planSplitKv_ok hpseudo
  refine ⟨⟨hh.localPages, hh.localIndptr, hh.localSplit, hh.globalPages, hh.globalIndptr, hh.pseudoPages,
    hh.pseudoIndptr, hh.globalSplit, hh.localOrigins⟩, ?_, ?_, ?_, ?_⟩
  · rw [take_of_isPrefix hh.positions (by simp [plannedRows])]
    simp [Tables.recount, plannedRows]
  · rw [take_of_isPrefix hh.localLast (by simp [plannedRows])]
    simp [Tables.recount, plannedRows]
  · rw [take_of_isPrefix hh.kvChunk (by simp [plannedRows])]
    simp [Tables.recount, plannedRows]
  · have hlen : kvs.length * serve.globalSplitFactor = (pseudoRows serve (kvs.map rowOf)).length := by
      simp [length_pseudoRows]
    rw [take_of_isPrefix hh.pseudoLast (by simp [plannedRows, pseudoRows_append, hlen])]
    simp [Tables.recount, plannedRows, pseudoRows_append, hlen]

/-- loaded padding rows are on the padding pages -/
theorem Loaded.onPaddingPage {serve : GemmaServe} {kvs : List RankKv} {padded j : ℕ} {dev t : Tables}
    (h : Loaded serve kvs padded dev j t) (hne : kvs ≠ []) {r : ℕ} (hr : kvs.length ≤ r) (hr' : r < padded) :
    OnPaddingPage serve dev r j := by
  have hj := slack_lt hne h.slack
  have hrow : (plannedRows serve kvs padded j)[r]? = some (padRow serve j) := by
    rw [plannedRows, List.getElem?_append_right (by simpa using hr), List.getElem?_replicate, if_pos]
    rw [List.length_map]
    omega
  have hps : ∀ c < serve.globalSplitFactor, (pseudoRows serve (plannedRows serve kvs padded j))[
      r * serve.globalSplitFactor + c]? = some (padRow serve j) := fun c hc => getElem?_pseudoRows hrow hc
  have hh := h.holds
  obtain ⟨-, -, -, split, pseudo, -, hpseudo, rfl⟩ := planRows_ok h.plan
  obtain ⟨-, csr, -, rfl⟩ := planSplitKv_ok hpseudo
  exact {
    position := getElem?_of_isPrefix hh.positions (by simp [hrow, padRow])
    inLocal := hj
    inGlobal := hj
    localLast := getElem?_of_isPrefix hh.localLast (by simp [hrow, padRow, Nat.add_comm])
    localOrigin := getElem?_of_isPrefix hh.localOrigins (by simp [hrow, padRow])
    localPages := row_isPrefix hh.localIndptr hh.localPages r _ (by simp [hrow, padRow])
    globalPages := row_isPrefix hh.globalIndptr hh.globalPages r _ (by simp [hrow, padRow])
    pseudoLast := fun c hc => getElem?_of_isPrefix hh.pseudoLast (by
      rw [List.getElem?_map, hps c hc]
      simp [padRow, Nat.add_comm])
    pseudoPages := fun c hc => row_isPrefix hh.pseudoIndptr hh.pseudoPages _ _ (by simp [hps c hc, padRow]) }

/-! ## The invariant -/

/-- the arena's fingerprint is that of `kvs`, as these requests were when it was taken; they are the batch's, and the
tables are theirs one token on unless none of them has moved -/
structure Tracks (serve : GemmaServe) (st : Engine) (kvs : List RankKv) (steady : SteadyDecode) : Prop where
  taken : decodeFingerprint kvs steady.padded = some steady
  nonempty : kvs ≠ []
  issued : ∀ kv ∈ kvs, kv.id < st.nextId
  grew : ∀ kv ∈ kvs, ∀ r, st.reqs kv.id = some r → r.active = true ∧ Grew kv r.kv
  tables : (∀ kv ∈ kvs, ∀ r, st.reqs kv.id = some r → r.kv.slide.frontier = kv.slide.frontier) ∨
    ∃ j t, Moved serve kvs steady.padded st.arena.tables j t

structure Inv (serve : GemmaServe) (st : Engine) : Prop where
  named : ∀ id r, st.reqs id = some r → r.kv.id = id ∧ id < st.nextId
  steady : ∀ f, st.arena.steady = some f → ∃ kvs, Tracks serve st kvs f

/-- what leaves the batch's requests where the fingerprint saw them -/
structure Keeps (st st' : Engine) : Prop where
  nextId : st.nextId ≤ st'.nextId
  named : ∀ id r, st'.reqs id = some r → r.kv.id = id ∧ id < st'.nextId
  reqs : ∀ id r', id < st.nextId → st'.reqs id = some r' → ∃ r, st.reqs id = some r ∧
    (r.active = true → r'.active = true ∧ Grew r.kv r'.kv ∧ r'.kv.slide.frontier = r.kv.slide.frontier)

theorem Inv.keeps {serve : GemmaServe} {st st' : Engine} (h : Inv serve st) (hk : Keeps st st')
    (hs : st'.arena.steady = st.arena.steady) (ht : st'.arena.tables = st.arena.tables) : Inv serve st' where
  named := hk.named
  steady := by
    intro f hf
    rw [hs] at hf
    obtain ⟨kvs, hkvs⟩ := h.steady f hf
    have hold : ∀ kv ∈ kvs, ∀ r', st'.reqs kv.id = some r' → ∃ r, st.reqs kv.id = some r ∧ r'.active = true ∧
        Grew r.kv r'.kv ∧ r'.kv.slide.frontier = r.kv.slide.frontier := by
      intro kv hkv r' hr'
      obtain ⟨r, hr, hrr⟩ := hk.reqs kv.id r' (hkvs.issued kv hkv) hr'
      exact ⟨r, hr, hrr (hkvs.grew kv hkv r hr).1⟩
    refine ⟨kvs, hkvs.taken, hkvs.nonempty, fun kv hkv => (hkvs.issued kv hkv).trans_le hk.nextId, ?_, ?_⟩
    · intro kv hkv r' hr'
      obtain ⟨r, hr, ha, hg, -⟩ := hold kv hkv r' hr'
      exact ⟨ha, (hkvs.grew kv hkv r hr).2.trans hg⟩
    · rcases hkvs.tables with hstill | hmoved
      · refine Or.inl fun kv hkv r' hr' => ?_
        obtain ⟨r, hr, -, -, hfr⟩ := hold kv hkv r' hr'
        exact hfr.trans (hstill kv hkv r hr)
      · exact Or.inr (ht ▸ hmoved)

/-- one request changed, the others as they were -/
theorem keeps_update {st : Engine} {id : ℕ} {r r' : Req} (h : ∀ id r, st.reqs id = some r → r.kv.id = id ∧ id < st.nextId)
    (hr : st.reqs id = some r) (hid : r'.kv.id = r.kv.id)
    (hkeep : r.active = true → r'.active = true ∧ Grew r.kv r'.kv ∧ r'.kv.slide.frontier = r.kv.slide.frontier) :
    Keeps st { st with reqs := Function.update st.reqs id (some r') } where
  nextId := le_rfl
  named := by
    intro i x hx
    by_cases hi : i = id
    · subst hi
      obtain rfl : r' = x := by simpa using hx
      exact ⟨hid.trans (h i r hr).1, (h i r hr).2⟩
    · exact h i x (by simpa [hi] using hx)
  reqs := by
    intro i x _ hx
    by_cases hi : i = id
    · subst hi
      obtain rfl : r' = x := by simpa using hx
      exact ⟨r, hr, hkeep⟩
    · exact ⟨x, by simpa [hi] using hx, fun ha => ⟨ha, Grew.refl _, rfl⟩⟩

theorem inv_outside {serve : GemmaServe} {st st' : Engine} {id : ℕ} {f : RankKv → Except KvError RankKv}
    (h : Inv serve st) (hf : ∀ kv kv', f kv = .ok kv' → kv'.id = kv.id) (hs : st.outside id f = .ok st') :
    Inv serve st' := by
  simp only [Engine.outside] at hs
  split at hs
  · rename_i kv hkv
    split at hs
    · rename_i kv' hkv'
      cases hs
      exact h.keeps (keeps_update h.named hkv (hf kv kv' hkv') (by simp)) rfl rfl
    · cases hs
      exact h
  · cases hs

/-! ## The batch and its fingerprint -/

theorem forall₂_of_mapM {α β : Type*} {f : α → Option β} {l : List α} {l' : List β} (h : l.mapM f = some l') :
    List.Forall₂ (fun a b => f a = some b) l l' := by
  induction l generalizing l' with
  | nil =>
    obtain rfl : [] = l' := by simpa using h
    exact List.Forall₂.nil
  | cons a l ih =>
    simp only [List.mapM_cons, Option.pure_def, Option.bind_eq_bind, Option.bind_eq_some_iff] at h
    obtain ⟨b, hb, bs, hbs, h⟩ := h
    obtain rfl := Option.some.inj h
    exact List.Forall₂.cons hb (ih hbs)

/-- every KV of a batch is the one its request holds -/
theorem batch_held {serve : GemmaServe} {st : Engine} (h : Inv serve st) {ids : List ℕ} {kvs : List RankKv}
    (hb : st.batch ids = some kvs) : ∀ kv ∈ kvs, st.reqs kv.id = some ⟨kv, true⟩ := by
  intro kv hkv
  simp only [Engine.batch] at hb
  split at hb
  · have hall := forall₂_of_mapM hb
    obtain ⟨i, hi, rfl⟩ := List.mem_iff_getElem.1 hkv
    have hid := (List.forall₂_iff_get.1 hall).2 i (hall.length_eq ▸ hi) hi
    simp only [List.get_eq_getElem] at hid
    split at hid
    · rename_i r hr
      split at hid
      · rename_i ha
        rw [← Option.some.inj hid, (h.named _ r hr).1, hr, ← ha]
      · cases hid
    · cases hid
  · cases hb

theorem decodeFingerprint_rows {kvs : List RankKv} {padded : ℕ} {f : SteadyDecode}
    (h : decodeFingerprint kvs padded = some f) :
    f.padded = padded ∧ List.Forall₂ (fun kv row => steadyRow kv = some row) kvs f.rows := by
  simp only [decodeFingerprint, Option.map_eq_some_iff] at h
  obtain ⟨rows, hrows, rfl⟩ := h
  exact ⟨rfl, forall₂_of_mapM hrows⟩

theorem checkStepBounds_of_forM {serve : GemmaServe} {kvs : List RankKv} {u : PUnit}
    (h : kvs.forM (fun kv => serve.checkStepBounds kv (kv.slide.frontier + 1)) = .ok u) :
    ∀ kv ∈ kvs, serve.checkStepBounds kv (kv.slide.frontier + 1) = .ok () := by
  induction kvs with
  | nil => simp
  | cons kv kvs ih =>
    simp only [List.forM, bind, Except.bind] at h
    split at h
    · cases h
    · rename_i hb
      intro k hk
      rcases List.mem_cons.1 hk with rfl | hk
      · exact hb
      · exact ih h k hk

/-- where the fingerprint test holds in a reachable state, the tables are the tested batch's -/
theorem loaded_of_regular {serve : GemmaServe} {st : Engine} (h : Inv serve st) {ids : List ℕ} {kvs : List RankKv}
    {padded : ℕ} (hb : st.batch ids = some kvs) (hreg : st.arena.regular kvs padded = true)
    (hbounds : ∀ kv ∈ kvs, serve.checkStepBounds kv (kv.slide.frontier + 1) = .ok ()) :
    kvs ≠ [] ∧ (∀ kv ∈ kvs, Covered kv) ∧ ∃ j t, Loaded serve kvs padded st.arena.tables j t := by
  simp only [StepArena.regular] at hreg
  split at hreg
  · rename_i current next hcur hnext
    obtain ⟨old, hold⟩ := h.steady current hcur
    obtain ⟨hnp, hnrows⟩ := decodeFingerprint_rows hnext
    obtain ⟨-, hcrows⟩ := decodeFingerprint_rows hold.taken
    simp only [SteadyDecode.advancesTo, Bool.and_eq_true, decide_eq_true_eq, List.all_eq_true] at hreg
    obtain ⟨⟨hpad, hlen⟩, hzip⟩ := hreg
    have hheld := batch_held h hb
    have hlen' : old.length = kvs.length := by rw [hcrows.length_eq, hnrows.length_eq, hlen]
    -- each request of the old batch is the one now at its row
    have hrow : ∀ i (hi : i < old.length) (hi' : i < kvs.length), ∃ c n, steadyRow old[i] = some c ∧
        steadyRow kvs[i] = some n ∧ c.advancesTo n = true ∧ Grew old[i] kvs[i] := by
      intro i hi hi'
      have hic : i < current.rows.length := hcrows.length_eq ▸ hi
      have hin : i < next.rows.length := hnrows.length_eq ▸ hi'
      have hc := (List.forall₂_iff_get.1 hcrows).2 i hi hic
      have hn := (List.forall₂_iff_get.1 hnrows).2 i hi' hin
      simp only [List.get_eq_getElem] at hc hn
      have hadv := hzip (current.rows[i], next.rows[i]) (by
        rw [List.mem_iff_getElem]
        exact ⟨i, by simp [hic, hin], by simp⟩)
      refine ⟨_, _, hc, hn, hadv, ?_⟩
      have hid : kvs[i].id = old[i].id := by
        rw [(steadyRow_eq_some hc).2, (steadyRow_eq_some hn).2] at hadv
        simp only [SteadyRow.advancesTo, decide_eq_true_eq] at hadv
        exact hadv.1
      have hh := hheld kvs[i] (List.getElem_mem hi')
      rw [hid] at hh
      exact (hold.grew old[i] (List.getElem_mem hi) _ hh).2
    have hadv : List.Forall₂ (Advances serve) old kvs := by
      refine List.forall₂_iff_get.2 ⟨hlen', fun i hi hi' => ?_⟩
      obtain ⟨c, n, hc, hn, ha, hg⟩ := hrow i hi hi'
      obtain ⟨hr, hs⟩ := rowOf_advances hg hc hn ha
      exact ⟨hr, hs, (steadyRow_eq_some hn).1, hbounds _ (List.getElem_mem hi')⟩
    have hcov : ∀ kv ∈ kvs, Covered kv := by
      intro kv hkv
      obtain ⟨i, hi, rfl⟩ := List.mem_iff_getElem.1 hkv
      exact ((List.forall₂_iff_get.1 hadv).2 i (hlen' ▸ hi) hi).covered
    have hpos : 0 < old.length := List.length_pos_iff.2 hold.nonempty
    refine ⟨List.length_pos_iff.1 (hlen' ▸ hpos), hcov, ?_⟩
    rcases hold.tables with hstill | ⟨j, t, hmoved⟩
    · -- no request has moved, so the first row's length cannot have grown
      exfalso
      obtain ⟨c, n, hc, hn, ha, -⟩ := hrow 0 hpos (hlen' ▸ hpos)
      rw [(steadyRow_eq_some hc).2, (steadyRow_eq_some hn).2] at ha
      simp only [SteadyRow.advancesTo, decide_eq_true_eq] at ha
      have hh := hheld kvs[0] (List.getElem_mem (hlen' ▸ hpos))
      rw [ha.1] at hh
      have := hstill old[0] (List.getElem_mem hpos) _ hh
      simp only at this
      omega
    · have hp : current.padded = padded := hpad.trans hnp
      rw [hp] at hmoved
      exact ⟨_, _, hmoved.next hold.nonempty hadv⟩
  · cases hreg

/-! ## Steps -/

/-- a prepared step: the fingerprint is the batch's, and its tables are loaded -/
theorem prepare_some {serve : GemmaServe} {st : Engine} (h : Inv serve st) {arena arena' : StepArena} {ids : List ℕ}
    {kvs : List RankKv} {fault : Fault} {garbage : Tables} {padded : ℕ} (hb : st.batch ids = some kvs)
    (harena : arena = st.arena ∨ arena.steady = none)
    (hp : arena.prepareDecodeStep serve kvs fault garbage = (arena', some padded)) :
    kvs ≠ [] ∧ kvs.length ≤ padded ∧ arena'.steady = decodeFingerprint kvs padded ∧
      ∃ j t, Loaded serve kvs padded arena'.tables j t := by
  simp only [StepArena.prepareDecodeStep] at hp
  split at hp
  · simp at hp
  rename_i hentry
  push Not at hentry
  have hle : kvs.length ≤ arena.bucket kvs.length := (Nat.le_pow_clog (by omega) _).trans (le_max_left _ _)
  split at hp
  · rename_i mid hmid
    split at hp
    · simp at hp
    obtain ⟨rfl, hpad⟩ := Prod.mk.inj hp
    obtain rfl := Option.some.inj hpad
    refine ⟨hentry.1, hle, ?_⟩
    simp only [StepArena.planDecodeBatch] at hmid
    split at hmid
    · rename_i hreg
      rcases harena with rfl | hnone
      · split at hmid
        · rename_i hbounds
          obtain ⟨rfl, -⟩ := Prod.mk.inj hmid
          exact ⟨rfl, (loaded_of_regular h hb hreg (checkStepBounds_of_forM hbounds)).2.2⟩
        · simp at hmid
      · simp [StepArena.regular, hnone] at hreg
    · split at hmid
      · rename_i t ht
        split at hmid
        · simp at hmid
        obtain ⟨rfl, -⟩ := Prod.mk.inj hmid
        exact ⟨rfl, 0, t, fullPlan_ok ht, Tables.holds_upload _ _, fun kv _ => rowOf_localLast_pos kv⟩
      · simp at hmid
  · simp at hp

/-- a step that was not prepared: nothing happened, or the fingerprint is the batch's -/
theorem prepare_none {serve : GemmaServe} {arena arena' : StepArena} {kvs : List RankKv} {fault : Fault}
    {garbage : Tables} (hp : arena.prepareDecodeStep serve kvs fault garbage = (arena', none)) :
    arena' = arena ∨ kvs ≠ [] ∧ ∃ padded, arena'.steady = decodeFingerprint kvs padded := by
  simp only [StepArena.prepareDecodeStep] at hp
  split at hp
  · exact Or.inl (Prod.mk.inj hp).1.symm
  rename_i hentry
  push Not at hentry
  have hplan : ∀ mid ok, arena.planDecodeBatch serve kvs (arena.bucket kvs.length) fault garbage = (mid, ok) →
      mid = arena ∨ mid.steady = decodeFingerprint kvs (arena.bucket kvs.length) := by
    intro mid ok hmid
    simp only [StepArena.planDecodeBatch] at hmid
    split at hmid
    · split at hmid
      · exact Or.inr (by rw [← (Prod.mk.inj hmid).1])
      · exact Or.inl (Prod.mk.inj hmid).1.symm
    · split at hmid
      · split_ifs at hmid
        · exact Or.inr (by rw [← (Prod.mk.inj hmid).1])
        · exact Or.inr (by rw [← (Prod.mk.inj hmid).1])
      · exact Or.inr (by rw [← (Prod.mk.inj hmid).1])
  split at hp
  · rename_i mid hmid
    split at hp
    · obtain ⟨rfl, -⟩ := Prod.mk.inj hp
      exact (hplan _ _ hmid).imp_right fun hs => ⟨hentry.1, _, hs⟩
    · simp at hp
  · rename_i mid hmid
    obtain ⟨rfl, -⟩ := Prod.mk.inj hp
    exact (hplan _ _ hmid).imp_right fun hs => ⟨hentry.1, _, hs⟩

/-- a batch just fingerprinted and not moved, whatever the tables hold -/
theorem inv_fresh {serve : GemmaServe} {st : Engine} (h : Inv serve st) {ids : List ℕ} {kvs : List RankKv} {padded : ℕ}
    {arena : StepArena} (hb : st.batch ids = some kvs) (hne : kvs ≠ [])
    (hs : arena.steady = decodeFingerprint kvs padded) : Inv serve { st with arena := arena } where
  named := h.named
  steady := by
    intro f hf
    have hheld := batch_held h hb
    have htaken : decodeFingerprint kvs padded = some f := hs.symm.trans hf
    refine ⟨kvs, ?_, hne, fun kv hkv => (h.named _ _ (hheld kv hkv)).2, ?_, Or.inl ?_⟩
    · rw [(decodeFingerprint_rows htaken).1]
      exact htaken
    · intro kv hkv r hr
      obtain rfl : (⟨kv, true⟩ : Req) = r := Option.some.inj ((hheld kv hkv).symm.trans hr)
      exact ⟨rfl, Grew.refl _⟩
    · intro kv hkv r hr
      obtain rfl : (⟨kv, true⟩ : Req) = r := Option.some.inj ((hheld kv hkv).symm.trans hr)
      rfl

theorem inv_no_steady {serve : GemmaServe} {st : Engine} (hn : ∀ id r, st.reqs id = some r → r.kv.id = id ∧ id < st.nextId)
    (hs : st.arena.steady = none) : Inv serve st :=
  ⟨hn, fun f hf => by rw [hs] at hf; cases hf⟩

/-- the loop over the rows only moves requests on -/
theorem advanceRows_grew (window : ℕ) (rows : List (ℕ × ℕ)) (reqs : ℕ → Option Req) (id : ℕ) (r' : Req)
    (h : Engine.advanceRows window reqs rows id = some r') :
    ∃ r, reqs id = some r ∧ r'.active = r.active ∧ Grew r.kv r'.kv := by
  induction rows generalizing reqs with
  | nil => exact ⟨r', h, rfl, Grew.refl _⟩
  | cons row rows ih =>
    obtain ⟨i, count⟩ := row
    simp only [Engine.advanceRows] at h
    cases hr : reqs i with
    | none =>
      simp only [hr] at h
      exact ih _ h
    | some r =>
      simp only [hr] at h
      cases hkv : r.kv.advanceStep count window with
      | error e =>
        simp only [hkv] at h
        exact ⟨r', h, rfl, Grew.refl _⟩
      | ok kv =>
        simp only [hkv] at h
        obtain ⟨x, hx, ha, hg⟩ := ih _ h
        by_cases hi : id = i
        · subst hi
          obtain rfl : ({ r with kv := kv } : Req) = x := by simpa using hx
          exact ⟨r, hr, ha, (RankKv.advanceStep_grew hkv).trans hg⟩
        · exact ⟨x, by simpa [hi] using hx, ha, hg⟩

theorem advanceRows_named {st : Engine} (hn : ∀ id r, st.reqs id = some r → r.kv.id = id ∧ id < st.nextId)
    (window : ℕ) (rows : List (ℕ × ℕ)) (id : ℕ) (r : Req) (h : Engine.advanceRows window st.reqs rows id = some r) :
    r.kv.id = id ∧ id < st.nextId := by
  obtain ⟨r₀, hr₀, -, hg⟩ := advanceRows_grew window rows st.reqs id r h
  exact ⟨hg.id.trans (hn id r₀ hr₀).1, (hn id r₀ hr₀).2⟩

theorem inv_decode {serve : GemmaServe} {st : Engine} (h : Inv serve st) {ids : List ℕ} {kvs : List RankKv}
    (hb : st.batch ids = some kvs) (fault : Fault) (garbage : Tables) :
    Inv serve (st.decodeBatchStep serve ids kvs fault garbage) := by
  simp only [Engine.decodeBatchStep]
  split
  · rename_i arena padded hp
    obtain ⟨hne, hle, hs, j, t, hload⟩ := prepare_some h hb (Or.inl rfl) hp
    split_ifs with hbody
    · exact inv_fresh h hb hne hs
    · -- the body ran: the tables are the batch's one token on, wherever the loop over the rows stopped
      refine ⟨fun id r hr => advanceRows_named h.named _ _ id r hr, ?_⟩
      intro f hf
      have hheld := batch_held h hb
      have htaken : decodeFingerprint kvs padded = some f := hs.symm.trans hf
      have hpad := (decodeFingerprint_rows htaken).1
      refine ⟨kvs, hpad.symm ▸ htaken, hne, fun kv hkv => (h.named _ _ (hheld kv hkv)).2, ?_, Or.inr ⟨j, t, ?_⟩⟩
      · intro kv hkv r hr
        obtain ⟨r₀, hr₀, ha, hg⟩ := advanceRows_grew _ _ _ _ r hr
        obtain rfl : (⟨kv, true⟩ : Req) = r₀ := Option.some.inj ((hheld kv hkv).symm.trans hr₀)
        exact ⟨ha, hg⟩
      · rw [hpad]
        exact hload.advance hle
  · rename_i arena hp
    rcases prepare_none hp with rfl | ⟨hne, padded, hs⟩
    · exact h
    · exact inv_fresh h hb hne hs

theorem inv_mixed {serve : GemmaServe} {st : Engine} (h : Inv serve st) (prefills : List (RankKv × ℕ)) (ids : List ℕ)
    (kvs : List RankKv) (fault : Fault) (garbage : Tables) :
    Inv serve (st.mixedStep serve prefills ids kvs fault garbage) := by
  simp only [Engine.mixedStep]
  split
  · exact h
  · split
    · split
      · exact inv_no_steady (fun id r hr => advanceRows_named h.named _ _ id r hr) rfl
      · exact inv_no_steady h.named rfl
    · exact inv_no_steady h.named rfl

/-- **One operation keeps the invariant.** -/
theorem step_inv {serve : GemmaServe} {st st' : Engine} {op : Op} (h : Inv serve st) (hs : step serve st op = .ok st') :
    Inv serve st' := by
  cases op with
  | spawn slide span =>
    cases hs
    refine h.keeps ⟨Nat.le_succ _, ?_, ?_⟩ rfl rfl
    · intro id r hr
      by_cases hid : id = st.nextId
      · subst hid
        obtain rfl : (⟨⟨slide, span, st.nextId⟩, false⟩ : Req) = r := by simpa using hr
        exact ⟨rfl, Nat.lt_succ_self _⟩
      · have := h.named id r (by simpa [hid] using hr)
        exact ⟨this.1, this.2.trans (Nat.lt_succ_self _)⟩
    · intro id r hid hr
      exact ⟨r, by simpa [hid.ne] using hr, fun ha => ⟨ha, Grew.refl _, rfl⟩⟩
  | admitTokens id n l g =>
    simp only [step] at hs
    split at hs
    · rename_i r hr
      split at hs
      · rename_i kv hkv
        cases hs
        refine h.keeps (keeps_update h.named hr (RankKv.admitTokens_grew hkv).id fun ha => ?_) rfl rfl
        exact ⟨ha, RankKv.admitTokens_grew hkv, RankKv.admitTokens_frontier hkv⟩
      · cases hs
        exact h
    · cases hs
  | prefill id count => exact inv_outside h (fun _ _ hkv => (RankKv.advanceStep_grew hkv).id) hs
  | launch id count =>
    simp only [step] at hs
    refine inv_outside h (fun kv kv' hkv => ?_) hs
    cases hkv
    rfl
  | releaseWindow id =>
    simp only [step] at hs
    refine inv_outside h (fun kv kv' hkv => ?_) hs
    split at hkv
    · cases hkv
      rfl
    · cases hkv
  | join id =>
    simp only [step] at hs
    split at hs
    · rename_i r hr
      cases hs
      exact h.keeps (keeps_update h.named hr rfl fun _ => ⟨rfl, Grew.refl _, rfl⟩) rfl rfl
    · cases hs
  | retire id =>
    cases hs
    have hold : ∀ i r, Function.update st.reqs id none i = some r → st.reqs i = some r := by
      intro i r hr
      by_cases hi : i = id
      · subst hi
        simp at hr
      · simpa [hi] using hr
    exact h.keeps ⟨le_rfl, fun i r hr => h.named i r (hold i r hr),
      fun i r _ hr => ⟨r, hold i r hr, fun ha => ⟨ha, Grew.refl _, rfl⟩⟩⟩ rfl rfl
  | decode ids fault garbage =>
    simp only [step] at hs
    split at hs
    · rename_i kvs hb
      cases hs
      exact inv_decode h hb fault garbage
    · cases hs
  | mixed prefills ids fault garbage =>
    simp only [step] at hs
    split at hs
    · cases hs
      exact inv_mixed h _ _ _ fault garbage
    · cases hs
  | warm id bucket fault garbage =>
    simp only [step] at hs
    split at hs
    · rename_i kvs hb
      split at hs
      · rename_i arena padded hp
        obtain ⟨hne, -, hsteady, -⟩ := prepare_some h hb (Or.inr rfl) hp
        split_ifs at hs
        · cases hs
          exact inv_fresh h hb hne hsteady
        · cases hs
          exact inv_fresh h hb hne hsteady
      · rename_i arena hp
        cases hs
        rcases prepare_none hp with rfl | ⟨hne, padded, hsteady⟩
        · exact inv_no_steady h.named rfl
        · exact inv_fresh h hb hne hsteady
    · cases hs
  | sweepEnd =>
    cases hs
    exact h.keeps ⟨le_rfl, h.named, fun i r _ hr => ⟨r, hr, fun ha => ⟨ha, Grew.refl _, rfl⟩⟩⟩ rfl rfl

theorem run_inv {serve : GemmaServe} {maxRows : ℕ} {tables : Tables} {ops : List Op} {st : Engine}
    (h : run (step serve) (Engine.new maxRows tables) ops = .ok st) : Inv serve st := by
  have h₀ : Inv serve (Engine.new maxRows tables) :=
    inv_no_steady (fun id r hr => by cases hr) rfl
  exact run_invariant (I := fun _ s => Inv serve s) _ h₀ (fun _ _ _ _ hI _ hs => step_inv hI hs) ops st
    (stepsMeet_true _ _) h

/-! ## The fast path -/

/-- **Steady decode is exact.** In every run, where a plan takes the fast path, the buffers the step then reads hold,
for every row of the batch, what the full plan of the same batch would upload, and every padding row is on the padding
pages. -/
theorem steady_decode_exact (serve : GemmaServe) (maxRows : ℕ) (tables : Tables) (ops : List Op) (st : Engine)
    (hrun : run (step serve) (Engine.new maxRows tables) ops = .ok st) (ids : List ℕ) (kvs : List RankKv)
    (hbatch : st.batch ids = some kvs) (padded : ℕ) (hfast : st.arena.regular kvs padded = true) (fault : Fault)
    (garbage : Tables) (arena : StepArena)
    (hplan : st.arena.planDecodeBatch serve kvs padded fault garbage = (arena, true)) :
    ∃ plan, fullPlan serve kvs padded = .ok plan ∧ Agrees serve kvs.length arena.tables plan ∧
      ∃ p, ∀ r, kvs.length ≤ r → r < padded → OnPaddingPage serve arena.tables r p := by
  have hinv := run_inv hrun
  simp only [StepArena.planDecodeBatch, hfast, if_true] at hplan
  split at hplan
  · rename_i hforM
    obtain ⟨rfl, -⟩ := Prod.mk.inj hplan
    have hbounds := checkStepBounds_of_forM hforM
    obtain ⟨hne, hcov, j, t, hload⟩ := loaded_of_regular hinv hbatch hfast hbounds
    obtain ⟨plan, hfull, hagrees⟩ := hload.agrees hne fun kv hkv => ⟨hcov kv hkv, hbounds kv hkv⟩
    exact ⟨plan, hfull, hagrees, j, fun r hr hr' => hload.onPaddingPage hne hr hr'⟩
  · simp at hplan

def noTables : Tables :=
  ⟨[], [], [], [], ⟨[], [], [], []⟩, [], [], [], ⟨[], [], [], ⟨[], [], [], []⟩⟩, []⟩

/-- three requests whose second decode step takes the fast path, in a bucket of four -/
def steadyOps : List Op :=
  [.spawn ⟨[5], 0, 3⟩ ⟨[7], 3⟩, .spawn ⟨[6], 0, 10⟩ ⟨[8], 10⟩, .spawn ⟨[4], 0, 20⟩ ⟨[9], 20⟩, .join 0, .join 1, .join 2,
    .decode [2, 0, 1] .none noTables]

def steadyServe : GemmaServe := ⟨128, 2, 1024, 0, 1, by decide⟩

theorem steady_decode_exact_three : ∃ st kvs arena,
    run (step steadyServe) (Engine.new 4 noTables) steadyOps = .ok st ∧ st.batch [2, 0, 1] = some kvs ∧
      st.arena.regular kvs 4 = true ∧ st.arena.planDecodeBatch steadyServe kvs 4 .none noTables = (arena, true) ∧
      arena.tables.positions = [21, 4, 11, 1] ∧
      ∃ plan, fullPlan steadyServe kvs 4 = .ok plan ∧ Agrees steadyServe kvs.length arena.tables plan ∧
        ∃ p, ∀ r, kvs.length ≤ r → r < 4 → OnPaddingPage steadyServe arena.tables r p := by
  refine ⟨_, _, _, rfl, rfl, rfl, rfl, rfl, ?_⟩
  exact steady_decode_exact steadyServe 4 noTables steadyOps _ rfl [2, 0, 1] _ rfl 4 rfl .none noTables _ rfl

end Pegainfer.Gemma4
