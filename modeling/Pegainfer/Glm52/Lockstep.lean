/-
The slot and its KV, side by side.

The slot state counts prompt rows fed and tokens completed; the request's KV counts positions, tokens and blocks. The
submit walk schedules each span by its kind, the apply walk commits it by its outcome, and either ends the engine when
the two disagree.
- `submit`, `apply`: the two walks for one slot, with the checks that are fatal.
- `Lane`: one slot's run. Between its calls other requests move the pool (`environment`).
- `Locked`: the two counts agree; the blocks held and the free ones cover the lifetime.
- `submit_carried`, `apply_carried`: each walk succeeds and keeps `Locked`.
- `slot_kv_lockstep`: no granted run fails.
-/
import Mathlib.Tactic
import Pegainfer.Lib.Machine
import Pegainfer.Kvbm.FreeList
import Pegainfer.Kvbm.Carried
import Pegainfer.Glm52.Slot
import Pegainfer.Glm52.Handoff

set_option linter.unusedSectionVars false

namespace Pegainfer.Glm52

open Pegainfer.Kvbm Pegainfer.Kvbm.SchedulableSequence Pegainfer.KvStore Pegainfer.Lib
open Pegainfer.Frontend (FinishReason)

variable {H : Type} [DecidableEq H] [BlockHash H]

/-! ## The two walks -/

inductive SpanKind
  | prefillChunk
  | prefillBoundary
  | decode
  | speculative
deriving DecidableEq, Repr

structure ActiveRequest (H : Type) where
  state : Glm52SlotState
  kv : SchedulableSequence H

/-- what ends the engine -/
inductive StepError
  /-- the span starts at one position, the KV pool is at another -/
  | drift (position kvPosition : ℕ)
  /-- the schedule violated the full-lifetime reservation -/
  | reservation (kind : SpanKind) (span : ℕ) (result : CallResult)
  | unpaired (outcome : Glm52StepOutcome) (kind : Option SpanKind)
  | apply (result : CallResult)
  | panic (message : String)
deriving DecidableEq, Repr

/-- the kind of a span of the slot -/
def spanKind (state : Glm52SlotState) (span : ℕ) : SpanKind :=
  if state.midPrefill then if state.remainingPrompt = span then .prefillBoundary else .prefillChunk
  else if span = 1 then .decode
  else .speculative

def SpanKind.schedule (span : ℕ) : SpanKind → Call
  | .prefillChunk | .prefillBoundary => .schedulePrefill span
  | .decode => .scheduleDecode
  | .speculative => .scheduleSpeculative span

/-- `submit_and_join_step` for one slot: the rows' inputs, the position check, the schedule -/
def submit (active : ActiveRequest H) (span : ℕ) (σ : BlockStore H) :
    Except StepError (SpanKind × ActiveRequest H × BlockStore H) :=
  match (List.range span).mapM active.state.nextInputAt with
  | .error e => .error (.panic e)
  | .ok inputs =>
    match inputs[0]? with
    | none => .error (.panic "index out of bounds")
    | some first =>
      if first.position ≠ active.kv.kvPosition then .error (.drift first.position active.kv.kvPosition)
      else
        let kind := spanKind active.state span
        match active.kv.call (kind.schedule span) σ with
        | .error e => .error (.panic e)
        | .ok (.done, kv, σ') => .ok (kind, { active with kv := kv }, σ')
        | .ok (result, _, _) => .error (.reservation kind span result)

/-- the KV call of an outcome under the kind its span was scheduled with -/
def applyCall (outcome : Glm52StepOutcome) (kind : Option SpanKind) : Except StepError Call :=
  match outcome, kind with
  | .prefilling, some .prefillChunk => .ok (.applyPrefill none)
  | .commit (token :: _) _ _ _, some .prefillBoundary => .ok (.applyPrefill (some token))
  | .commit (token :: _) _ _ _, some .decode => .ok (.applyDecode token)
  | .commit [] _ _ _, some .prefillBoundary => .error (.panic "index out of bounds")
  | .commit [] _ _ _, some .decode => .error (.panic "index out of bounds")
  | .commit committed _ _ _, some .speculative => .ok (.applySpeculative committed)
  | outcome, kind => .error (.unpaired outcome kind)

attribute [grind =] applyCall

/-- `apply_step_outputs` for one slot, up to its client events -/
def apply (active : ActiveRequest H) (outputs eosTokenIds : List Token) (kind : Option SpanKind) (σ : BlockStore H) :
    Except StepError (Glm52StepOutcome × ActiveRequest H × BlockStore H) :=
  match active.state.advanceSpan outputs eosTokenIds with
  | .error e => .error (.panic e)
  | .ok (state, outcome) =>
    match applyCall outcome kind with
    | .error e => .error e
    | .ok call =>
      match active.kv.call call σ with
      | .error e => .error (.panic e)
      | .ok (.done, kv, σ') => .ok (outcome, ⟨state, kv⟩, σ')
      | .ok (result, _, _) => .error (.apply result)

/-! ## Admission -/

/-- a plain intake: the KV matches its prefix, the slot starts after it -/
def admitPlain (prompt : List Token) (maxTokens : ℕ) (ignoreEos prefixCache : Bool) (salt : SaltHash)
    (σ : BlockStore H) : Except String (Except ScheduleError (ActiveRequest H) × BlockStore H) :=
  let kv : SchedulableSequence H := new prompt maxTokens PAGE salt
  if prefixCache then
    match kv.matchAndAddPrefix σ with
    | .error e => .error e
    | .ok (.error e, _, σ) => .ok (.error e, σ)
    | .ok (.ok blocks, kv, σ) => .ok (.ok ⟨.new prompt maxTokens ignoreEos (blocks * kv.blockSize), kv⟩, σ)
  else .ok (.ok ⟨.new prompt maxTokens ignoreEos 0, kv⟩, σ)

/-- a native intake: the KV is restored, the slot resumes after the replayed anchor with the handed-over drafts -/
def admitNative (prompt : List Token) (anchor : Token) (maxTokens : ℕ) (ignoreEos : Bool) (salt : SaltHash)
    (pfx : KvPrefix H) (handoff : NativeMtpHandoff) (draftLen : ℕ) (σ : BlockStore H) :
    Except String (Except RestoreError (ActiveRequest H) × BlockStore H) :=
  match restoreNativeKv (new (prompt ++ [anchor]) maxTokens PAGE salt) pfx handoff σ with
  | .error e => .error e
  | .ok (.error e, _, σ) => .ok (.error e, σ)
  | .ok (.ok _, kv, σ) =>
    let state := (Glm52SlotState.new (prompt ++ [anchor]) maxTokens ignoreEos handoff.committedLen).seedNativePdReplayedAnchor
    .ok (.ok ⟨state.setDrafts handoff.draftTokens draftLen, kv⟩, σ)

/-! ## One slot's run -/

structure Lane (H : Type) where
  active : ActiveRequest H
  store : BlockStore H
  /-- the span in flight: what it was scheduled as, and its rows -/
  span : Option (SpanKind × ℕ)
  finish : Option FinishReason

inductive LaneOp (H : Type)
  | setDrafts (drafts : List Token) (spanDrafts : ℕ)
  | submit (span : ℕ)
  | apply (outputs : List Token)
  | environment (σ : BlockStore H)

namespace Lane

def start (active : ActiveRequest H) (σ : BlockStore H) : Lane H := ⟨active, σ, none, none⟩

def finishOf : Glm52StepOutcome → Option FinishReason
  | .prefilling => none
  | .commit _ _ finish _ => finish

def step (eosTokenIds : List Token) (l : Lane H) : LaneOp H → Except StepError (Lane H)
  | .setDrafts drafts spanDrafts =>
    .ok { l with active := { l.active with state := l.active.state.setDrafts drafts spanDrafts } }
  | .submit span =>
    match Glm52.submit l.active span l.store with
    | .error e => .error e
    | .ok (kind, active, σ) => .ok { l with active := active, store := σ, span := some (kind, span) }
  | .apply outputs =>
    match Glm52.apply l.active outputs eosTokenIds (l.span.map Prod.fst) l.store with
    | .error e => .error e
    | .ok (outcome, active, σ) => .ok ⟨active, σ, none, finishOf outcome⟩
  | .environment σ => .ok { l with store := σ }

/-- others leave the request's guards alone, and as many free blocks as its lifetime still needs -/
def Leaves (lifetime : ℕ) (kv : SchedulableSequence H) (σ : BlockStore H) : Prop :=
  (∃ F, Inv σ (kv.holdings + F)) ∧ lifetime ≤ σ.free.length + kv.residentBlocks

/-- what the loop does: drafts between steps, a non-empty span of at most what the slot wants, one output a row -/
def Granted (lifetime : ℕ) (l : Lane H) : LaneOp H → Prop
  | .setDrafts _ _ => l.span = none
  | .submit span => l.span = none ∧ l.finish = none ∧ 0 < span ∧ span ≤ l.active.state.feedWant
  | .apply outputs => ∃ kind, l.span = some (kind, outputs.length)
  | .environment σ => Leaves lifetime l.active.kv σ

end Lane

/-! ## Consuming outputs -/

/-- what a span consumes of its agreed tokens: all of them, or up to the one that stops the request -/
theorem consume_bounds (eos tokens : List Token) : ∀ s : Glm52SlotState, s.completion < s.maxTokens →
    let r := s.consume eos tokens
    consumedOf r ≤ tokens.length ∧ (tokens ≠ [] → 0 < consumedOf r) ∧
      (r.2.2 = none → consumedOf r = tokens.length ∧ r.1.completion < r.1.maxTokens) := by
  induction tokens with
  | nil => exact fun s hs => ⟨le_rfl, fun h => absurd rfl h, fun _ => ⟨rfl, hs⟩⟩
  | cons token tokens ih =>
    intro s hs
    simp only [Glm52SlotState.consume]
    split_ifs with heos hmax
    · exact ⟨by simp [consumedOf], by simp [consumedOf], fun h => by cases h⟩
    · exact ⟨by simp [consumedOf], by simp [consumedOf], fun h => by cases h⟩
    · have hroom : s.completion + 1 < s.maxTokens := by simpa using hmax
      obtain ⟨hle, -, hgo⟩ := ih { s with completion := s.completion + 1, lastToken := token } hroom
      rw [consumedOf_succ]
      refine ⟨by simpa using hle, by simp, ?_⟩
      intro hnone
      obtain ⟨hall, hlt⟩ := hgo hnone
      exact ⟨by simpa using hall, hlt⟩

/-- a committed span, as the KV sees it -/
structure Committed (s s' : Glm52SlotState) (rows : ℕ) (committed : List Token) (finish : Option FinishReason) :
    Prop where
  prompt : s'.prompt = s.prompt
  budget : s'.maxTokens = s.maxTokens
  fed : s'.fed = s.fed
  completion : s'.completion = s.completion + committed.length
  some_tokens : committed ≠ []
  at_most : committed.length ≤ rows
  goes_on : finish = none → s'.completion < s'.maxTokens

theorem commitSpan_committed (eos : List Token) (contextRows : ℕ) {s : Glm52SlotState} {committed : List Token} {rows : ℕ}
    (hroom : s.completion < s.maxTokens) (hne : committed ≠ []) (hrows : committed.length ≤ rows) :
    ∃ s' taken emit finish, s.commitSpan eos committed contextRows = (s', .commit taken emit finish contextRows) ∧
      Committed s s' rows taken finish := by
  obtain ⟨hle, hpos, hgo⟩ := consume_bounds eos committed { s with drafts := [] } hroom
  obtain ⟨h1, h2, -, h4, -, h6⟩ := @consume_frame eos committed { s with drafts := [] }
  have hlen : (committed.take (consumedOf (Glm52SlotState.consume eos { s with drafts := [] } committed))).length =
      consumedOf (Glm52SlotState.consume eos { s with drafts := [] } committed) := by
    rw [List.length_take, min_eq_left hle]
  refine ⟨_, _, _, _, rfl, h1, h2, h4, ?_, ?_, ?_, fun hnone => (hgo hnone).2⟩
  · exact h6.trans (congrArg _ hlen.symm)
  · intro hnil
    have := hpos hne
    have hzero := congrArg List.length hnil
    simp only [List.length_nil] at hzero
    have := hlen.symm.trans hzero
    omega
  · exact (hlen.le.trans hle).trans hrows

theorem advanceSpan_chunk (eos : List Token) {s : Glm52SlotState} {outputs : List Token} (hmid : s.midPrefill = true)
    (hlt : s.fed + outputs.length < s.prompt.length) :
    s.advanceSpan outputs eos = .ok ({ s with fed := s.fed + outputs.length }, .prefilling) := by
  have hstill : ({ s with fed := s.fed + outputs.length } : Glm52SlotState).midPrefill = true := decide_eq_true hlt
  simp [Glm52SlotState.advanceSpan, hmid, hstill]

theorem advanceSpan_boundary (eos : List Token) {s : Glm52SlotState} {outputs : List Token} (hmid : s.midPrefill = true)
    (heq : s.fed + outputs.length = s.prompt.length) (hroom : s.completion < s.maxTokens) :
    ∃ s' taken emit finish rows, s.advanceSpan outputs eos = .ok (s', .commit taken emit finish rows) ∧
      Committed { s with fed := s.fed + outputs.length } s' 1 taken finish := by
  have hdone : ({ s with fed := s.fed + outputs.length } : Glm52SlotState).midPrefill = false :=
    decide_eq_false (not_lt.2 heq.ge)
  have hne : outputs ≠ [] := by
    rintro rfl
    have hlt : s.fed < s.prompt.length := of_decide_eq_true hmid
    simp only [List.length_nil] at heq
    omega
  obtain ⟨s', taken, emit, finish, hcommit, hspec⟩ := commitSpan_committed eos outputs.length
    (s := { s with fed := s.fed + outputs.length }) hroom (List.cons_ne_nil (outputs.getLast hne) []) le_rfl
  refine ⟨s', taken, emit, finish, outputs.length, ?_, hspec⟩
  simp only [Glm52SlotState.advanceSpan, hmid, hdone, List.getLast?_eq_some_getLast hne, if_true, Bool.false_eq_true,
    if_false]
  exact congrArg Except.ok hcommit

theorem advanceSpan_verify (eos : List Token) {s : Glm52SlotState} {outputs : List Token} (hmid : s.midPrefill = false)
    (hne : outputs ≠ []) (hdrafts : outputs.length ≤ 1 + s.drafts.length) (hroom : s.completion < s.maxTokens) :
    ∃ s' taken emit finish rows, s.advanceSpan outputs eos = .ok (s', .commit taken emit finish rows) ∧
      Committed s s' outputs.length taken finish := by
  have hpos := List.length_pos_iff.2 hne
  have hlen : outputs.length = (s.drafts.take (outputs.length - 1)).length + 1 := by
    rw [List.length_take]
    omega
  obtain ⟨n, hn, hacc, -⟩ := acceptPrefixMatch_spec hlen
  have hguard : ¬ (outputs.length = 0 ∨ s.drafts.length < outputs.length - 1) := by omega
  have hcom : outputs.take (n + 1) ≠ [] := by
    simp [hne]
  have hle : (outputs.take (n + 1)).length ≤ outputs.length := List.length_take_le' _ _
  set s₁ : Glm52SlotState :=
    if outputs.length - 1 > 0 then { s with spec := s.spec.record ((outputs.take (n + 1)).length - 1) } else s with hs₁
  have hframe : s₁.prompt = s.prompt ∧ s₁.maxTokens = s.maxTokens ∧ s₁.fed = s.fed ∧ s₁.completion = s.completion := by
    rw [hs₁]
    split_ifs <;> exact ⟨rfl, rfl, rfl, rfl⟩
  obtain ⟨h1, h2, h3, h4⟩ := hframe
  obtain ⟨s', taken, emit, finish, hcommit, hspec⟩ := commitSpan_committed eos
    (outputs.take (n + 1)).length (s := s₁) (by omega) hcom hle
  refine ⟨s', taken, emit, finish, (outputs.take (n + 1)).length, ?_, ?_⟩
  · simp only [Glm52SlotState.advanceSpan, hmid, Bool.false_eq_true, if_false, if_neg hguard, hacc]
    exact congrArg Except.ok hcommit
  · exact ⟨hspec.prompt.trans h1, hspec.budget.trans h2, hspec.fed.trans h3, hspec.completion.trans (by rw [h4]),
      hspec.some_tokens, hspec.at_most, hspec.goes_on⟩

/-! ## The two counts -/

/-- the slot's counters are the KV's, and its lifetime is covered -/
structure Counts (cap : ℕ) (state : Glm52SlotState) (kv : SchedulableSequence H) (σ : BlockStore H) : Prop where
  positions : Positions cap kv
  size : kv.blockSize = PAGE
  unpadded : kv.totalTokens = kv.numInputTokens + kv.generatedTokens
  leaves : Lane.Leaves (divCeil cap PAGE) kv σ
  prompt : state.prompt.length = kv.numInputTokens
  budget : state.maxTokens = kv.maxOutputTokens
  completion : state.completion = kv.generatedTokens
  fed : state.fed = kv.prefillPosition

section Counts

variable {cap : ℕ} {state state' : Glm52SlotState} {kv kv' : SchedulableSequence H} {σ σ' : BlockStore H} {c : Call}

theorem Counts.draws_free (h : Counts cap state kv σ) (c : Call) : kv.draws c ≤ σ.free.length := by
  have hdraw := h.positions.draws_le c
  have hroom := h.leaves.2
  rw [h.size] at hdraw
  omega

theorem Counts.draws_available (h : Counts cap state kv σ) (c : Call) : kv.draws c ≤ σ.available :=
  (h.draws_free c).trans (Nat.le_add_right _ _)

theorem Counts.resident_le (h : Counts cap state kv σ) : kv.residentBlocks ≤ divCeil cap PAGE := by
  have hdraw := h.positions.draws_le .release
  rw [h.size] at hdraw
  omega

/-- a carried-out step of the KV, with a slot state that counts it -/
theorem Counts.step (h : Counts cap state kv σ) (hs : c.steps = true) (hm : c ≠ .matchAndAddPrefix)
    (hc : kv.call c σ = .ok (.done, kv', σ')) (hprompt : state'.prompt.length = kv'.numInputTokens)
    (hbudget : state'.maxTokens = kv'.maxOutputTokens) (hcompletion : state'.completion = kv'.generatedTokens)
    (hfed : state'.fed = kv'.prefillPosition) : Counts cap state' kv' σ' := by
  obtain ⟨F, hinv⟩ := h.leaves.1
  have he : Effect kv c .done kv' := call_effect hc
  have hpad : ∀ pad, c ≠ .padTailBlock pad := by
    rintro pad rfl
    simp [Call.steps] at hs
  refine ⟨he.positions (fun h => absurd h hm) h.positions, he.blockSize.trans h.size, he.unpadded_tokens hpad h.unpadded,
    ⟨⟨F, (call_spec hinv hc).inv⟩, ?_⟩, hprompt, hbudget, hcompletion, hfed⟩
  exact h.leaves.2.trans (call_free hinv hs hc (h.draws_free c))

/-- a schedule moves no counter -/
theorem Counts.schedule (h : Counts cap state kv σ) (hs : c.isSchedule = true)
    (hc : kv.call c σ = .ok (.done, kv', σ')) : Counts cap state kv' σ' := by
  have hsteps : c.steps = true := by
    cases c <;> simp_all [Call.steps, Call.isSchedule]
  have hm : c ≠ .matchAndAddPrefix := by
    rintro rfl
    simp [Call.isSchedule] at hs
  have hframe : kv'.numInputTokens = kv.numInputTokens ∧ kv'.maxOutputTokens = kv.maxOutputTokens ∧
      kv'.generatedTokens = kv.generatedTokens ∧ kv'.prefillPosition = kv.prefillPosition := by
    have he : Effect kv c .done kv' := call_effect hc
    cases he with
    | refused c r hr => exact absurd rfl hr
    | prefillScheduled => exact ⟨rfl, rfl, rfl, rfl⟩
    | decodeScheduled => exact ⟨rfl, rfl, rfl, rfl⟩
    | speculativeScheduled => exact ⟨rfl, rfl, rfl, rfl⟩
    | _ => simp [Call.isSchedule] at hs
  obtain ⟨h1, h2, h3, h4⟩ := hframe
  exact h.step hsteps hm hc (h.prompt.trans h1.symm) (h.budget.trans h2.symm) (h.completion.trans h3.symm)
    (h.fed.trans h4.symm)

theorem Counts.mid_iff (h : Counts cap state kv σ) : state.midPrefill = true ↔ kv.prefillPosition < kv.numInputTokens := by
  rw [Glm52SlotState.midPrefill, decide_eq_true_iff, h.fed, h.prompt]

/-- mid-prefill the next row is the next prompt token -/
theorem Counts.position_mid (h : Counts cap state kv σ) (hmid : state.midPrefill = true) :
    kv.kvPosition = state.fed ∧ state.completion = 0 := by
  obtain ⟨hk, hg, -⟩ := h.positions.prefilling (h.mid_iff.1 hmid)
  exact ⟨hk.trans h.fed.symm, h.completion.trans hg⟩

/-- a request without output has prompt to feed -/
theorem Counts.mid_of_fresh (h : Counts cap state kv σ) (hzero : state.completion = 0) (hmax : 0 < state.maxTokens)
    (hprompt : state.prompt ≠ []) : state.midPrefill = true := by
  rw [h.mid_iff]
  refine lt_of_le_of_ne h.positions.prefill_le ?_
  intro hall
  have hlen := List.length_pos_iff.2 hprompt
  have h1 := h.prompt
  have h2 := h.budget
  have h3 := h.completion
  have h4 := h.unpadded
  rcases h.positions.generating hall with ⟨hg, -⟩ | ⟨-, -, hnone | hnone⟩
  · omega
  · omega
  · omega

theorem Counts.prefilled (h : Counts cap state kv σ) (hmid : state.midPrefill = false) :
    kv.numInputTokens ≤ kv.prefillPosition := by
  by_contra hlt
  have := h.mid_iff.2 (not_le.1 hlt)
  rw [hmid] at this
  cases this

/-- after it the next row is the last token -/
theorem Counts.position_decode (h : Counts cap state kv σ) (hmid : state.midPrefill = false)
    (hone : 1 ≤ state.completion) : kv.kvPosition = state.prompt.length + state.completion - 1 := by
  have hge := h.prefilled hmid
  have hprompt := h.prompt
  have hcompletion := h.completion
  rcases h.positions.generating (le_antisymm h.positions.prefill_le hge) with ⟨-, hk⟩ | ⟨hg, -, -⟩
  · omega
  · omega

theorem Counts.generates (h : Counts cap state kv σ) (hmid : state.midPrefill = false) (hone : 1 ≤ state.completion)
    (hroom : state.completion < state.maxTokens) : kv.Generates := by
  have hge := h.prefilled hmid
  have hposition := h.position_decode hmid hone
  refine ⟨hge, ?_, ?_⟩
  · rw [← h.completion, ← h.budget]
    exact hroom
  · have hprompt := h.prompt
    have hcompletion := h.completion
    have hunpadded := h.unpadded
    omega

end Counts

/-! ## The lockstep -/

/-- a span in flight is scheduled as its kind says, and the slot can take its outputs -/
def InFlight (state : Glm52SlotState) (kv : SchedulableSequence H) (rows : ℕ) : SpanKind → Prop
  | .prefillChunk => (∃ b, kv.state = .prefillScheduled rows b) ∧ state.midPrefill = true ∧
      state.fed + rows < state.prompt.length
  | .prefillBoundary => (∃ b, kv.state = .prefillScheduled rows b) ∧ state.midPrefill = true ∧
      state.fed + rows = state.prompt.length
  | .decode => (∃ b, kv.state = .decodeScheduled b) ∧ state.midPrefill = false ∧ rows = 1
  | .speculative => (∃ b, kv.state = .speculativeScheduled rows b) ∧ state.midPrefill = false ∧
      rows ≤ 1 + state.drafts.length

/-- **The invariant.** Counts agree; between steps the KV is idle, and a request that goes on has output left. -/
structure Locked (cap : ℕ) (l : Lane H) : Prop where
  counts : Counts cap l.active.state l.active.kv l.store
  idle : l.span = none → l.active.kv.state = .idle
  goes_on : l.finish = none → l.active.state.completion < l.active.state.maxTokens ∧
    (l.active.state.midPrefill = false → 1 ≤ l.active.state.completion)
  flight : ∀ kind rows, l.span = some (kind, rows) →
    0 < rows ∧ l.finish = none ∧ InFlight l.active.state l.active.kv rows kind

/-- the rows a granted span asks for, from one position on -/
theorem inputs_ok {cap : ℕ} {l : Lane H} (h : Locked cap l) (hgo : l.finish = none) {rows : ℕ}
    (hrows : rows ≤ l.active.state.feedWant) :
    ∃ token : ℕ → Token, ∀ k ∈ List.range rows,
      l.active.state.nextInputAt k = .ok ⟨token k, l.active.kv.kvPosition + k⟩ := by
  obtain ⟨hroom, hone⟩ := h.goes_on hgo
  unfold Glm52SlotState.feedWant at hrows
  cases hmid : l.active.state.midPrefill with
  | true =>
    obtain ⟨hk, -⟩ := h.counts.position_mid hmid
    rw [hmid, if_pos rfl, Glm52SlotState.remainingPrompt] at hrows
    refine ⟨fun k => l.active.state.prompt.getD (l.active.state.fed + k) 0, ?_⟩
    intro k hkr
    have hlt : l.active.state.fed + k < l.active.state.prompt.length := by
      have := List.mem_range.1 hkr
      omega
    simp [Glm52SlotState.nextInputAt, hmid, List.getElem?_eq_getElem hlt, List.getD_eq_getElem?_getD, hk]
  | false =>
    have hk := h.counts.position_decode hmid (hone hmid)
    rw [hmid, if_neg (by simp)] at hrows
    refine ⟨fun k => if k = 0 then l.active.state.lastToken else l.active.state.drafts.getD (k - 1) 0, ?_⟩
    intro k hkr
    have hlt : k < rows := List.mem_range.1 hkr
    by_cases h0 : k = 0
    · simp [Glm52SlotState.nextInputAt, hmid, h0, hk]
    · have hdraft : k - 1 < l.active.state.drafts.length := by omega
      simp [Glm52SlotState.nextInputAt, hmid, h0, List.getElem?_eq_getElem hdraft, List.getD_eq_getElem?_getD, hk]

/-- **Positions agree.** The next span starts at the KV position. -/
theorem Locked.starts {cap : ℕ} {l : Lane H} (h : Locked cap l) (hgo : l.finish = none) :
    ∃ token, l.active.state.nextInputAt 0 = .ok ⟨token, l.active.kv.kvPosition⟩ := by
  have hwant : 1 ≤ l.active.state.feedWant := by
    obtain ⟨hroom, -⟩ := h.goes_on hgo
    unfold Glm52SlotState.feedWant
    split_ifs with hmid
    · have hlt : l.active.state.fed < l.active.state.prompt.length := of_decide_eq_true hmid
      unfold Glm52SlotState.remainingPrompt
      omega
    · omega
  obtain ⟨token, htoken⟩ := inputs_ok h hgo hwant
  exact ⟨token 0, htoken 0 (List.mem_range.2 Nat.one_pos)⟩

/-- the schedule of a granted span is carried out -/
theorem schedule_carried {cap : ℕ} {l : Lane H} (h : Locked cap l) (hspan : l.span = none) (hgo : l.finish = none)
    {rows : ℕ} (hpos : 0 < rows) (hrows : rows ≤ l.active.state.feedWant) :
    ∃ kv σ, l.active.kv.call ((spanKind l.active.state rows).schedule rows) l.store = .ok (.done, kv, σ) ∧
      InFlight l.active.state kv rows (spanKind l.active.state rows) := by
  obtain ⟨hroom, hone⟩ := h.goes_on hgo
  have hidle := h.idle hspan
  obtain ⟨F, hinv⟩ := h.counts.leaves.1
  unfold Glm52SlotState.feedWant at hrows
  cases hmid : l.active.state.midPrefill with
  | true =>
    rw [hmid, if_pos rfl, Glm52SlotState.remainingPrompt] at hrows
    have hlt := h.counts.mid_iff.1 hmid
    have hend : l.active.kv.prefillPosition + rows ≤ l.active.kv.numInputTokens := by
      have hfed := h.counts.fed
      have hprompt := h.counts.prompt
      omega
    have hdraw := h.counts.draws_available (.schedulePrefill rows)
    have hdef : l.active.kv.draws (.schedulePrefill rows) =
        divCeil (l.active.kv.prefillPosition + rows) l.active.kv.blockSize - l.active.kv.residentBlocks := by
      have hnot : l.active.kv.isPrefillComplete = false := decide_eq_false (not_le.2 hlt)
      simp [draws, hidle, hnot, hend]
    rw [hdef] at hdraw
    obtain ⟨kv, σ, hc⟩ := schedulePrefill_carried hinv hidle hlt hend hdraw
    have hstate : ∃ b, kv.state = .prefillScheduled rows b := by
      have he : Effect l.active.kv (.schedulePrefill rows) .done kv := call_effect hc
      cases he with
      | refused c r hr => exact absurd rfl hr
      | prefillScheduled n ids => exact ⟨_, rfl⟩
    by_cases hall : l.active.state.remainingPrompt = rows
    · have hkind : spanKind l.active.state rows = .prefillBoundary := by simp [spanKind, hmid, hall]
      rw [hkind]
      refine ⟨kv, σ, hc, hstate, hmid, ?_⟩
      unfold Glm52SlotState.remainingPrompt at hall
      omega
    · have hkind : spanKind l.active.state rows = .prefillChunk := by simp [spanKind, hmid, hall]
      rw [hkind]
      refine ⟨kv, σ, hc, hstate, hmid, ?_⟩
      unfold Glm52SlotState.remainingPrompt at hall
      omega
  | false =>
    rw [hmid, if_neg (by simp)] at hrows
    have hgen := h.counts.generates hmid (hone hmid) hroom
    by_cases hsingle : rows = 1
    · have hkind : spanKind l.active.state rows = .decode := by simp [spanKind, hmid, hsingle]
      rw [hkind]
      obtain ⟨kv, σ, hc⟩ := generation_carried hinv hidle hgen (Or.inl rfl) (h.counts.draws_available _)
      refine ⟨kv, σ, hc, ?_, hmid, hsingle⟩
      have he : Effect l.active.kv .scheduleDecode .done kv := call_effect hc
      cases he with
      | refused c r hr => exact absurd rfl hr
      | decodeScheduled ids => exact ⟨_, rfl⟩
    · have hkind : spanKind l.active.state rows = .speculative := by simp [spanKind, hmid, hsingle]
      rw [hkind]
      obtain ⟨kv, σ, hc⟩ := generation_carried hinv hidle hgen (Or.inr ⟨rows, rfl⟩) (h.counts.draws_available _)
      refine ⟨kv, σ, hc, ?_, hmid, by omega⟩
      have hcut : min rows l.active.kv.remainingTokens = rows := by
        refine min_eq_left ?_
        unfold remainingTokens
        rw [← h.counts.budget, ← h.counts.completion]
        omega
      have he : Effect l.active.kv (.scheduleSpeculative rows) .done kv := call_effect hc
      cases he with
      | refused c r hr => exact absurd rfl hr
      | speculativeScheduled n ids =>
        refine ⟨ids.length, ?_⟩
        simp only [drawn, hcut]

/-- **Submit.** A granted span passes the position check and its schedule. -/
theorem submit_carried {cap : ℕ} {l : Lane H} (h : Locked cap l) (hspan : l.span = none) (hgo : l.finish = none)
    {rows : ℕ} (hpos : 0 < rows) (hrows : rows ≤ l.active.state.feedWant) :
    ∃ kind active σ, Glm52.submit l.active rows l.store = .ok (kind, active, σ) ∧
      Locked cap { l with active := active, store := σ, span := some (kind, rows) } := by
  obtain ⟨token, htoken⟩ := inputs_ok h hgo hrows
  obtain ⟨kv, σ, hc, hflight⟩ := schedule_carried h hspan hgo hpos hrows
  refine ⟨spanKind l.active.state rows, { l.active with kv := kv }, σ, ?_, ?_⟩
  · have hfirst : ((List.range rows).map fun k => (⟨token k, l.active.kv.kvPosition + k⟩ : Glm52StepInput))[0]? =
        some ⟨token 0, l.active.kv.kvPosition⟩ := by
      simp [hpos]
    simp only [Glm52.submit, mapM_ok (List.range rows) htoken, hfirst, hc, ne_eq, not_true_eq_false, if_false]
  · have hsched : ((spanKind l.active.state rows).schedule rows).isSchedule = true := by
      cases spanKind l.active.state rows <;> rfl
    refine ⟨h.counts.schedule hsched hc, ?_, h.goes_on, ?_⟩
    · intro hnone
      cases hnone
    intro kind n heq
    obtain ⟨rfl, rfl⟩ : spanKind l.active.state rows = kind ∧ rows = n := by simpa using heq
    exact ⟨hpos, hgo, hflight⟩

/-- what an apply leaves, between steps -/
structure Applied (cap : ℕ) (outcome : Glm52StepOutcome) (active : ActiveRequest H) (σ : BlockStore H) : Prop where
  counts : Counts cap active.state active.kv σ
  idle : active.kv.state = .idle
  goes_on : Lane.finishOf outcome = none → active.state.completion < active.state.maxTokens ∧
    (active.state.midPrefill = false → 1 ≤ active.state.completion)

section Apply

variable {cap : ℕ} {active : ActiveRequest H} {σ : BlockStore H} {outputs : List Token} (eos : List Token)

theorem apply_chunk (h : Counts cap active.state active.kv σ) (hroom : active.state.completion < active.state.maxTokens)
    (hf : InFlight active.state active.kv outputs.length .prefillChunk) :
    ∃ outcome active' σ', Glm52.apply active outputs eos (some .prefillChunk) σ = .ok (outcome, active', σ') ∧
      Applied cap outcome active' σ' := by
  obtain ⟨⟨b, hs⟩, hmid, hlt⟩ := hf
  obtain ⟨F, hinv⟩ := h.leaves.1
  have hfed := h.fed
  have hprompt := h.prompt
  obtain ⟨kv', σ', hc⟩ := applyPrefill_carried (t := none) hinv hs (fun _ => by omega) (fun hne => absurd rfl hne)
  have hadvance := advanceSpan_chunk eos hmid hlt
  refine ⟨.prefilling, ⟨{ active.state with fed := active.state.fed + outputs.length }, kv'⟩, σ', ?_, ?_⟩
  · simp only [Glm52.apply, hadvance, applyCall, hc]
  · have he : Effect active.kv (.applyPrefill none) .done kv' := call_effect hc
    have hframe : kv'.numInputTokens = active.kv.numInputTokens ∧ kv'.maxOutputTokens = active.kv.maxOutputTokens ∧
        kv'.generatedTokens = active.kv.generatedTokens ∧
        kv'.prefillPosition = active.kv.prefillPosition + outputs.length ∧ kv'.state = .idle := by
      cases he with
      | refused c r hr => exact absurd rfl hr
      | prefillApplied n b' t xs hst =>
        obtain ⟨rfl, -⟩ : outputs.length = n ∧ b = b' := by simpa [hs] using hst
        exact ⟨rfl, rfl, rfl, rfl, rfl⟩
    obtain ⟨h1, h2, h3, h4, h5⟩ := hframe
    refine ⟨h.step rfl (by simp) hc (h.prompt.trans h1.symm) (h.budget.trans h2.symm) (h.completion.trans h3.symm) ?_,
      h5, fun _ => ⟨hroom, ?_⟩⟩
    · rw [h4, ← h.fed]
    · intro hnot
      have hstill : decide (active.state.fed + outputs.length < active.state.prompt.length) = true := decide_eq_true hlt
      exact absurd (hstill.symm.trans hnot) (by simp)

theorem apply_boundary (h : Counts cap active.state active.kv σ)
    (hroom : active.state.completion < active.state.maxTokens)
    (hf : InFlight active.state active.kv outputs.length .prefillBoundary) :
    ∃ outcome active' σ', Glm52.apply active outputs eos (some .prefillBoundary) σ = .ok (outcome, active', σ') ∧
      Applied cap outcome active' σ' := by
  obtain ⟨⟨b, hs⟩, hmid, heq⟩ := hf
  obtain ⟨F, hinv⟩ := h.leaves.1
  have hfed := h.fed
  have hprompt := h.prompt
  obtain ⟨s', taken, emit, finish, rows, hadvance, hcom⟩ := advanceSpan_boundary eos hmid heq hroom
  obtain ⟨token, rfl⟩ : ∃ token, taken = [token] :=
    List.length_eq_one_iff.1 (le_antisymm hcom.at_most (List.length_pos_iff.2 hcom.some_tokens))
  have hbudget : active.kv.generatedTokens < active.kv.maxOutputTokens := by
    rw [← h.completion, ← h.budget]
    exact hroom
  obtain ⟨kv', σ', hc⟩ := applyPrefill_carried (t := some token) hinv hs (fun hne => by cases hne)
    (fun _ => ⟨by omega, hbudget⟩)
  refine ⟨.commit [token] emit finish rows, ⟨s', kv'⟩, σ', ?_, ?_⟩
  · simp only [Glm52.apply, hadvance, applyCall, hc]
  · have he : Effect active.kv (.applyPrefill (some token)) .done kv' := call_effect hc
    have hframe : kv'.numInputTokens = active.kv.numInputTokens ∧ kv'.maxOutputTokens = active.kv.maxOutputTokens ∧
        kv'.generatedTokens = active.kv.generatedTokens + 1 ∧
        kv'.prefillPosition = active.kv.prefillPosition + outputs.length ∧ kv'.state = .idle := by
      cases he with
      | refused c r hr => exact absurd rfl hr
      | prefillApplied n b' t xs hst =>
        obtain ⟨rfl, -⟩ : outputs.length = n ∧ b = b' := by simpa [hs] using hst
        exact ⟨rfl, rfl, rfl, rfl, rfl⟩
    obtain ⟨h1, h2, h3, h4, h5⟩ := hframe
    have hcompletion : s'.completion = active.state.completion + 1 := hcom.completion
    have hone : 1 ≤ s'.completion := by omega
    refine ⟨h.step rfl (by simp) hc ?_ ?_ ?_ ?_, h5, fun hnone => ⟨hcom.goes_on hnone, fun _ => hone⟩⟩
    · rw [hcom.prompt, h1]
      exact h.prompt
    · rw [hcom.budget, h2]
      exact h.budget
    · rw [hcompletion, h3, h.completion]
    · rw [hcom.fed, h4, ← h.fed]

theorem apply_verify {kind : SpanKind} (h : Counts cap active.state active.kv σ)
    (hroom : active.state.completion < active.state.maxTokens) (hpos : 0 < outputs.length)
    (hkind : kind = .decode ∨ kind = .speculative) (hf : InFlight active.state active.kv outputs.length kind) :
    ∃ outcome active' σ', Glm52.apply active outputs eos (some kind) σ = .ok (outcome, active', σ') ∧
      Applied cap outcome active' σ' := by
  obtain ⟨F, hinv⟩ := h.leaves.1
  obtain ⟨hmid, hdrafts⟩ : active.state.midPrefill = false ∧ outputs.length ≤ 1 + active.state.drafts.length := by
    rcases hkind with rfl | rfl
    · obtain ⟨-, hmid, hone⟩ := hf
      exact ⟨hmid, by omega⟩
    · exact ⟨hf.2.1, hf.2.2⟩
  obtain ⟨s', taken, emit, finish, rows, hadvance, hcom⟩ :=
    advanceSpan_verify eos hmid (List.length_pos_iff.1 hpos) hdrafts hroom
  have hbudget : active.kv.generatedTokens < active.kv.maxOutputTokens := by
    rw [← h.completion, ← h.budget]
    exact hroom
  -- whatever call commits the tokens, the KV counts them as the slot does
  have hdone : ∀ {c : Call} {kv' : SchedulableSequence H} {σ' : BlockStore H}, c.steps = true → c ≠ .matchAndAddPrefix →
      active.kv.call c σ = .ok (.done, kv', σ') → kv'.numInputTokens = active.kv.numInputTokens →
      kv'.maxOutputTokens = active.kv.maxOutputTokens →
      kv'.generatedTokens = active.kv.generatedTokens + taken.length →
      kv'.prefillPosition = active.kv.prefillPosition → kv'.state = .idle →
      Applied cap (.commit taken emit finish rows) ⟨s', kv'⟩ σ' := by
    intro c kv' σ' hsteps hm hc h1 h2 h3 h4 h5
    have htaken := List.length_pos_iff.2 hcom.some_tokens
    have hcompletion := hcom.completion
    have hone : 1 ≤ s'.completion := by omega
    refine ⟨h.step hsteps hm hc ?_ ?_ ?_ ?_, h5, fun hnone => ⟨hcom.goes_on hnone, fun _ => hone⟩⟩
    · rw [hcom.prompt, h1]
      exact h.prompt
    · rw [hcom.budget, h2]
      exact h.budget
    · rw [hcompletion, h3, h.completion]
    · rw [hcom.fed, h4, h.fed]
  rcases hkind with rfl | rfl
  · obtain ⟨⟨b, hs⟩, -, hone⟩ := hf
    obtain ⟨token, rfl⟩ : ∃ token, taken = [token] := by
      have hle := hcom.at_most
      rw [hone] at hle
      exact List.length_eq_one_iff.1 (le_antisymm hle (List.length_pos_iff.2 hcom.some_tokens))
    obtain ⟨kv', σ', hc⟩ := applyDecode_carried (t := token) hinv hs hbudget
    refine ⟨.commit [token] emit finish rows, ⟨s', kv'⟩, σ', ?_, ?_⟩
    · simp only [Glm52.apply, hadvance, applyCall, hc]
    · have he : Effect active.kv (.applyDecode token) .done kv' := call_effect hc
      cases he with
      | refused c r hr => exact absurd rfl hr
      | decodeApplied b' t xs => exact hdone rfl (by simp) hc rfl rfl rfl rfl rfl
  · obtain ⟨⟨b, hs⟩, -, -⟩ := hf
    have hroom' := (h.positions.inSpeculative _ _ hs).2
    have hfits : active.kv.generatedTokens + taken.length ≤ active.kv.maxOutputTokens := by
      have hle := hcom.at_most
      unfold remainingTokens at hroom'
      omega
    obtain ⟨kv', σ', hc⟩ := applySpeculative_carried hinv hs hcom.at_most hfits
    refine ⟨.commit taken emit finish rows, ⟨s', kv'⟩, σ', ?_, ?_⟩
    · simp only [Glm52.apply, hadvance, applyCall, hc]
    · have he : Effect active.kv (.applySpeculative taken) .done kv' := call_effect hc
      cases he with
      | refused c r hr => exact absurd rfl hr
      | speculativeApplied n b' ts xs => exact hdone rfl (by simp) hc rfl rfl rfl rfl rfl

end Apply

/-- **Apply.** The outputs of a scheduled span pair with its kind, and their KV call is carried out. -/
theorem apply_carried {cap : ℕ} {l : Lane H} (h : Locked cap l) (eos : List Token) {kind : SpanKind}
    {outputs : List Token} (hspan : l.span = some (kind, outputs.length)) :
    ∃ outcome active σ, Glm52.apply l.active outputs eos (some kind) l.store = .ok (outcome, active, σ) ∧
      Locked cap ⟨active, σ, none, Lane.finishOf outcome⟩ := by
  obtain ⟨hpos, hgo, hflight⟩ := h.flight kind _ hspan
  obtain ⟨hroom, -⟩ := h.goes_on hgo
  obtain ⟨outcome, active, σ, happly, hdone⟩ : ∃ outcome active σ,
      Glm52.apply l.active outputs eos (some kind) l.store = .ok (outcome, active, σ) ∧ Applied cap outcome active σ := by
    cases kind with
    | prefillChunk => exact apply_chunk eos h.counts hroom hflight
    | prefillBoundary => exact apply_boundary eos h.counts hroom hflight
    | decode => exact apply_verify eos h.counts hroom hpos (Or.inl rfl) hflight
    | speculative => exact apply_verify eos h.counts hroom hpos (Or.inr rfl) hflight
  exact ⟨outcome, active, σ, happly, hdone.counts, fun _ => hdone.idle, hdone.goes_on, fun _ _ hnone => by cases hnone⟩

/-- **A step.** Every granted event succeeds. -/
theorem step_locked {cap : ℕ} (eos : List Token) (l : Lane H) (o : LaneOp H) (h : Locked cap l)
    (hg : l.Granted (divCeil cap PAGE) o) : ∃ l', l.step eos o = .ok l' ∧ Locked cap l' := by
  cases o with
  | setDrafts drafts spanDrafts =>
    have hnone : l.span = none := hg
    obtain ⟨h1, h2, h3, h4, h5, h6, h7, h8⟩ := h.counts
    refine ⟨_, rfl, ⟨h1, h2, h3, h4, h5, h6, h7, h8⟩, h.idle, h.goes_on, ?_⟩
    intro kind rows hspan
    have hspan : l.span = some (kind, rows) := hspan
    rw [hnone] at hspan
    cases hspan
  | submit span =>
    obtain ⟨hspan, hgo, hpos, hrows⟩ := hg
    obtain ⟨kind, active, σ, hsubmit, hlocked⟩ := submit_carried h hspan hgo hpos hrows
    exact ⟨_, by simp only [Lane.step, hsubmit], hlocked⟩
  | apply outputs =>
    obtain ⟨kind, hspan⟩ := hg
    obtain ⟨outcome, active, σ, happly, hlocked⟩ := apply_carried h eos hspan
    exact ⟨_, by simp only [Lane.step, hspan, Option.map_some, happly], hlocked⟩
  | environment σ =>
    obtain ⟨h1, h2, h3, -, h5, h6, h7, h8⟩ := h.counts
    exact ⟨_, rfl, ⟨h1, h2, h3, hg, h5, h6, h7, h8⟩, h.idle, h.goes_on, h.flight⟩

/-! ## Admitted requests -/

theorem matchAndAddPrefix_ok {q q' : SchedulableSequence H} {σ σ' : BlockStore H} {n : ℕ}
    (h : q.matchAndAddPrefix σ = .ok (.ok n, q', σ')) :
    q.call .matchAndAddPrefix σ = .ok (.done, q', σ') ∧ q'.prefillPosition = q.prefillPosition + n * q.blockSize ∧
      q'.numInputTokens = q.numInputTokens ∧ q'.maxOutputTokens = q.maxOutputTokens ∧
      q'.generatedTokens = q.generatedTokens ∧ q'.state = q.state := by
  refine ⟨by simp [call, h, Except.map, CallResult.ofSchedule], ?_⟩
  unfold matchAndAddPrefix at h
  split_ifs at h
  · cases h
  · split at h
    · cases h
    · simp only at h
      split_ifs at h
      · simp only [Except.ok.injEq, Prod.mk.injEq] at h
        rw [← h.1, ← h.2.1]
        exact ⟨by simp, rfl, rfl, rfl, rfl⟩
      · simp only [Except.ok.injEq, Prod.mk.injEq] at h
        rw [← h.1, ← h.2.1]
        exact ⟨rfl, rfl, rfl, rfl, rfl⟩

/-- a fresh request, and a fresh request after its match -/
theorem counts_new {F : Holdings H} {σ : BlockStore H} (h : Inv σ F) (prompt : List Token) (maxTokens : ℕ)
    (ignoreEos : Bool) (salt : SaltHash) (hfree : lifetimeBlocks prompt.length maxTokens ≤ σ.free.length) :
    Counts (prompt.length + maxTokens) (.new prompt maxTokens ignoreEos 0)
      (new prompt maxTokens PAGE salt : SchedulableSequence H) σ := by
  refine ⟨positions_new prompt maxTokens salt (by decide), rfl, rfl, ⟨⟨F, ?_⟩, ?_⟩, rfl, rfl, rfl, rfl⟩
  · have hzero : (new prompt maxTokens PAGE salt : SchedulableSequence H).holdings = 0 := rfl
    rwa [hzero, zero_add]
  · exact hfree.trans (Nat.le_add_right _ _)

theorem counts_matched {F : Holdings H} {σ σ' : BlockStore H} (h : Inv σ F) {prompt : List Token} {maxTokens n : ℕ}
    (ignoreEos : Bool) {salt : SaltHash} {kv : SchedulableSequence H}
    (hfree : lifetimeBlocks prompt.length maxTokens ≤ σ.free.length)
    (hm : (new prompt maxTokens PAGE salt : SchedulableSequence H).matchAndAddPrefix σ = .ok (.ok n, kv, σ')) :
    Counts (prompt.length + maxTokens) (.new prompt maxTokens ignoreEos (n * PAGE)) kv σ' ∧ kv.state = .idle := by
  obtain ⟨hc, hprefill, hinput, hmax, hgen, hstate⟩ := matchAndAddPrefix_ok hm
  have hnew := counts_new h prompt maxTokens ignoreEos salt hfree
  obtain ⟨G, hinv⟩ := hnew.leaves.1
  have he : Effect (new prompt maxTokens PAGE salt : SchedulableSequence H) .matchAndAddPrefix .done kv := call_effect hc
  refine ⟨⟨he.positions (fun _ _ _ => rfl) hnew.positions, he.blockSize, he.unpadded_tokens (by simp) rfl,
    ⟨⟨G, (call_spec hinv hc).inv⟩, ?_⟩, hinput.symm, hmax.symm, hgen.symm, ?_⟩, hstate⟩
  · exact hnew.leaves.2.trans (call_free hinv rfl hc (Nat.zero_le _))
  · rw [hprefill]
    exact (Nat.zero_add _).symm

/-- restored boundary rows are counted like a chunk -/
theorem counts_boundary {cap rows : ℕ} {state : Glm52SlotState} {kv kv' : SchedulableSequence H} {σ σ' : BlockStore H}
    {pfx : KvPrefix H} {copy : Option (BoundaryCopy H)} (h : Counts cap state kv σ) (hs : kv.state = .idle)
    (hr : restoreBoundary kv pfx rows σ = .ok (.ok copy, kv', σ')) :
    Counts cap { state with fed := state.fed + rows } kv' σ' ∧ kv'.state = .idle := by
  unfold restoreBoundary at hr
  split_ifs at hr with hrows
  · split at hr
    · cases hr
    · cases hr
    · rename_i kv₁ σ₁ hsched
      have hc₁ : kv.call (.schedulePrefill rows) σ = .ok (.done, kv₁, σ₁) := by
        simp [call, hsched, Except.map, CallResult.ofSchedule]
      have hcounts := h.schedule rfl hc₁
      have hstate : ∃ b, kv₁.state = .prefillScheduled rows b := by
        have he : Effect kv (.schedulePrefill rows) .done kv₁ := call_effect hc₁
        cases he with
        | refused c r hne => exact absurd rfl hne
        | prefillScheduled n ids => exact ⟨_, rfl⟩
      obtain ⟨b, hstate⟩ := hstate
      split at hr
      · cases hr
      · split at hr
        · cases hr
        · cases hr
        · rename_i kv₂ σ₂ happly
          have hc₂ : kv₁.call (.applyPrefill none) σ₁ = .ok (.done, kv₂, σ₂) := by
            simp [call, happly, Except.map, CallResult.ofApply]
          split at hr
          · cases hr
          · simp only [Except.ok.injEq, Prod.mk.injEq] at hr
            obtain ⟨-, rfl, rfl⟩ := hr
            have he : Effect kv₁ (.applyPrefill none) .done kv₂ := call_effect hc₂
            have hframe : kv₂.numInputTokens = kv₁.numInputTokens ∧ kv₂.maxOutputTokens = kv₁.maxOutputTokens ∧
                kv₂.generatedTokens = kv₁.generatedTokens ∧ kv₂.prefillPosition = kv₁.prefillPosition + rows ∧
                kv₂.state = .idle := by
              cases he with
              | refused c r hr => exact absurd rfl hr
              | prefillApplied n b' t xs hst =>
                obtain ⟨rfl, -⟩ : rows = n ∧ b = b' := by simpa [hstate] using hst
                exact ⟨rfl, rfl, rfl, rfl, rfl⟩
            obtain ⟨h1, h2, h3, h4, h5⟩ := hframe
            refine ⟨hcounts.step rfl (by simp) hc₂ (hcounts.prompt.trans h1.symm) (hcounts.budget.trans h2.symm)
              (hcounts.completion.trans h3.symm) ?_, h5⟩
            rw [h4, ← hcounts.fed]
  · obtain rfl : rows = 0 := by omega
    simp only [Except.ok.injEq, Prod.mk.injEq] at hr
    obtain ⟨-, rfl, rfl⟩ := hr
    exact ⟨h, hs⟩

/-- an adopted anchor leaves the prompt and is the first token -/
theorem counts_adopted (state' : Glm52SlotState) {cap : ℕ} {state : Glm52SlotState} {kv kv' : SchedulableSequence H} {σ : BlockStore H}
    (h : Counts cap state kv σ) (ha : kv.adoptExternalPrefillAnchor = (.ok (), kv'))
    (hprompt : state'.prompt.length + 1 = state.prompt.length) (hbudget : state'.maxTokens = state.maxTokens)
    (hcompletion : state'.completion = state.completion + 1) (hfed : state'.fed = kv.kvPosition) :
    Counts cap state' kv' σ ∧ kv'.state = .idle ∧ state'.midPrefill = false := by
  have hc : kv.call .adoptExternalPrefillAnchor σ = .ok (.done, kv', σ) := by
    simp [call, ha, CallResult.ofApply]
  obtain ⟨F, hinv⟩ := h.leaves.1
  have he : Effect kv .adoptExternalPrefillAnchor .done kv' := call_effect hc
  have hpos := he.positions (fun hm => by cases hm) h.positions
  have htok := he.unpadded_tokens (by simp) h.unpadded
  have hinv' := (call_spec hinv hc).inv
  have hprompt₀ := h.prompt
  cases he with
  | refused c r hr => exact absurd rfl hr
  | adopted hs hk hp ht hg =>
    refine ⟨⟨hpos, h.size, htok, ⟨⟨F, hinv'⟩, h.leaves.2⟩, ?_, hbudget.trans h.budget, ?_, ?_⟩, hs, ?_⟩
    · show state'.prompt.length = kv.numInputTokens - 1
      omega
    · rw [hcompletion, h.completion]
    · rw [hfed]
      exact hk.symm
    · refine decide_eq_false ?_
      omega

/-- how a request comes to its slot, and the lifetime it was admitted with; the intake checks the prompt and the budget -/
inductive Admitted (σ : BlockStore H) : ℕ → ActiveRequest H → BlockStore H → Prop
  | plain (prompt : List Token) (maxTokens : ℕ) (ignoreEos prefixCache : Bool) (salt : SaltHash)
      (active : ActiveRequest H) (σ' : BlockStore H) (hprompt : prompt ≠ []) (hmax : 0 < maxTokens)
      (h : admitPlain prompt maxTokens ignoreEos prefixCache salt σ = .ok (.ok active, σ')) :
      Admitted σ (lifetimeBlocks prompt.length maxTokens) active σ'
  | native (prompt : List Token) (anchor : Token) (maxTokens : ℕ) (ignoreEos : Bool) (salt : SaltHash)
      (pfx : KvPrefix H) (handoff : NativeMtpHandoff) (draftLen : ℕ) (active : ActiveRequest H) (σ' : BlockStore H)
      (hlen : prompt.length = handoff.committedLen) (hmax : 1 < maxTokens)
      (h : admitNative prompt anchor maxTokens ignoreEos salt pfx handoff draftLen σ = .ok (.ok active, σ')) :
      Admitted σ (lifetimeBlocks (nativeKvShape maxTokens handoff).inputTokens
        (nativeKvShape maxTokens handoff).maxOutputTokens) active σ'

theorem plain_locked {F : Holdings H} {σ σ' : BlockStore H} {prompt : List Token} {maxTokens : ℕ}
    {ignoreEos prefixCache : Bool} {salt : SaltHash} {active : ActiveRequest H} (h : Inv σ F) (hprompt : prompt ≠ [])
    (hmax : 0 < maxTokens) (hfree : lifetimeBlocks prompt.length maxTokens ≤ σ.free.length)
    (ha : admitPlain prompt maxTokens ignoreEos prefixCache salt σ = .ok (.ok active, σ')) :
    Locked (prompt.length + maxTokens) (Lane.start active σ') := by
  obtain ⟨n, hcounts, hidle, hstate⟩ : ∃ n, Counts (prompt.length + maxTokens) active.state active.kv σ' ∧
      active.kv.state = .idle ∧ active.state = .new prompt maxTokens ignoreEos n := by
    unfold admitPlain at ha
    cases prefixCache with
    | true =>
      simp only [if_true] at ha
      split at ha
      · cases ha
      · cases ha
      · rename_i n kv σ₁ hm
        obtain ⟨hcounts, hidle⟩ := counts_matched h ignoreEos hfree hm
        simp only [Except.ok.injEq, Prod.mk.injEq] at ha
        obtain ⟨rfl, rfl⟩ := ha
        rw [hcounts.size]
        exact ⟨n * PAGE, hcounts, hidle, rfl⟩
    | false =>
      simp only [Bool.false_eq_true, if_false, Except.ok.injEq, Prod.mk.injEq] at ha
      obtain ⟨rfl, rfl⟩ := ha
      exact ⟨0, counts_new h prompt maxTokens ignoreEos salt hfree, rfl, rfl⟩
  have hmid : active.state.midPrefill = true := by
    refine hcounts.mid_of_fresh ?_ ?_ ?_ <;> rw [hstate]
    · rfl
    · exact hmax
    · exact hprompt
  refine ⟨hcounts, fun _ => hidle, fun _ => ⟨?_, fun hnot => ?_⟩, fun _ _ hnone => by cases hnone⟩
  · show active.state.completion < active.state.maxTokens
    rw [hstate]
    exact hmax
  · exact absurd (hmid.symm.trans hnot) (by simp)

theorem native_locked {F : Holdings H} {σ σ' : BlockStore H} {prompt : List Token} {anchor : Token} {maxTokens : ℕ}
    {ignoreEos : Bool} {salt : SaltHash} {pfx : KvPrefix H} {handoff : NativeMtpHandoff} {draftLen : ℕ}
    {active : ActiveRequest H} (h : Inv σ F) (hmax : 1 < maxTokens)
    (hfree : lifetimeBlocks (prompt.length + 1) maxTokens ≤ σ.free.length)
    (ha : admitNative prompt anchor maxTokens ignoreEos salt pfx handoff draftLen σ = .ok (.ok active, σ')) :
    Locked (prompt.length + 1 + maxTokens) (Lane.start active σ') := by
  have hlen : (prompt ++ [anchor]).length = prompt.length + 1 := by simp
  unfold admitNative at ha
  split at ha
  · cases ha
  · cases ha
  · rename_i copy kv σ₁ hrestore
    simp only [Except.ok.injEq, Prod.mk.injEq] at ha
    obtain ⟨rfl, rfl⟩ := ha
    unfold restoreNativeKv at hrestore
    simp only at hrestore
    split at hrestore
    · cases hrestore
    · cases hrestore
    · rename_i n kv₁ σ₂ hm
      split_ifs at hrestore
      · cases hrestore
      · split at hrestore
        · cases hrestore
        · cases hrestore
        · rename_i copy' kv₂ σ₃ hbound
          obtain ⟨hcounts, hidle⟩ := counts_matched h ignoreEos (by rw [hlen]; exact hfree) hm
          obtain ⟨hcounts, hidle⟩ := counts_boundary hcounts hidle hbound
          split_ifs at hrestore with hend
          · cases hrestore
          · split at hrestore
            · cases hrestore
            · rename_i kv₃ hadopt
              simp only [Except.ok.injEq, Prod.mk.injEq] at hrestore
              obtain ⟨-, rfl, rfl⟩ := hrestore
              rw [hlen] at hcounts
              obtain ⟨hcounts, hidle, hmid⟩ := counts_adopted (((Glm52SlotState.new (prompt ++ [anchor]) maxTokens
                ignoreEos handoff.committedLen).seedNativePdReplayedAnchor).setDrafts handoff.draftTokens draftLen)
                hcounts hadopt (by simp [Glm52SlotState.setDrafts, Glm52SlotState.seedNativePdReplayedAnchor,
                  Glm52SlotState.new]) rfl rfl (not_not.1 hend).symm
              exact ⟨hcounts, fun _ => hidle, fun _ => ⟨hmax, fun _ => le_rfl⟩, fun _ _ hnone => by cases hnone⟩

theorem admitted_locked {F : Holdings H} {σ σ' : BlockStore H} {lifetime : ℕ} {active : ActiveRequest H} (h : Inv σ F)
    (hfree : lifetime ≤ σ.free.length) (ha : Admitted σ lifetime active σ') :
    ∃ cap, lifetime = divCeil cap PAGE ∧ Locked cap (Lane.start active σ') := by
  cases ha with
  | plain prompt maxTokens ignoreEos prefixCache salt _ _ hprompt hmax hentry =>
    exact ⟨prompt.length + maxTokens, rfl, plain_locked h hprompt hmax hfree hentry⟩
  | native prompt anchor maxTokens ignoreEos salt pfx handoff draftLen _ _ hlen hmax hentry =>
    simp only [nativeKvShape, ← hlen] at hfree ⊢
    exact ⟨prompt.length + 1 + maxTokens, rfl, native_locked h hmax hfree hentry⟩

/-- **Lockstep.** From a pool with as many free blocks as the request's lifetime, whatever the drafts, the granted spans,
the outputs and the other requests do: no position check, schedule, pairing or apply fails, the blocks held stay within
the lifetime, and the next span starts at the KV position, in every state reached. -/
theorem slot_kv_lockstep (eos : List Token) (lifetime : ℕ) (σ₀ σ : BlockStore H) (F : Holdings H)
    (active : ActiveRequest H) (ops : List (LaneOp H)) (hinv : Inv σ₀ F) (hfree : lifetime ≤ σ₀.free.length)
    (hentry : Admitted σ₀ lifetime active σ)
    (hgranted : StepsMeet (Lane.step eos) (Lane.Granted lifetime) (Lane.start active σ) ops) :
    ∃ l, run (Lane.step eos) (Lane.start active σ) ops = .ok l ∧ l.active.kv.residentBlocks ≤ lifetime ∧
      (l.span = none → l.finish = none →
        ∃ token, l.active.state.nextInputAt 0 = .ok ⟨token, l.active.kv.kvPosition⟩) := by
  obtain ⟨cap, rfl, hlocked⟩ := admitted_locked hinv hfree hentry
  obtain ⟨l, hrun, hl⟩ := run_total (fun l o h hg => step_locked eos l o h hg) ops _ hlocked hgranted
  exact ⟨l, hrun, hl.counts.resident_le, fun _ hgo => hl.starts hgo⟩

/-- a prompt of three in a pool of one page: a chunk, the boundary row, a verify span cut by the end token -/
def verifyThree : List (LaneOp (List ℕ)) :=
  [.submit 2, .apply [0, 0], .submit 1, .apply [4], .setDrafts [5, 9] 2, .submit 3, .apply [5, 9, 7]]

theorem slot_kv_lockstep_three : ∃ l, run (Lane.step [9])
    (Lane.start ⟨.new [1, 2, 3] 5 false 0, new [1, 2, 3] 5 PAGE 0⟩ (BlockStore.new 1 false : BlockStore (List ℕ)))
    verifyThree = .ok l ∧ l.active.kv.residentBlocks ≤ 1 ∧
      (l.span = none → l.finish = none →
        ∃ token, l.active.state.nextInputAt 0 = .ok ⟨token, l.active.kv.kvPosition⟩) := by
  refine slot_kv_lockstep [9] 1 (BlockStore.new 1 false) _ 0 _ verifyThree (new_inv 1 false) (by decide)
    (.plain [1, 2, 3] 5 false false 0 _ _ (by decide) (by decide) rfl) ?_
  refine ⟨⟨rfl, rfl, by decide, by decide⟩, ?_⟩
  rintro _ hs₁
  obtain rfl := Except.ok.inj hs₁
  refine ⟨⟨_, rfl⟩, ?_⟩
  rintro _ hs₂
  obtain rfl := Except.ok.inj hs₂
  refine ⟨⟨rfl, rfl, by decide, by decide⟩, ?_⟩
  rintro _ hs₃
  obtain rfl := Except.ok.inj hs₃
  refine ⟨⟨_, rfl⟩, ?_⟩
  rintro _ hs₄
  obtain rfl := Except.ok.inj hs₄
  refine ⟨rfl, ?_⟩
  rintro _ hs₅
  obtain rfl := Except.ok.inj hs₅
  refine ⟨⟨rfl, rfl, by decide, by decide⟩, ?_⟩
  rintro _ hs₆
  obtain rfl := Except.ok.inj hs₆
  refine ⟨⟨_, rfl⟩, ?_⟩
  rintro _ hs₇
  obtain rfl := Except.ok.inj hs₇
  trivial

end Pegainfer.Glm52
