/-
A request id names one request, through every queue of the scheduler and every call on its executor.

Request ids come from a counter. So a run has a table `A` of its requests, and what the scheduler keeps of a request
in its queues is what `A` says of its id. The executor sees requests through calls only: what all calls on requests of
the table preserve (`Preserves`), a step of the scheduler preserves, its LoRA commands apart.
- `Known`: the queues agree with the table, and the executor meets `I`.
- `reachControl_known`, `leaveControl_known`, `execute_known`: the parts of a step.
- `step_known`: a step, given what its commands do to the executor.
- `exists_table`: a run that mints no id twice has a table.
-/
import Mathlib.Tactic
import Pegainfer.Qwen3.ControlOrder

set_option linter.unusedSectionVars false

namespace Pegainfer.Qwen3

open Pegainfer.Frontend
open Pegainfer.Lib
open ModelExecutor

/-! ## Requests and what is kept of them -/

structure PendingRequest.Of (r : Request) (req : PendingRequest) : Prop where
  lora : req.loraAdapter = r.loraAdapter
  prompt : req.promptTokens = r.promptTokens
  maxTokens : req.maxTokens = r.maxTokens
  logprobs : req.logprobs = r.logprobs
  promptLogprobs : req.promptLogprobs = r.promptLogprobs

structure ActiveRequestState.Of (r : Request) (req : ActiveRequestState) : Prop where
  lora : req.loraAdapter = r.loraAdapter
  promptLen : req.promptLen = r.promptTokens.length
  maxTokens : req.maxTokens = r.maxTokens
  logprobs : req.logprobs = r.logprobs

structure PrefillStepItem.Of (r : Request) (item : PrefillStepItem) : Prop where
  lora : item.loraAdapter = r.loraAdapter
  prompt : item.promptTokens = r.promptTokens
  maxTokens : item.maxOutputTokens = r.maxTokens
  logprobs : item.logprobs = r.logprobs
  promptLogprobs : item.promptLogprobs = r.promptLogprobs

structure DecodeStepItem.Of (r : Request) (item : DecodeStepItem) : Prop where
  lora : item.loraAdapter = r.loraAdapter
  logprobs : item.logprobs = r.logprobs

def AllOf (A : RequestId → Request) (queue : List PendingRequest) : Prop := ∀ req ∈ queue, req.Of (A req.requestId)

def ActiveOf (A : RequestId → Request) (active : List ActiveRequestState) : Prop :=
  ∀ req ∈ active, req.Of (A req.requestId)

def PendingEffect.Of (A : RequestId → Request) : PendingEffect → Prop
  | .continuePrefill req => req.Of (A req.requestId)
  | .promote state _ _ => state.Of (A state.requestId)
  | .emitAndFinish .. => True

variable {E : Type} [ModelExecutor E] {A : RequestId → Request} {I : E → Prop}

/-- what every call on requests of the table preserves -/
structure Preserves (A : RequestId → Request) (I : E → Prop) : Prop where
  drop : ∀ e id, I e → I (dropRequest e id)
  prefill : ∀ e items, I e → (∀ item ∈ items, PrefillStepItem.Of (A item.requestId) item) →
    I (executePrefill e items).2
  decode : ∀ e items, I e → (∀ item ∈ items, DecodeStepItem.Of (A item.requestId) item) →
    I (executeDecode e items).2
  unified : ∀ e prefills decodes, I e → (∀ item ∈ prefills, PrefillStepItem.Of (A item.requestId) item) →
    (∀ item ∈ decodes, DecodeStepItem.Of (A item.requestId) item) → I (executeUnified e prefills decodes).2
  draft : ∀ e items, I e → I (executeSpeculativeDraft e items).2
  verify : ∀ e items gated, I e → I (executeSpeculativeVerify e items gated).2
  begun : ∀ e id floor, I e → I (beginKvPrefetch e id (A id).promptTokens (A id).loraAdapter floor).2
  drained : ∀ e floor, I e → I (drainReadyPrefetch e floor).2
  waited : ∀ e floor, I e → I (waitReadyPrefetch e floor).2
  polled : ∀ e, I e → I (pollAsyncPrefill e).2

theorem AllOf.append {a b : List PendingRequest} (ha : AllOf A a) (hb : AllOf A b) : AllOf A (a ++ b) := by
  intro req hreq
  rcases List.mem_append.1 hreq with hreq | hreq
  · exact ha req hreq
  · exact hb req hreq

theorem AllOf.subset {a b : List PendingRequest} (h : AllOf A b) (hs : a ⊆ b) : AllOf A a :=
  fun req hreq => h req (hs hreq)

theorem AllOf.cons {req : PendingRequest} {a : List PendingRequest} (hreq : req.Of (A req.requestId)) (ha : AllOf A a) :
    AllOf A (req :: a) := by
  intro x hx
  rcases List.mem_cons.1 hx with rfl | hx
  · exact hreq
  · exact ha x hx

theorem AllOf.nil : AllOf A [] := fun _ hmem => absurd hmem List.not_mem_nil

theorem AllOf.items {a : List PendingRequest} (h : AllOf A a) :
    ∀ item ∈ a.map buildPrefillItem, PrefillStepItem.Of (A item.requestId) item := by
  intro item hitem
  obtain ⟨req, hreq, rfl⟩ := List.mem_map.1 hitem
  obtain ⟨lora, prompt, maxTokens, logprobs, promptLogprobs⟩ := h req hreq
  exact ⟨lora, prompt, maxTokens, logprobs, promptLogprobs⟩

theorem ActiveOf.items {a : List ActiveRequestState} (h : ActiveOf A a) :
    ∀ item ∈ a.map buildDecodeItem, DecodeStepItem.Of (A item.requestId) item := by
  intro item hitem
  obtain ⟨req, hreq, rfl⟩ := List.mem_map.1 hitem
  exact ⟨(h req hreq).lora, (h req hreq).logprobs⟩

namespace Qwen3Scheduler

/-- the queues agree with the table, and the executor meets `I` -/
structure Known (A : RequestId → Request) (I : E → Prop) (s : Qwen3Scheduler E) : Prop where
  deferred : AllOf A s.deferred
  loading : AllOf A s.loading
  prefilling : AllOf A s.prefilling
  inflight : AllOf A s.inflightPrefills
  post : AllOf A s.postControlDeferred
  active : ActiveOf A s.active
  executor : I s.executor

variable {s s' : Qwen3Scheduler E} {l l' : RequestLedger}

theorem Known.drop (hp : Preserves A I) (h : s.Known A I) (id : RequestId) : (s.dropRequest id).Known A I :=
  { h with executor := hp.drop _ id h.executor }

theorem Known.withExecutor (h : s.Known A I) {e : E} (he : I e) : Known A I { s with executor := e } :=
  { h with executor := he }

/-! ## Retirement, failure, rejection, admission -/

theorem splitAborted_subset_both (queue : List PendingRequest) (r : List PendingRequest × List PendingRequest)
    (h : splitAborted l queue = .ok r) : r.1 ⊆ queue ∧ r.2 ⊆ queue := by
  induction queue generalizing r with
  | nil =>
    cases h
    exact ⟨List.Subset.refl _, List.Subset.refl _⟩
  | cons req queue ih =>
    obtain ⟨aborted, -, h⟩ := bind_ok h
    obtain ⟨rest, hrest, h⟩ := bind_ok h
    obtain ⟨h₁, h₂⟩ := ih rest hrest
    cases h
    cases aborted with
    | true =>
      exact ⟨List.cons_subset_cons req h₁, fun x hx => List.mem_cons_of_mem _ (h₂ hx)⟩
    | false =>
      exact ⟨fun x hx => List.mem_cons_of_mem _ (h₁ hx), List.cons_subset_cons req h₂⟩

theorem retireAll_known (hp : Preserves A I) (reqs : List PendingRequest) (s s' : Qwen3Scheduler E)
    (l l' : RequestLedger) (hs : s.Known A I) (h : s.retireAll l reqs = .ok (s', l')) : s'.Known A I := by
  induction reqs generalizing s l with
  | nil =>
    cases h
    exact hs
  | cons req reqs ih =>
    obtain ⟨⟨s₁, l₁⟩, h₁, h⟩ := bind_ok h
    obtain ⟨rfl, -⟩ := retireAborted_ok h₁
    exact ih _ _ (hs.drop hp _) h

theorem retireAbortedWaiting_known (hp : Preserves A I) (hs : s.Known A I)
    (h : s.retireAbortedWaiting l = .ok (s', l')) : s'.Known A I := by
  obtain ⟨q₁, hq₁, h⟩ := bind_ok h
  obtain ⟨⟨s₁, l₁⟩, h₁, h⟩ := bind_ok h
  obtain ⟨q₂, hq₂, h⟩ := bind_ok h
  obtain ⟨⟨s₂, l₂⟩, h₂, h⟩ := bind_ok h
  obtain ⟨q₃, hq₃, h₃⟩ := bind_ok h
  have hs₁ : s₁.Known A I := by
    apply retireAll_known hp _ _ _ _ _ _ h₁
    exact { hs with deferred := hs.deferred.subset (splitAborted_subset_both _ _ hq₁).2 }
  have hs₂ : s₂.Known A I := by
    apply retireAll_known hp _ _ _ _ _ _ h₂
    exact { hs₁ with post := hs₁.post.subset (splitAborted_subset_both _ _ hq₂).2 }
  apply retireAll_known hp _ _ _ _ _ _ h₃
  exact { hs₂ with prefilling := hs₂.prefilling.subset (splitAborted_subset_both _ _ hq₃).2 }

theorem failTouchedRequests_known (hp : Preserves A I) (message : String) (targets : List RequestId)
    (s s' : Qwen3Scheduler E) (l l' : RequestLedger) (hs : s.Known A I)
    (h : s.failTouchedRequests l message targets = .ok (s', l')) : s'.Known A I := by
  induction targets generalizing s l with
  | nil =>
    cases h
    exact { hs with active := nofun }
  | cons id targets ih =>
    unfold failTouchedRequests at h
    dsimp only at h
    split_ifs at h
    · obtain ⟨m, -, h⟩ := bind_ok h
      exact ih _ _ (hs.drop hp id) h
    · obtain ⟨m, -, h⟩ := bind_ok h
      exact ih _ _ (hs.drop hp id) h

theorem rejectAll_known (hp : Preserves A I) (rejected : List (PendingRequest × RejectReason))
    (s s' : Qwen3Scheduler E) (l l' : RequestLedger) (hs : s.Known A I)
    (h : s.rejectAll l rejected = .ok (s', l')) : s'.Known A I := by
  induction rejected generalizing s l with
  | nil =>
    cases h
    exact hs
  | cons r rejected ih =>
    obtain ⟨⟨s₁, l₁⟩, h₁, h⟩ := bind_ok h
    obtain ⟨m, -, h₁⟩ := bind_ok h₁
    cases h₁
    exact ih _ _ (hs.drop hp _) h

theorem admitAll_known (hp : Preserves A I) (clock : RequestId → Instant) (pending : List PendingRequest)
    (s s' : Qwen3Scheduler E) (l l' : RequestLedger) (hs : s.Known A I) (hpend : AllOf A pending)
    (h : s.admitAll l clock pending = .ok (s', l')) : s'.Known A I := by
  induction pending generalizing s l with
  | nil =>
    cases h
    exact hs
  | cons req pending ih =>
    obtain ⟨⟨s₁, l₁⟩, h₁, h⟩ := bind_ok h
    obtain ⟨aborted, -, h₁⟩ := bind_ok h₁
    have hrest : AllOf A pending := hpend.subset (List.subset_cons_self _ _)
    cases aborted with
    | true =>
      obtain ⟨rfl, -⟩ := retireAborted_ok h₁
      exact ih _ _ (hs.drop hp _) hrest h
    | false =>
      obtain ⟨l₂, -, h₁⟩ := bind_ok h₁
      cases h₁
      apply ih _ _ _ hrest h
      exact { hs with prefilling := hs.prefilling.append (AllOf.cons (hpend req List.mem_cons_self) AllOf.nil) }

/-! ## Effects -/

/-- the loops of `applyEffects` on a known scheduler -/
structure Applies (A : RequestId → Request) (I : E → Prop) (a : Applying E) : Prop where
  scheduler : a.scheduler.Known A I
  continued : AllOf A a.continued

variable {a a' : Applying E}

theorem Applies.of_same (h : Applies A I a) (hs : a'.scheduler = a.scheduler) (hc : a'.continued = a.continued) :
    Applies A I a' :=
  ⟨by rw [hs]; exact h.scheduler, by rw [hc]; exact h.continued⟩

theorem Applies.drop (hp : Preserves A I) (h : Applies A I a) (id : RequestId) : Applies A I (a.drop id) :=
  ⟨h.scheduler.drop hp id, h.continued⟩

theorem Applies.decodeFinish (hp : Preserves A I) {id : RequestId} {tokens : List TokenId}
    {logprobs : List (Option TokenLogprob)} {reason : FinishReason} {cause : Option StopCause} (ha : Applies A I a)
    (h : a.decodeFinish id tokens logprobs reason cause = .ok a') : Applies A I a' := by
  unfold Applying.decodeFinish at h
  split at h
  · cases h
    exact ha
  · obtain ⟨b, hb, h⟩ := bind_ok h
    cases h
    obtain ⟨hbs, hbc⟩ := Applying.closeOrFinish_same hb
    obtain ⟨hs, hc⟩ := (ha.of_same hbs hbc).drop hp id
    exact ⟨hs, hc⟩

/-- a row's progress changes nothing the table names -/
theorem activeOf_modify {active : List ActiveRequestState} (h : ActiveOf A active) (index : ℕ) (last : TokenId)
    (count : ℕ) : ActiveOf A (active.modify index fun req => { req with lastToken := last, generatedCount := count }) := by
  intro req hreq
  obtain ⟨i, hi, hget⟩ := List.mem_iff_getElem.1 hreq
  rw [List.getElem_modify] at hget
  have hi' : i < active.length := by simpa using hi
  obtain ⟨lora, promptLen, maxTokens, logprobs⟩ := h _ (List.getElem_mem hi')
  split_ifs at hget with hindex
  · rw [← hget]
    exact ⟨lora, promptLen, maxTokens, logprobs⟩
  · rw [← hget]
    exact ⟨lora, promptLen, maxTokens, logprobs⟩

theorem Applies.decodeContinue (hp : Preserves A I) {id : RequestId} {tokens : List TokenId}
    {logprobs : List (Option TokenLogprob)} {n : ℕ} (ha : Applies A I a)
    (h : a.decodeContinue id tokens logprobs n = .ok a') : Applies A I a' := by
  unfold Applying.decodeContinue at h
  split at h
  · cases h
    exact ha
  · rename_i index hindex
    obtain ⟨aborted, -, h⟩ := bind_ok h
    cases aborted with
    | true =>
      obtain ⟨⟨s₁, l₁⟩, h₁, h⟩ := bind_ok h
      cases h
      obtain ⟨rfl, -⟩ := retireAborted_ok h₁
      exact ⟨ha.scheduler.drop hp id, ha.continued⟩
    | false =>
      obtain ⟨l₁, -, h⟩ := bind_ok h
      split at h
      · cases h
        exact ⟨{ ha.scheduler with active := activeOf_modify ha.scheduler.active _ _ _ }, ha.continued⟩
      · cases h
        exact ⟨ha.scheduler, ha.continued⟩

theorem Applies.applyDecode (hp : Preserves A I) {effect : DecodeEffect} (ha : Applies A I a)
    (h : a.applyDecode effect = .ok a') : Applies A I a' := by
  cases effect with
  | finish id token logprob reason cause => exact ha.decodeFinish hp h
  | continueOne id token logprob n => exact ha.decodeContinue hp h
  | continueMany id tokens n => exact ha.decodeContinue hp h
  | finishMany id tokens reason cause => exact ha.decodeFinish hp h

theorem Applies.removeRetired (ha : Applies A I a) (h : a.removeRetired = .ok a') : Applies A I a' := by
  obtain ⟨active, hactive, h⟩ := bind_ok h
  cases h
  have hsub := swapRemoveAll_subset _ _ _ hactive
  exact ⟨{ ha.scheduler with active := fun req hreq => ha.scheduler.active req (hsub hreq) }, ha.continued⟩

theorem Applies.applyPending (hp : Preserves A I) {effect : PendingEffect} (hof : effect.Of A) (ha : Applies A I a)
    (h : a.applyPending effect = .ok a') : Applies A I a' := by
  cases effect with
  | continuePrefill req =>
    obtain ⟨aborted, -, h⟩ := bind_ok h
    cases aborted with
    | true =>
      obtain ⟨⟨s₁, l₁⟩, h₁, h⟩ := bind_ok h
      cases h
      obtain ⟨rfl, -⟩ := retireAborted_ok h₁
      exact ⟨ha.scheduler.drop hp _, ha.continued⟩
    | false =>
      cases h
      exact ⟨ha.scheduler, ha.continued.append (AllOf.cons hof AllOf.nil)⟩
  | emitAndFinish id token logprob reason cause =>
    obtain ⟨b, hb, h⟩ := bind_ok h
    cases h
    obtain ⟨hbs, hbc⟩ := Applying.closeOrFinish_same hb
    exact (ha.of_same hbs hbc).drop hp id
  | promote state token logprob =>
    obtain ⟨aborted, -, h⟩ := bind_ok h
    cases aborted with
    | true =>
      obtain ⟨⟨s₁, l₁⟩, h₁, h⟩ := bind_ok h
      cases h
      obtain ⟨rfl, -⟩ := retireAborted_ok h₁
      exact ⟨ha.scheduler.drop hp _, ha.continued⟩
    | false =>
      obtain ⟨l₁, -, h⟩ := bind_ok h
      cases h
      refine ⟨{ ha.scheduler with active := fun req hreq => ?_ }, ha.continued⟩
      rcases List.mem_append.1 hreq with hreq | hreq
      · exact ha.scheduler.active req hreq
      · rw [List.mem_singleton.1 hreq]
        exact hof

theorem applyEffects_known (hp : Preserves A I) {effects : StepEffects} (hs : s.Known A I)
    (hof : ∀ effect ∈ effects.pending, effect.Of A) (h : s.applyEffects l effects = .ok (s', l')) : s'.Known A I := by
  unfold applyEffects at h
  obtain ⟨l₁, -, h⟩ := bind_ok h
  obtain ⟨l₂, -, h⟩ := bind_ok h
  obtain ⟨a₁, h₁, h⟩ := bind_ok h
  obtain ⟨a₂, h₂, h⟩ := bind_ok h
  obtain ⟨a₃, h₃, h⟩ := bind_ok h
  obtain ⟨l₃, -, h⟩ := bind_ok h
  cases h
  have ha₁ : Applies A I a₁ := by
    refine foldlM_keeps _ (fun _ _ _ _ ha hstep => ha.applyDecode hp hstep) _ _ ?_ h₁
    exact ⟨⟨hs.deferred, hs.loading, hs.prefilling, hs.inflight, hs.post, hs.active, hs.executor⟩, AllOf.nil⟩
  have ha₃ : Applies A I a₃ := by
    refine foldlM_keeps _ (fun effect hmem _ _ ha hstep => ?_) _ _ (ha₁.removeRetired h₂) h₃
    exact ha.applyPending hp (hof effect hmem) hstep
  exact { ha₃.scheduler with prefilling := ha₃.continued.append ha₃.scheduler.prefilling }

/-! ## Resolution -/

theorem resolvePrefillOutcome_of {e : E} {req : PendingRequest} (result : PrefillRequestResult)
    (h : req.Of (A req.requestId)) : (resolvePrefillOutcome e req result).Of A := by
  unfold resolvePrefillOutcome
  obtain ⟨lora, prompt, maxTokens, logprobs, promptLogprobs⟩ := h
  split_ifs with hdone hone
  · exact ⟨lora, prompt, maxTokens, logprobs, promptLogprobs⟩
  · split
    · trivial
    · trivial
  · split
    · trivial
    · exact ⟨lora, by rw [← prompt], maxTokens, logprobs⟩

theorem resolvePrefillOutputs_of {e : E} (pending : List PendingRequest) (results : List PrefillRequestResult)
    (effects : StepEffects) (hof : AllOf A pending) (h : resolvePrefillOutputs e pending results = .ok effects) :
    ∀ effect ∈ effects.pending, effect.Of A := by
  induction pending generalizing results effects with
  | nil =>
    cases h
    exact fun _ hmem => absurd hmem List.not_mem_nil
  | cons req pending ih =>
    cases results with
    | nil =>
      cases h
      exact fun _ hmem => absurd hmem List.not_mem_nil
    | cons result results =>
      simp only [resolvePrefillOutputs] at h
      split_ifs at h
      obtain ⟨rest, hrest, h⟩ := bind_ok h
      cases h
      intro effect hmem
      simp only [StepEffects.append, resolvePrefillOutput, List.mem_append, List.mem_singleton] at hmem
      rcases hmem with rfl | hmem
      · exact resolvePrefillOutcome_of result (hof req List.mem_cons_self)
      · exact ih results rest (hof.subset (List.subset_cons_self _ _)) hrest effect hmem

theorem resolveStep_of {e : E} {active : List ActiveRequestState} {artifacts : ExecutionArtifacts}
    {effects : StepEffects} (hof : AllOf A (prefilled artifacts)) (h : resolveStep e active artifacts = .ok effects) :
    ∀ effect ∈ effects.pending, effect.Of A := by
  cases artifacts with
  | prefill pending results => exact resolvePrefillOutputs_of pending results effects hof h
  | decode results =>
    obtain ⟨d, -, h⟩ := bind_ok h
    cases h
    exact fun _ hmem => absurd hmem List.not_mem_nil
  | speculativeDecode results =>
    obtain ⟨d, -, h⟩ := bind_ok h
    cases h
    exact fun _ hmem => absurd hmem List.not_mem_nil
  | unified pending result =>
    obtain ⟨p, hpre, h⟩ := bind_ok h
    obtain ⟨d, -, h⟩ := bind_ok h
    cases h
    exact resolvePrefillOutputs_of pending result.prefillRequests p hof hpre

/-! ## The parts of a step -/

theorem pollInflight_known (hp : Preserves A I) (hs : s.Known A I) (h : s.pollInflight l = .ok (s', l')) :
    s'.Known A I := by
  unfold pollInflight at h
  split at h
  · cases h
    exact hs
  · rename_i pending hpending
    dsimp only at h
    have he := hp.polled _ hs.executor
    split at h
    · cases h
      exact hs.withExecutor he
    · obtain ⟨effects, heffects, h⟩ := bind_ok h
      have hinflight : AllOf A pending := by
        have := hs.inflight
        rwa [inflightPrefills, hpending] at this
      refine applyEffects_known hp ?_ (resolvePrefillOutputs_of _ _ _ hinflight heffects) h
      exact ⟨hs.deferred, hs.loading, hs.prefilling, AllOf.nil, hs.post, hs.active, he⟩

theorem promoteReady_of (ready : List RequestId) (deferred loading : List PendingRequest) (hd : AllOf A deferred)
    (hl : AllOf A loading) :
    AllOf A (promoteReady deferred loading ready).1 ∧ AllOf A (promoteReady deferred loading ready).2 := by
  induction ready generalizing deferred loading with
  | nil => exact ⟨hd, hl⟩
  | cons id ready ih =>
    simp only [promoteReady]
    split
    · rename_i p hfind
      apply ih
      · exact AllOf.cons (hl p (List.mem_of_find?_eq_some hfind)) hd
      · exact hl.subset List.eraseP_subset
    · exact ih deferred loading hd hl

/-- an offer marks the request and leaves what the table names -/
theorem offerPrefetch_known (hp : Preserves A I) (floor : ℕ) (deferred : List PendingRequest) (e : E)
    (hd : AllOf A deferred) (he : I e) :
    AllOf A (offerPrefetch e floor deferred).1 ∧ AllOf A (offerPrefetch e floor deferred).2.1 ∧
      I (offerPrefetch e floor deferred).2.2 := by
  induction deferred generalizing e with
  | nil => exact ⟨AllOf.nil, AllOf.nil, he⟩
  | cons req deferred ih =>
    have hreq := hd req List.mem_cons_self
    have hrest : AllOf A deferred := hd.subset (List.subset_cons_self _ _)
    simp only [offerPrefetch]
    split_ifs with hfresh hbegun
    · have hbegin : I (beginKvPrefetch e req.requestId req.promptTokens req.loraAdapter floor).2 := by
        rw [hreq.prompt, hreq.lora]
        exact hp.begun e _ floor he
      obtain ⟨h₁, h₂, h₃⟩ := ih _ hrest hbegin
      exact ⟨h₁, AllOf.cons ⟨hreq.lora, hreq.prompt, hreq.maxTokens, hreq.logprobs, hreq.promptLogprobs⟩ h₂, h₃⟩
    · have hbegin : I (beginKvPrefetch e req.requestId req.promptTokens req.loraAdapter floor).2 := by
        rw [hreq.prompt, hreq.lora]
        exact hp.begun e _ floor he
      obtain ⟨h₁, h₂, h₃⟩ := ih _ hrest hbegin
      exact ⟨AllOf.cons ⟨hreq.lora, hreq.prompt, hreq.maxTokens, hreq.logprobs, hreq.promptLogprobs⟩ h₁, h₂, h₃⟩
    · obtain ⟨h₁, h₂, h₃⟩ := ih _ hrest he
      exact ⟨AllOf.cons hreq h₁, h₂, h₃⟩

theorem prefetch_known (hp : Preserves A I) (hs : s.Known A I) : s.prefetch.Known A I := by
  unfold prefetch
  dsimp only
  obtain ⟨hd, hl⟩ := promoteReady_of (drainReadyPrefetch s.executor
    (admittedFutureBlocks s.executor s.active s.prefilling s.inflightPrefills)).1 _ _ hs.deferred hs.loading
  have he := hp.drained s.executor (admittedFutureBlocks s.executor s.active s.prefilling s.inflightPrefills)
    hs.executor
  split_ifs with hc
  · obtain ⟨h₁, h₂, h₃⟩ := offerPrefetch_known hp
      (admittedFutureBlocks s.executor s.active s.prefilling s.inflightPrefills) _ _ hd he
    exact ⟨h₁, hl.append h₂, hs.prefilling, hs.inflight, hs.post, hs.active, h₃⟩
  · exact ⟨hd, hl, hs.prefilling, hs.inflight, hs.post, hs.active, he⟩

theorem blockOnLoading_known (hp : Preserves A I) (hs : s.Known A I) : s.blockOnLoading.Known A I := by
  unfold blockOnLoading
  split_ifs
  · exact hs
  · obtain ⟨hd, hl⟩ := promoteReady_of (waitReadyPrefetch s.executor
      (admittedFutureBlocks s.executor s.active s.prefilling s.inflightPrefills)).1 _ _ hs.deferred hs.loading
    exact ⟨hd, hl, hs.prefilling, hs.inflight, hs.post, hs.active, hp.waited _ _ hs.executor⟩

/-- control is the one part that calls for more: its commands change the executor -/
theorem applyControl_known (hs : s.Known A I)
    (hcontrol : s.idle = true → I (s.pendingControl.foldl handleLora s.executor)) : s.applyControl.Known A I := by
  unfold applyControl
  split_ifs with hidle
  · exact ⟨hs.deferred.append hs.post, hs.loading, hs.prefilling, hs.inflight, AllOf.nil, hs.active, hcontrol hidle⟩
  · exact hs

theorem admitLoop_subset (limits : AdmissionLimits) (credit : RequestId → ℕ) (deferred : List PendingRequest)
    (budget slots : ℕ) :
    (admitLoop limits credit budget slots deferred).pending ⊆ deferred ∧
      (admitLoop limits credit budget slots deferred).deferred ⊆ deferred := by
  induction deferred generalizing budget slots with
  | nil => exact ⟨List.Subset.refl _, List.Subset.refl _⟩
  | cons req deferred ih =>
    have hcons : ∀ {l : List PendingRequest}, l ⊆ deferred → l ⊆ req :: deferred := fun h x hx =>
      List.mem_cons_of_mem _ (h hx)
    simp only [admitLoop]
    split_ifs
    · exact ⟨hcons (ih _ _).1, hcons (ih _ _).2⟩
    · exact ⟨hcons (ih _ _).1, hcons (ih _ _).2⟩
    · exact ⟨hcons (ih _ _).1, hcons (ih _ _).2⟩
    · exact ⟨List.cons_subset_cons req (ih _ _).1, hcons (ih _ _).2⟩
    · exact ⟨hcons (ih _ _).1, List.cons_subset_cons req (ih _ _).2⟩

theorem rejectUnknownLoraRequests_subset (deferred : List PendingRequest) (e : E) :
    (rejectUnknownLoraRequests deferred e).1 ⊆ deferred := by
  unfold rejectUnknownLoraRequests
  split_ifs
  · rw [List.partition_eq_filter_filter]
    exact List.filter_sublist.subset
  · exact List.Subset.refl _

theorem admitQueued_known (hp : Preserves A I) {clock : RequestId → Instant} (hs : s.Known A I)
    (h : s.admitQueued l clock = .ok (s', l')) : s'.Known A I := by
  unfold admitQueued at h
  obtain ⟨⟨s₁, l₁⟩, h₁, h⟩ := bind_ok h
  obtain ⟨⟨s₂, l₂⟩, h₂, h⟩ := bind_ok h
  have hlora : AllOf A (rejectUnknownLoraRequests s.deferred s.executor).1 :=
    hs.deferred.subset (rejectUnknownLoraRequests_subset _ _)
  have hs₁ : s₁.Known A I := by
    apply rejectAll_known hp _ _ _ _ _ _ h₁
    exact { hs with deferred := AllOf.nil }
  have hs₂ : s₂.Known A I := rejectAll_known hp _ _ _ _ _ hs₁ h₂
  have hadmit : AllOf A (s₁.admission (rejectUnknownLoraRequests s.deferred s.executor).1).pending ∧
      AllOf A (s₁.admission (rejectUnknownLoraRequests s.deferred s.executor).1).deferred := by
    unfold Qwen3Scheduler.admission admitDeferredRequests
    exact ⟨hlora.subset (admitLoop_subset _ _ _ _ _).1, hlora.subset (admitLoop_subset _ _ _ _ _).2⟩
  apply admitAll_known hp _ _ _ _ _ _ _ hadmit.1 h
  exact { hs₂ with deferred := hadmit.2 }

theorem selectChunks_of (maxPrefillTokens : ℕ) (requestLocal : Bool) (queue : List PendingRequest) (budget : ℕ)
    (h : AllOf A queue) :
    AllOf A (selectChunks maxPrefillTokens requestLocal budget queue).1 ∧
      AllOf A (selectChunks maxPrefillTokens requestLocal budget queue).2 := by
  induction queue generalizing budget with
  | nil => exact ⟨AllOf.nil, AllOf.nil⟩
  | cons req queue ih =>
    have hreq := h req List.mem_cons_self
    have hrest : AllOf A queue := h.subset (List.subset_cons_self _ _)
    simp only [selectChunks]
    split_ifs with hb
    · exact ⟨AllOf.nil, h⟩
    · split
      · exact ⟨(ih budget hrest).1, AllOf.cons hreq (ih budget hrest).2⟩
      · rename_i chunk _
        obtain ⟨lora, prompt, maxTokens, logprobs, promptLogprobs⟩ := hreq
        exact ⟨AllOf.cons ⟨lora, prompt, maxTokens, logprobs, promptLogprobs⟩ (ih _ hrest).1, (ih _ hrest).2⟩

/-- a plan takes requests from a known queue -/
theorem nextPlan_known (hs : s.Known A I) :
    s.nextPlan.1.Known A I ∧ ∀ plan, s.nextPlan.2 = some plan → AllOf A (taken (some plan)) := by
  unfold nextPlan
  split_ifs with hinflight
  · refine ⟨hs, fun plan hplan => ?_⟩
    have htaken := runtimePlanAt_taken s.executor s.active [] s.specMaxBatch
    rw [show runtimePlanAt s.executor s.active [] s.specMaxBatch = some plan from hplan] at htaken
    rw [htaken]
    exact AllOf.nil
  · obtain ⟨h₁, h₂⟩ := selectChunks_of s.maxPrefillTokens s.requestLocal s.prefilling s.maxPrefillTokens hs.prefilling
    refine ⟨{ hs with prefilling := h₂ }, fun plan hplan => ?_⟩
    have htaken := runtimePlanAt_taken s.executor s.active
      (takePrefillChunks s.prefilling s.maxPrefillTokens s.requestLocal).1 s.specMaxBatch
    rw [show runtimePlanAt _ _ _ _ = some plan from hplan] at htaken
    rw [htaken]
    exact h₁.subset fun x hx => (List.mem_insertionSort _).1 hx

theorem executePlan_keeps_invariant (hp : Preserves A I) {e e' : E} {active : List ActiveRequestState}
    {plan : ExecutionPlan} {r : Except StepError ExecutionArtifacts} (he : I e) (ha : ActiveOf A active)
    (ht : AllOf A (taken (some plan))) (h : executePlan e active plan = .ok (r, e')) : I e' := by
  cases plan with
  | prefill pending =>
    simp only [executePlan, Except.ok.injEq, Prod.mk.injEq] at h
    rw [← h.2]
    exact hp.prefill e _ he ht.items
  | unified pending =>
    simp only [executePlan, Except.ok.injEq, Prod.mk.injEq] at h
    rw [← h.2]
    exact hp.unified e _ _ he ht.items ha.items
  | decode =>
    simp only [executePlan, Except.ok.injEq, Prod.mk.injEq] at h
    rw [← h.2]
    exact hp.decode e _ he ha.items
  | gatedSpeculativeDecode =>
    simp only [executePlan, Except.ok.injEq, Prod.mk.injEq] at h
    rw [← h.2]
    exact hp.verify e _ _ he
  | speculativeDecode =>
    simp only [executePlan] at h
    have hdraft := hp.draft e (active.map buildSpeculativeDraftItem) he
    split at h
    · cases h
      exact hdraft
    · obtain ⟨items, -, h⟩ := bind_ok h
      simp only [Except.ok.injEq, Prod.mk.injEq] at h
      rw [← h.2]
      exact hp.verify _ _ _ hdraft

theorem execute_known (hp : Preserves A I) {plan : ExecutionPlan} {u : Except StepError Unit} (hs : s.Known A I)
    (ht : AllOf A (taken (some plan))) (h : s.execute l plan = .ok (u, s', l')) : s'.Known A I := by
  unfold execute at h
  obtain ⟨⟨r, e'⟩, hran, h⟩ := bind_ok h
  have hs₁ : Known A I { s with executor := e' } :=
    hs.withExecutor (executePlan_keeps_invariant hp hs.executor hs.active ht hran)
  dsimp only at h
  cases r with
  | error err =>
    simp only [absorbStepFailure] at h
    split_ifs at h
    · cases h
      exact hs₁
    · obtain ⟨⟨s₁, l₁⟩, h₁, h⟩ := bind_ok h
      cases h
      exact failTouchedRequests_known hp _ _ _ _ _ _ hs₁ h₁
  | ok artifacts =>
    obtain ⟨effects, heffects, h⟩ := bind_ok h
    obtain ⟨⟨s₁, l₁⟩, h₁, h⟩ := bind_ok h
    have hof : AllOf A (prefilled artifacts) := by
      rw [executePlan_prefilled hran]
      exact ht
    have hs₂ := applyEffects_known hp hs₁ (resolveStep_of hof heffects) h₁
    dsimp only at h
    split at h
    · rename_i pending hpending
      cases h
      refine { hs₂ with inflight := ?_ }
      -- only a unified plan leaves its prefill in flight
      cases plan with
      | unified taken =>
        simp only at hpending
        split_ifs at hpending
        cases hpending
        exact ht
      | _ => cases hpending
    · cases h
      exact hs₂

theorem reachControl_known (hp : Preserves A I) {arrivals : Arrivals} (hs : s.Known A I)
    (h : s.reachControl l arrivals = .ok (s', l')) : s'.Known A I := by
  obtain ⟨⟨s₁, l₁⟩, h₁, h⟩ := bind_ok h
  obtain ⟨⟨s₂, l₂⟩, h₂, h⟩ := bind_ok h
  cases h
  have hpull : s.pullControl.Known A I :=
    ⟨hs.deferred, hs.loading, hs.prefilling, hs.inflight, hs.post, hs.active, hs.executor⟩
  exact prefetch_known hp (retireAbortedWaiting_known hp (pollInflight_known hp hpull h₁) h₂)

theorem leaveControl_known (hp : Preserves A I) {arrivals : Arrivals} {plan : Option ExecutionPlan}
    (hs : s.Known A I) (h : s.leaveControl l arrivals = .ok (s', l', plan)) :
    s'.Known A I ∧ ∀ p, plan = some p → AllOf A (taken (some p)) := by
  unfold leaveControl at h
  split_ifs at h with hidle
  · cases h
    exact ⟨blockOnLoading_known hp hs, nofun⟩
  · obtain ⟨⟨s₁, l₁⟩, h₁, h⟩ := bind_ok h
    cases h
    exact nextPlan_known (admitQueued_known hp hs h₁)

/-- **One step.** It keeps what the executor's calls preserve, given what its LoRA commands do. -/
theorem step_known (hp : Preserves A I) {arrivals : Arrivals} {u : Except StepError Unit} (hs : s.Known A I)
    (hcontrol : ∀ c lc, s.reachControl l arrivals = .ok (c, lc) → c.Known A I → c.idle = true →
      I (c.pendingControl.foldl handleLora c.executor))
    (h : s.step l arrivals = .ok (u, s', l')) : s'.Known A I := by
  obtain ⟨⟨s₁, l₁, plan⟩, h₁, h⟩ := bind_ok h
  rw [prepare_eq] at h₁
  obtain ⟨⟨c, lc⟩, hc, h₁⟩ := bind_ok h₁
  have hc₁ := reachControl_known hp hs hc
  obtain ⟨hs₁, hplan⟩ := leaveControl_known hp (applyControl_known hc₁ (hcontrol c lc hc hc₁)) h₁
  cases plan with
  | none =>
    cases h
    exact hs₁
  | some p => exact execute_known hp hs₁ (hplan p rfl) h

theorem submit_known (hs : s.Known A I) {id : RequestId} {request : Request} (hid : A id = request) :
    (s.submit id request).Known A I := by
  have hof : AllOf A [PendingRequest.fromRequest id request] := by
    refine AllOf.cons ?_ AllOf.nil
    subst hid
    exact ⟨rfl, rfl, rfl, rfl, rfl⟩
  unfold submit
  split_ifs
  · exact { hs with deferred := hs.deferred.append hof }
  · exact { hs with post := hs.post.append hof }

end Qwen3Scheduler

/-! ## Runs -/

namespace Engine

/-- the requests that a run mints, in order -/
def submitted : List EngineOp → List (RequestId × Request)
  | [] => []
  | .submit id _ _ request :: ops => (id, request) :: submitted ops
  | _ :: ops => submitted ops

/-- a run that mints no id twice has a table of its requests -/
theorem exists_table (ops : List EngineOp) (h : ((submitted ops).map Prod.fst).Nodup) :
    ∃ A : RequestId → Request, ∀ p ∈ submitted ops, A p.1 = p.2 := by
  refine ⟨fun id => (((submitted ops).find? fun p => p.1 = id).map Prod.snd).getD
    ⟨none, [], ⟨true⟩, ⟨.ignore, []⟩, 0, none, none⟩, fun p hin => ?_⟩
  have hfind : (submitted ops).find? (fun q => q.1 = p.1) = some p := by
    cases hf : (submitted ops).find? (fun q => q.1 = p.1) with
    | none =>
      have hno := List.find?_eq_none.1 hf _ hin
      simp at hno
    | some q =>
      have hq := List.mem_of_find?_eq_some hf
      have hfst : q.1 = p.1 := by simpa using List.find?_some hf
      exact congrArg some (List.inj_on_of_nodup_map h hq hin hfst)
  simp only [hfind, Option.map_some, Option.getD_some]

/-- what holds of the driver while its scheduler is up -/
def Known (A : RequestId → Request) (I : E → Prop) (g : Engine E) : Prop :=
  ∀ s, g.scheduler = some s → s.Known A I

/-- what the LoRA commands that an iteration applies do to the executor -/
def ControlKeeps (I : E → Prop) (g : Engine E) : EngineOp → Prop
  | .iterate arrivals _ =>
    ∀ s c lc, g.scheduler = some s → s.reachControl g.ledger arrivals = .ok (c, lc) → c.idle = true →
      I c.executor → I (c.pendingControl.foldl handleLora c.executor)
  | _ => True

theorem new_known {e : E} (he : I e) (maxPrefillTokens : ℕ) (requestLocal : Bool) (specMaxBatch : ℕ) :
    (Engine.new (Qwen3Scheduler.new e maxPrefillTokens requestLocal specMaxBatch)).Known A I := by
  intro s hs
  cases hs
  exact ⟨AllOf.nil, AllOf.nil, AllOf.nil, AllOf.nil, AllOf.nil, nofun, he⟩

/-- **One operation of the driver.** -/
theorem step_known (hp : Preserves A I) {g g' : Engine E} {op : EngineOp} (hg : g.Known A I)
    (hids : ∀ id aborted queuedAt request, op = .submit id aborted queuedAt request → A id = request)
    (hcontrol : g.ControlKeeps I op) (h : g.step op = .ok g') : g'.Known A I := by
  intro s' hs'
  cases op with
  | submit id aborted queuedAt request =>
    simp only [step] at h
    split at h
    · rename_i hnone
      cases h
      rw [hnone] at hs'
      cases hs'
    · rename_i s hs
      obtain ⟨l₁, -, h⟩ := bind_ok h
      cases h
      cases hs'
      exact Qwen3Scheduler.submit_known (hg s hs) (hids id aborted queuedAt request rfl)
  | abort id =>
    cases h
    exact hg s' hs'
  | control command =>
    cases h
    obtain ⟨s, hs, rfl⟩ := Option.map_eq_some_iff.1 hs'
    have hk := hg s hs
    exact ⟨hk.deferred, hk.loading, hk.prefilling, hk.inflight, hk.post, hk.active, hk.executor⟩
  | iterate arrivals metricsChanged =>
    simp only [step] at h
    split at h
    · rename_i hnone
      cases h
      rw [hnone] at hs'
      cases hs'
    · rename_i s hs
      obtain ⟨⟨u, s₁, l₁⟩, h₁, h⟩ := bind_ok h
      have hs₁ : s₁.Known A I := by
        apply Qwen3Scheduler.step_known hp (hg s hs) _ h₁
        intro c lc hc hck hidle
        exact hcontrol s c lc hs hc hidle hck.executor
      cases u with
      | ok u =>
        cases h
        cases hs'
        exact hs₁
      | error err =>
        obtain ⟨l₂, -, h⟩ := bind_ok h
        cases h
        cases hs'

/-- **Runs.** On the requests of the table, with commands that keep it. -/
theorem run_known (hp : Preserves A I) {P : Engine E → EngineOp → Prop}
    (hcontrol : ∀ g op, P g op → g.ControlKeeps I op) (ops : List EngineOp) :
    ∀ {g g' : Engine E}, (∀ p ∈ submitted ops, A p.1 = p.2) → g.Known A I → StepsMeet Engine.step P g ops →
      run Engine.step g ops = .ok g' → g'.Known A I := by
  induction ops with
  | nil =>
    intro g g' _ hg _ h
    cases h
    exact hg
  | cons op ops ih =>
    intro g g' hids hg hops h
    obtain ⟨m, hm, h⟩ := (run_cons_ok g g' op ops).1 h
    have hhead : ∀ id aborted queuedAt request, op = .submit id aborted queuedAt request → A id = request := by
      rintro id aborted queuedAt request rfl
      exact hids (id, request) List.mem_cons_self
    have htail : ∀ p ∈ submitted ops, A p.1 = p.2 := by
      intro p hmem
      apply hids p
      cases op with
      | submit => exact List.mem_cons_of_mem _ hmem
      | _ => exact hmem
    exact ih htail (step_known hp hg hhead (hcontrol g op hops.1) hm) (hops.2 m hm) h

end Engine

end Pegainfer.Qwen3
