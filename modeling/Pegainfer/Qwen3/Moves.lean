/-
Where the parts of a Qwen3 scheduler step can move a request, whatever the executor answers.

`Custody` counts requests and needs an executor that answers what it was asked. Here a request is only followed: a part
of a step never puts a request into a queue it did not come from, and only pulling and control touch the commands.
- `Moves`: no request enters the queues ahead of the pending commands, the queue behind them, or the running ones.
- `pollInflight_moves`, `retireAbortedWaiting_moves`, `prefetch_moves`, ...: the parts before control.
- `admitQueued_moves`: what admission starts stood in `deferred`.
- `execute_moves`: a plan leaves running what was running or taken by it.
-/
import Mathlib.Tactic
import Pegainfer.Qwen3.Custody

set_option linter.unusedSectionVars false

namespace Pegainfer.Qwen3

open Pegainfer.Frontend
open Pegainfer.Lib
open ModelExecutor

variable {E : Type} [ModelExecutor E]

/-- what each step of a fold keeps, the fold keeps -/
theorem foldlM_keeps {σ α : Type} {f : σ → α → Except String σ} {I : σ → Prop} (as : List α)
    (hf : ∀ a ∈ as, ∀ s s', I s → f s a = .ok s' → I s') :
    ∀ s s', I s → as.foldlM f s = .ok s' → I s' := by
  induction as with
  | nil =>
    intro s s' hI h
    cases h
    exact hI
  | cons a as ih =>
    intro s s' hI h
    rw [List.foldlM_cons] at h
    obtain ⟨m, hm, h⟩ := bind_ok h
    exact ih (fun b hb => hf b (List.mem_cons_of_mem _ hb)) m s' (hf a List.mem_cons_self s m hI hm) h

theorem swapRemoveAll_subset {α : Type} (is : List ℕ) (l kept : List α) (h : swapRemoveAll l is = .ok kept) :
    kept ⊆ l := by
  induction is generalizing l with
  | nil =>
    cases h
    exact List.Subset.refl _
  | cons i is ih =>
    simp only [swapRemoveAll] at h
    split_ifs at h with hi
    refine List.Subset.trans (ih _ h) fun x hx => ?_
    rw [(swapRemove_perm l i l[i] (List.getElem?_eq_getElem hi)).mem_iff]
    exact List.mem_cons_of_mem _ hx

theorem ids_subset {a b : List PendingRequest} (h : a ⊆ b) : ids a ⊆ ids b := by
  intro id hid
  simp only [ids, Multiset.mem_coe, List.mem_map] at hid ⊢
  obtain ⟨req, hreq, rfl⟩ := hid
  exact ⟨req, h hreq, rfl⟩

theorem activeIds_subset {a b : List ActiveRequestState} (h : a ⊆ b) : activeIds a ⊆ activeIds b := by
  intro id hid
  simp only [activeIds, Multiset.mem_coe, List.mem_map] at hid ⊢
  obtain ⟨req, hreq, rfl⟩ := hid
  exact ⟨req, h hreq, rfl⟩

namespace Qwen3Scheduler

/-- the requests that a pending command finds in the scheduler: all but those submitted behind it -/
def ahead (s : Qwen3Scheduler E) : Multiset RequestId := ids s.deferred + ids s.loading + s.running

/-- the requests submitted behind a pending command -/
def behind (s : Qwen3Scheduler E) : Multiset RequestId := ids s.postControlDeferred

theorem running_subset_ahead (s : Qwen3Scheduler E) : s.running ⊆ s.ahead :=
  fun _ h => Multiset.mem_add.2 (Or.inr h)

/-- requests only move on or leave, and the commands stay -/
structure Moves (s s' : Qwen3Scheduler E) : Prop where
  rx : s'.loraRx = s.loraRx
  control : s'.pendingControl = s.pendingControl
  ahead : s'.ahead ⊆ s.ahead
  behind : s'.behind ⊆ s.behind
  running : s'.running ⊆ s.running

theorem Moves.refl (s : Qwen3Scheduler E) : Moves s s :=
  ⟨rfl, rfl, Multiset.Subset.refl _, Multiset.Subset.refl _, Multiset.Subset.refl _⟩

theorem Moves.trans {s s' s'' : Qwen3Scheduler E} (h : Moves s s') (h' : Moves s' s'') : Moves s s'' :=
  ⟨h'.rx.trans h.rx, h'.control.trans h.control, Multiset.Subset.trans h'.ahead h.ahead,
    Multiset.Subset.trans h'.behind h.behind, Multiset.Subset.trans h'.running h.running⟩

/-- a part that leaves the waiting queues alone is judged by what runs after it -/
theorem Moves.of_running {s s' : Qwen3Scheduler E} (hrx : s'.loraRx = s.loraRx)
    (hc : s'.pendingControl = s.pendingControl) (hd : s'.deferred = s.deferred) (hl : s'.loading = s.loading)
    (hp : s'.postControlDeferred = s.postControlDeferred) (hr : s'.running ⊆ s.running) : Moves s s' := by
  refine ⟨hrx, hc, ?_, by rw [Qwen3Scheduler.behind, hp]; exact Multiset.Subset.refl _, hr⟩
  intro id hid
  simp only [Qwen3Scheduler.ahead, hd, hl, Multiset.mem_add] at hid ⊢
  exact hid.imp_right fun h => hr h

/-- only the executor differs -/
theorem Moves.executor (s : Qwen3Scheduler E) (e : E) : Moves s { s with executor := e } :=
  Moves.of_running rfl rfl rfl rfl rfl (Multiset.Subset.refl _)

/-! ## Retirement and rejection -/

theorem retireAll_executor (reqs : List PendingRequest) (s s' : Qwen3Scheduler E) (l l' : RequestLedger)
    (h : s.retireAll l reqs = .ok (s', l')) : ∃ e : E, s' = { s with executor := e } := by
  induction reqs generalizing s l with
  | nil =>
    cases h
    exact ⟨_, rfl⟩
  | cons req reqs ih =>
    obtain ⟨⟨s₁, l₁⟩, h₁, h⟩ := bind_ok h
    obtain ⟨rfl, -⟩ := retireAborted_ok h₁
    obtain ⟨e, rfl⟩ := ih _ _ h
    exact ⟨e, rfl⟩

theorem splitAborted_subset {l : RequestLedger} {queue : List PendingRequest}
    {r : List PendingRequest × List PendingRequest} (h : splitAborted l queue = .ok r) : ids r.2 ⊆ ids queue := by
  rw [← splitAborted_ids l queue r h]
  exact fun _ hid => Multiset.mem_add.2 (Or.inr hid)

theorem retireAbortedWaiting_moves {s s' : Qwen3Scheduler E} {l l' : RequestLedger}
    (h : s.retireAbortedWaiting l = .ok (s', l')) : Moves s s' := by
  obtain ⟨q₁, hq₁, h⟩ := bind_ok h
  obtain ⟨⟨s₁, l₁⟩, h₁, h⟩ := bind_ok h
  obtain ⟨q₂, hq₂, h⟩ := bind_ok h
  obtain ⟨⟨s₂, l₂⟩, h₂, h⟩ := bind_ok h
  obtain ⟨q₃, hq₃, h₃⟩ := bind_ok h
  obtain ⟨e₁, rfl⟩ := retireAll_executor _ _ _ _ _ h₁
  obtain ⟨e₂, rfl⟩ := retireAll_executor _ _ _ _ _ h₂
  obtain ⟨e₃, rfl⟩ := retireAll_executor _ _ _ _ _ h₃
  have hd := splitAborted_subset hq₁
  have hp := splitAborted_subset hq₂
  have hf := splitAborted_subset hq₃
  have hrun : Qwen3Scheduler.running
      ({ s with deferred := q₁.2, postControlDeferred := q₂.2, prefilling := q₃.2, executor := e₃ } :
        Qwen3Scheduler E) ⊆ s.running := by
    intro id hid
    simp only [Qwen3Scheduler.running, Multiset.mem_add] at hid ⊢
    exact hid.imp_left (Or.imp_left fun hx => hf hx)
  refine ⟨rfl, rfl, ?_, hp, hrun⟩
  intro id hid
  simp only [Qwen3Scheduler.ahead, Multiset.mem_add] at hid ⊢
  rcases hid with (hid | hid) | hid
  · exact Or.inl (Or.inl (hd hid))
  · exact Or.inl (Or.inr hid)
  · exact Or.inr (hrun hid)

theorem rejectAll_executor (rejected : List (PendingRequest × RejectReason)) (s s' : Qwen3Scheduler E)
    (l l' : RequestLedger) (h : s.rejectAll l rejected = .ok (s', l')) :
    ∃ e : E, s' = { s with executor := e } := by
  induction rejected generalizing s l with
  | nil =>
    cases h
    exact ⟨_, rfl⟩
  | cons r rejected ih =>
    obtain ⟨⟨s₁, l₁⟩, h₁, h⟩ := bind_ok h
    obtain ⟨m, -, h₁⟩ := bind_ok h₁
    cases h₁
    obtain ⟨e, rfl⟩ := ih _ _ h
    exact ⟨e, rfl⟩

/-- failing a batch empties the decode batch -/
theorem failTouchedRequests_executor (message : String) (targets : List RequestId) (s s' : Qwen3Scheduler E)
    (l l' : RequestLedger) (h : s.failTouchedRequests l message targets = .ok (s', l')) :
    ∃ e : E, s' = { s with executor := e, active := [] } := by
  induction targets generalizing s l with
  | nil =>
    cases h
    exact ⟨_, rfl⟩
  | cons id targets ih =>
    unfold failTouchedRequests at h
    dsimp only at h
    split_ifs at h
    · obtain ⟨m, -, h⟩ := bind_ok h
      obtain ⟨e, rfl⟩ := ih _ _ h
      exact ⟨e, rfl⟩
    · obtain ⟨m, -, h⟩ := bind_ok h
      obtain ⟨e, rfl⟩ := ih _ _ h
      exact ⟨e, rfl⟩

/-! ## Effects -/

/-- the loops of `applyEffects` over `s`: the rows are among `base`, and the other queues are those of `s` -/
structure Applying.Rests (s : Qwen3Scheduler E) (base : Multiset RequestId) (a : Applying E) : Prop where
  rx : a.scheduler.loraRx = s.loraRx
  control : a.scheduler.pendingControl = s.pendingControl
  deferred : a.scheduler.deferred = s.deferred
  loading : a.scheduler.loading = s.loading
  post : a.scheduler.postControlDeferred = s.postControlDeferred
  prefilling : a.scheduler.prefilling = s.prefilling
  inflight : a.scheduler.inflightPrefillPending = s.inflightPrefillPending
  active : activeIds a.scheduler.active ⊆ base
  continued : ids a.continued ⊆ base

variable {s : Qwen3Scheduler E} {base : Multiset RequestId} {a a' : Applying E}

/-- only the executor, the ledger and the notes for the end of the step differ -/
theorem Applying.Rests.noted (h : Applying.Rests s base a) {e : E}
    (hs : a'.scheduler = { a.scheduler with executor := e }) (hc : a'.continued = a.continued) :
    Applying.Rests s base a' := by
  obtain ⟨rx, control, deferred, loading, post, prefilling, inflight, active, continued⟩ := h
  refine ⟨?_, ?_, ?_, ?_, ?_, ?_, ?_, ?_, by rw [hc]; exact continued⟩
  all_goals rw [hs]; assumption

theorem Applying.closeOrFinish_same {id : RequestId} {tokens : List TokenId} {logprobs : List (Option TokenLogprob)}
    {reason : FinishReason} {cause : Option StopCause}
    (h : a.closeOrFinish id tokens logprobs reason cause = .ok a') :
    a'.scheduler = a.scheduler ∧ a'.continued = a.continued := by
  unfold Applying.closeOrFinish at h
  split_ifs at h with hact
  · obtain ⟨aborted, -, h⟩ := bind_ok h
    cases aborted with
    | true =>
      obtain ⟨l, -, h⟩ := bind_ok h
      cases h
      exact ⟨rfl, rfl⟩
    | false =>
      obtain ⟨l, -, h⟩ := bind_ok h
      cases h
      exact ⟨rfl, rfl⟩
  · cases h
    exact ⟨rfl, rfl⟩

theorem Applying.Rests.decodeFinish {id : RequestId} {tokens : List TokenId} {logprobs : List (Option TokenLogprob)}
    {reason : FinishReason} {cause : Option StopCause} (ha : Applying.Rests s base a)
    (h : a.decodeFinish id tokens logprobs reason cause = .ok a') : Applying.Rests s base a' := by
  unfold Applying.decodeFinish at h
  split at h
  · cases h
    exact ha
  · obtain ⟨b, hb, h⟩ := bind_ok h
    cases h
    obtain ⟨hbs, hbc⟩ := Applying.closeOrFinish_same hb
    refine ha.noted (e := ModelExecutor.dropRequest a.scheduler.executor id) ?_ hbc
    simp only [Applying.drop, Qwen3Scheduler.dropRequest, hbs]

theorem Applying.Rests.decodeContinue {id : RequestId} {tokens : List TokenId}
    {logprobs : List (Option TokenLogprob)} {n : ℕ} (ha : Applying.Rests s base a)
    (h : a.decodeContinue id tokens logprobs n = .ok a') : Applying.Rests s base a' := by
  unfold Applying.decodeContinue at h
  split at h
  · cases h
    exact ha
  · rename_i index hindex
    obtain ⟨aborted, -, h⟩ := bind_ok h
    cases aborted with
    | true =>
      obtain ⟨⟨s₁, l₁⟩, h₁, h⟩ := bind_ok h
      cases h
      obtain ⟨rfl, -⟩ := retireAborted_ok h₁
      exact ha.noted (e := ModelExecutor.dropRequest a.scheduler.executor id) rfl rfl
    | false =>
      obtain ⟨l₁, -, h⟩ := bind_ok h
      split at h
      · cases h
        obtain ⟨rx, control, deferred, loading, post, prefilling, inflight, active, continued⟩ := ha
        refine ⟨rx, control, deferred, loading, post, prefilling, inflight, ?_, continued⟩
        rw [activeIds, map_modify_requestId]
        · exact active
        · exact fun _ => rfl
      · cases h
        exact ha.noted (e := a.scheduler.executor) rfl rfl

theorem Applying.Rests.applyDecode {effect : DecodeEffect} (ha : Applying.Rests s base a)
    (h : a.applyDecode effect = .ok a') : Applying.Rests s base a' := by
  cases effect with
  | finish id token logprob reason cause => exact ha.decodeFinish h
  | continueOne id token logprob n => exact ha.decodeContinue h
  | continueMany id tokens n => exact ha.decodeContinue h
  | finishMany id tokens reason cause => exact ha.decodeFinish h

theorem Applying.Rests.removeRetired (ha : Applying.Rests s base a) (h : a.removeRetired = .ok a') :
    Applying.Rests s base a' := by
  obtain ⟨active, hactive, h⟩ := bind_ok h
  cases h
  obtain ⟨rx, control, deferred, loading, post, prefilling, inflight, hact, continued⟩ := ha
  exact ⟨rx, control, deferred, loading, post, prefilling, inflight,
    Multiset.Subset.trans (activeIds_subset (swapRemoveAll_subset _ _ _ hactive)) hact, continued⟩

theorem Applying.Rests.applyPending {effect : PendingEffect} (hid : effect.requestId ∈ base)
    (ha : Applying.Rests s base a) (h : a.applyPending effect = .ok a') : Applying.Rests s base a' := by
  cases effect with
  | continuePrefill req =>
    obtain ⟨aborted, -, h⟩ := bind_ok h
    cases aborted with
    | true =>
      obtain ⟨⟨s₁, l₁⟩, h₁, h⟩ := bind_ok h
      cases h
      obtain ⟨rfl, -⟩ := retireAborted_ok h₁
      exact ha.noted (e := ModelExecutor.dropRequest a.scheduler.executor req.requestId) rfl rfl
    | false =>
      cases h
      obtain ⟨rx, control, deferred, loading, post, prefilling, inflight, active, continued⟩ := ha
      refine ⟨rx, control, deferred, loading, post, prefilling, inflight, active, ?_⟩
      rw [ids_append, ids_cons, ids_nil]
      intro id hmem
      rcases Multiset.mem_add.1 hmem with hmem | hmem
      · exact continued hmem
      · rw [Multiset.mem_cons] at hmem
        rcases hmem with rfl | hmem
        · exact hid
        · exact absurd hmem (Multiset.notMem_zero _)
  | emitAndFinish id token logprob reason cause =>
    obtain ⟨b, hb, h⟩ := bind_ok h
    cases h
    obtain ⟨hbs, hbc⟩ := Applying.closeOrFinish_same hb
    refine ha.noted (e := ModelExecutor.dropRequest a.scheduler.executor id) ?_ hbc
    simp only [Applying.drop, Qwen3Scheduler.dropRequest, hbs]
  | promote state token logprob =>
    obtain ⟨aborted, -, h⟩ := bind_ok h
    cases aborted with
    | true =>
      obtain ⟨⟨s₁, l₁⟩, h₁, h⟩ := bind_ok h
      cases h
      obtain ⟨rfl, -⟩ := retireAborted_ok h₁
      exact ha.noted (e := ModelExecutor.dropRequest a.scheduler.executor state.requestId) rfl rfl
    | false =>
      obtain ⟨l₁, -, h⟩ := bind_ok h
      cases h
      obtain ⟨rx, control, deferred, loading, post, prefilling, inflight, active, continued⟩ := ha
      refine ⟨rx, control, deferred, loading, post, prefilling, inflight, ?_, continued⟩
      rw [activeIds_concat]
      intro id hmem
      rw [Multiset.mem_cons] at hmem
      rcases hmem with rfl | hmem
      · exact hid
      · exact active hmem

/-- **Effects.** After a step's effects only what ran before or was answered in them runs. -/
theorem applyEffects_moves {s s' : Qwen3Scheduler E} {l l' : RequestLedger} {effects : StepEffects}
    {extra : Multiset RequestId} (hextra : ∀ effect ∈ effects.pending, effect.requestId ∈ extra)
    (h : s.applyEffects l effects = .ok (s', l')) :
    s'.loraRx = s.loraRx ∧ s'.pendingControl = s.pendingControl ∧ s'.deferred = s.deferred ∧
      s'.loading = s.loading ∧ s'.postControlDeferred = s.postControlDeferred ∧
      s'.running ⊆ s.running + extra := by
  unfold applyEffects at h
  obtain ⟨l₁, -, h⟩ := bind_ok h
  obtain ⟨l₂, -, h⟩ := bind_ok h
  obtain ⟨a₁, h₁, h⟩ := bind_ok h
  obtain ⟨a₂, h₂, h⟩ := bind_ok h
  obtain ⟨a₃, h₃, h⟩ := bind_ok h
  obtain ⟨l₃, -, h⟩ := bind_ok h
  cases h
  have hbase : activeIds s.active ⊆ s.running + extra := by
    intro id hid
    simp only [Qwen3Scheduler.running, Multiset.mem_add]
    exact Or.inl (Or.inl (Or.inr hid))
  have hr₁ : Applying.Rests s (s.running + extra) a₁ := by
    refine foldlM_keeps _ (fun _ _ _ _ ha hstep => ha.applyDecode hstep) _ _ ?_ h₁
    exact ⟨rfl, rfl, rfl, rfl, rfl, rfl, rfl, hbase, Multiset.zero_subset _⟩
  have hr₃ : Applying.Rests s (s.running + extra) a₃ := by
    refine foldlM_keeps _ (fun effect hmem _ _ ha hstep => ?_) _ _ (hr₁.removeRetired h₂) h₃
    exact ha.applyPending (Multiset.mem_add.2 (Or.inr (hextra effect hmem))) hstep
  refine ⟨hr₃.rx, hr₃.control, hr₃.deferred, hr₃.loading, hr₃.post, fun id hid => ?_⟩
  simp only [Qwen3Scheduler.running, inflightPrefills, ids_append, hr₃.inflight, Multiset.mem_add] at hid
  rcases hid with ((hid | hid) | hid) | hid
  · exact hr₃.continued hid
  · rw [hr₃.prefilling] at hid
    simp only [Qwen3Scheduler.running, Multiset.mem_add]
    exact Or.inl (Or.inl (Or.inl hid))
  · exact hr₃.active hid
  · simp only [Qwen3Scheduler.running, inflightPrefills, Multiset.mem_add]
    exact Or.inl (Or.inr hid)

/-! ## Resolution -/

/-- every prefill effect is about a request the answers were matched to -/
theorem resolvePrefillOutputs_mem {e : E} (pending : List PendingRequest) (results : List PrefillRequestResult)
    (effects : StepEffects) (h : resolvePrefillOutputs e pending results = .ok effects) :
    ∀ effect ∈ effects.pending, effect.requestId ∈ ids pending := by
  induction pending generalizing results effects with
  | nil =>
    cases h
    simp [StepEffects.empty]
  | cons req pending ih =>
    cases results with
    | nil =>
      cases h
      simp [StepEffects.empty]
    | cons result results =>
      simp only [resolvePrefillOutputs] at h
      split_ifs at h
      obtain ⟨rest, hrest, h⟩ := bind_ok h
      cases h
      intro effect hmem
      simp only [StepEffects.append, resolvePrefillOutput, List.mem_append, List.mem_singleton] at hmem
      rw [ids_cons, Multiset.mem_cons]
      rcases hmem with rfl | hmem
      · exact Or.inl (resolvePrefillOutcome_id e req result)
      · exact Or.inr (ih results rest hrest effect hmem)

/-- the requests whose prefill the artifacts answer -/
def answered : ExecutionArtifacts → Multiset RequestId
  | .prefill pending _ => ids pending
  | .unified pending _ => ids pending
  | _ => 0

theorem resolveStep_mem {e : E} {active : List ActiveRequestState} {artifacts : ExecutionArtifacts}
    {effects : StepEffects} (h : resolveStep e active artifacts = .ok effects) :
    ∀ effect ∈ effects.pending, effect.requestId ∈ answered artifacts := by
  cases artifacts with
  | prefill pending results => exact resolvePrefillOutputs_mem pending results effects h
  | decode results =>
    obtain ⟨d, -, h⟩ := bind_ok h
    cases h
    simp [StepEffects.empty]
  | speculativeDecode results =>
    obtain ⟨d, -, h⟩ := bind_ok h
    cases h
    simp [StepEffects.empty]
  | unified pending result =>
    obtain ⟨p, hp, h⟩ := bind_ok h
    obtain ⟨d, -, h⟩ := bind_ok h
    cases h
    exact resolvePrefillOutputs_mem pending result.prefillRequests p hp

/-- the queue behind `answered` -/
def prefilled : ExecutionArtifacts → List PendingRequest
  | .prefill pending _ => pending
  | .unified pending _ => pending
  | _ => []

theorem answered_eq (artifacts : ExecutionArtifacts) : answered artifacts = ids (prefilled artifacts) := by
  cases artifacts <;> rfl

/-- a plan's artifacts answer the requests it took -/
theorem executePlan_prefilled {e e' : E} {active : List ActiveRequestState} {plan : ExecutionPlan}
    {artifacts : ExecutionArtifacts} (h : executePlan e active plan = .ok (.ok artifacts, e')) :
    prefilled artifacts = taken (some plan) := by
  cases plan with
  | prefill pending =>
    simp only [executePlan, Except.ok.injEq, Prod.mk.injEq] at h
    cases hx : (executePrefill e (pending.map buildPrefillItem)).1 with
    | error err =>
      rw [hx] at h
      cases h.1
    | ok results =>
      rw [hx] at h
      cases h.1
      rfl
  | unified pending =>
    simp only [executePlan, Except.ok.injEq, Prod.mk.injEq] at h
    cases hx : (executeUnified e (pending.map buildPrefillItem) (active.map buildDecodeItem)).1 with
    | error err =>
      rw [hx] at h
      cases h.1
    | ok results =>
      rw [hx] at h
      cases h.1
      rfl
  | decode =>
    simp only [executePlan, Except.ok.injEq, Prod.mk.injEq] at h
    cases hx : (executeDecode e (active.map buildDecodeItem)).1 with
    | error err =>
      rw [hx] at h
      cases h.1
    | ok results =>
      rw [hx] at h
      cases h.1
      rfl
  | gatedSpeculativeDecode =>
    simp only [executePlan, Except.ok.injEq, Prod.mk.injEq] at h
    cases hx : (executeSpeculativeVerify e (active.map buildGatedVerifyItem) true).1 with
    | error err =>
      rw [hx] at h
      cases h.1
    | ok results =>
      rw [hx] at h
      cases h.1
      rfl
  | speculativeDecode =>
    simp only [executePlan] at h
    split at h
    · cases h
    · obtain ⟨items, -, h⟩ := bind_ok h
      simp only [Except.ok.injEq, Prod.mk.injEq] at h
      obtain ⟨hx, -⟩ := h
      generalize hv : (executeSpeculativeVerify
        (executeSpeculativeDraft e (active.map buildSpeculativeDraftItem)).2 items false).1 = v at hx
      cases v with
      | error err => cases hx
      | ok results =>
        cases hx
        rfl

theorem executePlan_answered {e e' : E} {active : List ActiveRequestState} {plan : ExecutionPlan}
    {artifacts : ExecutionArtifacts} (h : executePlan e active plan = .ok (.ok artifacts, e')) :
    answered artifacts ⊆ ids (taken (some plan)) := by
  rw [answered_eq, executePlan_prefilled h]
  exact Multiset.Subset.refl _

/-! ## The parts of a step -/

theorem pollInflight_moves {s s' : Qwen3Scheduler E} {l l' : RequestLedger}
    (h : s.pollInflight l = .ok (s', l')) : Moves s s' := by
  unfold pollInflight at h
  split at h
  · cases h
    exact Moves.refl s
  · rename_i pending hpending
    dsimp only at h
    split at h
    · cases h
      exact Moves.executor s _
    · obtain ⟨effects, heffects, h⟩ := bind_ok h
      obtain ⟨hrx, hc, hd, hl, hp, hr⟩ := applyEffects_moves (resolveStep_mem heffects) h
      refine Moves.of_running hrx hc hd hl hp (Multiset.Subset.trans hr fun id hid => ?_)
      simp only [Qwen3Scheduler.running, inflightPrefills, hpending, answered, Option.getD_none, Option.getD_some,
        ids_nil, Multiset.mem_add, Multiset.notMem_zero, or_false] at hid ⊢
      exact hid

theorem promoteReady_mem (ready : List RequestId) (deferred loading : List PendingRequest) (id : RequestId) :
    (id ∈ ids (promoteReady deferred loading ready).1 ∨ id ∈ ids (promoteReady deferred loading ready).2) ↔
      id ∈ ids deferred ∨ id ∈ ids loading := by
  rw [← Multiset.mem_add, promoteReady_ids, Multiset.mem_add]

theorem offerPrefetch_mem (e : E) (reserveFloor : ℕ) (deferred loading : List PendingRequest) (id : RequestId) :
    (id ∈ ids (offerPrefetch e reserveFloor deferred).1 ∨
      id ∈ ids (loading ++ (offerPrefetch e reserveFloor deferred).2.1)) ↔ id ∈ ids deferred ∨ id ∈ ids loading := by
  rw [← offerPrefetch_ids reserveFloor deferred e, ids_append, Multiset.mem_add, Multiset.mem_add]
  tauto

theorem prefetch_moves (s : Qwen3Scheduler E) : Moves s s.prefetch := by
  unfold prefetch
  dsimp only
  split_ifs with hc
  · refine ⟨rfl, rfl, fun id hid => ?_, Multiset.Subset.refl _, Multiset.Subset.refl _⟩
    simp only [Qwen3Scheduler.ahead, Qwen3Scheduler.running, inflightPrefills, Multiset.mem_add] at hid ⊢
    exact hid.imp_left fun hid => (promoteReady_mem _ _ _ id).1 ((offerPrefetch_mem _ _ _ _ id).1 hid)
  · refine ⟨rfl, rfl, fun id hid => ?_, Multiset.Subset.refl _, Multiset.Subset.refl _⟩
    simp only [Qwen3Scheduler.ahead, Qwen3Scheduler.running, inflightPrefills, Multiset.mem_add] at hid ⊢
    exact hid.imp_left (promoteReady_mem _ _ _ id).1

theorem blockOnLoading_moves (s : Qwen3Scheduler E) : Moves s s.blockOnLoading := by
  unfold blockOnLoading
  split_ifs
  · exact Moves.refl s
  · refine ⟨rfl, rfl, fun id hid => ?_, Multiset.Subset.refl _, Multiset.Subset.refl _⟩
    simp only [Qwen3Scheduler.ahead, Qwen3Scheduler.running, inflightPrefills, Multiset.mem_add] at hid ⊢
    exact hid.imp_left (promoteReady_mem _ _ _ id).1

theorem admitAll_moves (clock : RequestId → Instant) (pending : List PendingRequest) (s s' : Qwen3Scheduler E)
    (l l' : RequestLedger) (h : s.admitAll l clock pending = .ok (s', l')) :
    ∃ e admitted, s' = { s with executor := e, prefilling := s.prefilling ++ admitted } ∧ admitted ⊆ pending := by
  induction pending generalizing s l with
  | nil =>
    cases h
    exact ⟨s'.executor, [], by simp, List.Subset.refl _⟩
  | cons req pending ih =>
    obtain ⟨⟨s₁, l₁⟩, h₁, h⟩ := bind_ok h
    obtain ⟨aborted, -, h₁⟩ := bind_ok h₁
    cases aborted with
    | true =>
      obtain ⟨rfl, -⟩ := retireAborted_ok h₁
      obtain ⟨e, admitted, rfl, hsub⟩ := ih _ _ h
      exact ⟨e, admitted, rfl, fun x hx => List.mem_cons_of_mem _ (hsub hx)⟩
    | false =>
      obtain ⟨l₂, -, h₁⟩ := bind_ok h₁
      cases h₁
      obtain ⟨e, admitted, rfl, hsub⟩ := ih _ _ h
      refine ⟨e, req :: admitted, by simp, fun x hx => ?_⟩
      rcases List.mem_cons.1 hx with rfl | hx
      · exact List.mem_cons_self
      · exact List.mem_cons_of_mem _ (hsub hx)

theorem admission_mem (s : Qwen3Scheduler E) (deferred : List PendingRequest) (id : RequestId)
    (h : id ∈ ids (s.admission deferred).pending ∨ id ∈ ids (s.admission deferred).deferred) : id ∈ ids deferred := by
  unfold Qwen3Scheduler.admission admitDeferredRequests at h
  rw [← Multiset.mem_add] at h
  rw [← admitLoop_ids]
  exact Multiset.mem_add.2 (Or.inl h)

/-- **Admission.** What admission starts stood in `deferred`, and what it leaves there did too. -/
theorem admitQueued_moves {s s' : Qwen3Scheduler E} {l l' : RequestLedger} {clock : RequestId → Instant}
    (h : s.admitQueued l clock = .ok (s', l')) :
    s'.loraRx = s.loraRx ∧ s'.pendingControl = s.pendingControl ∧ s'.behind = s.behind ∧ s'.ahead ⊆ s.ahead ∧
      s'.running ⊆ s.running + ids s.deferred := by
  unfold admitQueued at h
  obtain ⟨⟨s₁, l₁⟩, h₁, h⟩ := bind_ok h
  obtain ⟨⟨s₂, l₂⟩, h₂, h⟩ := bind_ok h
  obtain ⟨e₁, rfl⟩ := rejectAll_executor _ _ _ _ _ h₁
  obtain ⟨e₂, rfl⟩ := rejectAll_executor _ _ _ _ _ h₂
  obtain ⟨e₃, admitted, rfl, hadm⟩ := admitAll_moves _ _ _ _ _ _ h
  have hlora : ∀ id ∈ ids (rejectUnknownLoraRequests s.deferred s.executor).1, id ∈ ids s.deferred := fun id hid => by
    rw [← rejectUnknownLoraRequests_ids s.deferred s.executor]
    exact Multiset.mem_add.2 (Or.inl hid)
  have hpend : ∀ id ∈ ids admitted, id ∈ ids s.deferred := fun id hid =>
    hlora id (admission_mem _ _ id (Or.inl (ids_subset hadm hid)))
  refine ⟨rfl, rfl, rfl, fun id hid => ?_, fun id hid => ?_⟩
  · simp only [Qwen3Scheduler.ahead, Qwen3Scheduler.running, inflightPrefills, ids_append, Multiset.mem_add]
      at hid ⊢
    rcases hid with (hid | hid) | ((hid | hid) | hid) | hid
    · exact Or.inl (Or.inl (hlora id (admission_mem _ _ id (Or.inr hid))))
    · exact Or.inl (Or.inr hid)
    · exact Or.inr (Or.inl (Or.inl hid))
    · exact Or.inl (Or.inl (hpend id hid))
    · exact Or.inr (Or.inl (Or.inr hid))
    · exact Or.inr (Or.inr hid)
  · simp only [Qwen3Scheduler.running, inflightPrefills, ids_append, Multiset.mem_add] at hid ⊢
    rcases hid with ((hid | hid) | hid) | hid
    · exact Or.inl (Or.inl (Or.inl hid))
    · exact Or.inr (hpend id hid)
    · exact Or.inl (Or.inl (Or.inr hid))
    · exact Or.inl (Or.inr hid)

/-- choosing the plan takes requests out of `prefilling` -/
theorem nextPlan_running (s : Qwen3Scheduler E) :
    s.nextPlan.1.running + ids (taken s.nextPlan.2) = s.running := by
  unfold nextPlan
  split_ifs with hinf
  · simp [runtimePlanAt_taken]
  · rw [runtimePlanAt_taken]
    simp only [running, inflightPrefills]
    rw [← takePrefillChunks_ids s.prefilling s.maxPrefillTokens s.requestLocal]
    abel

theorem nextPlan_rest (s : Qwen3Scheduler E) :
    s.nextPlan.1.loraRx = s.loraRx ∧ s.nextPlan.1.pendingControl = s.pendingControl ∧
      s.nextPlan.1.deferred = s.deferred ∧ s.nextPlan.1.loading = s.loading ∧
      s.nextPlan.1.postControlDeferred = s.postControlDeferred := by
  unfold nextPlan
  split_ifs
  · exact ⟨rfl, rfl, rfl, rfl, rfl⟩
  · exact ⟨rfl, rfl, rfl, rfl, rfl⟩

/-- **Execution.** After a plan only what ran beside it or was taken by it runs; a lost worker ends the driver. -/
theorem execute_moves {s s' : Qwen3Scheduler E} {l l' : RequestLedger} {plan : ExecutionPlan}
    {u : Except StepError Unit} (h : s.execute l plan = .ok (u, s', l')) :
    s'.loraRx = s.loraRx ∧ s'.pendingControl = s.pendingControl ∧ s'.deferred = s.deferred ∧
      s'.loading = s.loading ∧ s'.postControlDeferred = s.postControlDeferred ∧
      s'.running ⊆ s.running + ids (taken (some plan)) := by
  have hstay : s.running ⊆ s.running + ids (taken (some plan)) := fun _ h => Multiset.mem_add.2 (Or.inl h)
  unfold execute at h
  dsimp only at h
  obtain ⟨⟨ran, e⟩, hran, h⟩ := bind_ok h
  cases ran with
  | error err =>
    dsimp only at h
    unfold absorbStepFailure at h
    split_ifs at h
    · cases h
      exact ⟨rfl, rfl, rfl, rfl, rfl, hstay⟩
    · obtain ⟨⟨s₁, l₁⟩, h₁, h⟩ := bind_ok h
      cases h
      obtain ⟨e', rfl⟩ := failTouchedRequests_executor _ _ _ _ _ _ h₁
      refine ⟨rfl, rfl, rfl, rfl, rfl, fun id hid => hstay ?_⟩
      simp only [Qwen3Scheduler.running, inflightPrefills, activeIds_nil, Multiset.mem_add, Multiset.notMem_zero,
        or_false] at hid ⊢
      exact hid.imp_left Or.inl
  | ok artifacts =>
    dsimp only at h
    obtain ⟨effects, heffects, h⟩ := bind_ok h
    obtain ⟨⟨s₁, l₁⟩, h₁, h⟩ := bind_ok h
    have hans := executePlan_answered hran
    obtain ⟨hrx, hc, hd, hl, hp, hr⟩ := applyEffects_moves (fun effect hmem => hans (resolveStep_mem heffects effect hmem)) h₁
    split at h
    · rename_i pending hinflight
      cases h
      refine ⟨hrx, hc, hd, hl, hp, fun id hid => ?_⟩
      have htaken : ids pending ⊆ ids (taken (some plan)) := by
        cases plan with
        | unified batch =>
          simp only at hinflight
          split_ifs at hinflight
          cases hinflight
          exact Multiset.Subset.refl _
        | _ => cases hinflight
      simp only [Qwen3Scheduler.running, inflightPrefills, Option.getD_some, Multiset.mem_add] at hid
      rcases hid with hid | hid
      · refine hr ?_
        simp only [Qwen3Scheduler.running, Multiset.mem_add]
        exact Or.inl hid
      · exact Multiset.mem_add.2 (Or.inr (htaken hid))
    · cases h
      exact ⟨hrx, hc, hd, hl, hp, hr⟩

end Qwen3Scheduler

end Pegainfer.Qwen3
