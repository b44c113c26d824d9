/-
No request is lost: the open accounts of the ledger are the requests in the scheduler's queues.

What the scheduler relies on of its executor is `Answers`: a call that succeeds answers each request it was given, and
a prefill launched beside decode is answered by the poll.
- `Accounted`: waiting requests have a queued account, running ones an admitted account, each request in one queue.
- `applyEffects_books`, `prepare_accounted`, `execute_accounted`: the parts of a step.
- `no_request_lost`: the queues and the open accounts agree along every run in which no prefill plan fails beside a
  decode batch. Such a failure clears the decode batch without closing its accounts (`prefill_failure_loses_active`).
-/
import Mathlib.Tactic
import Pegainfer.Lib.Machine
import Pegainfer.Qwen3.Standing

set_option linter.unusedSectionVars false

namespace Pegainfer.Qwen3

open Pegainfer.Frontend
open Pegainfer.Lib
open ModelExecutor

variable {E : Type} [ModelExecutor E] {launched : E → Option (List RequestId)}

/-! ## What the scheduler relies on of its executor -/

/-- a launched prefill stays launched -/
def Keeps (launched : E → Option (List RequestId)) (e e' : E) : Prop :=
  ∀ batch, launched e = some batch → launched e' = some batch

/-- successful calls answer what they were asked; `launched` is the prefill running beside decode -/
structure Answers (launched : E → Option (List RequestId)) : Prop where
  prefill : ∀ {e e' : E} {items results}, executePrefill e items = (.ok results, e') →
    (results.map (·.requestId)).Perm (items.map (·.requestId))
  decode : ∀ {e e' : E} {items results}, executeDecode e items = (.ok results, e') →
    (results.map (·.requestId)).Perm (items.map (·.requestId))
  draft : ∀ {e e' : E} {items results}, executeSpeculativeDraft e items = (.ok results, e') →
    (results.map (·.requestId)).Perm (items.map (·.requestId))
  verify : ∀ {e e' : E} {items gated results}, executeSpeculativeVerify e items gated = (.ok results, e') →
    (results.map (·.requestId)).Perm (items.map (·.requestId))
  unified : ∀ {e e' : E} {prefills decodes result}, executeUnified e prefills decodes = (.ok result, e') →
    (result.decodeRequests.map (·.requestId)).Perm (decodes.map (·.requestId))
  unified_joined : ∀ {e e' : E} {prefills decodes result}, hasDecodeOverlap e = false →
    executeUnified e prefills decodes = (.ok result, e') →
    (result.prefillRequests.map (·.requestId)).Perm (prefills.map (·.requestId))
  unified_launched : ∀ {e e' : E} {prefills decodes result}, hasDecodeOverlap e = true →
    executeUnified e prefills decodes = (.ok result, e') →
    result.prefillRequests = [] ∧ launched e' = some (prefills.map (·.requestId))
  polled : ∀ {e e' : E} {batch results}, launched e = some batch → pollAsyncPrefill e = (some results, e') →
    results.map (·.requestId) = batch
  keeps_poll : ∀ {e e' : E}, pollAsyncPrefill e = (none, e') → Keeps launched e e'
  keeps_drop : ∀ (e : E) (id : RequestId), Keeps launched e (dropRequest e id)
  keeps_decode : ∀ (e : E) items, Keeps launched e (executeDecode e items).2
  keeps_draft : ∀ (e : E) items, Keeps launched e (executeSpeculativeDraft e items).2
  keeps_verify : ∀ (e : E) items gated, Keeps launched e (executeSpeculativeVerify e items gated).2
  keeps_begin : ∀ (e : E) id prompt lora floor, Keeps launched e (beginKvPrefetch e id prompt lora floor).2
  keeps_drain : ∀ (e : E) floor, Keeps launched e (drainReadyPrefetch e floor).2

theorem Keeps.refl (e : E) : Keeps launched e e := fun _ h => h

theorem Keeps.trans {e e' e'' : E} (h : Keeps launched e e') (h' : Keeps launched e' e'') : Keeps launched e e'' :=
  fun batch hb => h' batch (h batch hb)

/-! ## Custody -/

namespace Qwen3Scheduler

/-- the requests not admitted yet -/
def waiting (s : Qwen3Scheduler E) : Multiset RequestId := ids s.deferred + ids s.loading + ids s.postControlDeferred

/-- the admitted requests -/
def running (s : Qwen3Scheduler E) : Multiset RequestId := ids s.prefilling + activeIds s.active + ids s.inflightPrefills

/-- the queues are the open accounts, and a prefill in flight is the launched one -/
structure Accounted (launched : E → Option (List RequestId)) (s : Qwen3Scheduler E) (l : RequestLedger) : Prop where
  books : Books s.waiting s.running (standing l)
  inflight : ∀ pending, s.inflightPrefillPending = some pending →
    launched s.executor = some (pending.map (·.requestId))

/-- only the decode batch and the counters differ -/
structure SameQueues (launched : E → Option (List RequestId)) (s s' : Qwen3Scheduler E) : Prop where
  deferred : s'.deferred = s.deferred
  loading : s'.loading = s.loading
  prefilling : s'.prefilling = s.prefilling
  inflight : s'.inflightPrefillPending = s.inflightPrefillPending
  post : s'.postControlDeferred = s.postControlDeferred
  keeps : Keeps launched s.executor s'.executor

theorem SameQueues.refl (s : Qwen3Scheduler E) : SameQueues launched s s := ⟨rfl, rfl, rfl, rfl, rfl, Keeps.refl _⟩

theorem SameQueues.trans {s s' s'' : Qwen3Scheduler E} (h : SameQueues launched s s')
    (h' : SameQueues launched s' s'') : SameQueues launched s s'' :=
  ⟨h'.deferred.trans h.deferred, h'.loading.trans h.loading, h'.prefilling.trans h.prefilling,
    h'.inflight.trans h.inflight, h'.post.trans h.post, h.keeps.trans h'.keeps⟩

theorem SameQueues.drop (ha : Answers launched) (s : Qwen3Scheduler E) (id : RequestId) :
    SameQueues launched s (s.dropRequest id) := ⟨rfl, rfl, rfl, rfl, rfl, ha.keeps_drop _ _⟩

theorem SameQueues.waiting_eq {s s' : Qwen3Scheduler E} (h : SameQueues launched s s') : s'.waiting = s.waiting := by
  simp only [waiting, h.deferred, h.loading, h.post]

/-! ## Retirement, failure, rejection, admission -/

/-- closing a queue of requests of the first class -/
theorem retireAborted_ok {s s' : Qwen3Scheduler E} {l l' : RequestLedger} {id : RequestId}
    (h : s.retireAborted l id = .ok (s', l')) :
    s' = s.dropRequest id ∧ standing l' = Function.update (standing l) id none := by
  obtain ⟨m, hm, h⟩ := bind_ok h
  cases h
  exact ⟨rfl, retire_standing hm⟩

theorem splitAborted_ids (l : RequestLedger) (queue : List PendingRequest) (r : List PendingRequest × List PendingRequest)
    (h : splitAborted l queue = .ok r) : ids r.1 + ids r.2 = ids queue := by
  induction queue generalizing r with
  | nil =>
    cases h
    rfl
  | cons req queue ih =>
    obtain ⟨aborted, -, h⟩ := bind_ok h
    obtain ⟨rest, hrest, h⟩ := bind_ok h
    cases h
    cases aborted with
    | true =>
      rw [if_pos rfl, ids_cons, ids_cons, Multiset.cons_add, ih rest hrest]
    | false =>
      rw [if_neg (by decide), ids_cons, ids_cons, Multiset.add_cons, ih rest hrest]

/-- retiring requests of either class closes them -/
theorem retireAll_books (ha : Answers launched) (reqs : List PendingRequest) (s s' : Qwen3Scheduler E)
    (l l' : RequestLedger) (h : s.retireAll l reqs = .ok (s', l')) :
    (∃ e, s' = { s with executor := e } ∧ Keeps launched s.executor e) ∧
    (∀ w r, Books (ids reqs + w) r (standing l) → Books w r (standing l')) ∧
    (∀ w r, Books w (ids reqs + r) (standing l) → Books w r (standing l')) := by
  induction reqs generalizing s l with
  | nil =>
    cases h
    exact ⟨⟨_, rfl, Keeps.refl _⟩, fun w r hb => by simpa using hb, fun w r hb => by simpa using hb⟩
  | cons req reqs ih =>
    obtain ⟨⟨s₁, l₁⟩, h₁, h⟩ := bind_ok h
    obtain ⟨rfl, hst⟩ := retireAborted_ok h₁
    obtain ⟨⟨e, rfl, hk⟩, hw, hr⟩ := ih _ _ h
    refine ⟨⟨e, rfl, (ha.keeps_drop _ _).trans hk⟩, fun w r hb => ?_, fun w r hb => ?_⟩
    · refine hw w r ?_
      rw [hst]
      exact Books.close_first (by simpa [Multiset.cons_add] using hb)
    · refine hr w r ?_
      rw [hst]
      exact Books.close_second (by simpa [Multiset.cons_add] using hb)

theorem retireAbortedWaiting_accounted (ha : Answers launched) {s s' : Qwen3Scheduler E} {l l' : RequestLedger}
    (hs : Accounted launched s l) (h : s.retireAbortedWaiting l = .ok (s', l')) : Accounted launched s' l' := by
  obtain ⟨q₁, hq₁, h⟩ := bind_ok h
  obtain ⟨⟨s₁, l₁⟩, h₁, h⟩ := bind_ok h
  obtain ⟨q₂, hq₂, h⟩ := bind_ok h
  obtain ⟨⟨s₂, l₂⟩, h₂, h⟩ := bind_ok h
  obtain ⟨q₃, hq₃, h₃⟩ := bind_ok h
  obtain ⟨⟨e₁, rfl, hk₁⟩, hw₁, -⟩ := retireAll_books ha _ _ _ _ _ h₁
  obtain ⟨⟨e₂, rfl, hk₂⟩, hw₂, -⟩ := retireAll_books ha _ _ _ _ _ h₂
  obtain ⟨⟨e₃, rfl, hk₃⟩, -, hr₃⟩ := retireAll_books ha _ _ _ _ _ h₃
  have hi₁ := splitAborted_ids _ _ _ hq₁
  have hi₂ := splitAborted_ids _ _ _ hq₂
  have hi₃ := splitAborted_ids _ _ _ hq₃
  dsimp only at hi₂ hi₃ hk₂ hk₃
  refine ⟨?_, fun pending hp => hk₃ _ (hk₂ _ (hk₁ _ (hs.inflight pending hp)))⟩
  refine hr₃ _ _ ((hw₂ _ _ ((hw₁ (ids q₁.2 + ids s.loading + ids s.postControlDeferred) s.running ?_).congr ?_
    rfl)).congr rfl ?_)
  · exact hs.books.congr (by rw [waiting, ← hi₁]; abel) rfl
  · simp only [waiting]
    rw [← hi₂]
    abel
  · simp only [running]
    rw [← hi₃]
    simp only [inflightPrefills]
    abel

/-- failing admitted requests closes them and empties the decode batch -/
theorem failTouchedRequests_books (ha : Answers launched) (message : String) (targets : List RequestId)
    (s s' : Qwen3Scheduler E) (l l' : RequestLedger) (w r : Multiset RequestId)
    (hb : Books w (↑targets + r) (standing l)) (h : s.failTouchedRequests l message targets = .ok (s', l')) :
    (∃ e, s' = { s with executor := e, active := [] } ∧ Keeps launched s.executor e) ∧
      Books w r (standing l') := by
  induction targets generalizing s l with
  | nil =>
    cases h
    exact ⟨⟨_, rfl, Keeps.refl _⟩, by simpa using hb⟩
  | cons id targets ih =>
    rw [← Multiset.cons_coe, Multiset.cons_add] at hb
    simp only [failTouchedRequests] at h
    rw [if_pos ((isActive_standing l id).2 hb.second_standing)] at h
    obtain ⟨l₁, h₁, h⟩ := bind_ok h
    have hst := fail_standing h₁
    obtain ⟨⟨e, rfl, hk⟩, hb'⟩ := ih (s.dropRequest id) l₁ (by rw [hst]; exact hb.close_second) h
    exact ⟨⟨e, rfl, (ha.keeps_drop _ _).trans hk⟩, hb'⟩

theorem rejectAll_books (ha : Answers launched) (rejected : List (PendingRequest × RejectReason))
    (s s' : Qwen3Scheduler E) (l l' : RequestLedger) (w r : Multiset RequestId)
    (hb : Books (ids (rejected.map (·.1)) + w) r (standing l)) (h : s.rejectAll l rejected = .ok (s', l')) :
    (∃ e, s' = { s with executor := e } ∧ Keeps launched s.executor e) ∧ Books w r (standing l') := by
  induction rejected generalizing s l with
  | nil =>
    cases h
    exact ⟨⟨_, rfl, Keeps.refl _⟩, by simpa using hb⟩
  | cons x rejected ih =>
    obtain ⟨req, reason⟩ := x
    obtain ⟨⟨s₁, l₁⟩, h₁, h⟩ := bind_ok h
    obtain ⟨m, hm, h₁⟩ := bind_ok h₁
    cases h₁
    rw [List.map_cons, ids_cons, Multiset.cons_add] at hb
    obtain ⟨⟨e, rfl, hk⟩, hb'⟩ := ih (s.dropRequest req.requestId) l₁
      (by rw [reject_standing hm]; exact hb.close_first) h
    exact ⟨⟨e, rfl, (ha.keeps_drop _ _).trans hk⟩, hb'⟩

/-- admitted requests move from the first class to the back of `prefilling` -/
theorem admitAll_books (ha : Answers launched) (clock : RequestId → Instant) (pending : List PendingRequest)
    (s s' : Qwen3Scheduler E) (l l' : RequestLedger) (w r : Multiset RequestId)
    (hb : Books (ids pending + w) (ids s.prefilling + r) (standing l))
    (h : s.admitAll l clock pending = .ok (s', l')) :
    (∃ e q, s' = { s with executor := e, prefilling := q } ∧ Keeps launched s.executor e) ∧
      Books w (ids s'.prefilling + r) (standing l') := by
  induction pending generalizing s l with
  | nil =>
    cases h
    exact ⟨⟨_, _, rfl, Keeps.refl _⟩, by simpa using hb⟩
  | cons req pending ih =>
    rw [ids_cons, Multiset.cons_add] at hb
    obtain ⟨⟨s₁, l₁⟩, h₁, h⟩ := bind_ok h
    obtain ⟨aborted, -, h₁⟩ := bind_ok h₁
    cases aborted with
    | true =>
      obtain ⟨rfl, hst⟩ := retireAborted_ok h₁
      obtain ⟨⟨e, q, rfl, hk⟩, hb'⟩ := ih (s.dropRequest req.requestId) l₁ (by rw [hst]; exact hb.close_first) h
      exact ⟨⟨e, q, rfl, (ha.keeps_drop _ _).trans hk⟩, hb'⟩
    | false =>
      obtain ⟨m, hm, h₁⟩ := bind_ok h₁
      cases h₁
      have hb₁ : Books (ids pending + w) (ids (s.prefilling ++ [req]) + r) (standing l₁) := by
        rw [admitRequest_standing hm]
        refine hb.enter.congr rfl ?_
        simp only [ids_append, ids_cons, ids_nil, ← Multiset.singleton_add]
        abel
      obtain ⟨⟨e, q, rfl, hk⟩, hb'⟩ := ih { s with prefilling := s.prefilling ++ [req] } l₁ hb₁ h
      exact ⟨⟨e, q, rfl, hk⟩, hb'⟩

/-! ## Effects -/

/-- the requests whose finish is noted for the end of the step -/
def finishIds (finishes : List (RequestId × FinishReason × Option StopCause)) : Multiset RequestId :=
  finishes.map (·.1)

@[simp] theorem finishIds_nil : finishIds [] = 0 := rfl

@[simp] theorem finishIds_concat (finishes : List (RequestId × FinishReason × Option StopCause))
    (f : RequestId × FinishReason × Option StopCause) : finishIds (finishes ++ [f]) = f.1 ::ₘ finishIds finishes := by
  rw [finishIds, List.map_append, ← Multiset.coe_add, Multiset.add_comm]
  rfl

/-- what closing or finishing an admitted request does: its account is closed, or its finish is noted -/
theorem Applying.closeOrFinish_ok {a a' : Applying E} {id : RequestId} {tokens : List TokenId}
    {logprobs : List (Option TokenLogprob)} {reason : FinishReason} {cause : Option StopCause}
    (hid : standing a.ledger id = some true) (h : a.closeOrFinish id tokens logprobs reason cause = .ok a') :
    ∃ l fs, a' = { a with ledger := l, finishes := fs } ∧
      ((standing l = Function.update (standing a.ledger) id none ∧ fs = a.finishes) ∨
        (standing l = standing a.ledger ∧ fs = a.finishes ++ [(id, reason, cause)])) := by
  unfold closeOrFinish at h
  rw [if_pos ((isActive_standing _ _).2 hid)] at h
  obtain ⟨aborted, -, h⟩ := bind_ok h
  cases aborted with
  | true =>
    obtain ⟨l, hl, h⟩ := bind_ok h
    cases h
    exact ⟨l, _, rfl, Or.inl ⟨retire_standing hl, rfl⟩⟩
  | false =>
    obtain ⟨l, hl, h⟩ := bind_ok h
    cases h
    exact ⟨l, _, rfl, Or.inr ⟨pushTokens_standing hl, rfl⟩⟩

/-- the decode loop: the rows marked so far are those of answered requests, the others are still open -/
structure Retiring (launched : E → Option (List RequestId)) (s : Qwen3Scheduler E) (w base : Multiset RequestId)
    (answered : List RequestId) (a : Applying E) : Prop where
  same : SameQueues launched s a.scheduler
  active : a.scheduler.active.map (·.requestId) = s.active.map (·.requestId)
  nodup : a.toRetire.Nodup
  marked : ∀ i ∈ a.toRetire, ∃ id ∈ answered, (s.active.map (·.requestId))[i]? = some id
  kept : ∃ kept, activeIds s.active = kept + ↑(a.toRetire.filterMap fun i => (s.active.map (·.requestId))[i]?) ∧
    Books w (base + kept + finishIds a.finishes) (standing a.ledger)
  continued : a.continued = []

/-- the row of a request not answered yet: unmarked, and its account open -/
theorem Retiring.hit {s : Qwen3Scheduler E} {w base : Multiset RequestId} {answered : List RequestId} {a : Applying E}
    {id : RequestId} {i : ℕ} (h : Retiring launched s w base answered a) (hid : id ∉ answered)
    (hi : a.position id = some i) :
    (s.active.map (·.requestId))[i]? = some id ∧ i ∉ a.toRetire ∧
    ∃ kept, activeIds s.active =
      (id ::ₘ kept) + ↑(a.toRetire.filterMap fun i => (s.active.map (·.requestId))[i]?) ∧
      Books w (id ::ₘ (base + kept + finishIds a.finishes)) (standing a.ledger) := by
  have hrow : (s.active.map (·.requestId))[i]? = some id := by
    rw [← h.active]
    obtain ⟨hlt, heq, -⟩ := List.findIdx?_eq_some_iff_getElem.1 hi
    simp only [beq_iff_eq] at heq
    rw [List.getElem?_map, List.getElem?_eq_getElem hlt, Option.map_some, heq]
  have hfresh : ∀ j ∈ a.toRetire, (s.active.map (·.requestId))[j]? ≠ some id := by
    intro j hj hrow'
    obtain ⟨id', hid', hget⟩ := h.marked j hj
    rw [hrow'] at hget
    exact hid (Option.some.inj hget ▸ hid')
  refine ⟨hrow, fun hmem => hfresh i hmem hrow, ?_⟩
  obtain ⟨kept, hkept, hb⟩ := h.kept
  have hin : id ∈ activeIds s.active := Multiset.mem_coe.2 (List.mem_of_getElem? hrow)
  rw [hkept, Multiset.mem_add] at hin
  rcases hin with hin | hin
  · obtain ⟨kept, rfl⟩ := Multiset.exists_cons_of_mem hin
    refine ⟨kept, hkept, hb.congr rfl ?_⟩
    simp only [← Multiset.singleton_add]
    abel
  · obtain ⟨j, hj, hget⟩ := List.mem_filterMap.1 (Multiset.mem_coe.1 hin)
    exact absurd hget (hfresh j hj)

/-- the row of an answered request is marked and its account closed or its finish noted -/
theorem Retiring.mark {s : Qwen3Scheduler E} {w base : Multiset RequestId} {answered : List RequestId}
    {a a' : Applying E} {id : RequestId} {i : ℕ} (h : Retiring launched s w base answered a) (hid : id ∉ answered)
    (hi : a.position id = some i) (hsame : SameQueues launched a.scheduler a'.scheduler)
    (hactive : a'.scheduler.active = a.scheduler.active) (hmark : a'.toRetire = a.toRetire ++ [i])
    (hcont : a'.continued = a.continued)
    (hclose : (standing a'.ledger = Function.update (standing a.ledger) id none ∧ a'.finishes = a.finishes) ∨
      (standing a'.ledger = standing a.ledger ∧ finishIds a'.finishes = id ::ₘ finishIds a.finishes)) :
    Retiring launched s w base (answered ++ [id]) a' := by
  obtain ⟨hrow, hnew, kept, hkept, hb⟩ := h.hit hid hi
  refine ⟨h.same.trans hsame, by rw [hactive, h.active], ?_, ?_, ⟨kept, ?_, ?_⟩, by rw [hcont, h.continued]⟩
  · rw [hmark]
    exact List.Nodup.append h.nodup (List.nodup_singleton i) (by simpa using hnew)
  · intro j hj
    rw [hmark, List.mem_append, List.mem_singleton] at hj
    rcases hj with hj | rfl
    · obtain ⟨id', hid', hget⟩ := h.marked j hj
      exact ⟨id', List.mem_append_left _ hid', hget⟩
    · exact ⟨id, by simp, hrow⟩
  · rw [hkept, hmark, List.filterMap_append, ← Multiset.coe_add]
    simp only [List.filterMap_cons, hrow, List.filterMap_nil, ← Multiset.singleton_add, Multiset.coe_singleton]
    abel
  · rcases hclose with ⟨hst, hf⟩ | ⟨hst, hf⟩
    · rw [hst, hf]
      exact hb.close_second
    · rw [hst, hf]
      refine hb.congr rfl ?_
      simp only [← Multiset.singleton_add]
      abel

theorem Retiring.decodeFinish {s : Qwen3Scheduler E} {w base : Multiset RequestId} {answered : List RequestId}
    {a a' : Applying E} {id : RequestId} {tokens : List TokenId} {logprobs : List (Option TokenLogprob)}
    {reason : FinishReason} {cause : Option StopCause} (ha : Answers launched)
    (h : Retiring launched s w base answered a) (hid : id ∉ answered)
    (hr : a.decodeFinish id tokens logprobs reason cause = .ok a') :
    Retiring launched s w base (answered ++ [id]) a' := by
  unfold Applying.decodeFinish at hr
  split at hr
  · cases hr
    exact { h with
      marked := fun i hi => by
        obtain ⟨id', hid', hget⟩ := h.marked i hi
        exact ⟨id', List.mem_append_left _ hid', hget⟩ }
  · rename_i i hi
    obtain ⟨b, hb, hr⟩ := bind_ok hr
    cases hr
    obtain ⟨-, -, kept, -, hbooks⟩ := h.hit hid hi
    obtain ⟨l, fs, rfl, hclose⟩ := Applying.closeOrFinish_ok hbooks.second_standing hb
    refine h.mark hid hi (SameQueues.drop ha _ _) rfl rfl rfl ?_
    rcases hclose with ⟨hst, hf⟩ | ⟨hst, hf⟩
    · exact Or.inl ⟨hst, hf⟩
    · exact Or.inr ⟨hst, by simp only [Applying.drop, hf, finishIds_concat]⟩

theorem map_modify_requestId (active : List ActiveRequestState) (i : ℕ) (f : ActiveRequestState → ActiveRequestState)
    (hf : ∀ req, (f req).requestId = req.requestId) :
    (active.modify i f).map (·.requestId) = active.map (·.requestId) := by
  apply List.ext_getElem?
  intro j
  rw [List.getElem?_map, List.getElem?_map, List.getElem?_modify]
  by_cases hij : i = j
  · cases active[j]? with
    | none => simp
    | some req => simp [hij, hf]
  · simp [hij]

theorem Retiring.decodeContinue {s : Qwen3Scheduler E} {w base : Multiset RequestId} {answered : List RequestId}
    {a a' : Applying E} {id : RequestId} {tokens : List TokenId} {logprobs : List (Option TokenLogprob)} {n : ℕ}
    (ha : Answers launched) (h : Retiring launched s w base answered a) (hid : id ∉ answered)
    (hr : a.decodeContinue id tokens logprobs n = .ok a') :
    Retiring launched s w base (answered ++ [id]) a' := by
  have hmarked : ∀ i ∈ a.toRetire, ∃ id' ∈ answered ++ [id], (s.active.map (·.requestId))[i]? = some id' := by
    intro i hi
    obtain ⟨id', hid', hget⟩ := h.marked i hi
    exact ⟨id', List.mem_append_left _ hid', hget⟩
  unfold Applying.decodeContinue at hr
  split at hr
  · cases hr
    exact { h with marked := hmarked }
  · rename_i i hi
    obtain ⟨aborted, -, hr⟩ := bind_ok hr
    cases aborted with
    | true =>
      obtain ⟨⟨s₁, l₁⟩, h₁, hr⟩ := bind_ok hr
      cases hr
      obtain ⟨rfl, hst⟩ := retireAborted_ok h₁
      exact h.mark hid hi (SameQueues.drop ha _ _) rfl rfl rfl (Or.inl ⟨hst, rfl⟩)
    | false =>
      obtain ⟨l₁, h₁, hr⟩ := bind_ok hr
      have hst := pushTokens_standing h₁
      split at hr
      · cases hr
        refine ⟨h.same.trans ⟨rfl, rfl, rfl, rfl, rfl, Keeps.refl _⟩, ?_, h.nodup, hmarked, ?_, h.continued⟩
        · rw [← h.active]
          exact map_modify_requestId _ _ _ fun _ => rfl
        · simpa only [hst] using h.kept
      · cases hr
        exact ⟨h.same, h.active, h.nodup, hmarked, by simpa only [hst] using h.kept, h.continued⟩

theorem Retiring.decode_fold {s : Qwen3Scheduler E} {w base : Multiset RequestId} (ha : Answers launched)
    (effects : List DecodeEffect) (answered : List RequestId) (a a' : Applying E)
    (h : Retiring launched s w base answered a) (hnodup : (answered ++ effects.map (·.requestId)).Nodup)
    (hr : effects.foldlM Applying.applyDecode a = .ok a') :
    Retiring launched s w base (answered ++ effects.map (·.requestId)) a' := by
  induction effects generalizing answered a with
  | nil =>
    cases hr
    simpa using h
  | cons effect effects ih =>
    rw [List.foldlM_cons] at hr
    obtain ⟨b, hb, hr⟩ := bind_ok hr
    rw [List.map_cons, List.append_cons] at hnodup ⊢
    have hid : effect.requestId ∉ answered := by
      have hn := List.nodup_append.1 (List.nodup_append.1 hnodup).1
      exact fun hmem => hn.2.2 _ hmem _ (by simp) rfl
    refine ih (answered ++ [effect.requestId]) b ?_ hnodup hr
    cases effect with
    | finish id token logprob reason cause => exact h.decodeFinish ha hid hb
    | continueOne id token logprob n => exact h.decodeContinue ha hid hb
    | continueMany id tokens n => exact h.decodeContinue ha hid hb
    | finishMany id tokens reason cause => exact h.decodeFinish ha hid hb

/-- removing the marked rows leaves the open ones -/
theorem Retiring.removeRetired {s : Qwen3Scheduler E} {w base : Multiset RequestId} {answered : List RequestId}
    {a a' : Applying E} (h : Retiring launched s w base answered a) (hr : a.removeRetired = .ok a') :
    SameQueues launched s a'.scheduler ∧ a'.continued = [] ∧
      Books w (base + activeIds a'.scheduler.active + finishIds a'.finishes) (standing a'.ledger) := by
  obtain ⟨active, hactive, hr⟩ := bind_ok hr
  cases hr
  set sorted := a.toRetire.insertionSort (· ≤ ·) with hsorted
  have hperm : sorted.Perm a.toRetire := List.perm_insertionSort _ _
  have hnodup : sorted.Nodup := hperm.nodup_iff.2 h.nodup
  rw [hnodup.dedup] at hactive
  have hle : sorted.Pairwise (· ≤ ·) := List.pairwise_insertionSort _ _
  have hlt : sorted.Pairwise (· < ·) := (hle.and hnodup).imp fun ⟨hab, hne⟩ => lt_of_le_of_ne hab hne
  have hlen : a.scheduler.active.length = s.active.length := by simpa using congrArg List.length h.active
  have hrange : ∀ i ∈ sorted.reverse, i < a.scheduler.active.length := by
    intro i hi
    obtain ⟨id, -, hget⟩ := h.marked i (hperm.mem_iff.1 (List.mem_reverse.1 hi))
    have := (List.getElem?_eq_some_iff.1 hget).1
    rw [hlen]
    simpa using this
  obtain ⟨rest, hrest, hp⟩ := swapRemoveAll_perm sorted.reverse a.scheduler.active
    (List.pairwise_reverse.2 hlt) hrange
  rw [hactive] at hrest
  cases hrest
  obtain ⟨kept, hkept, hb⟩ := h.kept
  refine ⟨h.same.trans ⟨rfl, rfl, rfl, rfl, rfl, Keeps.refl _⟩, h.continued, ?_⟩
  have hids : activeIds s.active = ↑(a.toRetire.filterMap fun i => (s.active.map (·.requestId))[i]?) +
      activeIds active := by
    have hmap := Multiset.coe_eq_coe.2 (hp.map (·.requestId))
    rw [List.map_append, ← Multiset.coe_add, h.active] at hmap
    rw [activeIds, hmap, activeIds]
    congr 1
    rw [List.map_filterMap, Multiset.coe_eq_coe]
    refine ((List.reverse_perm sorted).trans hperm).filterMap _ |>.trans ?_
    refine List.Perm.of_eq (List.filterMap_congr fun i _ => ?_)
    rw [← h.active, List.getElem?_map]
  have heq : activeIds active = kept := by
    rw [hkept, add_comm] at hids
    exact (Multiset.add_right_inj.1 hids).symm
  exact hb.congr rfl (by rw [heq])

/-- the pending loop: each effect's request is closed, finished, promoted or put back -/
theorem pending_fold (ha : Answers launched) (effects : List PendingEffect) (a a' : Applying E)
    (w base : Multiset RequestId)
    (hb : Books w (↑(effects.map (·.requestId)) +
      (base + activeIds a.scheduler.active + ids a.continued + finishIds a.finishes)) (standing a.ledger))
    (hr : effects.foldlM Applying.applyPending a = .ok a') :
    SameQueues launched a.scheduler a'.scheduler ∧
      Books w (base + activeIds a'.scheduler.active + ids a'.continued + finishIds a'.finishes)
        (standing a'.ledger) := by
  induction effects generalizing a with
  | nil =>
    cases hr
    exact ⟨SameQueues.refl _, by simpa using hb⟩
  | cons effect effects ih =>
    rw [List.foldlM_cons] at hr
    obtain ⟨b, hstep, hr⟩ := bind_ok hr
    rw [List.map_cons, ← Multiset.cons_coe, Multiset.cons_add] at hb
    suffices hsuff : SameQueues launched a.scheduler b.scheduler ∧
        Books w (↑(effects.map (·.requestId)) +
          (base + activeIds b.scheduler.active + ids b.continued + finishIds b.finishes)) (standing b.ledger) by
      obtain ⟨hs, hb'⟩ := ih b hsuff.2 hr
      exact ⟨hsuff.1.trans hs, hb'⟩
    cases effect with
    | continuePrefill req =>
      obtain ⟨aborted, -, hstep⟩ := bind_ok hstep
      cases aborted with
      | true =>
        obtain ⟨⟨s₁, l₁⟩, h₁, hstep⟩ := bind_ok hstep
        cases hstep
        obtain ⟨rfl, hst⟩ := retireAborted_ok h₁
        exact ⟨SameQueues.drop ha _ _, by rw [hst]; exact hb.close_second⟩
      | false =>
        cases hstep
        refine ⟨SameQueues.refl _, hb.congr rfl ?_⟩
        simp only [PendingEffect.requestId, ids_append, ids_cons, ids_nil, ← Multiset.singleton_add]
        abel
    | emitAndFinish id token logprob reason cause =>
      obtain ⟨c, hc, hstep⟩ := bind_ok hstep
      cases hstep
      obtain ⟨l, fs, rfl, hclose⟩ := Applying.closeOrFinish_ok hb.second_standing hc
      refine ⟨SameQueues.drop ha _ _, ?_⟩
      rcases hclose with ⟨hst, rfl⟩ | ⟨hst, rfl⟩
      · show Books w _ (standing l)
        rw [hst]
        exact hb.close_second
      · show Books w _ (standing l)
        rw [hst]
        refine hb.congr rfl ?_
        simp only [PendingEffect.requestId, Applying.drop, dropRequest, finishIds_concat, ← Multiset.singleton_add]
        abel
    | promote state firstToken logprob =>
      obtain ⟨aborted, -, hstep⟩ := bind_ok hstep
      cases aborted with
      | true =>
        obtain ⟨⟨s₁, l₁⟩, h₁, hstep⟩ := bind_ok hstep
        cases hstep
        obtain ⟨rfl, hst⟩ := retireAborted_ok h₁
        exact ⟨SameQueues.drop ha _ _, by rw [hst]; exact hb.close_second⟩
      | false =>
        obtain ⟨l₁, h₁, hstep⟩ := bind_ok hstep
        cases hstep
        refine ⟨⟨rfl, rfl, rfl, rfl, rfl, Keeps.refl _⟩, ?_⟩
        rw [pushTokens_standing h₁]
        refine hb.congr rfl ?_
        simp only [PendingEffect.requestId, activeIds_concat, ← Multiset.singleton_add]
        abel

theorem deliverFinish_standing {e : E} {l l' : RequestLedger} {f : RequestId × FinishReason × Option StopCause}
    (h : deliverFinish e l f = .ok l') : standing l' = Function.update (standing l) f.1 none := by
  unfold deliverFinish at h
  split_ifs at h
  · obtain ⟨⟨u, m⟩, hm, h⟩ := bind_ok h
    cases h
    exact deferFinishWithCause_standing hm
  · exact finishWithCause_standing h

/-- the noted finishes close their accounts -/
theorem finish_fold (e : E) (finishes : List (RequestId × FinishReason × Option StopCause)) (l l' : RequestLedger)
    (w r : Multiset RequestId) (hb : Books w (finishIds finishes + r) (standing l))
    (h : finishes.foldlM (deliverFinish e) l = .ok l') : Books w r (standing l') := by
  induction finishes generalizing l with
  | nil =>
    cases h
    simpa using hb
  | cons f finishes ih =>
    rw [List.foldlM_cons] at h
    obtain ⟨m, hm, h⟩ := bind_ok h
    refine ih m ?_ h
    rw [deliverFinish_standing hm]
    refine Books.close_second (hb.congr rfl ?_)
    rw [← Multiset.cons_add]
    rfl

theorem report_fold {α : Type} (f : RequestLedger → α → Except String RequestLedger)
    (hf : ∀ l x l', f l x = .ok l' → standing l' = standing l) (xs : List α) (l l' : RequestLedger)
    (h : xs.foldlM f l = .ok l') : standing l' = standing l := by
  induction xs generalizing l with
  | nil =>
    cases h
    rfl
  | cons x xs ih =>
    rw [List.foldlM_cons] at h
    obtain ⟨m, hm, h⟩ := bind_ok h
    exact (ih m h).trans (hf l x m hm)

theorem reportCached_standing (l : RequestLedger) (c : RequestId × ℕ) (l' : RequestLedger)
    (h : reportCached l c = .ok l') : standing l' = standing l := by
  unfold reportCached at h
  split_ifs at h
  · exact annotate_standing h
  · cases h
    rfl

theorem reportEcho_standing (l : RequestLedger) (c : RequestId × PromptEcho) (l' : RequestLedger)
    (h : reportEcho l c = .ok l') : standing l' = standing l := by
  unfold reportEcho at h
  split_ifs at h
  · exact annotate_standing h
  · cases h
    rfl

/-- **Effects.** Applying a step's effects keeps the books: the prefill requests answered leave the step's batch for a
queue or a closed account. -/
theorem applyEffects_books (ha : Answers launched) {s s' : Qwen3Scheduler E} {l l' : RequestLedger}
    {effects : StepEffects} (h : s.applyEffects l effects = .ok (s', l'))
    (hdecode : (effects.decode.map (·.requestId)).Nodup) (aside : Multiset RequestId)
    (hb : Books s.waiting (s.running + aside + ↑(effects.pending.map (·.requestId))) (standing l)) :
    Books s'.waiting (s'.running + aside) (standing l') ∧
      s'.inflightPrefillPending = s.inflightPrefillPending ∧ Keeps launched s.executor s'.executor := by
  obtain ⟨l₁, h₁, h⟩ := bind_ok h
  obtain ⟨l₂, h₂, h⟩ := bind_ok h
  obtain ⟨a₁, h₃, h⟩ := bind_ok h
  obtain ⟨a₂, h₄, h⟩ := bind_ok h
  obtain ⟨a₃, h₅, h⟩ := bind_ok h
  obtain ⟨l₃, h₆, h⟩ := bind_ok h
  cases h
  have hst : standing l₂ = standing l :=
    (report_fold _ reportEcho_standing _ _ _ h₂).trans (report_fold _ reportCached_standing _ _ _ h₁)
  set base := ids s.prefilling + ids s.inflightPrefills + aside with hbase
  have hstart : Retiring launched s s.waiting (base + ↑(effects.pending.map (·.requestId))) []
      (⟨{ s with
          prefixCacheQueries := s.prefixCacheQueries + effects.prefixQueries
          prefixCacheHits := s.prefixCacheHits + effects.prefixHits }, l₂, [], [], []⟩ : Applying E) := by
    refine ⟨⟨rfl, rfl, rfl, rfl, rfl, Keeps.refl _⟩, rfl, List.nodup_nil, by simp, ⟨activeIds s.active, by simp, ?_⟩,
      rfl⟩
    rw [hst]
    refine hb.congr rfl ?_
    rw [finishIds_nil, hbase, running]
    abel
  have hloop := hstart.decode_fold ha effects.decode [] _ _ (by simpa using hdecode) h₃
  obtain ⟨hsame, hcont, hb₂⟩ := hloop.removeRetired h₄
  obtain ⟨hsame', hb₃⟩ := pending_fold ha effects.pending a₂ a₃ s.waiting base
    (hb₂.congr rfl (by rw [hcont, ids_nil]; abel)) h₅
  have hall := hsame.trans hsame'
  have hb₄ := finish_fold _ _ _ _ s.waiting (base + activeIds a₃.scheduler.active + ids a₃.continued)
    (hb₃.congr rfl (by abel)) h₆
  refine ⟨hb₄.congr hall.waiting_eq ?_, hall.inflight, hall.keeps⟩
  simp only [running, inflightPrefills, hall.prefilling, hall.inflight, ids_append, hbase]
  abel

/-! ## The parts of a step -/

theorem Accounted.ledger {s : Qwen3Scheduler E} {l l' : RequestLedger} (h : Accounted launched s l)
    (hst : standing l' = standing l) : Accounted launched s l' := ⟨by rw [hst]; exact h.books, h.inflight⟩

theorem pollInflight_accounted (ha : Answers launched) {s s' : Qwen3Scheduler E} {l l' : RequestLedger}
    (hs : Accounted launched s l) (h : s.pollInflight l = .ok (s', l')) : Accounted launched s' l' := by
  unfold pollInflight at h
  split at h
  · cases h
    exact hs
  · rename_i pending hp
    have hlaunched := hs.inflight pending hp
    dsimp only at h
    split at h
    · rename_i hpoll
      cases h
      refine ⟨hs.books, fun p hp' => ?_⟩
      exact ha.keeps_poll (Prod.ext hpoll rfl) _ (hs.inflight p hp')
    · rename_i result hpoll
      obtain ⟨effects, heff, h⟩ := bind_ok h
      have hids := ha.polled hlaunched (Prod.ext hpoll rfl)
      have hlen : result.length = pending.length := by simpa using congrArg List.length hids
      obtain ⟨hpend, hdec⟩ := resolvePrefillOutputs_ids pending result effects hlen heff
      obtain ⟨hb, hinf, -⟩ := applyEffects_books ha h (by rw [hdec]; exact List.nodup_nil) 0
        (hs.books.congr rfl (by
          simp only [hpend, running, inflightPrefills, hp, Option.getD_some, Option.getD_none, ids_nil, add_zero]
          rfl))
      refine ⟨by simpa using hb, fun p hp' => ?_⟩
      rw [hinf] at hp'
      cases hp'

theorem offerPrefetch_keeps (ha : Answers launched) (floor : ℕ) (deferred : List PendingRequest) (e : E) :
    Keeps launched e (offerPrefetch e floor deferred).2.2 := by
  induction deferred generalizing e with
  | nil => exact Keeps.refl e
  | cons req deferred ih =>
    simp only [offerPrefetch]
    split_ifs
    · exact (ha.keeps_begin _ _ _ _ _).trans (ih _)
    · exact (ha.keeps_begin _ _ _ _ _).trans (ih _)
    · exact ih e

theorem prefetch_accounted (ha : Answers launched) {s : Qwen3Scheduler E} {l : RequestLedger}
    (hs : Accounted launched s l) : Accounted launched s.prefetch l := by
  have hdrain : Accounted launched { s with
      executor := (drainReadyPrefetch s.executor
        (admittedFutureBlocks s.executor s.active s.prefilling s.inflightPrefills)).2
      deferred := (promoteReady s.deferred s.loading (drainReadyPrefetch s.executor
        (admittedFutureBlocks s.executor s.active s.prefilling s.inflightPrefills)).1).1
      loading := (promoteReady s.deferred s.loading (drainReadyPrefetch s.executor
        (admittedFutureBlocks s.executor s.active s.prefilling s.inflightPrefills)).1).2 } l := by
    refine ⟨hs.books.congr ?_ rfl, fun p hp => ha.keeps_drain _ _ _ (hs.inflight p hp)⟩
    simp only [waiting]
    rw [promoteReady_ids]
  unfold prefetch
  dsimp only
  split_ifs with hc
  · refine ⟨hdrain.books.congr ?_ rfl, fun p hp => offerPrefetch_keeps ha _ _ _ _ (hdrain.inflight p hp)⟩
    have hoffer := offerPrefetch_ids (admittedFutureBlocks s.executor s.active s.prefilling s.inflightPrefills)
      (promoteReady s.deferred s.loading (drainReadyPrefetch s.executor
        (admittedFutureBlocks s.executor s.active s.prefilling s.inflightPrefills)).1).1
      (drainReadyPrefetch s.executor
        (admittedFutureBlocks s.executor s.active s.prefilling s.inflightPrefills)).2
    simp only [waiting, ids_append]
    rw [← hoffer]
    abel
  · exact hdrain

theorem idle_iff {s : Qwen3Scheduler E} :
    s.idle = true ↔ s.active = [] ∧ s.deferred = [] ∧ s.prefilling = [] ∧ s.inflightPrefillPending = none := by
  simp [idle, and_assoc]

theorem applyControl_accounted {s : Qwen3Scheduler E} {l : RequestLedger} (hs : Accounted launched s l) :
    Accounted launched s.applyControl l := by
  unfold applyControl
  split_ifs with hidle
  · refine ⟨hs.books.congr ?_ rfl, fun p hp => ?_⟩
    · simp only [waiting, ids_append, ids_nil]
      abel
    · rw [(idle_iff.1 hidle).2.2.2] at hp
      cases hp
  · exact hs

theorem blockOnLoading_accounted {s : Qwen3Scheduler E} {l : RequestLedger} (hs : Accounted launched s l)
    (hidle : s.idle = true) : Accounted launched s.blockOnLoading l := by
  unfold blockOnLoading
  split_ifs
  · exact hs
  · refine ⟨hs.books.congr ?_ rfl, fun p hp => ?_⟩
    · simp only [waiting]
      rw [promoteReady_ids]
    · rw [(idle_iff.1 hidle).2.2.2] at hp
      cases hp

theorem admitQueued_accounted (ha : Answers launched) {s s' : Qwen3Scheduler E} {l l' : RequestLedger}
    {clock : RequestId → Instant} (hs : Accounted launched s l) (h : s.admitQueued l clock = .ok (s', l')) :
    Accounted launched s' l' := by
  obtain ⟨⟨s₁, l₁⟩, h₁, h⟩ := bind_ok h
  obtain ⟨⟨s₂, l₂⟩, h₂, h₃⟩ := bind_ok h
  have hlora := rejectUnknownLoraRequests_ids s.deferred s.executor
  set lora := rejectUnknownLoraRequests s.deferred s.executor
  obtain ⟨⟨e₁, rfl, hk₁⟩, hb₁⟩ := rejectAll_books ha _ _ _ _ _
    (ids lora.1 + ids s.loading + ids s.postControlDeferred) s.running
    (hs.books.congr (by
      rw [List.map_map, waiting, ← hlora]
      show ids (lora.2.map fun req => req) + _ = _
      rw [List.map_id']
      abel) rfl) h₁
  dsimp only at h₂ h₃ hk₁
  set outcome := admission { s with deferred := [], executor := e₁ } lora.1 with hout
  have hadm : ids outcome.pending + ids outcome.deferred + ids (outcome.rejected.map (·.1)) = ids lora.1 :=
    admitLoop_ids _ _ _ _ _
  obtain ⟨⟨e₂, rfl, hk₂⟩, hb₂⟩ := rejectAll_books ha _ _ _ _ _
    (ids outcome.pending + (ids outcome.deferred + ids s.loading + ids s.postControlDeferred)) s.running
    (hb₁.congr (by
      rw [List.map_map, ← hadm]
      show ids (outcome.rejected.map fun r => r.1) + _ = _
      abel) rfl) h₂
  dsimp only at h₃ hk₂
  obtain ⟨⟨e₃, q, rfl, hk₃⟩, hb₃⟩ := admitAll_books ha _ _ _ _ _ _ _ (activeIds s.active + ids s.inflightPrefills)
    (hb₂.congr rfl (by rw [running, add_assoc])) h₃
  refine ⟨hb₃.congr rfl ?_, fun p hp => hk₃ _ (hk₂ _ (hk₁ _ (hs.inflight p hp)))⟩
  simp only [running, inflightPrefills]
  abel

/-- the requests a step has taken out of the prefilling queue -/
def taken : Option ExecutionPlan → List PendingRequest
  | some (.prefill pending) => pending
  | some (.unified pending) => pending
  | _ => []

/-- between choosing a plan and running it, the taken requests are in no queue -/
structure Planned (launched : E → Option (List RequestId)) (s : Qwen3Scheduler E) (l : RequestLedger)
    (plan : Option ExecutionPlan) : Prop where
  books : Books s.waiting (s.running + ids (taken plan)) (standing l)
  inflight : ∀ pending, s.inflightPrefillPending = some pending →
    launched s.executor = some (pending.map (·.requestId))
  alone : ∀ pending, plan = some (.prefill pending) ∨ plan = some (.unified pending) →
    s.inflightPrefillPending = none

theorem Planned.accounted {s : Qwen3Scheduler E} {l : RequestLedger} {plan : Option ExecutionPlan}
    (h : Planned launched s l plan) (hplan : taken plan = []) : Accounted launched s l :=
  ⟨by simpa [hplan] using h.books, h.inflight⟩

/-- a plan takes the selected chunks; without a plan nothing was selected -/
theorem runtimePlanAt_taken (e : E) (active : List ActiveRequestState) (pending : List PendingRequest) (maxBatch : ℕ) :
    taken (runtimePlanAt e active pending maxBatch) = pending := by
  unfold runtimePlanAt buildNextPlan
  cases pending with
  | nil =>
    cases speculationDecisionAt e active maxBatch with
    | speculate => rfl
    | gated => rfl
    | notReady => cases active <;> rfl
  | cons req pending =>
    cases speculationDecisionAt e active maxBatch with
    | speculate => rfl
    | gated => rfl
    | notReady =>
      simp only [List.isEmpty_cons, Bool.not_false, Bool.true_and, if_true]
      split_ifs <;> rfl

/-- with nothing selected the plan is a decode of some kind -/
theorem runtimePlanAt_nil (e : E) (active : List ActiveRequestState) (maxBatch : ℕ) (pending : List PendingRequest) :
    runtimePlanAt e active [] maxBatch ≠ some (.prefill pending) ∧
      runtimePlanAt e active [] maxBatch ≠ some (.unified pending) := by
  unfold runtimePlanAt buildNextPlan
  cases speculationDecisionAt e active maxBatch with
  | speculate => simp
  | gated => simp
  | notReady => cases active <;> simp

theorem nextPlan_planned {s : Qwen3Scheduler E} {l : RequestLedger} (hs : Accounted launched s l) :
    Planned launched s.nextPlan.1 l s.nextPlan.2 := by
  unfold nextPlan
  split_ifs with hinf
  · refine ⟨by simpa [runtimePlanAt_taken] using hs.books, hs.inflight, ?_⟩
    rintro pending (h | h)
    · exact absurd h (runtimePlanAt_nil _ _ _ _).1
    · exact absurd h (runtimePlanAt_nil _ _ _ _).2
  · have hnone : s.inflightPrefillPending = none := by simpa using hinf
    refine ⟨hs.books.congr rfl ?_, hs.inflight, fun _ _ => hnone⟩
    rw [runtimePlanAt_taken]
    simp only [running, inflightPrefills]
    rw [← takePrefillChunks_ids s.prefilling s.maxPrefillTokens s.requestLocal]
    abel

theorem prepare_planned (ha : Answers launched) {s s' : Qwen3Scheduler E} {l l' : RequestLedger}
    {arrivals : Arrivals} {plan : Option ExecutionPlan} (hs : Accounted launched s l)
    (h : s.prepare l arrivals = .ok (s', l', plan)) : Planned launched s' l' plan := by
  have hraise : ∀ {s : Qwen3Scheduler E} {l : RequestLedger} (aborts : List RequestId), Accounted launched s l →
      Accounted launched s (raiseAborts l aborts) := fun aborts h => h.ledger (raiseAborts_standing aborts _)
  have hpull : Accounted launched s.pullControl l := ⟨hs.books, hs.inflight⟩
  obtain ⟨⟨s₁, l₁⟩, h₁, h⟩ := bind_ok h
  obtain ⟨⟨s₂, l₂⟩, h₂, h⟩ := bind_ok h
  have hs₁ := pollInflight_accounted ha (hraise arrivals.polled hpull) h₁
  have hs₂ := retireAbortedWaiting_accounted ha (hraise arrivals.waiting hs₁) h₂
  have hs₃ := applyControl_accounted (prefetch_accounted ha hs₂)
  dsimp only at h
  split_ifs at h with hidle
  · cases h
    have hs₄ := blockOnLoading_accounted hs₃ hidle
    exact ⟨by simpa [taken] using hs₄.books, hs₄.inflight, by simp⟩
  · obtain ⟨⟨s₄, l₄⟩, h₄, h⟩ := bind_ok h
    cases h
    exact nextPlan_planned (admitQueued_accounted ha (hraise arrivals.admission hs₃) h₄)

/-! ## Execution -/

/-- the plan fails, and a prefill plan does so beside a decode batch -/
def FailsBesideActive (s : Qwen3Scheduler E) (plan : ExecutionPlan) : Prop :=
  match plan with
  | .prefill pending =>
    match (executePrefill s.executor (pending.map buildPrefillItem)).1 with
    | .error err => s.active ≠ [] ∧ err.workerLost = false
    | .ok _ => False
  | _ => False

instance (s : Qwen3Scheduler E) (plan : ExecutionPlan) : Decidable (s.FailsBesideActive plan) := by
  unfold FailsBesideActive
  split
  · split <;> infer_instance
  · infer_instance

/-- what a plan that ran did: a failure with the executor still on its launched prefill, or one answer per request -/
theorem executePlan_cases (ha : Answers launched) {s : Qwen3Scheduler E} {plan : ExecutionPlan}
    {ran : Except StepError ExecutionArtifacts × E} (h : executePlan s.executor s.active plan = .ok ran) :
    (∃ err, ran.1 = .error err) ∨
    (∃ pending results, plan = .prefill pending ∧ ran.1 = .ok (.prefill pending results) ∧
      results.length = pending.length) ∨
    (∃ results, ran.1 = .ok (.decode results) ∧
      (results.map (·.requestId)).Perm (s.active.map (·.requestId)) ∧ taken (some plan) = [] ∧
      ∀ pending, plan ≠ .unified pending) ∨
    (∃ results, ran.1 = .ok (.speculativeDecode results) ∧
      (results.map (·.requestId)).Perm (s.active.map (·.requestId)) ∧ taken (some plan) = [] ∧
      ∀ pending, plan ≠ .unified pending) ∨
    (∃ pending result, plan = .unified pending ∧ ran.1 = .ok (.unified pending result) ∧
      (result.decodeRequests.map (·.requestId)).Perm (s.active.map (·.requestId)) ∧
      (hasDecodeOverlap s.executor = false → result.prefillRequests.length = pending.length) ∧
      (hasDecodeOverlap s.executor = true → result.prefillRequests = [] ∧
        launched ran.2 = some (pending.map (·.requestId)))) := by
  cases plan with
  | prefill pending =>
    simp only [executePlan] at h
    cases h
    cases hr : (executePrefill s.executor (pending.map buildPrefillItem)).1 with
    | error err => exact Or.inl ⟨err, rfl⟩
    | ok results =>
      have hperm := ha.prefill (Prod.ext hr rfl)
      refine Or.inr (Or.inl ⟨pending, _, rfl, rfl, ?_⟩)
      rw [List.length_insertionSort]
      simpa using hperm.length_eq
  | decode =>
    simp only [executePlan] at h
    cases h
    cases hr : (executeDecode s.executor (s.active.map buildDecodeItem)).1 with
    | error err => exact Or.inl ⟨err, rfl⟩
    | ok results =>
      have hperm := ha.decode (Prod.ext hr rfl)
      rw [List.map_map] at hperm
      exact Or.inr (Or.inr (Or.inl ⟨_, rfl, ((List.perm_insertionSort _ _).map _).trans hperm, rfl, nofun⟩))
  | speculativeDecode =>
    simp only [executePlan] at h
    split at h
    · cases h
      exact Or.inl ⟨_, rfl⟩
    · rename_i draft hdraft
      obtain ⟨items, hitems, h⟩ := bind_ok h
      cases h
      have hd := ha.draft (Prod.ext hdraft rfl)
      rw [List.map_map] at hd
      have hi := buildSpeculativeVerifyItems_ids _ _ hitems
      cases hr : (executeSpeculativeVerify (executeSpeculativeDraft s.executor
          (s.active.map buildSpeculativeDraftItem)).2 items false).1 with
      | error err => exact Or.inl ⟨err, rfl⟩
      | ok results =>
        have hv := ha.verify (Prod.ext hr rfl)
        rw [hi] at hv
        refine Or.inr (Or.inr (Or.inr (Or.inl ⟨_, rfl, ?_, rfl, nofun⟩)))
        exact ((List.perm_insertionSort _ _).map _).trans
          (hv.trans (((List.perm_insertionSort _ _).map _).trans hd))
  | gatedSpeculativeDecode =>
    simp only [executePlan] at h
    cases h
    cases hr : (executeSpeculativeVerify s.executor (s.active.map buildGatedVerifyItem) true).1 with
    | error err => exact Or.inl ⟨err, rfl⟩
    | ok results =>
      have hv := ha.verify (Prod.ext hr rfl)
      rw [List.map_map] at hv
      exact Or.inr (Or.inr (Or.inr (Or.inl ⟨_, rfl, ((List.perm_insertionSort _ _).map _).trans hv, rfl, nofun⟩)))
  | unified pending =>
    simp only [executePlan] at h
    cases h
    cases hr : (executeUnified s.executor (pending.map buildPrefillItem) (s.active.map buildDecodeItem)).1 with
    | error err => exact Or.inl ⟨err, rfl⟩
    | ok result =>
      have hpair : executeUnified s.executor (pending.map buildPrefillItem) (s.active.map buildDecodeItem) =
          (.ok result, (executeUnified s.executor (pending.map buildPrefillItem) (s.active.map buildDecodeItem)).2) :=
        Prod.ext hr rfl
      have hdec := ha.unified hpair
      rw [List.map_map] at hdec
      refine Or.inr (Or.inr (Or.inr (Or.inr ⟨pending, _, rfl, rfl, ?_, fun hov => ?_, fun hov => ?_⟩)))
      · exact ((List.perm_insertionSort _ _).map _).trans hdec
      · have hp := (ha.unified_joined hov hpair).length_eq
        rw [List.length_insertionSort]
        simpa using hp
      · obtain ⟨hnil, hl⟩ := ha.unified_launched hov hpair
        rw [List.map_map] at hl
        exact ⟨by rw [hnil]; rfl, hl⟩

/-- a plan that runs decode alone keeps the launched prefill -/
theorem executePlan_keeps (ha : Answers launched) {s : Qwen3Scheduler E} {plan : ExecutionPlan}
    {ran : Except StepError ExecutionArtifacts × E} (h : executePlan s.executor s.active plan = .ok ran)
    (hprefill : ∀ pending, plan ≠ .prefill pending) (hunified : ∀ pending, plan ≠ .unified pending) :
    Keeps launched s.executor ran.2 := by
  cases plan with
  | prefill pending => exact absurd rfl (hprefill pending)
  | decode =>
    simp only [executePlan] at h
    cases h
    exact ha.keeps_decode _ _
  | speculativeDecode =>
    simp only [executePlan] at h
    split at h
    · cases h
      exact ha.keeps_draft _ _
    · obtain ⟨items, -, h⟩ := bind_ok h
      cases h
      exact (ha.keeps_draft _ _).trans (ha.keeps_verify _ _ _)
  | gatedSpeculativeDecode =>
    simp only [executePlan] at h
    cases h
    exact ha.keeps_verify _ _ _
  | unified pending => exact absurd rfl (hunified pending)

/-- the running requests besides the decode batch and the taken ones -/
def aside (s : Qwen3Scheduler E) : Multiset RequestId := ids s.prefilling + ids s.inflightPrefills

/-- the failed batch of a plan: with the decode batch spared only when it is empty, every taken or decoding request -/
theorem failureTargetIds_eq {s : Qwen3Scheduler E} {plan : ExecutionPlan}
    (hprefill : ∀ pending, plan = .prefill pending → s.active = []) :
    s.running + ids (taken (some plan)) = ↑(failureTargetIds s.active plan) + s.aside := by
  cases plan with
  | prefill pending =>
    have hnil := hprefill pending rfl
    simp only [running, aside, taken, failureTargetIds, hnil, activeIds_nil, ids]
    abel
  | decode =>
    simp only [running, aside, taken, failureTargetIds, ids_nil, activeIds]
    abel
  | speculativeDecode =>
    simp only [running, aside, taken, failureTargetIds, ids_nil, activeIds]
    abel
  | gatedSpeculativeDecode =>
    simp only [running, aside, taken, failureTargetIds, ids_nil, activeIds]
    abel
  | unified pending =>
    rw [failureTargetIds, ← Multiset.coe_add]
    simp only [running, aside, taken, activeIds, ids]
    abel

/-- while a plan runs, a prefill in flight stays launched -/
theorem executePlan_inflight (ha : Answers launched) {s : Qwen3Scheduler E} {l : RequestLedger} {plan : ExecutionPlan}
    {ran : Except StepError ExecutionArtifacts × E} (hs : Planned launched s l (some plan))
    (h : executePlan s.executor s.active plan = .ok ran) (pending : List PendingRequest)
    (hp : s.inflightPrefillPending = some pending) : launched ran.2 = some (pending.map (·.requestId)) := by
  have hnot : ∀ p, ¬ (some plan = some (.prefill p) ∨ some plan = some (.unified p)) := by
    intro p hplan
    rw [hs.alone p hplan] at hp
    cases hp
  refine executePlan_keeps ha h (fun p hplan => ?_) (fun p hplan => ?_) _ (hs.inflight pending hp)
  · exact hnot p (Or.inl (congrArg some hplan))
  · exact hnot p (Or.inr (congrArg some hplan))

theorem absorbStepFailure_accounted (ha : Answers launched) {s s' : Qwen3Scheduler E} {l l' : RequestLedger}
    {targets : List RequestId} {err : StepError} (hb : Books s.waiting (↑targets + s.aside) (standing l))
    (hinf : ∀ p, s.inflightPrefillPending = some p → launched s.executor = some (p.map (·.requestId)))
    (h : s.absorbStepFailure l targets err = .ok (.ok (), s', l')) : Accounted launched s' l' := by
  unfold absorbStepFailure at h
  split_ifs at h
  · cases h
  · obtain ⟨⟨s₁, l₁⟩, h₁, h⟩ := bind_ok h
    cases h
    obtain ⟨⟨e, rfl, hk⟩, hb'⟩ := failTouchedRequests_books ha _ _ _ _ _ _ _ _ hb h₁
    refine ⟨hb'.congr rfl ?_, fun p hp => hk _ (hinf p hp)⟩
    simp only [running, aside, inflightPrefills, activeIds_nil]
    abel

/-- an execution without an overlapped prefill ends in what its effects left -/
theorem finished_accounted {s₁ s' : Qwen3Scheduler E} {l₁ l' : RequestLedger} {o : Option (List PendingRequest)}
    (hacc : Accounted launched s₁ l₁)
    (h : (match o with
      | some pending => .ok (.ok (), { s₁ with inflightPrefillPending := some pending }, l₁)
      | none => .ok (.ok (), s₁, l₁) : Except String (Except StepError Unit × Qwen3Scheduler E × RequestLedger)) =
      .ok (.ok (), s', l')) (ho : o = none) : Accounted launched s' l' := by
  subst ho
  cases h
  exact hacc

/-- **Execution.** A plan that does not fail a prefill beside a decode batch keeps the books. -/
theorem execute_accounted (ha : Answers launched) {s s' : Qwen3Scheduler E} {l l' : RequestLedger}
    {plan : ExecutionPlan} (hs : Planned launched s l (some plan)) (hok : ¬ s.FailsBesideActive plan)
    (h : s.execute l plan = .ok (.ok (), s', l')) : Accounted launched s' l' := by
  obtain ⟨ran, hran, h⟩ := bind_ok h
  have hinf := executePlan_inflight ha hs hran
  have hactive : (s.active.map (·.requestId)).Nodup := by
    have hn := (Multiset.nodup_add.1 (Multiset.nodup_add.1 hs.books.nodup).2.1).1
    exact Multiset.coe_nodup.1 (Multiset.nodup_add.1 (Multiset.nodup_add.1 hn).1).2.1
  have applied : ∀ (effects : StepEffects) (s₁ : Qwen3Scheduler E) (l₁ : RequestLedger),
      Books s.waiting (s.running + ↑(effects.pending.map (·.requestId))) (standing l) →
      (effects.decode.map (·.requestId)).Nodup →
      applyEffects { s with executor := ran.2 } l effects = .ok (s₁, l₁) → Accounted launched s₁ l₁ := by
    intro effects s₁ l₁ hb hdecode happly
    obtain ⟨hb', hinf', hk⟩ := applyEffects_books ha happly hdecode 0 (hb.congr rfl (by rw [add_zero]; rfl))
    exact ⟨by simpa using hb', fun p hp => hk _ (hinf p (hinf' ▸ hp))⟩
  rcases executePlan_cases ha hran with ⟨err, herr⟩ | ⟨pending, results, rfl, hres, hlen⟩ |
    ⟨results, hres, hperm, htaken, hnot⟩ | ⟨results, hres, hperm, htaken, hnot⟩ | ⟨pending, result, rfl, hres, hdec, hjoin, hlaunch⟩
  · -- the failure path: the batch is failed and the decode batch cleared
    rw [herr] at h
    by_cases hlost : err.workerLost = true
    · simp only [absorbStepFailure, if_pos hlost] at h
      cases h
    refine absorbStepFailure_accounted ha (s := { s with executor := ran.2 }) ?_ hinf h
    refine hs.books.congr rfl (failureTargetIds_eq fun pending hplan => ?_).symm
    subst hplan
    by_contra hne
    refine hok ?_
    simp only [executePlan] at hran
    cases hran
    cases hr : (executePrefill s.executor (pending.map buildPrefillItem)).1 with
    | error e =>
      rw [hr] at herr
      cases herr
      simp only [FailsBesideActive, hr]
      exact ⟨hne, by simpa using hlost⟩
    | ok r =>
      rw [hr] at herr
      cases herr
  · rw [hres] at h
    obtain ⟨effects, heff, h⟩ := bind_ok h
    obtain ⟨⟨s₁, l₁⟩, h₁, h⟩ := bind_ok h
    cases h
    obtain ⟨hpend, hdecode⟩ := resolvePrefillOutputs_ids pending results effects hlen heff
    exact applied effects _ _ (hs.books.congr rfl (by rw [hpend]; rfl))
      (by rw [hdecode]; exact List.nodup_nil) h₁
  · rw [hres] at h
    obtain ⟨effects, heff, h⟩ := bind_ok h
    obtain ⟨decode, hd, heff⟩ := bind_ok heff
    cases heff
    obtain ⟨⟨s₁, l₁⟩, h₁, h⟩ := bind_ok h
    have hids := resolveDecodeOutputs_ids _ _ hd
    have hacc := applied _ s₁ l₁ (hs.books.congr rfl (by rw [htaken]; rfl))
      (by rw [hids]; exact hperm.nodup_iff.2 hactive) h₁
    refine finished_accounted hacc h ?_
    split
    · exact absurd rfl (hnot _)
    · rfl
  · rw [hres] at h
    obtain ⟨effects, heff, h⟩ := bind_ok h
    obtain ⟨decode, hd, heff⟩ := bind_ok heff
    cases heff
    obtain ⟨⟨s₁, l₁⟩, h₁, h⟩ := bind_ok h
    have hids := resolveSpeculativeOutputs_ids _ _ hd
    have hacc := applied _ s₁ l₁ (hs.books.congr rfl (by rw [htaken]; rfl))
      (by rw [hids]; exact hperm.nodup_iff.2 hactive) h₁
    refine finished_accounted hacc h ?_
    split
    · exact absurd rfl (hnot _)
    · rfl
  · rw [hres] at h
    obtain ⟨effects, heff, h⟩ := bind_ok h
    obtain ⟨prefill, hp, heff⟩ := bind_ok heff
    obtain ⟨decode, hd, heff⟩ := bind_ok heff
    cases heff
    obtain ⟨⟨s₁, l₁⟩, h₁, h⟩ := bind_ok h
    have hids := resolveDecodeOutputs_ids _ _ hd
    have hnodup : (decode.map (·.requestId)).Nodup := by rw [hids]; exact hdec.nodup_iff.2 hactive
    have hnone := hs.alone pending (Or.inr rfl)
    cases hov : hasDecodeOverlap s.executor with
    | false =>
      obtain ⟨hpend, -⟩ := resolvePrefillOutputs_ids pending _ prefill (hjoin hov) hp
      have hacc := applied _ s₁ l₁ (hs.books.congr rfl (by
        show s.running + ↑(prefill.pending.map (·.requestId)) = _
        rw [hpend]
        rfl)) hnodup h₁
      simp only [hov, Bool.false_and, Bool.false_eq_true, if_false] at h
      cases h
      exact hacc
    | true =>
      obtain ⟨hnil, hl⟩ := hlaunch hov
      rw [hnil] at hp
      have hempty : prefill.pending = [] := by
        cases pending <;> · cases hp; rfl
      obtain ⟨hb, hinf', hk⟩ := applyEffects_books ha h₁ hnodup (ids pending) (hs.books.congr rfl (by
        show s.running + ids pending + ↑(prefill.pending.map (·.requestId)) = _
        rw [hempty, List.map_nil, Multiset.coe_nil, add_zero]
        rfl))
      simp only [hov, hnone, Option.isNone_none, Bool.and_self, if_true] at h
      cases h
      refine ⟨hb.congr rfl ?_, fun p hp' => ?_⟩
      · have hinfl : s₁.inflightPrefills = [] := by
          rw [inflightPrefills, hinf']
          show s.inflightPrefillPending.getD [] = []
          rw [hnone]
          rfl
        rw [running, running, hinfl, ids_nil, add_zero]
        rfl
      · cases hp'
        exact hk _ hl

end Qwen3Scheduler

/-! ## Runs -/

namespace Engine

/-- the ids in the scheduler's queues -/
def held (g : Engine E) : List RequestId :=
  match g.scheduler with
  | none => []
  | some s => s.deferred.map (·.requestId) ++ s.loading.map (·.requestId) ++ s.postControlDeferred.map (·.requestId) ++
      (s.prefilling.map (·.requestId) ++ s.active.map (·.requestId) ++ s.inflightPrefills.map (·.requestId))

/-- the iteration does not fail a prefill plan beside a decode batch -/
def SparesActive (g : Engine E) : EngineOp → Prop
  | .iterate arrivals _ =>
    match g.scheduler with
    | none => True
    | some s =>
      match s.prepare g.ledger arrivals with
      | .ok (s', _, some plan) => ¬ s'.FailsBesideActive plan
      | _ => True
  | _ => True

instance (g : Engine E) (op : EngineOp) : Decidable (g.SparesActive op) := by
  cases op with
  | iterate arrivals metricsChanged =>
    unfold SparesActive
    dsimp only
    split
    · infer_instance
    · split <;> infer_instance
  | _ => exact inferInstanceAs (Decidable True)

/-- the queues are the open accounts; a driver that has wound down left none open -/
def Balanced (launched : E → Option (List RequestId)) (g : Engine E) : Prop :=
  match g.scheduler with
  | some s => s.Accounted launched g.ledger
  | none => ∀ id, standing g.ledger id = none

theorem Balanced.held_eq {g : Engine E} (h : Balanced launched g) :
    g.held.Nodup ∧ ∀ id, id ∈ g.ledger.accounts ↔ id ∈ g.held := by
  unfold Balanced at h
  cases hs : g.scheduler with
  | none =>
    rw [hs] at h
    simp only [held, hs]
    exact ⟨List.nodup_nil, fun id => by simpa using standing_eq_none.1 (h id)⟩
  | some s =>
    rw [hs] at h
    have hheld : (g.held : Multiset RequestId) = s.waiting + s.running := by
      simp only [held, hs, Qwen3Scheduler.waiting, Qwen3Scheduler.running, ids, activeIds, ← Multiset.coe_add]
    refine ⟨Multiset.coe_nodup.1 (hheld ▸ h.books.nodup), fun id => ?_⟩
    rw [← Multiset.mem_coe, hheld, h.books.mem_iff, Ne, standing_eq_none, not_not]

theorem failAll_standing {l l' : RequestLedger} {message : String}
    (h : l.failAll message l.accounts.keys = .ok l') (id : RequestId) : standing l' id = none := by
  rcases RequestLedger.failAll_ok _ l l.accounts.keys_nodup h id with ⟨hn, hl, -⟩ | ⟨a, -, hl, -⟩
  · rw [standing_eq_none, ← AList.lookup_eq_none, hl, AList.lookup_eq_none]
    exact hn
  · rw [standing_eq_none, ← AList.lookup_eq_none, hl]

theorem submit_accounted {s : Qwen3Scheduler E} {l l' : RequestLedger} {id : RequestId} {envelope : RequestEnvelope}
    {request : Request} (hs : s.Accounted launched l) (h : l.register id envelope = .ok l') :
    (s.submit id request).Accounted launched l' := by
  obtain ⟨hnone, hst⟩ := register_standing h
  have hb := hs.books.open_entry hnone
  rw [← hst] at hb
  unfold Qwen3Scheduler.submit
  split_ifs
  · refine ⟨hb.congr ?_ rfl, hs.inflight⟩
    simp only [Qwen3Scheduler.waiting, ids_append, ids_cons, ids_nil, ← Multiset.singleton_add,
      PendingRequest.fromRequest]
    abel
  · refine ⟨hb.congr ?_ rfl, hs.inflight⟩
    simp only [Qwen3Scheduler.waiting, ids_append, ids_cons, ids_nil, ← Multiset.singleton_add,
      PendingRequest.fromRequest]
    abel

theorem iterate_accounted (ha : Answers launched) {s s' : Qwen3Scheduler E} {l l' : RequestLedger}
    {arrivals : Arrivals} (hs : s.Accounted launched l)
    (hok : ∀ s' l' plan, s.prepare l arrivals = .ok (s', l', some plan) → ¬ s'.FailsBesideActive plan)
    (h : s.step l arrivals = .ok (.ok (), s', l')) : s'.Accounted launched l' := by
  obtain ⟨⟨s₁, l₁, plan⟩, h₁, h⟩ := bind_ok h
  have hplanned := Qwen3Scheduler.prepare_planned ha hs h₁
  cases plan with
  | none =>
    cases h
    exact hplanned.accounted rfl
  | some plan =>
    refine Qwen3Scheduler.execute_accounted ha ?_ (hok s₁ l₁ plan h₁) h
    exact ⟨by rw [raiseAborts_standing]; exact hplanned.books, hplanned.inflight, hplanned.alone⟩

theorem step_balanced (ha : Answers launched) {g g' : Engine E} {op : EngineOp} (hg : Balanced launched g)
    (hok : g.SparesActive op) (h : g.step op = .ok g') : Balanced launched g' := by
  obtain ⟨scheduler, l⟩ := g
  cases scheduler with
  | none =>
    cases op with
    | submit id aborted queuedAt request =>
      cases h
      exact hg
    | abort id =>
      cases h
      exact fun j => by rw [raiseAbort_standing]; exact hg j
    | control command =>
      cases h
      exact hg
    | iterate arrivals metricsChanged =>
      cases h
      exact hg
  | some s =>
    have hs : s.Accounted launched l := hg
    cases op with
    | submit id aborted queuedAt request =>
      obtain ⟨l', hl', h⟩ := bind_ok h
      cases h
      exact submit_accounted hs hl'
    | abort id =>
      cases h
      exact hs.ledger (raiseAbort_standing l id)
    | control command =>
      cases h
      exact ⟨hs.books, hs.inflight⟩
    | iterate arrivals metricsChanged =>
      obtain ⟨⟨r, s₁, l₁⟩, h₁, h⟩ := bind_ok h
      cases r with
      | ok u =>
        cases h
        refine (iterate_accounted ha hs (fun s' l' plan hplan => ?_) h₁).ledger rfl
        simpa only [SparesActive, hplan] using hok
      | error err =>
        obtain ⟨l₂, h₂, h⟩ := bind_ok h
        cases h
        exact fun id => failAll_standing h₂ id

theorem new_balanced (e : E) (maxPrefillTokens : ℕ) (requestLocal : Bool) (specMaxBatch : ℕ) :
    Balanced launched (Engine.new (Qwen3Scheduler.new e maxPrefillTokens requestLocal specMaxBatch)) :=
  ⟨Books.nil, nofun⟩

/-- **No request is lost.** Along every run in which no prefill plan fails beside a decode batch, the open accounts are
the ids in the queues, each in one of them, and a request leaves the queues exactly when its account is closed. -/
theorem no_request_lost (launched : E → Option (List RequestId)) (ha : Answers launched) (e : E)
    (maxPrefillTokens : ℕ) (requestLocal : Bool) (specMaxBatch : ℕ) (ops : List EngineOp) (g : Engine E)
    (hops : StepsMeet Engine.step SparesActive
      (Engine.new (Qwen3Scheduler.new e maxPrefillTokens requestLocal specMaxBatch)) ops)
    (hrun : run Engine.step (Engine.new (Qwen3Scheduler.new e maxPrefillTokens requestLocal specMaxBatch)) ops =
      .ok g) :
    (g.held.Nodup ∧ ∀ id, id ∈ g.ledger.accounts ↔ id ∈ g.held) ∧
    ∀ op g', g.SparesActive op → g.step op = .ok g' → ∀ id,
      (id ∈ g.held ∧ id ∉ g'.held) ↔ (id ∈ g.ledger.accounts ∧ id ∉ g'.ledger.accounts) := by
  have hg : Balanced launched g := run_invariant (I := fun _ g => Balanced launched g) _ (new_balanced _ _ _ _)
    (fun _ g op g' hI hP hstep => step_balanced ha hI hP hstep) ops g hops hrun
  refine ⟨hg.held_eq, fun op g' hop hstep id => ?_⟩
  rw [hg.held_eq.2 id, (step_balanced ha hg hop hstep).held_eq.2 id]

end Engine

/-! ## A scripted executor -/

/-- an executor that completes every prefill in one chunk and fails the calls its script says -/
structure Scripted where
  fails : List Bool
deriving DecidableEq, Repr

namespace Scripted

/-- the answer to a call, or the scripted failure -/
def answer {α : Type} (e : Scripted) (result : α) : Except StepError α × Scripted :=
  (if e.fails.headD false then .error ⟨"device error", false⟩ else .ok result, ⟨e.fails.tail⟩)

def prefilled (item : PrefillStepItem) : PrefillRequestResult :=
  ⟨item.requestId, 7, none, none, none, none, true, item.promptTokens.length⟩

def decoded (item : DecodeStepItem) : DecodeRequestResult := ⟨item.requestId, 8, none⟩

instance : ModelExecutor Scripted where
  blockSize _ := 16
  maxRequestBlocks _ := 64
  maxContextTokens _ := 1024
  maxDecodeBatchSize _ := 8
  availableBlocks _ := 64
  isStopToken _ _ := false
  dropRequest e _ := e
  executePrefill e items := e.answer (items.map prefilled)
  executeDecode e items := e.answer (items.map decoded)
  executeUnified e prefills decodes := e.answer ⟨prefills.map prefilled, decodes.map decoded⟩

theorem answer_ok {α : Type} {e e' : Scripted} {result r : α} (h : e.answer result = (.ok r, e')) : r = result := by
  unfold answer at h
  split_ifs at h
  all_goals cases h
  rfl

theorem answers : Answers fun _ : Scripted => none where
  prefill h := by
    rw [answer_ok h, List.map_map]
    rfl
  decode h := by
    rw [answer_ok h, List.map_map]
    rfl
  draft h := by cases h
  verify h := by cases h
  unified h := by
    rw [answer_ok h, List.map_map]
    rfl
  unified_joined _ h := by
    rw [answer_ok h, List.map_map]
    rfl
  unified_launched hov _ := by cases hov
  polled h := by cases h
  keeps_poll _ := nofun
  keeps_drop _ _ := nofun
  keeps_decode _ _ := nofun
  keeps_draft _ _ := nofun
  keeps_verify _ _ _ := nofun
  keeps_begin _ _ _ _ _ := nofun
  keeps_drain _ _ := nofun

end Scripted

namespace Engine

/-- a step without aborts -/
def quiet : EngineOp := .iterate ⟨[], [], [], [], fun _ => 0⟩ false

def request (promptLogprobs : Option ℕ) : Request :=
  ⟨none, [1, 2, 3], ⟨true⟩, ⟨.ignore, []⟩, 4, none, promptLogprobs⟩

/-- the fused step of a decoding and a fresh request fails, and both are answered -/
theorem no_request_lost_unified_failure :
    ∃ g, run Engine.step (Engine.new (Qwen3Scheduler.new (⟨[false, true]⟩ : Scripted) 8 false 0))
        [.submit 1 false 0 (request none), quiet, .submit 2 false 0 (request none), quiet] = .ok g ∧
      (g.held.Nodup ∧ ∀ id, id ∈ g.ledger.accounts ↔ id ∈ g.held) ∧
      ∀ op g', g.SparesActive op → g.step op = .ok g' → ∀ id,
        (id ∈ g.held ∧ id ∉ g'.held) ↔ (id ∈ g.ledger.accounts ∧ id ∉ g'.ledger.accounts) :=
  ⟨_, rfl, no_request_lost (fun _ => none) Scripted.answers ⟨[false, true]⟩ 8 false 0
    [.submit 1 false 0 (request none), quiet, .submit 2 false 0 (request none), quiet] _ (by decide) rfl⟩

/-- the dedicated prefill of a prompt-scoring request fails beside a decoding one: the decoding request is in no queue
and its account stays open -/
theorem prefill_failure_loses_active :
    ∃ g, run Engine.step (Engine.new (Qwen3Scheduler.new (⟨[false, true]⟩ : Scripted) 8 false 0))
        [.submit 1 false 0 (request none), quiet, .submit 2 false 0 (request (some 0)), quiet] = .ok g ∧
      1 ∈ g.ledger.accounts ∧ 1 ∉ g.held :=
  ⟨_, rfl, by decide, by decide⟩

end Engine

end Pegainfer.Qwen3
