/-
What each ledger call of the Qwen3 scheduler does to the standing of requests, and what each queue move does to their ids.

The standing of a request is whether its account is open, and in which state. A ledger call changes the standing of the
one request it names, and tokens, notes and abort flags change none.
- `isActive_standing`, `retire_standing`, `admitRequest_standing`, ...: one equation per call.
- `selectChunks_ids`, `promoteReady_ids`, `offerPrefetch_ids`, `admitLoop_ids`, ...: a queue move keeps the ids.
-/
import Mathlib.Tactic
import Pegainfer.Lib.Books
import Pegainfer.Qwen3.Adapter

set_option linter.unusedSectionVars false

namespace Pegainfer.Qwen3

open Pegainfer.Frontend
open Pegainfer.Lib
open ModelExecutor

variable {E : Type} [ModelExecutor E]

/-! ## Standing -/

/-- whether an account's request has been admitted -/
def Admitted (a : Account) : Bool :=
  match a.state with
  | .queued => false
  | .active _ => true

/-- `none` without an open account, else whether the request has been admitted -/
def standing (l : RequestLedger) (id : RequestId) : Option Bool := (l.accounts.lookup id).map Admitted

variable {l l' : RequestLedger} {id : RequestId}

theorem standing_eq_none : standing l id = none ↔ id ∉ l.accounts := by
  simp [standing, AList.lookup_eq_none]

/-- the standing after one account is erased -/
theorem standing_erase (h : l'.accounts = l.accounts.erase id) : standing l' = Function.update (standing l) id none := by
  funext j
  by_cases hj : j = id
  · subst hj
    simp [standing, h]
  · simp [standing, h, AList.lookup_erase_ne hj, Function.update_of_ne hj]

/-- the standing after one account is written -/
theorem standing_insert (a : Account) (h : l'.accounts = l.accounts.insert id a) :
    standing l' = Function.update (standing l) id (some (Admitted a)) := by
  funext j
  by_cases hj : j = id
  · subst hj
    simp [standing, h]
  · simp [standing, h, AList.lookup_insert_ne hj, Function.update_of_ne hj]

/-- rewriting an account in its state changes no standing -/
theorem standing_same {a : Account} (b : Account) (ha : l.accounts.lookup id = some a) (hab : Admitted b = Admitted a)
    (h : l'.accounts = l.accounts.insert id b) : standing l' = standing l := by
  rw [standing_insert b h, hab, Function.update_eq_self_iff]
  simp [standing, ha]

theorem isActive_standing (l : RequestLedger) (id : RequestId) : l.isActive id = true ↔ standing l id = some true := by
  rw [RequestLedger.isActive_iff, standing]
  cases h : l.accounts.lookup id with
  | none => simp
  | some a =>
    obtain ⟨ab, p, q, st⟩ := a
    cases st with
    | queued => simp [Admitted]
    | active n => simp [Admitted]

theorem admitRequest_standing {now : Instant} (h : l.admitRequest id now = .ok l') :
    standing l' = Function.update (standing l) id (some true) := by
  obtain ⟨ab, p, q, -, rfl⟩ := RequestLedger.admitRequest_ok h
  exact standing_insert ⟨ab, p, q, .active 0⟩ rfl

theorem reject_standing {reason : RejectReason} (h : l.reject id reason = .ok l') :
    standing l' = Function.update (standing l) id none := by
  obtain ⟨ab, p, q, -, rfl⟩ := RequestLedger.reject_ok h
  exact standing_erase rfl

theorem retire_standing (h : l.retire id = .ok l') : standing l' = Function.update (standing l) id none := by
  obtain ⟨-, rfl⟩ := RequestLedger.retire_ok h
  exact standing_erase rfl

theorem fail_standing {message : String} (h : l.fail id message = .ok l') :
    standing l' = Function.update (standing l) id none := by
  obtain ⟨a, -, rfl⟩ := RequestLedger.fail_ok h
  exact standing_erase rfl

theorem finishWithCause_standing {reason : FinishReason} {cause : Option StopCause}
    (h : l.finishWithCause id reason cause = .ok l') : standing l' = Function.update (standing l) id none := by
  obtain ⟨ab, p, q, n, -, rfl⟩ := RequestLedger.finishWithCause_ok h
  exact standing_erase rfl

theorem deferFinishWithCause_standing {reason : FinishReason} {cause : Option StopCause} {u : RequestUpdate}
    (h : l.deferFinishWithCause id reason cause = .ok (u, l')) :
    standing l' = Function.update (standing l) id none := by
  obtain ⟨ab, p, q, n, -, -, rfl⟩ := RequestLedger.deferFinishWithCause_ok h
  exact standing_erase rfl

theorem register_standing {envelope : RequestEnvelope} (h : l.register id envelope = .ok l') :
    standing l id = none ∧ standing l' = Function.update (standing l) id (some false) := by
  obtain ⟨hn, rfl⟩ := RequestLedger.register_ok h
  exact ⟨by simp [standing, hn], standing_insert ⟨_, _, _, .queued⟩ rfl⟩

theorem pushTokens_standing {tokens : List TokenId} {logprobs : List (Option TokenLogprob)}
    (h : l.pushTokens id tokens logprobs = .ok l') : standing l' = standing l := by
  obtain ⟨-, ab, p, q, n, ha, rfl⟩ := RequestLedger.pushTokens_ok h
  exact standing_same ⟨ab, p, q, .active (n + tokens.length)⟩ ha rfl rfl

theorem annotate_standing {what : String} {f : RequestUpdate → RequestUpdate} {hf : ∀ u, (f u).id = u.id}
    (h : l.annotate what id f hf = .ok l') : standing l' = standing l := by
  obtain ⟨-, rfl⟩ := RequestLedger.annotate_ok h
  rfl

theorem raiseAbort_standing (l : RequestLedger) (id : RequestId) : standing (raiseAbort l id) = standing l := by
  unfold raiseAbort
  split
  · rfl
  · rename_i a ha
    exact standing_same { a with abort := true } ha rfl rfl

theorem raiseAborts_standing (ids : List RequestId) (l : RequestLedger) :
    standing (raiseAborts l ids) = standing l := by
  induction ids generalizing l with
  | nil => rfl
  | cons id ids ih => exact (ih (raiseAbort l id)).trans (raiseAbort_standing l id)

theorem commitStep_standing (l : RequestLedger) (metricsChanged : Bool) :
    standing (l.commitStep metricsChanged).1 = standing l := rfl

/-! ## Ids of the queues -/

/-- the ids of a queue -/
def ids (queue : List PendingRequest) : Multiset RequestId := queue.map (·.requestId)

/-- the ids of the decode batch -/
def activeIds (active : List ActiveRequestState) : Multiset RequestId := active.map (·.requestId)

@[simp] theorem ids_nil : ids [] = 0 := rfl

@[simp] theorem ids_cons (req : PendingRequest) (queue : List PendingRequest) :
    ids (req :: queue) = req.requestId ::ₘ ids queue := rfl

@[simp] theorem ids_append (a b : List PendingRequest) : ids (a ++ b) = ids a + ids b := by
  simp [ids, ← Multiset.coe_add]

@[simp] theorem activeIds_nil : activeIds [] = 0 := rfl

@[simp] theorem activeIds_concat (active : List ActiveRequestState) (req : ActiveRequestState) :
    activeIds (active ++ [req]) = req.requestId ::ₘ activeIds active := by
  rw [activeIds, List.map_append, ← Multiset.coe_add, Multiset.add_comm]
  rfl

theorem ids_perm {a b : List PendingRequest} (h : a.Perm b) : ids a = ids b :=
  Multiset.coe_eq_coe.2 (h.map _)

theorem selectChunks_ids (maxPrefillTokens : ℕ) (requestLocal : Bool) (queue : List PendingRequest) (budget : ℕ) :
    ids (selectChunks maxPrefillTokens requestLocal budget queue).1 +
      ids (selectChunks maxPrefillTokens requestLocal budget queue).2 = ids queue := by
  induction queue generalizing budget with
  | nil => rfl
  | cons req queue ih =>
    simp only [selectChunks]
    split_ifs with hb
    · simp
    · split
      · rw [ids_cons, ids_cons, Multiset.add_cons, ih budget]
      · rename_i chunk _
        rw [ids_cons, ids_cons, Multiset.cons_add, ih (budget - chunk)]

theorem takePrefillChunks_ids (prefilling : List PendingRequest) (maxPrefillTokens : ℕ) (requestLocal : Bool) :
    ids (takePrefillChunks prefilling maxPrefillTokens requestLocal).1 +
      ids (takePrefillChunks prefilling maxPrefillTokens requestLocal).2 = ids prefilling := by
  simp only [takePrefillChunks]
  rw [ids_perm (List.perm_insertionSort _ _), selectChunks_ids]

theorem promoteReady_ids (ready : List RequestId) (deferred loading : List PendingRequest) :
    ids (promoteReady deferred loading ready).1 + ids (promoteReady deferred loading ready).2 =
      ids deferred + ids loading := by
  induction ready generalizing deferred loading with
  | nil => rfl
  | cons id ready ih =>
    simp only [promoteReady]
    split
    · rename_i p hp
      have hid := List.find?_some hp
      obtain ⟨a, pre, post, hnone, ha, hl, he⟩ :=
        @List.exists_of_eraseP _ (fun p : PendingRequest => p.requestId == id) _ _ (List.mem_of_find?_eq_some hp) hid
      rw [ih]
      have hpa : p = a := by
        rw [hl, List.find?_append, List.find?_eq_none.2 (by simpa using hnone)] at hp
        simpa [ha] using hp.symm
      rw [he, hl, hpa]
      simp only [ids_cons, ids_append, Multiset.add_cons, Multiset.cons_add]
    · exact ih deferred loading

theorem offerPrefetch_ids (reserveFloor : ℕ) (deferred : List PendingRequest) (e : E) :
    ids (offerPrefetch e reserveFloor deferred).1 + ids (offerPrefetch e reserveFloor deferred).2.1 = ids deferred := by
  induction deferred generalizing e with
  | nil => rfl
  | cons req deferred ih =>
    simp only [offerPrefetch]
    split_ifs with hfresh hbegun
    · rw [ids_cons, ids_cons, Multiset.add_cons, ih]
    · rw [ids_cons, ids_cons, Multiset.cons_add, ih]
    · rw [ids_cons, ids_cons, Multiset.cons_add, ih]

theorem rejectUnknownLoraRequests_ids (deferred : List PendingRequest) (e : E) :
    ids (rejectUnknownLoraRequests deferred e).1 + ids (rejectUnknownLoraRequests deferred e).2 = ids deferred := by
  unfold rejectUnknownLoraRequests
  split_ifs
  · rw [List.partition_eq_filter_filter, ← ids_append]
    exact ids_perm (List.filter_append_perm _ _)
  · simp

theorem admitLoop_ids (limits : AdmissionLimits) (credit : RequestId → ℕ) (deferred : List PendingRequest)
    (budget slots : ℕ) :
    ids (admitLoop limits credit budget slots deferred).pending +
      ids (admitLoop limits credit budget slots deferred).deferred +
      ids ((admitLoop limits credit budget slots deferred).rejected.map (·.1)) = ids deferred := by
  induction deferred generalizing budget slots with
  | nil => rfl
  | cons req deferred ih =>
    simp only [admitLoop]
    split_ifs
    · rw [List.map_cons, ids_cons, ids_cons, Multiset.add_cons, ih]
    · rw [List.map_cons, ids_cons, ids_cons, Multiset.add_cons, ih]
    · rw [List.map_cons, ids_cons, ids_cons, Multiset.add_cons, ih]
    · rw [ids_cons, ids_cons, Multiset.cons_add, Multiset.cons_add, ih]
    · rw [ids_cons, ids_cons, Multiset.add_cons, Multiset.cons_add, ih]

/-! ## Ids of results and effects -/

def DecodeEffect.requestId : DecodeEffect → RequestId
  | .finish id .. => id
  | .continueOne id .. => id
  | .continueMany id .. => id
  | .finishMany id .. => id

def PendingEffect.requestId : PendingEffect → RequestId
  | .emitAndFinish id .. => id
  | .promote state .. => state.requestId
  | .continuePrefill req => req.requestId

theorem resolveDecodeOutput_id (e : E) (req : ActiveRequestState) (result : DecodeRequestResult) :
    (resolveDecodeOutput e req result).requestId = result.requestId := by
  simp only [resolveDecodeOutput]
  split
  · rfl
  · split_ifs <;> rfl

theorem walkSpan_id (e : E) (req : ActiveRequestState) (span emitted : List TokenId) (n : ℕ) :
    (walkSpan e req emitted n span).requestId = req.requestId := by
  induction span generalizing emitted n with
  | nil => rfl
  | cons token span ih =>
    simp only [walkSpan]
    split
    · rfl
    · split_ifs
      · rfl
      · exact ih _ _

theorem resolvePrefillOutcome_id (e : E) (req : PendingRequest) (result : PrefillRequestResult) :
    (resolvePrefillOutcome e req result).requestId = req.requestId := by
  unfold resolvePrefillOutcome
  split
  · rfl
  · split
    · rfl
    · split <;> rfl

theorem bind_ok {ε α β : Type} {x : Except ε α} {f : α → Except ε β} {b : β} (h : x >>= f = .ok b) :
    ∃ a, x = .ok a ∧ f a = .ok b := by
  cases x with
  | error e => cases h
  | ok a => exact ⟨a, rfl, h⟩

theorem resolveDecodeOutputs_ids {e : E} {active : List ActiveRequestState} (results : List DecodeRequestResult)
    (effects : List DecodeEffect) (h : resolveDecodeOutputs e active results = .ok effects) :
    effects.map (·.requestId) = results.map (·.requestId) := by
  induction results generalizing effects with
  | nil =>
    cases h
    rfl
  | cons result results ih =>
    simp only [resolveDecodeOutputs] at h
    split at h
    · cases h
    · obtain ⟨rest, hrest, h⟩ := bind_ok h
      cases h
      rw [List.map_cons, List.map_cons, resolveDecodeOutput_id, ih rest hrest]

theorem resolveSpeculativeOutputs_ids {e : E} {active : List ActiveRequestState} (results : List VerifyRequestResult)
    (effects : List DecodeEffect) (h : resolveSpeculativeOutputs e active results = .ok effects) :
    effects.map (·.requestId) = results.map (·.requestId) := by
  induction results generalizing effects with
  | nil =>
    cases h
    rfl
  | cons result results ih =>
    simp only [resolveSpeculativeOutputs] at h
    split at h
    · cases h
    · rename_i req hreq
      obtain ⟨rest, hrest, h⟩ := bind_ok h
      cases h
      have hid : req.requestId = result.requestId := by simpa using List.find?_some hreq
      rw [List.map_cons, List.map_cons, walkSpan_id, hid, ih rest hrest]

/-- as many results as requests: one effect for each request -/
theorem resolvePrefillOutputs_ids {e : E} (pending : List PendingRequest) (results : List PrefillRequestResult)
    (effects : StepEffects) (hlen : results.length = pending.length)
    (h : resolvePrefillOutputs e pending results = .ok effects) :
    effects.pending.map (·.requestId) = pending.map (·.requestId) ∧ effects.decode = [] := by
  induction pending generalizing results effects with
  | nil =>
    simp only [resolvePrefillOutputs, Except.ok.injEq] at h
    subst h
    exact ⟨rfl, rfl⟩
  | cons req pending ih =>
    cases results with
    | nil => simp at hlen
    | cons result results =>
      simp only [resolvePrefillOutputs] at h
      split_ifs at h
      obtain ⟨rest, hrest, h⟩ := bind_ok h
      cases h
      obtain ⟨hp, hd⟩ := ih results rest (by simpa using hlen) hrest
      simp [StepEffects.append, resolvePrefillOutput, resolvePrefillOutcome_id, hp, hd]

theorem buildSpeculativeVerifyItems_ids {active : List ActiveRequestState} (drafts : List DraftRequestResult)
    (items : List VerifyStepItem) (h : buildSpeculativeVerifyItems active drafts = .ok items) :
    items.map (·.requestId) = drafts.map (·.requestId) := by
  induction drafts generalizing items with
  | nil =>
    cases h
    rfl
  | cons draft drafts ih =>
    simp only [buildSpeculativeVerifyItems] at h
    split at h
    · cases h
    · obtain ⟨rest, hrest, h⟩ := bind_ok h
      cases h
      rw [List.map_cons, List.map_cons, ih rest hrest]

end Pegainfer.Qwen3
