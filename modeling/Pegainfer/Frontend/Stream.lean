/-
The step stream of one scheduler: the submit channel, the ledger, the deferred finishes held by other threads and the
messages sent so far, under every order of their operations.

`dropLedger` may come at any point (the driver returns, or its thread unwinds mid-step); the account table is swept in
an arbitrary order. A call that breaks an asserted precondition of the ledger is refused, and ends the run.
- `step_refines`: for every id, a step of the system is one event in that request's `Life`.
- `run_phases`: after every run, every request is in some phase of its lifecycle.
- `exactly_one_terminal_iff`: a run that has come to rest answered every unretired request with exactly one terminal,
  its last record, if and only if the ledger never fell with a terminal still buffered.
- `tokens_conserved`: when the statement was flushed before the fall, what is shipped is what was pushed.
-/
import Mathlib.Tactic
import Pegainfer.Lib.Machine
import Pegainfer.Frontend.Lifecycle

namespace Pegainfer.Frontend

open Pegainfer.Lib

/-- the wiring of one scheduler with the messages its stream has carried -/
structure StepStream where
  nextId : ℕ
  envelopes : AList (fun _ : RequestId => RequestEnvelope)
  ledger : Option RequestLedger
  deferred : List RequestUpdate
  sent : List StepOutputs

namespace StepStream

/-- `scheduler_pair` -/
def init : StepStream := ⟨0, ∅, some RequestLedger.new, [], []⟩

inductive Op
  | submit (prompt : List TokenId) (now : Instant)
  | abort (id : RequestId)
  | dropEnvelope (id : RequestId)
  | register (id : RequestId)
  | admitRequest (id : RequestId) (now : Instant)
  | reject (id : RequestId) (reason : RejectReason)
  | pushTokens (id : RequestId) (ids : List TokenId) (logprobs : List (Option TokenLogprob))
  | setCachedTokens (id : RequestId) (n : ℕ)
  | echoPrompt (id : RequestId) (echo : PromptEcho)
  | kvTransfer (id : RequestId) (params : String)
  | finishWithCause (id : RequestId) (reason : FinishReason) (cause : Option StopCause)
  | fail (id : RequestId) (message : String)
  | retire (id : RequestId)
  | deferFinishWithCause (id : RequestId) (reason : FinishReason) (cause : Option StopCause)
  | commitStep (metricsChanged : Bool)
  | failAll (order : List RequestId) (message : String)
  | sendDeferred (k : ℕ)
  | dropDeferred (k : ℕ)
  | dropLedger (order : List RequestId)
deriving DecidableEq, Repr

/-- a call on the ledger, while there is one -/
def onLedger (s : StepStream) (call : RequestLedger → Except String RequestLedger) : Except String StepStream :=
  match s.ledger with
  | none => .error "the ledger is gone"
  | some l =>
    match call l with
    | .ok l' => .ok { s with ledger := some l' }
    | .error e => .error e

/-- raise the abort flag, wherever the request holds it -/
def raiseAbort (s : StepStream) (id : RequestId) : StepStream :=
  let s := match s.envelopes.lookup id with
    | some e => { s with envelopes := s.envelopes.insert id { e with abort := true } }
    | none => s
  match s.ledger with
  | none => s
  | some l =>
    match l.accounts.lookup id with
    | some a => { s with ledger := some { l with accounts := l.accounts.insert id { a with abort := true } } }
    | none => s

def step (s : StepStream) : Op → Except String StepStream
  | .submit prompt now =>
    .ok { s with nextId := s.nextId + 1, envelopes := s.envelopes.insert s.nextId ⟨false, prompt, now⟩ }
  | .abort id => .ok (s.raiseAbort id)
  | .dropEnvelope id =>
    match s.envelopes.lookup id with
    | none => .error "no such envelope"
    | some e => .ok { s with envelopes := s.envelopes.erase id, sent := s.sent ++ [⟨[e.dropUpdate id]⟩] }
  | .register id =>
    match s.envelopes.lookup id with
    | none => .error "no such envelope"
    | some e => { s with envelopes := s.envelopes.erase id }.onLedger fun l => l.register id e
  | .admitRequest id now => s.onLedger fun l => l.admitRequest id now
  | .reject id reason => s.onLedger fun l => l.reject id reason
  | .pushTokens id ids logprobs => s.onLedger fun l => l.pushTokens id ids logprobs
  | .setCachedTokens id n => s.onLedger fun l => l.setCachedTokens id n
  | .echoPrompt id echo => s.onLedger fun l => l.echoPrompt id echo
  | .kvTransfer id params => s.onLedger fun l => l.kvTransfer id params
  | .finishWithCause id reason cause => s.onLedger fun l => l.finishWithCause id reason cause
  | .fail id message => s.onLedger fun l => l.fail id message
  | .retire id => s.onLedger fun l => l.retire id
  | .deferFinishWithCause id reason cause =>
    match s.ledger with
    | none => .error "the ledger is gone"
    | some l =>
      match l.deferFinishWithCause id reason cause with
      | .ok (u, l') => .ok { s with ledger := some l', deferred := s.deferred ++ [u] }
      | .error e => .error e
  | .commitStep metricsChanged =>
    match s.ledger with
    | none => .error "the ledger is gone"
    | some l =>
      let committed := l.commitStep metricsChanged
      .ok { s with ledger := some committed.1, sent := s.sent ++ committed.2.toList }
  | .failAll order message =>
    s.onLedger fun l =>
      if order.Perm l.accounts.keys then l.failAll message order else .error "not an order of the account table"
  | .sendDeferred k =>
    match s.deferred[k]? with
    | none => .error "no such deferred finish"
    | some u => .ok { s with deferred := s.deferred.eraseIdx k, sent := s.sent ++ [⟨[u]⟩] }
  | .dropDeferred k =>
    match s.deferred[k]? with
    | none => .error "no such deferred finish"
    | some u => .ok { s with deferred := s.deferred.eraseIdx k, sent := s.sent ++ [⟨[deferredDropUpdate u]⟩] }
  | .dropLedger order =>
    match s.ledger with
    | none => .error "the ledger is gone"
    | some l =>
      if order.Perm l.accounts.keys then .ok { s with ledger := none, sent := s.sent ++ (l.drop order).toList }
      else .error "not an order of the account table"

attribute [grind =] step

/-! ## The life of each request -/

/-- the records shipped for `id`, in stream order -/
def shippedTo (s : StepStream) (id : RequestId) : List RequestUpdate :=
  (s.sent.flatMap StepOutputs.updates).filter fun u => u.id = id

/-- what exists of request `id` -/
def life (s : StepStream) (id : RequestId) : Life where
  seen := decide (id < s.nextId)
  envelope := s.envelopes.lookup id
  account := s.ledger.bind fun l => l.accounts.lookup id
  buffered := s.ledger.bind fun l => l.statement.record id
  withheld := ↑(s.deferred.filter fun u => u.id = id)
  shipped := s.shippedTo id

/-- what an operation does to request `id` -/
def eventOf (s : StepStream) (id : RequestId) : Op → Event
  | .submit prompt now => if id = s.nextId then .submitted ⟨false, prompt, now⟩ else .idle
  | .abort i => if id = i then .aborted else .idle
  | .dropEnvelope i => if id = i then .envelopeDropped else .idle
  | .register i => if id = i then .registered else .idle
  | .admitRequest i now => if id = i then .admitted now else .idle
  | .reject i reason => if id = i then .rejected reason else .idle
  | .pushTokens i ids logprobs => if id = i then .pushed ids logprobs else .idle
  | .setCachedTokens i n => if id = i then .noted (.cachedTokens n) else .idle
  | .echoPrompt i echo => if id = i then .noted (.promptEcho echo) else .idle
  | .kvTransfer i params => if id = i then .noted (.kvTransfer params) else .idle
  | .finishWithCause i reason cause => if id = i then .finished reason cause else .idle
  | .fail i message => if id = i then .failed message else .idle
  | .retire i => if id = i then .retired else .idle
  | .deferFinishWithCause i reason cause => if id = i then .deferred reason cause else .idle
  | .commitStep _ => .committed
  | .failAll order message => if id ∈ order then .failed message else .idle
  | .sendDeferred k =>
    match s.deferred[k]? with
    | some u => if u.id = id then .sent u else .idle
    | none => .idle
  | .dropDeferred k =>
    match s.deferred[k]? with
    | some u => if u.id = id then .unsent u else .idle
    | none => .idle
  | .dropLedger _ => .fell

attribute [grind =] eventOf

/-! ## Every step is one event of every life -/

variable {s s' : StepStream} {id : RequestId}

theorem onLedger_ok {call : RequestLedger → Except String RequestLedger} (h : s.onLedger call = .ok s') :
    ∃ l l', s.ledger = some l ∧ call l = .ok l' ∧ s' = { s with ledger := some l' } := by
  unfold onLedger at h
  split at h
  · cases h
  · rename_i l hl
    split at h
    · rename_i l' hc
      exact ⟨l, l', hl, hc, (Except.ok.inj h).symm⟩
    · cases h

/-- a ledger call moves only the account and the buffered record of a life -/
theorem life_ledger (s : StepStream) (l : RequestLedger) (id : RequestId) :
    ({ s with ledger := some l } : StepStream).life id =
      { s.life id with account := l.accounts.lookup id, buffered := l.statement.record id } := rfl

theorem life_account {l : RequestLedger} (hl : s.ledger = some l) : (s.life id).account = l.accounts.lookup id := by
  simp [life, hl]

theorem life_buffered {l : RequestLedger} (hl : s.ledger = some l) :
    (s.life id).buffered = l.statement.record id := by
  simp [life, hl]

theorem life_entry {l : RequestLedger} (hl : s.ledger = some l) :
    (s.life id).entry id = (l.statement.record id).getD (RequestUpdate.empty id) := by
  simp [Life.entry, life_buffered hl]

/-- a ledger call about another request leaves the life alone -/
theorem life_ledger_frame {l l' : RequestLedger} (hl : s.ledger = some l)
    (ha : l'.accounts.lookup id = l.accounts.lookup id) (hr : l'.statement.record id = l.statement.record id) :
    ({ s with ledger := some l' } : StepStream).life id = s.life id := by
  rw [life_ledger, ha, hr, ← life_account hl, ← life_buffered hl]

theorem life_sent (s : StepStream) (m : StepOutputs) (id : RequestId) :
    ({ s with sent := s.sent ++ [m] } : StepStream).life id =
      { s.life id with shipped := (s.life id).shipped ++ m.updates.filter fun u => u.id = id } := by
  simp [life, shippedTo]

theorem refines_abort (i : RequestId) :
    (s.life id).apply id (s.eventOf id (.abort i)) = some ((s.raiseAbort i).life id) := by
  by_cases hid : id = i
  · subst hid
    simp only [eventOf, if_true, Life.apply, Option.some.injEq]
    unfold raiseAbort life
    cases he : s.envelopes.lookup id <;> cases hl : s.ledger with
    | none => simp [he, hl, shippedTo]
    | some l => cases ha : l.accounts.lookup id <;> simp [he, hl, ha, shippedTo]
  · simp only [eventOf, hid, if_false, Life.apply, Option.some.injEq]
    unfold raiseAbort life
    cases he : s.envelopes.lookup i <;> cases hl : s.ledger with
    | none => simp [hl, shippedTo, AList.lookup_insert_ne hid]
    | some l => cases ha : l.accounts.lookup i <;> simp [hl, ha, shippedTo, AList.lookup_insert_ne hid]

/-- the call that attaches a note -/
def noteOp (i : RequestId) : Note → Op
  | .cachedTokens n => .setCachedTokens i n
  | .promptEcho echo => .echoPrompt i echo
  | .kvTransfer params => .kvTransfer i params

theorem refines_annotate {i : RequestId} (note : Note) (h : s.step (noteOp i note) = .ok s') :
    (s.life id).apply id (s.eventOf id (noteOp i note)) = some (s'.life id) := by
  have hev : s.eventOf id (noteOp i note) = if id = i then .noted note else .idle := by cases note <;> rfl
  have hcall : ∃ l, s.ledger = some l ∧ (∃ ab p q n, l.accounts.lookup i = some ⟨ab, p, q, .active n⟩) ∧
      ∃ f hf, (∀ u, f u = note.attach u) ∧ s' = { s with ledger := some (l.editEntry i f hf) } := by
    cases note <;>
    · obtain ⟨l, l', hl, hc, rfl⟩ := onLedger_ok h
      obtain ⟨ha, rfl⟩ := RequestLedger.annotate_ok hc
      exact ⟨l, hl, ha, _, _, fun _ => rfl, rfl⟩
  obtain ⟨l, hl, ⟨ab, p, q, n, ha⟩, f, hf, hfa, rfl⟩ := hcall
  rw [hev]
  by_cases hid : id = i
  · subst hid
    simp only [if_true, Life.apply, life_account hl, ha, life_entry hl]
    simp [life_ledger, RequestLedger.editEntry, StepStatement.record_edit_self, hfa, ha]
  · rw [life_ledger_frame hl]
    · simp [hid, Life.apply]
    · rfl
    · simp [RequestLedger.editEntry, StepStatement.record_edit_ne _ _ _ _ _ hid]

/-- a finish delivered by its guard, as itself or rewritten -/
theorem life_deliver {u v : RequestUpdate} {k : ℕ} (hk : s.deferred[k]? = some u) (hv : v.id = u.id) :
    ({ s with deferred := s.deferred.eraseIdx k, sent := s.sent ++ [⟨[v]⟩] } : StepStream).life id =
      if u.id = id then
        { s.life id with withheld := (s.life id).withheld.erase u, shipped := (s.life id).shipped ++ [v] }
      else s.life id := by
  obtain ⟨hlt, hget⟩ := List.getElem?_eq_some_iff.1 hk
  have hperm : (u :: s.deferred.eraseIdx k).Perm s.deferred := by
    rw [← hget]; exact List.getElem_cons_eraseIdx_perm hlt
  split_ifs with hid
  · have hf : (↑(s.deferred.filter fun w => w.id = id) : Multiset RequestUpdate) =
        u ::ₘ ↑((s.deferred.eraseIdx k).filter fun w => w.id = id) := by
      rw [Multiset.cons_coe, Multiset.coe_eq_coe]
      simpa [hid] using (hperm.filter fun w => w.id = id).symm
    simp only [life, hf, Multiset.erase_cons_head, Life.mk.injEq, true_and]
    simp [shippedTo, hv, hid]
  · have hf : (↑((s.deferred.eraseIdx k).filter fun w => w.id = id) : Multiset RequestUpdate) =
        ↑(s.deferred.filter fun w => w.id = id) := by
      rw [Multiset.coe_eq_coe]
      simpa [hid] using hperm.filter fun w => w.id = id
    simp only [life, hf, Life.mk.injEq, true_and]
    simp [shippedTo, hv, hid]

theorem mem_withheld {u : RequestUpdate} {k : ℕ} (hk : s.deferred[k]? = some u) : u ∈ (s.life u.id).withheld := by
  simp [life, List.mem_of_getElem? hk]

theorem refines_commitStep {l : RequestLedger} (hl : s.ledger = some l) (metricsChanged : Bool) :
    (s.life id).apply id .committed =
      some (({ s with
        ledger := some (l.commitStep metricsChanged).1
        sent := s.sent ++ (l.commitStep metricsChanged).2.toList } : StepStream).life id) := by
  have hledger : (l.commitStep metricsChanged).1 = { l with statement := StepStatement.empty } := rfl
  have hsent : ((l.commitStep metricsChanged).2.toList.flatMap StepOutputs.updates).filter (fun u => u.id = id) =
      ((l.statement.record id).filter fun u => !u.isVacant).toList := by
    rw [← StepStatement.takeUpdates_filter]
    unfold RequestLedger.commitStep
    simp only
    split_ifs with hempty
    · simp only [Bool.and_eq_true, List.isEmpty_iff] at hempty
      simp [hempty.1]
    · simp
  simp only [Life.apply, Option.some.injEq]
  rw [hledger]
  simp [life, shippedTo, hl, hsent]

theorem refines_dropLedger {l : RequestLedger} (hl : s.ledger = some l) (order : List RequestId)
    (ho : order.Perm l.accounts.keys) :
    (s.life id).apply id .fell =
      some (({ s with ledger := none, sent := s.sent ++ (l.drop order).toList } : StepStream).life id) := by
  have hsent : ((l.drop order).toList.flatMap StepOutputs.updates).filter (fun u => u.id = id) =
      ((l.accounts.lookup id).map (RequestLedger.writeOff id)).toList := by
    have hnd : order.Nodup := ho.nodup_iff.2 l.accounts.keys_nodup
    have hall := RequestLedger.writeOffs_filter l order hnd id fun hm => ho.mem_iff.2 (AList.mem_keys.1 hm)
    unfold RequestLedger.drop
    split_ifs with hempty
    · have hnone : l.accounts.lookup id = none := by
        rw [AList.lookup_eq_none, AList.mem_keys, List.isEmpty_iff.1 hempty]
        simp
      simp [hnone]
    · simpa using hall
  simp only [Life.apply, Option.some.injEq]
  simp [life, shippedTo, hl, hsent]

/-- **Refinement.** For every request, a step of the system is one event in that request's life. -/
theorem step_refines (o : Op) (h : s.step o = .ok s') (id : RequestId) :
    (s.life id).apply id (s.eventOf id o) = some (s'.life id) := by
  cases o with
  | submit prompt now =>
    simp only [step, Except.ok.injEq] at h
    subst h
    by_cases hid : id = s.nextId
    · subst hid
      simp [eventOf, Life.apply, life, shippedTo]
    · have hlt : id < s.nextId + 1 ↔ id < s.nextId :=
        Nat.lt_succ_iff.trans ⟨fun h => lt_of_le_of_ne h hid, le_of_lt⟩
      simp [eventOf, hid, Life.apply, life, shippedTo, AList.lookup_insert_ne hid, hlt]
  | abort i =>
    simp only [step, Except.ok.injEq] at h
    subst h
    exact refines_abort i
  | dropEnvelope i =>
    simp only [step] at h
    split at h
    · cases h
    · rename_i e he
      simp only [Except.ok.injEq] at h
      subst h
      by_cases hid : id = i
      · subst hid
        simp [eventOf, Life.apply, life, he, shippedTo, RequestEnvelope.dropUpdate]
      · have hne : ¬ (e.dropUpdate i).id = id := fun h => hid h.symm
        simp [eventOf, hid, Life.apply, life, shippedTo, AList.lookup_erase_ne hid, hne]
  | register i =>
    simp only [step] at h
    split at h
    · cases h
    · rename_i e he
      obtain ⟨l, l', hl, hc, rfl⟩ := onLedger_ok h
      obtain ⟨hnone, rfl⟩ := RequestLedger.register_ok hc
      simp only at hl
      by_cases hid : id = i
      · subst hid
        simp [eventOf, Life.apply, life, he, hl, hnone, shippedTo]
      · simp [eventOf, hid, Life.apply, life, hl, shippedTo, AList.lookup_erase_ne hid, AList.lookup_insert_ne hid]
  | admitRequest i now =>
    obtain ⟨l, l', hl, hc, rfl⟩ := onLedger_ok h
    obtain ⟨ab, p, q, ha, rfl⟩ := RequestLedger.admitRequest_ok hc
    by_cases hid : id = i
    · subst hid
      simp only [eventOf, if_true, Life.apply, life_account hl, ha, life_entry hl]
      simp [life_ledger, RequestLedger.editEntry, StepStatement.record_edit_self]
    · rw [life_ledger_frame hl]
      · simp [eventOf, hid, Life.apply]
      · simp [RequestLedger.editEntry, AList.lookup_insert_ne hid]
      · simp [RequestLedger.editEntry, StepStatement.record_edit_ne _ _ _ _ _ hid]
  | reject i reason =>
    obtain ⟨l, l', hl, hc, rfl⟩ := onLedger_ok h
    obtain ⟨ab, p, q, ha, rfl⟩ := RequestLedger.reject_ok hc
    by_cases hid : id = i
    · subst hid
      simp only [eventOf, if_true, Life.apply, life_account hl, ha, Life.answer, life_entry hl]
      simp [life_ledger, RequestLedger.setTerminal, RequestLedger.editEntry, StepStatement.record_edit_self]
    · rw [life_ledger_frame hl]
      · simp [eventOf, hid, Life.apply]
      · simp [RequestLedger.setTerminal, RequestLedger.editEntry, AList.lookup_erase_ne hid]
      · simp [RequestLedger.setTerminal, RequestLedger.editEntry, StepStatement.record_edit_ne _ _ _ _ _ hid]
  | pushTokens i ids logprobs =>
    obtain ⟨l, l', hl, hc, rfl⟩ := onLedger_ok h
    obtain ⟨hpar, ab, p, q, n, ha, rfl⟩ := RequestLedger.pushTokens_ok hc
    by_cases hid : id = i
    · subst hid
      simp only [eventOf, if_true, Life.apply, life_account hl, ha, life_entry hl, hpar]
      simp [life_ledger, RequestLedger.editEntry, StepStatement.record_edit_self]
    · rw [life_ledger_frame hl]
      · simp [eventOf, hid, Life.apply]
      · simp [RequestLedger.editEntry, AList.lookup_insert_ne hid]
      · simp [RequestLedger.editEntry, StepStatement.record_edit_ne _ _ _ _ _ hid]
  | setCachedTokens i n => exact refines_annotate (.cachedTokens n) h
  | echoPrompt i echo => exact refines_annotate (.promptEcho echo) h
  | kvTransfer i params => exact refines_annotate (.kvTransfer params) h
  | finishWithCause i reason cause =>
    obtain ⟨l, l', hl, hc, rfl⟩ := onLedger_ok h
    obtain ⟨ab, p, q, n, ha, rfl⟩ := RequestLedger.finishWithCause_ok hc
    by_cases hid : id = i
    · subst hid
      simp only [eventOf, if_true, Life.apply, life_account hl, ha, Life.answer, life_entry hl]
      simp [life_ledger, RequestLedger.setTerminal, RequestLedger.editEntry, StepStatement.record_edit_self]
    · rw [life_ledger_frame hl]
      · simp [eventOf, hid, Life.apply]
      · simp [RequestLedger.setTerminal, RequestLedger.editEntry, AList.lookup_erase_ne hid]
      · simp [RequestLedger.setTerminal, RequestLedger.editEntry, StepStatement.record_edit_ne _ _ _ _ _ hid]
  | fail i message =>
    obtain ⟨l, l', hl, hc, rfl⟩ := onLedger_ok h
    obtain ⟨a, ha, rfl⟩ := RequestLedger.fail_ok hc
    by_cases hid : id = i
    · subst hid
      simp only [eventOf, if_true, Life.apply, life_account hl, ha, Life.answer, life_entry hl]
      simp [life_ledger, RequestLedger.setTerminal, RequestLedger.editEntry, StepStatement.record_edit_self]
    · rw [life_ledger_frame hl]
      · simp [eventOf, hid, Life.apply]
      · simp [RequestLedger.setTerminal, RequestLedger.editEntry, AList.lookup_erase_ne hid]
      · simp [RequestLedger.setTerminal, RequestLedger.editEntry, StepStatement.record_edit_ne _ _ _ _ _ hid]
  | retire i =>
    obtain ⟨l, l', hl, hc, rfl⟩ := onLedger_ok h
    obtain ⟨⟨a, ha⟩, rfl⟩ := RequestLedger.retire_ok hc
    by_cases hid : id = i
    · subst hid
      simp only [eventOf, if_true, Life.apply, life_account hl, ha]
      simp [life_ledger, StepStatement.record_extract_self]
    · rw [life_ledger_frame hl]
      · simp [eventOf, hid, Life.apply]
      · simp [AList.lookup_erase_ne hid]
      · simp [StepStatement.record_extract_ne _ _ _ hid]
  | deferFinishWithCause i reason cause =>
    simp only [step] at h
    split at h
    · cases h
    · rename_i l hl
      split at h
      · rename_i u l' hc
        obtain ⟨ab, p, q, n, ha, rfl, rfl⟩ := RequestLedger.deferFinishWithCause_ok hc
        simp only [Except.ok.injEq] at h
        subst h
        have hrec : ((l.statement.record i).getD (RequestUpdate.empty i)).id = i := by
          cases hr : l.statement.record i with
          | none => rfl
          | some v => exact StepStatement.record_id _ _ _ hr
        by_cases hid : id = i
        · subst hid
          simp only [eventOf, if_true, Life.apply, life_account hl, ha, life_entry hl]
          simp [life, shippedTo, StepStatement.record_extract_self, hrec, ← Multiset.cons_coe,
            ← Multiset.coe_add, ← Multiset.singleton_add, add_comm]
        · have hne : ¬ ((l.statement.record i).getD (RequestUpdate.empty i)).id = id := by
            rw [hrec]; exact fun h => hid h.symm
          simp [eventOf, hid, Life.apply, life, shippedTo, hl, AList.lookup_erase_ne hid,
            StepStatement.record_extract_ne _ _ _ hid, hne]
      · cases h
  | commitStep metricsChanged =>
    simp only [step] at h
    split at h
    · cases h
    · rename_i l hl
      simp only [Except.ok.injEq] at h
      subst h
      exact refines_commitStep hl metricsChanged
  | failAll order message =>
    obtain ⟨l, l', hl, hc, rfl⟩ := onLedger_ok h
    split_ifs at hc with ho
    have hnd : order.Nodup := ho.nodup_iff.2 l.accounts.keys_nodup
    have hkeys : id ∈ order ↔ id ∈ l.accounts := by rw [ho.mem_iff, AList.mem_keys]
    rcases RequestLedger.failAll_ok order l hnd hc id with ⟨hn, ha, hr⟩ | ⟨a, ha, hl', hr⟩
    · rw [life_ledger_frame hl ha hr]
      simp [eventOf, hn, Life.apply]
    · have hin : id ∈ order := hkeys.2 (by rw [← AList.lookup_isSome, ha]; rfl)
      simp only [eventOf, hin, if_true, Life.apply, life_account hl, ha, Life.answer, life_entry hl]
      simp [life_ledger, hl', hr]
  | sendDeferred k =>
    simp only [step] at h
    split at h
    · cases h
    · rename_i u hu
      simp only [Except.ok.injEq] at h
      subst h
      rw [life_deliver hu rfl]
      simp only [eventOf, hu]
      split_ifs with hid
      · subst hid
        simp [Life.apply, mem_withheld hu]
      · rfl
  | dropDeferred k =>
    simp only [step] at h
    split at h
    · cases h
    · rename_i u hu
      simp only [Except.ok.injEq] at h
      subst h
      rw [life_deliver (v := deferredDropUpdate u) hu rfl]
      simp only [eventOf, hu]
      split_ifs with hid
      · subst hid
        simp [Life.apply, mem_withheld hu]
      · rfl
  | dropLedger order =>
    simp only [step] at h
    split at h
    · cases h
    · rename_i l hl
      split_ifs at h with ho
      simp only [Except.ok.injEq] at h
      subst h
      exact refines_dropLedger hl order ho

/-! ## Phases along a run -/

/-- the tokens pushed for `id` by one operation -/
def pushedBy (id : RequestId) : Op → List Pushed
  | .pushTokens i ids logprobs => if id = i then ids.zip (RequestLedger.paddedLogprobs ids logprobs) else []
  | _ => []

/-- the tokens pushed for `id`, in push order -/
def pushedTo (id : RequestId) (ops : List Op) : List Pushed := ops.flatMap (pushedBy id)

theorem pushedTo_snoc (id : RequestId) (ops : List Op) (o : Op) :
    pushedTo id (ops ++ [o]) = pushedTo id ops ++ pushedBy id o := by
  simp [pushedTo]

theorem eventOf_tokens (s : StepStream) (id : RequestId) (o : Op) : (s.eventOf id o).tokens = pushedBy id o := by
  cases o with
  | sendDeferred k | dropDeferred k =>
    simp only [eventOf, pushedBy]
    split
    · split_ifs <;> rfl
    · rfl
  | _ => simp only [eventOf, pushedBy]; first | (split_ifs <;> rfl) | rfl

/-- only the `retire` call on `id` is a retirement of `id` -/
theorem eventOf_retired (s : StepStream) (id : RequestId) (o : Op) :
    s.eventOf id o = .retired ↔ o = .retire id := by
  cases o with
  | retire i =>
    by_cases hid : id = i
    · simp [eventOf, hid]
    · simp [eventOf, hid, Ne.symm hid]
  | sendDeferred k | dropDeferred k =>
    simp only [eventOf]
    split
    · split_ifs <;> simp
    · simp
  | _ => simp only [eventOf]; first | (split_ifs <;> simp) | simp

theorem eventOf_fell (s : StepStream) (id : RequestId) (o : Op) :
    s.eventOf id o = .fell ↔ ∃ order, o = .dropLedger order := by
  cases o with
  | sendDeferred k | dropDeferred k =>
    simp only [eventOf]
    split
    · split_ifs <;> simp
    · simp
  | _ => simp only [eventOf]; first | (split_ifs <;> simp) | simp

/-- no event leads into or out of retirement but `retired`, given that it is possible -/
theorem next_retired {pushed : List Pushed} {l l' : Life} {st : Stage} {e : Event} (h : Phase pushed l st)
    (ha : l.apply id e = some l') : Stage.next l st e = .retired ↔ st = .retired ∨ e = .retired := by
  by_cases hst : st = .retired
  · subst hst
    obtain ⟨sh, rfl, -⟩ := h
    simp [(apply_spent ha).2.2 .retired (by decide) (by decide) (by decide)]
  · cases e with
    | committed => simp only [Stage.next]; split_ifs <;> simp_all
    | fell => cases st <;> simp_all [Stage.next]; split_ifs <;> simp
    | _ => simp [Stage.next, hst]

/-- a request is lost only by the fall of the ledger over its buffered terminal -/
theorem next_lost {l : Life} {st : Stage} {e : Event} (hst : st ≠ .lost) (h : Stage.next l st e = .lost) :
    e = .fell ∧ st = .closing := by
  cases e with
  | fell => cases st <;> simp_all [Stage.next]; split_ifs at h
  | committed => simp only [Stage.next] at h; split_ifs at h; exact absurd h hst
  | _ => simp_all [Stage.next]

theorem phase_init (id : RequestId) : Phase [] (init.life id) .unseen := by
  refine ⟨?_, rfl⟩
  simp [life, init, shippedTo, RequestLedger.new]

/-- what a step does to the phase of one request -/
theorem step_phase {hist : List Op} {o : Op} {st : Stage} (hs : s.step o = .ok s')
    (h : Phase (pushedTo id hist) (s.life id) st) (hret : st = .retired ↔ Op.retire id ∈ hist) :
    Phase (pushedTo id (hist ++ [o])) (s'.life id) (Stage.next (s.life id) st (s.eventOf id o)) ∧
      (Stage.next (s.life id) st (s.eventOf id o) = .retired ↔ Op.retire id ∈ hist ++ [o]) := by
  have ha := step_refines o hs id
  constructor
  · rw [pushedTo_snoc, ← eventOf_tokens s id o]
    exact phase_step h ha
  · rw [next_retired h ha, eventOf_retired, hret, List.mem_append, List.mem_singleton, eq_comm (a := o)]

/-- **Every request is in a phase.** After every run, whatever its interleaving. -/
theorem run_phases (ops : List Op) (s : StepStream) (hr : run step init ops = .ok s) (id : RequestId) :
    ∃ st, Phase (pushedTo id ops) (s.life id) st ∧ (st = .retired ↔ Op.retire id ∈ ops) := by
  refine run_invariant (P := fun _ _ => True)
    (I := fun (hist : List Op) (s : StepStream) =>
      ∃ st, Phase (pushedTo id hist) (s.life id) st ∧ (st = .retired ↔ Op.retire id ∈ hist))
    init ⟨.unseen, phase_init id, by simp⟩ ?_ ops s (stepsMeet_true init ops) hr
  rintro hist s o s' ⟨st, h, hret⟩ - hs
  exact ⟨_, step_phase hs h hret⟩

/-! ## Exactly one terminal -/

/-- a ledger that falls holds no terminal in its statement -/
def fallsClean (s : StepStream) : Op → Bool
  | .dropLedger _ =>
    match s.ledger with
    | some l => l.statement.buffer.all fun slot => slot.all fun u => u.terminal.isNone
    | none => true
  | _ => true

/-- the run has come to rest: no envelope, no ledger and no deferred finish is left to answer -/
def Settled (s : StepStream) : Prop := s.envelopes.keys = [] ∧ s.ledger = none ∧ s.deferred = []

/-- exactly one record is terminal, and it is the last -/
def AnsweredOnce (records : List RequestUpdate) : Prop :=
  ∃ pre u, records = pre ++ [u] ∧ u.terminal.isSome ∧ Quiet pre

/-- no record follows a terminal -/
def TerminalLast (records : List RequestUpdate) : Prop :=
  ∀ pre u post, records = pre ++ u :: post → u.terminal.isSome → post = []

theorem terminalLast_of_quiet {records : List RequestUpdate} (h : Quiet records) : TerminalLast records := by
  rintro pre u post rfl hu
  rw [h u (by simp)] at hu
  cases hu

theorem terminalLast_snoc {records : List RequestUpdate} (h : Quiet records) (u : RequestUpdate) :
    TerminalLast (records ++ [u]) := by
  intro pre v post heq hv
  rcases List.eq_nil_or_concat post with rfl | ⟨post', w, rfl⟩
  · rfl
  · rw [List.concat_eq_append, ← List.cons_append, ← List.append_assoc] at heq
    have hpre := (List.append_inj' heq rfl).1
    rw [h v (by rw [hpre]; simp)] at hv
    cases hv

theorem phase_terminalLast {pushed : List Pushed} {l : Life} {st : Stage} (h : Phase pushed l st) :
    TerminalLast l.shipped := by
  cases st with
  | unseen => obtain ⟨rfl, -⟩ := h; exact terminalLast_of_quiet (by simp [Quiet])
  | enveloped => obtain ⟨e, rfl, -⟩ := h; exact terminalLast_of_quiet (by simp [Quiet])
  | queued => obtain ⟨_, _, _, rfl, -⟩ := h; exact terminalLast_of_quiet (by simp [Quiet])
  | active => obtain ⟨_, _, _, _, _, rfl, hq, -⟩ := h; exact terminalLast_of_quiet hq.left
  | closing => obtain ⟨_, _, rfl, hq, -⟩ := h; exact terminalLast_of_quiet hq
  | withheld => obtain ⟨_, _, _, _, _, rfl, hq, -⟩ := h; exact terminalLast_of_quiet hq
  | answered => obtain ⟨u, _, rfl, hq, -⟩ := h; exact terminalLast_snoc hq u
  | truncated => obtain ⟨u, _, rfl, hq, -⟩ := h; exact terminalLast_snoc hq u
  | retired => obtain ⟨_, rfl, hq⟩ := h; exact terminalLast_of_quiet hq
  | lost => obtain ⟨_, rfl, hq⟩ := h; exact terminalLast_of_quiet hq

/-- at rest a submitted request is answered, retired or lost -/
theorem phase_settled {pushed : List Pushed} {st : Stage} (h : Phase pushed (s.life id) st) (hs : s.Settled)
    (hid : id < s.nextId) : AnsweredOnce (s.shippedTo id) ∨ st = .retired ∨ st = .lost := by
  obtain ⟨henv, hled, hdef⟩ := hs
  have henv' : s.envelopes.lookup id = none := by
    rw [AList.lookup_eq_none, AList.mem_keys, henv]
    simp
  have hshipped : (s.life id).shipped = s.shippedTo id := rfl
  cases st with
  | unseen => simp [Phase, life, hid] at h
  | enveloped => simp [Phase, life, henv'] at h
  | queued => simp [Phase, life, hled] at h
  | active => simp [Phase, life, hled] at h
  | closing => simp [Phase, life, hled] at h
  | withheld =>
    obtain ⟨u, sh, _, _, _, heq, -⟩ := h
    simp [life, hdef] at heq
  | answered =>
    obtain ⟨u, sh, heq, hq, hc, -⟩ := h
    exact Or.inl ⟨sh, u, by rw [← hshipped, heq], hc.isSome, hq⟩
  | truncated =>
    obtain ⟨u, sh, heq, hq, hc⟩ := h
    exact Or.inl ⟨sh, u, by rw [← hshipped, heq], hc, hq⟩
  | retired => exact Or.inr (Or.inl rfl)
  | lost => exact Or.inr (Or.inr rfl)

/-- a request with a buffered terminal is about to be answered -/
theorem phase_closing_of_buffered {pushed : List Pushed} {l : Life} {st : Stage} {u : RequestUpdate}
    (h : Phase pushed l st) (hb : l.buffered = some u) (hu : u.terminal.isSome) : st = .closing := by
  cases st with
  | closing => rfl
  | active =>
    obtain ⟨_, _, _, b, sh, rfl, hq, -⟩ := h
    simp only at hb
    rw [hq u (by simp [hb])] at hu
    cases hu
  | withheld => obtain ⟨_, _, _, _, _, rfl, -⟩ := h; cases hb
  | queued => obtain ⟨_, _, _, rfl, -⟩ := h; cases hb
  | unseen => obtain ⟨rfl, -⟩ := h; cases hb
  | enveloped => obtain ⟨_, rfl, -⟩ := h; cases hb
  | answered => obtain ⟨_, _, rfl, -⟩ := h; cases hb
  | truncated => obtain ⟨_, _, rfl, -⟩ := h; cases hb
  | retired => obtain ⟨_, rfl, -⟩ := h; cases hb
  | lost => obtain ⟨_, rfl, -⟩ := h; cases hb

theorem fallsClean_iff {order : List RequestId} {l : RequestLedger} (hl : s.ledger = some l) :
    s.fallsClean (.dropLedger order) = true ↔
      ∀ id u, l.statement.record id = some u → u.terminal = none := by
  simp only [fallsClean, hl, List.all_eq_true]
  constructor
  · intro h id u hu
    have := h (some u) ((StepStatement.record_eq_some _ _ _).1 hu).1
    simpa using this
  · rintro h (_ | u) hu
    · rfl
    · simpa using h u.id u ((StepStatement.record_eq_some _ _ _).2 ⟨hu, rfl⟩)

/-- a run whose ledger falls clean loses no request -/
theorem run_not_lost (ops : List Op) (s : StepStream) (hr : run step init ops = .ok s)
    (hc : StepsMeet step (fun s o => s.fallsClean o = true) init ops) (id : RequestId) :
    ∃ st, Phase (pushedTo id ops) (s.life id) st ∧ (st = .retired ↔ Op.retire id ∈ ops) ∧ st ≠ .lost := by
  refine run_invariant (P := fun (s : StepStream) o => s.fallsClean o = true)
    (I := fun (hist : List Op) (s : StepStream) =>
      ∃ st, Phase (pushedTo id hist) (s.life id) st ∧ (st = .retired ↔ Op.retire id ∈ hist) ∧ st ≠ .lost)
    init ⟨.unseen, phase_init id, by simp⟩ ?_ ops s hc hr
  rintro hist s o s' ⟨st, h, hret, hlost⟩ hclean hs
  obtain ⟨h', hret'⟩ := step_phase hs h hret
  refine ⟨_, h', hret', fun hbad => ?_⟩
  obtain ⟨hfell, rfl⟩ := next_lost hlost hbad
  obtain ⟨order, rfl⟩ := (eventOf_fell s id o).1 hfell
  obtain ⟨u, sh, heq, -, hcl, -⟩ := h
  have hb : (s.life id).buffered = some u := by rw [heq]
  simp only [life, Option.bind_eq_some_iff] at hb
  obtain ⟨l, hl, hb⟩ := hb
  have hnone := (fallsClean_iff hl).1 hclean id u hb
  have hsome := hcl.isSome
  rw [hnone] at hsome
  cases hsome

/-- a lost request stays lost, and can no longer be retired -/
theorem run_lost (ops hist : List Op) (s s' : StepStream) (id : RequestId) (hr : run step s ops = .ok s')
    (h : Phase (pushedTo id hist) (s.life id) .lost) (hret : Op.retire id ∉ hist) :
    Phase (pushedTo id (hist ++ ops)) (s'.life id) .lost ∧ Op.retire id ∉ hist ++ ops := by
  refine run_invariant_from (P := fun _ _ => True)
    (I := fun (hist : List Op) (s : StepStream) =>
      Phase (pushedTo id hist) (s.life id) .lost ∧ Op.retire id ∉ hist) ?_ ops hist s s' ⟨h, hret⟩
    (stepsMeet_true s ops) hr
  rintro hist s o s' ⟨h, hret⟩ - hs
  have ha := step_refines o hs id
  obtain ⟨h', hret'⟩ := step_phase hs h ((iff_false_right hret).2 (by decide))
  have hnext : Stage.next (s.life id) .lost (s.eventOf id o) = .lost := by
    obtain ⟨sh, heq, -⟩ := h
    rw [heq] at ha ⊢
    exact (apply_spent ha).2.2 .lost (by decide) (by decide) (by decide)
  rw [hnext] at h' hret'
  exact ⟨h', fun hmem => by cases hret'.2 hmem⟩

/-- **Exactly one terminal.** In every state of every run no record of a request follows its terminal. And a run that
has come to rest answered every submitted, unretired request with exactly one terminal if and only if the ledger never
fell with a terminal still buffered in its statement. -/
theorem exactly_one_terminal_iff (ops : List Op) (s : StepStream) (hr : run step init ops = .ok s) :
    (∀ id, TerminalLast (s.shippedTo id)) ∧
      (s.Settled →
        ((∀ id, id < s.nextId → Op.retire id ∉ ops → AnsweredOnce (s.shippedTo id)) ↔
          StepsMeet step (fun s o => s.fallsClean o = true) init ops)) := by
  constructor
  · intro id
    obtain ⟨st, h, -⟩ := run_phases ops s hr id
    exact phase_terminalLast h
  · intro hs
    constructor
    · intro hall
      by_contra hc
      obtain ⟨pre, o, post, m, rfl, hm, hbad⟩ := not_stepsMeet init ops hc
      -- the operation is a fall over a buffered terminal; its request is lost from there on
      obtain ⟨m', hm', hpost⟩ := (run_append_ok init s pre (o :: post)).1 hr
      rw [hm, Except.ok.injEq] at hm'
      subst hm'
      obtain ⟨n, hn, hrest⟩ := (run_cons_ok m s o post).1 hpost
      obtain ⟨order, l, rfl, hl⟩ : ∃ order l, o = .dropLedger order ∧ m.ledger = some l := by
        cases o with
        | dropLedger order =>
          cases hl : m.ledger with
          | none => simp [fallsClean, hl] at hbad
          | some l => exact ⟨order, l, rfl, rfl⟩
        | _ => simp [fallsClean] at hbad
      simp only [fallsClean_iff hl, not_forall] at hbad
      obtain ⟨id, u, hu, hterm⟩ := hbad
      obtain ⟨st, h, hret⟩ := run_phases pre m hm id
      have hclosing : st = .closing :=
        phase_closing_of_buffered h (by rw [life_buffered hl, hu]) (Option.isSome_iff_ne_none.2 hterm)
      subst hclosing
      have hnot : Op.retire id ∉ pre := fun hmem => by cases hret.2 hmem
      obtain ⟨h', hret'⟩ := step_phase hn h hret
      have hlost : Stage.next (m.life id) .closing (m.eventOf id (.dropLedger order)) = .lost := rfl
      rw [hlost] at h' hret'
      obtain ⟨hfin, hfin'⟩ := run_lost post (pre ++ [.dropLedger order]) n s id hrest h'
        fun hmem => by cases hret'.2 hmem
      rw [List.append_assoc] at hfin'
      obtain ⟨sh, heq, hq⟩ := hfin
      have hseen : id < s.nextId := by
        have : (s.life id).seen = true := by rw [heq]
        simpa [life] using this
      obtain ⟨pre', v, hv, hsome, -⟩ := hall id hseen hfin'
      have hsh : s.shippedTo id = sh := congrArg Life.shipped heq
      rw [hq v (by rw [← hsh, hv]; simp)] at hsome
      cases hsome
    · intro hc id hid hret
      obtain ⟨st, h, hret', hlost⟩ := run_not_lost ops s hr hc id
      rcases phase_settled h hs hid with hdone | hst | hst
      · exact hdone
      · exact absurd (hret'.1 hst) hret
      · exact absurd hst hlost

/-- one request served to its finish, the step committed before the ledger falls -/
def committedFinish : List Op :=
  [.submit [1] 0, .register 0, .admitRequest 0 0, .finishWithCause 0 .stop none, .commitStep false, .dropLedger []]

/-- the same, but the driver thread unwinds between the finish and the commit -/
def unwoundFinish : List Op :=
  [.submit [1] 0, .register 0, .admitRequest 0 0, .finishWithCause 0 .stop none, .dropLedger []]

theorem exactly_one_terminal_committed :
    ∃ s, run step init committedFinish = .ok s ∧ s.Settled ∧ AnsweredOnce (s.shippedTo 0) :=
  ⟨_, rfl, ⟨rfl, rfl, rfl⟩,
    ((exactly_one_terminal_iff committedFinish _ rfl).2 ⟨rfl, rfl, rfl⟩).2 (by decide) 0 (by decide) (by decide)⟩

/-- **A terminal dies in the statement.** The account of the finished request is already closed, so the drop sweep
skips it, and the client never sees an end of its stream. -/
theorem finish_lost_by_fall :
    ∃ s, run step init unwoundFinish = .ok s ∧ s.Settled ∧ 0 < s.nextId ∧ Op.retire 0 ∉ unwoundFinish ∧
      ¬ AnsweredOnce (s.shippedTo 0) := by
  refine ⟨_, rfl, ⟨rfl, rfl, rfl⟩, by decide, by decide, ?_⟩
  rintro ⟨pre, u, heq, -⟩
  have hnil : ([] : List RequestUpdate) = pre ++ [u] := heq
  simp at hnil

/-! ## Token conservation -/

/-- a ledger that falls was committed: its statement would ship nothing -/
def fallsCommitted (s : StepStream) : Op → Bool
  | .dropLedger _ =>
    match s.ledger with
    | some l => l.statement.takeUpdates.1.isEmpty
    | none => true
  | _ => true

/-- directly after `commit_step` the ledger may fall -/
theorem commitStep_fallsCommitted {b : Bool} (h : s.step (.commitStep b) = .ok s') (order : List RequestId) :
    s'.fallsCommitted (.dropLedger order) = true := by
  simp only [step] at h
  split at h
  · cases h
  · simp only [Except.ok.injEq] at h
    subst h
    rfl

/-- nothing of `id` is still on its way to the stream -/
def Flushed (s : StepStream) (id : RequestId) : Prop :=
  (∀ l, s.ledger = some l → l.statement.record id = none) ∧ ∀ u ∈ s.deferred, u.id ≠ id

theorem fallsCommitted_vacant {order : List RequestId} {l : RequestLedger} (hl : s.ledger = some l)
    (h : s.fallsCommitted (.dropLedger order) = true) (u : RequestUpdate) (hu : l.statement.record id = some u) :
    u.isVacant = true := by
  simp only [fallsCommitted, hl, List.isEmpty_iff] at h
  by_contra hv
  have hid := StepStatement.record_id _ _ _ hu
  have hmem : u ∈ l.statement.takeUpdates.1 :=
    (StepStatement.mem_takeUpdates _ u).2 ⟨by rw [hid, hu], by simpa using hv⟩
  rw [h] at hmem
  cases hmem

theorem next_truncated {l : Life} {st : Stage} {e : Event} (hst : st ≠ .truncated)
    (h : Stage.next l st e = .truncated) : e = .fell ∧ l.buffered.all RequestUpdate.isVacant = false := by
  cases e with
  | fell => cases st <;> simp_all [Stage.next]
  | committed => simp only [Stage.next] at h; split_ifs at h; exact absurd h hst
  | _ => simp_all [Stage.next]

/-- a run whose ledger was committed before it fell neither loses nor truncates a request -/
theorem run_told (ops : List Op) (s : StepStream) (hr : run step init ops = .ok s)
    (hc : StepsMeet step (fun s o => s.fallsCommitted o = true) init ops) (id : RequestId) :
    ∃ st, Phase (pushedTo id ops) (s.life id) st ∧ (st = .retired ↔ Op.retire id ∈ ops) ∧
      st ≠ .lost ∧ st ≠ .truncated := by
  refine run_invariant (P := fun (s : StepStream) o => s.fallsCommitted o = true)
    (I := fun (hist : List Op) (s : StepStream) =>
      ∃ st, Phase (pushedTo id hist) (s.life id) st ∧ (st = .retired ↔ Op.retire id ∈ hist) ∧
        st ≠ .lost ∧ st ≠ .truncated)
    init ⟨.unseen, phase_init id, by simp⟩ ?_ ops s hc hr
  rintro hist s o s' ⟨st, h, hret, hlost, htrunc⟩ hcomm hs
  obtain ⟨h', hret'⟩ := step_phase hs h hret
  refine ⟨_, h', hret', fun hbad => ?_, fun hbad => ?_⟩
  · obtain ⟨hfell, rfl⟩ := next_lost hlost hbad
    obtain ⟨order, rfl⟩ := (eventOf_fell s id o).1 hfell
    obtain ⟨u, sh, heq, -, hcl, -⟩ := h
    have hb : (s.life id).buffered = some u := by rw [heq]
    simp only [life, Option.bind_eq_some_iff] at hb
    obtain ⟨l, hl, hb⟩ := hb
    have hv := fallsCommitted_vacant hl hcomm u hb
    rw [hcl.not_vacant] at hv
    cases hv
  · obtain ⟨hfell, hall⟩ := next_truncated htrunc hbad
    obtain ⟨order, rfl⟩ := (eventOf_fell s id o).1 hfell
    cases hb : (s.life id).buffered with
    | none => simp [hb] at hall
    | some u =>
      simp only [hb, Option.all_some] at hall
      simp only [life, Option.bind_eq_some_iff] at hb
      obtain ⟨l, hl, hb⟩ := hb
      rw [fallsCommitted_vacant hl hcomm u hb] at hall
      cases hall

/-- one message holds at most one record per request -/
theorem step_nodup {o : Op} (hs : s.step o = .ok s') (h : ∀ m ∈ s.sent, (m.updates.map RequestUpdate.id).Nodup) :
    ∀ m ∈ s'.sent, (m.updates.map RequestUpdate.id).Nodup := by
  -- the messages a step adds: a solo record, a statement, or a sweep
  have hadd : ∃ added, s'.sent = s.sent ++ added ∧ ∀ m ∈ added, (m.updates.map RequestUpdate.id).Nodup := by
    cases o with
    | submit prompt now => simp only [step, Except.ok.injEq] at hs; subst hs; exact ⟨[], by simp⟩
    | abort i =>
      simp only [step, Except.ok.injEq] at hs
      subst hs
      refine ⟨[], ?_, by simp⟩
      unfold raiseAbort
      cases he : s.envelopes.lookup i <;> cases hl : s.ledger with
      | none => simp [hl]
      | some l => cases ha : l.accounts.lookup i <;> simp [hl, ha]
    | dropEnvelope i =>
      simp only [step] at hs
      split at hs
      · cases hs
      · simp only [Except.ok.injEq] at hs; subst hs; exact ⟨_, rfl, by simp⟩
    | register i =>
      simp only [step] at hs
      split at hs
      · cases hs
      · obtain ⟨_, _, -, -, rfl⟩ := onLedger_ok hs; exact ⟨[], by simp⟩
    | deferFinishWithCause i reason cause =>
      simp only [step] at hs
      split at hs
      · cases hs
      · split at hs
        · simp only [Except.ok.injEq] at hs; subst hs; exact ⟨[], by simp⟩
        · cases hs
    | commitStep b =>
      simp only [step] at hs
      split at hs
      · cases hs
      · rename_i l hl
        simp only [Except.ok.injEq] at hs
        subst hs
        refine ⟨_, rfl, ?_⟩
        intro m hm
        simp only [RequestLedger.commitStep, Option.mem_toList, Option.ite_none_left_eq_some, Option.some.injEq] at hm
        rw [← hm.2]
        exact StepStatement.takeUpdates_nodup _
    | sendDeferred k | dropDeferred k =>
      simp only [step] at hs
      split at hs
      · cases hs
      · simp only [Except.ok.injEq] at hs; subst hs; exact ⟨_, rfl, by simp⟩
    | dropLedger order =>
      simp only [step] at hs
      split at hs
      · cases hs
      · rename_i l hl
        split_ifs at hs with ho
        simp only [Except.ok.injEq] at hs
        subst hs
        refine ⟨_, rfl, ?_⟩
        intro m hm
        simp only [RequestLedger.drop, Option.mem_toList, Option.ite_none_left_eq_some, Option.some.injEq] at hm
        rw [← hm.2]
        exact (ho.nodup_iff.2 l.accounts.keys_nodup).sublist (RequestLedger.writeOffs_ids l order)
    | _ => obtain ⟨_, _, -, -, rfl⟩ := onLedger_ok hs; exact ⟨[], by simp⟩
  obtain ⟨added, heq, hnd⟩ := hadd
  rw [heq]
  intro m hm
  exact (List.mem_append.1 hm).elim (h m) (hnd m)

theorem run_nodup (ops : List Op) (s : StepStream) (hr : run step init ops = .ok s) :
    ∀ m ∈ s.sent, (m.updates.map RequestUpdate.id).Nodup :=
  run_invariant (P := fun _ _ => True)
    (I := fun _ (s : StepStream) => ∀ m ∈ s.sent, (m.updates.map RequestUpdate.id).Nodup)
    init (by simp [init]) (fun _ _ _ _ h _ hs => step_nodup hs h) ops s (stepsMeet_true init ops) hr

/-- the shipped records of a request, before or at its end -/
theorem phase_told {pushed : List Pushed} {l : Life} {st : Stage} (h : Phase pushed l st) (hret : st ≠ .retired)
    (hlost : st ≠ .lost) (htrunc : st ≠ .truncated) :
    ∃ rest, Story (l.shipped ++ rest) pushed ∧ (l.buffered = none → l.withheld = 0 → rest = []) ∧
      ∀ u ∈ l.shipped, ∀ t, u.terminal = some t → rest = [] ∧ t.completionTokens = pushed.length := by
  cases st with
  | unseen => obtain ⟨rfl, rfl⟩ := h; exact ⟨[], Story.nil, by simp⟩
  | enveloped => obtain ⟨e, rfl, rfl⟩ := h; exact ⟨[], Story.nil, by simp⟩
  | queued => obtain ⟨_, _, _, rfl, rfl⟩ := h; exact ⟨[], Story.nil, by simp⟩
  | active =>
    obtain ⟨_, _, _, b, sh, rfl, hq, hs⟩ := h
    refine ⟨b.toList, hs, fun hb _ => by simp [show b = none from hb], fun u hu t ht => ?_⟩
    rw [hq.left u hu] at ht
    cases ht
  | closing =>
    obtain ⟨u, sh, rfl, hq, -, hs⟩ := h
    refine ⟨[u], hs, by simp, fun v hv t ht => ?_⟩
    rw [hq v hv] at ht
    cases ht
  | withheld =>
    obtain ⟨u, sh, _, _, _, rfl, hq, -, hs⟩ := h
    refine ⟨[u], hs, by simp, fun v hv t ht => ?_⟩
    rw [hq v hv] at ht
    cases ht
  | answered =>
    obtain ⟨u, sh, rfl, hq, ⟨t, ht, hn⟩, hs⟩ := h
    refine ⟨[], by simpa using hs, by simp, fun v hv t' ht' => ⟨rfl, ?_⟩⟩
    rcases List.mem_append.1 hv with hv | hv
    · rw [hq v hv] at ht'; cases ht'
    · rw [List.mem_singleton.1 hv, ht, Option.some.injEq] at ht'
      rw [← ht', hn]
  | truncated => exact absurd rfl htrunc
  | retired => exact absurd rfl hret
  | lost => exact absurd rfl hlost

/-- **Token conservation.** In every run in which the ledger was committed before it fell: a message holds at most one
record per request; and for every unretired request, the scheduled record comes at most once and before the first
token, logprobs are aligned with tokens, the count in a shipped terminal is the number of tokens shipped, and once
nothing of the request is buffered or withheld, the shipped tokens and logprobs are those pushed, in push order. -/
theorem tokens_conserved (ops : List Op) (s : StepStream) (hr : run step init ops = .ok s)
    (hc : StepsMeet step (fun s o => s.fallsCommitted o = true) init ops) :
    (∀ m ∈ s.sent, (m.updates.map RequestUpdate.id).Nodup) ∧
      ∀ id, Op.retire id ∉ ops →
        ((s.shippedTo id).Pairwise fun u v => v.scheduled.isSome → u.scheduled = none ∧ u.tokens = []) ∧
        (∀ u ∈ s.shippedTo id, u.tokens.length = u.logprobs.length) ∧
        (∀ u ∈ s.shippedTo id, ∀ t, u.terminal = some t →
          t.completionTokens = ((s.shippedTo id).flatMap RequestUpdate.tokens).length) ∧
        (s.Flushed id →
          (s.shippedTo id).flatMap RequestUpdate.tokens = (pushedTo id ops).map Prod.fst ∧
          (s.shippedTo id).flatMap RequestUpdate.logprobs = (pushedTo id ops).map Prod.snd) := by
  refine ⟨run_nodup ops s hr, fun id hid => ?_⟩
  obtain ⟨st, h, hret, hlost, htrunc⟩ := run_told ops s hr hc id
  obtain ⟨rest, hs, hflush, hterm⟩ := phase_told h (fun hst => hid (hret.1 hst)) hlost htrunc
  have hshipped : (s.life id).shipped = s.shippedTo id := rfl
  rw [hshipped] at hs hterm
  refine ⟨(List.pairwise_append.1 hs.scheduled).1, fun u hu => hs.aligned u (List.mem_append_left _ hu), ?_, ?_⟩
  · intro u hu t ht
    obtain ⟨rfl, hn⟩ := hterm u hu t ht
    rw [hn]
    simpa using (congrArg List.length hs.tokens).symm
  · rintro ⟨hled, hdef⟩
    have hbuf : (s.life id).buffered = none := by
      simp only [life, Option.bind_eq_none_iff]
      exact hled
    have hwith : (s.life id).withheld = 0 := by
      simp only [life, Multiset.coe_eq_zero, List.filter_eq_nil_iff, decide_eq_true_eq]
      exact hdef
    have hnil := hflush hbuf hwith
    subst hnil
    exact ⟨by simpa using hs.tokens, by simpa using hs.logprobs⟩

/-- a request streamed over two steps whose finish travels through a deferred finish, sent after the fall -/
def deferredFinishRun : List Op :=
  [.submit [1, 2] 0, .register 0, .admitRequest 0 1, .pushTokens 0 [7, 8] [], .commitStep false,
    .pushTokens 0 [9] [none], .deferFinishWithCause 0 .length none, .commitStep false, .dropLedger [],
    .sendDeferred 0]

theorem tokens_conserved_deferred :
    ∃ s, run step init deferredFinishRun = .ok s ∧
      (s.shippedTo 0).flatMap RequestUpdate.tokens = [7, 8, 9] :=
  ⟨_, rfl, (((tokens_conserved deferredFinishRun _ rfl (by decide)).2 0 (by decide)).2.2.2
    ⟨fun _ h => (by cases h), by decide⟩).1⟩

end StepStream

end Pegainfer.Frontend
