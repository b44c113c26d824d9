/-
The request ledger: one account per unanswered request, and the statement of updates the current step will ship.

`StepStatement` is the source's `buffer` of records and `index` from request id to slot. The two are tied together in
the structure itself: an index entry points at a live record of that id, and every live record is indexed. So the
lookup in `entry` never meets an extracted slot.
- `record`: the record buffered for an id. `edit`, `extract` and `takeUpdates` are specified through it.
- `takeUpdates_nodup`: one step ships at most one record per id.
A ledger call that breaks an asserted precondition is an error carrying the panic's text.
The iteration order of the account table is a parameter of the two sweeps (`failAll` and the drop).
-/
import Mathlib.Tactic
import Mathlib.Data.List.AList
import Pegainfer.Frontend.Step

namespace Pegainfer.Frontend

/-! ## The step statement -/

/-- the current step's outgoing updates, merged per request -/
structure StepStatement where
  buffer : List (Option RequestUpdate)
  index : AList (fun _ : RequestId => ℕ)
  indexed_live : ∀ id slot, index.lookup id = some slot → ∃ u, buffer[slot]? = some (some u) ∧ u.id = id
  live_indexed : ∀ slot u, buffer[slot]? = some (some u) → index.lookup u.id = some slot

namespace StepStatement

def empty : StepStatement := ⟨[], ∅, by simp, by simp⟩

/-- the record buffered for `id` -/
def record (st : StepStatement) (id : RequestId) : Option RequestUpdate :=
  (st.index.lookup id).bind fun slot => st.buffer[slot]?.join

attribute [grind =] record

/-- `entry(id)` followed by an in-place edit of the record it returns -/
def edit (st : StepStatement) (id : RequestId) (f : RequestUpdate → RequestUpdate) (hf : ∀ u, (f u).id = u.id) :
    StepStatement :=
  match h : st.index.lookup id with
  | some slot =>
    { buffer := st.buffer.modify slot (Option.map f)
      index := st.index
      indexed_live := by
        intro id' slot' h'
        obtain ⟨u, hu, hid⟩ := st.indexed_live id' slot' h'
        rw [List.getElem?_modify, hu]
        by_cases hs : slot = slot'
        · exact ⟨f u, by simp [hs], by rw [hf, hid]⟩
        · exact ⟨u, by simp [hs], hid⟩
      live_indexed := by
        intro slot' u hu
        rw [List.getElem?_modify] at hu
        obtain ⟨o, ho, hmap⟩ := Option.map_eq_some_iff.1 hu
        by_cases hs : slot = slot'
        · simp only [hs, if_true, Option.map_eq_some_iff] at hmap
          obtain ⟨v, rfl, rfl⟩ := hmap
          rw [hf]; exact st.live_indexed slot' v ho
        · simp only [hs, if_false] at hmap
          subst hmap
          exact st.live_indexed slot' u ho }
  | none =>
    { buffer := st.buffer ++ [some (f (RequestUpdate.empty id))]
      index := st.index.insert id st.buffer.length
      indexed_live := by
        intro id' slot' h'
        by_cases hid : id' = id
        · subst hid
          simp only [AList.lookup_insert, Option.some.injEq] at h'
          subst h'
          exact ⟨f (RequestUpdate.empty id'), by simp, by rw [hf, RequestUpdate.empty_id]⟩
        · rw [AList.lookup_insert_ne hid] at h'
          obtain ⟨u, hu, hu'⟩ := st.indexed_live id' slot' h'
          have hlt := (List.getElem?_eq_some_iff.1 hu).1
          exact ⟨u, by rw [List.getElem?_append_left hlt, hu], hu'⟩
      live_indexed := by
        intro slot' u hu
        rcases Nat.lt_or_ge slot' st.buffer.length with hlt | hge
        · rw [List.getElem?_append_left hlt] at hu
          have hi := st.live_indexed slot' u hu
          have hne : u.id ≠ id := by rintro rfl; rw [h] at hi; cases hi
          rw [AList.lookup_insert_ne hne, hi]
        · rw [List.getElem?_append_right hge] at hu
          obtain ⟨hz, hu⟩ := List.getElem?_eq_some_iff.1 hu
          simp only [List.length_singleton] at hz
          have hs : slot' = st.buffer.length := by omega
          simp only [List.getElem_singleton, Option.some.injEq] at hu
          subst hu
          rw [hf, RequestUpdate.empty_id, AList.lookup_insert, hs] }

attribute [grind =] edit

/-- remove a request's buffered record (deferred finish, retire) -/
def extract (st : StepStatement) (id : RequestId) : Option RequestUpdate × StepStatement :=
  match h : st.index.lookup id with
  | none => (none, st)
  | some slot =>
    (st.buffer[slot]?.join,
      { buffer := st.buffer.set slot none
        index := st.index.erase id
        indexed_live := by
          intro id' slot' h'
          by_cases hid : id' = id
          · subst hid; simp at h'
          · rw [AList.lookup_erase_ne hid] at h'
            obtain ⟨u, hu, hu'⟩ := st.indexed_live id' slot' h'
            obtain ⟨v, hv, hv'⟩ := st.indexed_live id slot h
            have hne : slot ≠ slot' := by
              rintro rfl
              rw [hu] at hv
              simp only [Option.some.injEq] at hv
              exact hid (by rw [← hu', ← hv', hv])
            exact ⟨u, by rw [List.getElem?_set_ne hne, hu], hu'⟩
        live_indexed := by
          intro slot' u hu
          by_cases hs : slot = slot'
          · subst hs
            rw [List.getElem?_set] at hu
            simp only [if_true] at hu
            split_ifs at hu
            simp at hu
          · rw [List.getElem?_set_ne hs] at hu
            have hi := st.live_indexed slot' u hu
            have hne : u.id ≠ id := by
              rintro rfl
              rw [h] at hi
              exact hs (Option.some.inj hi)
            rw [AList.lookup_erase_ne hne, hi] })

attribute [grind =] extract

/-- the records to ship; the statement is empty afterwards -/
def takeUpdates (st : StepStatement) : List RequestUpdate × StepStatement :=
  ((st.buffer.filterMap id).filter fun u => !u.isVacant, empty)

/-! ### What each statement operation does to the buffered records -/

theorem record_eq_some (st : StepStatement) (id : RequestId) (u : RequestUpdate) :
    st.record id = some u ↔ some u ∈ st.buffer ∧ u.id = id := by
  constructor
  · intro h
    simp only [record, Option.bind_eq_some_iff] at h
    obtain ⟨slot, hslot, hu⟩ := h
    obtain ⟨v, hv, hid⟩ := st.indexed_live id slot hslot
    rw [hv] at hu
    simp only [Option.join_some, Option.some.injEq] at hu
    subst hu
    exact ⟨List.mem_of_getElem? hv, hid⟩
  · rintro ⟨hm, rfl⟩
    obtain ⟨slot, hslot⟩ := List.mem_iff_getElem?.1 hm
    simp [record, st.live_indexed slot u hslot, hslot]

theorem record_id (st : StepStatement) (id : RequestId) (u : RequestUpdate) (h : st.record id = some u) : u.id = id :=
  ((record_eq_some st id u).1 h).2

@[simp] theorem record_empty (id : RequestId) : empty.record id = none := rfl

theorem record_edit_self (st : StepStatement) (id : RequestId) (f : RequestUpdate → RequestUpdate)
    (hf : ∀ u, (f u).id = u.id) :
    (st.edit id f hf).record id = some (f ((st.record id).getD (RequestUpdate.empty id))) := by
  unfold edit
  split
  · rename_i slot h
    obtain ⟨u, hu, -⟩ := st.indexed_live id slot h
    simp [record, h, hu]
  · rename_i h
    simp [record, h]

theorem record_edit_ne (st : StepStatement) (id id' : RequestId) (f : RequestUpdate → RequestUpdate)
    (hf : ∀ u, (f u).id = u.id) (hne : id' ≠ id) : (st.edit id f hf).record id' = st.record id' := by
  unfold edit
  split
  · rename_i slot h
    simp only [record]
    cases h' : st.index.lookup id' with
    | none => rfl
    | some slot' =>
      obtain ⟨u, hu, hid⟩ := st.indexed_live id slot h
      obtain ⟨u', hu', hid'⟩ := st.indexed_live id' slot' h'
      have hs : slot ≠ slot' := by
        rintro rfl
        rw [hu] at hu'
        simp only [Option.some.injEq] at hu'
        exact hne (by rw [← hid, ← hid', hu'])
      simp [List.getElem?_modify, hs]
  · rename_i h
    simp only [record]
    rw [AList.lookup_insert_ne hne]
    cases h' : st.index.lookup id' with
    | none => rfl
    | some slot' =>
      obtain ⟨u', hu', -⟩ := st.indexed_live id' slot' h'
      have hlt := (List.getElem?_eq_some_iff.1 hu').1
      simp [List.getElem?_append_left hlt]

theorem extract_fst (st : StepStatement) (id : RequestId) : (st.extract id).1 = st.record id := by
  unfold extract record
  split
  · rename_i h; simp [h]
  · rename_i slot h; simp [h]

theorem record_extract_self (st : StepStatement) (id : RequestId) : (st.extract id).2.record id = none := by
  unfold extract
  split
  · rename_i h; simp [record, h]
  · rename_i slot h; simp [record]

theorem record_extract_ne (st : StepStatement) (id id' : RequestId) (hne : id' ≠ id) :
    (st.extract id).2.record id' = st.record id' := by
  unfold extract
  split
  · rfl
  · rename_i slot h
    simp only [record]
    rw [AList.lookup_erase_ne hne]
    cases h' : st.index.lookup id' with
    | none => rfl
    | some slot' =>
      obtain ⟨u, hu, hid⟩ := st.indexed_live id slot h
      obtain ⟨u', hu', hid'⟩ := st.indexed_live id' slot' h'
      have hs : slot ≠ slot' := by
        rintro rfl
        rw [hu] at hu'
        simp only [Option.some.injEq] at hu'
        exact hne (by rw [← hid, ← hid', hu'])
      simp [List.getElem?_set_ne hs]

/-! ### What a step ships -/

theorem live_nodup (st : StepStatement) : ((st.buffer.filterMap id).map RequestUpdate.id).Nodup := by
  have hp : st.buffer.Pairwise fun a b => ∀ u ∈ a, ∀ v ∈ b, u.id ≠ v.id := by
    rw [List.pairwise_iff_getElem]
    intro i j hi hj hij u hu v hv hid
    have h1 := st.live_indexed i u (by rw [List.getElem?_eq_getElem hi]; exact congrArg some hu)
    have h2 := st.live_indexed j v (by rw [List.getElem?_eq_getElem hj]; exact congrArg some hv)
    rw [hid, h2] at h1
    exact absurd (Option.some.inj h1) (by omega)
  rw [List.Nodup, List.pairwise_map, List.pairwise_filterMap]
  exact hp.imp fun h u hu v hv => h u hu v hv

/-- one step ships at most one record per id -/
theorem takeUpdates_nodup (st : StepStatement) : (st.takeUpdates.1.map RequestUpdate.id).Nodup :=
  (live_nodup st).sublist (List.filter_sublist.map _)

theorem mem_takeUpdates (st : StepStatement) (u : RequestUpdate) :
    u ∈ st.takeUpdates.1 ↔ st.record u.id = some u ∧ u.isVacant = false := by
  simp [takeUpdates, record_eq_some]

theorem record_takeUpdates (st : StepStatement) (id : RequestId) : st.takeUpdates.2.record id = none := rfl

end StepStatement

/-- the only member with a given key of a list with distinct keys -/
theorem filter_id_of_nodup (l : List RequestUpdate) (hl : (l.map RequestUpdate.id).Nodup) (u : RequestUpdate)
    (hu : u ∈ l) : l.filter (fun v => v.id = u.id) = [u] := by
  induction l with
  | nil => cases hu
  | cons v l ih =>
    simp only [List.map_cons, List.nodup_cons, List.mem_map, not_exists, not_and] at hl
    rcases List.mem_cons.1 hu with rfl | hu
    · have hnil : l.filter (fun v => v.id = u.id) = [] := by
        rw [List.filter_eq_nil_iff]
        intro w hw
        simpa using hl.1 w hw
      simp [hnil]
    · have hne : ¬ v.id = u.id := fun h => hl.1 u hu h.symm
      simp [hne, ih hl.2 hu]

/-- what a step ships for one request is its buffered record, unless that is vacant -/
theorem StepStatement.takeUpdates_filter (st : StepStatement) (id : RequestId) :
    st.takeUpdates.1.filter (fun v => v.id = id) = ((st.record id).filter fun u => !u.isVacant).toList := by
  cases h : (st.record id).filter fun u => !u.isVacant with
  | none =>
    rw [Option.toList_none, List.filter_eq_nil_iff]
    intro v hv hid
    obtain ⟨hrec, hvac⟩ := (mem_takeUpdates st v).1 hv
    simp only [decide_eq_true_eq] at hid
    rw [hid] at hrec
    simp [hrec, hvac] at h
  | some u =>
    obtain ⟨hrec, hvac⟩ := Option.filter_eq_some_iff.1 h
    have hid := record_id st id u hrec
    subst hid
    have hmem : u ∈ st.takeUpdates.1 := (mem_takeUpdates st u).2 ⟨hrec, by simpa using hvac⟩
    rw [filter_id_of_nodup _ (takeUpdates_nodup st) u hmem, Option.toList_some]

/-! ## The ledger -/

inductive AccountState
  | queued
  | active (completionTokens : ℕ)
deriving DecidableEq, Repr

/-- one open account: the request's admission facts and running tally -/
structure Account where
  abort : Bool
  promptLen : ℕ
  queuedAt : Instant
  state : AccountState
deriving DecidableEq, Repr

def Account.completionTokens (a : Account) : ℕ :=
  match a.state with
  | .queued => 0
  | .active n => n

/-- one submitted request in flight between the frontend and the driver -/
structure RequestEnvelope where
  abort : Bool
  promptTokens : List TokenId
  queuedAt : Instant
deriving DecidableEq, Repr

structure RequestLedger where
  accounts : AList (fun _ : RequestId => Account)
  statement : StepStatement

namespace RequestLedger

def new : RequestLedger := ⟨∅, StepStatement.empty⟩

def noOpenAccount (id : RequestId) : String :=
  s!"no open account for req-{id}: already answered, or never registered"

def close (l : RequestLedger) (id : RequestId) : Except String (Account × RequestLedger) :=
  match l.accounts.lookup id with
  | none => .error (noOpenAccount id)
  | some account => .ok (account, { l with accounts := l.accounts.erase id })

/-- buffer an edit of this step's record of `id` -/
def editEntry (l : RequestLedger) (id : RequestId) (f : RequestUpdate → RequestUpdate) (hf : ∀ u, (f u).id = u.id) :
    RequestLedger :=
  { l with statement := l.statement.edit id f hf }

def setTerminal (l : RequestLedger) (id : RequestId) (t : Terminal) : RequestLedger :=
  l.editEntry id (fun u => { u with terminal := some t }) fun _ => rfl

/-! ### Queries -/

def isAborted (l : RequestLedger) (id : RequestId) : Except String Bool :=
  match l.accounts.lookup id with
  | none => .error (noOpenAccount id)
  | some account => .ok account.abort

def isActive (l : RequestLedger) (id : RequestId) : Bool :=
  match l.accounts.lookup id with
  | some ⟨_, _, _, .active _⟩ => true
  | _ => false

def completionTokens (l : RequestLedger) (id : RequestId) : Except String ℕ :=
  match l.accounts.lookup id with
  | none => .error (noOpenAccount id)
  | some account => .ok account.completionTokens

/-! ### Queued-state exits -/

def admitRequest (l : RequestLedger) (id : RequestId) (now : Instant) : Except String RequestLedger :=
  match l.accounts.lookup id with
  | none => .error (noOpenAccount id)
  | some account =>
    match account.state with
    | .active _ => .error s!"admit on already-admitted request req-{id}"
    | .queued =>
      let scheduled : ScheduledInfo := ⟨account.queuedAt, now, account.promptLen⟩
      let l : RequestLedger := { l with accounts := l.accounts.insert id { account with state := .active 0 } }
      .ok (l.editEntry id (fun u => { u with scheduled := some scheduled }) fun _ => rfl)

def reject (l : RequestLedger) (id : RequestId) (reason : RejectReason) : Except String RequestLedger :=
  match l.close id with
  | .error e => .error e
  | .ok (account, l) =>
    match account.state with
    | .active _ => .error s!"reject after admission for req-{id}: an admitted request finishes or fails"
    | .queued => .ok (l.setTerminal id (.rejected reason account.promptLen))

/-! ### Streaming -/

/-- the logprobs a push adds: absent ones are `none` at every position -/
def paddedLogprobs (ids : List TokenId) (logprobs : List (Option TokenLogprob)) : List (Option TokenLogprob) :=
  if logprobs = [] then ids.map fun _ => none else logprobs

/-- append committed tokens; `logprobs` is empty or parallel to `ids` -/
def pushTokens (l : RequestLedger) (id : RequestId) (ids : List TokenId) (logprobs : List (Option TokenLogprob)) :
    Except String RequestLedger :=
  if logprobs = [] ∨ logprobs.length = ids.length then
    match l.accounts.lookup id with
    | none => .error (noOpenAccount id)
    | some account =>
      match account.state with
      | .queued => .error s!"push_tokens on req-{id} before admission"
      | .active n =>
        let l : RequestLedger :=
          { l with accounts := l.accounts.insert id { account with state := .active (n + ids.length) } }
        .ok (l.editEntry id (fun u => { u with
          tokens := u.tokens ++ ids
          logprobs := u.logprobs ++ paddedLogprobs ids logprobs }) fun _ => rfl)
  else .error "logprobs must be absent or parallel to tokens"

/-- the calls that attach one fact to the record of an admitted request -/
def annotate (l : RequestLedger) (what : String) (id : RequestId) (f : RequestUpdate → RequestUpdate)
    (hf : ∀ u, (f u).id = u.id) : Except String RequestLedger :=
  if l.isActive id then .ok (l.editEntry id f hf) else .error s!"{what} on req-{id} before admission"

def setCachedTokens (l : RequestLedger) (id : RequestId) (cachedTokens : ℕ) : Except String RequestLedger :=
  l.annotate "set_cached_tokens" id (fun u => { u with cachedTokens := some cachedTokens }) fun _ => rfl

def echoPrompt (l : RequestLedger) (id : RequestId) (echo : PromptEcho) : Except String RequestLedger :=
  l.annotate "echo_prompt" id (fun u => { u with promptEcho := some echo }) fun _ => rfl

def kvTransfer (l : RequestLedger) (id : RequestId) (params : String) : Except String RequestLedger :=
  l.annotate "kv_transfer" id (fun u => { u with kvTransfer := some params }) fun _ => rfl

/-! ### Terminal transitions -/

def finishWithCause (l : RequestLedger) (id : RequestId) (reason : FinishReason) (stopCause : Option StopCause) :
    Except String RequestLedger :=
  match l.close id with
  | .error e => .error e
  | .ok (account, l) =>
    match account.state with
    | .queued => .error s!"finish on req-{id} before admission"
    | .active n => .ok (l.setTerminal id (.finished reason stopCause account.promptLen n))

def finish (l : RequestLedger) (id : RequestId) (reason : FinishReason) : Except String RequestLedger :=
  l.finishWithCause id reason none

def fail (l : RequestLedger) (id : RequestId) (message : String) : Except String RequestLedger :=
  match l.close id with
  | .error e => .error e
  | .ok (account, l) => .ok (l.setTerminal id (.failed message account.promptLen account.completionTokens))

/-- close an aborted request's account; discards anything buffered for it this step -/
def retire (l : RequestLedger) (id : RequestId) : Except String RequestLedger :=
  match l.close id with
  | .error e => .error e
  | .ok (_, l) => .ok { l with statement := (l.statement.extract id).2 }

/-- close the account and fold its buffered record into a finish to deliver later -/
def deferFinishWithCause (l : RequestLedger) (id : RequestId) (reason : FinishReason) (stopCause : Option StopCause) :
    Except String (RequestUpdate × RequestLedger) :=
  match l.close id with
  | .error e => .error e
  | .ok (account, l) =>
    match account.state with
    | .queued => .error s!"defer_finish on req-{id} before admission"
    | .active n =>
      let extracted := l.statement.extract id
      let update := extracted.1.getD (RequestUpdate.empty id)
      .ok ({ update with terminal := some (.finished reason stopCause account.promptLen n) },
        { l with statement := extracted.2 })

/-! ### Driver face -/

def register (l : RequestLedger) (id : RequestId) (envelope : RequestEnvelope) : Except String RequestLedger :=
  match l.accounts.lookup id with
  | some _ => .error s!"duplicate request id req-{id}"
  | none =>
    .ok { l with
      accounts := l.accounts.insert id ⟨envelope.abort, envelope.promptTokens.length, envelope.queuedAt, .queued⟩ }

/-- flush the statement; a step without updates or metric changes sends nothing -/
def commitStep (l : RequestLedger) (metricsChanged : Bool) : RequestLedger × Option StepOutputs :=
  let taken := l.statement.takeUpdates
  ({ l with statement := taken.2 }, if taken.1.isEmpty && !metricsChanged then none else some ⟨taken.1⟩)

/-- write off the open accounts, visited in the order `ids` -/
def failAll (l : RequestLedger) (message : String) : List RequestId → Except String RequestLedger
  | [] => .ok l
  | id :: ids =>
    match l.fail id message with
    | .error e => .error e
    | .ok l => l.failAll message ids

/-- the write-off record of an account that is open when the ledger falls -/
def writeOff (id : RequestId) (account : Account) : RequestUpdate :=
  let message :=
    match account.state with
    | .queued => "request dropped by the engine before it was answered"
    | .active _ => "request dropped by the engine mid-stream"
  { RequestUpdate.empty id with terminal := some (.failed message account.promptLen account.completionTokens) }

/-- the teardown sweep over the open accounts, visited in the order `ids`; the statement falls with the ledger -/
def drop (l : RequestLedger) (ids : List RequestId) : Option StepOutputs :=
  if l.accounts.keys.isEmpty then none
  else some ⟨ids.filterMap fun id => (l.accounts.lookup id).map (writeOff id)⟩

/-! ### What a call that returns found and did -/

variable {l l' : RequestLedger} {id : RequestId}

theorem close_ok {a : Account} (h : l.close id = .ok (a, l')) :
    l.accounts.lookup id = some a ∧ l' = { l with accounts := l.accounts.erase id } := by
  unfold close at h
  split at h
  · cases h
  · rename_i account ha
    simp only [Except.ok.injEq, Prod.mk.injEq] at h
    obtain ⟨rfl, rfl⟩ := h
    exact ⟨ha, rfl⟩

theorem admitRequest_ok {now : Instant} (h : l.admitRequest id now = .ok l') :
    ∃ ab p q, l.accounts.lookup id = some ⟨ab, p, q, .queued⟩ ∧
      l' = ({ l with accounts := l.accounts.insert id ⟨ab, p, q, .active 0⟩ } : RequestLedger).editEntry id
        (fun u => { u with scheduled := some ⟨q, now, p⟩ }) fun _ => rfl := by
  unfold admitRequest at h
  split at h
  · cases h
  · rename_i account ha
    obtain ⟨ab, p, q, st⟩ := account
    cases st with
    | queued => exact ⟨ab, p, q, ha, (Except.ok.inj h).symm⟩
    | active n => cases h

theorem reject_ok {reason : RejectReason} (h : l.reject id reason = .ok l') :
    ∃ ab p q, l.accounts.lookup id = some ⟨ab, p, q, .queued⟩ ∧
      l' = ({ l with accounts := l.accounts.erase id } : RequestLedger).setTerminal id (.rejected reason p) := by
  unfold reject at h
  split at h
  · cases h
  · rename_i account m hc
    obtain ⟨ha, rfl⟩ := close_ok hc
    obtain ⟨ab, p, q, st⟩ := account
    cases st with
    | queued => exact ⟨ab, p, q, ha, (Except.ok.inj h).symm⟩
    | active n => cases h

theorem pushTokens_ok {ids : List TokenId} {logprobs : List (Option TokenLogprob)}
    (h : l.pushTokens id ids logprobs = .ok l') :
    (logprobs = [] ∨ logprobs.length = ids.length) ∧ ∃ ab p q n,
      l.accounts.lookup id = some ⟨ab, p, q, .active n⟩ ∧
      l' = ({ l with accounts := l.accounts.insert id ⟨ab, p, q, .active (n + ids.length)⟩ } :
        RequestLedger).editEntry id
        (fun u => { u with
          tokens := u.tokens ++ ids
          logprobs := u.logprobs ++ paddedLogprobs ids logprobs }) fun _ => rfl := by
  unfold pushTokens at h
  split_ifs at h with hpar
  refine ⟨hpar, ?_⟩
  split at h
  · cases h
  · rename_i account ha
    obtain ⟨ab, p, q, st⟩ := account
    cases st with
    | queued => cases h
    | active n => exact ⟨ab, p, q, n, ha, (Except.ok.inj h).symm⟩

theorem isActive_iff : l.isActive id = true ↔ ∃ ab p q n, l.accounts.lookup id = some ⟨ab, p, q, .active n⟩ := by
  unfold isActive
  split
  · rename_i ab p q n h
    simp [h]
  · rename_i hno
    simp only [Bool.false_eq_true, false_iff, not_exists]
    intro ab p q n h
    exact hno ab p q n h

theorem annotate_ok {what : String} {f : RequestUpdate → RequestUpdate} {hf : ∀ u, (f u).id = u.id}
    (h : l.annotate what id f hf = .ok l') :
    (∃ ab p q n, l.accounts.lookup id = some ⟨ab, p, q, .active n⟩) ∧ l' = l.editEntry id f hf := by
  unfold annotate at h
  split_ifs at h with hact
  exact ⟨isActive_iff.1 hact, (Except.ok.inj h).symm⟩

theorem finishWithCause_ok {reason : FinishReason} {cause : Option StopCause}
    (h : l.finishWithCause id reason cause = .ok l') :
    ∃ ab p q n, l.accounts.lookup id = some ⟨ab, p, q, .active n⟩ ∧
      l' = ({ l with accounts := l.accounts.erase id } : RequestLedger).setTerminal id
        (.finished reason cause p n) := by
  unfold finishWithCause at h
  split at h
  · cases h
  · rename_i account m hc
    obtain ⟨ha, rfl⟩ := close_ok hc
    obtain ⟨ab, p, q, st⟩ := account
    cases st with
    | queued => cases h
    | active n => exact ⟨ab, p, q, n, ha, (Except.ok.inj h).symm⟩

theorem fail_ok {message : String} (h : l.fail id message = .ok l') :
    ∃ a, l.accounts.lookup id = some a ∧
      l' = ({ l with accounts := l.accounts.erase id } : RequestLedger).setTerminal id
        (.failed message a.promptLen a.completionTokens) := by
  unfold fail at h
  split at h
  · cases h
  · rename_i account m hc
    obtain ⟨ha, rfl⟩ := close_ok hc
    exact ⟨account, ha, (Except.ok.inj h).symm⟩

theorem retire_ok (h : l.retire id = .ok l') :
    (∃ a, l.accounts.lookup id = some a) ∧
      l' = ⟨l.accounts.erase id, (l.statement.extract id).2⟩ := by
  unfold retire at h
  split at h
  · cases h
  · rename_i account m hc
    obtain ⟨ha, rfl⟩ := close_ok hc
    exact ⟨⟨account, ha⟩, (Except.ok.inj h).symm⟩

theorem deferFinishWithCause_ok {reason : FinishReason} {cause : Option StopCause} {u : RequestUpdate}
    (h : l.deferFinishWithCause id reason cause = .ok (u, l')) :
    ∃ ab p q n, l.accounts.lookup id = some ⟨ab, p, q, .active n⟩ ∧
      u = { (l.statement.record id).getD (RequestUpdate.empty id) with
        terminal := some (.finished reason cause p n) } ∧
      l' = ⟨l.accounts.erase id, (l.statement.extract id).2⟩ := by
  unfold deferFinishWithCause at h
  split at h
  · cases h
  · rename_i account m hc
    obtain ⟨ha, rfl⟩ := close_ok hc
    obtain ⟨ab, p, q, st⟩ := account
    cases st with
    | queued => cases h
    | active n =>
      have h := Except.ok.inj h
      simp only [Prod.mk.injEq] at h
      obtain ⟨rfl, rfl⟩ := h
      exact ⟨ab, p, q, n, ha, by rw [StepStatement.extract_fst], rfl⟩

theorem register_ok {e : RequestEnvelope} (h : l.register id e = .ok l') :
    l.accounts.lookup id = none ∧
      l' = { l with accounts := l.accounts.insert id ⟨e.abort, e.promptTokens.length, e.queuedAt, .queued⟩ } := by
  unfold register at h
  split at h
  · cases h
  · rename_i hn
    exact ⟨hn, (Except.ok.inj h).symm⟩

/-! ### The two sweeps -/

/-- the sweep fails each visited account in its turn and leaves the others alone -/
theorem failAll_ok {message : String} (ids : List RequestId) (l : RequestLedger) (hids : ids.Nodup)
    (h : l.failAll message ids = .ok l') (id : RequestId) :
    (id ∉ ids ∧ l'.accounts.lookup id = l.accounts.lookup id ∧ l'.statement.record id = l.statement.record id) ∨
    ∃ a, l.accounts.lookup id = some a ∧ l'.accounts.lookup id = none ∧
      l'.statement.record id = some { (l.statement.record id).getD (RequestUpdate.empty id) with
        terminal := some (.failed message a.promptLen a.completionTokens) } := by
  induction ids generalizing l with
  | nil =>
    simp only [failAll, Except.ok.injEq] at h
    subst h
    exact Or.inl ⟨by simp, rfl, rfl⟩
  | cons i ids ih =>
    simp only [failAll] at h
    split at h
    · cases h
    · rename_i m hm
      obtain ⟨a, ha, rfl⟩ := fail_ok hm
      obtain ⟨hi, hids⟩ := List.nodup_cons.1 hids
      have hrest := ih _ hids h
      by_cases hid : id = i
      · subst hid
        right
        refine ⟨a, ha, ?_⟩
        rcases hrest with ⟨-, hl, hr⟩ | ⟨b, hb, -, -⟩
        · simp only [setTerminal, editEntry, AList.lookup_erase] at hl
          simp only [setTerminal, editEntry, StepStatement.record_edit_self] at hr
          exact ⟨hl, hr⟩
        · simp [setTerminal, editEntry] at hb
      · have hl : (({ l with accounts := l.accounts.erase i } : RequestLedger).setTerminal i
            (.failed message a.promptLen a.completionTokens)).accounts.lookup id = l.accounts.lookup id := by
          simp [setTerminal, editEntry, AList.lookup_erase_ne hid]
        have hr : (({ l with accounts := l.accounts.erase i } : RequestLedger).setTerminal i
            (.failed message a.promptLen a.completionTokens)).statement.record id = l.statement.record id := by
          simp [setTerminal, editEntry, StepStatement.record_edit_ne _ _ _ _ _ hid]
        rw [hl, hr] at hrest
        rcases hrest with ⟨hn, h1, h2⟩ | hrest
        · exact Or.inl ⟨by simp [hid, hn], h1, h2⟩
        · exact Or.inr hrest

@[simp] theorem writeOff_id (id : RequestId) (a : Account) : (writeOff id a).id = id := rfl

/-- the ids of the write-off records are among the visited ids, in their order -/
theorem writeOffs_ids (l : RequestLedger) (ids : List RequestId) :
    ((ids.filterMap fun id => (l.accounts.lookup id).map (writeOff id)).map RequestUpdate.id).Sublist ids := by
  induction ids with
  | nil => simp
  | cons i ids ih =>
    rw [List.filterMap_cons]
    cases h : l.accounts.lookup i with
    | none => simpa [h] using ih.cons i
    | some a => simpa [h] using ih

/-- the write-off records of one request: one if its account is open, else none -/
theorem writeOffs_filter (l : RequestLedger) (ids : List RequestId) (hids : ids.Nodup) (id : RequestId)
    (hmem : id ∈ l.accounts → id ∈ ids) :
    (ids.filterMap fun id => (l.accounts.lookup id).map (writeOff id)).filter (fun u => u.id = id) =
      ((l.accounts.lookup id).map (writeOff id)).toList := by
  cases h : l.accounts.lookup id with
  | none =>
    simp only [Option.map_none, Option.toList_none, List.filter_eq_nil_iff, List.mem_filterMap,
      Option.map_eq_some_iff, decide_eq_true_eq]
    rintro u ⟨i, -, a, ha, rfl⟩ rfl
    rw [writeOff_id] at h
    rw [h] at ha
    cases ha
  | some a =>
    have hin : id ∈ ids := hmem (by rw [← AList.lookup_isSome, h]; rfl)
    have hu : writeOff id a ∈ ids.filterMap fun id => (l.accounts.lookup id).map (writeOff id) :=
      List.mem_filterMap.2 ⟨id, hin, by simp [h]⟩
    exact filter_id_of_nodup _ (hids.sublist (writeOffs_ids l ids)) _ hu

end RequestLedger

/-! ## The guards outside the ledger -/

/-- the terminal of an envelope dropped before `register` -/
def RequestEnvelope.dropUpdate (id : RequestId) (e : RequestEnvelope) : RequestUpdate :=
  { RequestUpdate.empty id with
    terminal := some (.failed "request dropped by the engine before it was answered" e.promptTokens.length 0) }

/-- a deferred finish dropped unsent: the buffered tokens still ship, the terminal is rewritten to `Failed` -/
def deferredDropUpdate (u : RequestUpdate) : RequestUpdate :=
  let (promptTokens, completionTokens) :=
    match u.terminal with
    | some (.finished _ _ p n) => (p, n)
    | _ => (0, u.tokens.length)
  { u with
    terminal := some (.failed "deferred finish dropped by the engine before delivery" promptTokens completionTokens) }

end Pegainfer.Frontend
