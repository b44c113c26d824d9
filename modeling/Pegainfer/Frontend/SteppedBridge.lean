/-
The bridge of a step-driven engine: client requests and aborts on one side, the scheduler's step messages on the other,
engine-core batches out.

The scheduler's messages are arbitrary: records of requests that are unknown, aborted or over come at any time.
- `SteppedBridge`: the streams by request id, the ids by the client's name, the batches sent so far.
- `dispatchStep`, `startRequest`, `abortRequest`: a message, a request, an abort.
- `heard`: the records that reach a request, from its start to the abort that reaches it.
- `outputsOf_run`: the outputs of a request are the reduction of what it heard.
- `bridge_conserves`: so they carry the tokens, scores, prefill stats and the one finish reason of its records, and there
  is none behind its end or its abort.
-/
import Mathlib.Tactic
import Pegainfer.Lib.Machine
import Pegainfer.Frontend.Step
import Pegainfer.Frontend.Reduce

namespace Pegainfer.Frontend

open Pegainfer.Lib

/-! ## Model -/

/-- `unsupported` and `loraAdapter` are the answers of the two checks of the same parameters -/
structure EngineCoreSamplingParams where
  unsupported : Option String
  loraAdapter : Except String (Option String)
  eosTokenId : Option TokenId
  stopTokenIds : List TokenId

structure EngineCoreRequest where
  requestId : String
  promptTokenIds : Option (List TokenId)
  samplingParams : Option EngineCoreSamplingParams

/-- an output, and the request it is for, which the wire does not carry; none for a request that was not started -/
structure Outgoing where
  owner : Option RequestId
  output : EngineCoreOutput
deriving DecidableEq, Repr

structure RequestBatchOutputs where
  outputs : List Outgoing
  finishedRequests : Finset String
deriving DecidableEq

structure SteppedBridge where
  nextId : RequestId
  streams : RequestId → Option SteppedStream
  names : String → Option RequestId
  /-- the abort flags that were raised -/
  aborted : List RequestId
  sent : List RequestBatchOutputs
  outputOpen : Bool

inductive BridgeOp
  | step (message : StepOutputs)
  | add (request : EngineCoreRequest)
  | abort (requestIds : List String)
  | closeOutput

/-- a message while it is dispatched -/
structure Dispatch where
  streams : RequestId → Option SteppedStream
  names : String → Option RequestId
  aborted : List RequestId
  outputs : List Outgoing
  finishedRequests : Finset String

def stopSentinelId (eosTokenId : Option TokenId) (stopTokenIds : List TokenId) : Option TokenId :=
  eosTokenId.or stopTokenIds.head?

/-- why a request is not started, with the stop reason it is answered with -/
def EngineCoreRequest.refusal (request : EngineCoreRequest) : Option (Option StopReason) :=
  match request.promptTokenIds, request.samplingParams with
  | none, _ => some none
  | some _, none => some none
  | some _, some params =>
    if params.unsupported.isSome then some none
    else
      match params.loraAdapter with
      | .error message => some (some (.text message))
      | .ok _ => none

def EngineCoreRequest.sentinelId (request : EngineCoreRequest) : Option TokenId :=
  request.samplingParams.bind fun params => stopSentinelId params.eosTokenId params.stopTokenIds

/-- the whole answer to a request that is not started -/
def terminalBatch (requestId : String) (stopReason : Option StopReason) : RequestBatchOutputs :=
  ⟨[⟨none, engineOutput requestId [] none (some .error) stopReason none none⟩], {requestId}⟩

/-- a record of a request without a stream is dropped -/
def dispatchUpdate (d : Dispatch) (update : RequestUpdate) : Dispatch :=
  match d.streams update.id with
  | none => d
  | some state =>
    let reduced := state.reduceUpdate update
    let outputs := d.outputs ++ reduced.2.1.toList.map fun output => ⟨some update.id, output⟩
    if reduced.2.2 then
      { streams := Function.update d.streams update.id none
        names := Function.update d.names reduced.1.requestId none
        aborted := if reduced.1.aborted then d.aborted ++ [update.id] else d.aborted
        outputs := outputs
        finishedRequests := insert reduced.1.requestId d.finishedRequests }
    else { d with streams := Function.update d.streams update.id (some reduced.1), outputs := outputs }

namespace SteppedBridge

def init : SteppedBridge := ⟨0, fun _ => none, fun _ => none, [], [], true⟩

def sendOutputs (b : SteppedBridge) (batch : RequestBatchOutputs) : Except String SteppedBridge :=
  if b.outputOpen then .ok { b with sent := b.sent ++ [batch] } else .error "local engine output channel closed"

def dispatchStep (b : SteppedBridge) (message : StepOutputs) : Except String SteppedBridge :=
  let d := message.updates.foldl dispatchUpdate ⟨b.streams, b.names, b.aborted, [], ∅⟩
  sendOutputs { b with streams := d.streams, names := d.names, aborted := d.aborted } ⟨d.outputs, d.finishedRequests⟩

def startRequest (b : SteppedBridge) (request : EngineCoreRequest) : Except String SteppedBridge :=
  match request.refusal with
  | some stopReason => b.sendOutputs (terminalBatch request.requestId stopReason)
  | none => .ok { b with
      nextId := b.nextId + 1
      names := Function.update b.names request.requestId (some b.nextId)
      streams := Function.update b.streams b.nextId (some (.new request.requestId request.sentinelId)) }

def abortRequest (b : SteppedBridge) (requestId : String) : SteppedBridge :=
  match b.names requestId with
  | none => b
  | some id =>
    match b.streams id with
    | none => { b with names := Function.update b.names requestId none }
    | some _ => { b with
        names := Function.update b.names requestId none
        streams := Function.update b.streams id none
        aborted := b.aborted ++ [id] }

def step (b : SteppedBridge) : BridgeOp → Except String SteppedBridge
  | .step message => b.dispatchStep message
  | .add request => b.startRequest request
  | .abort requestIds => .ok (requestIds.foldl abortRequest b)
  | .closeOutput => .ok { b with outputOpen := false }

/-- the outputs sent for a request, in order -/
def outputsOf (b : SteppedBridge) (id : RequestId) : List EngineCoreOutput :=
  (b.sent.flatMap RequestBatchOutputs.outputs).filterMap fun o => if o.owner = some id then some o.output else none

/-- an abort message that names the request -/
def Reaches (b : SteppedBridge) (id : RequestId) (requestIds : List String) : Prop :=
  ∃ requestId ∈ requestIds, b.names requestId = some id

instance (b : SteppedBridge) (id : RequestId) (requestIds : List String) : Decidable (b.Reaches id requestIds) :=
  inferInstanceAs (Decidable (∃ requestId ∈ requestIds, b.names requestId = some id))

/-- the records that come for a request in a run, up to the abort that reaches it -/
def heard (id : RequestId) : SteppedBridge → List BridgeOp → List RequestUpdate
  | _, [] => []
  | b, op :: ops =>
    let rest := match b.step op with
      | .ok b' => heard id b' ops
      | .error _ => []
    match op with
    | .step message => message.updates.filter (fun update => update.id = id) ++ rest
    | .abort requestIds => if b.Reaches id requestIds then [] else rest
    | _ => rest

end SteppedBridge

/-! ## A message -/

namespace SteppedStream

open RequestUpdate

/-- the stream behind some records, if none of them ends the request -/
def reduceTo (state : SteppedStream) : List RequestUpdate → Option SteppedStream
  | [] => some state
  | update :: updates => if update.ends then none else reduceTo (state.reduceUpdate update).1 updates

theorem reduceAll_append (updates updates' : List RequestUpdate) : ∀ state : SteppedStream,
    state.reduceAll (updates ++ updates') = state.reduceAll updates ++
      match state.reduceTo updates with
      | none => []
      | some state' => state'.reduceAll updates' := by
  induction updates with
  | nil => exact fun _ => rfl
  | cons update updates ih =>
    intro state
    rw [List.cons_append, reduceAll_cons, reduceAll_cons]
    unfold reduceTo
    cases update.ends with
    | true => exact (List.append_nil _).symm
    | false =>
      rw [List.append_assoc]
      exact congrArg _ (ih (state.reduceUpdate update).1)

theorem reduceTo_cons (state : SteppedStream) (update : RequestUpdate) (updates : List RequestUpdate) :
    state.reduceTo (update :: updates) =
      if update.ends then none else (state.reduceUpdate update).1.reduceTo updates := rfl

theorem reduceTo_append (updates updates' : List RequestUpdate) : ∀ state : SteppedStream,
    state.reduceTo (updates ++ updates') = (state.reduceTo updates).bind (·.reduceTo updates') := by
  induction updates with
  | nil => exact fun _ => rfl
  | cons update updates ih =>
    intro state
    rw [List.cons_append, reduceTo_cons, reduceTo_cons]
    split_ifs
    · rfl
    · exact ih (state.reduceUpdate update).1

theorem reduceTo_none {updates : List RequestUpdate} : ∀ {state : SteppedStream},
    (∃ update ∈ updates, update.ends = true) → state.reduceTo updates = none := by
  induction updates with
  | nil => exact fun ⟨_, h, _⟩ => absurd h List.not_mem_nil
  | cons update updates ih =>
    rintro state ⟨update', hupdate', hends⟩
    rw [reduceTo_cons]
    split_ifs with hone
    · rfl
    · rcases List.mem_cons.1 hupdate' with rfl | hlater
      · exact absurd hends hone
      · exact ih ⟨update', hlater, hends⟩

end SteppedStream

/-- what is sent for a request, among other outputs -/
def ownedBy (id : RequestId) (outputs : List Outgoing) : List EngineCoreOutput :=
  outputs.filterMap fun o => if o.owner = some id then some o.output else none

theorem ownedBy_append (id : RequestId) (outputs outputs' : List Outgoing) :
    ownedBy id (outputs ++ outputs') = ownedBy id outputs ++ ownedBy id outputs' := List.filterMap_append

theorem ownedBy_self (id : RequestId) (outputs : List EngineCoreOutput) :
    ownedBy id (outputs.map fun output => ⟨some id, output⟩) = outputs := by
  induction outputs with
  | nil => rfl
  | cons output outputs ih =>
    unfold ownedBy at ih ⊢
    rw [List.map_cons, List.filterMap_cons, if_pos rfl, ih]

theorem ownedBy_other {id id' : RequestId} (hne : id' ≠ id) (outputs : List EngineCoreOutput) :
    ownedBy id (outputs.map fun output => ⟨some id', output⟩) = [] := by
  induction outputs with
  | nil => rfl
  | cons output outputs ih =>
    unfold ownedBy at ih ⊢
    rw [List.map_cons, List.filterMap_cons, if_neg fun heq => hne (Option.some.inj heq)]
    exact ih

/-- one record, as a request sees it -/
theorem dispatchUpdate_spec (d : Dispatch) (update : RequestUpdate) (id : RequestId) :
    (dispatchUpdate d update).streams id =
      (d.streams id).bind (fun state => state.reduceTo ([update].filter fun update => update.id = id)) ∧
    ownedBy id (dispatchUpdate d update).outputs = ownedBy id d.outputs ++
      match d.streams id with
      | none => []
      | some state => state.reduceAll ([update].filter fun update => update.id = id) := by
  unfold dispatchUpdate
  by_cases hid : update.id = id
  · have hfilter : [update].filter (fun update => update.id = id) = [update] := by
      rw [List.filter_singleton, decide_eq_true hid]
      rfl
    rw [hfilter, hid]
    cases hstream : d.streams id with
    | none => exact ⟨hstream, (List.append_nil _).symm⟩
    | some state =>
      dsimp only [Option.bind_some]
      rw [state.reduceUpdate_ends, SteppedStream.reduceAll_cons]
      unfold SteppedStream.reduceTo SteppedStream.reduceTo SteppedStream.reduceAll
      cases update.ends with
      | true => exact ⟨Function.update_self .., by
          rw [if_pos rfl, if_pos rfl, List.append_nil]
          exact (ownedBy_append ..).trans (congrArg _ (ownedBy_self ..))⟩
      | false => exact ⟨Function.update_self .., by
          rw [if_neg Bool.false_ne_true, if_neg Bool.false_ne_true, List.append_nil]
          exact (ownedBy_append ..).trans (congrArg _ (ownedBy_self ..))⟩
  · have hfilter : [update].filter (fun update => update.id = id) = [] := by
      rw [List.filter_singleton, decide_eq_false hid]
      rfl
    rw [hfilter]
    have hkept : (d.streams id).bind (fun state => state.reduceTo []) = d.streams id := by
      cases d.streams id with
      | none => rfl
      | some state => rfl
    have hnothing : (match d.streams id with
        | none => []
        | some state => state.reduceAll []) = ([] : List EngineCoreOutput) := by
      cases d.streams id with
      | none => rfl
      | some state => rfl
    rw [hkept, hnothing, List.append_nil]
    cases d.streams update.id with
    | none => exact ⟨rfl, rfl⟩
    | some state =>
      dsimp only
      cases (state.reduceUpdate update).2.2 with
      | true =>
        refine ⟨Function.update_of_ne (Ne.symm hid) _ _, ?_⟩
        exact (ownedBy_append ..).trans (by rw [ownedBy_other hid, List.append_nil])
      | false =>
        refine ⟨Function.update_of_ne (Ne.symm hid) _ _, ?_⟩
        exact (ownedBy_append ..).trans (by rw [ownedBy_other hid, List.append_nil])

/-- all records of a message, as a request sees them -/
theorem dispatchAll_spec (updates : List RequestUpdate) (id : RequestId) : ∀ d : Dispatch,
    (updates.foldl dispatchUpdate d).streams id =
      (d.streams id).bind (fun state => state.reduceTo (updates.filter fun update => update.id = id)) ∧
    ownedBy id (updates.foldl dispatchUpdate d).outputs = ownedBy id d.outputs ++
      match d.streams id with
      | none => []
      | some state => state.reduceAll (updates.filter fun update => update.id = id) := by
  induction updates with
  | nil =>
    intro d
    change d.streams id = _ ∧ ownedBy id d.outputs = _
    cases d.streams id with
    | none => exact ⟨rfl, (List.append_nil _).symm⟩
    | some state => exact ⟨rfl, (List.append_nil _).symm⟩
  | cons update updates ih =>
    intro d
    obtain ⟨hstream, houtputs⟩ := dispatchUpdate_spec d update id
    obtain ⟨hstreams, hrest⟩ := ih (dispatchUpdate d update)
    rw [List.foldl_cons]
    rw [show update :: updates = [update] ++ updates from rfl, List.filter_append]
    rw [hstreams, hrest, hstream, houtputs, List.append_assoc]
    cases d.streams id with
    | none => exact ⟨rfl, rfl⟩
    | some state =>
      refine ⟨?_, ?_⟩
      · exact (SteppedStream.reduceTo_append _ _ state).symm
      · dsimp only [Option.bind_some]
        rw [SteppedStream.reduceAll_append]

namespace SteppedBridge

/-! ## One operation -/

theorem outputsOf_eq (b : SteppedBridge) (id : RequestId) :
    b.outputsOf id = ownedBy id (b.sent.flatMap RequestBatchOutputs.outputs) := rfl

theorem sendOutputs_ok {b b' : SteppedBridge} {batch : RequestBatchOutputs} (h : b.sendOutputs batch = .ok b') :
    b' = { b with sent := b.sent ++ [batch] } := by
  unfold sendOutputs at h
  split_ifs at h
  cases h
  rfl

theorem outputsOf_send (b : SteppedBridge) (batch : RequestBatchOutputs) (id : RequestId) :
    outputsOf { b with sent := b.sent ++ [batch] } id = b.outputsOf id ++ ownedBy id batch.outputs := by
  rw [outputsOf_eq, outputsOf_eq, List.flatMap_append, ownedBy_append]
  exact congrArg (fun outputs => _ ++ ownedBy id outputs) (List.append_nil _)

theorem abortRequest_sent (b : SteppedBridge) (requestId : String) :
    (b.abortRequest requestId).sent = b.sent ∧ (b.abortRequest requestId).nextId = b.nextId := by
  unfold abortRequest
  cases b.names requestId with
  | none => exact ⟨rfl, rfl⟩
  | some id =>
    dsimp only
    cases b.streams id with
    | none => exact ⟨rfl, rfl⟩
    | some state => exact ⟨rfl, rfl⟩

theorem abortRequest_names (b : SteppedBridge) (requestId requestId' : String) :
    (b.abortRequest requestId).names requestId' = if requestId' = requestId then none else b.names requestId' := by
  unfold abortRequest
  cases hname : b.names requestId with
  | none =>
    by_cases heq : requestId' = requestId
    · rw [if_pos heq, heq]
      exact hname
    · rw [if_neg heq]
  | some id =>
    dsimp only
    cases b.streams id with
    | none => exact Function.update_apply b.names requestId none requestId'
    | some state => exact Function.update_apply b.names requestId none requestId'

theorem abortRequest_streams (b : SteppedBridge) (requestId : String) (id : RequestId) :
    (b.abortRequest requestId).streams id = if b.names requestId = some id then none else b.streams id := by
  unfold abortRequest
  cases hname : b.names requestId with
  | none => exact (if_neg fun heq => by cases heq).symm
  | some id' =>
    dsimp only
    by_cases heq : id' = id
    · rw [heq, if_pos rfl]
      cases hstream : b.streams id with
      | none => exact hstream
      | some state => exact Function.update_self ..
    · rw [if_neg fun hsome => heq (Option.some.inj hsome)]
      cases b.streams id' with
      | none => rfl
      | some state => exact Function.update_of_ne (Ne.symm heq) ..

theorem aborts_sent (requestIds : List String) : ∀ b : SteppedBridge,
    (requestIds.foldl abortRequest b).sent = b.sent ∧ (requestIds.foldl abortRequest b).nextId = b.nextId := by
  induction requestIds with
  | nil => exact fun _ => ⟨rfl, rfl⟩
  | cons requestId requestIds ih =>
    intro b
    obtain ⟨hsent, hnext⟩ := ih (b.abortRequest requestId)
    obtain ⟨hsent', hnext'⟩ := b.abortRequest_sent requestId
    exact ⟨hsent.trans hsent', hnext.trans hnext'⟩

/-- an abort message takes the streams it reaches, and no other -/
theorem aborts_streams (requestIds : List String) (id : RequestId) : ∀ b : SteppedBridge,
    (requestIds.foldl abortRequest b).streams id = if b.Reaches id requestIds then none else b.streams id := by
  induction requestIds with
  | nil => exact fun b => (if_neg fun ⟨_, hin, _⟩ => absurd hin List.not_mem_nil).symm
  | cons requestId requestIds ih =>
    intro b
    rw [List.foldl_cons, ih, abortRequest_streams]
    by_cases hfirst : b.names requestId = some id
    · rw [if_pos hfirst, ite_self, if_pos ⟨requestId, List.mem_cons_self, hfirst⟩]
    · have hiff : (b.abortRequest requestId).Reaches id requestIds ↔ b.Reaches id (requestId :: requestIds) := by
        constructor
        · rintro ⟨requestId', hin, hname⟩
          rw [abortRequest_names] at hname
          split_ifs at hname
          exact ⟨requestId', List.mem_cons_of_mem _ hin, hname⟩
        · rintro ⟨requestId', hin, hname⟩
          rcases List.mem_cons.1 hin with rfl | hlater
          · exact absurd hname hfirst
          · refine ⟨requestId', hlater, ?_⟩
            have hne : requestId' ≠ requestId := by
              rintro rfl
              exact hfirst hname
            rw [abortRequest_names, if_neg hne]
            exact hname
      rw [if_neg hfirst]
      exact if_congr hiff rfl rfl

theorem dispatchStep_ok {b b' : SteppedBridge} {message : StepOutputs} (h : b.dispatchStep message = .ok b')
    (id : RequestId) :
    b'.nextId = b.nextId ∧
    b'.streams id = (b.streams id).bind (fun state =>
      state.reduceTo (message.updates.filter fun update => update.id = id)) ∧
    b'.outputsOf id = b.outputsOf id ++ match b.streams id with
      | none => []
      | some state => state.reduceAll (message.updates.filter fun update => update.id = id) := by
  have hsent := sendOutputs_ok h
  obtain ⟨hstream, houtputs⟩ := dispatchAll_spec message.updates id ⟨b.streams, b.names, b.aborted, [], ∅⟩
  subst hsent
  refine ⟨rfl, hstream, ?_⟩
  rw [outputsOf_send, houtputs]
  rfl

/-! ## Runs -/

/-- **Outputs.** What is sent for a started request is the reduction of what it hears. -/
theorem outputsOf_run (id : RequestId) (ops : List BridgeOp) : ∀ b b' : SteppedBridge, id < b.nextId →
    run step b ops = .ok b' → b'.outputsOf id = b.outputsOf id ++ match b.streams id with
      | none => []
      | some state => state.reduceAll (heard id b ops) := by
  induction ops with
  | nil =>
    intro b b' _ hrun
    cases hrun
    cases b.streams id with
    | none => exact (List.append_nil _).symm
    | some state => exact (List.append_nil _).symm
  | cons op ops ih =>
    intro b b' hid hrun
    obtain ⟨m, hm, hrest⟩ := (run_cons_ok b b' op ops).1 hrun
    have hheard : (match b.step op with
        | .ok b' => heard id b' ops
        | .error _ => []) = heard id m ops := by rw [hm]
    unfold heard
    rw [hheard]
    cases op with
    | step message =>
      obtain ⟨hnext, hstream, houtputs⟩ := dispatchStep_ok hm id
      rw [ih m b' (by rwa [hnext]) hrest, houtputs, hstream, List.append_assoc]
      cases b.streams id with
      | none => rfl
      | some state =>
        dsimp only [Option.bind_some]
        rw [SteppedStream.reduceAll_append]
    | add request =>
      change b.startRequest request = .ok m at hm
      unfold startRequest at hm
      cases hrefusal : request.refusal with
      | some stopReason =>
        rw [hrefusal] at hm
        have hsent := sendOutputs_ok hm
        subst hsent
        rw [ih { b with sent := b.sent ++ [terminalBatch request.requestId stopReason] } b' hid hrest, outputsOf_send]
        exact congrArg (· ++ _) (List.append_nil _)
      | none =>
        rw [hrefusal] at hm
        cases hm
        rw [ih _ b' (Nat.lt_succ_of_lt hid) hrest]
        change _ ++ (match Function.update b.streams b.nextId _ id with | none => _ | some state => _) = _
        rw [Function.update_of_ne (Nat.ne_of_lt hid)]
        rfl
    | abort requestIds =>
      cases hm
      obtain ⟨hsent, hnext⟩ := aborts_sent requestIds b
      rw [ih _ b' (by rwa [hnext]) hrest, outputsOf_eq, hsent, aborts_streams]
      dsimp only
      split_ifs with hreach
      · cases b.streams id with
        | none => rfl
        | some state => rfl
      · rfl
    | closeOutput =>
      cases hm
      exact ih { b with outputOpen := false } b' hid hrest

/-! ## Names -/

/-- a request does not take the name of one that is still in flight -/
def FreshName (b : SteppedBridge) : BridgeOp → Prop
  | .add request => request.refusal = none → ∀ id state, b.streams id = some state →
      state.requestId ≠ request.requestId
  | _ => True

/-- every stream is found by its name -/
def Named (b : SteppedBridge) : Prop :=
  ∀ id state, b.streams id = some state → b.names state.requestId = some id

/-- the streams of a message while it is dispatched, found by their names -/
theorem dispatchUpdate_named (d : Dispatch) (update : RequestUpdate)
    (h : ∀ id state, d.streams id = some state → d.names state.requestId = some id) :
    ∀ id state, (dispatchUpdate d update).streams id = some state →
      (dispatchUpdate d update).names state.requestId = some id := by
  unfold dispatchUpdate
  cases hstream : d.streams update.id with
  | none => exact h
  | some state =>
    have hname := h update.id state hstream
    have hkept := (state.reduceUpdate_fields update).1
    dsimp only
    intro id other hother
    cases hends : (state.reduceUpdate update).2.2 with
    | true =>
      rw [hends] at hother
      change Function.update d.streams update.id none id = some other at hother
      change Function.update d.names (state.reduceUpdate update).1.requestId none other.requestId = some id
      rw [Function.update_apply] at hother
      split_ifs at hother with hid
      have hfound := h id other hother
      rw [hkept, Function.update_of_ne]
      · exact hfound
      · intro hsame
        rw [hsame, hname] at hfound
        exact hid (Option.some.inj hfound).symm
    | false =>
      rw [hends] at hother
      change Function.update d.streams update.id (some (state.reduceUpdate update).1) id = some other at hother
      change d.names other.requestId = some id
      rw [Function.update_apply] at hother
      split_ifs at hother with hid
      · cases hother
        rw [hkept, hid]
        exact hname
      · exact h id other hother

theorem abortRequest_named {b : SteppedBridge} (h : b.Named) (requestId : String) : (b.abortRequest requestId).Named := by
  intro id state hstate
  rw [abortRequest_streams] at hstate
  split_ifs at hstate with hreach
  have hfound := h id state hstate
  have hne : state.requestId ≠ requestId := by
    rintro rfl
    exact hreach hfound
  rw [abortRequest_names, if_neg hne]
  exact hfound

theorem step_named {b b' : SteppedBridge} (h : b.Named) (op : BridgeOp) (hfresh : b.FreshName op)
    (hstep : b.step op = .ok b') : b'.Named := by
  cases op with
  | step message =>
    have hsent := sendOutputs_ok hstep
    subst hsent
    have hfold : ∀ (updates : List RequestUpdate) (d : Dispatch),
        (∀ id state, d.streams id = some state → d.names state.requestId = some id) →
        ∀ id state, (updates.foldl dispatchUpdate d).streams id = some state →
          (updates.foldl dispatchUpdate d).names state.requestId = some id := by
      intro updates
      induction updates with
      | nil => exact fun _ hd => hd
      | cons update updates ih => exact fun d hd => ih _ (dispatchUpdate_named d update hd)
    exact hfold message.updates ⟨b.streams, b.names, b.aborted, [], ∅⟩ h
  | add request =>
    change b.startRequest request = .ok b' at hstep
    unfold startRequest at hstep
    cases hrefusal : request.refusal with
    | some stopReason =>
      rw [hrefusal] at hstep
      have hsent := sendOutputs_ok hstep
      subst hsent
      exact h
    | none =>
      rw [hrefusal] at hstep
      cases hstep
      intro id state hstate
      change Function.update b.streams b.nextId _ id = some state at hstate
      change Function.update b.names request.requestId _ state.requestId = some id
      rw [Function.update_apply] at hstate
      split_ifs at hstate with hid
      · cases hstate
        rw [hid]
        exact Function.update_self ..
      · rw [Function.update_of_ne (hfresh hrefusal id state hstate)]
        exact h id state hstate
  | abort requestIds =>
    cases hstep
    clear hfresh
    have hfold : ∀ b : SteppedBridge, b.Named → (requestIds.foldl abortRequest b).Named := by
      induction requestIds with
      | nil => exact fun _ hb => hb
      | cons requestId requestIds ih => exact fun b hb => ih _ (abortRequest_named hb requestId)
    exact hfold b h
  | closeOutput =>
    cases hstep
    exact h

/-- a started request, whose stream goes by its name while there is one -/
structure Started (id : RequestId) (requestId : String) (b : SteppedBridge) : Prop where
  lt : id < b.nextId
  name : ∀ state, b.streams id = some state → state.requestId = requestId

theorem reduceTo_requestId (updates : List RequestUpdate) : ∀ {state state' : SteppedStream},
    state.reduceTo updates = some state' → state'.requestId = state.requestId := by
  induction updates with
  | nil =>
    intro state state' h
    cases h
    rfl
  | cons update updates ih =>
    intro state state' h
    rw [SteppedStream.reduceTo_cons] at h
    split_ifs at h
    exact (ih h).trans (state.reduceUpdate_fields update).1

theorem step_started {b b' : SteppedBridge} {id : RequestId} {requestId : String} (h : Started id requestId b)
    (op : BridgeOp) (hstep : b.step op = .ok b') : Started id requestId b' := by
  cases op with
  | step message =>
    obtain ⟨hnext, hstream, -⟩ := dispatchStep_ok hstep id
    refine ⟨by rw [hnext]; exact h.lt, fun state hstate => ?_⟩
    rw [hstream] at hstate
    obtain ⟨before, hbefore, hreduce⟩ := Option.bind_eq_some_iff.1 hstate
    exact (reduceTo_requestId _ hreduce).trans (h.name before hbefore)
  | add request =>
    change b.startRequest request = .ok b' at hstep
    unfold startRequest at hstep
    cases hrefusal : request.refusal with
    | some stopReason =>
      rw [hrefusal] at hstep
      have hsent := sendOutputs_ok hstep
      subst hsent
      exact ⟨h.lt, h.name⟩
    | none =>
      rw [hrefusal] at hstep
      cases hstep
      refine ⟨Nat.lt_succ_of_lt h.lt, fun state hstate => ?_⟩
      change Function.update b.streams b.nextId _ id = some state at hstate
      rw [Function.update_of_ne (Nat.ne_of_lt h.lt)] at hstate
      exact h.name state hstate
  | abort requestIds =>
    cases hstep
    refine ⟨by rw [(aborts_sent requestIds b).2]; exact h.lt, fun state hstate => ?_⟩
    rw [aborts_streams] at hstate
    split_ifs at hstate
    exact h.name state hstate
  | closeOutput =>
    cases hstep
    exact ⟨h.lt, h.name⟩

theorem run_started {id : RequestId} {requestId : String} (ops : List BridgeOp) (b b' : SteppedBridge)
    (h : Started id requestId b) (hrun : run step b ops = .ok b') : Started id requestId b' :=
  run_invariant (I := fun _ b => Started id requestId b) b h (fun _ _ op _ hI _ hstep => step_started hI op hstep) ops b'
    (stepsMeet_true b ops) hrun

theorem run_named (ops : List BridgeOp) (b : SteppedBridge) (hfresh : StepsMeet step FreshName init ops)
    (hrun : run step init ops = .ok b) : b.Named :=
  run_invariant (I := fun _ b => b.Named) init (fun _ _ h => by cases h)
    (fun _ _ op _ hI hone hstep => step_named hI op hone hstep) ops b hfresh hrun

/-- a request without a stream is sent nothing more -/
theorem outputsOf_gone {id : RequestId} {b b' : SteppedBridge} (hid : id < b.nextId) (hgone : b.streams id = none)
    (ops : List BridgeOp) (hrun : run step b ops = .ok b') : b'.outputsOf id = b.outputsOf id := by
  rw [outputsOf_run id ops b b' hid hrun, hgone]
  exact List.append_nil _

/-- behind the message that ends it -/
theorem outputsOf_ended {id : RequestId} {requestId : String} {b m b' : SteppedBridge} (h : Started id requestId b)
    {message : StepOutputs} (hends : ∃ update ∈ message.updates, update.id = id ∧ update.ends = true)
    (hstep : b.step (.step message) = .ok m) (ops : List BridgeOp) (hrun : run step m ops = .ok b') :
    b'.outputsOf id = m.outputsOf id := by
  obtain ⟨hnext, hstream, -⟩ := dispatchStep_ok hstep id
  refine outputsOf_gone (by rw [hnext]; exact h.lt) ?_ ops hrun
  rw [hstream]
  cases b.streams id with
  | none => rfl
  | some state =>
    obtain ⟨update, hmem, hid, hlast⟩ := hends
    exact SteppedStream.reduceTo_none ⟨update, List.mem_filter.2 ⟨hmem, decide_eq_true hid⟩, hlast⟩

/-- and behind an abort that names it -/
theorem outputsOf_aborted {id : RequestId} {requestId : String} {b b' : SteppedBridge} (h : Started id requestId b)
    (hnamed : b.Named) {requestIds : List String} (hin : requestId ∈ requestIds) (ops : List BridgeOp)
    (hrun : run step (requestIds.foldl abortRequest b) ops = .ok b') : b'.outputsOf id = b.outputsOf id := by
  obtain ⟨hsent, hnext⟩ := aborts_sent requestIds b
  rw [outputsOf_gone (by rw [hnext]; exact h.lt) ?_ ops hrun, outputsOf_eq, hsent, outputsOf_eq]
  rw [aborts_streams]
  cases hstream : b.streams id with
  | none => exact ite_self none
  | some state => exact if_pos ⟨requestId, hin, h.name state hstream ▸ hnamed id state hstream⟩

/-! ## Conservation -/

/-- what the outputs of a request carry of its records -/
structure Conserved (requestId : String) (sentinelId : Option TokenId) (told : List RequestUpdate)
    (outputs : List EngineCoreOutput) : Prop where
  requestId : ∀ output ∈ outputs, output.requestId = requestId
  tokens : outputs.flatMap EngineCoreOutput.newTokenIds = told.flatMap (RequestUpdate.wireTokens sentinelId)
  scores : outputs.flatMap EngineCoreOutput.scores = told.flatMap (RequestUpdate.wireScores sentinelId)
  aligned : ∀ output ∈ outputs, ∀ positions, output.newLogprobs = some positions →
    positions.length = output.newTokenIds.length
  statsAtMostOnce : (SteppedStream.statsOf outputs).length ≤ 1
  statsOnce : told.any RequestUpdate.ends = true → (∃ update ∈ told, update.scheduled.isSome = true) →
    (SteppedStream.statsOf outputs).length = 1
  statsNever : (∀ update ∈ told, update.scheduled = none) → SteppedStream.statsOf outputs = []
  statsFacts : ∀ stats ∈ SteppedStream.statsOf outputs, ∃ promptTokens cachedTokens,
    stats = .of promptTokens cachedTokens ∧
    (∃ update ∈ told, update.scheduled.map ScheduledInfo.promptTokens = some promptTokens) ∧
    (cachedTokens = 0 ∨ ∃ update ∈ told, update.cachedTokens = some cachedTokens) ∧
    (cachedTokens ≤ promptTokens → stats.numComputedTokens + stats.numCachedTokens = stats.numPromptTokens ∧
      (promptTokens < 2 ^ 32 → stats.numComputedTokens.toNat + stats.numCachedTokens.toNat = promptTokens))
  finish : if told.any RequestUpdate.ends then
      ∃ quiet last, outputs = quiet ++ [last] ∧ last.finishReason.isSome ∧
        ∀ output ∈ quiet, output.finishReason = none
    else ∀ output ∈ outputs, output.finishReason = none

theorem reduceAll_conserved (requestId : String) (sentinelId : Option TokenId) (updates : List RequestUpdate) :
    Conserved requestId sentinelId (RequestUpdate.upToEnd updates)
      ((SteppedStream.new requestId sentinelId).reduceAll updates) where
  requestId := SteppedStream.reduceAll_requestId _ updates
  tokens := SteppedStream.reduceAll_tokens _ updates
  scores := SteppedStream.reduceAll_scores _ updates
  aligned := SteppedStream.reduceAll_aligned _ updates
  statsAtMostOnce := SteppedStream.statsOf_length_le updates _
  statsOnce hends hscheduled := SteppedStream.statsOf_length_eq updates _ rfl hends (Or.inr hscheduled)
  statsNever := SteppedStream.statsOf_unscheduled updates _ rfl
  statsFacts stats hstats := by
    obtain ⟨promptTokens, cachedTokens, rfl, hprompt, hcached⟩ := SteppedStream.statsOf_facts updates _ stats hstats
    refine ⟨promptTokens, cachedTokens, rfl, hprompt.resolve_left fun h => (by cases h), hcached, fun hle => ?_⟩
    refine ⟨SteppedStream.PrefillStats.of_sum promptTokens cachedTokens hle, fun hlt => ?_⟩
    change (UInt32.ofNat (promptTokens - cachedTokens)).toNat + (UInt32.ofNat cachedTokens).toNat = promptTokens
    have hsize : UInt32.size = 2 ^ 32 := rfl
    have hcachedLt : cachedTokens < UInt32.size := by omega
    have hcomputedLt : promptTokens - cachedTokens < UInt32.size := by omega
    rw [UInt32.toNat_ofNat_of_lt' hcomputedLt, UInt32.toNat_ofNat_of_lt' hcachedLt, Nat.sub_add_cancel hle]
  finish := SteppedStream.reduceAll_finish _ updates

/-- an id that is still to come has no stream, and nothing was sent for it -/
def Untouched (b : SteppedBridge) : Prop := ∀ id, b.nextId ≤ id → b.streams id = none ∧ b.outputsOf id = []

theorem step_untouched {b b' : SteppedBridge} (h : b.Untouched) (op : BridgeOp) (hstep : b.step op = .ok b') :
    b'.Untouched := by
  intro id hid
  cases op with
  | step message =>
    obtain ⟨hnext, hstream, houtputs⟩ := dispatchStep_ok hstep id
    obtain ⟨hnone, hnothing⟩ := h id (by rwa [← hnext])
    rw [hstream, houtputs, hnone, hnothing]
    exact ⟨rfl, rfl⟩
  | add request =>
    change b.startRequest request = .ok b' at hstep
    unfold startRequest at hstep
    cases hrefusal : request.refusal with
    | some stopReason =>
      rw [hrefusal] at hstep
      have hsent := sendOutputs_ok hstep
      subst hsent
      obtain ⟨hnone, hnothing⟩ := h id hid
      refine ⟨hnone, ?_⟩
      rw [outputsOf_send, hnothing]
      rfl
    | none =>
      rw [hrefusal] at hstep
      cases hstep
      change b.nextId + 1 ≤ id at hid
      obtain ⟨hnone, hnothing⟩ := h id (Nat.le_of_succ_le hid)
      refine ⟨?_, hnothing⟩
      change Function.update b.streams b.nextId _ id = none
      rw [Function.update_of_ne (Nat.ne_of_gt hid)]
      exact hnone
  | abort requestIds =>
    cases hstep
    obtain ⟨hsent, hnext⟩ := aborts_sent requestIds b
    obtain ⟨hnone, hnothing⟩ := h id (by rwa [← hnext])
    rw [aborts_streams, hnone, ite_self, outputsOf_eq, hsent]
    exact ⟨rfl, hnothing⟩
  | closeOutput =>
    cases hstep
    exact h id hid

theorem run_untouched (ops : List BridgeOp) (b : SteppedBridge) (hrun : run step init ops = .ok b) : b.Untouched :=
  run_invariant (I := fun _ b => b.Untouched) init (fun _ _ => ⟨rfl, rfl⟩)
    (fun _ _ op _ hI _ hstep => step_untouched hI op hstep) ops b (stepsMeet_true init ops) hrun

/-- **Conservation.** Of every request a run starts; a request that is refused has its one answer at once. -/
theorem bridge_conserves (pre post : List BridgeOp) (request : EngineCoreRequest) (b₀ b₁ b : SteppedBridge)
    (hpre : run step init pre = .ok b₀) (hadd : b₀.step (.add request) = .ok b₁) (hpost : run step b₁ post = .ok b) :
    (∀ stopReason, request.refusal = some stopReason →
      b₁ = { b₀ with sent := b₀.sent ++ [terminalBatch request.requestId stopReason] }) ∧
    (request.refusal = none →
      Conserved request.requestId request.sentinelId (RequestUpdate.upToEnd (heard b₀.nextId b₁ post))
        (b.outputsOf b₀.nextId) ∧
      (∀ ops message ops' m m', post = ops ++ .step message :: ops' → run step b₁ ops = .ok m →
        m.step (.step message) = .ok m' →
        (∃ update ∈ message.updates, update.id = b₀.nextId ∧ update.ends = true) →
        b.outputsOf b₀.nextId = m'.outputsOf b₀.nextId) ∧
      (StepsMeet step FreshName init (pre ++ .add request :: post) →
        ∀ ops requestIds ops' m, post = ops ++ .abort requestIds :: ops' → run step b₁ ops = .ok m →
        request.requestId ∈ requestIds → b.outputsOf b₀.nextId = m.outputsOf b₀.nextId)) := by
  change b₀.startRequest request = .ok b₁ at hadd
  unfold startRequest at hadd
  refine ⟨fun stopReason hrefusal => ?_, fun hrefusal => ?_⟩
  · rw [hrefusal] at hadd
    exact sendOutputs_ok hadd
  rw [hrefusal] at hadd
  cases hadd
  set id := b₀.nextId
  have hlt : id < id + 1 := Nat.lt_succ_self id
  have hnew : Function.update b₀.streams id (some (SteppedStream.new request.requestId request.sentinelId)) id =
      some (.new request.requestId request.sentinelId) := Function.update_self ..
  have hstarted : Started id request.requestId { b₀ with
      nextId := id + 1
      names := Function.update b₀.names request.requestId (some id)
      streams := Function.update b₀.streams id (some (.new request.requestId request.sentinelId)) } := by
    refine ⟨hlt, fun state hstate => ?_⟩
    cases hnew.symm.trans hstate
    rfl
  refine ⟨?conserved, ?ended, ?aborted⟩
  case conserved =>
    have hnothing := (run_untouched pre b₀ hpre id (le_refl id)).2
    rw [outputsOf_run id post _ b hlt hpost]
    dsimp only
    rw [hnew]
    change Conserved _ _ _ (b₀.outputsOf id ++ _)
    rw [hnothing]
    exact reduceAll_conserved request.requestId request.sentinelId _
  case ended =>
    rintro ops message ops' m m' rfl hops hstep hends
    obtain ⟨n, hn, hrest⟩ := (run_append_ok _ _ _ _).1 hpost
    cases hops.symm.trans hn
    obtain ⟨n', hn', hlater⟩ := (run_cons_ok _ _ _ _).1 hrest
    cases hstep.symm.trans hn'
    exact outputsOf_ended (run_started ops _ _ hstarted hops) hends hstep ops' hlater
  case aborted =>
    rintro hfresh ops requestIds ops' m rfl hops hin
    obtain ⟨n, hn, hrest⟩ := (run_append_ok _ _ _ _).1 hpost
    cases hops.symm.trans hn
    obtain ⟨n', hn', hlater⟩ := (run_cons_ok _ _ _ _).1 hrest
    cases hn'
    have hnamed : m.Named := by
      have hsplit : pre ++ .add request :: (ops ++ .abort requestIds :: ops') =
          (pre ++ .add request :: ops) ++ .abort requestIds :: ops' := by
        rw [List.append_assoc, List.cons_append]
      rw [hsplit] at hfresh
      refine run_named _ m (stepsMeet_of_append hfresh) ((run_append_ok _ _ _ _).2 ⟨b₀, hpre, ?_⟩)
      refine (run_cons_ok _ _ _ _).2 ⟨_, ?_, hops⟩
      change b₀.startRequest request = _
      unfold startRequest
      rw [hrefusal]
    exact outputsOf_aborted (run_started ops _ _ hstarted hops) hnamed hin ops' hlater

def sampleRequest : EngineCoreRequest := ⟨"chat", some [1, 2], some ⟨none, .ok none, some 5, []⟩⟩

def scheduledUpdate : RequestUpdate := { RequestUpdate.empty 0 with scheduled := some ⟨0, 1, 2⟩, cachedTokens := some 1 }

def tokensUpdate (id : RequestId) (tokens : List TokenId) : RequestUpdate :=
  { RequestUpdate.empty id with tokens := tokens, logprobs := tokens.map fun _ => none }

def stopUpdate (id : RequestId) : RequestUpdate :=
  { RequestUpdate.empty id with terminal := some (.finished .stop none 2 1) }

/-- a request that is scheduled, told one token and stopped, the client's abort too late -/
theorem bridge_conserves_chat :
    ∃ b, run step init [.add sampleRequest, .step ⟨[scheduledUpdate]⟩, .step ⟨[tokensUpdate 0 [9], stopUpdate 0]⟩,
        .abort ["chat"]] = .ok b ∧
      Conserved "chat" (some 5) [scheduledUpdate, tokensUpdate 0 [9], stopUpdate 0] (b.outputsOf 0) ∧
      (b.outputsOf 0).flatMap EngineCoreOutput.newTokenIds = [9, 5] := by
  refine ⟨_, rfl, ?_, by decide⟩
  exact ((bridge_conserves [] [.step ⟨[scheduledUpdate]⟩, .step ⟨[tokensUpdate 0 [9], stopUpdate 0]⟩, .abort ["chat"]]
    sampleRequest _ _ _ rfl rfl rfl).2 rfl).1

/-- an echo with a score missing, in the record of the first token -/
def brokenEcho : RequestUpdate := { tokensUpdate 0 [7] with promptEcho := some ⟨[1, 2], [none]⟩ }

def rejectUpdate : RequestUpdate :=
  { RequestUpdate.empty 0 with terminal := some (.rejected (.unsupported "kv_transfer") 2) }

/-- a token that is not sent; a request that is answered without prefill stats; a token that is sent behind the abort of
its request, whose name was taken twice -/
theorem bridge_exceptions :
    (∃ b, run step init [.add sampleRequest, .step ⟨[brokenEcho]⟩] = .ok b ∧
      (b.outputsOf 0).map EngineCoreOutput.newTokenIds = [[]] ∧ brokenEcho.tokens = [7]) ∧
    (∃ b, run step init [.add sampleRequest, .step ⟨[rejectUpdate]⟩] = .ok b ∧
      (b.outputsOf 0).map EngineCoreOutput.finishReason = [some .error] ∧
      SteppedStream.statsOf (b.outputsOf 0) = []) ∧
    ∃ b, run step init [.add sampleRequest, .add sampleRequest, .step ⟨[stopUpdate 0]⟩, .abort ["chat"],
        .step ⟨[tokensUpdate 1 [9]]⟩] = .ok b ∧
      (b.outputsOf 1).map EngineCoreOutput.newTokenIds = [[9]] := by
  refine ⟨⟨_, rfl, ?_, rfl⟩, ⟨_, rfl, ?_, ?_⟩, ⟨_, rfl, ?_⟩⟩
  · decide
  · decide
  · decide
  · decide

end SteppedBridge

end Pegainfer.Frontend
