/-
One request's step records, reduced to the outputs the engine-core wire carries.

A record with metadata only ships nothing; its facts wait in the request's stream for the next output. The payload of a
timestamp is the contract's instant; rendering it against the bridge's clock is left out.
- `toWirePositionLogprobs`, `toWirePromptLogprobs`: the scores, in the wire's form.
- `SteppedStream.reduceUpdate`: a record to at most one output.
- `SteppedStream.reduceAll`: all records up to the one that ends the request.
- `reduceAll_tokens`, `reduceAll_scores`, `reduceAll_finish`, `reduceAll_prefill`: what the outputs of a request carry.
-/
import Mathlib.Tactic
import Pegainfer.Frontend.Step

namespace Pegainfer.Frontend

/-! ## The wire -/

inductive EngineCoreFinishReason
  | stop
  | length
  | abort
  | error
deriving DecidableEq, Repr

def convertFinishReason : FinishReason → EngineCoreFinishReason
  | .length => .length
  | .stop => .stop
  | .error => .error

inductive StopReason
  | tokenId (token : TokenId)
  | text (message : String)
deriving DecidableEq, Repr

inductive EngineCoreEventType
  | queued
  | scheduled
deriving DecidableEq, Repr

structure EngineCoreEvent where
  type : EngineCoreEventType
  timestamp : Instant
deriving DecidableEq, Repr

structure PrefillStats where
  numPromptTokens : UInt32
  numComputedTokens : UInt32
  numCachedTokens : UInt32
  numLocalCachedTokens : UInt32
  numExternalCachedTokens : UInt32
  numCacheCreationTokens : UInt32
deriving DecidableEq, Repr

/-- `as u32`; a cached count above the prompt leaves nothing to compute -/
def PrefillStats.of (promptTokens cachedTokens : ℕ) : PrefillStats :=
  ⟨.ofNat promptTokens, .ofNat (promptTokens - cachedTokens), .ofNat cachedTokens, .ofNat cachedTokens, 0, 0⟩

structure WireTokenLogprob where
  tokenId : TokenId
  logprob : UInt32
  rank : ℕ
deriving DecidableEq, Repr

/-- the entries of one position; none for a position without a score -/
structure PositionLogprobs where
  entries : List WireTokenLogprob
deriving DecidableEq, Repr

structure EngineCoreOutput where
  requestId : String
  newTokenIds : List TokenId
  newLogprobs : Option (List PositionLogprobs)
  newPromptLogprobs : Option (List PositionLogprobs)
  finishReason : Option EngineCoreFinishReason
  stopReason : Option StopReason
  events : Option (List EngineCoreEvent)
  prefillStats : Option PrefillStats
  kvTransferParams : Option String
deriving DecidableEq, Repr

def engineOutput (requestId : String) (newTokenIds : List TokenId) (newLogprobs : Option (List PositionLogprobs))
    (finishReason : Option EngineCoreFinishReason) (stopReason : Option StopReason)
    (events : Option (List EngineCoreEvent)) (prefillStats : Option PrefillStats) : EngineCoreOutput :=
  ⟨requestId, newTokenIds, newLogprobs, none, finishReason, stopReason, events, prefillStats, none⟩

/-- `Display` -/
def RejectReason.message : RejectReason → String
  | .contextLength promptTokens maxTokens limit =>
    "request exceeds this model's maximum context length of " ++ toString limit ++ " tokens: requested " ++
      toString (promptTokens + maxTokens) ++ " (prompt=" ++ toString promptTokens ++ " + max_tokens=" ++
      toString maxTokens ++ ")"
  | .prefillStepBudget promptTokens limit =>
    "request prompt has " ++ toString promptTokens ++ " tokens but the whole-prefill step budget is " ++
      toString limit ++ " tokens"
  | .echoPrefillTokens promptTokens limit =>
    "echo request prompt exceeds the profiled prefill limit of " ++ toString limit ++ " tokens: prompt_tokens=" ++
      toString promptTokens
  | .kvBudget promptTokens worstCaseTokens =>
    "request requires more KV blocks than this model instance can provide: prompt_tokens=" ++ toString promptTokens ++
      ", max_request_tokens=" ++ toString worstCaseTokens
  | .unknownLoraAdapter name => "LoRA adapter is not loaded: " ++ name
  | .unsupported feature => "this engine does not support " ++ feature

/-! ## Scores -/

/-- the scored token, then its top-k; a repeat of the scored token stays if `keepRepeat` -/
def positionLogprobs (tokenId : TokenId) (lp : TokenLogprob) (keepRepeat : Bool) : PositionLogprobs :=
  ⟨⟨tokenId, lp.logprob, lp.rank⟩ :: lp.topLogprobs.zipIdx.filterMap fun ((altId, altLogprob), index) =>
    if !keepRepeat && altId == tokenId then none else some ⟨altId, altLogprob, index + 1⟩⟩

def toWirePositionLogprobs (tokenId : TokenId) (logprob : Option TokenLogprob) : Option PositionLogprobs :=
  logprob.map fun lp => positionLogprobs tokenId lp false

/-- the positions behind the first, each of which must have a score -/
def promptPositions : List ((TokenId × Option TokenLogprob) × ℕ) → Except String (List PositionLogprobs)
  | [] => .ok []
  | ((_, none), index) :: _ => .error ("missing prompt logprob at position " ++ toString index)
  | ((id, some lp), _) :: rest =>
    match promptPositions rest with
    | .ok positions => .ok (positionLogprobs id lp true :: positions)
    | .error e => .error e

def toWirePromptLogprobs (prompt : PromptEcho) : Except String (Option (List PositionLogprobs)) :=
  if prompt.ids.isEmpty then .error "prompt logprobs contain an empty prompt"
  else if prompt.ids.length ≠ prompt.logprobs.length then
    .error ("prompt logprobs length mismatch: " ++ toString prompt.ids.length ++ " tokens, " ++
      toString prompt.logprobs.length ++ " scores")
  else if (prompt.logprobs[0]?.join).isSome then .error "the first prompt token must have no logprob"
  else if prompt.ids.length = 1 then .ok none
  else
    match promptPositions ((prompt.ids.zip prompt.logprobs).zipIdx.drop 1) with
    | .ok positions => .ok (some positions)
    | .error e => .error e

/-- a position without a score -/
def unscored : PositionLogprobs := ⟨[]⟩

/-! ## A request's stream -/

/-- what the bridge keeps of a request; `aborted` is the control's abort flag -/
structure SteppedStream where
  requestId : String
  aborted : Bool
  firstTokenEvents : Option (List EngineCoreEvent)
  promptTokens : Option ℕ
  cachedTokens : ℕ
  prefillStatsSent : Bool
  kvTransferParams : Option String
  stopSentinelId : Option TokenId
deriving DecidableEq, Repr

namespace SteppedStream

def new (requestId : String) (stopSentinelId : Option TokenId) : SteppedStream :=
  ⟨requestId, false, none, none, 0, false, none, stopSentinelId⟩

def takePrefillStats (state : SteppedStream) : Option PrefillStats × SteppedStream :=
  if state.prefillStatsSent then (none, state)
  else
    match state.promptTokens with
    | none => (none, state)
    | some promptTokens => (some (.of promptTokens state.cachedTokens), { state with prefillStatsSent := true })

/-- a prompt echo the wire cannot carry fails the request -/
def failPrompt (state : SteppedStream) (error : String) : SteppedStream × Option EngineCoreOutput × Bool :=
  let taken := takePrefillStats { state with aborted := true, firstTokenEvents := none }
  (taken.2, some (engineOutput state.requestId [] none (some .error) (some (.text error)) state.firstTokenEvents
    taken.1), true)

/-- the facts of a record that wait for the next output -/
def note (state : SteppedStream) (update : RequestUpdate) : SteppedStream :=
  { state with
    firstTokenEvents := match update.scheduled with
      | some scheduled => some [⟨.queued, scheduled.queuedAt⟩, ⟨.scheduled, scheduled.scheduledAt⟩]
      | none => state.firstTokenEvents
    promptTokens := match update.scheduled with
      | some scheduled => some scheduled.promptTokens
      | none => state.promptTokens
    cachedTokens := update.cachedTokens.getD state.cachedTokens
    kvTransferParams := update.kvTransfer.or state.kvTransferParams }

end SteppedStream

/-- the wire form of a record's prompt echo, if it has one -/
def RequestUpdate.wireEcho (update : RequestUpdate) : Except String (Option (List PositionLogprobs)) :=
  match update.promptEcho with
  | none => .ok none
  | some echo => toWirePromptLogprobs echo

/-- the score of each token, in its place -/
def RequestUpdate.tokenScores (update : RequestUpdate) : List (Option PositionLogprobs) :=
  update.tokens.zipIdx.map fun (id, i) => toWirePositionLogprobs id update.logprobs[i]?.join

namespace SteppedStream

/-- the token a producer without typed stop causes has suppressed -/
def sentinel (stopSentinelId : Option TokenId) (terminal : Option Terminal) : List TokenId :=
  match terminal with
  | some (.finished .stop none _ _) => stopSentinelId.toList
  | _ => []

def terminalReasons : Option Terminal → Option EngineCoreFinishReason × Option StopReason
  | none => (none, none)
  | some (.finished reason stopCause _ _) =>
    (some (convertFinishReason reason), match stopCause with
      | some (.token token) => some (.tokenId token)
      | _ => none)
  | some (.rejected reason _) => (some .error, some (.text reason.message))
  | some (.failed message _ _) => (some .error, some (.text message))

/-- the output of a record, with the facts that waited for it -/
def ship (state : SteppedStream) (update : RequestUpdate) (promptLogprobs : Option (List PositionLogprobs)) :
    SteppedStream × EngineCoreOutput :=
  let suffix := sentinel state.stopSentinelId update.terminal
  let positions := update.tokenScores.map (·.getD unscored) ++ suffix.map fun _ => unscored
  let logprobs := if update.tokenScores.any Option.isSome then some positions else none
  let reasons := terminalReasons update.terminal
  let taken := takePrefillStats { state with firstTokenEvents := none }
  let output := engineOutput state.requestId (update.tokens ++ suffix) logprobs reasons.1 reasons.2
    state.firstTokenEvents taken.1
  ({ taken.2 with kvTransferParams := none },
    { output with newPromptLogprobs := promptLogprobs, kvTransferParams := state.kvTransferParams })

/-- a record to at most one output, and whether it ended the request -/
def reduceUpdate (state : SteppedStream) (update : RequestUpdate) : SteppedStream × Option EngineCoreOutput × Bool :=
  let state := state.note update
  match update.wireEcho with
  | .error e => state.failPrompt e
  | .ok promptLogprobs =>
    let tokenIds := update.tokens ++ sentinel state.stopSentinelId update.terminal
    let terminated := update.terminal.isSome
    if tokenIds.isEmpty && promptLogprobs.isNone && !terminated then (state, none, false)
    else
      let shipped := state.ship update promptLogprobs
      (shipped.1, some shipped.2, terminated)

/-- the outputs of a request's records, up to the one that ends it -/
def reduceAll (state : SteppedStream) : List RequestUpdate → List EngineCoreOutput
  | [] => []
  | update :: updates =>
    let reduced := state.reduceUpdate update
    reduced.2.1.toList ++ if reduced.2.2 then [] else reduceAll reduced.1 updates

end SteppedStream

/-! ## What a record is to put on the wire -/

namespace RequestUpdate

/-- the record ends its request: it says so, or its prompt echo cannot be carried -/
def ends (update : RequestUpdate) : Bool :=
  match update.wireEcho with
  | .error _ => true
  | .ok _ => update.terminal.isSome

/-- its tokens, each with its score, then the suppressed one; a record that fails in its prompt echo has none -/
def wireScores (stopSentinelId : Option TokenId) (update : RequestUpdate) : List (TokenId × PositionLogprobs) :=
  match update.wireEcho with
  | .error _ => []
  | .ok _ => update.tokens.zip (update.tokenScores.map (·.getD unscored)) ++
      (SteppedStream.sentinel stopSentinelId update.terminal).map (·, unscored)

/-- its tokens, then the suppressed one -/
def wireTokens (stopSentinelId : Option TokenId) (update : RequestUpdate) : List TokenId :=
  match update.wireEcho with
  | .error _ => []
  | .ok _ => update.tokens ++ SteppedStream.sentinel stopSentinelId update.terminal

/-- the records up to the one that ends the request -/
def upToEnd : List RequestUpdate → List RequestUpdate
  | [] => []
  | update :: updates => update :: if update.ends then [] else upToEnd updates

theorem length_tokenScores (update : RequestUpdate) : update.tokenScores.length = update.tokens.length := by
  unfold tokenScores
  rw [List.length_map, List.length_zipIdx]

end RequestUpdate

/-- an output's tokens with the scores in their places -/
def EngineCoreOutput.scores (output : EngineCoreOutput) : List (TokenId × PositionLogprobs) :=
  match output.newLogprobs with
  | some positions => output.newTokenIds.zip positions
  | none => output.newTokenIds.map (·, unscored)

namespace SteppedStream

open RequestUpdate

/-! ## One record -/

theorem zip_map_const {α β : Type} (l : List α) (b : β) : l.zip (l.map fun _ => b) = l.map (·, b) := by
  induction l with
  | nil => rfl
  | cons a l ih => rw [List.map_cons, List.map_cons, List.zip_cons_cons, ih]

theorem sentinel_none (stopSentinelId : Option TokenId) : sentinel stopSentinelId none = [] := rfl

/-- a record fails in its prompt echo, has nothing to ship, or ships -/
theorem reduceUpdate_cases (state : SteppedStream) (update : RequestUpdate) :
    (∃ e, update.wireEcho = .error e ∧ state.reduceUpdate update = (state.note update).failPrompt e) ∨
    (update.wireEcho = .ok none ∧ update.tokens = [] ∧ update.terminal = none ∧
      state.reduceUpdate update = (state.note update, none, false)) ∨
    ∃ promptLogprobs, update.wireEcho = .ok promptLogprobs ∧
      state.reduceUpdate update = (((state.note update).ship update promptLogprobs).1,
        some ((state.note update).ship update promptLogprobs).2, update.terminal.isSome) := by
  unfold reduceUpdate
  cases hecho : update.wireEcho with
  | error e => exact Or.inl ⟨e, rfl, rfl⟩
  | ok promptLogprobs =>
    dsimp only
    split_ifs with hquiet
    · simp only [Bool.and_eq_true, List.isEmpty_iff, List.append_eq_nil_iff, Option.isNone_iff_eq_none,
        Bool.not_eq_true', Option.isSome_eq_false_iff] at hquiet
      exact Or.inr (Or.inl ⟨by rw [hquiet.1.2], hquiet.1.1.1, hquiet.2, rfl⟩)
    · exact Or.inr (Or.inr ⟨promptLogprobs, rfl, rfl⟩)

@[simp] theorem note_requestId (state : SteppedStream) (update : RequestUpdate) :
    (state.note update).requestId = state.requestId := rfl

@[simp] theorem note_stopSentinelId (state : SteppedStream) (update : RequestUpdate) :
    (state.note update).stopSentinelId = state.stopSentinelId := rfl

@[simp] theorem note_prefillStatsSent (state : SteppedStream) (update : RequestUpdate) :
    (state.note update).prefillStatsSent = state.prefillStatsSent := rfl

theorem takePrefillStats_fields (state : SteppedStream) :
    state.takePrefillStats.2.requestId = state.requestId ∧
      state.takePrefillStats.2.stopSentinelId = state.stopSentinelId := by
  unfold takePrefillStats
  cases state.prefillStatsSent with
  | true => exact ⟨rfl, rfl⟩
  | false =>
    cases state.promptTokens with
    | none => exact ⟨rfl, rfl⟩
    | some promptTokens => exact ⟨rfl, rfl⟩

theorem reduceUpdate_fields (state : SteppedStream) (update : RequestUpdate) :
    (state.reduceUpdate update).1.requestId = state.requestId ∧
      (state.reduceUpdate update).1.stopSentinelId = state.stopSentinelId := by
  rcases state.reduceUpdate_cases update with ⟨e, -, hreduce⟩ | ⟨-, -, -, hreduce⟩ | ⟨promptLogprobs, -, hreduce⟩
  · rw [hreduce]
    exact takePrefillStats_fields _
  · rw [hreduce]
    exact ⟨rfl, rfl⟩
  · rw [hreduce]
    exact takePrefillStats_fields _

theorem reduceUpdate_ends (state : SteppedStream) (update : RequestUpdate) :
    (state.reduceUpdate update).2.2 = update.ends := by
  unfold ends
  rcases state.reduceUpdate_cases update with ⟨e, hecho, hreduce⟩ | ⟨hecho, -, hterminal, hreduce⟩ |
    ⟨promptLogprobs, hecho, hreduce⟩
  · rw [hreduce, hecho]
    rfl
  · rw [hreduce, hecho, hterminal]
    rfl
  · rw [hreduce, hecho]

theorem terminalReasons_isSome (terminal : Option Terminal) :
    (terminalReasons terminal).1.isSome = terminal.isSome := by
  rcases terminal with _ | ⟨reason, stopCause, _, _⟩ | _ | _
  · rfl
  · rfl
  · rfl
  · rfl

/-- a record that ends its request ships, and an output has a finish reason exactly then -/
theorem reduceUpdate_finish (state : SteppedStream) (update : RequestUpdate) :
    (update.ends = true → (state.reduceUpdate update).2.1.isSome) ∧
      ∀ output ∈ (state.reduceUpdate update).2.1, output.requestId = state.requestId ∧
        output.finishReason.isSome = update.ends := by
  unfold ends
  rcases state.reduceUpdate_cases update with ⟨e, hecho, hreduce⟩ | ⟨hecho, -, hterminal, hreduce⟩ |
    ⟨promptLogprobs, hecho, hreduce⟩
  · rw [hreduce, hecho]
    refine ⟨fun _ => rfl, fun output houtput => ?_⟩
    cases houtput
    exact ⟨rfl, rfl⟩
  · rw [hreduce, hecho, hterminal]
    exact ⟨fun h => (by cases h), fun output houtput => by cases houtput⟩
  · rw [hreduce, hecho]
    refine ⟨fun _ => rfl, fun output houtput => ?_⟩
    cases houtput
    exact ⟨rfl, terminalReasons_isSome update.terminal⟩

theorem reduceUpdate_tokens (state : SteppedStream) (update : RequestUpdate) :
    (state.reduceUpdate update).2.1.toList.flatMap EngineCoreOutput.newTokenIds =
      update.wireTokens state.stopSentinelId := by
  unfold wireTokens
  rcases state.reduceUpdate_cases update with ⟨e, hecho, hreduce⟩ | ⟨hecho, htokens, hterminal, hreduce⟩ |
    ⟨promptLogprobs, hecho, hreduce⟩
  · rw [hreduce, hecho]
    rfl
  · rw [hreduce, hecho, htokens, hterminal]
    rfl
  · rw [hreduce, hecho]
    exact List.append_nil _

/-- a score stands in its token's place, and an empty one in a place without -/
theorem ship_scores (state : SteppedStream) (update : RequestUpdate)
    (promptLogprobs : Option (List PositionLogprobs)) :
    (state.ship update promptLogprobs).2.scores = update.tokens.zip (update.tokenScores.map (·.getD unscored)) ++
      (sentinel state.stopSentinelId update.terminal).map (·, unscored) := by
  have hlength : update.tokens.length = (update.tokenScores.map (·.getD unscored)).length := by
    rw [List.length_map, length_tokenScores]
  unfold EngineCoreOutput.scores ship
  dsimp only [engineOutput]
  by_cases hscored : update.tokenScores.any Option.isSome
  · rw [if_pos hscored]
    dsimp only
    rw [List.zip_append hlength, zip_map_const]
  · rw [if_neg hscored]
    dsimp only
    have hnone : update.tokenScores.map (·.getD unscored) = update.tokens.map fun _ => unscored := by
      rw [List.map_const', List.eq_replicate_iff, List.length_map, length_tokenScores]
      refine ⟨rfl, fun position hposition => ?_⟩
      obtain ⟨score, hscore, rfl⟩ := List.mem_map.1 hposition
      cases score with
      | none => rfl
      | some position => exact absurd (List.any_eq_true.2 ⟨_, hscore, rfl⟩) hscored
    rw [hnone, zip_map_const, List.map_append]

theorem reduceUpdate_scores (state : SteppedStream) (update : RequestUpdate) :
    (state.reduceUpdate update).2.1.toList.flatMap EngineCoreOutput.scores =
      update.wireScores state.stopSentinelId := by
  unfold wireScores
  rcases state.reduceUpdate_cases update with ⟨e, hecho, hreduce⟩ | ⟨hecho, htokens, hterminal, hreduce⟩ |
    ⟨promptLogprobs, hecho, hreduce⟩
  · rw [hreduce, hecho]
    rfl
  · rw [hreduce, hecho, htokens, hterminal]
    rfl
  · rw [hreduce, hecho]
    exact (List.append_nil _).trans (ship_scores (state.note update) update promptLogprobs)

/-- as many positions as tokens -/
theorem reduceUpdate_aligned (state : SteppedStream) (update : RequestUpdate) :
    ∀ output ∈ (state.reduceUpdate update).2.1, ∀ positions, output.newLogprobs = some positions →
      positions.length = output.newTokenIds.length := by
  intro output houtput positions hpositions
  rcases state.reduceUpdate_cases update with ⟨e, -, hreduce⟩ | ⟨-, -, -, hreduce⟩ | ⟨promptLogprobs, -, hreduce⟩
  · rw [hreduce] at houtput
    cases houtput
    cases hpositions
  · rw [hreduce] at houtput
    cases houtput
  · rw [hreduce] at houtput
    cases houtput
    unfold ship at hpositions ⊢
    dsimp only [engineOutput] at hpositions ⊢
    split_ifs at hpositions
    cases hpositions
    rw [List.length_append, List.length_append, List.length_map, List.length_map, length_tokenScores, note_stopSentinelId]

theorem takePrefillStats_spec (state : SteppedStream) :
    state.takePrefillStats.1 = (if state.prefillStatsSent then none else
      state.promptTokens.map (PrefillStats.of · state.cachedTokens)) ∧
    state.takePrefillStats.2.prefillStatsSent = (state.prefillStatsSent || state.promptTokens.isSome) ∧
    state.takePrefillStats.2.promptTokens = state.promptTokens ∧
    state.takePrefillStats.2.cachedTokens = state.cachedTokens := by
  obtain ⟨_, _, _, promptTokens, _, sent, _, _⟩ := state
  unfold takePrefillStats
  cases sent with
  | true => exact ⟨rfl, rfl, rfl, rfl⟩
  | false =>
    cases promptTokens with
    | none => exact ⟨rfl, rfl, rfl, rfl⟩
    | some promptTokens => exact ⟨rfl, rfl, rfl, rfl⟩

/-- the prefill stats go with the first output that finds the request scheduled -/
theorem reduceUpdate_prefill (state : SteppedStream) (update : RequestUpdate) :
    (∀ output ∈ (state.reduceUpdate update).2.1, output.prefillStats = if state.prefillStatsSent then none else
      (state.note update).promptTokens.map (PrefillStats.of · (state.note update).cachedTokens)) ∧
    (state.reduceUpdate update).1.prefillStatsSent = (state.prefillStatsSent ||
      ((state.reduceUpdate update).2.1.isSome && (state.note update).promptTokens.isSome)) ∧
    (state.reduceUpdate update).1.promptTokens = (state.note update).promptTokens ∧
    (state.reduceUpdate update).1.cachedTokens = (state.note update).cachedTokens := by
  rcases state.reduceUpdate_cases update with ⟨e, -, hreduce⟩ | ⟨-, -, -, hreduce⟩ | ⟨promptLogprobs, -, hreduce⟩
  · rw [hreduce]
    have htaken := takePrefillStats_spec { state.note update with aborted := true, firstTokenEvents := none }
    refine ⟨fun output houtput => ?_, htaken.2⟩
    cases houtput
    exact htaken.1
  · rw [hreduce]
    exact ⟨fun output houtput => (by cases houtput), (Bool.or_false _).symm, rfl, rfl⟩
  · rw [hreduce]
    have htaken := takePrefillStats_spec { state.note update with firstTokenEvents := none }
    refine ⟨fun output houtput => ?_, htaken.2⟩
    cases houtput
    exact htaken.1

/-! ## All records of a request -/

theorem reduceAll_cons (state : SteppedStream) (update : RequestUpdate) (updates : List RequestUpdate) :
    state.reduceAll (update :: updates) = (state.reduceUpdate update).2.1.toList ++
      if update.ends then [] else (state.reduceUpdate update).1.reduceAll updates := by
  rw [← state.reduceUpdate_ends update]
  rfl

theorem upToEnd_cons (update : RequestUpdate) (updates : List RequestUpdate) :
    upToEnd (update :: updates) = update :: if update.ends then [] else upToEnd updates := rfl

/-- **Tokens.** The outputs carry the records' tokens, in order. -/
theorem reduceAll_tokens (state : SteppedStream) (updates : List RequestUpdate) :
    (state.reduceAll updates).flatMap EngineCoreOutput.newTokenIds =
      (upToEnd updates).flatMap (wireTokens state.stopSentinelId) := by
  induction updates generalizing state with
  | nil => rfl
  | cons update updates ih =>
    rw [reduceAll_cons, upToEnd_cons, List.flatMap_append, List.flatMap_cons, reduceUpdate_tokens]
    cases update.ends with
    | true => rfl
    | false =>
      rw [← (state.reduceUpdate_fields update).2]
      exact congrArg _ (ih (state.reduceUpdate update).1)

/-- **Scores.** And each token's score in its place. -/
theorem reduceAll_scores (state : SteppedStream) (updates : List RequestUpdate) :
    (state.reduceAll updates).flatMap EngineCoreOutput.scores =
      (upToEnd updates).flatMap (wireScores state.stopSentinelId) := by
  induction updates generalizing state with
  | nil => rfl
  | cons update updates ih =>
    rw [reduceAll_cons, upToEnd_cons, List.flatMap_append, List.flatMap_cons, reduceUpdate_scores]
    cases update.ends with
    | true => rfl
    | false =>
      rw [← (state.reduceUpdate_fields update).2]
      exact congrArg _ (ih (state.reduceUpdate update).1)

/-- what holds of every output of a record holds of every output of the request -/
theorem reduceAll_forall {P : EngineCoreOutput → Prop} (I : SteppedStream → Prop)
    (hstep : ∀ state update, I state → I (state.reduceUpdate update).1 ∧
      ∀ output ∈ (state.reduceUpdate update).2.1, P output) (updates : List RequestUpdate) :
    ∀ state, I state → ∀ output ∈ state.reduceAll updates, P output := by
  induction updates with
  | nil => exact fun state _ output houtput => absurd houtput List.not_mem_nil
  | cons update updates ih =>
    intro state hstate output houtput
    obtain ⟨hnext, hone⟩ := hstep state update hstate
    rw [reduceAll_cons] at houtput
    rcases List.mem_append.1 houtput with hfirst | hrest
    · exact hone output (Option.mem_toList.1 hfirst)
    · split_ifs at hrest
      · exact absurd hrest List.not_mem_nil
      · exact ih _ hnext output hrest

theorem reduceAll_requestId (state : SteppedStream) (updates : List RequestUpdate) :
    ∀ output ∈ state.reduceAll updates, output.requestId = state.requestId := by
  refine reduceAll_forall (fun state' => state'.requestId = state.requestId) (fun state' update hsame => ?_) updates
    state rfl
  refine ⟨(state'.reduceUpdate_fields update).1.trans hsame, fun output houtput => ?_⟩
  exact ((state'.reduceUpdate_finish update).2 output houtput).1.trans hsame

theorem reduceAll_aligned (state : SteppedStream) (updates : List RequestUpdate) :
    ∀ output ∈ state.reduceAll updates, ∀ positions, output.newLogprobs = some positions →
      positions.length = output.newTokenIds.length :=
  reduceAll_forall (fun _ => True) (fun state' update _ => ⟨trivial, state'.reduceUpdate_aligned update⟩) updates
    state trivial

/-- **Finish.** The last output of a request that ended has a finish reason, and no other has one. -/
theorem reduceAll_finish (state : SteppedStream) (updates : List RequestUpdate) :
    if (upToEnd updates).any ends then
      ∃ quiet last, state.reduceAll updates = quiet ++ [last] ∧ last.finishReason.isSome ∧
        ∀ output ∈ quiet, output.finishReason = none
    else ∀ output ∈ state.reduceAll updates, output.finishReason = none := by
  induction updates generalizing state with
  | nil => exact fun output houtput => absurd houtput List.not_mem_nil
  | cons update updates ih =>
    obtain ⟨hships, hfinish⟩ := state.reduceUpdate_finish update
    rw [reduceAll_cons, upToEnd_cons, List.any_cons]
    cases hends : update.ends with
    | true =>
      obtain ⟨last, hlast⟩ := Option.isSome_iff_exists.1 (hships hends)
      rw [hlast]
      refine ⟨[], last, rfl, ?_, fun output houtput => absurd houtput List.not_mem_nil⟩
      rw [(hfinish last hlast).2, hends]
    | false =>
      have hquiet : ∀ output ∈ (state.reduceUpdate update).2.1.toList, output.finishReason = none := by
        intro output houtput
        have hnone := (hfinish output (Option.mem_toList.1 houtput)).2
        rwa [hends, Option.isSome_eq_false_iff, Option.isNone_iff_eq_none] at hnone
      have hrest := ih (state.reduceUpdate update).1
      simp only [Bool.false_eq_true, if_false, Bool.false_or]
      by_cases hany : (upToEnd updates).any ends
      · rw [if_pos hany] at hrest ⊢
        obtain ⟨quiet, last, heq, hlast, hbefore⟩ := hrest
        refine ⟨(state.reduceUpdate update).2.1.toList ++ quiet, last, ?_, hlast, fun output houtput => ?_⟩
        · rw [heq, List.append_assoc]
        · rcases List.mem_append.1 houtput with hin | hin
          · exact hquiet output hin
          · exact hbefore output hin
      · rw [if_neg hany] at hrest ⊢
        intro output houtput
        rcases List.mem_append.1 houtput with hin | hin
        · exact hquiet output hin
        · exact hrest output hin

/-! ## Prefill stats -/

/-- the prefill stats of a list of outputs -/
def statsOf (outputs : List EngineCoreOutput) : List PrefillStats := outputs.filterMap EngineCoreOutput.prefillStats

theorem statsOf_append (outputs outputs' : List EngineCoreOutput) :
    statsOf (outputs ++ outputs') = statsOf outputs ++ statsOf outputs' := List.filterMap_append

theorem statsOf_reduceUpdate_sent {state : SteppedStream} (hsent : state.prefillStatsSent = true)
    (update : RequestUpdate) : statsOf (state.reduceUpdate update).2.1.toList = [] ∧
      (state.reduceUpdate update).1.prefillStatsSent = true := by
  obtain ⟨hstats, hkept, -, -⟩ := state.reduceUpdate_prefill update
  rw [hsent] at hstats hkept
  refine ⟨?_, hkept⟩
  cases houtput : (state.reduceUpdate update).2.1 with
  | none => rfl
  | some output =>
    have hnone := hstats output houtput
    change List.filterMap _ [output] = []
    rw [List.filterMap_cons, hnone]
    rfl

theorem statsOf_sent (updates : List RequestUpdate) : ∀ state : SteppedStream, state.prefillStatsSent = true →
    statsOf (state.reduceAll updates) = [] := by
  induction updates with
  | nil => exact fun _ _ => rfl
  | cons update updates ih =>
    intro state hsent
    obtain ⟨hone, hkept⟩ := statsOf_reduceUpdate_sent hsent update
    rw [reduceAll_cons, statsOf_append, hone, List.nil_append]
    split_ifs
    · rfl
    · exact ih _ hkept

/-- the first output that finds the request scheduled carries the stats, and no other -/
theorem statsOf_cons {state : SteppedStream} (hsent : state.prefillStatsSent = false) (update : RequestUpdate)
    (updates : List RequestUpdate) :
    statsOf (state.reduceAll (update :: updates)) =
      match (state.reduceUpdate update).2.1.isSome, (state.note update).promptTokens with
      | true, some promptTokens => [PrefillStats.of promptTokens (state.note update).cachedTokens]
      | _, _ => if update.ends then [] else statsOf ((state.reduceUpdate update).1.reduceAll updates) := by
  obtain ⟨hstats, hkept, -, -⟩ := state.reduceUpdate_prefill update
  rw [reduceAll_cons, statsOf_append]
  cases houtput : (state.reduceUpdate update).2.1 with
  | none =>
    rw [apply_ite statsOf]
    rfl
  | some output =>
    have hone := hstats output houtput
    rw [hsent] at hone hkept
    rw [houtput] at hkept
    have hlist : statsOf (some output).toList = output.prefillStats.toList := by
      change List.filterMap _ [output] = _
      rw [List.filterMap_cons]
      cases output.prefillStats with
      | none => rfl
      | some _ => rfl
    rw [hlist, hone]
    cases hprompt : (state.note update).promptTokens with
    | none =>
      rw [apply_ite statsOf]
      rfl
    | some promptTokens =>
      rw [hprompt] at hkept
      rw [apply_ite statsOf, statsOf_sent updates _ hkept, statsOf, List.filterMap_nil, ite_self]
      rfl

/-- **Prefill stats.** At most once. -/
theorem statsOf_length_le (updates : List RequestUpdate) : ∀ state : SteppedStream,
    (statsOf (state.reduceAll updates)).length ≤ 1 := by
  induction updates with
  | nil => exact fun _ => Nat.zero_le 1
  | cons update updates ih =>
    intro state
    cases hsent : state.prefillStatsSent with
    | true =>
      rw [statsOf_sent _ _ hsent]
      exact Nat.zero_le 1
    | false =>
      rw [statsOf_cons hsent]
      split
      · exact le_refl 1
      · split_ifs
        · exact Nat.zero_le 1
        · exact ih _

theorem note_promptTokens_isSome (state : SteppedStream) (update : RequestUpdate) :
    (state.note update).promptTokens.isSome = (update.scheduled.isSome || state.promptTokens.isSome) := by
  unfold note
  cases update.scheduled with
  | none => rfl
  | some scheduled => rfl

/-- for a request that was scheduled and ended, exactly once -/
theorem statsOf_length_eq (updates : List RequestUpdate) : ∀ state : SteppedStream, state.prefillStatsSent = false →
    (upToEnd updates).any ends = true →
    state.promptTokens.isSome = true ∨ (∃ update ∈ upToEnd updates, update.scheduled.isSome = true) →
    (statsOf (state.reduceAll updates)).length = 1 := by
  induction updates with
  | nil => exact fun _ _ hends => by cases hends
  | cons update updates ih =>
    intro state hsent hends hscheduled
    obtain ⟨-, hkept, hprompt, -⟩ := state.reduceUpdate_prefill update
    obtain ⟨hships, -⟩ := state.reduceUpdate_finish update
    rw [statsOf_cons hsent]
    rw [upToEnd_cons] at hends hscheduled
    split
    · rfl
    · next hnot =>
      have hmissing : ¬ ((state.reduceUpdate update).2.1.isSome = true ∧ (state.note update).promptTokens.isSome = true) := by
        rintro ⟨hsome, hknown⟩
        obtain ⟨promptTokens, hpromptTokens⟩ := Option.isSome_iff_exists.1 hknown
        exact hnot promptTokens hsome hpromptTokens
      have hnote := state.note_promptTokens_isSome update
      cases hlast : update.ends with
      | true =>
        -- the last record ships, and finds the request scheduled
        rw [hlast] at hscheduled
        refine absurd ⟨hships hlast, ?_⟩ hmissing
        rw [hnote, Bool.or_eq_true]
        rcases hscheduled with hbefore | ⟨update', hupdate', hhere⟩
        · exact Or.inr hbefore
        · rw [List.mem_singleton.1 hupdate'] at hhere
          exact Or.inl hhere
      | false =>
        rw [List.any_cons, hlast, Bool.false_or, if_neg Bool.false_ne_true] at hends
        rw [hlast, if_neg Bool.false_ne_true] at hscheduled
        rw [if_neg Bool.false_ne_true]
        apply ih
        · rw [hkept, hsent, Bool.false_or, ← Bool.not_eq_true, Bool.and_eq_true]
          exact hmissing
        · exact hends
        · rw [hprompt, hnote, Bool.or_eq_true]
          rcases hscheduled with hbefore | ⟨update', hupdate', hhere⟩
          · exact Or.inl (Or.inr hbefore)
          · rcases List.mem_cons.1 hupdate' with rfl | hlater
            · exact Or.inl (Or.inl hhere)
            · exact Or.inr ⟨update', hlater, hhere⟩

/-- a request that was never scheduled has none -/
theorem statsOf_unscheduled (updates : List RequestUpdate) : ∀ state : SteppedStream, state.promptTokens = none →
    (∀ update ∈ upToEnd updates, update.scheduled = none) → statsOf (state.reduceAll updates) = [] := by
  induction updates with
  | nil => exact fun _ _ _ => rfl
  | cons update updates ih =>
    intro state hnone hunscheduled
    cases hsent : state.prefillStatsSent with
    | true => exact statsOf_sent _ _ hsent
    | false =>
      have hnote : (state.note update).promptTokens = none := by
        rw [← Option.isNone_iff_eq_none, ← Option.not_isSome, note_promptTokens_isSome, hnone,
          hunscheduled update List.mem_cons_self]
        rfl
      rw [statsOf_cons hsent, hnote]
      split
      · next hsome => exact by cases hsome
      · split_ifs with hends
        · rfl
        · apply ih
          · rw [(state.reduceUpdate_prefill update).2.2.1, hnote]
          · intro update' hupdate'
            apply hunscheduled
            rw [upToEnd_cons, if_neg hends]
            exact List.mem_cons_of_mem update hupdate'

/-- the stats are of facts the request's records have reported -/
theorem statsOf_facts (updates : List RequestUpdate) : ∀ state : SteppedStream,
    ∀ stats ∈ statsOf (state.reduceAll updates), ∃ promptTokens cachedTokens,
      stats = PrefillStats.of promptTokens cachedTokens ∧
      (state.promptTokens = some promptTokens ∨
        ∃ update ∈ upToEnd updates, update.scheduled.map ScheduledInfo.promptTokens = some promptTokens) ∧
      (cachedTokens = state.cachedTokens ∨ ∃ update ∈ upToEnd updates, update.cachedTokens = some cachedTokens) := by
  induction updates with
  | nil => exact fun _ _ hstats => absurd hstats List.not_mem_nil
  | cons update updates ih =>
    intro state stats hstats
    cases hsent : state.prefillStatsSent with
    | true =>
      rw [statsOf_sent _ _ hsent] at hstats
      exact absurd hstats List.not_mem_nil
    | false =>
      have hhere : update ∈ upToEnd (update :: updates) := List.mem_cons_self
      have hprompt {promptTokens : ℕ} (h : (state.note update).promptTokens = some promptTokens) :
          state.promptTokens = some promptTokens ∨
            update.scheduled.map ScheduledInfo.promptTokens = some promptTokens := by
        unfold note at h
        cases hscheduled : update.scheduled with
        | none => exact Or.inl (by rw [hscheduled] at h; exact h)
        | some scheduled => exact Or.inr (by rw [hscheduled] at h; exact h)
      have hcached : (state.note update).cachedTokens = state.cachedTokens ∨
          update.cachedTokens = some (state.note update).cachedTokens := by
        unfold note
        cases update.cachedTokens with
        | none => exact Or.inl rfl
        | some cachedTokens => exact Or.inr rfl
      rw [statsOf_cons hsent] at hstats
      split at hstats
      · next promptTokens _ hknown =>
        refine ⟨promptTokens, _, List.mem_singleton.1 hstats, (hprompt hknown).imp_right fun h => ⟨update, hhere, h⟩, ?_⟩
        exact hcached.imp_right fun h => ⟨update, hhere, h⟩
      · split_ifs at hstats with hends
        · exact absurd hstats List.not_mem_nil
        · obtain ⟨promptTokens, cachedTokens, heq, hfrom, hcachedFrom⟩ := ih _ stats hstats
          obtain ⟨-, -, hkeptPrompt, hkeptCached⟩ := state.reduceUpdate_prefill update
          have hlater {update' : RequestUpdate} (h : update' ∈ upToEnd updates) :
              update' ∈ upToEnd (update :: updates) := by
            rw [upToEnd_cons, if_neg hends]
            exact List.mem_cons_of_mem update h
          refine ⟨promptTokens, cachedTokens, heq, ?_, ?_⟩
          · rcases hfrom with hnow | ⟨update', hupdate', hreport⟩
            · rw [hkeptPrompt] at hnow
              exact (hprompt hnow).imp_right fun h => ⟨update, hhere, h⟩
            · exact Or.inr ⟨update', hlater hupdate', hreport⟩
          · rcases hcachedFrom with hnow | ⟨update', hupdate', hreport⟩
            · rw [hnow, hkeptCached]
              exact hcached.imp_right fun h => ⟨update, hhere, h⟩
            · exact Or.inr ⟨update', hlater hupdate', hreport⟩

/-- the counts are facts of the request: computed and cached make up the prompt, unless more was cached than that -/
theorem PrefillStats.of_sum (promptTokens cachedTokens : ℕ) (h : cachedTokens ≤ promptTokens) :
    (PrefillStats.of promptTokens cachedTokens).numComputedTokens +
        (PrefillStats.of promptTokens cachedTokens).numCachedTokens =
      (PrefillStats.of promptTokens cachedTokens).numPromptTokens := by
  change UInt32.ofNat (promptTokens - cachedTokens) + UInt32.ofNat cachedTokens = UInt32.ofNat promptTokens
  rw [← UInt32.ofNat_add, Nat.sub_add_cancel h]

end SteppedStream

end Pegainfer.Frontend
