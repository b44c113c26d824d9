/-
The mixed-request scheduler: one loop round admits what fits and advances every active request by one token.

A request's stream is what its sink took. Whether the client is still there is part of the request (`accepts`): sends
succeed until it is gone and fail from then on, whatever the other requests do.
- `takeAdmissionBatch`, `admitReadyRequests`, `prefillRequest`: who leaves the queue, and what each is told.
- `decodeRound`: one row alone, all rows in one batch, or one batch for each position.
- `round`, `run`: the loop over the submissions that each round finds in the channel.
-/
import Mathlib.Tactic
import Pegainfer.Lib.Regroup
import Pegainfer.Dsv2Lite.Generator

namespace Pegainfer.Dsv2Lite

open Pegainfer.Lib

variable {K : Type}

/-! ## Requests -/

inductive FinishReason
  | length
  | stop
  | error
deriving DecidableEq, Repr

inductive TokenEvent
  | scheduled (promptTokens cachedTokens : ℕ)
  | token (id : ℕ)
  | finished (finishReason : FinishReason) (promptTokens completionTokens : ℕ)
  | rejected (message : String) (promptTokens completionTokens : ℕ)
  | error (message : String) (promptTokens completionTokens : ℕ)
deriving DecidableEq, Repr

/-- a request's stream; `accepts` more events reach its client, or all of them -/
structure TokenSink where
  accepts : Option ℕ
  sent : List TokenEvent
deriving DecidableEq, Repr

def TokenSink.send (sink : TokenSink) (event : TokenEvent) : Bool × TokenSink :=
  match sink.accepts with
  | none => (true, { sink with sent := sink.sent ++ [event] })
  | some 0 => (false, sink)
  | some (n + 1) => (true, ⟨some n, sink.sent ++ [event]⟩)

/-- an f32 as the gate uses it -/
structure F32 where
  text : String
  belowEpsilon : Bool
deriving DecidableEq, Repr

structure SamplingParams where
  temperature : F32
  topK : ℤ
  topP : F32
  ignoreEos : Bool
deriving DecidableEq, Repr

def SamplingParams.isGreedy (params : SamplingParams) : Bool := params.temperature.belowEpsilon || params.topK == 1

structure GenerateRequest where
  requestId : Option String
  promptTokens : List ℕ
  params : SamplingParams
  maxTokens : ℕ
  loraAdapter : Option String
  logprobs : Option ℕ
  promptLogprobs : Option ℕ
  /-- how many events the client stays for -/
  accepts : Option ℕ
deriving DecidableEq, Repr

structure PendingRequest where
  requestId : Option String
  promptTokens : List ℕ
  params : SamplingParams
  maxTokens : ℕ
  loraAdapter : Option String
  tokenTx : TokenSink
  logprobs : Option ℕ
  promptLogprobs : Option ℕ
deriving DecidableEq, Repr

def PendingRequest.from (req : GenerateRequest) : PendingRequest :=
  ⟨req.requestId, req.promptTokens, req.params, req.maxTokens, req.loraAdapter, ⟨req.accepts, []⟩, req.logprobs,
    req.promptLogprobs⟩

structure FinishPolicy where
  eosTokenIds : List ℕ
  ignoreEos : Bool

structure ActiveRequestState (K : Type) where
  requestId : Option String
  tokenTx : TokenSink
  promptLen : ℕ
  maxTokens : ℕ
  generated : ℕ
  lastToken : ℕ
  finishPolicy : FinishPolicy
  cache : DecodeCache K

namespace ActiveRequestState

def nextDecodePosition (a : ActiveRequestState K) : ℕ := a.promptLen + a.generated - 1

def debugRequestId : Option String → String
  | none => "None"
  | some id => "Some(" ++ id.quote ++ ")"

/-- why the row's cache does not stand at the row's position -/
def cachePosition (config : Config) (a : ActiveRequestState K) : Option String :=
  let expected := a.nextDecodePosition
  match a.cache.position config with
  | .error e => some e
  | .ok actual =>
    if actual = expected then none
    else some ("DeepSeek-V2-Lite request " ++ debugRequestId a.requestId ++
      s!" cache position mismatch: cache_len={actual}, expected={expected}")

/-- the row takes its next token: whether it is finished, and what it is then -/
def emitTokenOrFinish (a : ActiveRequestState K) (token : ℕ) : Bool × ActiveRequestState K :=
  if a.finishPolicy.ignoreEos = false ∧ token ∈ a.finishPolicy.eosTokenIds then
    (true, { a with
      lastToken := token
      tokenTx := (a.tokenTx.send (.finished .stop a.promptLen a.generated)).2 })
  else
    let sent := a.tokenTx.send (.token token)
    if sent.1 = false then (true, { a with lastToken := token, tokenTx := sent.2 })
    else if a.generated + 1 = a.maxTokens then
      (true, { a with
        lastToken := token
        generated := a.generated + 1
        tokenTx := (sent.2.send (.finished .length a.promptLen (a.generated + 1))).2 })
    else (false, { a with lastToken := token, generated := a.generated + 1, tokenTx := sent.2 })

/-- the sink after an error -/
def emitError (a : ActiveRequestState K) (message : String) : TokenSink :=
  (a.tokenTx.send (.error message a.promptLen a.generated)).2

/-- the row but for which slot its cache is in -/
def anon (a : ActiveRequestState K) : ActiveRequestState K := { a with cache := a.cache.anon }

end ActiveRequestState

/-! ## Admission -/

inductive AdmissionDecision
  | admitRequest
  | reject (message : String)
  | finish (reason : FinishReason)
deriving DecidableEq, Repr

def admissionDecision (req : PendingRequest) (supportedContext : ℕ) : AdmissionDecision :=
  let promptTokens := req.promptTokens.length
  if !req.params.isGreedy then
    .reject s!"DeepSeek-V2-Lite EP=2 mixed serving gate supports greedy decoding only; requested temperature={req.params.temperature.text}, top_k={req.params.topK}, top_p={req.params.topP.text}"
  else if req.logprobs.isSome || req.promptLogprobs.isSome then
    .reject "DeepSeek-V2-Lite EP=2 mixed serving gate does not return completion or prompt logprobs yet"
  else if req.loraAdapter.isSome then
    .reject "DeepSeek-V2-Lite EP=2 mixed serving gate does not support LoRA adapters"
  else if req.promptTokens.isEmpty then
    .reject "DeepSeek-V2-Lite EP=2 mixed serving gate requires a non-empty prompt"
  else if req.maxTokens = 0 then .finish .length
  else if 2 ^ 64 ≤ promptTokens + req.maxTokens then
    .reject s!"DeepSeek-V2-Lite EP=2 mixed serving gate context length overflow: prompt_tokens={promptTokens} max_new_tokens={req.maxTokens}"
  else if supportedContext < promptTokens + req.maxTokens then
    .reject s!"DeepSeek-V2-Lite EP=2 mixed serving gate supports plain RoPE context <= {supportedContext} tokens; requested prompt_tokens={promptTokens} max_new_tokens={req.maxTokens} total={promptTokens + req.maxTokens}. YaRN rope_scaling long context is not implemented yet."
  else .admitRequest

structure AdmissionBatch where
  admitted : List PendingRequest
  rejected : List (PendingRequest × String)
  finished : List PendingRequest

def FinishReason.debug : FinishReason → String
  | .length => "Length"
  | .stop => "Stop"
  | .error => "Error"

/-- pop the queue until a request would be admitted and there is no room; the rest of the queue comes back -/
def takeAdmissionBatch (activeLen maxActiveRequests supportedContext : ℕ) :
    List PendingRequest → AdmissionBatch → AdmissionBatch × List PendingRequest
  | [], batch => (batch, [])
  | pendingReq :: pending, batch =>
    match admissionDecision pendingReq supportedContext with
    | .admitRequest =>
      if activeLen + batch.admitted.length < maxActiveRequests then
        takeAdmissionBatch activeLen maxActiveRequests supportedContext pending
          { batch with admitted := batch.admitted ++ [pendingReq] }
      else (batch, pendingReq :: pending)
    | .reject message =>
      takeAdmissionBatch activeLen maxActiveRequests supportedContext pending
        { batch with rejected := batch.rejected ++ [(pendingReq, message)] }
    | .finish .length =>
      takeAdmissionBatch activeLen maxActiveRequests supportedContext pending
        { batch with finished := batch.finished ++ [pendingReq] }
    | .finish reason =>
      takeAdmissionBatch activeLen maxActiveRequests supportedContext pending
        { batch with
          rejected := batch.rejected ++
            [(pendingReq, s!"DeepSeek-V2-Lite unsupported admission finish reason: {reason.debug}")] }

def PendingRequest.sendScheduled (pending : PendingRequest) : Bool × TokenSink :=
  pending.tokenTx.send (.scheduled pending.promptTokens.length 0)

/-- scheduled, and told `event` if the client took that -/
def PendingRequest.sendTerminal (pending : PendingRequest) (event : TokenEvent) : TokenSink :=
  let scheduled := pending.sendScheduled
  if scheduled.1 then (scheduled.2.send event).2 else scheduled.2

/-! ## The scheduler -/

/-- `closed` keeps the streams of the requests that are gone, in the order they went -/
structure Scheduler (K : Type) where
  pool : Option DeviceKvPool
  pending : List PendingRequest
  active : List (ActiveRequestState K)
  maxActiveRequests : ℕ
  closed : List TokenSink

namespace Scheduler

variable (g : Generator K)

def new : Scheduler K := ⟨g.loadPool, [], [], DEFAULT_MAX_ACTIVE_REQUESTS, []⟩

def close (s : Scheduler K) (sink : TokenSink) : Scheduler K := { s with closed := s.closed ++ [sink] }

/-- a row is gone, its cache dropped -/
def retire (s : Scheduler K) (cache : DecodeCache K) (sink : TokenSink) : Scheduler K :=
  { s with
    pool := s.pool.map fun pool => pool.release cache.slots
    closed := s.closed ++ [sink] }

/-- prefill one request and emit its first token -/
def prefillRequest (s : Scheduler K) (pending : PendingRequest) : Scheduler K :=
  let promptLen := pending.promptTokens.length
  let scheduled := pending.sendScheduled
  if scheduled.1 = false then s.close scheduled.2
  else
    match g.prefillNextToken pending.promptTokens (DecodeCache.new g.config) with
    | .error message => s.close (scheduled.2.send (.error message promptLen 0)).2
    | .ok (next, cache) =>
      match g.attachDeviceKv s.pool cache with
      | (.error message, pool) => { s with pool := pool }.close (scheduled.2.send (.error message promptLen 0)).2
      | (.ok cache, pool) =>
        let active : ActiveRequestState K := ⟨pending.requestId, scheduled.2, promptLen, pending.maxTokens, 0, next,
          ⟨g.config.eosTokenIds, pending.params.ignoreEos⟩, cache⟩
        let emitted := active.emitTokenOrFinish next
        if emitted.1 then { s with pool := pool }.retire cache emitted.2.tokenTx
        else { s with pool := pool, active := s.active ++ [emitted.2] }

/-- prefill in order while there is room; one that does not fit goes back, and those behind it are dropped -/
def prefillAdmitted : List PendingRequest → Scheduler K → Scheduler K
  | [], s => s
  | pending :: admitted, s =>
    if s.maxActiveRequests ≤ s.active.length then
      { s with pending := pending :: s.pending, closed := s.closed ++ admitted.map PendingRequest.tokenTx }
    else prefillAdmitted admitted (s.prefillRequest g pending)

def admitReadyRequests (s : Scheduler K) : Scheduler K :=
  let taken := takeAdmissionBatch s.active.length s.maxActiveRequests g.supportedContext s.pending ⟨[], [], []⟩
  let s := { s with pending := taken.2 }
  let s := taken.1.rejected.foldl (fun s r => s.close (r.1.sendTerminal (.rejected r.2 r.1.promptTokens.length 0))) s
  let s := taken.1.finished.foldl (fun s r => s.close (r.sendTerminal (.finished .length r.promptTokens.length 0))) s
  s.prefillAdmitted g taken.1.admitted

/-! ## Decoding -/

/-- rows whose cache is not where it should be are told so and go -/
def retireBadCachePositions (s : Scheduler K) : Scheduler K :=
  s.active.foldl (fun s a =>
    match a.cachePosition g.config with
    | none => { s with active := s.active ++ [a] }
    | some message => s.retire a.cache (a.emitError message)) { s with active := [] }

def commonDecodePosition (active : List (ActiveRequestState K)) : Option ℕ :=
  match active with
  | [] => none
  | first :: _ =>
    if active.all fun a => a.nextDecodePosition = first.nextDecodePosition then some first.nextDecodePosition else none

/-- the rows by position; `none` is the panic of a row taken twice -/
def takeDecodePositionGroups (active : List (ActiveRequestState K)) : Option (List (List (ℕ × ActiveRequestState K))) :=
  takeGroups ((groupBy (active.map ActiveRequestState.nextDecodePosition)).map Prod.snd) (active.map some)

/-- a row's token is emitted; the row stays or goes -/
def applyDecoded (kept : List (ℕ × ActiveRequestState K)) (s : Scheduler K) (i : ℕ) (a : ActiveRequestState K)
    (token : ℕ) : List (ℕ × ActiveRequestState K) × Scheduler K :=
  let emitted := a.emitTokenOrFinish token
  if emitted.1 then (kept, s.retire a.cache emitted.2.tokenTx) else (kept ++ [(i, emitted.2)], s)

def applyDecodedTokensToRows (rows : List (ℕ × ActiveRequestState K × ℕ)) (s : Scheduler K) :
    List (ℕ × ActiveRequestState K) × Scheduler K :=
  rows.foldl (fun r row => applyDecoded r.1 r.2 row.1 row.2.1 row.2.2) ([], s)

def retireRowsWithError (states : List (ActiveRequestState K)) (message : String) (s : Scheduler K) : Scheduler K :=
  states.foldl (fun s a => s.retire a.cache (a.emitError message)) s

def decodeBatchGroup (rows : List (ℕ × ActiveRequestState K)) (s : Scheduler K) :
    List (ℕ × ActiveRequestState K) × Scheduler K :=
  let states := rows.map Prod.snd
  match g.decodeNextTokensBatch s.pool (states.map ActiveRequestState.lastToken)
      (states.map ActiveRequestState.nextDecodePosition) (states.map ActiveRequestState.cache) with
  | .ok (nextTokens, caches) =>
    if nextTokens.length = rows.length then
      let states := (states.zip caches).map fun r => { r.1 with cache := r.2 }
      applyDecodedTokensToRows ((rows.map Prod.fst).zip (states.zip nextTokens)) s
    else ([], s.retireRowsWithError states s!"DeepSeek-V2-Lite batched decode returned {nextTokens.length} rows for {rows.length} active requests")
  | .error err =>
    ([], s.retireRowsWithError states s!"DeepSeek-V2-Lite batched decode failed for {rows.length} active requests: {err}")

def decodeSingleRow (row : ℕ × ActiveRequestState K) (s : Scheduler K) :
    List (ℕ × ActiveRequestState K) × Scheduler K :=
  match g.decodeNextToken s.pool row.2.lastToken row.2.nextDecodePosition row.2.cache with
  | .ok (next, cache) => applyDecoded [] s row.1 { row.2 with cache := cache } next
  | .error e => ([], s.retire row.2.cache (row.2.emitError e))

/-- a group of one is decoded by itself -/
def decodeGroup (rows : List (ℕ × ActiveRequestState K)) (s : Scheduler K) :
    List (ℕ × ActiveRequestState K) × Scheduler K :=
  match rows with
  | [] => ([], s)
  | [row] => decodeSingleRow g row s
  | rows => decodeBatchGroup g rows s

def decodeGroups (groups : List (List (ℕ × ActiveRequestState K))) (s : Scheduler K) :
    List (ℕ × ActiveRequestState K) × Scheduler K :=
  groups.foldl (fun r rows => ((r.1 ++ (decodeGroup g rows r.2).1), (decodeGroup g rows r.2).2)) ([], s)

/-- the rows that are left, back in their places -/
def settle (r : List (ℕ × ActiveRequestState K) × Scheduler K) : Scheduler K := { r.2 with active := restore r.1 }

/-- every active row takes one step; `none` is a panic -/
def decodeRound (s : Scheduler K) : Option (Scheduler K) :=
  let s := s.retireBadCachePositions g
  match s.active with
  | [] => some s
  | [row] =>
    let decoded := decodeSingleRow g (0, row) { s with active := [] }
    some { decoded.2 with active := decoded.1.map Prod.snd }
  | rows =>
    if g.deviceDecode || (commonDecodePosition rows).isSome then
      some (settle (decodeBatchGroup g (enumerate rows) { s with active := [] }))
    else
      (takeDecodePositionGroups rows).map fun groups => settle (decodeGroups g groups { s with active := [] })

/-! ## Runs -/

/-- the queue takes what is in the channel -/
def drainPendingSubmissions (s : Scheduler K) (submitted : List GenerateRequest) : Scheduler K :=
  { s with pending := s.pending ++ submitted.map PendingRequest.from }

/-- one round of the loop -/
def round (s : Scheduler K) (submitted : List GenerateRequest) : Option (Scheduler K) :=
  let s := (s.drainPendingSubmissions submitted).admitReadyRequests g
  if s.active.isEmpty then some s else s.decodeRound g

def run : List (List GenerateRequest) → Scheduler K → Option (Scheduler K)
  | [], s => some s
  | submitted :: rounds, s =>
    match s.round g submitted with
    | none => none
    | some s => run rounds s

end Scheduler

end Pegainfer.Dsv2Lite
