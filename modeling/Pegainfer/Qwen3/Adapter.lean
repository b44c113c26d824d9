/-
The Qwen3 scheduler behind the frontend contract: its six queues, its step, and the driver loop around it.

A request waits in `deferred`, `loading` or `postControlDeferred`, and runs in `prefilling`, `active` or the in-flight
prefill. The ledger holds its account. A step moves requests between the queues and closes accounts.
- `applyEffects`: one step's effects as ledger writes, executor bookkeeping and queue moves.
- `step`: poll, retire, prefetch, control, admission, plan, execution. `prepare` is everything up to the plan.
- `Engine.step`: submissions, aborts, LoRA commands and driver iterations. A worker lost ends the driver, which writes
  the open accounts off.
A frontend can abort a request at any moment. Each part of the step reads the flag of a request at most once, so the
aborts are given to the step as the ids flagged before each part (`Arrivals`).
-/
import Mathlib.Tactic
import Pegainfer.Lib.SwapRemove
import Pegainfer.Qwen3.Scheduler

namespace Pegainfer.Qwen3

open Pegainfer.Frontend
open Pegainfer.Lib
open ModelExecutor

variable {E : Type} [ModelExecutor E]

structure Qwen3Scheduler (E : Type) where
  executor : E
  maxPrefillTokens : ℕ
  /-- the numeric policy pins chunk boundaries to the request's own length -/
  requestLocal : Bool
  /-- the load gate of speculation -/
  specMaxBatch : ℕ
  deferred : List PendingRequest
  loading : List PendingRequest
  prefilling : List PendingRequest
  active : List ActiveRequestState
  inflightPrefillPending : Option (List PendingRequest)
  /-- commands in the LoRA channel, not yet pulled -/
  loraRx : List LoraControl
  pendingControl : List LoraControl
  postControlDeferred : List PendingRequest
  prefixCacheQueries : ℕ
  prefixCacheHits : ℕ

/-- ids flagged as aborted before each part of a step, and the clock admission reads -/
structure Arrivals where
  polled : List RequestId
  waiting : List RequestId
  admission : List RequestId
  executed : List RequestId
  clock : RequestId → Instant

/-- raise the abort flag of an open account -/
def raiseAbort (l : RequestLedger) (id : RequestId) : RequestLedger :=
  match l.accounts.lookup id with
  | none => l
  | some a => { l with accounts := l.accounts.insert id { a with abort := true } }

def raiseAborts (l : RequestLedger) (ids : List RequestId) : RequestLedger := ids.foldl raiseAbort l

/-- widen a mechanics-side refusal into the contract's reason -/
def contractRejectReason (req : PendingRequest) : AdmissionReject → RejectReason
  | .contextLength limit => .contextLength req.promptTokens.length req.maxTokens limit
  | .echoPrefillTokens limit => .echoPrefillTokens req.promptTokens.length limit
  | .kvBudget => .kvBudget req.promptTokens.length (maxRequestTokens req)

namespace Qwen3Scheduler

def new (e : E) (maxPrefillTokens : ℕ) (requestLocal : Bool) (specMaxBatch : ℕ) : Qwen3Scheduler E where
  executor := e
  maxPrefillTokens := maxPrefillTokens
  requestLocal := requestLocal
  specMaxBatch := specMaxBatch
  deferred := []
  loading := []
  prefilling := []
  active := []
  inflightPrefillPending := none
  loraRx := []
  pendingControl := []
  postControlDeferred := []
  prefixCacheQueries := 0
  prefixCacheHits := 0

def inflightPrefills (s : Qwen3Scheduler E) : List PendingRequest := s.inflightPrefillPending.getD []

def idle (s : Qwen3Scheduler E) : Bool :=
  s.active.isEmpty && s.deferred.isEmpty && s.prefilling.isEmpty && s.inflightPrefillPending.isNone

/-- release what the executor holds for a request -/
def dropRequest (s : Qwen3Scheduler E) (id : RequestId) : Qwen3Scheduler E :=
  { s with executor := ModelExecutor.dropRequest s.executor id }

/-! ## Retirement and failure -/

/-- close an aborted request's account and release its executor state -/
def retireAborted (s : Qwen3Scheduler E) (l : RequestLedger) (id : RequestId) :
    Except String (Qwen3Scheduler E × RequestLedger) := do
  let l ← l.retire id
  .ok (s.dropRequest id, l)

/-- the aborted requests of a queue, and the others -/
def splitAborted (l : RequestLedger) : List PendingRequest → Except String (List PendingRequest × List PendingRequest)
  | [] => .ok ([], [])
  | req :: queue => do
    let aborted ← l.isAborted req.requestId
    let rest ← splitAborted l queue
    .ok (if aborted then (req :: rest.1, rest.2) else (rest.1, req :: rest.2))

def retireAll (s : Qwen3Scheduler E) (l : RequestLedger) :
    List PendingRequest → Except String (Qwen3Scheduler E × RequestLedger)
  | [] => .ok (s, l)
  | req :: reqs => do
    let r ← s.retireAborted l req.requestId
    retireAll r.1 r.2 reqs

/-- retire the aborted requests that have no prefill in flight -/
def retireAbortedWaiting (s : Qwen3Scheduler E) (l : RequestLedger) :
    Except String (Qwen3Scheduler E × RequestLedger) := do
  let queue ← splitAborted l s.deferred
  let r ← retireAll { s with deferred := queue.2 } l queue.1
  let queue ← splitAborted r.2 r.1.postControlDeferred
  let r ← retireAll { r.1 with postControlDeferred := queue.2 } r.2 queue.1
  let queue ← splitAborted r.2 r.1.prefilling
  retireAll { r.1 with prefilling := queue.2 } r.2 queue.1

/-- fail the batch an execution error touched, then clear the running set -/
def failTouchedRequests (s : Qwen3Scheduler E) (l : RequestLedger) (message : String) :
    List RequestId → Except String (Qwen3Scheduler E × RequestLedger)
  | [] => .ok ({ s with active := [] }, l)
  | id :: targets => do
    let l ← if l.isActive id then l.fail id message else .ok l
    failTouchedRequests (s.dropRequest id) l message targets

/-- a step failure kills its batch; a lost worker is passed on to the driver -/
def absorbStepFailure (s : Qwen3Scheduler E) (l : RequestLedger) (targets : List RequestId) (err : StepError) :
    Except String (Except StepError Unit × Qwen3Scheduler E × RequestLedger) :=
  if err.workerLost then .ok (.error err, s, l)
  else do
    let r ← s.failTouchedRequests l err.message targets
    .ok (.ok (), r.1, r.2)

/-! ## Effects -/

/-- the state of the loops of `applyEffects` -/
structure Applying (E : Type) where
  scheduler : Qwen3Scheduler E
  ledger : RequestLedger
  finishes : List (RequestId × FinishReason × Option StopCause)
  toRetire : List ℕ
  continued : List PendingRequest

namespace Applying

/-- retire an aborted request's account, or push its last tokens and note its finish for the end of the step -/
def closeOrFinish (a : Applying E) (id : RequestId) (tokens : List TokenId) (logprobs : List (Option TokenLogprob))
    (reason : FinishReason) (cause : Option StopCause) : Except String (Applying E) :=
  if a.ledger.isActive id then do
    let aborted ← a.ledger.isAborted id
    if aborted then
      let l ← a.ledger.retire id
      .ok { a with ledger := l }
    else
      let l ← a.ledger.pushTokens id tokens logprobs
      .ok { a with ledger := l, finishes := a.finishes ++ [(id, reason, cause)] }
  else .ok a

def drop (a : Applying E) (id : RequestId) : Applying E := { a with scheduler := a.scheduler.dropRequest id }

def position (a : Applying E) (id : RequestId) : Option ℕ :=
  a.scheduler.active.findIdx? fun req => req.requestId == id

/-- the `Finish` and `FinishMany` effects -/
def decodeFinish (a : Applying E) (id : RequestId) (tokens : List TokenId) (logprobs : List (Option TokenLogprob))
    (reason : FinishReason) (cause : Option StopCause) : Except String (Applying E) :=
  match a.position id with
  | none => .ok a
  | some index => do
    let a ← a.closeOrFinish id tokens logprobs reason cause
    .ok { a.drop id with toRetire := a.toRetire ++ [index] }

/-- the `Continue` and `ContinueMany` effects -/
def decodeContinue (a : Applying E) (id : RequestId) (tokens : List TokenId) (logprobs : List (Option TokenLogprob))
    (completionTokens : ℕ) : Except String (Applying E) :=
  match a.position id with
  | none => .ok a
  | some index => do
    let aborted ← a.ledger.isAborted id
    if aborted then
      let r ← a.scheduler.retireAborted a.ledger id
      .ok { a with scheduler := r.1, ledger := r.2, toRetire := a.toRetire ++ [index] }
    else
      let l ← a.ledger.pushTokens id tokens logprobs
      match tokens.getLast? with
      | some last =>
        let active := a.scheduler.active.modify index fun req =>
          { req with lastToken := last, generatedCount := completionTokens }
        .ok { a with scheduler := { a.scheduler with active := active }, ledger := l }
      | none => .ok { a with ledger := l }

def applyDecode (a : Applying E) : DecodeEffect → Except String (Applying E)
  | .finish id token logprob reason cause => a.decodeFinish id [token] [logprob] reason cause
  | .continueOne id token logprob completionTokens => a.decodeContinue id [token] [logprob] completionTokens
  | .continueMany id tokens completionTokens => a.decodeContinue id tokens [] completionTokens
  | .finishMany id tokens reason cause => a.decodeFinish id tokens [] reason cause

/-- drop the finished and retired rows, highest index first -/
def removeRetired (a : Applying E) : Except String (Applying E) := do
  let indices := (a.toRetire.insertionSort (· ≤ ·)).dedup
  let active ← swapRemoveAll a.scheduler.active indices.reverse
  .ok { a with scheduler := { a.scheduler with active := active } }

def applyPending (a : Applying E) : PendingEffect → Except String (Applying E)
  | .continuePrefill req => do
    let aborted ← a.ledger.isAborted req.requestId
    if aborted then
      let r ← a.scheduler.retireAborted a.ledger req.requestId
      .ok { a with scheduler := r.1, ledger := r.2 }
    else .ok { a with continued := a.continued ++ [req] }
  | .emitAndFinish id token logprob reason cause => do
    let a ← a.closeOrFinish id [token] [logprob] reason cause
    .ok (a.drop id)
  | .promote state firstToken logprob => do
    let aborted ← a.ledger.isAborted state.requestId
    if aborted then
      let r ← a.scheduler.retireAborted a.ledger state.requestId
      .ok { a with scheduler := r.1, ledger := r.2 }
    else
      let l ← a.ledger.pushTokens state.requestId [firstToken] [logprob]
      .ok { a with scheduler := { a.scheduler with active := a.scheduler.active ++ [state] }, ledger := l }

end Applying

/-- report the prefix-cache hits of first chunks -/
def reportCached (l : RequestLedger) (cached : RequestId × ℕ) : Except String RequestLedger :=
  if l.isActive cached.1 then l.setCachedTokens cached.1 cached.2 else .ok l

def reportEcho (l : RequestLedger) (echo : RequestId × PromptEcho) : Except String RequestLedger :=
  if l.isActive echo.1 then l.echoPrompt echo.1 echo.2 else .ok l

/-- close the finished accounts; a withholding executor takes each finish with its record and delivers it later -/
def deliverFinish (e : E) (l : RequestLedger) (f : RequestId × FinishReason × Option StopCause) :
    Except String RequestLedger :=
  if withholdsFinishes e then do
    let r ← l.deferFinishWithCause f.1 f.2.1 f.2.2
    .ok r.2
  else l.finishWithCause f.1 f.2.1 f.2.2

/-- one step's effects as ledger writes, executor bookkeeping and queue moves -/
def applyEffects (s : Qwen3Scheduler E) (l : RequestLedger) (effects : StepEffects) :
    Except String (Qwen3Scheduler E × RequestLedger) := do
  let s := { s with
    prefixCacheQueries := s.prefixCacheQueries + effects.prefixQueries
    prefixCacheHits := s.prefixCacheHits + effects.prefixHits }
  let l ← effects.cached.foldlM reportCached l
  let l ← effects.promptEchoes.foldlM reportEcho l
  let a ← effects.decode.foldlM Applying.applyDecode (⟨s, l, [], [], []⟩ : Applying E)
  let a ← a.removeRetired
  let a ← effects.pending.foldlM Applying.applyPending a
  let s := { a.scheduler with prefilling := a.continued ++ a.scheduler.prefilling }
  let l ← a.finishes.foldlM (deliverFinish s.executor) a.ledger
  .ok (s, l)

/-! ## The parts of a step -/

/-- pull the queued LoRA commands -/
def pullControl (s : Qwen3Scheduler E) : Qwen3Scheduler E :=
  { s with pendingControl := s.pendingControl ++ s.loraRx, loraRx := [] }

/-- resolve the in-flight prefill once it has completed -/
def pollInflight (s : Qwen3Scheduler E) (l : RequestLedger) : Except String (Qwen3Scheduler E × RequestLedger) :=
  match s.inflightPrefillPending with
  | none => .ok (s, l)
  | some pending =>
    let polled := pollAsyncPrefill s.executor
    match polled.1 with
    | none => .ok ({ s with executor := polled.2 }, l)
    | some result => do
      let s := { s with executor := polled.2, inflightPrefillPending := none }
      let effects ← resolveStep s.executor s.active (.prefill pending result)
      s.applyEffects l effects

/-- reclaim settled prefetches, then offer fresh requests unless a command is pending -/
def prefetch (s : Qwen3Scheduler E) : Qwen3Scheduler E :=
  let reserveFloor := admittedFutureBlocks s.executor s.active s.prefilling s.inflightPrefills
  let drained := drainReadyPrefetch s.executor reserveFloor
  let promoted := promoteReady s.deferred s.loading drained.1
  let s := { s with executor := drained.2, deferred := promoted.1, loading := promoted.2 }
  if s.pendingControl.isEmpty then
    let offered := offerPrefetch s.executor reserveFloor s.deferred
    { s with executor := offered.2.2, deferred := offered.1, loading := s.loading ++ offered.2.1 }
  else s

/-- once idle, apply the pending commands and release the requests behind them -/
def applyControl (s : Qwen3Scheduler E) : Qwen3Scheduler E :=
  if s.idle then
    { s with
      executor := s.pendingControl.foldl handleLora s.executor
      pendingControl := []
      deferred := s.deferred ++ s.postControlDeferred
      postControlDeferred := [] }
  else s

/-- nothing runnable: wait on a prefetch -/
def blockOnLoading (s : Qwen3Scheduler E) : Qwen3Scheduler E :=
  if s.loading.isEmpty then s
  else
    let reserveFloor := admittedFutureBlocks s.executor s.active s.prefilling s.inflightPrefills
    let ready := waitReadyPrefetch s.executor reserveFloor
    let promoted := promoteReady s.deferred s.loading ready.1
    { s with executor := ready.2, deferred := promoted.1, loading := promoted.2 }

/-- refuse a queued request -/
def rejectPending (s : Qwen3Scheduler E) (l : RequestLedger) (req : PendingRequest) (reason : RejectReason) :
    Except String (Qwen3Scheduler E × RequestLedger) := do
  let l ← l.reject req.requestId reason
  .ok (s.dropRequest req.requestId, l)

def rejectAll (s : Qwen3Scheduler E) (l : RequestLedger) :
    List (PendingRequest × RejectReason) → Except String (Qwen3Scheduler E × RequestLedger)
  | [] => .ok (s, l)
  | (req, reason) :: rejected => do
    let r ← s.rejectPending l req reason
    rejectAll r.1 r.2 rejected

/-- admit on the ledger, or retire a request aborted while it waited -/
def admitOrRetire (s : Qwen3Scheduler E) (l : RequestLedger) (req : PendingRequest) (now : Instant) :
    Except String (Qwen3Scheduler E × RequestLedger) := do
  let aborted ← l.isAborted req.requestId
  if aborted then s.retireAborted l req.requestId
  else
    let l ← l.admitRequest req.requestId now
    .ok ({ s with prefilling := s.prefilling ++ [req] }, l)

def admitAll (s : Qwen3Scheduler E) (l : RequestLedger) (clock : RequestId → Instant) :
    List PendingRequest → Except String (Qwen3Scheduler E × RequestLedger)
  | [] => .ok (s, l)
  | req :: pending => do
    let r ← s.admitOrRetire l req (clock req.requestId)
    admitAll r.1 r.2 clock pending

/-- the admission verdicts on the deferred queue -/
def admission (s : Qwen3Scheduler E) (deferred : List PendingRequest) : AdmissionOutcome :=
  admitDeferredRequests deferred s.active s.prefilling s.inflightPrefills
    ⟨blockSize s.executor, maxRequestBlocks s.executor, maxContextTokens s.executor, s.maxPrefillTokens⟩
    (availableBlocks s.executor) (maxDecodeBatchSize s.executor) (prefetchedBlocks s.executor)

/-- validate and admit; every verdict closes the request's queued account or moves it to `prefilling` -/
def admitQueued (s : Qwen3Scheduler E) (l : RequestLedger) (clock : RequestId → Instant) :
    Except String (Qwen3Scheduler E × RequestLedger) := do
  let lora := rejectUnknownLoraRequests s.deferred s.executor
  let r ← rejectAll { s with deferred := [] } l
    (lora.2.map fun req => (req, .unknownLoraAdapter (req.loraAdapter.getD "")))
  let outcome := r.1.admission lora.1
  let r ← rejectAll r.1 r.2 (outcome.rejected.map fun rejected =>
    (rejected.1, contractRejectReason rejected.1 rejected.2))
  admitAll { r.1 with deferred := outcome.deferred } r.2 clock outcome.pending

/-- take the step's prefill chunks and choose its plan; while a prefill is in flight only decode runs -/
def nextPlan (s : Qwen3Scheduler E) : Qwen3Scheduler E × Option ExecutionPlan :=
  if s.inflightPrefillPending.isSome then (s, runtimePlanAt s.executor s.active [] s.specMaxBatch)
  else
    let taken := takePrefillChunks s.prefilling s.maxPrefillTokens s.requestLocal
    ({ s with prefilling := taken.2 }, runtimePlanAt s.executor s.active taken.1 s.specMaxBatch)

/-- the step up to its plan; no plan when nothing is runnable -/
def prepare (s : Qwen3Scheduler E) (l : RequestLedger) (arrivals : Arrivals) :
    Except String (Qwen3Scheduler E × RequestLedger × Option ExecutionPlan) := do
  let r ← s.pullControl.pollInflight (raiseAborts l arrivals.polled)
  let r ← r.1.retireAbortedWaiting (raiseAborts r.2 arrivals.waiting)
  let s := r.1.prefetch.applyControl
  if s.idle then .ok (s.blockOnLoading, r.2, none)
  else
    let r ← s.admitQueued (raiseAborts r.2 arrivals.admission) arrivals.clock
    let next := r.1.nextPlan
    .ok (next.1, r.2, next.2)

/-- run a plan: the overlapped unified plan leaves its prefill in flight -/
def execute (s : Qwen3Scheduler E) (l : RequestLedger) (plan : ExecutionPlan) :
    Except String (Except StepError Unit × Qwen3Scheduler E × RequestLedger) := do
  let targets := failureTargetIds s.active plan
  let inflight : Option (List PendingRequest) :=
    match plan with
    | .unified pending =>
      if hasDecodeOverlap s.executor && s.inflightPrefillPending.isNone then some pending else none
    | _ => none
  let ran ← executePlan s.executor s.active plan
  let s := { s with executor := ran.2 }
  match ran.1 with
  | .error err => s.absorbStepFailure l targets err
  | .ok artifacts =>
    let effects ← resolveStep s.executor s.active artifacts
    let r ← s.applyEffects l effects
    match inflight with
    | some pending => .ok (.ok (), { r.1 with inflightPrefillPending := some pending }, r.2)
    | none => .ok (.ok (), r.1, r.2)

def step (s : Qwen3Scheduler E) (l : RequestLedger) (arrivals : Arrivals) :
    Except String (Except StepError Unit × Qwen3Scheduler E × RequestLedger) := do
  let r ← s.prepare l arrivals
  match r.2.2 with
  | none => .ok (.ok (), r.1, r.2.1)
  | some plan => r.1.execute (raiseAborts r.2.1 arrivals.executed) plan

/-- a submission behind a pending command waits for the command -/
def submit (s : Qwen3Scheduler E) (id : RequestId) (request : Request) : Qwen3Scheduler E :=
  let pending := PendingRequest.fromRequest id request
  if s.pendingControl.isEmpty then { s with deferred := s.deferred ++ [pending] }
  else { s with postControlDeferred := s.postControlDeferred ++ [pending] }

end Qwen3Scheduler

/-! ## The driver -/

/-- the driver thread's state; the scheduler is gone once the driver has wound down -/
structure Engine (E : Type) where
  scheduler : Option (Qwen3Scheduler E)
  ledger : RequestLedger

inductive EngineOp
  | submit (id : RequestId) (aborted : Bool) (queuedAt : Instant) (request : Request)
  | abort (id : RequestId)
  | control (command : LoraControl)
  | iterate (arrivals : Arrivals) (metricsChanged : Bool)

namespace Engine

def new (s : Qwen3Scheduler E) : Engine E := ⟨some s, RequestLedger.new⟩

def step (g : Engine E) : EngineOp → Except String (Engine E)
  | .submit id aborted queuedAt request =>
    match g.scheduler with
    | none => .ok g
    | some s => do
      let l ← g.ledger.register id ⟨aborted, request.promptTokens, queuedAt⟩
      .ok ⟨some (s.submit id request), l⟩
  | .abort id => .ok { g with ledger := raiseAbort g.ledger id }
  | .control command =>
    .ok { g with scheduler := g.scheduler.map fun s => { s with loraRx := s.loraRx ++ [command] } }
  | .iterate arrivals metricsChanged =>
    match g.scheduler with
    | none => .ok g
    | some s => do
      let r ← s.step g.ledger arrivals
      let l := (r.2.2.commitStep metricsChanged).1
      match r.1 with
      | .ok () => .ok ⟨some r.2.1, l⟩
      | .error err =>
        let l ← l.failAll ("engine fatal: " ++ err.message) l.accounts.keys
        .ok ⟨none, (l.commitStep false).1⟩

end Engine

end Pegainfer.Qwen3
