/-
Scheduling mechanics of Qwen3: queues of pending requests, prefill chunking, prefetch parking, admission arithmetic,
plan selection, and the resolution of executor results into effects.

Everything here is pure. A panic of the source is an error carrying its text.
- `takePrefillChunks`: the next prefill step off the prefilling queue.
- `admitDeferredRequests`: who is admitted, deferred or rejected under the block budget and the decode slots.
- `runtimePlanAt`, `failureTargetIds`, `executePlan`: which plan runs, and whom its failure kills.
- `resolveStep`: what an executor result means for each request.
-/
import Mathlib.Tactic
import Pegainfer.Kvbm.Sequence
import Pegainfer.Qwen3.Executor

namespace Pegainfer.Qwen3

open Pegainfer.Frontend
open Pegainfer.Kvbm (divCeil)
open ModelExecutor

variable {E : Type} [ModelExecutor E]

/-! ## Request records -/

/-- a request being decoded -/
structure ActiveRequestState where
  requestId : RequestId
  loraAdapter : Option String
  lastToken : TokenId
  generatedCount : ℕ
  maxTokens : ℕ
  promptLen : ℕ
  params : SamplingParams
  stopPolicy : StopPolicy
  logprobs : Option ℕ
deriving DecidableEq, Repr

/-- a request between submission and promotion -/
structure PendingRequest where
  requestId : RequestId
  loraAdapter : Option String
  promptTokens : List TokenId
  params : SamplingParams
  stopPolicy : StopPolicy
  maxTokens : ℕ
  logprobs : Option ℕ
  promptLogprobs : Option ℕ
  prefetchOffered : Bool
  prefillPos : ℕ
  stepChunk : ℕ
deriving DecidableEq, Repr

namespace PendingRequest

def fromRequest (id : RequestId) (req : Request) : PendingRequest where
  requestId := id
  loraAdapter := req.loraAdapter
  promptTokens := req.promptTokens
  params := req.params
  stopPolicy := req.stopPolicy
  maxTokens := req.maxTokens
  logprobs := req.logprobs
  promptLogprobs := req.promptLogprobs
  prefetchOffered := false
  prefillPos := 0
  stepChunk := 0

def remainingPromptTokens (req : PendingRequest) : ℕ := req.promptTokens.length - req.prefillPos

end PendingRequest

/-! ## Prefill chunking -/

/-- the chunk a request takes at the current budget, `none` when it skips the step -/
def prefillChunk (maxPrefillTokens : ℕ) (requestLocal : Bool) (budget : ℕ) (req : PendingRequest) : Option ℕ :=
  let remaining := req.remainingPromptTokens
  if req.promptLogprobs.isSome then
    if remaining > budget then none else some remaining
  else if requestLocal then
    let desired := min remaining maxPrefillTokens
    if desired > budget then none else some desired
  else some (min remaining budget)

/-- the selection loop: the requests taken, and the queue left -/
def selectChunks (maxPrefillTokens : ℕ) (requestLocal : Bool) :
    ℕ → List PendingRequest → List PendingRequest × List PendingRequest
  | _, [] => ([], [])
  | budget, req :: queue =>
    if budget = 0 then ([], req :: queue)
    else
      match prefillChunk maxPrefillTokens requestLocal budget req with
      | none =>
        let rest := selectChunks maxPrefillTokens requestLocal budget queue
        (rest.1, req :: rest.2)
      | some chunk =>
        let rest := selectChunks maxPrefillTokens requestLocal (budget - chunk) queue
        ({ req with stepChunk := chunk } :: rest.1, rest.2)

/-- the step's requests in request-id order, and the queue left -/
def takePrefillChunks (prefilling : List PendingRequest) (maxPrefillTokens : ℕ) (requestLocal : Bool) :
    List PendingRequest × List PendingRequest :=
  let selected := selectChunks maxPrefillTokens requestLocal maxPrefillTokens prefilling
  (selected.1.insertionSort fun a b => a.requestId ≤ b.requestId, selected.2)

/-! ## KV prefetch parking -/

/-- move each settled request from `loading` to the front of `deferred`; (deferred, loading) -/
def promoteReady (deferred loading : List PendingRequest) :
    List RequestId → List PendingRequest × List PendingRequest
  | [] => (deferred, loading)
  | id :: ready =>
    match loading.find? fun p => p.requestId == id with
    | some p => promoteReady (p :: deferred) (loading.eraseP fun p => p.requestId == id) ready
    | none => promoteReady deferred loading ready

/-- offer each fresh request to the prefetcher; (kept, parked, executor) -/
def offerPrefetch (e : E) (reserveFloor : ℕ) : List PendingRequest → List PendingRequest × List PendingRequest × E
  | [] => ([], [], e)
  | req :: deferred =>
    if req.prefetchOffered = false ∧ req.promptLogprobs = none then
      let req := { req with prefetchOffered := true }
      let begun := beginKvPrefetch e req.requestId req.promptTokens req.loraAdapter reserveFloor
      let rest := offerPrefetch begun.2 reserveFloor deferred
      if begun.1 then (rest.1, req :: rest.2.1, rest.2.2) else (req :: rest.1, rest.2.1, rest.2.2)
    else
      let rest := offerPrefetch e reserveFloor deferred
      (req :: rest.1, rest.2.1, rest.2.2)

/-! ## Admission -/

/-- a mechanics-side refusal -/
inductive AdmissionReject
  | contextLength (limit : ℕ)
  | echoPrefillTokens (limit : ℕ)
  | kvBudget
deriving DecidableEq, Repr

structure AdmissionOutcome where
  pending : List PendingRequest
  deferred : List PendingRequest
  rejected : List (PendingRequest × AdmissionReject)
deriving DecidableEq, Repr

/-- the adapter a request names and the executor does not have -/
def unknownLora (loaded : List String) (req : PendingRequest) : Option String :=
  req.loraAdapter.filter fun name => !decide (name ∈ loaded)

/-- requests naming no missing adapter, and the others -/
def rejectUnknownLoraRequests (deferred : List PendingRequest) (e : E) : List PendingRequest × List PendingRequest :=
  if deferred.any fun req => req.loraAdapter.isSome then
    deferred.partition fun req => (unknownLora (listLoraAdapters e) req).isNone
  else (deferred, [])

def blocksNeeded (tokenCount blockSize : ℕ) : ℕ := divCeil tokenCount blockSize

def maxRequestTokens (req : PendingRequest) : ℕ := req.promptTokens.length + (req.maxTokens - 1)

def currentActiveTokens (req : ActiveRequestState) : ℕ := req.promptLen + (req.generatedCount - 1)

/-- pool blocks a request can draw over its life; a one-token completion never decodes -/
def requestLifetimeBlocks (promptLen maxTokens blockSize : ℕ) : ℕ :=
  let lifetimeTokens := if maxTokens ≤ 1 then promptLen else promptLen + maxTokens
  max (divCeil lifetimeTokens blockSize) 1

def pendingLifetimeBlocks (req : PendingRequest) (blockSize : ℕ) : ℕ :=
  requestLifetimeBlocks req.promptTokens.length req.maxTokens blockSize

def activeLifetimeBlocks (req : ActiveRequestState) (blockSize : ℕ) : ℕ :=
  requestLifetimeBlocks req.promptLen req.maxTokens blockSize

def activeFutureBlocks (active : List ActiveRequestState) (blockSize : ℕ) : ℕ :=
  (active.map fun req =>
    activeLifetimeBlocks req blockSize - blocksNeeded (currentActiveTokens req) blockSize).sum

def promptLogprobsExceedsPrefillBound (req : PendingRequest) (maxPrefillTokens : ℕ) : Bool :=
  req.promptLogprobs.isSome && decide (req.promptTokens.length > maxPrefillTokens)

/-- an in-flight prefill already holds its launched chunk -/
def prefillingFutureBlocks (prefilling inflight : List PendingRequest) (blockSize : ℕ)
    (prefetchCredit : RequestId → ℕ) : ℕ :=
  let owed := fun (req : PendingRequest) (allocatedTokens : ℕ) =>
    pendingLifetimeBlocks req blockSize - blocksNeeded allocatedTokens blockSize - prefetchCredit req.requestId
  (prefilling.map fun req => owed req req.prefillPos).sum +
    (inflight.map fun req => owed req (req.prefillPos + req.stepChunk)).sum

/-- free blocks already promised to admitted requests -/
def admittedFutureBlocks (e : E) (active : List ActiveRequestState) (prefilling inflight : List PendingRequest) : ℕ :=
  activeFutureBlocks active (blockSize e) +
    prefillingFutureBlocks prefilling inflight (blockSize e) (prefetchedBlocks e)

/-- the limits admission reads -/
structure AdmissionLimits where
  blockSize : ℕ
  maxRequestBlocks : ℕ
  maxContextTokens : ℕ
  maxPrefillTokens : ℕ
deriving DecidableEq, Repr

/-- the admission loop under the remaining block budget and decode slots -/
def admitLoop (limits : AdmissionLimits) (prefetchCredit : RequestId → ℕ) :
    ℕ → ℕ → List PendingRequest → AdmissionOutcome
  | _, _, [] => ⟨[], [], []⟩
  | budget, decodeSlots, req :: deferred =>
    let footprint := pendingLifetimeBlocks req limits.blockSize
    let freshNeeded := footprint - prefetchCredit req.requestId
    if req.promptTokens.length + req.maxTokens > limits.maxContextTokens then
      let rest := admitLoop limits prefetchCredit budget decodeSlots deferred
      { rest with rejected := (req, .contextLength limits.maxContextTokens) :: rest.rejected }
    else if promptLogprobsExceedsPrefillBound req limits.maxPrefillTokens then
      let rest := admitLoop limits prefetchCredit budget decodeSlots deferred
      { rest with rejected := (req, .echoPrefillTokens limits.maxPrefillTokens) :: rest.rejected }
    else if footprint > limits.maxRequestBlocks then
      let rest := admitLoop limits prefetchCredit budget decodeSlots deferred
      { rest with rejected := (req, .kvBudget) :: rest.rejected }
    else if freshNeeded ≤ budget ∧ decodeSlots > 0 then
      let rest := admitLoop limits prefetchCredit (budget - freshNeeded) (decodeSlots - 1) deferred
      { rest with pending := req :: rest.pending }
    else
      let rest := admitLoop limits prefetchCredit budget decodeSlots deferred
      { rest with deferred := req :: rest.deferred }

def admitDeferredRequests (deferred : List PendingRequest) (active : List ActiveRequestState)
    (prefilling inflight : List PendingRequest) (limits : AdmissionLimits) (availableBlocks maxDecodeBatchSize : ℕ)
    (prefetchCredit : RequestId → ℕ) : AdmissionOutcome :=
  let budget := availableBlocks - activeFutureBlocks active limits.blockSize -
    prefillingFutureBlocks prefilling inflight limits.blockSize prefetchCredit
  let decodeSlots := maxDecodeBatchSize - active.length - prefilling.length - inflight.length
  admitLoop limits prefetchCredit budget decodeSlots deferred

/-! ## Plan selection -/

inductive ExecutionPlan
  | prefill (pending : List PendingRequest)
  | decode
  | speculativeDecode
  | gatedSpeculativeDecode
  | unified (pending : List PendingRequest)
deriving DecidableEq, Repr

def buildNextPlan (haveActive : Bool) (pending : List PendingRequest) (speculative : Bool) : Option ExecutionPlan :=
  let needsPromptLogprobs := pending.any fun req => req.promptLogprobs.isSome
  let needsDflashCapture := speculative && pending.any fun r => r.loraAdapter.isNone && r.logprobs.isNone
  if !pending.isEmpty && haveActive && !needsPromptLogprobs && !needsDflashCapture then some (.unified pending)
  else if !pending.isEmpty then some (.prefill pending)
  else if haveActive then some .decode
  else none

inductive SpeculationDecision
  | speculate
  | gated
  | notReady
deriving DecidableEq, Repr

/-- all or nothing: a single request that is not draft-ready falls the batch back to plain decode -/
def speculationDecisionAt (e : E) (active : List ActiveRequestState) (maxBatch : ℕ) : SpeculationDecision :=
  if !speculativeEnabled e || active.isEmpty then .notReady
  else if (maxDraftBatch e).any fun limit => decide (active.length > limit) then .notReady
  else if !(active.all fun req =>
      speculativeRequestReady e req.requestId && req.loraAdapter.isNone && req.logprobs.isNone) then .notReady
  else if maxBatch > 0 ∧ active.length ≥ maxBatch then .gated
  else .speculate

def runtimePlanAt (e : E) (active : List ActiveRequestState) (pending : List PendingRequest) (maxBatch : ℕ) :
    Option ExecutionPlan :=
  match speculationDecisionAt e active maxBatch with
  | .speculate => if pending.isEmpty then some .speculativeDecode else some (.prefill pending)
  | .gated => if pending.isEmpty then some .gatedSpeculativeDecode else some (.prefill pending)
  | .notReady => buildNextPlan (!active.isEmpty) pending (speculativeEnabled e)

/-- the requests a plan's execution failure kills -/
def failureTargetIds (active : List ActiveRequestState) : ExecutionPlan → List RequestId
  | .prefill pending => pending.map (·.requestId)
  | .decode | .speculativeDecode | .gatedSpeculativeDecode => active.map (·.requestId)
  | .unified pending => active.map (·.requestId) ++ pending.map (·.requestId)

/-! ## Plan execution -/

inductive ExecutionArtifacts
  | prefill (pending : List PendingRequest) (result : List PrefillRequestResult)
  | decode (result : List DecodeRequestResult)
  | speculativeDecode (verify : List VerifyRequestResult)
  | unified (pending : List PendingRequest) (result : UnifiedResult)
deriving DecidableEq, Repr

def buildPrefillItem (r : PendingRequest) : PrefillStepItem :=
  ⟨r.requestId, r.promptTokens, r.maxTokens, r.params, r.logprobs, r.promptLogprobs, r.loraAdapter, r.stepChunk⟩

def buildDecodeItem (r : ActiveRequestState) : DecodeStepItem :=
  ⟨r.requestId, r.lastToken, r.params, r.logprobs, r.loraAdapter⟩

/-- only greedy requests may hedge -/
def buildSpeculativeDraftItem (r : ActiveRequestState) : DraftStepItem :=
  ⟨r.requestId, r.lastToken, r.params, if r.params.isGreedy then r.maxTokens - r.generatedCount else 0⟩

/-- the verify spans, each clamped to its request's remaining output budget -/
def buildSpeculativeVerifyItems (active : List ActiveRequestState) :
    List DraftRequestResult → Except String (List VerifyStepItem)
  | [] => .ok []
  | draft :: drafts =>
    match active.find? fun req => req.requestId == draft.requestId with
    | none => .error "draft request_id must exist in active set"
    | some req => do
      let rest ← buildSpeculativeVerifyItems active drafts
      .ok (⟨draft.requestId, draft.tokenIds.take (req.maxTokens - req.generatedCount), req.params, req.stopPolicy⟩ ::
        rest)

/-- one-token verify spans: the confirmed last token and nothing else -/
def buildGatedVerifyItem (r : ActiveRequestState) : VerifyStepItem :=
  ⟨r.requestId, [r.lastToken], r.params, r.stopPolicy⟩

/-- run the plan; its results come back in request-id order -/
def executePlan (e : E) (active : List ActiveRequestState) :
    ExecutionPlan → Except String (Except StepError ExecutionArtifacts × E)
  | .prefill pending =>
    let r := executePrefill e (pending.map buildPrefillItem)
    .ok (r.1.map fun result =>
      .prefill pending (result.insertionSort fun a b => a.requestId ≤ b.requestId), r.2)
  | .decode =>
    let r := executeDecode e (active.map buildDecodeItem)
    .ok (r.1.map fun result => .decode (result.insertionSort fun a b => a.requestId ≤ b.requestId), r.2)
  | .speculativeDecode =>
    let d := executeSpeculativeDraft e (active.map buildSpeculativeDraftItem)
    match d.1 with
    | .error err => .ok (.error err, d.2)
    | .ok draft => do
      let items ← buildSpeculativeVerifyItems active (draft.insertionSort fun a b => a.requestId ≤ b.requestId)
      let v := executeSpeculativeVerify d.2 items false
      .ok (v.1.map fun verify =>
        .speculativeDecode (verify.insertionSort fun a b => a.requestId ≤ b.requestId), v.2)
  | .gatedSpeculativeDecode =>
    let v := executeSpeculativeVerify e (active.map buildGatedVerifyItem) true
    .ok (v.1.map fun verify =>
      .speculativeDecode (verify.insertionSort fun a b => a.requestId ≤ b.requestId), v.2)
  | .unified pending =>
    let r := executeUnified e (pending.map buildPrefillItem) (active.map buildDecodeItem)
    .ok (r.1.map fun result => .unified pending
      ⟨result.prefillRequests.insertionSort fun a b => a.requestId ≤ b.requestId,
        result.decodeRequests.insertionSort fun a b => a.requestId ≤ b.requestId⟩, r.2)

/-! ## Effects -/

inductive PendingEffect
  | emitAndFinish (requestId : RequestId) (token : TokenId) (logprob : Option TokenLogprob)
      (finishReason : FinishReason) (stopCause : Option StopCause)
  | promote (state : ActiveRequestState) (firstToken : TokenId) (logprob : Option TokenLogprob)
  | continuePrefill (req : PendingRequest)
deriving DecidableEq, Repr

inductive DecodeEffect
  | finish (requestId : RequestId) (token : TokenId) (logprob : Option TokenLogprob) (finishReason : FinishReason)
      (stopCause : Option StopCause)
  | continueOne (requestId : RequestId) (token : TokenId) (logprob : Option TokenLogprob) (completionTokens : ℕ)
  | continueMany (requestId : RequestId) (tokens : List TokenId) (completionTokens : ℕ)
  | finishMany (requestId : RequestId) (tokens : List TokenId) (finishReason : FinishReason)
      (stopCause : Option StopCause)
deriving DecidableEq, Repr

structure StepEffects where
  cached : List (RequestId × ℕ)
  promptEchoes : List (RequestId × PromptEcho)
  pending : List PendingEffect
  decode : List DecodeEffect
  prefixQueries : ℕ
  prefixHits : ℕ
deriving DecidableEq, Repr

namespace StepEffects

def empty : StepEffects := ⟨[], [], [], [], 0, 0⟩

/-- the effects of one more request before those of the others -/
def append (a b : StepEffects) : StepEffects :=
  ⟨a.cached ++ b.cached, a.promptEchoes ++ b.promptEchoes, a.pending ++ b.pending, a.decode ++ b.decode,
    a.prefixQueries + b.prefixQueries, a.prefixHits + b.prefixHits⟩

end StepEffects

/-! ## Resolution -/

def classifyStop (e : E) (policy : StopPolicy) (token : TokenId) : Option StopCause :=
  policy.classify token (isStopToken e)

/-- what the accepted span means: walk it up to a stop token or the output budget -/
def walkSpan (e : E) (req : ActiveRequestState) (emitted : List TokenId) (completionTokens : ℕ) :
    List TokenId → DecodeEffect
  | [] => .continueMany req.requestId emitted completionTokens
  | token :: span =>
    let completionTokens := completionTokens + 1
    let emitted := emitted ++ [token]
    match classifyStop e req.stopPolicy token with
    | some cause => .finishMany req.requestId emitted .stop (some cause)
    | none =>
      if completionTokens ≥ req.maxTokens then .finishMany req.requestId emitted .length none
      else walkSpan e req emitted completionTokens span

def resolveSpeculativeOutputs (e : E) (active : List ActiveRequestState) :
    List VerifyRequestResult → Except String (List DecodeEffect)
  | [] => .ok []
  | result :: results =>
    match active.find? fun req => req.requestId == result.requestId with
    | none => .error "speculative request_id must exist in active set"
    | some req => do
      let rest ← resolveSpeculativeOutputs e active results
      .ok (walkSpan e req [] req.generatedCount result.acceptedTokens :: rest)

def resolveDecodeOutput (e : E) (req : ActiveRequestState) (result : DecodeRequestResult) : DecodeEffect :=
  let completionTokens := req.generatedCount + 1
  match classifyStop e req.stopPolicy result.token with
  | some cause => .finish result.requestId result.token result.logprob .stop (some cause)
  | none =>
    if completionTokens ≥ req.maxTokens then .finish result.requestId result.token result.logprob .length none
    else .continueOne result.requestId result.token result.logprob completionTokens

def resolveDecodeOutputs (e : E) (active : List ActiveRequestState) :
    List DecodeRequestResult → Except String (List DecodeEffect)
  | [] => .ok []
  | result :: results =>
    match active.find? fun req => req.requestId == result.requestId with
    | none => .error "decode request_id must exist in active set"
    | some req => do
      let rest ← resolveDecodeOutputs e active results
      .ok (resolveDecodeOutput e req result :: rest)

/-- what one prefill answer does to its request -/
def resolvePrefillOutcome (e : E) (req : PendingRequest) (result : PrefillRequestResult) : PendingEffect :=
  if !result.completed then .continuePrefill { req with prefillPos := result.prefillPos }
  else
    match classifyStop e req.stopPolicy result.firstToken with
    | some cause => .emitAndFinish req.requestId result.firstToken result.firstTokenLogprob .stop (some cause)
    | none =>
      if req.maxTokens ≤ 1 then
        .emitAndFinish req.requestId result.firstToken result.firstTokenLogprob .length none
      else
        .promote ⟨req.requestId, req.loraAdapter, result.firstToken, 1, req.maxTokens, req.promptTokens.length,
          req.params, req.stopPolicy, req.logprobs⟩ result.firstToken result.firstTokenLogprob

/-- the effects of one prefill answer; the cache counters are reported on the first chunk only -/
def resolvePrefillOutput (e : E) (req : PendingRequest) (result : PrefillRequestResult) : StepEffects where
  cached := if req.prefillPos = 0 then [(req.requestId, result.cachedTokens.getD 0)] else []
  promptEchoes :=
    match result.completed, result.promptLogprobs with
    | true, some logprobs => [(req.requestId, ⟨req.promptTokens, logprobs⟩)]
    | _, _ => []
  pending := [resolvePrefillOutcome e req result]
  decode := []
  prefixQueries := if req.prefillPos = 0 ∧ result.cachedTokens.isSome then req.promptTokens.length else 0
  prefixHits :=
    match result.cachedTokens with
    | some matched => if req.prefillPos = 0 then matched - result.externalHitTokens.getD 0 else 0
    | none => 0

/-- results are matched to requests positionally; an excess on either side is dropped -/
def resolvePrefillOutputs (e : E) : List PendingRequest → List PrefillRequestResult → Except String StepEffects
  | req :: pending, result :: results =>
    if req.requestId = result.requestId then do
      let rest ← resolvePrefillOutputs e pending results
      .ok ((resolvePrefillOutput e req result).append rest)
    else .error "assertion `left == right` failed"
  | _, _ => .ok StepEffects.empty

def resolveStep (e : E) (active : List ActiveRequestState) : ExecutionArtifacts → Except String StepEffects
  | .prefill pending result => resolvePrefillOutputs e pending result
  | .decode result => do
    let decode ← resolveDecodeOutputs e active result
    .ok { StepEffects.empty with decode := decode }
  | .speculativeDecode verify => do
    let decode ← resolveSpeculativeOutputs e active verify
    .ok { StepEffects.empty with decode := decode }
  | .unified pending result => do
    let effects ← resolvePrefillOutputs e pending result.prefillRequests
    let decode ← resolveDecodeOutputs e active result.decodeRequests
    .ok { effects with decode := decode }

end Pegainfer.Qwen3
