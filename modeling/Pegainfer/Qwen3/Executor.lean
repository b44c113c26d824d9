/-
The executor interface of the Qwen3 scheduler: what a step hands to the model and what comes back.

`ModelExecutor` is the source's trait over an executor state `E`. A method that changes the executor returns the state
after it, and whatever the model or the devices decide lives inside `E`. Sampling parameters are reduced to what the
scheduler reads of them, and the step's sampling seed is part of the executor.
- `StepError`: a failed call, with the one distinction the scheduler makes: whether a rank worker is gone.
-/
import Mathlib.Tactic
import Pegainfer.Frontend.Ledger

namespace Pegainfer.Qwen3

open Pegainfer.Frontend

/-! ## Requests -/

inductive EosPolicy
  | ignore
  | modelDefault
  | token (id : TokenId)
deriving DecidableEq, Repr

/-- request-scoped stopping; `tokenIds` is sorted and without duplicates in the source, for its binary search -/
structure StopPolicy where
  eos : EosPolicy
  tokenIds : List TokenId
deriving DecidableEq, Repr

/-- end of sequence first, then the request's own stop set -/
def StopPolicy.classify (policy : StopPolicy) (token : TokenId) (isModelEos : TokenId → Bool) : Option StopCause :=
  let isPrimaryEos : Bool :=
    match policy.eos with
    | .ignore => false
    | .modelDefault => isModelEos token
    | .token eos => token == eos
  if isPrimaryEos then some (.eos token)
  else if token ∈ policy.tokenIds then some (.token token)
  else none

/-- the one question the scheduler asks of the sampling parameters -/
structure SamplingParams where
  isGreedy : Bool
deriving DecidableEq, Repr

/-- a request as the frontend submits it -/
structure Request where
  loraAdapter : Option String
  promptTokens : List TokenId
  params : SamplingParams
  stopPolicy : StopPolicy
  maxTokens : ℕ
  logprobs : Option ℕ
  promptLogprobs : Option ℕ
deriving DecidableEq, Repr

/-! ## What a step asks of the model -/

structure PrefillStepItem where
  requestId : RequestId
  promptTokens : List TokenId
  maxOutputTokens : ℕ
  params : SamplingParams
  logprobs : Option ℕ
  promptLogprobs : Option ℕ
  loraAdapter : Option String
  chunkBudget : ℕ
deriving DecidableEq, Repr

structure DecodeStepItem where
  requestId : RequestId
  tokenId : TokenId
  params : SamplingParams
  logprobs : Option ℕ
  loraAdapter : Option String
deriving DecidableEq, Repr

structure DraftStepItem where
  requestId : RequestId
  currentToken : TokenId
  params : SamplingParams
  hedgeBudget : ℕ
deriving DecidableEq, Repr

structure VerifyStepItem where
  requestId : RequestId
  tokenIds : List TokenId
  params : SamplingParams
  stopPolicy : StopPolicy
deriving DecidableEq, Repr

/-! ## What the model answers -/

structure PrefillRequestResult where
  requestId : RequestId
  firstToken : TokenId
  firstTokenLogprob : Option TokenLogprob
  promptLogprobs : Option (List (Option TokenLogprob))
  cachedTokens : Option ℕ
  externalHitTokens : Option ℕ
  completed : Bool
  prefillPos : ℕ
deriving DecidableEq, Repr

structure DecodeRequestResult where
  requestId : RequestId
  token : TokenId
  logprob : Option TokenLogprob
deriving DecidableEq, Repr

structure UnifiedResult where
  prefillRequests : List PrefillRequestResult
  decodeRequests : List DecodeRequestResult
deriving DecidableEq, Repr

/-- the verify-span tokens of one request: its last confirmed token, then the candidates -/
structure DraftRequestResult where
  requestId : RequestId
  tokenIds : List TokenId
deriving DecidableEq, Repr

structure VerifyRequestResult where
  requestId : RequestId
  acceptedTokens : List TokenId
deriving DecidableEq, Repr

/-- a failed executor call -/
structure StepError where
  message : String
  workerLost : Bool
deriving DecidableEq, Repr

inductive LoraControl
  | load (name path : String) (loadInplace : Bool)
  | unload (name : String)
  | list
deriving DecidableEq, Repr

/-! ## The trait -/

class ModelExecutor (E : Type) where
  blockSize : E → ℕ
  maxRequestBlocks : E → ℕ
  maxContextTokens : E → ℕ
  maxDecodeBatchSize : E → ℕ
  availableBlocks : E → ℕ
  isStopToken : E → TokenId → Bool
  /-- every caller only logs its result -/
  dropRequest : E → RequestId → E
  executePrefill : E → List PrefillStepItem → Except StepError (List PrefillRequestResult) × E
  executeDecode : E → List DecodeStepItem → Except StepError (List DecodeRequestResult) × E
  executeUnified : E → List PrefillStepItem → List DecodeStepItem → Except StepError UnifiedResult × E
  executeSpeculativeDraft : E → List DraftStepItem → Except StepError (List DraftRequestResult) × E :=
    fun e _ => (.error ⟨"speculative draft is not implemented for this executor", false⟩, e)
  executeSpeculativeVerify : E → List VerifyStepItem → Bool → Except StepError (List VerifyRequestResult) × E :=
    fun e _ _ => (.error ⟨"speculative verification is not implemented for this executor", false⟩, e)
  speculativeEnabled : E → Bool := fun _ => false
  speculativeRequestReady : E → RequestId → Bool := fun _ _ => false
  maxDraftBatch : E → Option ℕ := fun _ => none
  /-- load, unload or list; the reply goes to the client of the command -/
  handleLora : E → LoraControl → E := fun e _ => e
  listLoraAdapters : E → List String := fun _ => []
  beginKvPrefetch : E → RequestId → List TokenId → Option String → ℕ → Bool × E := fun e _ _ _ _ => (false, e)
  drainReadyPrefetch : E → ℕ → List RequestId × E := fun e _ => ([], e)
  waitReadyPrefetch : E → ℕ → List RequestId × E := fun e _ => ([], e)
  prefetchedBlocks : E → RequestId → ℕ := fun _ _ => 0
  withholdsFinishes : E → Bool := fun _ => false
  hasDecodeOverlap : E → Bool := fun _ => false
  pollAsyncPrefill : E → Option (List PrefillRequestResult) × E := fun e => (none, e)

end Pegainfer.Qwen3
