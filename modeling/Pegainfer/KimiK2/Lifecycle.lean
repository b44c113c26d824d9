/-
What the two Kimi-K2 schedulers share: requests and the checks before a prefill, the event streams, and the settling of
a sampled token.

A scheduler owns its KV pool and sends each request's events into that request's sink. A receiver that goes away is
seen only by the sends after it, so it is modelled by the number of events it takes. `Outbox` keeps what the run sent
and, for the statements only, what was sampled for each request and how many inactive blocks the registrations of the
run revived. A request's `token_tx` is its number in submission order.
-/
import Mathlib.Tactic
import Pegainfer.KvCache.Reserve

set_option linter.unusedSectionVars false

namespace Pegainfer.KimiK2

open Pegainfer.Kvbm Pegainfer.Kvbm.SchedulableSequence Pegainfer.KvCache

/-! ## Requests -/

/-- an `f32`; the finite ones are rationals -/
inductive F32
  | nan
  | negInf
  | posInf
  | finite (q : ℚ)
deriving DecidableEq, Repr

namespace F32

def isFinite : F32 → Bool
  | .finite _ => true
  | _ => false

def lt : F32 → ℚ → Bool
  | .finite x, y => decide (x < y)
  | .negInf, _ => true
  | _, _ => false

def le : F32 → ℚ → Bool
  | .finite x, y => decide (x ≤ y)
  | .negInf, _ => true
  | _, _ => false

def gt : F32 → ℚ → Bool
  | .finite x, y => decide (y < x)
  | .posInf, _ => true
  | _, _ => false

end F32

structure SamplingParams where
  temperature : F32
  topK : ℤ
  topP : F32
  ignoreEos : Bool
deriving DecidableEq, Repr

/-- the `f32` literal `1e-5` -/
def greedyTemperature : ℚ := 10995116 / 2 ^ 40

def SamplingParams.isGreedy (p : SamplingParams) : Bool := p.temperature.lt greedyTemperature || decide (p.topK = 1)

structure GenerateRequest where
  tokenTx : ℕ
  promptTokens : List Token
  params : SamplingParams
  maxTokens : ℕ
  logprobs : Option ℕ
  promptLogprobs : Option ℕ
deriving DecidableEq, Repr

structure KimiRowOptions where
  logprobs : Option ℕ
  sampling : SamplingParams
deriving DecidableEq, Repr

def rowOptions (req : GenerateRequest) : KimiRowOptions := ⟨req.logprobs, req.params⟩

/-! ## Events -/

inductive FinishReason
  | stop
  | length
deriving DecidableEq, Repr

/-- the messages of a rejection, with the numbers they spell out -/
inductive Rejection
  | emptyPrompt
  | promptLogprobs
  | temperature (got : F32)
  | topP (got : F32)
  | topK (got : ℤ)
  | tp8Sampling
  | tp8Logprobs
  | promptCap (promptTokens maxPrompt : ℕ)
  | requestCapacity (promptTokens maxTokens maxKvTokens : ℕ)
  | poolCapacity (blocks maxKvTokens maxRequestBlocks : ℕ)
deriving DecidableEq, Repr

/-- the messages of an error -/
inductive Failure
  | prefixMatching (r : CallResult)
  | prefillAccounting (r : CallResult)
  | admissionAccounting (r : CallResult)
  | decodeAccounting (r : CallResult)
  | prefillBookkeeping (r : CallResult)
  | admissionBookkeeping (r : CallResult)
  | decodeBookkeeping (r : CallResult)
  | arenaAllocation (decodeBatchSize : ℕ)
  | promptForward (slot : ℕ)
  | admissionForward
  | decodeForward
  | rowsExceedArena (dpRank : ℕ)
deriving DecidableEq, Repr

/-- the message says `accounting violated full-lifetime reservation` -/
def Failure.isAccounting : Failure → Bool
  | .prefillAccounting _ | .admissionAccounting _ | .decodeAccounting _ => true
  | _ => false

inductive TokenEvent
  | scheduled (promptTokens cachedTokens : ℕ)
  | token (id : Token)
  | finished (reason : FinishReason) (promptTokens completionTokens : ℕ)
  | rejected (message : Rejection) (promptTokens completionTokens : ℕ)
  | error (message : Failure) (promptTokens completionTokens : ℕ)
deriving DecidableEq, Repr

namespace TokenEvent

/-- the count a terminal event reports -/
def completionTokens : TokenEvent → Option ℕ
  | .finished _ _ n | .rejected _ _ n | .error _ _ n => some n
  | _ => none

def isTerminal (e : TokenEvent) : Bool := e.completionTokens.isSome

def isAccounting : TokenEvent → Bool
  | .error m _ _ => m.isAccounting
  | _ => false

end TokenEvent

structure Outbox where
  /-- how many events a request's receiver takes before it goes away -/
  limit : ℕ → Option ℕ
  /-- the events sent for a request, those a gone receiver missed included -/
  sent : ℕ → List TokenEvent
  /-- the tokens sampled for a request -/
  sampled : ℕ → List Token
  /-- inactive blocks that registrations made active again -/
  revivals : ℕ

namespace Outbox

def new (limit : ℕ → Option ℕ) : Outbox := ⟨limit, fun _ => [], fun _ => [], 0⟩

/-- a send now would fail -/
def isClosed (o : Outbox) (i : ℕ) : Bool :=
  match o.limit i with
  | none => false
  | some n => decide (n ≤ (o.sent i).length)

def send (o : Outbox) (i : ℕ) (e : TokenEvent) : Outbox := { o with sent := Function.update o.sent i (o.sent i ++ [e]) }

def sample (o : Outbox) (i : ℕ) (t : Token) : Outbox :=
  { o with sampled := Function.update o.sampled i (o.sampled i ++ [t]) }

def revive (o : Outbox) (n : ℕ) : Outbox := { o with revivals := o.revivals + n }

/-- what the request's receiver got -/
def received (o : Outbox) (i : ℕ) : List TokenEvent :=
  match o.limit i with
  | none => o.sent i
  | some n => (o.sent i).take n

end Outbox

/-! ## The checks before a prefill -/

def kimiMaxRequestTokens : ℕ := 8192

def requestMaxKvTokens (req : GenerateRequest) : ℕ := req.promptTokens.length + (req.maxTokens - 1)

def requestLifetimeBlocks (req : GenerateRequest) (blockSize : ℕ) : ℕ :=
  max (divCeil (req.promptTokens.length + req.maxTokens) blockSize) 1

def validateKvCapacity (req : GenerateRequest) (blockSize maxRequestBlocks : ℕ) (maxPromptTokens : Option ℕ) :
    Option Rejection :=
  let maxKvTokens := requestMaxKvTokens req
  let blocks := requestLifetimeBlocks req blockSize
  let capped := match maxPromptTokens with
    | some maxPrompt => if maxPrompt < req.promptTokens.length then some (.promptCap req.promptTokens.length maxPrompt) else none
    | none => none
  match capped with
  | some m => some m
  | none =>
    if kimiMaxRequestTokens < maxKvTokens then
      some (.requestCapacity req.promptTokens.length req.maxTokens maxKvTokens)
    else if maxRequestBlocks < blocks then some (.poolCapacity blocks maxKvTokens maxRequestBlocks)
    else none

def validateSamplingParams (req : GenerateRequest) : Option Rejection :=
  let p := req.params
  if !p.temperature.isFinite || p.temperature.lt 0 then some (.temperature p.temperature)
  else if !p.topP.isFinite || p.topP.le 0 || p.topP.gt 1 then some (.topP p.topP)
  else if p.topK < -1 || decide (p.topK = 0) then some (.topK p.topK)
  else none

inductive UnschedulableVerdict
  | finish
  | reject (message : Rejection)
deriving DecidableEq, Repr

def unschedulableVerdict (req : GenerateRequest) : Option UnschedulableVerdict :=
  if req.maxTokens = 0 then some .finish
  else if req.promptTokens = [] then some (.reject .emptyPrompt)
  else if req.promptLogprobs.isSome then some (.reject .promptLogprobs)
  else (validateSamplingParams req).map .reject

def sendScheduled (req : GenerateRequest) (out : Outbox) : Outbox :=
  out.send req.tokenTx (.scheduled req.promptTokens.length 0)

/-- `send_scheduled`, then the rejection -/
def reject (req : GenerateRequest) (message : Rejection) (out : Outbox) : Outbox :=
  (sendScheduled req out).send req.tokenTx (.rejected message req.promptTokens.length 0)

/-- whether the request goes on; one that does not has had its terminal event -/
def preflightPrefillCandidate (req : GenerateRequest) (out : Outbox) : Bool × Outbox :=
  match unschedulableVerdict req with
  | none => (true, out)
  | some .finish =>
    (false, (sendScheduled req out).send req.tokenTx (.finished .length req.promptTokens.length 0))
  | some (.reject message) => (false, reject req message out)

def tp8RowRefusal (row : KimiRowOptions) : Option Rejection :=
  if !row.sampling.isGreedy then some .tp8Sampling
  else if row.logprobs.isSome then some .tp8Logprobs
  else none

/-! ## A running request -/

variable {H : Type} [DecidableEq H] [BlockHash H]

/-- `token_tx`, `prompt_len`, `max_tokens` and `options` are the request's own, copied when it is installed -/
structure RequestState (H : Type) where
  req : GenerateRequest
  completionTokens : ℕ
  lastToken : Token
  kv : RequestKv H

namespace RequestState

def tokenTx (s : RequestState H) : ℕ := s.req.tokenTx

def promptLen (s : RequestState H) : ℕ := s.req.promptTokens.length

def maxTokens (s : RequestState H) : ℕ := s.req.maxTokens

def options (s : RequestState H) : KimiRowOptions := rowOptions s.req

def futureBlocks (s : RequestState H) (blockSize : ℕ) : ℕ :=
  divCeil (s.promptLen + s.maxTokens) blockSize - divCeil (s.promptLen + (s.completionTokens - 1)) blockSize

end RequestState

/-- the request honours stop tokens and this is one -/
def isStop (stops : List Token) (req : GenerateRequest) (t : Token) : Bool := !req.params.ignoreEos && decide (t ∈ stops)

/-! ## Settling a sampled token

Every path that samples a token applies it to the request's sequence, then suppresses a stop token, sends any other,
and ends the request at its limit. -/

/-- an error event, and the request's blocks are gone -/
def failKv (req : GenerateRequest) (message : Failure) (completionTokens : ℕ) (pool : BlockPool H) (kv : RequestKv H)
    (out : Outbox) : BlockPool H × Outbox :=
  (pool.dropKv kv, out.send req.tokenTx (.error message req.promptTokens.length completionTokens))

/-- the events of a token the sequence has taken, and whether the request goes on: `stopCount` is what the terminal of a
stop token reports, `completionTokens` counts the token -/
def settle (stops : List Token) (req : GenerateRequest) (stopCount completionTokens : ℕ) (token : Token)
    (out : Outbox) : Bool × Outbox :=
  if isStop stops req token then
    (false, out.send req.tokenTx (.finished .stop req.promptTokens.length stopCount))
  else if out.isClosed req.tokenTx then (false, out.send req.tokenTx (.token token))
  else
    let out := out.send req.tokenTx (.token token)
    if req.maxTokens ≤ completionTokens then
      (false, out.send req.tokenTx (.finished .length req.promptTokens.length completionTokens))
    else (true, out)

/-- the first token of a request: a stop token is not counted; a request that ends is dropped at once -/
def settleFirst (stops : List Token) (broken : CallResult → Failure) (req : GenerateRequest) (token : Token)
    (pool : BlockPool H) (kv : RequestKv H) (out : Outbox) :
    Except String (Option (RequestState H) × BlockPool H × Outbox) :=
  let out := out.sample req.tokenTx token
  match pool.call kv (.applyPrefill (some token)) with
  | .error e => .error e
  | .ok (.done, kv', pool') =>
    let out := out.revive (pool.store.revived (kv.registers (.applyPrefill (some token))))
    match settle stops req 0 1 token out with
    | (true, out) => .ok (some ⟨req, 1, token, kv'⟩, pool', out)
    | (false, out) => .ok (none, pool'.dropKv kv', out)
  | .ok (r, kv', pool') => .ok (none, failKv req (broken r) 0 pool' kv' out)

/-- a later token: it is counted before anything else; the request that ends is left to its owner to drop -/
def settleDecode (stops : List Token) (s : RequestState H) (token : Token) (pool : BlockPool H) (out : Outbox) :
    Except String (Bool × RequestState H × BlockPool H × Outbox) :=
  let out := out.sample s.tokenTx token
  let completionTokens := s.completionTokens + 1
  match pool.call s.kv (.applyDecode token) with
  | .error e => .error e
  | .ok (.done, kv', pool') =>
    let out := out.revive (pool.store.revived (s.kv.registers (.applyDecode token)))
    match settle stops s.req completionTokens completionTokens token out with
    | (true, out) => .ok (true, ⟨s.req, completionTokens, token, kv'⟩, pool', out)
    | (false, out) => .ok (false, ⟨s.req, completionTokens, s.lastToken, kv'⟩, pool', out)
  | .ok (r, kv', pool') =>
    .ok (false, ⟨s.req, completionTokens, s.lastToken, kv'⟩, pool',
      out.send s.tokenTx (.error (.decodeBookkeeping r) s.promptLen completionTokens))

/-- the request's sequence with its cached prefix attached and the suffix scheduled; `none` when it was failed -/
def scheduleRequestKv (req : GenerateRequest) (pool : BlockPool H) (out : Outbox) :
    Except String (Option (RequestKv H × ℕ) × BlockPool H × Outbox) :=
  match pool.call (pool.newRequest req.promptTokens req.maxTokens 0) .matchAndAddPrefix with
  | .error e => .error e
  | .ok (.done, kv, pool) =>
    let cachedTokens := kv.prefixMatchedBlocks * pool.blockSize
    match pool.call kv (.schedulePrefill (req.promptTokens.length - cachedTokens)) with
    | .error e => .error e
    | .ok (.done, kv, pool) => .ok (some (kv, cachedTokens), pool, out)
    | .ok (r, kv, pool) => .ok (none, failKv req (.prefillAccounting r) 0 pool kv out)
  | .ok (r, kv, pool) => .ok (none, failKv req (.prefixMatching r) 0 pool kv out)

end Pegainfer.KimiK2
