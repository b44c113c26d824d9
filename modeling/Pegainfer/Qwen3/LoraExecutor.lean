/-
The Qwen3 executor with LoRA serving, prefix cache and host tier, down to the adapter weights behind each KV row.

LoRA serving excludes a drafter and decode overlap, so prefill, decode and the unified step are all there is. A block's
lineage hash is taken as what it covers (`BlockName`): the adapter's name, which salts it, and the token prefix. A
block is the value its registered rows hold; which inactive blocks an allocation displaces, what the model samples, what
an adapter file holds and how the ranks and the host tier answer is the device's answer to the call (`DeviceAnswer`).
- `RankModel`: the adapters of one rank, `installLoraAdapter`, `uninstallLoraAdapter`, `discardLoraAdapter`.
- `schedulePrefillChunk`, `executePrefill`, `executeDecode`, `executeUnified`: matching, computing and registering KV.
- `beginKvPrefetch`, `drainReadyPrefetch`, `waitReadyPrefetch`: restoring KV from the host tier.
- `loadLoraAdapter`, `unloadLoraAdapter`: the control commands, which leave all KV where it is.
-/
import Mathlib.Tactic
import Pegainfer.Qwen3.Adapter

namespace Pegainfer.Qwen3

open Pegainfer.Frontend
open Pegainfer.Kvbm (divCeil)

/-! ## The adapters of a rank -/

/-- the packed decode slots by name, and the adapter registry; `W` is a rank's shard of an adapter -/
structure RankModel (W : Type) where
  slotNames : List (Option String)
  loraAdapters : List (String × W)
deriving DecidableEq, Repr

namespace RankModel

variable {W : Type}

def slotFor (r : RankModel W) (name : String) : Option ℕ := r.slotNames.findIdx? fun s => s == some name

def slotForInstall (r : RankModel W) (name : String) (loadInplace : Bool) : Except String ℕ :=
  match r.slotFor name with
  | some slot => if loadInplace then .ok slot else .error ("Qwen3 LoRA adapter " ++ name ++ " is already loaded")
  | none =>
    match r.slotNames.findIdx? fun s => s.isNone with
    | some slot => .ok slot
    | none => .error "Qwen3 LoRA adapter capacity exceeded"

def bindSlot (r : RankModel W) (slot : ℕ) (name : String) : RankModel W :=
  { r with slotNames := r.slotNames.set slot (some name) }

def releaseSlot (r : RankModel W) (name : String) : RankModel W :=
  { r with slotNames := r.slotNames.map fun s => if s = some name then none else s }

def removeAdapter (r : RankModel W) (name : String) : RankModel W :=
  { r with loraAdapters := r.loraAdapters.filter fun a => a.1 ≠ name }

/-- `updated`: whether the device took the packed slot -/
def installLoraAdapter (r : RankModel W) (name : String) (adapter : W) (loadInplace updated : Bool) :
    Except String Unit × RankModel W :=
  match r.slotForInstall name loadInplace with
  | .error s => (.error s, r)
  | .ok slot =>
    if !updated then
      -- the old adapter's slot is half overwritten: it goes
      let removed := r.removeAdapter name
      (.error ("failed to update packed LoRA slot for adapter " ++ name ++
          "; adapter was removed to keep packed decode state consistent"),
        if r.slotFor name = some slot then removed.releaseSlot name else removed)
    else if !loadInplace && r.loraAdapters.any fun a => a.1 == name then
      (.error ("Qwen3 LoRA adapter " ++ name ++ " is already loaded"), r)
    else
      let replaced := r.removeAdapter name
      (.ok (), { replaced with loraAdapters := (name, adapter) :: replaced.loraAdapters }.bindSlot slot name)

/-- `cleared`: whether the device cleared the packed slot -/
def uninstallLoraAdapter (r : RankModel W) (name : String) (cleared : Bool) : Except String Unit × RankModel W :=
  match r.slotFor name with
  | none => (.error ("Qwen3 LoRA adapter " ++ name ++ " is not loaded"), r)
  | some _ =>
    if !cleared then (.error ("failed to clear packed LoRA slot for adapter " ++ name), r)
    else (.ok (), (r.releaseSlot name).removeAdapter name)

def discardLoraAdapter (r : RankModel W) (name : String) : RankModel W :=
  (if (r.slotFor name).isSome then r.releaseSlot name else r).removeAdapter name

end RankModel

/-! ## KV -/

/-- what a block's lineage hash covers: the salt, which is the adapter's name, and the tokens up to the block's end -/
structure BlockName where
  lora : Option String
  tokens : List TokenId
deriving DecidableEq, Repr

/-- what a KV row was computed with: each rank's shard of the request's adapter, `none` for the base model alone -/
abbrev RowWeights (W : Type) := List (Option W)

/-- a registered block; a row is `none` when its KV was still missing at registration -/
structure KvBlock (W : Type) where
  name : BlockName
  rows : List (Option (RowWeights W))
deriving DecidableEq, Repr

/-- a request's KV; `rows` are those of the positions computed so far -/
structure RequestKv (W : Type) where
  loraName : Option String
  tokens : List TokenId
  numInputTokens : ℕ
  assigned : List (KvBlock W)
  prefixMatchedBlocks : ℕ
  rows : List (Option (RowWeights W))
deriving DecidableEq, Repr

namespace RequestKv

variable {W : Type}

def new (promptTokens : List TokenId) (loraName : Option String) : RequestKv W :=
  ⟨loraName, promptTokens, promptTokens.length, [], 0, []⟩

def kvPosition (kv : RequestKv W) : ℕ := kv.rows.length

def blockName (kv : RequestKv W) (blockSize i : ℕ) : BlockName := ⟨kv.loraName, kv.tokens.take ((i + 1) * blockSize)⟩

def allBlockNames (kv : RequestKv W) (blockSize : ℕ) : List BlockName :=
  (List.range (kv.tokens.length / blockSize)).map (kv.blockName blockSize)

/-- matching leaves at least one input token to prefill -/
def maxMatchedBlocks (kv : RequestKv W) (blockSize : ℕ) : ℕ := (kv.numInputTokens - 1) / blockSize

/-- take the matched blocks over; the positions they cover are computed -/
def addPrefix (kv : RequestKv W) (matched : List (KvBlock W)) : RequestKv W :=
  { kv with
    assigned := matched
    prefixMatchedBlocks := matched.length
    rows := matched.flatMap KvBlock.rows }

/-- the forward computes the next `n` positions -/
def write (kv : RequestKv W) (n : ℕ) (weights : RowWeights W) : RequestKv W :=
  { kv with rows := kv.rows ++ List.replicate n (some weights) }

def block (kv : RequestKv W) (blockSize i : ℕ) : KvBlock W :=
  ⟨kv.blockName blockSize i, (List.range blockSize).map fun r => kv.rows[i * blockSize + r]?.join⟩

/-- registration goes by complete token blocks, as far as blocks are drawn -/
def pendingBlocks (kv : RequestKv W) (blockSize : ℕ) : List (KvBlock W) :=
  let complete := min (kv.tokens.length / blockSize) (divCeil kv.kvPosition blockSize)
  (List.range' kv.assigned.length (complete - kv.assigned.length)).map (kv.block blockSize)

def register (kv : RequestKv W) (blockSize : ℕ) : RequestKv W :=
  { kv with assigned := kv.assigned ++ kv.pendingBlocks blockSize }

def appendToken (kv : RequestKv W) (token : Option TokenId) : RequestKv W :=
  { kv with tokens := kv.tokens ++ token.toList }

end RequestKv

/-- a prefix probe with its load: `loading` are the blocks on their way from the host tier, `none` once committed -/
structure PrefetchState (W : Type) where
  gpuHitBlocks : ℕ
  held : List (KvBlock W)
  loading : Option (List (KvBlock W))
deriving DecidableEq, Repr

/-! ## The executor -/

inductive RankAnswer
  | done
  | deviceError
  | lost
deriving DecidableEq, Repr

/-- how the devices, the host tier and the file system answer one call -/
structure DeviceAnswer (W : Type) where
  availableBlocks : ℕ
  /-- the inactive blocks that the call's allocations displace -/
  victims : BlockName → Bool
  /-- the saved blocks that the host tier gives up -/
  tierVictims : BlockName → Bool
  allocationFailure : RequestId → Option String
  stepFailure : Option StepError
  token : RequestId → TokenId
  logprob : RequestId → Option TokenLogprob
  promptLogprobs : RequestId → Option (List (Option TokenLogprob))
  /-- the adapter under a path, sharded for the ranks -/
  adapter : String → Except String (ℕ → W)
  rank : ℕ → RankAnswer
  /-- the blocks the host tier leases for a query -/
  query : Except String (List (KvBlock W))
  loadSubmitted : Bool
  /-- how the loads in flight came out, `none` for one still running -/
  landed : RequestId → Option Bool

structure LoraExecutor (W : Type) where
  blockSize : ℕ
  maxRequestBlocks : ℕ
  maxContextTokens : ℕ
  maxDecodeBatchSize : ℕ
  stopTokenIds : List TokenId
  maxLoras : ℕ
  prefixCacheRequested : Bool
  l1RetentionDisabled : Bool
  offload : Bool
  /-- the primary first -/
  ranks : List (RankModel W)
  loadedLoraAdapters : List String
  requestKvs : AList fun _ : RequestId => RequestKv W
  prefetch : AList fun _ : RequestId => PrefetchState W
  /-- the primary block of each registered name, in use or inactive -/
  registered : List (KvBlock W)
  /-- the blocks saved to the host tier -/
  hosted : List (KvBlock W)
  savedCursor : AList fun _ : RequestId => ℕ
  connectorConsulted : List RequestId
  devices : ℕ → DeviceAnswer W
  calls : ℕ

namespace LoraExecutor

variable {W : Type}

/-- how this call is answered -/
def answer (e : LoraExecutor W) : DeviceAnswer W := e.devices e.calls

/-- the call is over; the host tier may have given up saved blocks meanwhile -/
def nextCall (e : LoraExecutor W) : LoraExecutor W :=
  { e with
    hosted := e.hosted.filter fun b => !e.answer.tierVictims b.name
    calls := e.calls + 1 }

/-- LoRA serving excludes a drafter -/
def prefixCacheEnabled (e : LoraExecutor W) : Bool := e.prefixCacheRequested

def retainsCompletedKvBlocks (e : LoraExecutor W) : Bool := e.prefixCacheEnabled && !e.l1RetentionDisabled

/-! ### Blocks -/

/-- some request or prefetch holds a block of the name, and with it the name's primary -/
def holds (e : LoraExecutor W) (name : BlockName) : Bool :=
  (e.requestKvs.entries.any fun r => r.2.assigned.any fun b => b.name == name) ||
    e.prefetch.entries.any fun p => p.2.held.any fun b => b.name == name

/-- inactive blocks leave the cache -/
def evict (e : LoraExecutor W) (victims : BlockName → Bool) : LoraExecutor W :=
  { e with registered := e.registered.filter fun b => e.holds b.name || !victims b.name }

/-- walks the names left to right, stopping at the first that is not registered -/
def matchBlocks (e : LoraExecutor W) : List BlockName → List (KvBlock W)
  | [] => []
  | name :: names =>
    match e.registered.find? fun b => b.name == name with
    | none => []
    | some b => b :: e.matchBlocks names

/-- the first registration of a name is its primary; a later one stays with its holder -/
def registerBlock (e : LoraExecutor W) (b : KvBlock W) : LoraExecutor W :=
  if e.registered.any fun x => x.name == b.name then e else { e with registered := e.registered ++ [b] }

def registerBlocks (e : LoraExecutor W) (bs : List (KvBlock W)) : LoraExecutor W := bs.foldl registerBlock e

/-! ### Prefill and decode -/

structure ScheduledChunk where
  requestId : RequestId
  loraAdapter : Option String
  promptLen : ℕ
  chunkStart : ℕ
  chunkTokens : ℕ
  cachedTokens : Option ℕ
  externalHitTokens : Option ℕ
deriving DecidableEq, Repr

/-- a request's first chunk creates its KV over the matched prefix; (cached tokens, external hit tokens) -/
def openRequest (e : LoraExecutor W) (req : PrefillStepItem) : (Option ℕ × Option ℕ) × LoraExecutor W :=
  match e.requestKvs.lookup req.requestId with
  | some _ => ((none, none), e)
  | none =>
    let fresh : RequestKv W := .new req.promptTokens req.loraAdapter
    let matching := e.prefixCacheEnabled && req.promptLogprobs.isNone
    let kv :=
      if matching then
        fresh.addPrefix ((e.matchBlocks (fresh.allBlockNames e.blockSize)).take (fresh.maxMatchedBlocks e.blockSize))
      else fresh
    let cached := kv.prefixMatchedBlocks * e.blockSize
    let external :=
      match e.prefetch.lookup req.requestId with
      | none => 0
      | some state =>
        min ((state.held.length - state.gpuHitBlocks) * e.blockSize) (cached - state.gpuHitBlocks * e.blockSize)
    ((if matching then some cached else none,
        if matching && decide (req.requestId ∈ e.connectorConsulted) then some external else none),
      { e with
        requestKvs := e.requestKvs.insert req.requestId kv
        prefetch := e.prefetch.erase req.requestId
        connectorConsulted := e.connectorConsulted.filter fun id => id ≠ req.requestId })

def schedulePrefillChunk (e : LoraExecutor W) (req : PrefillStepItem) :
    Except StepError ScheduledChunk × LoraExecutor W :=
  let opened := e.openRequest req
  let chunkStart := ((opened.2.requestKvs.lookup req.requestId).map RequestKv.kvPosition).getD 0
  let remaining := req.promptTokens.length - chunkStart
  let chunkTokens := if req.promptLogprobs.isSome then remaining else min remaining req.chunkBudget
  if chunkTokens = 0 then (.error ⟨"zero-token prefill chunk", true⟩, opened.2)
  else
    match e.answer.allocationFailure req.requestId with
    | some s => (.error ⟨"schedule_prefill failed: " ++ s, false⟩, opened.2)
    | none =>
      (.ok ⟨req.requestId, req.loraAdapter, req.promptTokens.length, chunkStart, chunkTokens, opened.1.1, opened.1.2⟩,
        opened.2.evict e.answer.victims)

def schedulePrefills (e : LoraExecutor W) :
    List PrefillStepItem → Except StepError (List ScheduledChunk) × LoraExecutor W
  | [] => (.ok [], e)
  | req :: reqs =>
    let r := e.schedulePrefillChunk req
    match r.1 with
    | .error s => (.error s, r.2)
    | .ok chunk =>
      let rest := r.2.schedulePrefills reqs
      (rest.1.map fun chunks => chunk :: chunks, rest.2)

def scheduleDecodes (e : LoraExecutor W) : List DecodeStepItem → Except StepError Unit × LoraExecutor W
  | [] => (.ok (), e)
  | req :: reqs =>
    if (e.requestKvs.lookup req.requestId).isNone then (.error ⟨"missing RequestKv", false⟩, e)
    else
      match e.answer.allocationFailure req.requestId with
      | some s => (.error ⟨"schedule_decode failed: " ++ s, false⟩, e)
      | none => (e.evict e.answer.victims).scheduleDecodes reqs

/-- what every rank has installed for a request's rows; a rank without the adapter fails its forward -/
def installedOn (ranks : List (RankModel W)) : Option String → Option (RowWeights W)
  | none => some (ranks.map fun _ => none)
  | some name => (ranks.mapM fun r : RankModel W => r.loraAdapters.lookup name).map fun shards => shards.map some

def installed (e : LoraExecutor W) : Option String → Option (RowWeights W) := installedOn e.ranks

/-- the forward over rows of these adapters, on all ranks -/
def runStep (e : LoraExecutor W) (loras : List (Option String)) : Except StepError Unit :=
  match loras.find? fun lora => (e.installed lora).isNone with
  | some lora => .error ⟨"Qwen3 LoRA adapter " ++ lora.getD "" ++ " is not loaded", false⟩
  | none =>
    match e.answer.stepFailure with
    | some err => .error err
    | none => .ok ()

/-- the forward's rows, the blocks they complete, and the sampled token -/
def applyRows (e : LoraExecutor W) (id : RequestId) (lora : Option String) (n : ℕ) (token : Option TokenId) :
    LoraExecutor W :=
  match e.requestKvs.lookup id, e.installed lora with
  | some kv, some weights =>
    let kv := kv.write n weights
    { e.registerBlocks (kv.pendingBlocks e.blockSize) with
      requestKvs := e.requestKvs.insert id ((kv.register e.blockSize).appendToken token) }
  | _, _ => e

def completed (chunk : ScheduledChunk) : Bool := decide (chunk.promptLen ≤ chunk.chunkStart + chunk.chunkTokens)

def applyPrefillResult (e : LoraExecutor W) (a : DeviceAnswer W) (chunk : ScheduledChunk) : LoraExecutor W :=
  e.applyRows chunk.requestId chunk.loraAdapter chunk.chunkTokens
    (if completed chunk then some (a.token chunk.requestId) else none)

def applyDecodeResult (e : LoraExecutor W) (a : DeviceAnswer W) (req : DecodeStepItem) : LoraExecutor W :=
  e.applyRows req.requestId req.loraAdapter 1 (some (a.token req.requestId))

/-- what sealed since the request's last save goes to the host tier -/
def saveSealedBlocks (e : LoraExecutor W) (id : RequestId) : LoraExecutor W :=
  if !e.offload then e
  else
    match e.requestKvs.lookup id with
    | none => e
    | some kv =>
      let cursor := (e.savedCursor.lookup id).getD kv.prefixMatchedBlocks
      { e with
        hosted := e.hosted ++ kv.assigned.drop cursor
        savedCursor := e.savedCursor.insert id (max cursor kv.assigned.length) }

def prefillResult (a : DeviceAnswer W) (chunk : ScheduledChunk) : PrefillRequestResult where
  requestId := chunk.requestId
  firstToken := a.token chunk.requestId
  firstTokenLogprob := a.logprob chunk.requestId
  promptLogprobs := a.promptLogprobs chunk.requestId
  cachedTokens := chunk.cachedTokens
  externalHitTokens := chunk.externalHitTokens
  completed := completed chunk
  prefillPos := chunk.chunkStart + chunk.chunkTokens

def decodeResult (a : DeviceAnswer W) (req : DecodeStepItem) : DecodeRequestResult :=
  ⟨req.requestId, a.token req.requestId, a.logprob req.requestId⟩

def executeUnified (e : LoraExecutor W) (prefills : List PrefillStepItem) (decodes : List DecodeStepItem) :
    Except StepError UnifiedResult × LoraExecutor W :=
  let a := e.answer
  let p := e.schedulePrefills prefills
  match p.1 with
  | .error s => (.error s, p.2.nextCall)
  | .ok chunks =>
    let d := p.2.scheduleDecodes decodes
    match d.1 with
    | .error s => (.error s, d.2.nextCall)
    | .ok () =>
      match d.2.runStep (chunks.map ScheduledChunk.loraAdapter ++ decodes.map DecodeStepItem.loraAdapter) with
      | .error s => (.error s, d.2.nextCall)
      | .ok () =>
        let e := chunks.foldl (fun e chunk => e.applyPrefillResult a chunk) d.2
        let e := decodes.foldl (fun e req => e.applyDecodeResult a req) e
        let e := (chunks.map ScheduledChunk.requestId ++ decodes.map DecodeStepItem.requestId).foldl saveSealedBlocks e
        (.ok ⟨chunks.map (prefillResult a), decodes.map (decodeResult a)⟩, e.nextCall)

/-- the unified step without decode rows -/
def executePrefill (e : LoraExecutor W) (items : List PrefillStepItem) :
    Except StepError (List PrefillRequestResult) × LoraExecutor W :=
  let r := e.executeUnified items []
  (r.1.map UnifiedResult.prefillRequests, r.2)

/-- the unified step without prefill rows -/
def executeDecode (e : LoraExecutor W) (items : List DecodeStepItem) :
    Except StepError (List DecodeRequestResult) × LoraExecutor W :=
  let r := e.executeUnified [] items
  (r.1.map UnifiedResult.decodeRequests, r.2)

/-! ### Release -/

/-- without retention the request's primaries go with their last holder; a load in flight is waited for -/
def dropRequest (e : LoraExecutor W) (id : RequestId) : LoraExecutor W :=
  let names :=
    match e.requestKvs.lookup id with
    | some kv => if e.retainsCompletedKvBlocks then [] else kv.assigned.map KvBlock.name
    | none => []
  let e := { e with requestKvs := e.requestKvs.erase id }
  let e := e.evict fun name => decide (name ∈ names)
  { e with
    prefetch := e.prefetch.erase id
    savedCursor := e.savedCursor.erase id
    connectorConsulted := e.connectorConsulted.filter fun i => i ≠ id }.nextCall

/-! ### Prefetch from the host tier -/

/-- what the tier leases: saved blocks, answering the query's names in order -/
def leased (e : LoraExecutor W) [DecidableEq W] (names : List BlockName) (answered : List (KvBlock W)) :
    List (KvBlock W) :=
  ((names.zip answered).takeWhile fun p => p.2.name == p.1 && decide (p.2 ∈ e.hosted)).map Prod.snd

def beginKvPrefetch [DecidableEq W] (e : LoraExecutor W) (id : RequestId) (promptTokens : List TokenId)
    (loraAdapter : Option String) (reserveFloor : ℕ) : Bool × LoraExecutor W :=
  let a := e.answer
  if !e.offload || !e.prefixCacheEnabled then (false, e)
  else
    let e := if e.l1RetentionDisabled then e.evict fun _ => true else e
    let probe : RequestKv W := .new promptTokens loraAdapter
    let names := probe.allBlockNames e.blockSize
    let held := e.matchBlocks names
    let query := (names.take (probe.maxMatchedBlocks e.blockSize)).drop held.length
    if query.isEmpty then (false, e.nextCall)
    else
      let e := { e with connectorConsulted := id :: e.connectorConsulted }
      match a.query with
      | .error _ => (false, e.nextCall)
      | .ok answered =>
        let hit := e.leased query answered
        -- no hit, blocks promised to admitted requests, or a refused reservation or load
        if hit.isEmpty || decide (a.availableBlocks - reserveFloor < hit.length) || !a.loadSubmitted then
          (false, e.nextCall)
        else
          let e := { e with prefetch := e.prefetch.insert id ⟨held.length, held, some hit⟩ }
          (true, (e.evict a.victims).nextCall)

/-- a landed load is registered and held; a failed one leaves the request to prefill from scratch -/
def settlePrefetch (e : LoraExecutor W) (id : RequestId) (state : PrefetchState W) (hit : List (KvBlock W))
    (landed : Bool) : LoraExecutor W :=
  if landed then
    { e.registerBlocks hit with
      prefetch := e.prefetch.insert id { state with held := state.held ++ hit, loading := none } }
  else { e with prefetch := e.prefetch.erase id }

/-- settle the loads among `ids` that came out -/
def drainLoads (e : LoraExecutor W) (landed : RequestId → Option Bool) :
    List RequestId → List RequestId × LoraExecutor W
  | [] => ([], e)
  | id :: ids =>
    match e.prefetch.lookup id with
    | some ⟨gpuHit, held, some hit⟩ =>
      match landed id with
      | none => e.drainLoads landed ids
      | some ok =>
        let rest := (e.settlePrefetch id ⟨gpuHit, held, some hit⟩ hit ok).drainLoads landed ids
        (id :: rest.1, rest.2)
    | _ => e.drainLoads landed ids

def drainReadyPrefetch (e : LoraExecutor W) (_reserveFloor : ℕ) : List RequestId × LoraExecutor W :=
  let r := e.drainLoads e.answer.landed e.prefetch.keys
  (r.1, r.2.nextCall)

/-- block on the first load in flight, then sweep the others -/
def waitReadyPrefetch (e : LoraExecutor W) (_reserveFloor : ℕ) : List RequestId × LoraExecutor W :=
  let a := e.answer
  let first := e.prefetch.keys.find? fun id => ((e.prefetch.lookup id).bind PrefetchState.loading).isSome
  let landed := fun id => if some id = first then some ((a.landed id).getD true) else a.landed id
  let r := e.drainLoads landed (first.toList ++ e.prefetch.keys)
  (r.1, r.2.nextCall)

/-! ### LoRA control -/

def ensureLoraCapacity (e : LoraExecutor W) (name : String) (loadInplace : Bool) : Except String Unit :=
  if name ∈ e.loadedLoraAdapters then
    if loadInplace then .ok () else .error ("Qwen3 LoRA adapter " ++ name ++ " is already loaded")
  else if e.loadedLoraAdapters.length < e.maxLoras then .ok ()
  else
    .error ("Qwen3 LoRA adapter capacity exceeded: max_loras=" ++ toString e.maxLoras ++ ", loaded_adapters=" ++
      toString e.loadedLoraAdapters.length ++ ", requested=" ++ name)

/-- one call on every rank, the ranks numbered from `i`; whether all succeeded, and the ranks after it -/
def onRanks (a : DeviceAnswer W) (call : ℕ → Bool → RankModel W → Except String Unit × RankModel W) :
    ℕ → List (RankModel W) → Bool × List (RankModel W)
  | _, [] => (true, [])
  | i, r :: rs =>
    let rest := onRanks a call (i + 1) rs
    match a.rank i with
    | .lost => (false, r :: rest.2)
    | outcome =>
      let called := call i (outcome == .done) r
      (called.1.isOk && rest.1, called.2 :: rest.2)

def loadLoraAdapter (e : LoraExecutor W) (name path : String) (loadInplace : Bool) :
    Except String Unit × LoraExecutor W :=
  let a := e.answer
  match e.ensureLoraCapacity name loadInplace, a.adapter path with
  | .error s, _ => (.error s, e.nextCall)
  | .ok (), .error s => (.error s, e.nextCall)
  | .ok (), .ok shards =>
    if a.rank 0 = .lost then (.error "rank 0: LoRA load channel closed", e.nextCall)
    else
      let loaded := onRanks a (fun i updated r => r.installLoraAdapter name (shards i) loadInplace updated) 0 e.ranks
      if loaded.1 then
        (.ok (), { e with ranks := loaded.2, loadedLoraAdapters := e.loadedLoraAdapters.insert name }.nextCall)
      else
        let discarded := onRanks a (fun _ _ r => (.ok (), r.discardLoraAdapter name)) 0 loaded.2
        (.error ("failed to load Qwen3 LoRA adapter " ++ name ++ " on tensor-parallel ranks"),
          { e with
            ranks := discarded.2
            loadedLoraAdapters :=
              if discarded.1 then e.loadedLoraAdapters.erase name else e.loadedLoraAdapters }.nextCall)

def unloadLoraAdapter (e : LoraExecutor W) (name : String) : Except String Unit × LoraExecutor W :=
  let a := e.answer
  if a.rank 0 = .lost then (.error "rank 0: LoRA unload channel closed", e.nextCall)
  else
    let unloaded := onRanks a (fun _ cleared r => r.uninstallLoraAdapter name cleared) 0 e.ranks
    if unloaded.1 then
      (.ok (), { e with ranks := unloaded.2, loadedLoraAdapters := e.loadedLoraAdapters.erase name }.nextCall)
    else
      (.error ("failed to unload Qwen3 LoRA adapter " ++ name ++ " on tensor-parallel ranks"),
        { e with ranks := unloaded.2 }.nextCall)

def handleLora (e : LoraExecutor W) : LoraControl → LoraExecutor W
  | .load name path loadInplace => (e.loadLoraAdapter name path loadInplace).2
  | .unload name => (e.unloadLoraAdapter name).2
  | .list => e

end LoraExecutor

open LoraExecutor in
instance {W : Type} [DecidableEq W] : ModelExecutor (LoraExecutor W) where
  blockSize e := e.blockSize
  maxRequestBlocks e := e.maxRequestBlocks
  maxContextTokens e := e.maxContextTokens
  maxDecodeBatchSize e := e.maxDecodeBatchSize
  availableBlocks e := e.answer.availableBlocks
  isStopToken e token := decide (token ∈ e.stopTokenIds)
  dropRequest e id := e.dropRequest id
  executePrefill e items := e.executePrefill items
  executeDecode e items := e.executeDecode items
  executeUnified e prefills decodes := e.executeUnified prefills decodes
  handleLora e command := e.handleLora command
  listLoraAdapters e := e.loadedLoraAdapters
  beginKvPrefetch e id prompt lora floor := e.beginKvPrefetch id prompt lora floor
  drainReadyPrefetch e floor := e.drainReadyPrefetch floor
  waitReadyPrefetch e floor := e.waitReadyPrefetch floor
  prefetchedBlocks e id := ((e.prefetch.lookup id).map fun state => state.held.length).getD 0

end Pegainfer.Qwen3
