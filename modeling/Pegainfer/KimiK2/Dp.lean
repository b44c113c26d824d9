/-
The DP coordinator: one thread drives all ranks in lock-step.

Every step sends each rank one command and takes one result back, a padding command where the rank has nothing to do. A
rank has its slots, its own KV pool and a pair of channels; here the commands it was sent and the number of results taken
from it. Ranks answer each command with one report per row in row order; the report of a row is an oracle's. A rank that
fails ends the process, which ends the run.

With each command the model keeps what the coordinator knew when it sent it: the owner of each row, its KV position, and
the slots and pages the rank's requests held. These are for the statements; no function reads them.
-/
import Mathlib.Tactic
import Pegainfer.KimiK2.Settle
import Pegainfer.Lib.Machine

set_option linter.unusedSectionVars false

namespace Pegainfer.KimiK2

open Pegainfer.Kvbm Pegainfer.Kvbm.SchedulableSequence Pegainfer.KvCache Pegainfer.Lib

def maxBatchPerDp : ℕ := 8

def deepepMaxDispatchTokens : ℕ := 2048

/-! ## Commands -/

structure DecodeAdmission (H : Type) where
  slot : ℕ
  req : GenerateRequest
  kv : RequestKv H

structure DecodeInput where
  tokenId : Token
  appendPosition : ℕ
  slot : ℕ
  options : KimiRowOptions
  pages : List BlockId
  /-- kept for the statements -/
  owner : ℕ
  /-- kept for the statements -/
  kvPosition : ℕ

inductive DecodeBatchRow (H : Type)
  | active (input : DecodeInput)
  | admission (admission : DecodeAdmission H)

/-- whose row it is -/
inductive RowOwner
  | padding
  | active (tokenTx : ℕ)
  | admission (tokenTx : ℕ)
deriving DecidableEq, Repr

/-- one row of a decode command -/
structure CommandRow where
  tokenId : Token
  position : ℕ
  slot : ℕ
  pages : List BlockId
  options : KimiRowOptions
  /-- kept for the statements -/
  owner : RowOwner
  /-- kept for the statements -/
  kvPosition : ℕ

inductive StepKind
  | decode
  | prefill
deriving DecidableEq, Repr

inductive StepCommand
  | decode (rows : List CommandRow) (decodeBatchSize : ℕ) (paddingPage : BlockId)
  | prefill (inputIds : List Token) (slot decodeBatchSize cachedTokens epMaxSeqLen : ℕ) (pages : List BlockId)
      (paddingPage : BlockId) (row : KimiRowOptions) (owner : Option ℕ)

def StepCommand.kind : StepCommand → StepKind
  | .decode .. => .decode
  | .prefill .. => .prefill

inductive StepResult
  | decode (reports : List Token)
  | prefill (report : Token)

/-- a command, and what the rank's requests held when it was sent -/
structure SentCommand where
  command : StepCommand
  occupied : List ℕ
  heldPages : List BlockId

/-- a report applied to a request: the number of its command, its row, the request and the token -/
structure AppliedReport where
  command : ℕ
  row : ℕ
  tokenTx : ℕ
  token : Token
deriving DecidableEq, Repr

/-- `KimiRowOptions::default` -/
def defaultRowOptions : KimiRowOptions := ⟨none, ⟨.finite 0, -1, .finite 1, false⟩⟩

namespace DecodeBatchRow

variable {H : Type} [DecidableEq H] [BlockHash H]

/-- the row as the command carries it -/
def toCommandRow : DecodeBatchRow H → CommandRow
  | .active i => ⟨i.tokenId, i.appendPosition, i.slot, i.pages, i.options, .active i.owner, i.kvPosition⟩
  | .admission a =>
    ⟨a.req.promptTokens.headD 0, 0, a.slot, stepPageIndices a.kv 1, rowOptions a.req, .admission a.req.tokenTx,
      a.kv.kvPosition⟩

end DecodeBatchRow

def buildPaddingDecodeCommand (paddingPage : BlockId) : StepCommand :=
  .decode [⟨0, 0, 0, [paddingPage], defaultRowOptions, .padding, 0⟩] maxBatchPerDp paddingPage

def buildDecodeCommandFromRows {H : Type} [DecidableEq H] [BlockHash H] (rows : List (DecodeBatchRow H))
    (paddingPage : BlockId) : StepCommand := .decode (rows.map DecodeBatchRow.toCommandRow) maxBatchPerDp paddingPage

def buildDecodeCommandFromInputs (inputs : List DecodeInput) (paddingPage : BlockId) : StepCommand :=
  .decode (inputs.map fun i =>
    ⟨i.tokenId, i.appendPosition, i.slot, i.pages, i.options, .active i.owner, i.kvPosition⟩) maxBatchPerDp paddingPage

/-- the report of a row: rank, number of the command, row -/
abbrev ReportOracle := ℕ → ℕ → ℕ → Token

/-- `rank_forward_loop`: one result for each command -/
def rankForward (report : ReportOracle) (dpRank k : ℕ) : StepCommand → StepResult
  | .decode rows _ _ => .decode ((List.range rows.length).map (report dpRank k))
  | .prefill .. => .prefill (report dpRank k 0)

/-! ## One rank -/

/-- a rank's part of the coordinator: its slots, its pool and its channels -/
structure DpRank (H : Type) where
  slots : ℕ → Option (RequestState H)
  pool : BlockPool H
  /-- the commands sent, oldest first -/
  sent : List SentCommand
  /-- the results taken -/
  received : ℕ
  /-- the reports applied, oldest first -/
  applied : List AppliedReport

variable {H : Type} [DecidableEq H] [BlockHash H]

namespace DpRank

def activeSlots (rk : DpRank H) : List ℕ := (List.range maxBatchPerDp).filter fun i => (rk.slots i).isSome

def freeSlots (rk : DpRank H) : List ℕ := (List.range maxBatchPerDp).filter fun i => (rk.slots i).isNone

def activeCount (rk : DpRank H) : ℕ := rk.activeSlots.length

def freeSlotCount (rk : DpRank H) : ℕ := rk.freeSlots.length

def hasFreeSlot (rk : DpRank H) : Bool := (List.range maxBatchPerDp).any fun i => (rk.slots i).isNone

def findFreeSlot (rk : DpRank H) : Option ℕ := (List.range maxBatchPerDp).find? fun i => (rk.slots i).isNone

/-- the pages the rank's requests hold -/
def heldPages (rk : DpRank H) : List BlockId :=
  rk.activeSlots.flatMap fun i => ((rk.slots i).map fun st => pageIndices st.kv).getD []

def setSlot (rk : DpRank H) (i : ℕ) (o : Option (RequestState H)) (pool : BlockPool H) : DpRank H :=
  { rk with slots := Function.update rk.slots i o, pool := pool }

def sendStepCommand (rk : DpRank H) (command : StepCommand) : DpRank H :=
  { rk with sent := rk.sent ++ [⟨command, rk.activeSlots, rk.heldPages⟩] }

/-- the next result of the rank, with the number of its command -/
def recv (report : ReportOracle) (dpRank : ℕ) (rk : DpRank H) : Except String (ℕ × StepResult × DpRank H) :=
  match rk.sent[rk.received]? with
  | none => .error "recv blocks: the rank owes no result"
  | some c => .ok (rk.received, rankForward report dpRank rk.received c.command, { rk with received := rk.received + 1 })

/-- the loop of `schedule_active_decode_inputs` over the slots still ahead -/
def scheduleSlots : List ℕ → DpRank H → Outbox → Except String (List DecodeInput × DpRank H × Outbox)
  | [], rk, out => .ok ([], rk, out)
  | slot :: slots, rk, out =>
    match rk.slots slot with
    | none => scheduleSlots slots rk out
    | some state =>
      match rk.pool.call state.kv .scheduleDecode with
      | .error e => .error e
      | .ok (.done, kv, pool) =>
        match scheduleSlots slots (rk.setSlot slot (some { state with kv := kv }) pool) out with
        | .error e => .error e
        | .ok (inputs, rk, out) =>
          .ok (⟨state.lastToken, state.promptLen + state.completionTokens - 1, slot, state.options, stepPageIndices kv 1,
            state.tokenTx, kv.kvPosition⟩ :: inputs, rk, out)
      | .ok (r, kv, pool) =>
        let (pool, out) := failKv state.req (.decodeAccounting r) state.completionTokens pool kv out
        scheduleSlots slots (rk.setSlot slot none pool) out

def scheduleActiveDecodeInputs (rk : DpRank H) (out : Outbox) : Except String (List DecodeInput × DpRank H × Outbox) :=
  scheduleSlots (List.range maxBatchPerDp) rk out

def buildDecodeCommand (rk : DpRank H) (out : Outbox) : Except String (StepCommand × DpRank H × Outbox) :=
  match rk.scheduleActiveDecodeInputs out with
  | .error e => .error e
  | .ok (inputs, rk, out) =>
    .ok (if inputs.isEmpty then buildPaddingDecodeCommand rk.pool.paddingBlockId
      else buildDecodeCommandFromInputs inputs rk.pool.paddingBlockId, rk, out)

def logApplied (rk : DpRank H) (k row tokenTx : ℕ) (token : Token) : DpRank H :=
  { rk with applied := rk.applied ++ [⟨k, row, tokenTx, token⟩] }

def processDecodeReport (stops : List Token) (k row slot : ℕ) (token : Token) (rk : DpRank H) (out : Outbox) :
    Except String (DpRank H × Outbox) :=
  match rk.slots slot with
  | none => .ok (rk, out)
  | some state =>
    match settleDecode stops state token rk.pool out with
    | .error e => .error e
    | .ok (true, state', pool, out) => .ok ((rk.setSlot slot (some state') pool).logApplied k row state.tokenTx token, out)
    | .ok (false, state', pool, out) =>
      .ok ((rk.setSlot slot none (pool.dropKv state'.kv)).logApplied k row state.tokenTx token, out)

/-- the first token of a request that takes `slot` if it goes on -/
def installFirst (stops : List Token) (broken : CallResult → Failure) (k row slot : ℕ) (req : GenerateRequest)
    (kv : RequestKv H) (token : Token) (rk : DpRank H) (out : Outbox) : Except String (DpRank H × Outbox) :=
  match settleFirst stops broken req token rk.pool kv out with
  | .error e => .error e
  | .ok (none, pool, out) => .ok ({ rk with pool := pool }.logApplied k row req.tokenTx token, out)
  | .ok (some state, pool, out) => .ok ((rk.setSlot slot (some state) pool).logApplied k row req.tokenTx token, out)

def installDecodeAdmissionResult (stops : List Token) (k row : ℕ) (a : DecodeAdmission H) (token : Token)
    (rk : DpRank H) (out : Outbox) : Except String (DpRank H × Outbox) :=
  rk.installFirst stops .admissionBookkeeping k row a.slot a.req a.kv token out

/-- where the report of a row goes -/
inductive ReportTarget (H : Type)
  | slot (slot : ℕ)
  | admission (admission : DecodeAdmission H)

def DecodeBatchRow.target : DecodeBatchRow H → ReportTarget H
  | .active input => .slot input.slot
  | .admission a => .admission a

/-- the reports of command `k`, paired with their targets by position -/
def processReports (stops : List Token) (k : ℕ) : ℕ → List (ReportTarget H × Token) → DpRank H → Outbox →
    Except String (DpRank H × Outbox)
  | _, [], rk, out => .ok (rk, out)
  | row, (target, token) :: rest, rk, out =>
    let settled := match target with
      | .slot slot => rk.processDecodeReport stops k row slot token out
      | .admission a => rk.installDecodeAdmissionResult stops k row a token out
    match settled with
    | .error e => .error e
    | .ok (rk, out) => processReports stops k (row + 1) rest rk out

def processDecodeResults (stops : List Token) (k : ℕ) (reports : List Token) (rk : DpRank H) (out : Outbox) :
    Except String (DpRank H × Outbox) :=
  processReports stops k 0 ((rk.activeSlots.map ReportTarget.slot).zip reports) rk out

/-- the slots in order, each taken and failed -/
def failSlots (message : Failure) : List ℕ → DpRank H → Outbox → DpRank H × Outbox
  | [], rk, out => (rk, out)
  | slot :: slots, rk, out =>
    match rk.slots slot with
    | none => failSlots message slots rk out
    | some state =>
      let (pool, out) := failKv state.req message state.completionTokens rk.pool state.kv out
      failSlots message slots (rk.setSlot slot none pool) out

def failAllActive (message : Failure) (rk : DpRank H) (out : Outbox) : DpRank H × Outbox :=
  failSlots message (List.range maxBatchPerDp) rk out

def failAdmissions (message : Failure) : List (DecodeBatchRow H) → DpRank H → Outbox → DpRank H × Outbox
  | [], rk, out => (rk, out)
  | .active _ :: rows, rk, out => failAdmissions message rows rk out
  | .admission a :: rows, rk, out =>
    let (pool, out) := failKv a.req message 0 rk.pool a.kv out
    failAdmissions message rows { rk with pool := pool } out

def failDecodeRows (message : Failure) (rows : List (DecodeBatchRow H)) (rk : DpRank H) (out : Outbox) :
    DpRank H × Outbox :=
  let anyActive := rows.any fun
    | .active _ => true
    | .admission _ => false
  let (rk, out) := if anyActive then rk.failAllActive message out else (rk, out)
  rk.failAdmissions message rows out

end DpRank

/-! ## The coordinator -/

structure DpCoordinator (H : Type) where
  dpWorld : ℕ
  ranks : ℕ → DpRank H
  out : Outbox
  pendingReqs : List GenerateRequest
  /-- every request, in the order of submission -/
  submitted : List GenerateRequest

namespace DpCoordinator

/-- the last of the candidates with the largest key, as `max_by_key` returns it -/
def maxByKey (key : ℕ → ℕ) : List ℕ → Option ℕ
  | [] => none
  | r :: rs =>
    match maxByKey key rs with
    | none => some r
    | some b => if key r ≤ key b then some b else some r

def new (pools : List (BlockPool H)) (limit : ℕ → Option ℕ) : DpCoordinator H where
  dpWorld := pools.length
  ranks r := ⟨fun _ => none, pools.getD r ⟨.new 0 false, 0, 0⟩, [], 0, []⟩
  out := .new limit
  pendingReqs := []
  submitted := []

def setRank (s : DpCoordinator H) (r : ℕ) (rk : DpRank H) (out : Outbox) : DpCoordinator H :=
  { s with ranks := Function.update s.ranks r rk, out := out }

def rankKvBudget (s : DpCoordinator H) (r : ℕ) : ℕ :=
  (s.ranks r).pool.availableBlocks -
    ((s.ranks r).activeSlots.map fun i =>
      (((s.ranks r).slots i).map (·.futureBlocks (s.ranks r).pool.blockSize)).getD 0).sum

def globalActiveCount (s : DpCoordinator H) : ℕ := ((List.range s.dpWorld).map fun r => (s.ranks r).activeCount).sum

/-- `DpLoadBalancer::pick_rank` -/
def pickRank (s : DpCoordinator H) : Option ℕ :=
  maxByKey (fun r => (s.ranks r).freeSlotCount) ((List.range s.dpWorld).filter fun r => (s.ranks r).hasFreeSlot)

def freeSlotLists (s : DpCoordinator H) : ℕ → List ℕ := fun r => (s.ranks r).freeSlots

/-! ### Lock-step -/

/-- one rank is sent its command; what the send kept for its results -/
def sendRank {α : Type} (send : ℕ → DpRank H → Outbox → Except String (α × DpRank H × Outbox))
    (x : DpCoordinator H × (ℕ → α)) (r : ℕ) : Except String (DpCoordinator H × (ℕ → α)) :=
  match send r (x.1.ranks r) x.1.out with
  | .error e => .error e
  | .ok (a, rk, out) => .ok (x.1.setRank r rk out, Function.update x.2 r a)

/-- one rank's result is taken and handed on -/
def collectRank {α : Type} (report : ReportOracle)
    (collect : ℕ → α → ℕ → StepResult → DpRank H → Outbox → Except String (DpRank H × Outbox)) (kept : ℕ → α)
    (s : DpCoordinator H) (r : ℕ) : Except String (DpCoordinator H) :=
  match (s.ranks r).recv report r with
  | .error e => .error e
  | .ok (k, result, rk) =>
    match collect r (kept r) k result rk s.out with
    | .error e => .error e
    | .ok (rk, out) => .ok (s.setRank r rk out)

/-- a step of all ranks: each is sent its command, then each result is taken -/
def lockStep {α : Type} (report : ReportOracle) (send : ℕ → DpRank H → Outbox → Except String (α × DpRank H × Outbox))
    (collect : ℕ → α → ℕ → StepResult → DpRank H → Outbox → Except String (DpRank H × Outbox)) (nothing : α)
    (s : DpCoordinator H) : Except String (DpCoordinator H) :=
  match run (sendRank send) (s, fun _ => nothing) (List.range s.dpWorld) with
  | .error e => .error e
  | .ok (s', kept) => run (collectRank report collect kept) s' (List.range s.dpWorld)

/-- the decode command of a rank with admissions; the rows its results are paired with -/
def sendDecodeAdmission (batch : ℕ → List (DecodeAdmission H)) (r : ℕ) (rk : DpRank H) (out : Outbox) :
    Except String (List (DecodeBatchRow H) × DpRank H × Outbox) :=
  match rk.scheduleActiveDecodeInputs out with
  | .error e => .error e
  | .ok (inputs, rk, out) =>
    let rows := inputs.map DecodeBatchRow.active ++ (batch r).map DecodeBatchRow.admission
    if maxBatchPerDp < rows.length then
      let (rk, out) := rk.failDecodeRows (.rowsExceedArena r) rows out
      .ok ([], rk.sendStepCommand (buildPaddingDecodeCommand rk.pool.paddingBlockId), out)
    else
      .ok (rows, rk.sendStepCommand (if rows.isEmpty then buildPaddingDecodeCommand rk.pool.paddingBlockId
        else buildDecodeCommandFromRows rows rk.pool.paddingBlockId), out)

def collectDecodeAdmission (stops : List Token) (_ : ℕ) (rows : List (DecodeBatchRow H)) (k : ℕ) (result : StepResult)
    (rk : DpRank H) (out : Outbox) : Except String (DpRank H × Outbox) :=
  match result with
  | .prefill _ => .error "aborted: returned prefill result during decode admission"
  | .decode reports => rk.processReports stops k 0 ((rows.map DpRank.DecodeBatchRow.target).zip reports) out

def synchronizedDecodeAdmissions (stops : List Token) (report : ReportOracle) (batch : ℕ → List (DecodeAdmission H))
    (s : DpCoordinator H) : Except String (DpCoordinator H) :=
  lockStep report (sendDecodeAdmission batch) (collectDecodeAdmission stops) [] s

def sendDecode (_ : ℕ) (rk : DpRank H) (out : Outbox) : Except String (Unit × DpRank H × Outbox) :=
  match rk.buildDecodeCommand out with
  | .error e => .error e
  | .ok (command, rk, out) => .ok ((), rk.sendStepCommand command, out)

def collectDecode (stops : List Token) (_ : ℕ) (_ : Unit) (k : ℕ) (result : StepResult) (rk : DpRank H) (out : Outbox) :
    Except String (DpRank H × Outbox) :=
  match result with
  | .prefill _ => .error "aborted: returned prefill result during decode"
  | .decode reports => rk.processDecodeResults stops k reports out

def synchronizedDecodeStep (stops : List Token) (report : ReportOracle) (s : DpCoordinator H) :
    Except String (DpCoordinator H) :=
  lockStep report sendDecode (collectDecode stops) () s

/-! ### Prefill -/

def prefillSlotsFor (s : DpCoordinator H) (owningRank owningSlot : ℕ) : Option (List ℕ) :=
  (List.range s.dpWorld).mapM fun r => if r = owningRank then some owningSlot else (s.ranks r).findFreeSlot

/-- the owning rank forwards the uncached suffix, the others a dummy token into a free slot and the padding page -/
def prefillCommand (owningRank : ℕ) (req : GenerateRequest) (cachedTokens : ℕ) (kvPages : List BlockId) (r slot : ℕ)
    (paddingPage : BlockId) : StepCommand :=
  let suffix := req.promptTokens.drop cachedTokens
  if r = owningRank then
    .prefill suffix slot maxBatchPerDp cachedTokens suffix.length kvPages paddingPage (rowOptions req) (some req.tokenTx)
  else .prefill [0] slot maxBatchPerDp 0 suffix.length [paddingPage] paddingPage defaultRowOptions none

def synchronizedPrefill (owningRank : ℕ) (prefillSlots : List ℕ) (req : GenerateRequest) (cachedTokens : ℕ)
    (kvPages : List BlockId) (s : DpCoordinator H) : DpCoordinator H :=
  (prefillSlots.zipIdx.take s.dpWorld).foldl (fun s (slot, r) =>
    s.setRank r ((s.ranks r).sendStepCommand
      (prefillCommand owningRank req cachedTokens kvPages r slot (s.ranks r).pool.paddingBlockId)) s.out) s

/-- a rank's prefill result: the number of its command and the token -/
def recvPrefill (report : ReportOracle) (s : DpCoordinator H) (r : ℕ) : Except String (ℕ × Token × DpCoordinator H) :=
  match (s.ranks r).recv report r with
  | .error e => .error e
  | .ok (k, .prefill token, rk) => .ok (k, token, s.setRank r rk s.out)
  | .ok (_, .decode _, _) => .error "aborted: returned decode result during prefill"

def recvPadding (report : ReportOracle) (s : DpCoordinator H) (r : ℕ) : Except String (DpCoordinator H) :=
  match s.recvPrefill report r with
  | .error e => .error e
  | .ok (_, _, s) => .ok s

def admitRequest (stops : List Token) (report : ReportOracle) (dpRank slot : ℕ) (prefillSlots : List ℕ)
    (req : GenerateRequest) (s : DpCoordinator H) : Except String (DpCoordinator H) :=
  match scheduleRequestKv req (s.ranks dpRank).pool (sendScheduled req s.out) with
  | .error e => .error e
  | .ok (none, pool, out) => .ok (s.setRank dpRank { s.ranks dpRank with pool := pool } out)
  | .ok (some (kv, cachedTokens), pool, out) =>
    let kvPages := stepPageIndices kv (req.promptTokens.length - cachedTokens)
    let s := s.setRank dpRank { s.ranks dpRank with pool := pool } out
    let s := s.synchronizedPrefill dpRank prefillSlots req cachedTokens kvPages
    -- the owner's result first, then the padding ranks'
    match s.recvPrefill report dpRank with
    | .error e => .error e
    | .ok (k, lastToken, s) =>
      match run (recvPadding report) s ((List.range s.dpWorld).filter fun r => decide (r ≠ dpRank)) with
      | .error e => .error e
      | .ok s =>
        match (s.ranks dpRank).installFirst stops .prefillBookkeeping k 0 slot req kv lastToken s.out with
        | .error e => .error e
        | .ok (rk, out) => .ok (s.setRank dpRank rk out)

/-! ### Admission -/

/-- the locals of the admission loop -/
structure Round (H : Type) where
  stillPending : List GenerateRequest
  decodeAdmissions : ℕ → List (DecodeAdmission H)
  reservedFreeSlots : ℕ → List ℕ
  roundReserved : ℕ → ℕ

def flushDecodeAdmissions (stops : List Token) (report : ReportOracle) (batch : ℕ → List (DecodeAdmission H))
    (s : DpCoordinator H) : Except String (DpCoordinator H) :=
  if (List.range s.dpWorld).all fun r => (batch r).isEmpty then .ok s
  else s.synchronizedDecodeAdmissions stops report batch

/-- the rank for a queued admission: the most reserved slots, and room for the request's lifetime -/
def admissionRank (s : DpCoordinator H) (rd : Round H) (blocksNeeded : ℕ) : Option ℕ :=
  maxByKey (fun r => (rd.reservedFreeSlots r).length) ((List.range s.dpWorld).filter fun r =>
    !(rd.reservedFreeSlots r).isEmpty && decide (blocksNeeded ≤ s.rankKvBudget r - rd.roundReserved r))

/-- a one-token prompt is queued for the next decode step -/
def queueAdmission (req : GenerateRequest) (blocksNeeded : ℕ) (s : DpCoordinator H) (rd : Round H) :
    Except String (DpCoordinator H × Round H) :=
  match s.admissionRank rd blocksNeeded with
  | none => .ok (s, { rd with stillPending := rd.stillPending ++ [req] })
  | some r =>
    match rd.reservedFreeSlots r with
    | [] => .error "removal from an empty slot list"
    | slot :: rest =>
      let rd := { rd with reservedFreeSlots := Function.update rd.reservedFreeSlots r rest }
      let pool := (s.ranks r).pool
      match pool.call (pool.newRequest req.promptTokens req.maxTokens 0) (.schedulePrefill 1) with
      | .error e => .error e
      | .ok (.done, kv, pool) =>
        .ok (s.setRank r { s.ranks r with pool := pool } (sendScheduled req s.out),
          { rd with
            roundReserved := Function.update rd.roundReserved r (rd.roundReserved r + (blocksNeeded - 1))
            decodeAdmissions := Function.update rd.decodeAdmissions r (rd.decodeAdmissions r ++ [⟨slot, req, kv⟩]) })
      | .ok (res, kv, pool) =>
        let (pool, out) := failKv req (.admissionAccounting res) 0 pool kv (sendScheduled req s.out)
        .ok (s.setRank r { s.ranks r with pool := pool } out, rd)

/-- a longer prompt is prefilled at once, after the queued admissions -/
def prefillNow (stops : List Token) (report : ReportOracle) (req : GenerateRequest) (blocksNeeded : ℕ)
    (s : DpCoordinator H) (rd : Round H) : Except String (DpCoordinator H × Round H) :=
  match s.flushDecodeAdmissions stops report rd.decodeAdmissions with
  | .error e => .error e
  | .ok s =>
    let rd : Round H := ⟨rd.stillPending, fun _ => [], s.freeSlotLists, fun _ => 0⟩
    let wait : Round H := { rd with stillPending := rd.stillPending ++ [req] }
    match s.pickRank with
    | none => .ok (s, wait)
    | some r =>
      if s.rankKvBudget r < blocksNeeded then .ok (s, wait)
      else
        match (s.ranks r).findFreeSlot with
        | none => .ok (s, wait)
        | some slot =>
          match s.prefillSlotsFor r slot with
          | none => .ok (s, wait)
          | some prefillSlots =>
            match s.admitRequest stops report r slot prefillSlots req with
            | .error e => .error e
            | .ok s => .ok (s, { rd with reservedFreeSlots := s.freeSlotLists })

def admitPending (stops : List Token) (report : ReportOracle) :
    DpCoordinator H × Round H → GenerateRequest → Except String (DpCoordinator H × Round H)
  | (s, rd), req =>
    match preflightPrefillCandidate req s.out with
    | (false, out) => .ok ({ s with out := out }, rd)
    | (true, out) =>
      if s.dpWorld = 0 then .error "index out of bounds: pools[0]"
      else
        let pool := (s.ranks 0).pool
        match validateKvCapacity req pool.blockSize pool.maxRequestBlocks (some deepepMaxDispatchTokens) with
        | some message => .ok ({ s with out := reject req message out }, rd)
        | none =>
          let blocksNeeded := requestLifetimeBlocks req pool.blockSize
          if req.promptTokens.length = 1 then { s with out := out }.queueAdmission req blocksNeeded rd
          else { s with out := out }.prefillNow stops report req blocksNeeded rd

def admitPendingRequests (stops : List Token) (report : ReportOracle) (s : DpCoordinator H) :
    Except String (DpCoordinator H) :=
  let rd : Round H := ⟨[], fun _ => [], s.freeSlotLists, fun _ => 0⟩
  match run (admitPending stops report) ({ s with pendingReqs := [] }, rd) s.pendingReqs with
  | .error e => .error e
  | .ok (s, rd) =>
    match s.flushDecodeAdmissions stops report rd.decodeAdmissions with
    | .error e => .error e
    | .ok s => .ok { s with pendingReqs := rd.stillPending }

/-! ### Runs -/

inductive Op
  | submit (req : GenerateRequest)
  | turn

/-- a request arrives, or the coordinator's loop goes round once -/
def step (stops : List Token) (report : ReportOracle) (s : DpCoordinator H) : Op → Except String (DpCoordinator H)
  | .submit req =>
    let req := { req with tokenTx := s.submitted.length }
    .ok { s with pendingReqs := s.pendingReqs ++ [req], submitted := s.submitted ++ [req] }
  | .turn =>
    match s.admitPendingRequests stops report with
    | .error e => .error e
    | .ok s => if 0 < s.globalActiveCount then s.synchronizedDecodeStep stops report else .ok s

end DpCoordinator

end Pegainfer.KimiK2
