/-
The TP8 scheduler: waves of up to 64 requests, prefilled one after another and decoded together until all have ended.

A wave admits a request when the pool can hold its whole lifetime; the others go back to the front of the queue. The
executor is an oracle numbered by its calls: a forward may fail, and a decode batch that succeeds returns one report for
each row. A turn is one pass of the scheduler's thread: the admission and prefill of a wave, or one decode step of it.
-/
import Mathlib.Tactic
import Pegainfer.KimiK2.Settle
import Pegainfer.Lib.Machine
import Pegainfer.Lib.SwapRemove

set_option linter.unusedSectionVars false

namespace Pegainfer.KimiK2

open Pegainfer.Kvbm Pegainfer.Kvbm.SchedulableSequence Pegainfer.KvCache Pegainfer.Lib

def kimiRunnerMaxBatch : ℕ := 64

def kimiDecodeAdmissionMicrobatch : ℕ := 64

structure ActiveKimiRequest (H : Type) where
  state : RequestState H
  slot : ℕ
  decodeBatchSize : ℕ

/-- the calls the executor gets -/
inductive ForwardCall
  | ensureDecodeBatch (decodeBatchSize : ℕ)
  | prefill (inputIds : List Token) (slot decodeBatchSize cachedTokens : ℕ) (kvRow : List BlockId) (row : KimiRowOptions)
  | decode (tokenIds : List Token) (appendPositions slots : List ℕ) (decodeBatchSize : ℕ) (kvRows : List (List BlockId))
      (rows : List KimiRowOptions)
deriving DecidableEq

/-- the executor's answers, by the number of the call -/
structure ForwardExecutor where
  ensureDecodeBatch : ℕ → Bool
  forwardPrefill : ℕ → Option Token
  /-- the token of each row, or a failed forward -/
  forwardDecodeBatch : ℕ → Option (ℕ → Token)

structure KimiK2Scheduler (H : Type) where
  pool : BlockPool H
  pending : List GenerateRequest
  active : List (ActiveKimiRequest H)
  out : Outbox
  calls : List ForwardCall
  /-- every request, in the order of submission -/
  submitted : List GenerateRequest

variable {H : Type} [DecidableEq H] [BlockHash H]

namespace KimiK2Scheduler

def new (pool : BlockPool H) (limit : ℕ → Option ℕ) : KimiK2Scheduler H := ⟨pool, [], [], .new limit, [], []⟩

/-! ## Admission -/

/-- the locals of the admission loop -/
structure Intake where
  budget : ℕ
  deferred : List GenerateRequest
  prefillReqs : List GenerateRequest
  out : Outbox

def intakeRequest (blockSize maxRequestBlocks : ℕ) (i : Intake) (req : GenerateRequest) : Intake :=
  match preflightPrefillCandidate req i.out with
  | (false, out) => { i with out := out }
  | (true, out) =>
    match tp8RowRefusal (rowOptions req) with
    | some message => { i with out := reject req message out }
    | none =>
      match validateKvCapacity req blockSize maxRequestBlocks none with
      | some message => { i with out := reject req message out }
      | none =>
        let blocksNeeded := requestLifetimeBlocks req blockSize
        if i.budget < blocksNeeded then { i with deferred := i.deferred ++ [req] }
        else
          { i with
            budget := i.budget - blocksNeeded
            prefillReqs := i.prefillReqs ++ [req]
            out := sendScheduled req out }

/-! ## Prefill -/

def prefillRequest (ex : ForwardExecutor) (stops : List Token) (req : GenerateRequest) (slot decodeBatchSize : ℕ)
    (s : KimiK2Scheduler H) : Except String (KimiK2Scheduler H) :=
  match scheduleRequestKv req s.pool s.out with
  | .error e => .error e
  | .ok (none, pool, out) => .ok { s with pool := pool, out := out }
  | .ok (some (kv, cachedTokens), pool, out) =>
    let suffix := req.promptTokens.drop cachedTokens
    let calls := s.calls ++ [.prefill suffix slot decodeBatchSize cachedTokens (stepPageIndices kv suffix.length)
      (rowOptions req)]
    match ex.forwardPrefill s.calls.length with
    | none =>
      let (pool, out) := failKv req (.promptForward slot) 0 pool kv out
      .ok { s with pool := pool, out := out, calls := calls }
    | some token =>
      match settleFirst stops .prefillBookkeeping req token pool kv out with
      | .error e => .error e
      | .ok (o, pool, out) =>
        .ok { s with
          pool := pool
          out := out
          calls := calls
          active := s.active ++ (o.map fun state => ⟨state, slot, decodeBatchSize⟩).toList }

/-- a scheduled row of a decode admission -/
structure GroupRow (H : Type) where
  slot : ℕ
  req : GenerateRequest
  kv : RequestKv H

/-- the rows of the group whose sequence could be scheduled -/
def scheduleGroup : List (ℕ × GenerateRequest) → BlockPool H → Outbox →
    Except String (List (GroupRow H) × BlockPool H × Outbox)
  | [], pool, out => .ok ([], pool, out)
  | (slot, req) :: group, pool, out =>
    match scheduleRequestKv req pool out with
    | .error e => .error e
    | .ok (none, pool, out) => scheduleGroup group pool out
    | .ok (some (kv, _), pool, out) =>
      match scheduleGroup group pool out with
      | .error e => .error e
      | .ok (rows, pool, out) => .ok (⟨slot, req, kv⟩ :: rows, pool, out)

def failGroup (message : Failure) : List (GroupRow H) → BlockPool H → Outbox → BlockPool H × Outbox
  | [], pool, out => (pool, out)
  | row :: rows, pool, out =>
    let (pool, out) := failKv row.req message 0 pool row.kv out
    failGroup message rows pool out

/-- the reports of an admission in row order; the requests that run on -/
def settleGroup (stops : List Token) (decodeBatchSize : ℕ) (report : ℕ → Token) : ℕ → List (GroupRow H) →
    BlockPool H → Outbox → Except String (List (ActiveKimiRequest H) × BlockPool H × Outbox)
  | _, [], pool, out => .ok ([], pool, out)
  | i, row :: rows, pool, out =>
    match settleFirst stops .admissionBookkeeping row.req (report i) pool row.kv out with
    | .error e => .error e
    | .ok (o, pool, out) =>
      match settleGroup stops decodeBatchSize report (i + 1) rows pool out with
      | .error e => .error e
      | .ok (active, pool, out) =>
        .ok ((o.map fun state => ⟨state, row.slot, decodeBatchSize⟩).toList ++ active, pool, out)

def decodeAdmissionMicrobatch (ex : ForwardExecutor) (stops : List Token) (group : List (ℕ × GenerateRequest))
    (decodeBatchSize : ℕ) (s : KimiK2Scheduler H) : Except String (KimiK2Scheduler H) :=
  match scheduleGroup group s.pool s.out with
  | .error e => .error e
  | .ok ([], pool, out) => .ok { s with pool := pool, out := out }
  | .ok (rows@(_ :: _), pool, out) =>
    let calls := s.calls ++ [.decode (rows.map fun r => r.req.promptTokens.headD 0) (rows.map fun _ => 0)
      (rows.map GroupRow.slot) decodeBatchSize (rows.map fun r => stepPageIndices r.kv 1)
      (rows.map fun r => rowOptions r.req)]
    match ex.forwardDecodeBatch s.calls.length with
    | none =>
      let (pool, out) := failGroup .admissionForward rows pool out
      .ok { s with pool := pool, out := out, calls := calls }
    | some report =>
      match settleGroup stops decodeBatchSize report 0 rows pool out with
      | .error e => .error e
      | .ok (active, pool, out) =>
        .ok { s with pool := pool, out := out, calls := calls, active := s.active ++ active }

/-- one-token prompts are collected and admitted through the decode path; any other prompt flushes them first -/
def prefillAll (ex : ForwardExecutor) (stops : List Token) (decodeBatchSize : ℕ) : ℕ → List GenerateRequest →
    List (ℕ × GenerateRequest) → KimiK2Scheduler H → Except String (KimiK2Scheduler H)
  | _, [], admissions, s =>
    if admissions = [] then .ok s else decodeAdmissionMicrobatch ex stops admissions decodeBatchSize s
  | slot, req :: reqs, admissions, s =>
    if req.promptTokens.length = 1 then
      let admissions := admissions ++ [(slot, req)]
      if admissions.length = kimiDecodeAdmissionMicrobatch then
        match decodeAdmissionMicrobatch ex stops admissions decodeBatchSize s with
        | .error e => .error e
        | .ok s => prefillAll ex stops decodeBatchSize (slot + 1) reqs [] s
      else prefillAll ex stops decodeBatchSize (slot + 1) reqs admissions s
    else
      match (if admissions = [] then .ok s else decodeAdmissionMicrobatch ex stops admissions decodeBatchSize s) with
      | .error e => .error e
      | .ok s =>
        match prefillRequest ex stops req slot decodeBatchSize s with
        | .error e => .error e
        | .ok s => prefillAll ex stops decodeBatchSize (slot + 1) reqs [] s

/-- the error of every admitted request when the arena cannot be allocated -/
def failPrefillReqs (message : Failure) (reqs : List GenerateRequest) (out : Outbox) : Outbox :=
  reqs.foldl (fun out req => out.send req.tokenTx (.error message req.promptTokens.length 0)) out

/-- the part of `handle_request_batch` before its decode loop, on the next wave -/
def startWave (ex : ForwardExecutor) (stops : List Token) (s : KimiK2Scheduler H) : Except String (KimiK2Scheduler H) :=
  let batch := s.pending.take kimiRunnerMaxBatch
  let i := batch.foldl (intakeRequest s.pool.blockSize s.pool.maxRequestBlocks) ⟨s.pool.availableBlocks, [], [], s.out⟩
  -- the deferred requests go back to the queue front
  let s := { s with pending := i.deferred ++ s.pending.drop kimiRunnerMaxBatch, out := i.out }
  if i.prefillReqs = [] then .ok s
  else
    let decodeBatchSize := i.prefillReqs.length
    let ready := ex.ensureDecodeBatch s.calls.length
    let s := { s with calls := s.calls ++ [.ensureDecodeBatch decodeBatchSize] }
    if ready then prefillAll ex stops decodeBatchSize 0 i.prefillReqs [] s
    else .ok { s with out := failPrefillReqs (.arenaAllocation decodeBatchSize) i.prefillReqs s.out }

/-! ## The decode loop -/

/-- schedules the rows in order, up to the first that fails -/
def scheduleActive : List (ActiveKimiRequest H) → BlockPool H →
    Except String (List (ActiveKimiRequest H) × Option CallResult × BlockPool H)
  | [], pool => .ok ([], none, pool)
  | a :: active, pool =>
    match pool.call a.state.kv .scheduleDecode with
    | .error e => .error e
    | .ok (.done, kv, pool) =>
      match scheduleActive active pool with
      | .error e => .error e
      | .ok (active, err, pool) => .ok ({ a with state := { a.state with kv := kv } } :: active, err, pool)
    | .ok (r, kv, pool) => .ok ({ a with state := { a.state with kv := kv } } :: active, some r, pool)

def failActive (message : Failure) : List (ActiveKimiRequest H) → BlockPool H → Outbox → BlockPool H × Outbox
  | [], pool, out => (pool, out)
  | a :: active, pool, out =>
    let (pool, out) := failKv a.state.req message a.state.completionTokens pool a.state.kv out
    failActive message active pool out

/-- the reports of a decode step in row order; each row, and whether it retires -/
def settleActive (stops : List Token) (report : ℕ → Token) : ℕ → List (ActiveKimiRequest H) → BlockPool H → Outbox →
    Except String (List (ActiveKimiRequest H × Bool) × BlockPool H × Outbox)
  | _, [], pool, out => .ok ([], pool, out)
  | i, a :: active, pool, out =>
    match settleDecode stops a.state (report i) pool out with
    | .error e => .error e
    | .ok (more, state, pool, out) =>
      match settleActive stops report (i + 1) active pool out with
      | .error e => .error e
      | .ok (rows, pool, out) => .ok (({ a with state := state }, !more) :: rows, pool, out)

/-- the retired rows are dropped as they are removed, last index first -/
def dropRetired (rows : List (ActiveKimiRequest H × Bool)) (pool : BlockPool H) : BlockPool H :=
  (rows.filter Prod.snd).reverse.foldl (fun pool r => pool.dropKv r.1.state.kv) pool

/-- one iteration of the decode loop -/
def decodeStep (ex : ForwardExecutor) (stops : List Token) (s : KimiK2Scheduler H) : Except String (KimiK2Scheduler H) :=
  let decodeBatchSize := (s.active.map ActiveKimiRequest.decodeBatchSize).headD 0
  match scheduleActive s.active s.pool with
  | .error e => .error e
  | .ok (active, some err, pool) =>
    let (pool, out) := failActive (.decodeAccounting err) active pool s.out
    .ok { s with pool := pool, out := out, active := [] }
  | .ok (active, none, pool) =>
    let calls := s.calls ++ [.decode (active.map (·.state.lastToken))
      (active.map fun a => a.state.promptLen + a.state.completionTokens - 1) (active.map ActiveKimiRequest.slot)
      decodeBatchSize (active.map fun a => stepPageIndices a.state.kv 1) (active.map (·.state.options))]
    match ex.forwardDecodeBatch s.calls.length with
    | none =>
      let (pool, out) := failActive .decodeForward active pool s.out
      .ok { s with pool := pool, out := out, calls := calls, active := [] }
    | some report =>
      match settleActive stops report 0 active pool s.out with
      | .error e => .error e
      | .ok (rows, pool, out) =>
        .ok { s with
          pool := dropRetired rows pool
          out := out
          calls := calls
          active := (removeWhere Prod.snd rows).map Prod.fst }

/-! ## Runs -/

inductive Op
  | submit (req : GenerateRequest)
  | turn

def step (ex : ForwardExecutor) (stops : List Token) (s : KimiK2Scheduler H) : Op → Except String (KimiK2Scheduler H)
  | .submit req =>
    let req := { req with tokenTx := s.submitted.length }
    .ok { s with pending := s.pending ++ [req], submitted := s.submitted ++ [req] }
  | .turn => if s.active = [] then s.startWave ex stops else s.decodeStep ex stops

end KimiK2Scheduler

end Pegainfer.KimiK2
