/-
Gemma4's scheduler around a depth-two decode pipeline.

An eligible greedy batch launches the next decode step, fed from the device's own picks, before it reads back the step in
flight. Everything that changes the batch's rows drains the pipeline first: retirements, admissions beside a live batch,
the lane's joins, the chunked walk of prompts.
- `Active`: a row of the decode batch, with the tokens its KV holds.
- `settleToken`: the verdict on one pick, on every path.
- `collectPending`, `drainPipeline`, `decodeRound`: the staged path; `decodeRoundCollect`: the plain one.
- `admitFromQueue`, `joinAsyncPrefill`, `advanceWalk`: how rows join.
- `trace`: the launches, readbacks and page releases, in the order the device sees them.
The environment decides what the model and the pools would: the next token of a history, which admissions fit, which
calls fail.
-/
import Mathlib.Tactic
import Pegainfer.Lib.Ragged
import Pegainfer.Lib.SwapRemove

namespace Pegainfer.Gemma4.Pipeline

open Pegainfer.Lib

/-! ## Requests and their event streams -/

structure Request where
  id : ℕ
  maxTokens : ℕ
  /-- the stop cause a token is classified as, if any -/
  classify : ℕ → Option ℕ
  /-- the sampling parameters pick the most likely token -/
  greedy : Bool
  logprobs : Bool
  /-- the prompt's own scores are asked for -/
  scored : Bool

inductive FinishReason
  | stop (cause : ℕ)
  | length
deriving DecidableEq, Repr

inductive Event
  | token (t : ℕ)
  | finish (reason : FinishReason)
  | fail
  | reject
deriving DecidableEq, Repr

def Event.isToken : Event → Bool
  | .token _ => true
  | _ => false

/-- a request's account: what it has been sent, whether its client left, whether it is still unanswered -/
structure Acct where
  req : Request
  events : List Event
  aborted : Bool
  isOpen : Bool

abbrev Ledger := ℕ → Option Acct

namespace Ledger

def modify (ledger : Ledger) (id : ℕ) (f : Acct → Acct) : Ledger := Function.update ledger id ((ledger id).map f)

def isAborted (ledger : Ledger) (id : ℕ) : Bool := (ledger id).any Acct.aborted

/-- the account is still unanswered -/
def isActive (ledger : Ledger) (id : ℕ) : Bool := (ledger id).any Acct.isOpen

def completionTokens (ledger : Ledger) (id : ℕ) : ℕ :=
  ((ledger id).map fun a => (a.events.filter Event.isToken).length).getD 0

/-- the account closes with no event -/
def retire (ledger : Ledger) (id : ℕ) : Ledger := ledger.modify id fun a => { a with isOpen := false }

def pushToken (ledger : Ledger) (id t : ℕ) : Ledger :=
  ledger.modify id fun a => { a with events := a.events ++ [.token t] }

/-- the account closes with a terminal event -/
def close (ledger : Ledger) (id : ℕ) (e : Event) : Ledger :=
  ledger.modify id fun a => { a with events := a.events ++ [e], isOpen := false }

end Ledger

/-- settle one pick, first token or later; whether the request is done -/
def settleToken (ledger : Ledger) (req : Request) (t : ℕ) : Ledger × Bool :=
  if ledger.isAborted req.id then (ledger.retire req.id, true)
  else
    let ledger := ledger.pushToken req.id t
    match req.classify t with
    | some cause => (ledger.close req.id (.finish (.stop cause)), true)
    | none =>
      if req.maxTokens ≤ ledger.completionTokens req.id then (ledger.close req.id (.finish .length), true)
      else (ledger, false)

/-! ## Rows and the device -/

/-- a row of the decode batch -/
structure Active where
  req : Request
  next : ℕ
  /-- finished while a speculative step over its row is in flight -/
  stopping : Bool
  /-- the generated tokens its KV holds -/
  fed : List ℕ

namespace Active

def settle (e : Active) (t : ℕ) (ledger : Ledger) : Active × Ledger × Bool :=
  let (ledger', done) := settleToken ledger e.req t
  ({ e with next := if done then e.next else t }, ledger', done)

def settleStaged (e : Active) (t : ℕ) (ledger : Ledger) : Active × Ledger :=
  if e.stopping then (e, ledger)
  else
    let (e', ledger', done) := e.settle t ledger
    ({ e' with stopping := done }, ledger')

/-- the step writes its input token to the row's KV -/
def feed (e : Active) (input : ℕ) : Active := { e with fed := e.fed ++ [input] }

end Active

/-- what the device sees: steps launched and read back, pages going back to the pools, a stream synchronised -/
inductive Ev
  | launch (rows : List ℕ)
  | collect
  | release (id : ℕ)
  | fence
deriving DecidableEq, Repr

/-- the rows of the steps in flight after `trace`; `none` once a release hit a row of one -/
def replay : List (List ℕ) → List Ev → Option (List (List ℕ))
  | inflight, [] => some inflight
  | inflight, .launch rows :: trace => replay (inflight ++ [rows]) trace
  | inflight, .collect :: trace => replay inflight.tail trace
  | inflight, .release id :: trace => if inflight.any (·.contains id) then none else replay inflight trace
  | _, .fence :: trace => replay [] trace

structure PendingDecode where
  rows : ℕ
  slot : ℕ
deriving DecidableEq, Repr

structure Walker where
  req : Request
  /-- prompt tokens not yet prefilled -/
  rest : ℕ
  first : Option ℕ
  failed : Bool

structure Walk where
  walkers : List Walker
  firstRound : Bool

/-- why the engine stopped -/
inductive Stop
  | rowMismatch
  | device
deriving DecidableEq, Repr

structure Config where
  slots : ℕ
  maxRows : ℕ
  /-- tensor-parallel engines never stage -/
  singleRank : Bool
  hasLane : Bool
  mixChunk : Option ℕ

structure State where
  pending : List Request
  active : List Active
  pipeline : Option PendingDecode
  walk : Option Walk
  lane : Option Request
  /-- the id buffer the next embedding reads -/
  ids : List ℕ
  /-- the pinned readback slots -/
  readback : ℕ → List ℕ
  ledger : Ledger
  trace : List Ev
  stopped : Option Stop

def State.new : State := ⟨[], [], none, none, none, [], fun _ => [], fun _ => none, [], none⟩

section Engine

-- the next token of a request, after the generated tokens its KV holds
variable (oracle : ℕ → List ℕ → ℕ)

def pick (e : Active) : ℕ := oracle e.req.id e.fed

namespace State

def rowIds (st : State) : List ℕ := st.active.map fun e => e.req.id

/-- the whole batch fails; its pages go back -/
def failActiveBatch (st : State) : State :=
  { st with
    ledger := st.active.foldl (fun l e => if l.isActive e.req.id then l.close e.req.id .fail else l) st.ledger
    trace := st.trace ++ st.rowIds.map .release
    active := [] }

/-- wait for the stream, fail the batch, stop -/
def failStop (st : State) (why : Stop) : State :=
  let st : State := { st with trace := st.trace ++ [.fence] }
  { st.failActiveBatch with pipeline := none, stopped := some why }

/-! ### The staged path -/

/-- a whole-batch step: every row's input is written and every row's pick computed -/
def launchStaged (st : State) (resident : Bool) (slot : ℕ) : State :=
  let active := List.zipWith Active.feed st.active (if resident then st.ids else st.active.map Active.next)
  let picked := active.map (pick oracle)
  { st with active := active, ids := overlay st.ids picked, readback := Function.update st.readback slot picked,
            trace := st.trace ++ [.launch st.rowIds] }

def settleStagedRows : List Active → List ℕ → Ledger → List Active × Ledger
  | e :: es, t :: ts, ledger =>
    let (e', ledger') := e.settleStaged t ledger
    let (es', ledger'') := settleStagedRows es ts ledger'
    (e' :: es', ledger'')
  | es, _, ledger => (es, ledger)

attribute [grind =] settleStagedRows

/-- deliver a staged step without changing the rows -/
def collectPending (st : State) (p : PendingDecode) (fault : Bool) : Except Stop State :=
  if p.rows ≠ st.active.length then .error .rowMismatch
  else if fault then .error .device
  else
    let (active, ledger) := settleStagedRows st.active (st.readback p.slot) st.ledger
    .ok { st with active := active, ledger := ledger, trace := st.trace ++ [.collect] }

/-- collect the step in flight, if any, then let the stopped rows go -/
def drainPipeline (st : State) (fault : Bool) : Except State State :=
  match st.pipeline with
  | none => .ok st
  | some p =>
    match { st with pipeline := none }.collectPending p fault with
    | .error why => .error ({ st with pipeline := none }.failStop why)
    | .ok st =>
      let gone := (st.active.filter Active.stopping).map fun e => e.req.id
      .ok { st with active := st.active.filter fun e => !e.stopping, trace := st.trace ++ gone.map .release }

/-! ### The plain path -/

def settleRows : List Active → List ℕ → Ledger → List (Active × Bool) × Ledger
  | e :: es, t :: ts, ledger =>
    let (e', ledger', done) := e.settle t ledger
    let (es', ledger'') := settleRows es ts ledger'
    ((e', done) :: es', ledger'')
  | es, _, ledger => (es.map fun e => (e, false), ledger)

attribute [grind =] settleRows

/-- settle one step's picks and retire the finished rows -/
def emitDecodeRows (st : State) (picked : List ℕ) : State :=
  let (rows, ledger) := settleRows st.active picked st.ledger
  let gone := (rows.filter fun r => r.2).map fun r => r.1.req.id
  { st with active := (removeWhere (fun r => r.2) rows).map Prod.fst, ledger := ledger,
            trace := st.trace ++ gone.map .release }

/-- a whole-batch step read back at once, prompt rows of `riders` in front -/
def wholeStep (st : State) (riders : List ℕ) : State :=
  let active := List.zipWith Active.feed st.active (st.active.map Active.next)
  let st : State := { st with active := active, trace := st.trace ++ [.launch (riders ++ st.rowIds), .collect] }
  st.emitDecodeRows (active.map (pick oracle))

def decodeRoundCollect (st : State) (fault : Bool) : Except State State :=
  if fault then .error (st.failStop .device) else .ok (st.wholeStep oracle [])

/-- retire aborted rows, fail those whose KV cannot grow; `short` are the requests the pools refuse a page -/
def readyLoop (short : ℕ → Bool) : ℕ → ℕ → State → State
  | 0, _, st => st
  | fuel + 1, row, st =>
    match st.active[row]? with
    | none => st
    | some e =>
      let gone (ledger : Ledger) : State :=
        { st with active := swapRemove st.active row, ledger := ledger, trace := st.trace ++ [.release e.req.id] }
      if e.stopping then readyLoop short fuel row (gone st.ledger)
      else if st.ledger.isAborted e.req.id then readyLoop short fuel row (gone (st.ledger.retire e.req.id))
      else if short e.req.id then readyLoop short fuel row (gone (st.ledger.close e.req.id .fail))
      else readyLoop short fuel (row + 1) st

def readyDecodeRows (st : State) (short : ℕ → Bool) : State := readyLoop short st.active.length 0 st

def pipelineEligible (cfg : Config) (st : State) : Bool :=
  cfg.singleRank && !st.active.isEmpty && decide (st.active.length ≤ cfg.maxRows) &&
    st.active.all fun e => !e.stopping && !e.req.logprobs &&
      decide (2 ≤ e.req.maxTokens - st.ledger.completionTokens e.req.id) && e.req.greedy

/-- reserve the next token of every row without retiring one -/
def readyRowsPinned (st : State) (short : ℕ → Bool) : Bool :=
  st.active.all fun e => !st.ledger.isAborted e.req.id && !short e.req.id

/-- what a round's calls meet: the pools' refusals, a launch or a readback that fails -/
structure RoundEnv where
  pinnedShort : ℕ → Bool
  short : ℕ → Bool
  launchFault : Bool
  readFault : Bool

/-- a round with nothing in flight -/
def freshRound (cfg : Config) (env : RoundEnv) (st : State) : Except State State :=
  let st := st.readyDecodeRows env.short
  if st.active.isEmpty then .ok st
  else if st.pipelineEligible cfg then
    if env.launchFault then .error (st.failStop .device)
    else .ok { st.launchStaged oracle false 0 with pipeline := some ⟨st.active.length, 0⟩ }
  else st.decodeRoundCollect oracle env.launchFault

/-- one batched decode step -/
def decodeRound (cfg : Config) (env : RoundEnv) (st : State) : Except State State :=
  match st.pipeline with
  | some p =>
    if st.pipelineEligible cfg && st.readyRowsPinned env.pinnedShort then
      let st := { st with pipeline := none }
      if env.launchFault then
        match st.collectPending p env.readFault with
        | .ok st => .error (st.failStop .device)
        | .error _ => .error (st.failStop .device)
      else
        let next := (p.slot + 1) % 2
        match (st.launchStaged oracle true next).collectPending p env.readFault with
        | .ok st' => .ok { st' with pipeline := some ⟨st.active.length, next⟩ }
        | .error why => .error ((st.launchStaged oracle true next).failStop why)
    else
      match st.drainPipeline env.readFault with
      | .error st => .error st
      | .ok st => if st.active.isEmpty then .ok st else st.freshRound oracle cfg env
  | none => st.freshRound oracle cfg env

/-! ### Admissions -/

/-- settle a prefill's first token; a request that is not done joins the batch -/
def settleFirstToken (st : State) (req : Request) (t : ℕ) : State :=
  let (ledger, done) := settleToken st.ledger req t
  { st with ledger := ledger, active := if done then st.active else st.active ++ [⟨req, t, false, []⟩] }

/-- the pools' answer to a newcomer's reservation -/
inductive Reservation
  | ready
  | requeue
  | refused
deriving DecidableEq, Repr

structure Door where
  valid : Bool
  pages : Reservation
deriving DecidableEq, Repr

inductive Prepared
  | ready
  | done
  | requeue
deriving DecidableEq, Repr

def prepareNewcomer (st : State) (req : Request) (door : Door) : State × Prepared :=
  if st.ledger.isAborted req.id then ({ st with ledger := st.ledger.retire req.id }, .done)
  else if !door.valid then ({ st with ledger := st.ledger.close req.id .reject }, .done)
  else
    match door.pages with
    | .ready => (st, .ready)
    | .requeue => (st, .requeue)
    | .refused => ({ st with ledger := st.ledger.close req.id .reject }, .done)

/-- gather more prompts into a mixed step -/
def gather : List Door → List Request → State → List Request × State
  | [], newcomers, st => (newcomers, st)
  | door :: doors, newcomers, st =>
    match st.pending with
    | [] => (newcomers, st)
    | req :: rest =>
      if req.scored then (newcomers, st)
      else
        match { st with pending := rest }.prepareNewcomer req door with
        | (st, .ready) => gather doors (newcomers ++ [req]) st
        | (st, .done) => gather doors newcomers st
        | (st, .requeue) => (newcomers, { st with pending := req :: st.pending })

/-- one admission's environment -/
structure Intake where
  door : Door
  gathered : List Door
  /-- the prompt's rows fit beside the live batch -/
  mixedFits : Bool
  short : ℕ → Bool
  /-- prompt tokens each newcomer has to prefill beyond one; a restored prefix never covers the whole prompt -/
  rests : ℕ → ℕ
  readFault : Bool
  prefillFault : Bool

def failRequests (st : State) (reqs : List Request) : State :=
  { st with ledger := reqs.foldl (fun l r => if l.isActive r.id then l.close r.id .fail else l) st.ledger }

/-- a failed mixed step fails the batch it rode with; nothing of it was read back -/
def failMixed (st : State) (newcomers : List Request) : State :=
  { st.failActiveBatch.failRequests newcomers with stopped := some .device }

/-- every gathered prompt and the live batch share one step, or start a chunked walk -/
def mixedAdmission (cfg : Config) (env : Intake) (newcomers : List Request) (st : State) : Except State State :=
  match cfg.mixChunk with
  | some _ => .ok { st with walk := some ⟨newcomers.map fun r => ⟨r, env.rests r.id + 1, none, false⟩, true⟩ }
  | none =>
    if env.prefillFault then .error (st.failMixed newcomers)
    else .ok (newcomers.foldl (fun st r => st.settleFirstToken r (oracle r.id []))
      (st.wholeStep oracle (newcomers.map Request.id)))

/-- whether the intake of this turn goes on -/
inductive Turn
  | more
  | stop
deriving DecidableEq, Repr

/-- a prompt on its own; its failure is its own -/
def soloPrefill (st : State) (req : Request) (fault : Bool) : State :=
  if fault then { st with ledger := st.ledger.close req.id .fail } else st.settleFirstToken req (oracle req.id [])

/-- admit one request: onto the lane, beside the live batch, or on its own -/
def admitAndPrefill (cfg : Config) (env : Intake) (req : Request) (st : State) : Except State (State × Turn) :=
  match st.prepareNewcomer req env.door with
  | (st, .done) => .ok (st, .more)
  | (st, .requeue) => .ok ({ st with pending := req :: st.pending }, .stop)
  | (st, .ready) =>
    if cfg.hasLane && !st.active.isEmpty && !req.scored then
      if env.prefillFault then .ok ({ st with ledger := st.ledger.close req.id .fail }, .more)
      else .ok ({ st with lane := some req }, .more)
    else
      match (if st.active.isEmpty then .ok st else st.drainPipeline env.readFault : Except State State) with
      | .error st => .error st
      | .ok st =>
        if !st.active.isEmpty && !req.scored && env.mixedFits then
          let st := st.readyDecodeRows env.short
          if st.active.isEmpty then .ok (st.soloPrefill oracle req env.prefillFault, .more)
          else
            let (newcomers, st) := gather env.gathered [req] st
            match st.mixedAdmission oracle cfg env newcomers with
            | .error st => .error st
            | .ok st => .ok (st, .more)
        else .ok (st.soloPrefill oracle req env.prefillFault, .more)

/-- a turn's intake: from the queue head until the slots are full, the lane is busy, a walk starts or one has to wait -/
def admitFromQueue (cfg : Config) : List Intake → State → Except State State
  | [], st => .ok st
  | env :: envs, st =>
    if cfg.slots ≤ st.active.length || st.lane.isSome then .ok st
    else
      match st.pending with
      | [] => .ok st
      | req :: rest =>
        match { st with pending := rest }.admitAndPrefill oracle cfg env req with
        | .error st => .error st
        | .ok (st, .stop) => .ok st
        | .ok (st, .more) => if st.walk.isSome then .ok st else admitFromQueue cfg envs st

/-- join a completed overlapped prefill; `bad` is a frontier or window release that fails -/
def joinAsyncPrefill (st : State) (readFault bad : Bool) : Except State State :=
  match st.lane with
  | none => .ok st
  | some req =>
    match st.drainPipeline readFault with
    | .error st => .error st
    | .ok st =>
      let st := { st with lane := none }
      if st.ledger.isAborted req.id then .ok { st with ledger := st.ledger.retire req.id }
      else if bad then .ok { st with ledger := st.ledger.close req.id .fail }
      else .ok (st.settleFirstToken req (oracle req.id []))

/-! ### The chunked walk -/

structure WalkEnv where
  short : ℕ → Bool
  /-- the walkers whose segment the pools refuse -/
  segShort : ℕ → Bool
  /-- the walkers whose plain walk fails -/
  tailFault : ℕ → Bool
  stepFault : Bool

/-- aborted walkers leave -/
def retireWalkers : List Walker → Ledger → List Walker × Ledger
  | [], ledger => ([], ledger)
  | w :: ws, ledger =>
    if !w.failed && ledger.isAborted w.req.id then
      let (ws', ledger') := retireWalkers ws (ledger.retire w.req.id)
      ({ w with failed := true } :: ws', ledger')
    else
      let (ws', ledger') := retireWalkers ws ledger
      (w :: ws', ledger')

attribute [grind =] retireWalkers

/-- walkers with their first token join the batch -/
def graduateReady : List Walker → State → List Walker × State
  | [], st => ([], st)
  | w :: ws, st =>
    match w.failed, w.first with
    | false, some t => graduateReady ws (st.settleFirstToken w.req t)
    | _, _ =>
      let (ws', st') := graduateReady ws st
      (w :: ws', st')

attribute [grind =] graduateReady

/-- each walker's share of the round's budget -/
def takeSegments (segShort : ℕ → Bool) : ℕ → List Walker → Ledger → List (Walker × ℕ) × Ledger
  | _, [], ledger => ([], ledger)
  | budget, w :: ws, ledger =>
    let take := min w.rest budget
    if w.failed || take = 0 then
      let (ws', ledger') := takeSegments segShort budget ws ledger
      ((w, 0) :: ws', ledger')
    else if segShort w.req.id then
      let (ws', ledger') := takeSegments segShort budget ws (ledger.close w.req.id .fail)
      (({ w with failed := true }, 0) :: ws', ledger')
    else
      let (ws', ledger') := takeSegments segShort (budget - take) ws ledger
      ((w, take) :: ws', ledger')

attribute [grind =] takeSegments

def finishPlainWalkers (tailFault : ℕ → Bool) : List Walker → Ledger → List Walker × Ledger
  | [], ledger => ([], ledger)
  | w :: ws, ledger =>
    if w.failed || w.rest = 0 then
      let (ws', ledger') := finishPlainWalkers tailFault ws ledger
      (w :: ws', ledger')
    else if tailFault w.req.id then
      let (ws', ledger') := finishPlainWalkers tailFault ws (ledger.close w.req.id .fail)
      ({ w with failed := true } :: ws', ledger')
    else
      let (ws', ledger') := finishPlainWalkers tailFault ws ledger
      ({ w with rest := 0, first := some (oracle w.req.id []) } :: ws', ledger')

attribute [grind =] finishPlainWalkers

/-- the segment's rows are behind the walker; a last segment gives its first token -/
def advanceWalker (p : Walker × ℕ) : Walker :=
  if p.2 = 0 then p.1
  else { p.1 with rest := p.1.rest - p.2,
                  first := if p.2 = p.1.rest then some (oracle p.1.req.id []) else p.1.first }

/-- one round of the walk; the walk goes on while a walker has no first token yet -/
def advanceWalkRound (chunk : ℕ) (env : WalkEnv) (walk : Walk) (st : State) : Except State State :=
  let (ws, ledger) := retireWalkers walk.walkers st.ledger
  let (ws, st) := graduateReady ws { st with ledger := ledger }
  if !ws.any (fun w => !w.failed && 0 < w.rest) then .ok st
  else
    let st := if walk.firstRound then st else st.readyDecodeRows env.short
    if st.active.isEmpty then
      if env.stepFault then .error { st with stopped := some .device }
      else
        let (ws, ledger) := finishPlainWalkers oracle env.tailFault ws st.ledger
        let (_, st) := graduateReady ws { st with ledger := ledger }
        .ok st
    else
      let (taken, ledger) := takeSegments env.segShort chunk ws st.ledger
      let st := { st with ledger := ledger }
      let riders := (taken.filter fun p => p.2 ≠ 0).map fun p => p.1.req.id
      if env.stepFault || riders.isEmpty then
        .error (st.failMixed (taken.map fun p => p.1.req))
      else
        let (ws, st) := graduateReady (taken.map (advanceWalker oracle)) (st.wholeStep oracle riders)
        if ws.any (fun w => !w.failed && w.first.isNone) then .ok { st with walk := some ⟨ws, false⟩ } else .ok st

/-- the driver takes the walk and puts it back while it goes on -/
def advanceWalk (cfg : Config) (env : WalkEnv) (st : State) : Except State State :=
  match st.walk with
  | none => .ok st
  | some walk => { st with walk := none }.advanceWalkRound oracle (cfg.mixChunk.getD 0) env walk

/-! ### The driver's turn -/

structure StepEnv where
  /-- the lane's prefill has completed, or is waited for -/
  laneReady : Bool
  laneBad : Bool
  joinReadFault : Bool
  intake : List Intake
  round : RoundEnv
  walk : WalkEnv

def turn (cfg : Config) (env : StepEnv) (st : State) : Except State State :=
  if st.walk.isSome then st.advanceWalk oracle cfg env.walk
  else
    match (if env.laneReady then st.joinAsyncPrefill oracle env.joinReadFault env.laneBad else .ok st : Except State State)
    with
    | .error st => .error st
    | .ok st =>
      match st.admitFromQueue oracle cfg env.intake with
      | .error st => .error st
      | .ok st =>
        if st.walk.isSome then st.advanceWalk oracle cfg env.walk
        else if st.active.isEmpty then .ok st
        else st.decodeRound oracle cfg env.round

end State

inductive Op
  | submit (req : Request)
  | abort (id : ℕ)
  | turn (env : State.StepEnv)

inductive Misuse
  | reusedId
  | stopped
deriving DecidableEq, Repr

/-- one operation; a stopped engine takes no more turns -/
def step (cfg : Config) (st : State) : Op → Except Misuse State
  | .submit req =>
    if (st.ledger req.id).isSome then .error .reusedId
    else .ok { st with pending := st.pending ++ [req]
                       ledger := Function.update st.ledger req.id (some ⟨req, [], false, true⟩) }
  | .abort id => .ok { st with ledger := st.ledger.modify id fun a => { a with aborted := true } }
  | .turn env =>
    if st.stopped.isSome then .error .stopped
    else
      match st.turn oracle cfg env with
      | .ok st => .ok st
      | .error st => .ok st

end Engine

end Pegainfer.Gemma4.Pipeline
