/-
`KvStore::resolve_prefix`: the read path over the pool and a host tier, as a machine whose steps are the stretches of
the async function between its awaits.

A resolve probes the pool, asks the tier for the blocks past the GPU hit, and asks again while the tier is loading or
the pool refuses the destination blocks. Query and load run as detached tasks: a wait given up at the deadline leaves
the task behind, with the lease its answer may bring (`LeaseGuard`) or the reservation its load writes into. Who
schedules what is open: any task may settle, any deadline pass, any request be cancelled or dropped, and other holders
use the pool, between any two steps.
The tier is what it answers. It mints one lease for each query it answers with a hit; `loads` and `releases` are the
calls that consume one.
-/
import Mathlib.Tactic
import Pegainfer.Lib.Custody
import Pegainfer.KvStore.Pool

namespace Pegainfer.KvStore

open Pegainfer.Kvbm Pegainfer.Lib

variable {H : Type} [DecidableEq H] [BlockHash H]

/-- a hit's lease and the number of blocks it covers -/
structure LeasedBlocks where
  lease : ℕ
  blocks : ℕ
deriving DecidableEq, Repr

/-- what the tier answers; an error and a failed task are one -/
inductive TierQuery
  | miss
  | loading
  | hit (blocks : ℕ)
  | failed
deriving DecidableEq, Repr

/-- a settled query task's output, the hit inside its guard -/
inductive QueryOutcome
  | miss
  | loading
  | hit (hit : LeasedBlocks)
  | failed
deriving DecidableEq, Repr

/-- how a load ends: the task's output, or its panic -/
inductive LoadResult
  | landed
  | failed
  | panicked
deriving DecidableEq, Repr

/-- a submitted load; `slot` is the reservation it writes into -/
structure Load where
  lease : ℕ
  slot : ℕ
  pages : List BlockId
deriving DecidableEq, Repr

/-- what a resolve returns: the tokens it credits and the blocks its hold pins -/
structure KvPrefix (H : Type) where
  hitTokens : ℕ
  held : List (ImmutableBlock H)

def KvPrefix.none : KvPrefix H := ⟨0, []⟩

/-- where a resolve is; it owns its probe, an entry of the world's table -/
inductive Phase (H : Type)
  | fresh
  | looping (k : ℕ) (probe : PrefixProbe H)
  | querying (k : ℕ) (probe : PrefixProbe H) (settled : Option QueryOutcome)
  | paused (k : ℕ) (probe : PrefixProbe H)
  | reserved (k : ℕ) (probe : PrefixProbe H) (hit : LeasedBlocks) (slot : ℕ) (pages : List BlockId)
  | loading (k : ℕ) (probe : PrefixProbe H) (load : Load) (settled : Option LoadResult)
  | returned (result : KvPrefix H) (hold : Option (ℕ × PrefixProbe H))

structure Resolve (H : Type) where
  promptTokens : List Token
  saltHash : SaltHash
  fullPages : Bool
  waitForFullHit : Bool
  phase : Phase H

/-- one rank's surfaces, the resolves that use them, and what the tier was asked -/
structure RankState (H : Type) where
  world : World H
  /-- whether the rank has a host tier -/
  tier : Bool
  resolves : List (Resolve H)
  /-- query tasks whose wait was given up, not settled yet -/
  strayQueries : ℕ
  /-- load tasks whose wait was given up, not settled yet -/
  strayLoads : List Load
  /-- leases minted so far: `0, …, minted - 1` -/
  minted : ℕ
  loads : List ℕ
  releases : List ℕ

/-! ## What a resolve owns -/

namespace Phase

/-- the probe it owns -/
def probes : Phase H → Multiset (ℕ × PrefixProbe H)
  | .looping k pr | .querying k pr _ | .paused k pr | .reserved k pr _ _ _ | .loading k pr _ _ => {(k, pr)}
  | .returned _ (some hold) => {hold}
  | .returned _ .none | .fresh => 0

/-- the reservation it owns: a load task that panicked dropped it -/
def reservations : Phase H → Multiset (ℕ × List BlockId)
  | .reserved _ _ _ j pages => {(j, pages)}
  | .loading _ _ ld settled => if settled = some .panicked then 0 else {(ld.slot, ld.pages)}
  | _ => 0

/-- the lease it owns -/
def leases : Phase H → Multiset ℕ
  | .querying _ _ (some (.hit l)) => {l.lease}
  | .reserved _ _ l _ _ => {l.lease}
  | _ => 0

/-- the load it waits for, not settled yet -/
def inFlight : Phase H → List Load
  | .loading _ _ ld none => [ld]
  | _ => []

end Phase

namespace RankState

def probes (s : RankState H) : Multiset (ℕ × PrefixProbe H) := (s.resolves.map fun r => r.phase.probes).sum

def reservations (s : RankState H) : Multiset (ℕ × List BlockId) :=
  (s.resolves.map fun r => r.phase.reservations).sum + (s.strayLoads.map fun ld => (ld.slot, ld.pages))

def leases (s : RankState H) : Multiset ℕ := (s.resolves.map fun r => r.phase.leases).sum

/-- the loads submitted and not settled -/
def inFlight (s : RankState H) : List Load := s.resolves.flatMap (fun r => r.phase.inFlight) ++ s.strayLoads

/-! ## The steps -/

def setPhase (s : RankState H) (i : ℕ) (r : Resolve H) (phase : Phase H) (w : World H) : RankState H :=
  { s with world := w, resolves := s.resolves.set i { r with phase := phase } }

/-- `tier.release`, or the drop of an unread guard -/
def release (s : RankState H) (hit : LeasedBlocks) : RankState H := { s with releases := s.releases ++ [hit.lease] }

/-- the probe is dropped, `KvPrefix::none` returned -/
def giveUp (s : RankState H) (i : ℕ) (r : Resolve H) (k : ℕ) : Except String (RankState H) :=
  match s.world.step (.dropProbe k) with
  | .error e => .error e
  | .ok w => .ok (s.setPhase i r (.returned .none none) w)

/-- the `finish` closure: the hold pins exactly what is credited -/
def finish (s : RankState H) (i : ℕ) (r : Resolve H) (k : ℕ) (probe : PrefixProbe H) : Except String (RankState H) :=
  let hitBlocks := min probe.held.length probe.cacheable
  if hitBlocks = 0 then s.giveUp i r k
  else
    match s.world.step (.truncateHeld k hitBlocks) with
    | .error e => .error e
    | .ok w =>
      .ok (s.setPhase i r (.returned ⟨hitBlocks * s.world.pool.blockSize, probe.held.take hitBlocks⟩
        (some (k, { probe with held := probe.held.take hitBlocks }))) w)

/-- up to the loop: cancel check, probe, and the returns that ask no tier -/
def start (s : RankState H) (i : ℕ) (r : Resolve H) (cancelled : Bool) : Except String (RankState H) :=
  if cancelled then .ok (s.setPhase i r (.returned .none none) s.world)
  else
    let k := s.world.probes.length
    match s.world.step (.probe r.promptTokens r.saltHash) with
    | .error e => .error e
    | .ok w₁ =>
      match (if r.fullPages then w₁.step (.includeFinalBlock k) else .ok w₁) with
      | .error e => .error e
      | .ok w₂ =>
        match w₂.probe? k with
        | none => .error "the probe is gone"
        | some probe =>
          if s.tier && decide (probe.gpuHit < probe.cacheable) then .ok (s.setPhase i r (.looping k probe) w₂)
          else finish { s with world := w₂ } i r k probe

/-- the loop head: cancel check, then the query goes out -/
def poll (s : RankState H) (i : ℕ) (r : Resolve H) (k : ℕ) (probe : PrefixProbe H) (cancelled : Bool) :
    Except String (RankState H) :=
  if cancelled then s.giveUp i r k else .ok (s.setPhase i r (.querying k probe none) s.world)

/-- the query task gets its answer; a hit's lease goes into the guard -/
def settleQuery (s : RankState H) (i : ℕ) (r : Resolve H) (k : ℕ) (probe : PrefixProbe H) : TierQuery → RankState H
  | .miss => s.setPhase i r (.querying k probe (some .miss)) s.world
  | .loading => s.setPhase i r (.querying k probe (some .loading)) s.world
  | .failed => s.setPhase i r (.querying k probe (some .failed)) s.world
  | .hit n =>
    { s.setPhase i r (.querying k probe (some (.hit ⟨s.minted, n⟩))) s.world with minted := s.minted + 1 }

/-- nobody reads this task's output: a hit's guard drops with it -/
def settleStrayQuery (s : RankState H) : TierQuery → RankState H
  | .hit n => { s.release ⟨s.minted, n⟩ with minted := s.minted + 1, strayQueries := s.strayQueries - 1 }
  | _ => { s with strayQueries := s.strayQueries - 1 }

/-- after an answer that is no hit to take: return at the deadline, else pause -/
def retry (s : RankState H) (i : ℕ) (r : Resolve H) (k : ℕ) (probe : PrefixProbe H) (late : Bool) :
    Except String (RankState H) :=
  if late then s.finish i r k probe else .ok (s.setPhase i r (.paused k probe) s.world)

/-- the awaited query's output is read -/
def resumeQuery (s : RankState H) (i : ℕ) (r : Resolve H) (k : ℕ) (probe : PrefixProbe H) (late : Bool) :
    QueryOutcome → Except String (RankState H)
  | .failed => s.finish i r k probe
  | .miss => if r.waitForFullHit then s.retry i r k probe late else s.finish i r k probe
  | .loading => s.retry i r k probe late
  | .hit l =>
    match s.world.step (.reserve l.blocks) with
    | .error e => .error e
    | .ok w =>
      match w.reservation? s.world.reservations.length with
      | some pages => .ok (s.setPhase i r (.reserved k probe l s.world.reservations.length pages) w)
      | none => (s.release l).retry i r k probe late

/-- the wait for a query is given up; an output that is already there is dropped unread -/
def abandonQuery (s : RankState H) : Option QueryOutcome → RankState H
  | none => { s with strayQueries := s.strayQueries + 1 }
  | some (.hit l) => s.release l
  | some _ => s

/-- the reservation is in hand: last cancel check, then the load goes out with it -/
def launch (s : RankState H) (i : ℕ) (r : Resolve H) (k : ℕ) (probe : PrefixProbe H) (l : LeasedBlocks) (slot : ℕ)
    (pages : List BlockId) (cancelled : Bool) : Except String (RankState H) :=
  if cancelled then
    match s.world.step (.dropReservation slot) with
    | .error e => .error e
    | .ok w => giveUp { s.release l with world := w } i r k
  else
    .ok { s.setPhase i r (.loading k probe ⟨l.lease, slot, pages⟩ none) s.world with loads := s.loads ++ [l.lease] }

/-- the load ends; a panic unwinds through the reservation -/
def settleLoad (s : RankState H) (i : ℕ) (r : Resolve H) (k : ℕ) (probe : PrefixProbe H) (ld : Load) :
    LoadResult → Except String (RankState H)
  | .panicked =>
    match s.world.step (.dropReservation ld.slot) with
    | .error e => .error e
    | .ok w => .ok (s.setPhase i r (.loading k probe ld (some .panicked)) w)
  | result => .ok (s.setPhase i r (.loading k probe ld (some result)) s.world)

/-- nobody waits for this load: its reservation drops when it ends -/
def settleStrayLoad (s : RankState H) (n : ℕ) (ld : Load) : Except String (RankState H) :=
  match s.world.step (.dropReservation ld.slot) with
  | .error e => .error e
  | .ok w => .ok { s with world := w, strayLoads := s.strayLoads.eraseIdx n }

/-- the awaited load's output is read -/
def resumeLoad (s : RankState H) (i : ℕ) (r : Resolve H) (k : ℕ) (probe : PrefixProbe H) (ld : Load) :
    LoadResult → Except String (RankState H)
  | .landed =>
    match s.world.step (.commit k ld.slot) with
    | .error e => .error e
    | .ok w =>
      match w.probe? k with
      | none => .error "the probe is gone"
      | some probe' => finish { s with world := w } i r k probe'
  | .failed =>
    match s.world.step (.dropReservation ld.slot) with
    | .error e => .error e
    | .ok w => finish { s with world := w } i r k probe
  | .panicked => s.finish i r k probe

/-- the wait for a load is given up: the task keeps the reservation, or its unread output drops it -/
def abandonLoad (s : RankState H) (ld : Load) : Option LoadResult → Except String (RankState H)
  | none => .ok { s with strayLoads := s.strayLoads ++ [ld] }
  | some .panicked => .ok s
  | some _ =>
    match s.world.step (.dropReservation ld.slot) with
    | .error e => .error e
    | .ok w => .ok { s with world := w }

/-- the probes an operation names -/
def opProbes : Op → List ℕ
  | .includeFinalBlock k | .truncateHeld k _ | .dropProbe k | .commit k _ => [k]
  | _ => []

/-- the reservations an operation names -/
def opReservations : Op → List ℕ
  | .dropReservation j | .commit _ j => [j]
  | _ => []

/-- the operation leaves what the resolves own alone -/
def Foreign (s : RankState H) (o : Op) : Prop :=
  (∀ k ∈ opProbes o, k ∉ s.probes.map Prod.fst) ∧ ∀ j ∈ opReservations o, j ∉ s.reservations.map Prod.fst

instance (s : RankState H) (o : Op) : Decidable (s.Foreign o) := by unfold Foreign; infer_instance

end RankState

/-- what happens to a resolve; the flags are what the cancel probe or the clock shows at that moment -/
inductive Event
  | start (cancelled : Bool)
  | poll (cancelled : Bool)
  | settleQuery (answer : TierQuery)
  | resumeQuery (late : Bool)
  | timeoutQuery
  | wake
  | launch (cancelled : Bool)
  | settleLoad (result : LoadResult)
  | resumeLoad
  | timeoutLoad
  /-- the future is dropped at an await, or was never polled -/
  | abort
  /-- the caller drops the returned prefix -/
  | dropPrefix
deriving DecidableEq, Repr

inductive Act
  | pool (o : Op)
  | resolve (promptTokens : List Token) (saltHash : SaltHash) (fullPages waitForFullHit : Bool)
  | settleStrayQuery (answer : TierQuery)
  | settleStrayLoad (n : ℕ)
  | on (i : ℕ) (event : Event)
deriving DecidableEq, Repr

namespace RankState

/-- one step of resolve `i`; an event that does not fit its phase does nothing -/
def resolveStep (s : RankState H) (i : ℕ) (r : Resolve H) : Event → Except String (RankState H)
  | .start cancelled =>
    match r.phase with
    | .fresh => s.start i r cancelled
    | _ => .ok s
  | .poll cancelled =>
    match r.phase with
    | .looping k pr => s.poll i r k pr cancelled
    | _ => .ok s
  | .settleQuery answer =>
    match r.phase with
    | .querying k pr none => .ok (s.settleQuery i r k pr answer)
    | _ => .ok s
  | .resumeQuery late =>
    match r.phase with
    | .querying k pr (some o) => s.resumeQuery i r k pr late o
    | _ => .ok s
  | .timeoutQuery =>
    match r.phase with
    | .querying k pr o => (s.abandonQuery o).finish i r k pr
    | _ => .ok s
  | .wake =>
    match r.phase with
    | .paused k pr => .ok (s.setPhase i r (.looping k pr) s.world)
    | _ => .ok s
  | .launch cancelled =>
    match r.phase with
    | .reserved k pr l j pages => s.launch i r k pr l j pages cancelled
    | _ => .ok s
  | .settleLoad result =>
    match r.phase with
    | .loading k pr ld none => s.settleLoad i r k pr ld result
    | _ => .ok s
  | .resumeLoad =>
    match r.phase with
    | .loading k pr ld (some result) => s.resumeLoad i r k pr ld result
    | _ => .ok s
  | .timeoutLoad =>
    match r.phase with
    | .loading k pr ld o =>
      match s.abandonLoad ld o with
      | .error e => .error e
      | .ok s' => s'.finish i r k pr
    | _ => .ok s
  | .abort =>
    match r.phase with
    | .fresh => .ok (s.setPhase i r (.returned .none none) s.world)
    | .querying k _ o => (s.abandonQuery o).giveUp i r k
    | .paused k _ => s.giveUp i r k
    | .loading k _ ld o =>
      match s.abandonLoad ld o with
      | .error e => .error e
      | .ok s' => s'.giveUp i r k
    | _ => .ok s
  | .dropPrefix =>
    match r.phase with
    | .returned p (some (k, _)) =>
      match s.world.step (.dropProbe k) with
      | .error e => .error e
      | .ok w => .ok (s.setPhase i r (.returned p none) w)
    | _ => .ok s

def step (s : RankState H) : Act → Except String (RankState H)
  | .pool o =>
    if s.Foreign o then
      match s.world.step o with
      | .error e => .error e
      | .ok w => .ok { s with world := w }
    else .ok s
  | .resolve tokens salt fullPages waitForFullHit =>
    .ok { s with resolves := s.resolves ++ [⟨tokens, salt, fullPages, waitForFullHit, .fresh⟩] }
  | .settleStrayQuery answer => .ok (if s.strayQueries = 0 then s else s.settleStrayQuery answer)
  | .settleStrayLoad n =>
    match s.strayLoads[n]? with
    | none => .ok s
    | some ld => s.settleStrayLoad n ld
  | .on i event =>
    match s.resolves[i]? with
    | none => .ok s
    | some r => s.resolveStep i r event

/-- a store over a fresh pool, nothing asked yet -/
def init (w : World H) (tier : Bool) : RankState H := ⟨w, tier, [], 0, [], 0, [], []⟩

end RankState

end Pegainfer.KvStore
