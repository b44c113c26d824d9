/-
The logical KV pool of pegainfer-kv-store: a block store with a leaked padding block, the entitlement counter, and the
values it hands out (requests, prefix probes, load reservations, offload pins).

`EntitledSeq` settles every change of a request's resident blocks against the pool's counter while the request is
admitted. `World` is the pool with everything that is out at one time; `step` is one operation of one holder. The pool's
mutexes make each operation atomic, except that the last reference to a registered block may be gone for a while before
its slot is released: `finishDrop` is that release.
-/
import Mathlib.Tactic
import Pegainfer.Kvbm.Calls

namespace Pegainfer.KvStore

open Pegainfer.Kvbm

variable {H : Type} [DecidableEq H] [BlockHash H]

/-- `u32::MAX` -/
def PAD_TOKEN_ID : Token := 2 ^ 32 - 1

/-- `RequestKv::page_indices`: every block held, in sequence order -/
def pageIndices (kv : SchedulableSequence H) : List BlockId :=
  kv.assigned.map ImmutableBlock.blockId ++ kv.staged.map Prod.fst ++ kv.unassigned

/-- `RequestKv::step_page_indices`: the pages of the tokens present after a step of `newTokens` -/
def stepPageIndices (kv : SchedulableSequence H) (newTokens : ℕ) : List BlockId :=
  (pageIndices kv).take (divCeil (kv.kvPosition + newTokens) kv.blockSize)

structure BlockPool (H : Type) where
  store : BlockStore H
  blockSize : ℕ
  paddingBlockId : BlockId
  /-- blocks promised to admitted requests but not yet drawn -/
  entitled : ℤ

/-! ## Admitted requests -/

/-- a sequence with its share of the counter; `lifetimeBlocks` is frozen at construction -/
structure EntitledSeq (H : Type) where
  seq : SchedulableSequence H
  admitted : Bool
  lifetimeBlocks : ℕ

namespace EntitledSeq

def resident (e : EntitledSeq H) : ℤ := e.seq.residentBlocks

/-- the un-drawn lifetime remainder -/
def remaining (e : EntitledSeq H) : ℤ := e.lifetimeBlocks - e.resident

/-- runs a sequence call and settles the resident delta -/
def withDraw (e : EntitledSeq H) (c : SchedulableSequence.Call) (p : BlockPool H) :
    Except String (SchedulableSequence.CallResult × EntitledSeq H × BlockPool H) :=
  match e.seq.call c p.store with
  | .error s => .error s
  | .ok (r, seq', σ') =>
    let e' := { e with seq := seq' }
    .ok (r, e', { p with
      store := σ'
      entitled := if e.admitted then p.entitled + (e.resident - e'.resident) else p.entitled })

/-- terminal refund of the remainder -/
def retire (e : EntitledSeq H) (p : BlockPool H) : EntitledSeq H × BlockPool H :=
  if e.admitted then ({ e with admitted := false }, { p with entitled := p.entitled - e.remaining }) else (e, p)

/-- `RequestKv::try_admit` -/
def tryAdmit (e : EntitledSeq H) (creditedBlocks : ℕ) (p : BlockPool H) : Bool × EntitledSeq H × BlockPool H :=
  if e.admitted then (true, e, p)
  else if p.store.available + creditedBlocks < p.entitled.toNat + e.remaining.toNat then (false, e, p)
  else (true, { e with admitted := true }, { p with entitled := p.entitled + e.remaining })

/-- a `RequestKv` method: release refunds the remainder before the blocks return -/
def request (e : EntitledSeq H) (c : SchedulableSequence.Call) (p : BlockPool H) :
    Except String (SchedulableSequence.CallResult × EntitledSeq H × BlockPool H) :=
  match c with
  | .release => (e.retire p).1.withDraw .release (e.retire p).2
  | c => e.withDraw c p

/-- the remainder is refunded, then the blocks are dropped -/
def drop (e : EntitledSeq H) (p : BlockPool H) : BlockPool H :=
  { (e.retire p).2 with store := (e.seq.clear (e.retire p).2.store).2 }

end EntitledSeq

/-- a prompt's prefix resolved against the pool; `held` pins it -/
structure PrefixProbe (H : Type) where
  seqHashes : List H
  gpuHit : ℕ
  cacheable : ℕ
  held : List (ImmutableBlock H)

namespace BlockPool

def new [Inhabited H] (blockSize numBlocks : ℕ) : Except String (BlockPool H × ImmutableBlock H) :=
  if numBlocks < 2 then .error "need at least 2 blocks (1 for padding)"
  else if ¬ (0 < blockSize ∧ blockSize &&& (blockSize - 1) = 0 ∧ blockSize ≤ 1024) then
    .error "block_size must be a power of two in 2..=1024"
  else
    match (BlockStore.new numBlocks false : BlockStore H).allocateBlocks 1 with
    | .ok (some (b :: _, σ)) =>
      match (σ.stage b default).registerBlock b default with
      | .ok (padding, σ') => .ok (⟨σ', blockSize, b, 0⟩, padding)
      | .error e => .error e
    | .ok _ => .error "a fresh pool always has a block for padding"
    | .error e => .error e

def newRequest (p : BlockPool H) (promptTokens : List Token) (maxOutputTokens : ℕ) (saltHash : SaltHash) :
    EntitledSeq H where
  seq := .new promptTokens maxOutputTokens p.blockSize saltHash
  admitted := false
  lifetimeBlocks := divCeil (promptTokens.length + maxOutputTokens) p.blockSize

/-- `probe_prefix_with_cache_salt`: pins the resident prefix; reuse stops before the last prompt token -/
def probePrefix (p : BlockPool H) (promptTokens : List Token) (saltHash : SaltHash) :
    Except String (PrefixProbe H × BlockPool H) :=
  let seqHashes := (SchedulableSequence.new promptTokens 0 p.blockSize saltHash).allSequenceHashes
  match p.store.matchBlocks seqHashes with
  | .error e => .error e
  | .ok (hits, σ) =>
    .ok (⟨seqHashes, hits.length, (promptTokens.length - 1) / p.blockSize, hits⟩, { p with store := σ })

/-- opportunistic: stays above the entitled floor -/
def reserveLoadedBlocks (p : BlockPool H) (count : ℕ) : Except String (Option (List BlockId × BlockPool H)) :=
  if p.store.available < count + p.entitled.toNat then .ok none
  else
    match p.store.allocateBlocks count with
    | .error e => .error e
    | .ok none => .ok none
    | .ok (some (ids, σ)) => .ok (some (ids, { p with store := σ }))

/-- the loaded blocks, staged and registered one by one under the given hashes -/
def commitBlocks (σ : BlockStore H) : List BlockId → List H → Except String (List (ImmutableBlock H) × BlockStore H)
  | [], _ => .ok ([], σ)
  | _ :: _, [] => .error "index out of bounds"
  | b :: bs, k :: ks =>
    match (σ.stage b k).registerBlock b k with
    | .error e => .error e
    | .ok (x, σ') =>
      match commitBlocks σ' bs ks with
      | .error e => .error e
      | .ok (xs, σ'') => .ok (x :: xs, σ'')

/-- registers a reservation under the probe's continuation hashes and folds it into the probe -/
def commitLoadedBlocks (p : BlockPool H) (probe : PrefixProbe H) (reservation : List BlockId) :
    Except String (PrefixProbe H × BlockPool H) :=
  match commitBlocks p.store reservation (probe.seqHashes.drop probe.gpuHit) with
  | .error e => .error e
  | .ok (xs, σ) => .ok ({ probe with held := probe.held ++ xs }, { p with store := σ })

end BlockPool

/-! ## Everything that is out -/

/-- the pool and all it handed out; a dropped value leaves `none` -/
structure World (H : Type) where
  pool : BlockPool H
  padding : ImmutableBlock H
  requests : List (Option (EntitledSeq H))
  probes : List (Option (PrefixProbe H))
  reservations : List (Option (List BlockId))
  /-- `KvBlockGuard`s taken for an offload save -/
  guards : List (List (ImmutableBlock H))

inductive Op
  | newRequest (promptTokens : List Token) (maxOutputTokens : ℕ) (saltHash : SaltHash)
  | tryAdmit (i credited : ℕ)
  | call (i : ℕ) (c : SchedulableSequence.Call)
  | dropRequest (i : ℕ)
  | probe (promptTokens : List Token) (saltHash : SaltHash)
  | includeFinalBlock (i : ℕ)
  | truncateHeld (i blocks : ℕ)
  | dropProbe (i : ℕ)
  | reserve (count : ℕ)
  | dropReservation (i : ℕ)
  | commit (probe reservation : ℕ)
  | guardAssigned (i : ℕ)
  | dropGuards (i : ℕ)
  | finishDrop (ptr : Ptr)
deriving DecidableEq, Repr

namespace World

def new [Inhabited H] (blockSize numBlocks : ℕ) : Except String (World H) :=
  match (BlockPool.new blockSize numBlocks : Except String (BlockPool H × ImmutableBlock H)) with
  | .error e => .error e
  | .ok (p, padding) => .ok ⟨p, padding, [], [], [], []⟩

/-- the request in slot `i`, if it is live -/
def request? (w : World H) (i : ℕ) : Option (EntitledSeq H) := w.requests[i]?.join

def probe? (w : World H) (i : ℕ) : Option (PrefixProbe H) := w.probes[i]?.join

def reservation? (w : World H) (i : ℕ) : Option (List BlockId) := w.reservations[i]?.join

def setRequest (w : World H) (i : ℕ) (e : Option (EntitledSeq H)) (p : BlockPool H) : World H :=
  { w with pool := p, requests := w.requests.set i e }

/-- one operation of one holder; on a value that is gone it does nothing -/
def step (w : World H) : Op → Except String (World H)
  | .newRequest tokens maxOutput salt =>
    .ok { w with requests := w.requests ++ [some (w.pool.newRequest tokens maxOutput salt)] }
  | .tryAdmit i credited =>
    match w.request? i with
    | none => .ok w
    | some e => .ok (w.setRequest i (some (e.tryAdmit credited w.pool).2.1) (e.tryAdmit credited w.pool).2.2)
  | .call i c =>
    match w.request? i with
    | none => .ok w
    | some e =>
      match e.request c w.pool with
      | .error s => .error s
      | .ok (_, e', p) => .ok (w.setRequest i (some e') p)
  | .dropRequest i =>
    match w.request? i with
    | none => .ok w
    | some e => .ok (w.setRequest i none (e.drop w.pool))
  | .probe tokens salt =>
    match w.pool.probePrefix tokens salt with
    | .error s => .error s
    | .ok (pr, p) => .ok { w with pool := p, probes := w.probes ++ [some pr] }
  | .includeFinalBlock i =>
    match w.probe? i with
    | none => .ok w
    | some pr => .ok { w with probes := w.probes.set i (some { pr with cacheable := pr.seqHashes.length }) }
  | .truncateHeld i blocks =>
    match w.probe? i with
    | none => .ok w
    | some pr =>
      .ok { w with
        pool := { w.pool with store := w.pool.store.dropImmutables (pr.held.drop blocks) }
        probes := w.probes.set i (some { pr with held := pr.held.take blocks }) }
  | .dropProbe i =>
    match w.probe? i with
    | none => .ok w
    | some pr =>
      .ok { w with
        pool := { w.pool with store := w.pool.store.dropImmutables pr.held }
        probes := w.probes.set i none }
  | .reserve count =>
    match w.pool.reserveLoadedBlocks count with
    | .error s => .error s
    | .ok none => .ok w
    | .ok (some (ids, p)) => .ok { w with pool := p, reservations := w.reservations ++ [some ids] }
  | .dropReservation i =>
    match w.reservation? i with
    | none => .ok w
    | some ids =>
      .ok { w with
        pool := { w.pool with store := w.pool.store.dropMutables ids }
        reservations := w.reservations.set i none }
  | .commit i j =>
    match w.probe? i, w.reservation? j with
    | some pr, some ids =>
      match w.pool.commitLoadedBlocks pr ids with
      | .error s => .error s
      | .ok (pr', p) =>
        .ok { w with pool := p, probes := w.probes.set i (some pr'), reservations := w.reservations.set j none }
    | _, _ => .ok w
  | .guardAssigned i =>
    match w.request? i with
    | none => .ok w
    | some e =>
      .ok { w with
        pool := { w.pool with store := e.seq.assigned.foldl (fun σ x => σ.clone x.ptr) w.pool.store }
        guards := w.guards ++ [e.seq.assigned] }
  | .dropGuards i =>
    match w.guards[i]? with
    | none => .ok w
    | some xs =>
      .ok { w with
        pool := { w.pool with store := w.pool.store.dropImmutables xs }
        guards := w.guards.set i [] }
  | .finishDrop ptr =>
    match w.pool.store.inners.find? fun x => x.ptr = ptr ∧ w.pool.store.strong x.ptr = 0 with
    | none => .ok w
    | some x => .ok { w with pool := { w.pool with store := w.pool.store.dropInner x } }

attribute [grind =] step

end World

end Pegainfer.KvStore
