/-
The block store of kvbm-logical: every physical block is a slot that cycles through
reset, mutable, staged, primary or duplicate, and inactive, under one mutex.

Guards outside the store are values: a `MutableBlock` is its block id, a `CompleteBlock` its id and hash, an
`ImmutableBlock` a pointer to a reference-counted inner object. The inner objects that exist are listed in `inners`,
their strong counts in `strong`. Dropping the last strong reference and running the inner's `Drop` are two steps
(`dropImmutable`, then `dropInner`): in between, the slot is a primary whose weak pointer is dead, and a lookup by
hash moves it to the inactive index itself (`eagerPrimaryToInactive`).

The inactive index is the LRU backend: least recently inserted first. A panic is an error carrying its text.
-/
import Mathlib.Tactic

namespace Pegainfer.Kvbm

abbrev BlockId := ℕ

/-- address of a reference-counted inner block; never reused while a weak pointer to it exists -/
abbrev Ptr := ℕ

inductive SlotState (H : Type)
  | reset
  | mutable
  | staged (seqHash : H)
  | primary (seqHash : H) (inner : Ptr)
  | duplicate (seqHash : H) (inner : Ptr)
  | inactive (seqHash : H)
deriving DecidableEq, Repr

def SlotState.isInactive {H : Type} : SlotState H → Bool
  | .inactive _ => true
  | _ => false

/-- a registered block's shared object; a duplicate keeps its primary alive -/
structure ImmutableBlockInner (H : Type) where
  ptr : Ptr
  blockId : BlockId
  seqHash : H
  primaryKeepalive : Option Ptr
deriving DecidableEq, Repr

/-- a strong reference to a registered block -/
structure ImmutableBlock (H : Type) where
  ptr : Ptr
  blockId : BlockId
  seqHash : H
deriving DecidableEq, Repr

structure BlockStore (H : Type) where
  totalBlocks : ℕ
  slots : BlockId → SlotState H
  free : List BlockId
  inactive : List (H × BlockId)
  activeByHash : H → Option BlockId
  resetOnRelease : BlockId → Bool
  defaultResetOnRelease : Bool
  inners : List (ImmutableBlockInner H)
  strong : Ptr → ℕ
  nextPtr : Ptr

namespace BlockStore

variable {H : Type} [DecidableEq H]

def new (totalBlocks : ℕ) (defaultResetOnRelease : Bool) : BlockStore H where
  totalBlocks := totalBlocks
  slots := fun _ => .reset
  free := List.range totalBlocks
  inactive := []
  activeByHash := fun _ => none
  resetOnRelease := fun _ => defaultResetOnRelease
  defaultResetOnRelease := defaultResetOnRelease
  inners := []
  strong := fun _ => 0
  nextPtr := 0

/-- `available_len`: reset plus inactive -/
def available (σ : BlockStore H) : ℕ := σ.free.length + σ.inactive.length

def setSlot (σ : BlockStore H) (b : BlockId) (s : SlotState H) : BlockStore H :=
  { σ with slots := Function.update σ.slots b s }

/-! ## Allocation -/

/-- all or nothing: reset blocks first, then the least recently inserted inactive ones, whose hashes are reported -/
def allocateAtomic (σ : BlockStore H) (count : ℕ) : Except String (Option (List BlockId × List H × BlockStore H)) :=
  if count = 0 then .ok (some ([], [], σ))
  else if σ.available < count then .ok none
  else
    let fromReset := min count σ.free.length
    let fromInactive := count - fromReset
    let evicted := σ.inactive.take fromInactive
    if evicted.all fun e => (σ.slots e.2).isInactive then
      let ids := σ.free.take fromReset ++ evicted.map Prod.snd
      .ok (some (ids, evicted.map Prod.fst,
        { σ with
          free := σ.free.drop fromReset
          inactive := σ.inactive.drop fromInactive
          slots := fun b => if b ∈ ids then .mutable else σ.slots b
          resetOnRelease := fun b => if b ∈ ids then σ.defaultResetOnRelease else σ.resetOnRelease b }))
    else .error "take_inactive_handle: slot is not inactive"

/-- `BlockManager::allocate_blocks` -/
def allocateBlocks (σ : BlockStore H) (count : ℕ) : Except String (Option (List BlockId × BlockStore H)) :=
  match σ.allocateAtomic count with
  | .error e => .error e
  | .ok none => .ok none
  | .ok (some (ids, _, σ')) => .ok (some (ids, σ'))

/-! ## Lookup by hash -/

/-- one more strong reference to an inner block -/
def clone (σ : BlockStore H) (p : Ptr) : BlockStore H :=
  { σ with strong := Function.update σ.strong p (σ.strong p + 1) }

/-- a fresh inner block with one strong reference to it -/
def newInner (σ : BlockStore H) (b : BlockId) (h : H) (keepalive : Option Ptr) : BlockStore H :=
  { σ with
    inners := ⟨σ.nextPtr, b, h, keepalive⟩ :: σ.inners
    strong := Function.update σ.strong σ.nextPtr 1
    nextPtr := σ.nextPtr + 1 }

/-- a new canonical primary for `h` in slot `b` -/
def newPrimary (σ : BlockStore H) (b : BlockId) (h : H) : BlockStore H :=
  let σ' := (σ.newInner b h none).setSlot b (.primary h σ.nextPtr)
  { σ' with activeByHash := Function.update σ'.activeByHash h (some b) }

/-- the lookup beats the last holder's drop to the mutex -/
def eagerPrimaryToInactive (σ : BlockStore H) (h : H) (b : BlockId) : BlockStore H :=
  let σ' := σ.setSlot b (.inactive h)
  { σ' with
    inactive := σ.inactive ++ [(h, b)]
    activeByHash := Function.update σ.activeByHash h none }

/-- the inactive path of a lookup: promote the block to a primary again -/
def resurrect (σ : BlockStore H) (h : H) : Except String (Option (ImmutableBlock H) × BlockStore H) :=
  match σ.inactive.find? fun e => e.1 = h with
  | none => .ok (none, σ)
  | some (_, b) =>
    if (σ.slots b).isInactive then
      let σ' := { σ with inactive := σ.inactive.filter fun e => e.1 ≠ h }
      .ok (some ⟨σ.nextPtr, b, h⟩, σ'.newPrimary b h)
    else .error "take_inactive_handle: slot is not inactive"

/-- active path, else the eager transition of a dying primary, else the inactive path -/
def acquireForHash (σ : BlockStore H) (h : H) : Except String (Option (ImmutableBlock H) × BlockStore H) :=
  match σ.activeByHash h with
  | none => σ.resurrect h
  | some b =>
    match σ.slots b with
    | .primary h' p =>
      if 0 < σ.strong p then .ok (some ⟨p, b, h'⟩, σ.clone p)
      else (σ.eagerPrimaryToInactive h b).resurrect h
    | _ => .error "active_by_hash points at a slot that is not primary"

/-- walks the hashes left to right, stopping at the first that hits neither pool -/
def matchBlocks (σ : BlockStore H) : List H → Except String (List (ImmutableBlock H) × BlockStore H)
  | [] => .ok ([], σ)
  | h :: hs =>
    match σ.acquireForHash h with
    | .error e => .error e
    | .ok (none, σ') => .ok ([], σ')
    | .ok (some b, σ') =>
      match σ'.matchBlocks hs with
      | .error e => .error e
      | .ok (bs, σ'') => .ok (b :: bs, σ'')

/-! ## Staging and registration -/

/-- `MutableBlock::stage` -/
def stage (σ : BlockStore H) (b : BlockId) (h : H) : BlockStore H := σ.setSlot b (.staged h)

/-- `register_completed_block` under `BlockDuplicationPolicy::Allow`: the first registration of a hash is its primary,
a later one a duplicate that keeps the primary alive -/
def registerBlock (σ : BlockStore H) (b : BlockId) (h : H) : Except String (ImmutableBlock H × BlockStore H) :=
  match σ.acquireForHash h with
  | .error e => .error e
  | .ok (none, σ') => .ok (⟨σ'.nextPtr, b, h⟩, σ'.newPrimary b h)
  | .ok (some existing, σ') =>
    if existing.blockId = b then .error "register_completed_block: collision with same block_id"
    else
      .ok (⟨σ'.nextPtr, b, h⟩, (σ'.newInner b h (some existing.ptr)).setSlot b (.duplicate h σ'.nextPtr))

/-! ## Release -/

/-- `MutableBlock` or `CompleteBlock` dropped, or a registered block reset: back to the end of the free list -/
def resetSlot (σ : BlockStore H) (b : BlockId) : BlockStore H :=
  let σ' := σ.setSlot b .reset
  { σ' with free := σ.free ++ [b] }

/-- one strong reference less -/
def dropImmutable (σ : BlockStore H) (p : Ptr) : BlockStore H :=
  { σ with strong := Function.update σ.strong p (σ.strong p - 1) }

/-- identity-checked: a no-op when a lookup already moved the slot on -/
def releasePrimary (σ : BlockStore H) (b : BlockId) (p : Ptr) : BlockStore H :=
  match σ.slots b with
  | .primary h p' =>
    if p' = p then
      if σ.resetOnRelease b then
        let σ' := σ.resetSlot b
        { σ' with activeByHash := Function.update σ.activeByHash h none }
      else σ.eagerPrimaryToInactive h b
    else σ
  | _ => σ

/-- identity-checked; the hash stays with the primary -/
def releaseDuplicate (σ : BlockStore H) (b : BlockId) (p : Ptr) : BlockStore H :=
  match σ.slots b with
  | .duplicate _ p' => if p' = p then σ.resetSlot b else σ
  | _ => σ

/-- the `Drop` of an inner block whose last strong reference is gone: release the slot, then let go of the primary -/
def dropInner (σ : BlockStore H) (x : ImmutableBlockInner H) : BlockStore H :=
  let σ' := { σ with inners := σ.inners.erase x }
  match x.primaryKeepalive with
  | none => σ'.releasePrimary x.blockId x.ptr
  | some q => (σ'.releaseDuplicate x.blockId x.ptr).dropImmutable q

/-- `set_primary_reset_on_release` on a handle of `x` -/
def setPrimaryResetOnRelease (σ : BlockStore H) (b : BlockId) (value : Bool) : BlockStore H :=
  { σ with resetOnRelease := Function.update σ.resetOnRelease b value }

end BlockStore

end Pegainfer.Kvbm
