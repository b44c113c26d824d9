/-
A request's token sequence and its blocks: `RequestSequence` with the schedule/apply protocol of `SchedulableSequence`
on top, over the block store.

A `schedule_*` call checks its preconditions and draws the blocks its step may write; the matching `apply_*` call
appends the tokens, stages the blocks that the token sequence completes and registers them; `revert_schedule` gives the
drawn blocks back, last drawn first. `kvPosition` counts the tokens whose KV is computed.

Every operation threads the store. The outer `Except` is a panic, the inner one the error the caller gets back; a
refused call leaves the sequence as it was. The block hash is the token library's: a function of the salt, the block
size and the tokens up to the end of the block.
-/
import Mathlib.Tactic
import Pegainfer.Kvbm.Store

namespace Pegainfer.Kvbm

abbrev Token := ℕ

/-- seed of the block-hash chain: the cache-isolation key -/
abbrev SaltHash := ℕ

/-- `usize::div_ceil` -/
def divCeil (a b : ℕ) : ℕ := (a + (b - 1)) / b

/-- the chained block hash: salt, block size, tokens up to the end of the block -/
class BlockHash (H : Type) where
  blockHash : SaltHash → ℕ → List Token → H

/-- a collision-free hash for concrete runs: the salt and the tokens themselves -/
instance : BlockHash (List ℕ) := ⟨fun salt _ tokens => salt :: tokens⟩

inductive SequenceState
  | idle
  | prefillScheduled (numTokens blocksAllocated : ℕ)
  | decodeScheduled (blocksAllocated : ℕ)
  | speculativeScheduled (numTokens blocksAllocated : ℕ)
deriving DecidableEq, Repr

inductive DecodeOutcome
  | goOn
  | blockCompleted
  | maxLength
  | blockCompletedAndMaxLength
deriving DecidableEq, Repr

inductive ScheduleError
  | notIdle (state : SequenceState)
  | prefillOverrun (position numTokens numInputTokens : ℕ)
  | prefillComplete
  | prefillNotComplete (position numInputTokens : ℕ)
  | allocationFailed (needed : ℕ)
  | generationComplete (generated maxOutput : ℕ)
  | wrongDanglingCount (expected actual : ℕ)
deriving DecidableEq, Repr

inductive ApplyError
  | wrongState (expected : String) (actual : SequenceState)
  | tokenOnNonFinalChunk
  | acceptedExceedsScheduled (accepted scheduled : ℕ)
  | missingTokenOnFinalChunk
  | invalidExternalPrefillAnchor (prefillPosition kvPosition numInputTokens tailTokens remainingOutput : ℕ)
deriving DecidableEq, Repr

/-- `SchedulableSequence` with its `RequestSequence`: the tokens, the guards in sequence order, the two positions -/
structure SchedulableSequence (H : Type) where
  tokens : List Token
  blockSize : ℕ
  saltHash : SaltHash
  assigned : List (ImmutableBlock H)
  staged : List (BlockId × H)
  unassigned : List BlockId
  generatedTokens : ℕ
  maxOutputTokens : ℕ
  numInputTokens : ℕ
  prefixMatchedBlocks : ℕ
  state : SequenceState
  prefillPosition : ℕ
  kvPosition : ℕ
deriving DecidableEq, Repr

/-! ## Dropping guards -/

namespace BlockStore

variable {H : Type} [DecidableEq H]

def dropMutables (σ : BlockStore H) (ids : List BlockId) : BlockStore H := ids.foldl resetSlot σ

def dropCompletes (σ : BlockStore H) (cs : List (BlockId × H)) : BlockStore H := cs.foldl (fun σ c => σ.resetSlot c.1) σ

def dropImmutables (σ : BlockStore H) (xs : List (ImmutableBlock H)) : BlockStore H :=
  xs.foldl (fun σ x => σ.dropImmutable x.ptr) σ

def stageAll (σ : BlockStore H) (cs : List (BlockId × H)) : BlockStore H := cs.foldl (fun σ c => σ.stage c.1 c.2) σ

/-- `LogicalBlockAssignments::register`: the staged blocks in order -/
def registerAll (σ : BlockStore H) : List (BlockId × H) → Except String (List (ImmutableBlock H) × BlockStore H)
  | [] => .ok ([], σ)
  | (b, h) :: cs =>
    match σ.registerBlock b h with
    | .error e => .error e
    | .ok (x, σ') =>
      match σ'.registerAll cs with
      | .error e => .error e
      | .ok (xs, σ'') => .ok (x :: xs, σ'')

end BlockStore

namespace SchedulableSequence

variable {H : Type} [DecidableEq H] [BlockHash H]

def new (tokens : List Token) (maxOutputTokens blockSize : ℕ) (saltHash : SaltHash) : SchedulableSequence H where
  tokens := tokens
  blockSize := blockSize
  saltHash := saltHash
  assigned := []
  staged := []
  unassigned := []
  generatedTokens := 0
  maxOutputTokens := maxOutputTokens
  numInputTokens := tokens.length
  prefixMatchedBlocks := 0
  state := .idle
  prefillPosition := 0
  kvPosition := 0

def totalTokens (q : SchedulableSequence H) : ℕ := q.tokens.length

/-- complete token blocks in the sequence -/
def completeSequenceBlocks (q : SchedulableSequence H) : ℕ := q.totalTokens / q.blockSize

/-- hash of the `i`-th complete block -/
def sequenceHash (q : SchedulableSequence H) (i : ℕ) : H :=
  BlockHash.blockHash q.saltHash q.blockSize (q.tokens.take ((i + 1) * q.blockSize))

def allSequenceHashes (q : SchedulableSequence H) : List H := (List.range q.completeSequenceBlocks).map q.sequenceHash

/-- `assigned + staged + unassigned` -/
def residentBlocks (q : SchedulableSequence H) : ℕ := q.assigned.length + q.staged.length + q.unassigned.length

def remainingTokens (q : SchedulableSequence H) : ℕ := q.maxOutputTokens - q.generatedTokens

def isComplete (q : SchedulableSequence H) : Bool := q.maxOutputTokens ≤ q.generatedTokens

def isPrefillComplete (q : SchedulableSequence H) : Bool := q.numInputTokens ≤ q.prefillPosition

/-- tokens whose KV is not computed yet -/
def tailTokens (q : SchedulableSequence H) : ℕ := q.totalTokens - q.kvPosition

/-- `assignments.contains` -/
def contains (q : SchedulableSequence H) (b : BlockId) : Bool :=
  b ∈ q.assigned.map ImmutableBlock.blockId || b ∈ q.staged.map Prod.fst || b ∈ q.unassigned

def validateNoDuplicates (q : SchedulableSequence H) (ids : List BlockId) : Bool :=
  ids.all (fun b => !q.contains b) && decide ids.Nodup

/-! ## `RequestSequence` -/

/-- `false` when the store has too few blocks -/
def allocateBlocks (q : SchedulableSequence H) (count : ℕ) (σ : BlockStore H) :
    Except String (Bool × SchedulableSequence H × BlockStore H) :=
  if count = 0 then .ok (true, q, σ)
  else
    match σ.allocateBlocks count with
    | .error e => .error e
    | .ok none => .ok (false, q, σ)
    | .ok (some (ids, σ')) =>
      if q.validateNoDuplicates ids then .ok (true, { q with unassigned := q.unassigned ++ ids }, σ')
      else .ok (false, q, σ'.dropMutables ids)

/-- the unassigned blocks that completed token blocks are waiting for, first drawn first -/
def pendingPairs (q : SchedulableSequence H) : List (BlockId × H) :=
  q.unassigned.zip (q.allSequenceHashes.drop (q.assigned.length + q.staged.length))

def stagePending (q : SchedulableSequence H) (σ : BlockStore H) : SchedulableSequence H × BlockStore H :=
  ({ q with
      staged := q.staged ++ q.pendingPairs
      unassigned := q.unassigned.drop q.pendingPairs.length },
    σ.stageAll q.pendingPairs)

def registerStaged (q : SchedulableSequence H) (σ : BlockStore H) :
    Except String (SchedulableSequence H × BlockStore H) :=
  match σ.registerAll q.staged with
  | .error e => .error e
  | .ok (xs, σ') => .ok ({ q with assigned := q.assigned ++ xs, staged := [] }, σ')

def completeAndRegisterPending (q : SchedulableSequence H) (σ : BlockStore H) :
    Except String (SchedulableSequence H × BlockStore H) :=
  (q.stagePending σ).1.registerStaged (q.stagePending σ).2

/-- the token is not staged, registered or given a block; the result is the index of a block it completes -/
def appendToken (q : SchedulableSequence H) (token : Token) : Except String (Option ℕ × SchedulableSequence H) :=
  if q.generatedTokens < q.maxOutputTokens then
    .ok (if (q.totalTokens + 1) % q.blockSize = 0 then some (q.totalTokens / q.blockSize) else none,
      { q with tokens := q.tokens ++ [token], generatedTokens := q.generatedTokens + 1 })
  else .error "Cannot generate more tokens: reached max_output_tokens limit"

/-- tokens in order; whether one of them completed a block -/
def appendTokens (q : SchedulableSequence H) : List Token → Except String (Bool × SchedulableSequence H)
  | [] => .ok (false, q)
  | t :: ts =>
    match q.appendToken t with
    | .error e => .error e
    | .ok (crossed, q') =>
      match q'.appendTokens ts with
      | .error e => .error e
      | .ok (completed, q'') => .ok (crossed.isSome || completed, q'')

/-- tokens a padded tail block takes -/
def padCount (q : SchedulableSequence H) : ℕ :=
  if q.totalTokens % q.blockSize = 0 then 0 else q.blockSize - q.totalTokens % q.blockSize

/-- pops up to `count` unassigned blocks, last drawn first -/
def lifoPopUnassigned (q : SchedulableSequence H) (count : ℕ) (σ : BlockStore H) :
    SchedulableSequence H × BlockStore H :=
  let keep := q.unassigned.length - count
  ({ q with unassigned := q.unassigned.take keep }, σ.dropMutables (q.unassigned.drop keep).reverse)

/-! ## Prefix matching -/

/-- matching leaves at least one input token to prefill -/
def maxMatchedBlocks (q : SchedulableSequence H) : ℕ := (q.numInputTokens - 1) / q.blockSize

def matchAndAddPrefix (q : SchedulableSequence H) (σ : BlockStore H) :
    Except String (Except ScheduleError ℕ × SchedulableSequence H × BlockStore H) :=
  if q.state ≠ .idle then .ok (.error (.notIdle q.state), q, σ)
  else if q.residentBlocks ≠ 0 then
    .error "match_and_add_prefix called on sequence with existing assignments"
  else
    match σ.matchBlocks q.allSequenceHashes with
    | .error e => .error e
    | .ok (hits, σ₁) =>
      let matched := hits.take q.maxMatchedBlocks
      -- the handles past the cap are dropped
      let σ₂ := σ₁.dropImmutables (hits.drop q.maxMatchedBlocks)
      if matched = [] then .ok (.ok 0, q, σ₂)
      else if q.completeSequenceBlocks < matched.length then .error "matched blocks exceed completed sequence blocks"
      else if matched.map ImmutableBlock.seqHash = q.allSequenceHashes.take matched.length ∧
          q.validateNoDuplicates (matched.map ImmutableBlock.blockId) then
        .ok (.ok matched.length,
          { q with
            assigned := matched
            prefixMatchedBlocks := q.prefixMatchedBlocks + matched.length
            prefillPosition := q.prefillPosition + matched.length * q.blockSize
            kvPosition := q.prefillPosition + matched.length * q.blockSize }, σ₂)
      else .error "prefix match should not produce duplicates"

/-! ## Prefill -/

/-- draws `toAllocate` blocks and enters `next`, or reports that the store has too few -/
def drawInto (q : SchedulableSequence H) (toAllocate : ℕ) (next : SequenceState) (σ : BlockStore H) :
    Except String (Except ScheduleError Unit × SchedulableSequence H × BlockStore H) :=
  match q.allocateBlocks toAllocate σ with
  | .error e => .error e
  | .ok (true, q', σ') => .ok (.ok (), { q' with state := next }, σ')
  | .ok (false, q', σ') => .ok (.error (.allocationFailed toAllocate), q', σ')

def schedulePrefill (q : SchedulableSequence H) (numTokens : ℕ) (σ : BlockStore H) :
    Except String (Except ScheduleError Unit × SchedulableSequence H × BlockStore H) :=
  if q.state ≠ .idle then .ok (.error (.notIdle q.state), q, σ)
  else if q.isPrefillComplete then .ok (.error .prefillComplete, q, σ)
  else
    let newPosition := q.prefillPosition + numTokens
    if q.numInputTokens < newPosition then
      .ok (.error (.prefillOverrun q.prefillPosition numTokens q.numInputTokens), q, σ)
    else
      let toAllocate := divCeil newPosition q.blockSize - q.residentBlocks
      q.drawInto toAllocate (.prefillScheduled numTokens toAllocate) σ

def applyPrefill (q : SchedulableSequence H) (token : Option Token) (σ : BlockStore H) :
    Except String (Except ApplyError Unit × SchedulableSequence H × BlockStore H) :=
  match q.state with
  | .prefillScheduled numTokens _ =>
    let newPosition := q.prefillPosition + numTokens
    let isFinal := decide (q.numInputTokens ≤ newPosition)
    if token.isSome && !isFinal then .ok (.error .tokenOnNonFinalChunk, q, σ)
    else if isFinal && token.isNone && decide (0 < q.maxOutputTokens) then
      .ok (.error .missingTokenOnFinalChunk, q, σ)
    else
      match q.completeAndRegisterPending σ with
      | .error e => .error e
      | .ok (q₁, σ₁) =>
        let q₂ := { q₁ with prefillPosition := newPosition, kvPosition := newPosition }
        -- the emitted token dangles: the block it may complete is left to the next step
        match q₂.appendTokens token.toList with
        | .error e => .error e
        | .ok (_, q₃) => .ok (.ok (), { q₃ with state := .idle }, σ₁)
  | other => .ok (.error (.wrongState "PrefillScheduled" other), q, σ)

/-! ## Decode and speculative decode -/

/-- the preconditions `schedule_decode` and `schedule_speculative` share -/
def requireGeneration (q : SchedulableSequence H) : Except ScheduleError Unit :=
  if q.state ≠ .idle then .error (.notIdle q.state)
  else if !q.isPrefillComplete then .error (.prefillNotComplete q.prefillPosition q.numInputTokens)
  else if q.isComplete then .error (.generationComplete q.generatedTokens q.maxOutputTokens)
  else if q.tailTokens ≠ 1 then .error (.wrongDanglingCount 1 q.tailTokens)
  else .ok ()

def scheduleDecode (q : SchedulableSequence H) (σ : BlockStore H) :
    Except String (Except ScheduleError Unit × SchedulableSequence H × BlockStore H) :=
  match q.requireGeneration with
  | .error e => .ok (.error e, q, σ)
  | .ok () =>
    -- the blocks waiting to be staged, and the generation block
    let pending := q.completeSequenceBlocks - (q.assigned.length + q.staged.length)
    let toAllocate := (pending + 1) - q.unassigned.length
    q.drawInto toAllocate (.decodeScheduled toAllocate) σ

def outcome (blockCompleted isComplete : Bool) : DecodeOutcome :=
  match blockCompleted, isComplete with
  | false, false => .goOn
  | true, false => .blockCompleted
  | false, true => .maxLength
  | true, true => .blockCompletedAndMaxLength

def applyDecode (q : SchedulableSequence H) (token : Token) (σ : BlockStore H) :
    Except String (Except ApplyError DecodeOutcome × SchedulableSequence H × BlockStore H) :=
  match q.state with
  | .decodeScheduled _ =>
    -- the forward computed the KV of the dangling token: register it before appending the next
    match q.completeAndRegisterPending σ with
    | .error e => .error e
    | .ok (q₁, σ₁) =>
      match q₁.appendToken token with
      | .error e => .error e
      | .ok (crossed, q₂) =>
        .ok (.ok (outcome crossed.isSome q₂.isComplete),
          { q₂ with kvPosition := q₂.kvPosition + 1, state := .idle }, σ₁)
  | other => .ok (.error (.wrongState "DecodeScheduled" other), q, σ)

def scheduleSpeculative (q : SchedulableSequence H) (numDraftTokens : ℕ) (σ : BlockStore H) :
    Except String (Except ScheduleError Unit × SchedulableSequence H × BlockStore H) :=
  match q.requireGeneration with
  | .error e => .ok (.error e, q, σ)
  | .ok () =>
    let numDraftTokens := min numDraftTokens q.remainingTokens
    let toAllocate := divCeil (q.totalTokens + numDraftTokens) q.blockSize - q.residentBlocks
    q.drawInto toAllocate (.speculativeScheduled numDraftTokens toAllocate) σ

/-- the unassigned blocks kept after a speculative step: one generation block until the output is complete -/
def lifoDropExcessUnassigned (q : SchedulableSequence H) (σ : BlockStore H) : SchedulableSequence H × BlockStore H :=
  q.lifoPopUnassigned (q.unassigned.length - if q.isComplete then 0 else 1) σ

def applySpeculative (q : SchedulableSequence H) (accepted : List Token) (σ : BlockStore H) :
    Except String (Except ApplyError DecodeOutcome × SchedulableSequence H × BlockStore H) :=
  match q.state with
  | .speculativeScheduled scheduled _ =>
    if scheduled < accepted.length then .ok (.error (.acceptedExceedsScheduled accepted.length scheduled), q, σ)
    else
      match q.appendTokens accepted with
      | .error e => .error e
      | .ok (completed, q₁) =>
        match q₁.completeAndRegisterPending σ with
        | .error e => .error e
        | .ok (q₂, σ₂) =>
          let r := lifoDropExcessUnassigned { q₂ with kvPosition := q₂.kvPosition + accepted.length } σ₂
          .ok (.ok (outcome completed r.1.isComplete), { r.1 with state := .idle }, r.2)
  | other => .ok (.error (.wrongState "SpeculativeScheduled" other), q, σ)

/-! ## Revert, release, padding and the external anchor -/

def revertSchedule (q : SchedulableSequence H) (σ : BlockStore H) :
    Except ApplyError Unit × SchedulableSequence H × BlockStore H :=
  match q.state with
  | .prefillScheduled _ n | .decodeScheduled n | .speculativeScheduled _ n =>
    let r := q.lifoPopUnassigned n σ
    (.ok (), { r.1 with state := .idle }, r.2)
  | .idle => (.error (.wrongState "any Scheduled state" .idle), q, σ)

/-- `assignments.clear()` -/
def clear (q : SchedulableSequence H) (σ : BlockStore H) : SchedulableSequence H × BlockStore H :=
  ({ q with assigned := [], staged := [], unassigned := [] },
    ((σ.dropImmutables q.assigned).dropCompletes q.staged).dropMutables q.unassigned)

def release (q : SchedulableSequence H) (σ : BlockStore H) :
    Except ApplyError Unit × SchedulableSequence H × BlockStore H :=
  if q.state ≠ .idle then (.error (.wrongState "Idle" q.state), q, σ)
  else (.ok (), q.clear σ)

/-- names the trailing partial block by padding it; no token count moves, no block is drawn -/
def padTailBlock (q : SchedulableSequence H) (pad : Token) (σ : BlockStore H) :
    Except String (Except ApplyError ℕ × SchedulableSequence H × BlockStore H) :=
  if q.state ≠ .idle then .ok (.error (.wrongState "Idle" q.state), q, σ)
  else if q.kvPosition % q.blockSize = 0 then .ok (.ok 0, q, σ)
  else
    match ({ q with tokens := q.tokens ++ List.replicate q.padCount pad }).completeAndRegisterPending σ with
    | .error e => .error e
    | .ok (q₁, σ₁) => .ok (.ok q.padCount, q₁, σ₁)

/-- the last input token, whose KV does not exist, becomes the dangling generated token -/
def adoptExternalPrefillAnchor (q : SchedulableSequence H) : Except ApplyError Unit × SchedulableSequence H :=
  if q.state ≠ .idle then (.error (.wrongState "Idle" q.state), q)
  else if q.prefillPosition = q.kvPosition ∧ q.prefillPosition + 1 = q.numInputTokens ∧ q.tailTokens = 1 ∧
      0 < q.remainingTokens then
    (.ok (), { q with numInputTokens := q.numInputTokens - 1, generatedTokens := q.generatedTokens + 1 })
  else
    (.error (.invalidExternalPrefillAnchor q.prefillPosition q.kvPosition q.numInputTokens q.tailTokens
      q.remainingTokens), q)

end SchedulableSequence

end Pegainfer.Kvbm
