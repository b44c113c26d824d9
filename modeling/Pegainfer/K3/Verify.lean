/-
The K3 executor's speculative rounds: what the host keeps between them and what a verify step does on the device.

A slot's last accepted tokens are in its latent cache but not yet in its recurrent state. The next verify step replays them
as commit rows, which move the state from one parity slab to the other, and then runs the anchor and the drafts as rows
whose successor state is scrapped. The target is an arbitrary function of a row's state, its context's latents and its
token. The device may fail at any operation, and leaves the state as it stands then.
- `verifyInner`: one packed step over a batch, and what it commits.
- `decodeSpecInner`: drafts cut to the context, and a batch split by the row budget.
- `prefillAdopt`, `release`: how a slot is taken and given back.
-/
import Mathlib.Tactic
import Pegainfer.Lib.Faulty
import Pegainfer.Lib.Ladder
import Pegainfer.Lib.Speculative
import Pegainfer.K3.CpSegments
import Pegainfer.K3.PagedKv

namespace Pegainfer.K3

open Pegainfer.Lib

/-! ## State -/

/-- one row of the target, from the recurrent state and the convolution windows before it: the latent it appends to those
of the tokens before, and from the latents up to its own the state behind it and its argmax -/
structure K3Target (ρ ω κ : Type) where
  latent : ρ × ω → List κ → UInt32 → κ
  forward : ρ × ω → List κ → UInt32 → (ρ × ω) × UInt32

/-- one slot's bookkeeping between verify steps -/
structure K3SpecSlot where
  /-- committed tokens whose state advance is deferred, the anchor first -/
  pending : List UInt32 := []
  /-- the slab that holds the committed state -/
  parity : Bool := false
  rounds : ℕ := 0
  accepted : ℕ := 0

/-- a batch row as it is fed to the device; `kvRow` is where its latent goes -/
structure K3Row where
  token : UInt32
  contextLen : ℕ
  kvRow : Option (ℕ × ℕ)

/-- one slot's segment of a verify step -/
structure K3KdaGroup where
  row : ℕ
  commitRows : ℕ
  specRows : ℕ
  stateRow : ℕ
  parity : Bool

structure K3VerifySlot where
  slot : ℕ
  anchor : UInt32
  drafts : List UInt32

structure DecodeSlot where
  slot : ℕ
  lastToken : UInt32

/-- the recurrent slabs and the convolution windows by parity and slot, the latent cache, and the step's staged rows with
their block table and their samples -/
structure K3Executor (ρ ω κ : Type) where
  maxBatch : ℕ
  maxCtx : ℕ
  expertParallel : Bool
  dspark : Bool
  recurrent : Bool → ℕ → ρ
  conv : Bool → ℕ → ω
  positions : ℕ → ℕ
  kv : K3PagedKv κ
  parity : Bool
  spec : ℕ → K3SpecSlot
  staged : ℕ → K3Row
  verifyTable : ℕ → ℕ → Option ℕ
  sampled : ℕ → UInt32

variable {ρ ω κ : Type}

def k3MaxBatch : ℕ := 128

def k3BatchBucket (rows : ℕ) : Except String ℕ :=
  if rows = 0 then .error "K3 decode needs at least one row"
  else
    match covering k3BatchBuckets rows with
    | some bucket => .ok bucket
    | none => .error s!"K3 decode batch {rows} exceeds the largest bucket {k3MaxBatch}"

/-- one row of one slab -/
def setRow {α : Type} (slab : Bool → ℕ → α) (parity : Bool) (row : ℕ) (a : α) : Bool → ℕ → α :=
  Function.update slab parity (Function.update (slab parity) row a)

/-! ## The device -/

/-- the latents a row attends to, through its table row -/
def K3PagedKv.latents [Inhabited κ] (kv : K3PagedKv κ) (chain : ℕ → Option ℕ) (contextLen : ℕ) : List κ :=
  (List.range contextLen).map fun position =>
    ((chain (position / k3KvPageTokens)).map fun page => kv.slab page (position % k3KvPageTokens)).getD default

/-- what a walk over rows carries -/
structure K3Walk (ρ ω κ : Type) where
  state : ρ × ω
  kv : K3PagedKv κ
  sampled : ℕ → UInt32

section Device

variable [Inhabited κ] (T : K3Target ρ ω κ)

/-- a row without a cache row appends nothing and finds its own latent in the cache -/
def runRow (r : K3Row) (chain : ℕ → Option ℕ) (row : ℕ) (w : K3Walk ρ ω κ) : K3Walk ρ ω κ :=
  let kv :=
    match r.kvRow with
    | some index => w.kv.append index (T.latent w.state (w.kv.latents chain (r.contextLen - 1)) r.token)
    | none => w.kv
  let out := T.forward w.state (kv.latents chain r.contextLen) r.token
  ⟨out.1, kv, Function.update w.sampled row out.2⟩

/-- `n` rows of one segment, each from the state behind the one before -/
def runRows (staged : ℕ → K3Row) (verifyTable : ℕ → ℕ → Option ℕ) : (row n : ℕ) → K3Walk ρ ω κ → K3Walk ρ ω κ
  | _, 0, w => w
  | row, n + 1, w => runRows staged verifyTable (row + 1) n (runRow T (staged row) (verifyTable row) row w)

namespace K3Executor

/-- one group: the commit rows land state and window in the other slab; the speculative rows go on from there, and their
state lands in the slab that is dead by then -/
def runGroup (group : K3KdaGroup) (e : K3Executor ρ ω κ) : K3Executor ρ ω κ :=
  let carried := (e.recurrent group.parity group.stateRow, e.conv group.parity group.stateRow)
  let commit := runRows T e.staged e.verifyTable group.row group.commitRows ⟨carried, e.kv, e.sampled⟩
  let landed :=
    if 0 < group.commitRows then
      { e with
        recurrent := setRow e.recurrent (!group.parity) group.stateRow commit.state.1
        conv := setRow e.conv (!group.parity) group.stateRow commit.state.2 }
    else e
  let read := if 0 < group.commitRows then !group.parity else group.parity
  let span := runRows T e.staged e.verifyTable (group.row + group.commitRows) group.specRows
    ⟨(landed.recurrent read group.stateRow, commit.state.2), commit.kv, commit.sampled⟩
  { landed with
    recurrent := setRow landed.recurrent (!read) group.stateRow span.state.1
    kv := span.kv
    sampled := span.sampled }

end K3Executor

def k3VerifyStep (bucket : ℕ) (groups : List K3KdaGroup) : Faulty (K3Executor ρ ω κ) Unit := do
  let e ← Faulty.get
  Faulty.each (fun group => Faulty.ensure
    (group.row + group.commitRows + group.specRows ≤ bucket ∧ 0 < group.specRows ∧ group.stateRow < e.maxBatch)
    (s!"K3 verify group at row {group.row} ({group.commitRows}+{group.specRows} rows, state row {group.stateRow}) " ++
      "does not fit the step")) groups
  Faulty.each (fun group => do
    Faulty.operate "K3 verify step failed"
    Faulty.modify (K3Executor.runGroup T group)) groups

end Device

/-! ## One verify round -/

namespace K3Executor

/-- per slot the replay rows, then the anchor and the drafts -/
def packGroups (e : K3Executor ρ ω κ) : (rows : ℕ) → List K3VerifySlot → Except String (List K3KdaGroup × ℕ)
  | rows, [] => .ok ([], rows)
  | rows, entry :: batch =>
    if entry.slot < e.maxBatch then do
      let lag := (e.spec entry.slot).pending.length
      let packed ← e.packGroups (rows + (lag + 1 + entry.drafts.length)) batch
      pure (⟨rows, lag, 1 + entry.drafts.length, entry.slot, (e.spec entry.slot).parity⟩ :: packed.1, packed.2)
    else .error s!"K3 verify slot {entry.slot} is out of range"

/-- every row of the bucket is padding until it is staged -/
def padRows (bucket : ℕ) (e : K3Executor ρ ω κ) : K3Executor ρ ω κ :=
  { e with staged := fun row => if row < bucket then ⟨0, 1, none⟩ else e.staged row }

def stageRow (row : ℕ) (r : K3Row) (e : K3Executor ρ ω κ) : K3Executor ρ ω κ :=
  { e with staged := Function.update e.staged row r }

def stageVerifyRow (row slot : ℕ) (e : K3Executor ρ ω κ) : K3Executor ρ ω κ :=
  { e with verifyTable := Function.update e.verifyTable row (e.kv.table slot) }

/-- a slot's pages, as its claims leave them -/
def withKv (kv : K3PagedKv κ) (e : K3Executor ρ ω κ) : K3Executor ρ ω κ := { e with kv := kv }

/-- what a round leaves of a slot: the anchor and the accepted drafts are in the cache, their state advance is deferred -/
def commitSlot (entry : K3VerifySlot) (group : K3KdaGroup) (accepted : ℕ) (e : K3Executor ρ ω κ) :
    K3Executor ρ ω κ :=
  let spec := e.spec entry.slot
  { e with
    positions := Function.update e.positions entry.slot (e.positions entry.slot + (accepted + 1))
    spec := Function.update e.spec entry.slot
      { pending := entry.anchor :: entry.drafts.take accepted
        parity := if 0 < group.commitRows then !spec.parity else spec.parity
        rounds := spec.rounds + 1
        accepted := spec.accepted + accepted } }

end K3Executor

section Rounds

/-- the peers' buffers, which the first step waits for -/
def enterStep : Faulty (K3Executor ρ ω κ) Unit := Faulty.operate "K3 EP step ran without its symmetric buffer"

/-- `i32::try_from` -/
def ensureI32 (n : ℕ) : Faulty (K3Executor ρ ω κ) Unit :=
  Faulty.ensure (n < 2 ^ 31) "out of range integral type conversion attempted"

/-- replay rows run positions whose latents are cached: they write none -/
def stageReplay : (row position : ℕ) → List UInt32 → Faulty (K3Executor ρ ω κ) Unit
  | _, _, [] => pure ()
  | row, position, token :: pending => do
    ensureI32 (position + 1)
    Faulty.modify (K3Executor.stageRow row ⟨token, position + 1, none⟩)
    stageReplay (row + 1) (position + 1) pending

def stageSpan [Inhabited κ] (slot : ℕ) : (row position : ℕ) → List UInt32 → Faulty (K3Executor ρ ω κ) Unit
  | _, _, [] => pure ()
  | row, position, token :: span => do
    ensureI32 (position + 1)
    let e ← Faulty.get
    let kv ← Faulty.lift (e.kv.ensureMapped slot position)
    Faulty.modify (K3Executor.withKv kv)
    let index ← Faulty.lift (kv.writeIndex slot position)
    Faulty.modify (K3Executor.stageRow row ⟨token, position + 1, some index⟩)
    stageSpan slot (row + 1) (position + 1) span

def stageVerifyRows (slot : ℕ) : (row n : ℕ) → Faulty (K3Executor ρ ω κ) Unit
  | _, 0 => pure ()
  | row, n + 1 => do
    let e ← Faulty.get
    Faulty.ensure (row < e.maxBatch ∧ slot < e.maxBatch)
      s!"K3 KV verify-table stage of row {row} from slot {slot} is out of range"
    Faulty.modify (K3Executor.stageVerifyRow row slot)
    stageVerifyRows slot (row + 1) n

def stageGroup [Inhabited κ] (entry : K3VerifySlot) (group : K3KdaGroup) : Faulty (K3Executor ρ ω κ) Unit := do
  let e ← Faulty.get
  let anchorPosition := e.positions entry.slot
  Faulty.ensure (group.commitRows ≤ anchorPosition)
    (s!"K3 slot {entry.slot} carries {group.commitRows} pending tokens but only {anchorPosition} positions")
  Faulty.ensure (anchorPosition + group.specRows ≤ e.maxCtx)
    s!"K3 slot {entry.slot} verify span reaches past its {e.maxCtx} token context"
  stageReplay group.row (anchorPosition - group.commitRows) (e.spec entry.slot).pending
  stageSpan entry.slot (group.row + group.commitRows) anchorPosition (entry.anchor :: entry.drafts)
  stageVerifyRows entry.slot group.row (group.commitRows + group.specRows)

/-- a draft stands exactly when it is the argmax of the row before it -/
def acceptedDrafts (sampled : ℕ → UInt32) (anchorRow : ℕ) (drafts : List UInt32) : ℕ :=
  (drafts.zipIdx.takeWhile fun draft => sampled (anchorRow + draft.2) == draft.1).length

def commitGroup (entry : K3VerifySlot) (group : K3KdaGroup) : Faulty (K3Executor ρ ω κ) (List UInt32) := do
  let e ← Faulty.get
  let anchorRow := group.row + group.commitRows
  let accepted := acceptedDrafts e.sampled anchorRow entry.drafts
  let committed := (List.range (accepted + 1)).map fun index => e.sampled (anchorRow + index)
  Faulty.modify (K3Executor.commitSlot entry group accepted)
  if e.dspark then Faulty.operate "dspark pending context would exceed the draft cache"
  pure committed

variable [Inhabited κ] (T : K3Target ρ ω κ)

/-- one speculative verify round: each slot's committed tokens -/
def verifyInner (batch : List K3VerifySlot) : Faulty (K3Executor ρ ω κ) (List (List UInt32)) := do
  let e ← Faulty.get
  if batch.isEmpty && !e.expertParallel then pure []
  else
    enterStep
    let packed ← Faulty.lift (e.packGroups 0 batch)
    Faulty.ensure (packed.2 ≤ e.maxBatch)
      s!"K3 verify step of {packed.2} rows exceeds the {e.maxBatch} row budget"
    let bucket ← Faulty.lift (k3BatchBucket (max packed.2 1))
    Faulty.modify (K3Executor.padRows bucket)
    Faulty.each (fun pair => stageGroup pair.1 pair.2) (batch.zip packed.1)
    Faulty.operate "K3 token feed failed"
    Faulty.operate "K3 KV verify block-table feed failed"
    k3VerifyStep T bucket packed.1
    Faulty.operate "K3 sampled-token readback failed"
    Faulty.collect (fun pair => commitGroup pair.1 pair.2) (batch.zip packed.1)

/-! ## One speculative round over a batch -/

/-- how many entries from the front on fit the row budget -/
def K3Executor.budgeted (e : K3Executor ρ ω κ) : (rows : ℕ) → List K3VerifySlot → ℕ
  | _, [] => 0
  | rows, entry :: batch =>
    let need := (e.spec entry.slot).pending.length + 1 + entry.drafts.length
    if rows + need > e.maxBatch then 0 else e.budgeted (rows + need) batch + 1

/-- a batch in budget-sized verify steps; each takes an entry, so as many steps as entries are enough -/
def verifySplit : (steps : ℕ) → List K3VerifySlot → Faulty (K3Executor ρ ω κ) (List (List UInt32))
  | 0, _ => pure []
  | _ + 1, [] => pure []
  | steps + 1, entry :: batch => do
    let e ← Faulty.get
    let taken := e.budgeted 0 (entry :: batch)
    Faulty.ensure (0 < taken)
      (s!"K3 verify slot {entry.slot} needs {(e.spec entry.slot).pending.length + 1 + entry.drafts.length} rows alone " ++
        s!"— raise the row budget above {e.maxBatch}")
    let outcomes ← verifyInner T ((entry :: batch).take taken)
    let rest ← verifySplit steps ((entry :: batch).drop taken)
    pure (outcomes ++ rest)

/-- the draft states are handed out in slot order, each once -/
def handOut (maxBatch : ℕ) : (consumed : ℕ) → List (DecodeSlot × ℕ) → Except String Unit
  | _, [] => .ok ()
  | consumed, entry :: order =>
    if entry.1.slot < consumed then .error s!"K3 decode-spec batch repeats slot {entry.1.slot}"
    else if maxBatch ≤ entry.1.slot then .error s!"K3 decode-spec slot {entry.1.slot} is out of range"
    else handOut maxBatch (entry.1.slot + 1) order

/-- the entries in slot order, each with its place in the batch -/
def slotOrder (batch : List DecodeSlot) : List (DecodeSlot × ℕ) :=
  batch.zipIdx.insertionSort fun a b => a.1.slot ≤ b.1.slot

/-- the proposed drafts, each list cut to the context left to its slot -/
def K3Executor.verifyBatch (e : K3Executor ρ ω κ) (batch : List DecodeSlot) (proposed : List (List UInt32)) :
    List K3VerifySlot :=
  ((slotOrder batch).zip proposed).foldl
    (fun entries p =>
      let headroom := e.maxCtx - 1 - e.positions p.1.1.slot
      entries.modify p.1.2 fun entry => { entry with drafts := p.2.take (min p.2.length headroom) })
    (batch.map fun entry => ⟨entry.slot, entry.lastToken, []⟩)

/-- `propose` is the draft lane's answer to the anchors and their positions, in slot order -/
def decodeSpecInner (propose : List (UInt32 × ℕ) → Except String (List (List UInt32))) (batch : List DecodeSlot) :
    Faulty (K3Executor ρ ω κ) (List (List UInt32)) := do
  let e ← Faulty.get
  Faulty.ensure (e.dspark = true) "K3 decode_spec needs the dspark draft lane armed (load_dspark)"
  if batch.isEmpty then verifyInner T []
  else
    Faulty.lift (handOut e.maxBatch 0 (slotOrder batch))
    let proposed ← Faulty.lift
      (propose ((slotOrder batch).map fun entry => (entry.1.lastToken, e.positions entry.1.slot)))
    verifySplit T batch.length (e.verifyBatch batch proposed)

end Rounds

/-! ## Taking and giving back a slot -/

/-- nothing mapped, page 0 next -/
def K3PagedKv.new [Inhabited κ] (maxPagesPerSlot numPages : ℕ) : K3PagedKv κ where
  slab _ _ := default
  maxPagesPerSlot := maxPagesPerSlot
  table _ _ := none
  free := List.range numPages

namespace K3Executor

variable [Inhabited ρ] [Inhabited ω]

def new [Inhabited κ] (maxBatch maxCtx numPages : ℕ) (expertParallel dspark : Bool) : K3Executor ρ ω κ where
  maxBatch := maxBatch
  maxCtx := maxCtx
  expertParallel := expertParallel
  dspark := dspark
  recurrent _ _ := default
  conv _ _ := default
  positions _ := 0
  kv := .new ((maxCtx + k3KvPageTokens - 1) / k3KvPageTokens) numPages
  parity := false
  spec _ := {}
  staged _ := ⟨0, 1, none⟩
  verifyTable _ _ := none
  sampled _ := 0

def zeroState (slot : ℕ) (parity : Bool) (e : K3Executor ρ ω κ) : K3Executor ρ ω κ :=
  { e with
    recurrent := setRow e.recurrent parity slot default
    conv := setRow e.conv parity slot default }

/-- the pages go back and the position to zero -/
def freeRow (slot : ℕ) (e : K3Executor ρ ω κ) : K3Executor ρ ω κ :=
  { e with
    kv := e.kv.releaseRow slot
    positions := Function.update e.positions slot 0 }

def clearSpec (slot : ℕ) (e : K3Executor ρ ω κ) : K3Executor ρ ω κ :=
  { e with spec := Function.update e.spec slot {} }

/-- the state a prefill left, at the parity decode reads -/
def adoptState (slot : ℕ) (state : ρ × ω) (e : K3Executor ρ ω κ) : K3Executor ρ ω κ :=
  { e with
    recurrent := setRow e.recurrent e.parity slot state.1
    conv := setRow e.conv e.parity slot state.2 }

def copyPage (source : ℕ → κ) (pageSlot target : ℕ) (e : K3Executor ρ ω κ) : K3Executor ρ ω κ :=
  e.withKv (e.kv.copyPage source pageSlot target)

def adopted (slot position : ℕ) (e : K3Executor ρ ω κ) : K3Executor ρ ω κ :=
  { e with
    positions := Function.update e.positions slot position
    spec := Function.update e.spec slot { parity := e.parity } }

end K3Executor

section Slots

variable [Inhabited ρ] [Inhabited ω]

/-- both parities are zeroed, then the snapshot rows, and last the pages go back -/
def resetRow (slot : ℕ) : Faulty (K3Executor ρ ω κ) Unit := do
  let e ← Faulty.get
  Faulty.ensure (slot < e.maxBatch) s!"K3 state pool has no row {slot}"
  Faulty.each (fun parity => do
    Faulty.operate "zero a K3 state row"
    Faulty.modify (K3Executor.zeroState slot parity)) [false, true]
  Faulty.operate "zero a K3 state row"
  Faulty.modify (K3Executor.freeRow slot)

/-- a reset that fails is logged -/
def release (slot : ℕ) : Faulty (K3Executor ρ ω κ) Unit := do
  let e ← Faulty.get
  let _ ← Faulty.attempt (Faulty.operate "Failed to set CUDA device" >>= fun _ => resetRow slot)
  if slot < e.maxBatch then Faulty.modify (K3Executor.clearSpec slot) else pure ()

variable [Inhabited κ]

/-- one page of a source row -/
def adoptPage (source : ℕ → κ) (slot pageSlot : ℕ) : Faulty (K3Executor ρ ω κ) Unit := do
  let e ← Faulty.get
  let kv ← Faulty.lift (e.kv.ensureMapped slot (pageSlot * k3KvPageTokens))
  Faulty.modify (K3Executor.withKv kv)
  let target ← Faulty.lift (kv.writeIndex slot (pageSlot * k3KvPageTokens))
  Faulty.operate "copy a K3 state row"
  Faulty.modify (K3Executor.copyPage source pageSlot target.1)

/-- the pages of a source row that hold `tokens` positions -/
def adoptKvRow (source : ℕ → κ) (slot tokens : ℕ) : Faulty (K3Executor ρ ω κ) Unit :=
  Faulty.each (adoptPage source slot) (List.range ((tokens + k3KvPageTokens - 1) / k3KvPageTokens))

/-- a prefill leaves its sequence in a pool of its own: `state`, and `latents` token by token. The slot adopts them. -/
def prefillAdopt (slot : ℕ) (state : ρ × ω) (latents : List κ) : Faulty (K3Executor ρ ω κ) Unit := do
  let e ← Faulty.get
  Faulty.ensure (slot < e.maxBatch) s!"K3 slot {slot} is out of range"
  Faulty.ensure (latents ≠ []) "K3 prefill needs at least one token"
  Faulty.ensure (latents.length ≤ e.maxCtx) s!"K3 prompt of {latents.length} tokens exceeds the {e.maxCtx} slot context"
  enterStep
  Faulty.operate "K3 prefill failed"
  resetRow slot
  Faulty.operate "copy a K3 state row"
  Faulty.modify (K3Executor.adoptState slot state)
  adoptKvRow (fun position => latents.getD position default) slot latents.length
  Faulty.modify (K3Executor.adopted slot latents.length)
  Faulty.operate "Sync failed"

end Slots

end Pegainfer.K3
