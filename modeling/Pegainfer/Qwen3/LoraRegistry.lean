/-
The LoRA adapters of a tensor-parallel executor, down to the packed device slots of its ranks.

A rank keeps an adapter three times: in `loraAdapters`, which prefill reads; in a slot of the packed buffers, which
decode reads; and the slot's name, both ways round. The executor keeps the set of names that are loaded. Every device
operation of a rank may fail, and what was done before it stays done.
- `PackedLoraProjection`: one projection's buffers over all slots, `writeSlot`, `clearSlot`.
- `LoraModel`: a rank's registry, `installLoraAdapter`, `uninstallLoraAdapter`, `discardLoraAdapter`.
- `LoraRanks`: the executor, `loadLoraAdapter`, `unloadLoraAdapter`.
- `Contents`: what a slot of the packed buffers holds, and what an adapter's slot is to hold.
-/
import Mathlib.Tactic
import Pegainfer.Lib.Machine
import Pegainfer.Lib.Faulty

set_option linter.unusedSectionVars false

namespace Pegainfer.Qwen3

open Pegainfer.Lib

/-! ## Adapters -/

inductive LoraProjectionKind
  | q
  | k
  | v
  | o
  | gate
  | up
  | down
deriving DecidableEq, Repr

def LoraProjectionKind.all : List LoraProjectionKind := [.q, .k, .v, .o, .gate, .up, .down]

theorem LoraProjectionKind.mem_all (kind : LoraProjectionKind) : kind ∈ all := by cases kind <;> decide

structure DeviceMatrix (B : Type) where
  data : List B
  rows : ℕ
  cols : ℕ
deriving DecidableEq, Repr

structure DeviceLoraProjection (B : Type) where
  a : DeviceMatrix B
  b : DeviceMatrix B
deriving DecidableEq, Repr

/-- the projections a layer has -/
abbrev DeviceLoraLayer (B : Type) := LoraProjectionKind → Option (DeviceLoraProjection B)

/-- a rank's shard of an adapter -/
structure DeviceLoraAdapter (B F : Type) where
  name : String
  scale : F
  layers : List (DeviceLoraLayer B)

namespace DeviceLoraAdapter

variable {B F : Type}

/-- the projection of a layer, if the adapter has the layer and the layer the projection -/
def projection (adapter : DeviceLoraAdapter B F) (layerIdx : ℕ) (kind : LoraProjectionKind) :
    Option (DeviceLoraProjection B) :=
  adapter.layers[layerIdx]?.bind fun layer => layer kind

/-- the matrices that go to the device -/
def matrices (adapter : DeviceLoraAdapter B F) : List (DeviceMatrix B) :=
  adapter.layers.flatMap fun layer =>
    LoraProjectionKind.all.flatMap fun kind => (layer kind).toList.flatMap fun p => [p.a, p.b]

end DeviceLoraAdapter

/-! ## Packed buffers -/

/-- one projection's buffers: `maxLoras` slots one after the other, each of `maxRank` rows -/
structure PackedLoraProjection (B F : Type) where
  a : ℕ → B
  b : ℕ → B
  scales : ℕ → F
  maxLoras : ℕ
  maxRank : ℕ
  rank : ℕ
  inDim : ℕ
  outDim : ℕ
  slotRanks : List ℕ

/-- a copy of `n` elements to `offset` -/
def copyTo {B : Type} (buffer : ℕ → B) (offset n : ℕ) (src : ℕ → B) : ℕ → B := fun i =>
  if offset ≤ i ∧ i < offset + n then src (i - offset) else buffer i

namespace PackedLoraProjection

variable {B F : Type} [Zero B] [Zero F]

def new (maxLoras maxRank inDim outDim : ℕ) : PackedLoraProjection B F :=
  ⟨fun _ => 0, fun _ => 0, fun _ => 0, maxLoras, maxRank, 0, inDim, outDim, List.replicate maxLoras 0⟩

def aStride (p : PackedLoraProjection B F) : ℕ := p.maxRank * p.inDim

def bStride (p : PackedLoraProjection B F) : ℕ := p.outDim * p.maxRank

def setSlotRank (p : PackedLoraProjection B F) (slot rank : ℕ) : PackedLoraProjection B F :=
  { p with slotRanks := p.slotRanks.set slot rank }

def refreshRank (p : PackedLoraProjection B F) : PackedLoraProjection B F :=
  { p with rank := p.slotRanks.foldr max 0 }

def zeroA (p : PackedLoraProjection B F) (slot : ℕ) : PackedLoraProjection B F :=
  { p with a := copyTo p.a (slot * p.aStride) p.aStride fun _ => 0 }

def zeroB (p : PackedLoraProjection B F) (slot : ℕ) : PackedLoraProjection B F :=
  { p with b := copyTo p.b (slot * p.bStride) p.bStride fun _ => 0 }

def setScale (p : PackedLoraProjection B F) (slot : ℕ) (scale : F) : PackedLoraProjection B F :=
  { p with scales := Function.update p.scales slot scale }

/-- the adapter's rows of A, one after the other -/
def copyA (p : PackedLoraProjection B F) (slot : ℕ) (a : DeviceMatrix B) : PackedLoraProjection B F :=
  { p with a := copyTo p.a (slot * p.aStride) (a.rows * p.inDim) fun j => a.data.getD j 0 }

/-- `pack_lora_b_rows_into`: each row of B to the start of a row of `maxRank` -/
def packBRows (p : PackedLoraProjection B F) (slot rank : ℕ) (b : DeviceMatrix B) : PackedLoraProjection B F :=
  { p with
    b := fun i =>
      let j := i - slot * p.bStride
      if slot * p.bStride ≤ i ∧ j < p.bStride ∧ j % p.maxRank < rank then
        b.data.getD (j / p.maxRank * rank + j % p.maxRank) 0
      else p.b i }

def clearSlot (slot : ℕ) : Faulty (PackedLoraProjection B F) Unit := do
  let p ← Faulty.get
  Faulty.ensure (slot < p.maxLoras) "packed LoRA slot out of range"
  Faulty.operate "packed LoRA A clear failed"
  Faulty.modify fun p => p.zeroA slot
  Faulty.operate "packed LoRA B clear failed"
  Faulty.modify fun p => p.zeroB slot
  Faulty.operate "packed LoRA scale clear failed"
  Faulty.modify fun p => ((p.setScale slot 0).setSlotRank slot 0).refreshRank

def writeSlot (slot : ℕ) (projection : DeviceLoraProjection B) (scale : F) :
    Faulty (PackedLoraProjection B F) Unit := do
  let p ← Faulty.get
  Faulty.ensure (slot < p.maxLoras) "packed LoRA slot out of range"
  Faulty.ensure (projection.a.rows ≤ p.maxRank ∧ projection.a.cols = p.inDim)
    "inconsistent LoRA A shape in packed projection"
  Faulty.ensure (projection.b.rows = p.outDim ∧ projection.b.cols = projection.a.rows)
    "inconsistent LoRA B shape in packed projection"
  clearSlot slot
  Faulty.operate "packed LoRA A copy failed"
  Faulty.modify fun p => p.copyA slot projection.a
  Faulty.ensure (0 < projection.a.rows) "LoRA rank must be > 0"
  Faulty.operate "packed LoRA B copy failed"
  Faulty.modify fun p => p.packBRows slot projection.a.rows projection.b
  Faulty.operate "packed LoRA scale copy failed"
  Faulty.modify fun p => ((p.setScale slot scale).setSlotRank slot projection.a.rows).refreshRank

end PackedLoraProjection

/-! ## A rank -/

structure LoraModel (B F : Type) where
  numHiddenLayers : ℕ
  maxLoras : ℕ
  maxLoraRank : ℕ
  loraAdapters : String → Option (DeviceLoraAdapter B F)
  slotsByName : String → Option ℕ
  slotNames : List (Option String)
  packedLayers : ℕ → LoraProjectionKind → Option (PackedLoraProjection B F)

namespace LoraModel

variable {B F : Type} [Zero B] [Zero F]

def new (numHiddenLayers maxLoras maxLoraRank : ℕ) : LoraModel B F :=
  ⟨numHiddenLayers, maxLoras, maxLoraRank, fun _ => none, fun _ => none, List.replicate maxLoras none,
    fun _ _ => none⟩

def slotFor (r : LoraModel B F) (name : String) : Option ℕ := r.slotsByName name

def slotForInstall (r : LoraModel B F) (name : String) (loadInplace : Bool) : Except String ℕ :=
  match r.slotFor name with
  | some slot => if loadInplace then .ok slot else .error ("Qwen3 LoRA adapter " ++ name ++ " is already loaded")
  | none =>
    match r.slotNames.findIdx? Option.isNone with
    | some slot => .ok slot
    | none => .error "Qwen3 LoRA adapter capacity exceeded"

/-- `slots_by_name.remove` -/
def removeSlotOf (r : LoraModel B F) (name : String) : LoraModel B F :=
  { r with slotsByName := Function.update r.slotsByName name none }

def bindSlot (r : LoraModel B F) (slot : ℕ) (name : String) : LoraModel B F :=
  let freed :=
    match r.slotNames[slot]?.join with
    | some previousName => r.removeSlotOf previousName
    | none => r
  { freed with
    slotNames := freed.slotNames.set slot (some name)
    slotsByName := Function.update freed.slotsByName name (some slot) }

/-- of a bound name -/
def releaseSlot (r : LoraModel B F) (name : String) (slot : ℕ) : LoraModel B F :=
  let removed := r.removeSlotOf name
  { removed with slotNames := removed.slotNames.set slot none }

def removeAdapter (r : LoraModel B F) (name : String) : LoraModel B F :=
  { r with loraAdapters := Function.update r.loraAdapters name none }

def insertAdapter (r : LoraModel B F) (adapter : DeviceLoraAdapter B F) : LoraModel B F :=
  { r with loraAdapters := Function.update r.loraAdapters adapter.name (some adapter) }

def setPacked (r : LoraModel B F) (layerIdx : ℕ) (kind : LoraProjectionKind) (p : PackedLoraProjection B F) :
    LoraModel B F :=
  { r with
    packedLayers := Function.update r.packedLayers layerIdx (Function.update (r.packedLayers layerIdx) kind (some p)) }

/-- a computation on the packed projection of a layer -/
def onPacked (layerIdx : ℕ) (kind : LoraProjectionKind) (p : PackedLoraProjection B F)
    (m : Faulty (PackedLoraProjection B F) Unit) : Faulty (LoraModel B F) Unit := fun r fs =>
  match m p fs with
  | (result, p', fs') => (result, r.setPacked layerIdx kind p', fs')

/-- every projection of every layer, in the order of the two loops -/
def layerProjections (numHiddenLayers : ℕ) : List (ℕ × LoraProjectionKind) :=
  (List.range numHiddenLayers).flatMap fun layerIdx => LoraProjectionKind.all.map fun kind => (layerIdx, kind)

def clearPackedLoraProjectionSlot (slot : ℕ) (target : ℕ × LoraProjectionKind) : Faulty (LoraModel B F) Unit := do
  let r ← Faulty.get
  match r.packedLayers target.1 target.2 with
  | some packed => onPacked target.1 target.2 packed (PackedLoraProjection.clearSlot slot)
  | none => pure ()

def clearPackedLoraSlot (slot : ℕ) : Faulty (LoraModel B F) Unit := do
  let r ← Faulty.get
  Faulty.each (clearPackedLoraProjectionSlot slot) (layerProjections r.numHiddenLayers)

/-- the buffers of a projection that no adapter had before -/
def allocPacked (target : ℕ × LoraProjectionKind) (projection : DeviceLoraProjection B) :
    Faulty (LoraModel B F) (PackedLoraProjection B F) := do
  let r ← Faulty.get
  match r.packedLayers target.1 target.2 with
  | some packed => pure packed
  | none =>
    Faulty.operate "packed LoRA A alloc failed"
    Faulty.operate "packed LoRA B alloc failed"
    Faulty.operate "packed LoRA scales alloc failed"
    let packed := PackedLoraProjection.new r.maxLoras r.maxLoraRank projection.a.cols projection.b.rows
    Faulty.modify fun r => r.setPacked target.1 target.2 packed
    pure packed

def packLoraProjectionSlot (slot : ℕ) (projection : DeviceLoraProjection B) (scale : F)
    (target : ℕ × LoraProjectionKind) : Faulty (LoraModel B F) Unit := do
  let packed ← allocPacked target projection
  onPacked target.1 target.2 packed (PackedLoraProjection.writeSlot slot projection scale)

def packTarget (slot : ℕ) (adapter : DeviceLoraAdapter B F) (target : ℕ × LoraProjectionKind) :
    Faulty (LoraModel B F) Unit :=
  match adapter.projection target.1 target.2 with
  | some projection => packLoraProjectionSlot slot projection adapter.scale target
  | none => pure ()

def updatePackedLoraSlot (slot : ℕ) (adapter : DeviceLoraAdapter B F) : Faulty (LoraModel B F) Unit := do
  clearPackedLoraSlot slot
  let r ← Faulty.get
  Faulty.each (packTarget slot adapter) (layerProjections r.numHiddenLayers)

/-- a failed update takes the adapter out altogether -/
def dropFailedUpdate (slot : ℕ) (name : String) (r : LoraModel B F) : LoraModel B F :=
  let removed := r.removeAdapter name
  if removed.slotFor name = some slot then removed.releaseSlot name slot else removed

def installLoraAdapter (adapter : DeviceLoraAdapter B F) (loadInplace : Bool) : Faulty (LoraModel B F) Unit := do
  let r ← Faulty.get
  match r.slotForInstall adapter.name loadInplace with
  | .error e => Faulty.fail e
  | .ok slot =>
    match ← Faulty.attempt (updatePackedLoraSlot slot adapter) with
    | .error err =>
      Faulty.modify (dropFailedUpdate slot adapter.name)
      Faulty.fail ("failed to update packed LoRA slot " ++ toString slot ++ " for adapter " ++ adapter.name ++
        "; adapter was removed to keep packed decode state consistent: " ++ err)
    | .ok () =>
      let r ← Faulty.get
      Faulty.ensure (loadInplace || (r.loraAdapters adapter.name).isNone)
        ("Qwen3 LoRA adapter " ++ adapter.name ++ " is already loaded")
      Faulty.modify fun r => (r.insertAdapter adapter).bindSlot slot adapter.name

def uninstallLoraAdapter (name : String) : Faulty (LoraModel B F) Unit := do
  let r ← Faulty.get
  match r.slotFor name with
  | none => Faulty.fail ("Qwen3 LoRA adapter " ++ name ++ " is not loaded")
  | some slot =>
    clearPackedLoraSlot slot
    Faulty.modify fun r => (r.releaseSlot name slot).removeAdapter name

/-- the slot goes as it is; whoever takes it next clears it first -/
def discardLoraAdapter (r : LoraModel B F) (name : String) : LoraModel B F :=
  let released :=
    match r.slotFor name with
    | some slot => r.releaseSlot name slot
    | none => r
  released.removeAdapter name

/-- a rank's load: the adapter's matrices go to the device, then it is installed -/
def loadLoraAdapter (adapter : DeviceLoraAdapter B F) (loadInplace : Bool) : Faulty (LoraModel B F) Unit := do
  Faulty.each (fun _ => Faulty.operate "LoRA matrix copy failed") adapter.matrices
  installLoraAdapter adapter loadInplace

end LoraModel

/-! ## The executor -/

/-- the adapter names that are loaded, and the ranks, the primary first -/
structure LoraRanks (B F : Type) where
  loadedLoraAdapters : Finset String
  maxLoras : ℕ
  ranks : List (LoraModel B F)

/-- a call; `faults` is each rank's script of device failures, `shards` each rank's part of the adapter, `none` where the
adapter cannot be read -/
inductive LoraCall (B F : Type)
  | load (name : String) (shards : Option (ℕ → List (DeviceLoraLayer B) × F)) (loadInplace : Bool) (faults : ℕ → Faults)
  | unload (name : String) (faults : ℕ → Faults)

namespace LoraRanks

variable {B F : Type} [Zero B] [Zero F]

def new (worldSize numHiddenLayers maxLoras maxLoraRank : ℕ) : LoraRanks B F :=
  ⟨∅, maxLoras, List.replicate worldSize (LoraModel.new numHiddenLayers maxLoras maxLoraRank)⟩

/-- the ranks after their commands, each with its answer; `rank` is the first one's number -/
def onRanks (command : ℕ → Faulty (LoraModel B F) Unit) (faults : ℕ → Faults) :
    ℕ → List (LoraModel B F) → List (Except String Unit × LoraModel B F)
  | _, [] => []
  | rank, r :: ranks =>
    let answered := command rank r (faults rank)
    (answered.1, answered.2.1) :: onRanks command faults (rank + 1) ranks

def errors : ℕ → List (Except String Unit × LoraModel B F) → List String
  | _, [] => []
  | rank, (.ok (), _) :: answers => errors (rank + 1) answers
  | rank, (.error err, _) :: answers => ("rank " ++ toString rank ++ ": " ++ err) :: errors (rank + 1) answers

def ensureLoraCapacity (s : LoraRanks B F) (name : String) (loadInplace : Bool) : Except String Unit :=
  if name ∈ s.loadedLoraAdapters then
    if loadInplace then .ok () else .error ("Qwen3 LoRA adapter " ++ name ++ " is already loaded")
  else if s.loadedLoraAdapters.card < s.maxLoras then .ok ()
  else
    .error ("Qwen3 LoRA adapter capacity exceeded: max_loras=" ++ toString s.maxLoras ++ ", loaded_adapters=" ++
      toString s.loadedLoraAdapters.card ++ ", requested=" ++ name)

/-- all ranks install; if one fails, all discard -/
def loadLoraAdapter (s : LoraRanks B F) (name : String) (shards : Option (ℕ → List (DeviceLoraLayer B) × F))
    (loadInplace : Bool) (faults : ℕ → Faults) : Except String Unit × LoraRanks B F :=
  match s.ensureLoraCapacity name loadInplace with
  | .error err => (.error err, s)
  | .ok () =>
    match shards with
    | none => (.error "the adapter cannot be loaded", s)
    | some shard =>
      let answers := onRanks (fun rank => LoraModel.loadLoraAdapter ⟨name, (shard rank).2, (shard rank).1⟩ loadInplace)
        faults 0 s.ranks
      match errors 0 answers with
      | [] => (.ok (), { s with
          loadedLoraAdapters := insert name s.loadedLoraAdapters
          ranks := answers.map Prod.snd })
      | errs => (.error ("failed to load Qwen3 LoRA adapter " ++ name ++ " on tensor-parallel ranks: " ++
          String.intercalate "; " errs), { s with
          loadedLoraAdapters := s.loadedLoraAdapters.erase name
          ranks := answers.map fun answered => answered.2.discardLoraAdapter name })

def unloadLoraAdapter (s : LoraRanks B F) (name : String) (faults : ℕ → Faults) : Except String Unit × LoraRanks B F :=
  let answers := onRanks (fun _ => LoraModel.uninstallLoraAdapter name) faults 0 s.ranks
  match errors 0 answers with
  | [] => (.ok (), { s with
      loadedLoraAdapters := s.loadedLoraAdapters.erase name
      ranks := answers.map Prod.snd })
  | errs => (.error ("failed to unload Qwen3 LoRA adapter " ++ name ++ " on tensor-parallel ranks: " ++
      String.intercalate "; " errs), { s with ranks := answers.map Prod.snd })

def call (s : LoraRanks B F) : LoraCall B F → Except String Unit × LoraRanks B F
  | .load name shards loadInplace faults => s.loadLoraAdapter name shards loadInplace faults
  | .unload name faults => s.unloadLoraAdapter name faults

/-- a call, whatever its answer -/
def step (s : LoraRanks B F) (c : LoraCall B F) : Except Empty (LoraRanks B F) := .ok (s.call c).2

end LoraRanks

/-! ## What a slot holds -/

/-- a slot of one projection's buffers, read from its start -/
@[ext] structure Contents (B F : Type) where
  a : ℕ → B
  b : ℕ → B
  scale : F
  rank : ℕ

variable {B F : Type} [Zero B] [Zero F]

def Contents.zero : Contents B F := ⟨fun _ => 0, fun _ => 0, 0, 0⟩

namespace PackedLoraProjection

def contents (p : PackedLoraProjection B F) (slot : ℕ) : Contents B F where
  a j := if j < p.aStride then p.a (slot * p.aStride + j) else 0
  b j := if j < p.bStride then p.b (slot * p.bStride + j) else 0
  scale := p.scales slot
  rank := p.slotRanks.getD slot 0

end PackedLoraProjection

/-- a projection's rows, and nothing past its rank -/
def DeviceLoraProjection.packed (projection : DeviceLoraProjection B) (maxRank : ℕ) (scale : F) : Contents B F where
  a j := if j < projection.a.rows * projection.a.cols then projection.a.data.getD j 0 else 0
  b j :=
    if j < projection.b.rows * maxRank ∧ j % maxRank < projection.a.rows then
      projection.b.data.getD (j / maxRank * projection.a.rows + j % maxRank) 0
    else 0
  scale := scale
  rank := projection.a.rows

/-- what an adapter's slot is to hold of a projection: the adapter's own, or nothing -/
def DeviceLoraAdapter.packed (adapter : DeviceLoraAdapter B F) (maxRank layerIdx : ℕ) (kind : LoraProjectionKind) :
    Contents B F :=
  match adapter.projection layerIdx kind with
  | some projection => projection.packed maxRank adapter.scale
  | none => .zero

namespace LoraModel

/-- what a slot holds of a projection; buffers that are not there yet hold nothing -/
def contents (r : LoraModel B F) (layerIdx : ℕ) (kind : LoraProjectionKind) (slot : ℕ) : Contents B F :=
  match r.packedLayers layerIdx kind with
  | some p => p.contents slot
  | none => .zero

end LoraModel

end Pegainfer.Qwen3
