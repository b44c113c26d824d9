/-
LoRA adapters split over tensor-parallel ranks.

A projection is `B (A x)`. Where the base weight is split by output rows (q, k, v, gate, up) each rank takes rows of
`B`; where it is split by input columns (o, down) each rank takes columns of `A` and a segment of the input.
- `loadLoraAdapter_validated`: a loaded adapter has the shapes of its configuration.
- `rowSplit`, `colSplit`: shards that partition a matrix compute the unsharded product between them.
- `shardForTensorParallel_exact`: every rank's shard exists, and the ranks' shards are such a partition.
-/
import Mathlib.Tactic
import Pegainfer.Lib.Fallible
import Pegainfer.Lib.FlatMatrix

namespace Pegainfer.Qwen3.LoraShard

open Pegainfer.Lib

/-! ## Model -/

/-- what sharding reads of the model's configuration -/
structure Config where
  hiddenSize : ℕ
  intermediateSize : ℕ
  numHiddenLayers : ℕ
  numAttentionHeads : ℕ
  numKeyValueHeads : ℕ
  headDim : ℕ
deriving DecidableEq, Repr

structure TensorParallelConfig where
  rank : ℕ
  worldSize : ℕ
deriving DecidableEq, Repr

namespace TensorParallelConfig

variable (tp : TensorParallelConfig)

def validateFor (config : Config) : Except String Unit :=
  if tp.worldSize = 0 then .error "tensor_parallel.world_size must be >= 1"
  else if tp.worldSize ≤ tp.rank then
    .error s!"tensor_parallel.rank {tp.rank} must be < world_size {tp.worldSize}"
  else if config.numAttentionHeads % tp.worldSize ≠ 0 then
    .error s!"num_attention_heads={config.numAttentionHeads} not divisible by tp world_size={tp.worldSize}"
  else if config.numKeyValueHeads % tp.worldSize ≠ 0 then
    .error s!"num_key_value_heads={config.numKeyValueHeads} not divisible by tp world_size={tp.worldSize}"
  else if config.intermediateSize % tp.worldSize ≠ 0 then
    .error s!"intermediate_size={config.intermediateSize} not divisible by tp world_size={tp.worldSize}"
  else .ok ()

/-- the rank's offset and length of a dimension -/
def shardRange (total : ℕ) : ℕ × ℕ :=
  let shardLen := total / tp.worldSize
  (tp.rank * shardLen, shardLen)

def isSharded : Bool := decide (1 < tp.worldSize)

end TensorParallelConfig

variable {F : Type}

/-- a row-major matrix -/
structure LoraMatrix (F : Type) where
  data : List F
  rows : ℕ
  cols : ℕ
  sized : data.length = rows * cols
deriving DecidableEq

namespace LoraMatrix

variable (m : LoraMatrix F)

theorem sized_rows {rowOffset rows : ℕ} (h : rowOffset + rows ≤ m.rows) :
    ((m.data.take ((rowOffset + rows) * m.cols)).drop (rowOffset * m.cols)).length = rows * m.cols := by
  have hend : (rowOffset + rows) * m.cols ≤ m.data.length := m.sized ▸ Nat.mul_le_mul_right _ h
  rw [List.length_drop, List.length_take, Nat.min_eq_left hend, Nat.add_mul, Nat.add_sub_cancel_left]

def rowShard (rowOffset rows : ℕ) : Except String (LoraMatrix F) :=
  if h : rowOffset + rows ≤ m.rows then
    .ok ⟨(m.data.take ((rowOffset + rows) * m.cols)).drop (rowOffset * m.cols), rows, m.cols, m.sized_rows h⟩
  else .error s!"LoRA row shard out of bounds: row_offset={rowOffset} rows={rows} total_rows={m.rows}"

theorem sized_cols {colOffset cols : ℕ} (h : colOffset + cols ≤ m.cols) :
    (colShard m.rows m.cols colOffset cols m.data).length = m.rows * cols := by
  rcases Nat.eq_zero_or_pos m.cols with hzero | hpos
  · obtain rfl : cols = 0 := by omega
    simp [colShard]
  · rw [← rowsCols_eq_colShard hpos h m.sized, length_rowsCols hpos h m.sized]

/-- each row's columns, row by row -/
def colShard (colOffset cols : ℕ) : Except String (LoraMatrix F) :=
  if h : colOffset + cols ≤ m.cols then
    .ok ⟨Lib.colShard m.rows m.cols colOffset cols m.data, m.rows, cols, m.sized_cols h⟩
  else .error s!"LoRA col shard out of bounds: col_offset={colOffset} cols={cols} total_cols={m.cols}"

/-- one row -/
def row (i : ℕ) : List F := nthRun m.cols i m.data

end LoraMatrix

structure LoraProjection (F : Type) where
  a : LoraMatrix F
  b : LoraMatrix F
deriving DecidableEq

/-- a layer's projections in the order of their names -/
abbrev LoraLayer (F : Type) := List (String × LoraProjection F)

structure LoraAdapterManifest where
  path : String
  rank : ℕ
  alpha : ℕ
  targetModules : List String
  tensorCount : ℕ
deriving DecidableEq, Repr

structure LoraAdapter (F : Type) where
  manifest : LoraAdapterManifest
  layers : List (LoraLayer F)

/-- a rank takes rows of `B` -/
def shardRows (tp : TensorParallelConfig) (total : ℕ) (projection : LoraProjection F) :
    Except String (LoraProjection F) := do
  let b ← projection.b.rowShard (tp.shardRange total).1 (tp.shardRange total).2
  pure ⟨projection.a, b⟩

/-- a rank takes columns of `A` -/
def shardCols (tp : TensorParallelConfig) (total : ℕ) (projection : LoraProjection F) :
    Except String (LoraProjection F) := do
  let a ← projection.a.colShard (tp.shardRange total).1 (tp.shardRange total).2
  pure ⟨a, projection.b⟩

def shardProjectionForTensorParallel (config : Config) (tp : TensorParallelConfig) (target : String)
    (projection : LoraProjection F) : Except String (LoraProjection F) :=
  if target = "q_proj" then shardRows tp (config.numAttentionHeads * config.headDim) projection
  else if target = "k_proj" ∨ target = "v_proj" then shardRows tp (config.numKeyValueHeads * config.headDim) projection
  else if target = "gate_proj" ∨ target = "up_proj" then shardRows tp config.intermediateSize projection
  else if target = "o_proj" then shardCols tp (config.numAttentionHeads * config.headDim) projection
  else if target = "down_proj" then shardCols tp config.intermediateSize projection
  else .error s!"unsupported Qwen3 LoRA target module {target}"

def shardLayer (config : Config) (tp : TensorParallelConfig) (layer : LoraLayer F) : Except String (LoraLayer F) :=
  layer.mapM fun entry => do
    let projection ← shardProjectionForTensorParallel config tp entry.1 entry.2
    pure (entry.1, projection)

def LoraAdapter.shardForTensorParallel (adapter : LoraAdapter F) (config : Config) (tp : TensorParallelConfig) :
    Except String (LoraAdapter F) := do
  tp.validateFor config
  if ¬ tp.isSharded then pure adapter
  else do
    let layers ← adapter.layers.mapM (shardLayer config tp)
    pure ⟨adapter.manifest, layers⟩

/-! ## Loading -/

inductive Dtype
  | f16
  | bf16
  | f32
  | other
deriving DecidableEq, Repr

/-- a stored tensor, its elements already as `bf16` -/
structure TensorView (F : Type) where
  dtype : Dtype
  shape : List ℕ
  data : List F

abbrev SafeTensors (F : Type) := List (String × TensorView F)

structure ProjectionSpec where
  pathSegment : String
  inDim : ℕ
  outDim : ℕ
deriving DecidableEq, Repr

def projectionSpec (config : Config) (target : String) : Except String ProjectionSpec :=
  let qDim := config.numAttentionHeads * config.headDim
  let kvDim := config.numKeyValueHeads * config.headDim
  if target = "q_proj" then .ok ⟨"self_attn.q_proj", config.hiddenSize, qDim⟩
  else if target = "k_proj" then .ok ⟨"self_attn.k_proj", config.hiddenSize, kvDim⟩
  else if target = "v_proj" then .ok ⟨"self_attn.v_proj", config.hiddenSize, kvDim⟩
  else if target = "o_proj" then .ok ⟨"self_attn.o_proj", qDim, config.hiddenSize⟩
  else if target = "gate_proj" then .ok ⟨"mlp.gate_proj", config.hiddenSize, config.intermediateSize⟩
  else if target = "up_proj" then .ok ⟨"mlp.up_proj", config.hiddenSize, config.intermediateSize⟩
  else if target = "down_proj" then .ok ⟨"mlp.down_proj", config.intermediateSize, config.hiddenSize⟩
  else .error s!"unsupported Qwen3 LoRA target module {target}"

def tensorName (layerIdx : ℕ) (pathSegment loraSide : String) : String :=
  s!"base_model.model.model.layers.{layerIdx}.{pathSegment}.{loraSide}.weight"

def findTensor (tensors : SafeTensors F) (name : String) : Except String (TensorView F) :=
  match tensors.lookup name with
  | some tensor => .ok tensor
  | none => .error s!"missing LoRA tensor {name}"

def ensureLoraDtype (name : String) (dtype : Dtype) : Except String Unit :=
  if dtype = .other then .error s!"LoRA tensor {name} has unsupported dtype; expected F16, BF16, or F32" else .ok ()

/-- the shapes of the tensors an adapter is to have, layer by layer; the names are distinct -/
def expectedTensors (config : Config) (rank : ℕ) (targetModules : List String) :
    Except String (List (String × List ℕ)) := do
  let layers ← (List.range config.numHiddenLayers).mapM fun layerIdx =>
    targetModules.mapM fun target => do
      let spec ← projectionSpec config target
      pure [(tensorName layerIdx spec.pathSegment "lora_A", [rank, spec.inDim]),
        (tensorName layerIdx spec.pathSegment "lora_B", [spec.outDim, rank])]
  pure layers.flatten.flatten

def checkTensor (tensors : SafeTensors F) (expected : String × List ℕ) : Except String Unit := do
  let tensor ← findTensor tensors expected.1
  ensureLoraDtype expected.1 tensor.dtype
  if tensor.shape = expected.2 then pure ()
  else throw s!"LoRA tensor {expected.1} shape mismatch: expected {expected.2}, got {tensor.shape}"

/-- the expected tensors are checked in the order of their names, then the others -/
def validateTensorCatalog (tensors : SafeTensors F) (config : Config) (rank : ℕ) (targetModules : List String) :
    Except String Unit := do
  let expected ← expectedTensors config rank targetModules
  let _ ← (expected.mergeSort fun x y => x.1 ≤ y.1).mapM (checkTensor tensors)
  match ((tensors.map Prod.fst).mergeSort (· ≤ ·)).find? fun name => !(expected.map Prod.fst).contains name with
  | some name => .error s!"unexpected LoRA tensor {name}"
  | none => .ok ()

def loadMatrix (tensors : SafeTensors F) (name : String) : Except String (LoraMatrix F) := do
  let tensor ← findTensor tensors name
  match tensor.shape with
  | [rows, cols] => do
    ensureLoraDtype name tensor.dtype
    if h : tensor.data.length = rows * cols then pure ⟨tensor.data, rows, cols, h⟩
    else throw s!"LoRA tensor {name} byte length mismatch"
  | _ => throw s!"LoRA tensor {name} expected 2D, got {tensor.shape}"

def loadProjection (tensors : SafeTensors F) (config : Config) (layerIdx : ℕ) (target : String) :
    Except String (String × LoraProjection F) := do
  let spec ← projectionSpec config target
  let a ← loadMatrix tensors (tensorName layerIdx spec.pathSegment "lora_A")
  let b ← loadMatrix tensors (tensorName layerIdx spec.pathSegment "lora_B")
  pure (target, ⟨a, b⟩)

/-- `load_lora_adapter` once the manifest is read -/
def loadLoraAdapter (tensors : SafeTensors F) (config : Config) (manifest : LoraAdapterManifest) :
    Except String (LoraAdapter F) := do
  validateTensorCatalog tensors config manifest.rank manifest.targetModules
  let layers ← (List.range config.numHiddenLayers).mapM fun layerIdx => do
    let entries ← manifest.targetModules.mapM (loadProjection tensors config layerIdx)
    pure (entries.mergeSort fun x y => x.1 ≤ y.1)
  pure ⟨manifest, layers⟩

variable {config : Config} {tp : TensorParallelConfig} {rank layerIdx n : ℕ} {target : String}
  {tensors : SafeTensors F} {projection : LoraProjection F} {adapter : LoraAdapter F}

/-! ## Loaded adapters -/

/-- the shapes of a target's projection -/
def Fits (config : Config) (rank : ℕ) (target : String) (projection : LoraProjection F) : Prop :=
  ∃ spec, projectionSpec config target = .ok spec ∧ projection.a.rows = rank ∧ projection.a.cols = spec.inDim ∧
    projection.b.rows = spec.outDim ∧ projection.b.cols = rank

/-- every projection has the shapes of its target -/
def LoraAdapter.Validated (adapter : LoraAdapter F) (config : Config) : Prop :=
  ∀ layer ∈ adapter.layers, ∀ entry ∈ layer, Fits config adapter.manifest.rank entry.1 entry.2

theorem checkTensor_shape {expected : String × List ℕ} (h : checkTensor tensors expected = .ok ()) :
    ∃ tensor, findTensor tensors expected.1 = .ok tensor ∧ tensor.shape = expected.2 := by
  obtain ⟨tensor, htensor, h⟩ := bind_eq_ok.1 h
  obtain ⟨-, -, h⟩ := bind_eq_ok.1 h
  split_ifs at h with hshape
  exact ⟨tensor, htensor, hshape⟩

theorem loadMatrix_shape {name : String} {rows cols : ℕ} {m : LoraMatrix F}
    (hcheck : checkTensor tensors (name, [rows, cols]) = .ok ()) (h : loadMatrix tensors name = .ok m) :
    m.rows = rows ∧ m.cols = cols := by
  obtain ⟨tensor, htensor, hshape⟩ := checkTensor_shape hcheck
  obtain ⟨loaded, hloaded, h⟩ := bind_eq_ok.1 h
  obtain rfl : tensor = loaded := Except.ok.inj (htensor.symm.trans hloaded)
  rw [hshape] at h
  obtain ⟨-, -, h⟩ := bind_eq_ok.1 h
  split_ifs at h
  obtain rfl := Except.ok.inj h
  exact ⟨rfl, rfl⟩

theorem validateTensorCatalog_checked {targets : List String}
    (h : validateTensorCatalog tensors config rank targets = .ok ()) (hlayer : layerIdx < config.numHiddenLayers)
    (htarget : target ∈ targets) :
    ∃ spec, projectionSpec config target = .ok spec ∧
      checkTensor tensors (tensorName layerIdx spec.pathSegment "lora_A", [rank, spec.inDim]) = .ok () ∧
      checkTensor tensors (tensorName layerIdx spec.pathSegment "lora_B", [spec.outDim, rank]) = .ok () := by
  obtain ⟨expected, hexpected, h⟩ := bind_eq_ok.1 h
  obtain ⟨results, hchecks, -⟩ := bind_eq_ok.1 h
  obtain ⟨layers, hlayers, hflat⟩ := bind_eq_ok.1 hexpected
  obtain rfl : layers.flatten.flatten = expected := Except.ok.inj hflat
  obtain ⟨pairs, hpairs, hok⟩ := forall₂_mem_left (mapM_ok_iff.1 hlayers) layerIdx (List.mem_range.2 hlayer)
  obtain ⟨pair, hpair, hok⟩ := forall₂_mem_left (mapM_ok_iff.1 hok) target htarget
  obtain ⟨spec, hspec, hok⟩ := bind_eq_ok.1 hok
  obtain rfl := Except.ok.inj hok
  have hchecked : ∀ tensor ∈ layers.flatten.flatten, checkTensor tensors tensor = .ok () := by
    intro tensor hin
    obtain ⟨_, -, hcheck⟩ := forall₂_mem_left (mapM_ok_iff.1 hchecks) tensor (List.mem_mergeSort.2 hin)
    exact hcheck
  have hmem : ∀ tensor, tensor ∈ [(tensorName layerIdx spec.pathSegment "lora_A", [rank, spec.inDim]),
      (tensorName layerIdx spec.pathSegment "lora_B", [spec.outDim, rank])] → tensor ∈ layers.flatten.flatten :=
    fun tensor hin => List.mem_flatten.2 ⟨_, List.mem_flatten.2 ⟨pairs, hpairs, hpair⟩, hin⟩
  exact ⟨spec, hspec, hchecked _ (hmem _ List.mem_cons_self),
    hchecked _ (hmem _ (List.mem_cons_of_mem _ List.mem_cons_self))⟩

/-- **A loaded adapter has the shapes of its configuration.** -/
theorem loadLoraAdapter_validated {manifest : LoraAdapterManifest}
    (h : loadLoraAdapter tensors config manifest = .ok adapter) : adapter.Validated config := by
  obtain ⟨⟨⟩, hvalid, h⟩ := bind_eq_ok.1 h
  obtain ⟨layers, hlayers, h⟩ := bind_eq_ok.1 h
  obtain rfl := Except.ok.inj h
  intro layer hlayer entry hentry
  obtain ⟨layerIdx, hidx, hok⟩ := forall₂_mem_right (mapM_ok_iff.1 hlayers) layer hlayer
  obtain ⟨entries, hentries, hsorted⟩ := bind_eq_ok.1 hok
  obtain rfl := Except.ok.inj hsorted
  obtain ⟨target, htarget, hload⟩ := forall₂_mem_right (mapM_ok_iff.1 hentries) entry (List.mem_mergeSort.1 hentry)
  obtain ⟨spec, hspec, ha, hb⟩ := validateTensorCatalog_checked hvalid (List.mem_range.1 hidx) htarget
  obtain ⟨spec', hspec', hload⟩ := bind_eq_ok.1 hload
  obtain rfl : spec = spec' := Except.ok.inj (hspec.symm.trans hspec')
  obtain ⟨a, hloada, hload⟩ := bind_eq_ok.1 hload
  obtain ⟨b, hloadb, hload⟩ := bind_eq_ok.1 hload
  obtain rfl := Except.ok.inj hload
  obtain ⟨hrows, hcols⟩ := loadMatrix_shape ha hloada
  obtain ⟨hrows', hcols'⟩ := loadMatrix_shape hb hloadb
  exact ⟨spec, hspec, hrows, hcols, hrows', hcols'⟩

/-! ## One projection -/

/-- the shard of a rank that takes `n` rows of `B` -/
structure RowPart (n rank : ℕ) (whole part : LoraProjection F) : Prop where
  a : part.a = whole.a
  rows : part.b.rows = n
  cols : part.b.cols = whole.b.cols
  data : part.b.data = nthRun (n * whole.b.cols) rank whole.b.data

/-- the shard of a rank that takes `n` columns of `A` -/
structure ColPart (n rank : ℕ) (whole part : LoraProjection F) : Prop where
  b : part.b = whole.b
  rows : part.a.rows = whole.a.rows
  cols : part.a.cols = n
  data : part.a.data = Lib.colShard whole.a.rows whole.a.cols (rank * n) n whole.a.data

theorem shardRows_part {total : ℕ} (hrank : tp.rank < tp.worldSize) (htotal : projection.b.rows = total)
    (hdvd : tp.worldSize ∣ total) :
    ∃ part, shardRows tp total projection = .ok part ∧ RowPart (total / tp.worldSize) tp.rank projection part := by
  have hfits : tp.rank * (total / tp.worldSize) + total / tp.worldSize ≤ projection.b.rows := by
    rw [← Nat.succ_mul, htotal]
    exact (Nat.mul_le_mul_right _ hrank).trans (Nat.mul_div_cancel' hdvd).le
  refine ⟨_, bind_eq_ok.2 ⟨_, dif_pos hfits, rfl⟩, rfl, rfl, rfl, ?_⟩
  change (projection.b.data.take _).drop _ = _
  rw [nthRun, List.drop_take, Nat.add_mul, Nat.add_sub_cancel_left, ← Nat.mul_assoc]
  rfl

theorem shardCols_part {total : ℕ} (hrank : tp.rank < tp.worldSize) (htotal : projection.a.cols = total)
    (hdvd : tp.worldSize ∣ total) :
    ∃ part, shardCols tp total projection = .ok part ∧ ColPart (total / tp.worldSize) tp.rank projection part := by
  have hfits : tp.rank * (total / tp.worldSize) + total / tp.worldSize ≤ projection.a.cols := by
    rw [← Nat.succ_mul, htotal]
    exact (Nat.mul_le_mul_right _ hrank).trans (Nat.mul_div_cancel' hdvd).le
  exact ⟨_, bind_eq_ok.2 ⟨_, dif_pos hfits, rfl⟩, rfl, rfl, rfl, rfl⟩

/-- a rank of one holds the whole projection -/
theorem RowPart.whole (h : projection.b.rows = n) : RowPart n 0 projection projection := by
  refine ⟨rfl, h, rfl, ?_⟩
  rw [nthRun, Nat.zero_mul, List.drop_zero, ← h, ← projection.b.sized, List.take_length]

theorem ColPart.whole (h : projection.a.cols = n) : ColPart n 0 projection projection := by
  refine ⟨rfl, rfl, h, ?_⟩
  rw [Nat.zero_mul, ← h, colShard_whole projection.a.sized]

/-! ## All ranks -/

/-- `B (A x)`, the correction a projection adds before scaling -/
def LoraProjection.delta {R : Type} [NonUnitalNonAssocSemiring R] (projection : LoraProjection R) (x : List R) :
    List R :=
  matVec projection.b.rows projection.b.cols projection.b.data
    (matVec projection.a.rows projection.a.cols projection.a.data x)

variable {R : Type} [NonUnitalNonAssocSemiring R]

/-- the ranks' rows of `B` are all its rows, in order, and so are the outputs -/
structure RowSplit (worldSize : ℕ) (whole : LoraProjection R) (parts : ℕ → LoraProjection R) : Prop where
  a : ∀ rank < worldSize, (parts rank).a = whole.a
  cols : ∀ rank < worldSize, (parts rank).b.cols = whole.b.cols
  rows : ((List.range worldSize).map fun rank => (parts rank).b.rows).sum = whole.b.rows
  data : ((List.range worldSize).flatMap fun rank => (parts rank).b.data) = whole.b.data
  delta : ∀ x, ((List.range worldSize).flatMap fun rank => (parts rank).delta x) = whole.delta x

/-- the ranks' columns of each row of `A` are the row, in order, and the outputs on the matching segments of the input
sum up -/
structure ColSplit (worldSize : ℕ) (whole : LoraProjection R) (parts : ℕ → LoraProjection R) : Prop where
  b : ∀ rank < worldSize, (parts rank).b = whole.b
  rows : ∀ rank < worldSize, (parts rank).a.rows = whole.a.rows
  cols : ((List.range worldSize).map fun rank => (parts rank).a.cols).sum = whole.a.cols
  data : ∀ i < whole.a.rows, ((List.range worldSize).flatMap fun rank => (parts rank).a.row i) = whole.a.row i
  delta : ∀ x, sumVecs whole.b.rows
    ((List.range worldSize).map fun rank => (parts rank).delta (nthRun (parts rank).a.cols rank x)) = whole.delta x

variable {worldSize : ℕ} {whole : LoraProjection R} {parts : ℕ → LoraProjection R}

theorem rowSplit (hrows : whole.b.rows = worldSize * n) (h : ∀ rank < worldSize, RowPart n rank whole (parts rank)) :
    RowSplit worldSize whole parts := by
  have hpart : ∀ rank ∈ List.range worldSize, RowPart n rank whole (parts rank) :=
    fun rank hrank => h rank (List.mem_range.1 hrank)
  refine ⟨fun rank hrank => (h rank hrank).a, fun rank hrank => (h rank hrank).cols, ?_, ?_, fun x => ?_⟩
  · rw [List.map_congr_left fun rank hrank => (hpart rank hrank).rows, List.map_const', List.sum_replicate,
      List.length_range, hrows]
    rfl
  · rw [List.flatMap_congr fun rank hrank => (hpart rank hrank).data]
    exact nthRuns_flatten (by rw [whole.b.sized, hrows, Nat.mul_assoc])
  · have hdelta : ∀ rank ∈ List.range worldSize, (parts rank).delta x =
        matVec n whole.b.cols (nthRun (n * whole.b.cols) rank whole.b.data)
          (matVec whole.a.rows whole.a.cols whole.a.data x) := by
      intro rank hrank
      have hp := hpart rank hrank
      rw [LoraProjection.delta, hp.a, hp.rows, hp.cols, hp.data]
    rw [List.flatMap_congr hdelta, matVec_rows, LoraProjection.delta, hrows]

theorem colSplit (hcols : whole.a.cols = worldSize * n) (hinner : whole.b.cols = whole.a.rows)
    (h : ∀ rank < worldSize, ColPart n rank whole (parts rank)) : ColSplit worldSize whole parts := by
  have hpart : ∀ rank ∈ List.range worldSize, ColPart n rank whole (parts rank) :=
    fun rank hrank => h rank (List.mem_range.1 hrank)
  have hsized : whole.a.data.length = whole.a.rows * (worldSize * n) := by rw [whole.a.sized, hcols]
  refine ⟨fun rank hrank => (h rank hrank).b, fun rank hrank => (h rank hrank).rows, ?_, fun i hi => ?_, fun x => ?_⟩
  · rw [List.map_congr_left fun rank hrank => (hpart rank hrank).cols, List.map_const', List.sum_replicate,
      List.length_range, hcols]
    rfl
  · have hrow : ∀ rank ∈ List.range worldSize, (parts rank).a.row i =
        nthRun n i (Lib.colShard whole.a.rows (worldSize * n) (rank * n) n whole.a.data) := by
      intro rank hrank
      have hp := hpart rank hrank
      rw [LoraMatrix.row, hp.cols, hp.data, hcols]
    rw [List.flatMap_congr hrow, nthRun_colShards hsized hi, LoraMatrix.row, hcols]
  · have hdelta : ∀ rank ∈ List.range worldSize, (parts rank).delta (nthRun (parts rank).a.cols rank x) =
        matVec whole.b.rows whole.a.rows whole.b.data (matVec whole.a.rows n
          (Lib.colShard whole.a.rows (worldSize * n) (rank * n) n whole.a.data) (nthRun n rank x)) := by
      intro rank hrank
      have hp := hpart rank hrank
      rw [LoraProjection.delta, hp.b, hp.rows, hp.cols, hp.data, hcols, hinner]
    rw [List.map_congr_left hdelta, matVec_cols _ _ _ _ _ _ _ hsized, LoraProjection.delta, hinner, hcols]

/-! ## Whole adapters -/

/-- the targets whose base weight is split by output rows -/
def rowTargets : List String := ["q_proj", "k_proj", "v_proj", "gate_proj", "up_proj"]

/-- the targets whose base weight is split by input columns -/
def colTargets : List String := ["o_proj", "down_proj"]

/-- a rank's part of a target's projection -/
inductive TargetPart (worldSize rank : ℕ) (target : String) (whole part : LoraProjection F) : Prop
  | row {n : ℕ} (target : target ∈ rowTargets) (dim : whole.b.rows = worldSize * n) (part : RowPart n rank whole part)
  | col {n : ℕ} (target : target ∈ colTargets) (dim : whole.a.cols = worldSize * n) (part : ColPart n rank whole part)

theorem validateFor_ok_iff :
    tp.validateFor config = .ok () ↔ tp.rank < tp.worldSize ∧ tp.worldSize ∣ config.numAttentionHeads ∧
      tp.worldSize ∣ config.numKeyValueHeads ∧ tp.worldSize ∣ config.intermediateSize := by
  simp only [Nat.dvd_iff_mod_eq_zero]
  unfold TensorParallelConfig.validateFor
  constructor
  · intro h
    split_ifs at h with h₁ h₂ h₃ h₄ h₅
    exact ⟨not_le.1 h₂, not_not.1 h₃, not_not.1 h₄, not_not.1 h₅⟩
  · rintro ⟨hrank, hheads, hkv, hinter⟩
    rw [if_neg (by omega), if_neg (by omega), if_neg (not_not.2 hheads), if_neg (not_not.2 hkv),
      if_neg (not_not.2 hinter)]

theorem shardProjection_part (hvalid : tp.validateFor config = .ok ()) (hfits : Fits config rank target projection) :
    ∃ part, shardProjectionForTensorParallel config tp target projection = .ok part ∧
      TargetPart tp.worldSize tp.rank target projection part := by
  obtain ⟨hrank, hheads, hkv, hinter⟩ := validateFor_ok_iff.1 hvalid
  obtain ⟨spec, hspec, -, hcols, hrows, -⟩ := hfits
  have hq : tp.worldSize ∣ config.numAttentionHeads * config.headDim := hheads.mul_right _
  have hk : tp.worldSize ∣ config.numKeyValueHeads * config.headDim := hkv.mul_right _
  have hrow : ∀ {total : ℕ}, projection.b.rows = total → tp.worldSize ∣ total → target ∈ rowTargets →
      ∃ part, shardRows tp total projection = .ok part ∧ TargetPart tp.worldSize tp.rank target projection part := by
    intro total htotal hdvd htarget
    obtain ⟨part, hok, hpart⟩ := shardRows_part hrank htotal hdvd
    exact ⟨part, hok, .row htarget (htotal.trans (Nat.mul_div_cancel' hdvd).symm) hpart⟩
  have hcol : ∀ {total : ℕ}, projection.a.cols = total → tp.worldSize ∣ total → target ∈ colTargets →
      ∃ part, shardCols tp total projection = .ok part ∧ TargetPart tp.worldSize tp.rank target projection part := by
    intro total htotal hdvd htarget
    obtain ⟨part, hok, hpart⟩ := shardCols_part hrank htotal hdvd
    exact ⟨part, hok, .col htarget (htotal.trans (Nat.mul_div_cancel' hdvd).symm) hpart⟩
  unfold projectionSpec at hspec
  split_ifs at hspec with h₁ h₂ h₃ h₄ h₅ h₆ h₇
  all_goals obtain rfl := Except.ok.inj hspec
  · subst h₁
    exact hrow hrows hq (by decide)
  · subst h₂
    exact hrow hrows hk (by decide)
  · subst h₃
    exact hrow hrows hk (by decide)
  · subst h₄
    exact hcol hcols hq (by decide)
  · subst h₅
    exact hrow hrows hinter (by decide)
  · subst h₆
    exact hrow hrows hinter (by decide)
  · subst h₇
    exact hcol hcols hinter (by decide)

/-- a rank of one is not sharded and holds everything -/
theorem targetPart_whole (hfits : Fits config rank target projection) :
    TargetPart 1 0 target projection projection := by
  have hvalid : (⟨0, 1⟩ : TensorParallelConfig).validateFor config = .ok () :=
    validateFor_ok_iff.2 ⟨Nat.one_pos, Nat.one_dvd _, Nat.one_dvd _, Nat.one_dvd _⟩
  obtain ⟨_, -, hpart⟩ := shardProjection_part hvalid hfits
  rcases hpart with ⟨htarget, -, -⟩ | ⟨htarget, -, -⟩
  · exact .row htarget (Nat.one_mul _).symm (RowPart.whole rfl)
  · exact .col htarget (Nat.one_mul _).symm (ColPart.whole rfl)

/-- the projection at a place -/
def LoraAdapter.entryAt (adapter : LoraAdapter F) (i k : ℕ) : Option (String × LoraProjection F) :=
  adapter.layers[i]?.bind fun layer => layer[k]?

theorem shardLayer_ok (hvalid : tp.validateFor config = .ok ()) {layer : LoraLayer F}
    (hlayer : ∀ entry ∈ layer, Fits config rank entry.1 entry.2) : ∃ shard, shardLayer config tp layer = .ok shard := by
  refine mapM_exists fun entry hentry => ?_
  obtain ⟨part, hok, -⟩ := shardProjection_part hvalid (hlayer entry hentry)
  exact ⟨(entry.1, part), bind_eq_ok.2 ⟨part, hok, rfl⟩⟩

theorem shardForTensorParallel_ok (hvalid : tp.validateFor config = .ok ()) (hadapter : adapter.Validated config) :
    ∃ shard, adapter.shardForTensorParallel config tp = .ok shard := by
  by_cases hsharded : tp.isSharded
  · obtain ⟨layers, hlayers⟩ := mapM_exists fun layer hlayer => shardLayer_ok hvalid (hadapter layer hlayer)
    refine ⟨⟨adapter.manifest, layers⟩, bind_eq_ok.2 ⟨(), hvalid, ?_⟩⟩
    rw [if_neg (not_not.2 hsharded)]
    exact bind_eq_ok.2 ⟨layers, hlayers, rfl⟩
  · refine ⟨adapter, bind_eq_ok.2 ⟨(), hvalid, ?_⟩⟩
    rw [if_pos hsharded]
    rfl

/-- a shard has the manifest and the layers of the whole -/
theorem shardForTensorParallel_shape {shard : LoraAdapter F}
    (h : adapter.shardForTensorParallel config tp = .ok shard) :
    shard.manifest = adapter.manifest ∧ shard.layers.length = adapter.layers.length := by
  obtain ⟨⟨⟩, -, h⟩ := bind_eq_ok.1 h
  by_cases hsharded : tp.isSharded
  · rw [if_neg (not_not.2 hsharded)] at h
    obtain ⟨layers, hlayers, h⟩ := bind_eq_ok.1 h
    obtain rfl := Except.ok.inj h
    exact ⟨rfl, (mapM_ok_iff.1 hlayers).length_eq.symm⟩
  · rw [if_pos hsharded] at h
    obtain rfl := Except.ok.inj h
    exact ⟨rfl, rfl⟩

theorem shardForTensorParallel_part (hvalid : tp.validateFor config = .ok ()) (hadapter : adapter.Validated config)
    {shard : LoraAdapter F} (h : adapter.shardForTensorParallel config tp = .ok shard) {i k : ℕ}
    (hentry : adapter.entryAt i k = some (target, projection)) :
    ∃ part, shard.entryAt i k = some (target, part) ∧ TargetPart tp.worldSize tp.rank target projection part := by
  obtain ⟨⟨⟩, -, h⟩ := bind_eq_ok.1 h
  obtain ⟨layer, hlayer, hplace⟩ := Option.bind_eq_some_iff.1 hentry
  have hfits := hadapter layer (List.mem_of_getElem? hlayer) _ (List.mem_of_getElem? hplace)
  obtain ⟨hrank, -⟩ := validateFor_ok_iff.1 hvalid
  by_cases hsharded : tp.isSharded
  · rw [if_neg (not_not.2 hsharded)] at h
    obtain ⟨layers, hlayers, h⟩ := bind_eq_ok.1 h
    obtain rfl := Except.ok.inj h
    obtain ⟨layer', hlayer', hshard⟩ := forall₂_getElem? (mapM_ok_iff.1 hlayers) hlayer
    obtain ⟨entry, hentry', hpart⟩ := forall₂_getElem? (mapM_ok_iff.1 hshard) hplace
    obtain ⟨part, hok, hpair⟩ := bind_eq_ok.1 hpart
    obtain rfl := Except.ok.inj hpair
    obtain ⟨part', hok', htarget⟩ := shardProjection_part hvalid hfits
    obtain rfl : part = part' := Except.ok.inj (hok.symm.trans hok')
    exact ⟨part, Option.bind_eq_some_iff.2 ⟨layer', hlayer', hentry'⟩, htarget⟩
  · rw [if_pos hsharded] at h
    obtain rfl := Except.ok.inj h
    have hone : tp.worldSize = 1 := by
      rw [TensorParallelConfig.isSharded, decide_eq_true_eq] at hsharded
      omega
    have hzero : tp.rank = 0 := by omega
    rw [hone, hzero]
    exact ⟨projection, hentry, targetPart_whole hfits⟩

/-- a place has a projection in the whole adapter, and the ranks' projections there split it -/
structure PlaceSplit (worldSize : ℕ) (adapter : LoraAdapter R) (shards : ℕ → LoraAdapter R) (i k : ℕ) (target : String)
    (whole : LoraProjection R) (parts : ℕ → LoraProjection R) : Prop where
  entries : ∀ rank < worldSize, (shards rank).entryAt i k = some (target, parts rank)
  split : (target ∈ rowTargets ∧ RowSplit worldSize whole parts) ∨
    (target ∈ colTargets ∧ ColSplit worldSize whole parts)

/-- what one rank's part says of the dimension it is cut from holds of every rank's part -/
theorem TargetPart.split (hpos : 0 < worldSize) (hinner : whole.b.cols = whole.a.rows)
    (h : ∀ rank < worldSize, TargetPart worldSize rank target whole (parts rank)) :
    (target ∈ rowTargets ∧ RowSplit worldSize whole parts) ∨
      (target ∈ colTargets ∧ ColSplit worldSize whole parts) := by
  have hdisjoint : target ∈ rowTargets → target ∉ colTargets := by
    intro hrow hcol
    revert hrow
    rcases List.mem_cons.1 hcol with rfl | hcol
    · decide
    · obtain rfl := List.mem_singleton.1 hcol
      decide
  rcases h 0 hpos with ⟨htarget, hdim, -⟩ | ⟨htarget, hdim, -⟩
  · refine .inl ⟨htarget, rowSplit hdim fun rank hrank => ?_⟩
    rcases h rank hrank with ⟨-, hdim', hpart⟩ | ⟨hcol, -, -⟩
    · rwa [Nat.eq_of_mul_eq_mul_left hpos (hdim.symm.trans hdim')]
    · exact absurd hcol (hdisjoint htarget)
  · refine .inr ⟨htarget, colSplit hdim hinner fun rank hrank => ?_⟩
    rcases h rank hrank with ⟨hrow, -, -⟩ | ⟨-, hdim', hpart⟩
    · exact absurd htarget (hdisjoint hrow)
    · rwa [Nat.eq_of_mul_eq_mul_left hpos (hdim.symm.trans hdim')]

/-- **Sharding is exact.** A world size the configuration is accepted for shards a loaded adapter on every rank, and at
every place the ranks' shards of the projection are a partition of it whose outputs make up the unsharded output. -/
theorem shardForTensorParallel_exact (config : Config) (worldSize : ℕ) (adapter : LoraAdapter R)
    (hworld : (⟨0, worldSize⟩ : TensorParallelConfig).validateFor config = .ok ())
    (hadapter : adapter.Validated config) :
    ∃ shards : ℕ → LoraAdapter R,
      (∀ rank < worldSize, adapter.shardForTensorParallel config ⟨rank, worldSize⟩ = .ok (shards rank) ∧
        (shards rank).manifest = adapter.manifest ∧ (shards rank).layers.length = adapter.layers.length) ∧
      ∀ i k target whole, adapter.entryAt i k = some (target, whole) →
        ∃ parts : ℕ → LoraProjection R, PlaceSplit worldSize adapter shards i k target whole parts := by
  obtain ⟨hpos, hdvd⟩ := validateFor_ok_iff.1 hworld
  have hvalid : ∀ rank < worldSize, (⟨rank, worldSize⟩ : TensorParallelConfig).validateFor config = .ok () :=
    fun rank hrank => validateFor_ok_iff.2 ⟨hrank, hdvd⟩
  have hok : ∀ rank, ∃ shard, rank < worldSize →
      adapter.shardForTensorParallel config ⟨rank, worldSize⟩ = .ok shard := by
    intro rank
    by_cases hrank : rank < worldSize
    · obtain ⟨shard, hshard⟩ := shardForTensorParallel_ok (hvalid rank hrank) hadapter
      exact ⟨shard, fun _ => hshard⟩
    · exact ⟨adapter, fun h => absurd h hrank⟩
  choose shards hshards using hok
  refine ⟨shards, fun rank hrank => ⟨hshards rank hrank, shardForTensorParallel_shape (hshards rank hrank)⟩, ?_⟩
  intro i k target whole hentry
  have hpart : ∀ rank, ∃ part, rank < worldSize →
      (shards rank).entryAt i k = some (target, part) ∧ TargetPart worldSize rank target whole part := by
    intro rank
    by_cases hrank : rank < worldSize
    · obtain ⟨part, hpart⟩ := shardForTensorParallel_part (hvalid rank hrank) hadapter (hshards rank hrank) hentry
      exact ⟨part, fun _ => hpart⟩
    · exact ⟨whole, fun h => absurd h hrank⟩
  choose parts hparts using hpart
  obtain ⟨layer, hlayer, hplace⟩ := Option.bind_eq_some_iff.1 hentry
  obtain ⟨_, -, hrows, -, -, hcols⟩ := hadapter layer (List.mem_of_getElem? hlayer) _ (List.mem_of_getElem? hplace)
  exact ⟨parts, fun rank hrank => (hparts rank hrank).1,
    TargetPart.split hpos (hcols.trans hrows.symm) fun rank hrank => (hparts rank hrank).2⟩

/-- two heads of one element and a feed-forward of two -/
def twoHeads : Config := ⟨2, 2, 1, 2, 2, 1⟩

/-- a row target and a column target of rank one -/
def rankOne : LoraAdapter ℤ :=
  ⟨⟨"adapter", 1, 1, ["down_proj", "q_proj"], 4⟩,
    [[("down_proj", ⟨⟨[3, 4], 1, 2, rfl⟩, ⟨[5, 6], 2, 1, rfl⟩⟩), ("q_proj", ⟨⟨[1, 2], 1, 2, rfl⟩, ⟨[7, 8], 2, 1, rfl⟩⟩)]]⟩

theorem rankOne_validated : rankOne.Validated twoHeads := by
  intro layer hlayer entry hentry
  obtain rfl := List.mem_singleton.1 hlayer
  rcases List.mem_cons.1 hentry with rfl | hentry
  · exact ⟨⟨"mlp.down_proj", 2, 2⟩, by decide, rfl, rfl, rfl, rfl⟩
  · obtain rfl := List.mem_singleton.1 hentry
    exact ⟨⟨"self_attn.q_proj", 2, 2⟩, by decide, rfl, rfl, rfl, rfl⟩

theorem shardForTensorParallel_rankOne :
    ∃ shards : ℕ → LoraAdapter ℤ,
      (∀ rank < 2, rankOne.shardForTensorParallel twoHeads ⟨rank, 2⟩ = .ok (shards rank) ∧
        (shards rank).manifest = rankOne.manifest ∧ (shards rank).layers.length = rankOne.layers.length) ∧
      ∀ i k target whole, rankOne.entryAt i k = some (target, whole) →
        ∃ parts : ℕ → LoraProjection ℤ, PlaceSplit 2 rankOne shards i k target whole parts :=
  shardForTensorParallel_exact twoHeads 2 rankOne (by decide) rankOne_validated

end Pegainfer.Qwen3.LoraShard
