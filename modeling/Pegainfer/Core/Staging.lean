/-
Staged weight upload: sources cut into chunks, each filled into a pinned buffer by a pool and copied to the device.

A fill is the list of byte writes its workers make, each into a cell of the staged chunk; a slice that a worker is given
is the list of its cells. What Rust would panic on is an error.
- `copy_fills`, `gatherCols_fills`: the pool writes each cell once, whichever way the work is split.
- `gatherCols_ok`: the unstaged loader gathers the row-major column shard.
-/
import Mathlib.Tactic
import Pegainfer.Lib.Cells

namespace Pegainfer.Core

open Pegainfer.Lib

/-! ## Model -/

/-- a `bf16` as the two bytes it has in memory -/
abbrev Bf16 := UInt8 × UInt8

def bf16Size : ℕ := 2

def stageBytes : ℕ := 32 * 2 ^ 20

def parallelFillMinBytes : ℕ := 2 ^ 20

/-- the cells of a mutable byte slice, in order -/
abbrev Cells := List ℕ

/-- one byte into one cell -/
abbrev ByteWrite := ℕ × UInt8

variable {α : Type}

/-- `slice[start..stop]` -/
def sliceRange (slice : List α) (start stop : ℕ) : Except String (List α) :=
  if start ≤ stop ∧ stop ≤ slice.length then .ok ((slice.take stop).drop start)
  else .error s!"range {start}..{stop} out of range for slice of length {slice.length}"

/-- `slice.chunks(size)` -/
def sliceChunks (size : ℕ) (slice : List α) : Except String (List (List α)) :=
  if size = 0 then .error "chunk size must be non-zero" else .ok (chunks size slice)

def copyFromSlice (dst : Cells) (src : List UInt8) : Except String (List ByteWrite) :=
  if dst.length = src.length then .ok (dst.zip src)
  else .error "copy_from_slice: source slice length does not match destination slice length"

def divCeil (a b : ℕ) : ℕ := (a + b - 1) / b

/-- what the pool copies: at once, or a part for each worker -/
def FillPool.copy (workers : ℕ) (src : List UInt8) (dst : Cells) : Except String (List ByteWrite) :=
  if src.length < parallelFillMinBytes ∨ workers = 1 then copyFromSlice dst src
  else do
    let per := divCeil src.length workers
    let srcParts ← sliceChunks per src
    let dstParts ← sliceChunks per dst
    eachPair copyFromSlice dstParts srcParts

/-- one row's columns -/
def gatherRow (offB takeB : ℕ) (dstRow : Cells) (srcRow : List UInt8) : Except String (List ByteWrite) := do
  let part ← sliceRange srcRow offB (offB + takeB)
  copyFromSlice dstRow part

/-- the columns of some rows, row by row -/
def gatherRows (strideB offB takeB : ℕ) (dstRows : Cells) (srcRows : List UInt8) : Except String (List ByteWrite) := do
  let rows ← sliceChunks strideB srcRows
  let dsts ← sliceChunks takeB dstRows
  eachPair (gatherRow offB takeB) dsts rows

/-- what the pool gathers: all rows, or some for each worker -/
def FillPool.gatherCols (workers : ℕ) (src : List UInt8) (strideB offB takeB rows : ℕ) (dst : Cells) :
    Except String (List ByteWrite) := do
  let used ← sliceRange src 0 (rows * strideB)
  if dst.length < parallelFillMinBytes ∨ workers = 1 then gatherRows strideB offB takeB dst used
  else do
    let rowsPer := divCeil rows workers
    let srcParts ← sliceChunks (rowsPer * strideB) used
    let dstParts ← sliceChunks (rowsPer * takeB) dst
    eachPair (gatherRows strideB offB takeB) dstParts srcParts

/-- one call of `stage_chunk`: how many bytes, where on the device, and the writes of its fill -/
structure StagedChunk where
  bytes : ℕ
  dstAt : ℕ
  writes : List ByteWrite
deriving DecidableEq, Repr

/-- `fill` gets the first `bytes` cells of a pinned buffer -/
def stageChunk (bytes dstAt : ℕ) (fill : Cells → Except String (List ByteWrite)) : Except String StagedChunk := do
  let writes ← fill (List.range bytes)
  pure ⟨bytes, dstAt, writes⟩

/-- the `i`th chunk of `upload_at` goes `i * STAGE_BYTES` bytes in -/
def uploadChunksAt (workers dstAt : ℕ) : ℕ → List (List UInt8) → Except String (List StagedChunk)
  | _, [] => pure []
  | i, chunk :: rest => do
    let staged ← stageChunk chunk.length (dstAt + i * stageBytes) (FillPool.copy workers chunk)
    let later ← uploadChunksAt workers dstAt (i + 1) rest
    pure (staged :: later)

def uploadAt (workers : ℕ) (src : List UInt8) (dstAt : ℕ) : Except String (List StagedChunk) := do
  let parts ← sliceChunks stageBytes src
  uploadChunksAt workers dstAt 0 parts

/-- where the next chunk starts: a source, and a byte of it -/
structure Cursor where
  source : ℕ
  sourceAt : ℕ
deriving DecidableEq, Repr

/-- the slices of one chunk, the bytes they have, and where the next chunk starts -/
structure Contiguous where
  parts : List (List UInt8)
  bytes : ℕ
  cursor : Cursor
deriving DecidableEq, Repr

/-- the loop of `next_contiguous_chunk` -/
def nextContiguousChunk (srcs : List (List UInt8)) (limit : ℕ) (parts : List (List UInt8)) (bytes : ℕ) (c : Cursor) :
    Except String Contiguous :=
  if h : c.source < srcs.length ∧ bytes < limit then
    let src := srcs[c.source]
    if src.isEmpty then nextContiguousChunk srcs limit parts bytes ⟨c.source + 1, 0⟩
    else if src.length < c.sourceAt then .error "attempt to subtract with overflow"
    else
      let take := min (limit - bytes) (src.length - c.sourceAt)
      let parts := parts ++ [(src.drop c.sourceAt).take take]
      if c.sourceAt + take = src.length then nextContiguousChunk srcs limit parts (bytes + take) ⟨c.source + 1, 0⟩
      else nextContiguousChunk srcs limit parts (bytes + take) ⟨c.source, c.sourceAt + take⟩
  else .ok ⟨parts, bytes, c⟩
termination_by (srcs.length - c.source, limit - bytes)
decreasing_by
  · exact Prod.Lex.left _ _ (by omega)
  · exact Prod.Lex.left _ _ (by omega)
  · -- the source did not fit, so the chunk is full
    rename_i _ hinside hunfinished
    refine Prod.Lex.right _ ?_
    simp only [src, take] at hinside hunfinished ⊢
    omega

/-- the chunk's parts, one behind the other -/
def fillParts (workers : ℕ) : List (List UInt8) → ℕ → Cells → Except String (List ByteWrite)
  | [], _, _ => pure []
  | part :: parts, at_, stage => do
    let dst ← sliceRange stage at_ (at_ + part.length)
    let first ← FillPool.copy workers part dst
    let others ← fillParts workers parts (at_ + part.length) stage
    pure (first ++ others)

/-- the validated plan of a column-shard upload -/
structure ColShardPlan where
  strideB : ℕ
  offB : ℕ
  takeB : ℕ
  rows : ℕ
  dstAt : ℕ
deriving DecidableEq, Repr

/-- a device buffer and its elements -/
structure DeviceSlice where
  ptr : ℕ
  len : ℕ
  /-- allocated on the stager's stream -/
  ownStream : Bool

def ensureUploadable (dst : DeviceSlice) (streamOverride : Bool) : Except String Unit :=
  if dst.ownStream = false then
    .error "staged upload into a buffer allocated on a different stream than the stager's"
  else if streamOverride then .error "staged upload under a thread-local stream override is unsupported"
  else .ok ()

/-- the device address of a contiguous upload `dst_offset` elements in -/
def prepare (src : List UInt8) (dst : DeviceSlice) (dstOffset : ℕ) (streamOverride : Bool) : Except String ℕ := do
  ensureUploadable dst streamOverride
  if ¬ src.length % bf16Size = 0 then
    throw s!"staged upload source of {src.length} bytes is not a whole number of bf16 elements"
  if ¬ (dstOffset * bf16Size < 2 ^ 64 ∧ dstOffset * bf16Size + src.length < 2 ^ 64 ∧
      dstOffset * bf16Size + src.length ≤ dst.len * bf16Size) then
    throw (s!"staged upload out of bounds: dst_offset {dstOffset} + src bytes {src.length} > " ++
      s!"dst len {dst.len}")
  pure (dst.ptr + dstOffset * bf16Size)

/-- column counts are in elements -/
def prepareCols (src : List UInt8) (totalCols colOffset take : ℕ) (dst : DeviceSlice) (streamOverride : Bool) :
    Except String ColShardPlan := do
  ensureUploadable dst streamOverride
  let strideB := totalCols * bf16Size
  if ¬ (strideB < 2 ^ 64 ∧ 0 < strideB ∧ src.length % strideB = 0) then
    throw s!"strided upload source of {src.length} bytes is not a multiple of {totalCols} bf16 columns"
  if ¬ (colOffset + take < 2 ^ 64 ∧ colOffset + take ≤ totalCols) then
    throw s!"col range out of bounds: col_offset={colOffset} take={take} total_cols={totalCols}"
  let takeB := take * bf16Size
  if ¬ (1 ≤ takeB ∧ takeB ≤ stageBytes) then
    throw s!"column shard width {take} outside 1..={stageBytes / bf16Size}"
  let rows := src.length / strideB
  if ¬ (rows * take < 2 ^ 64 ∧ rows * take = dst.len) then
    throw s!"staged upload shape mismatch: {rows} rows x {take} cols vs dst len {dst.len}"
  pure ⟨strideB, colOffset * bf16Size, takeB, rows, dst.ptr⟩

/-- the columns of `chunkRows` rows from `row` on -/
def fillCols (workers : ℕ) (src : List UInt8) (plan : ColShardPlan) (row chunkRows : ℕ) (stage : Cells) :
    Except String (List ByteWrite) := do
  let rows ← sliceRange src (row * plan.strideB) src.length
  FillPool.gatherCols workers rows plan.strideB plan.offB plan.takeB chunkRows stage

/-- the loop of `upload_cols_at`; a row wider than the staging buffer would never advance -/
def uploadColsFrom (workers : ℕ) (src : List UInt8) (plan : ColShardPlan) (row : ℕ) :
    Except String (List StagedChunk) :=
  let rowsPerChunk := stageBytes / plan.takeB
  if h : row < plan.rows ∧ 0 < rowsPerChunk then do
    let chunkRows := min rowsPerChunk (plan.rows - row)
    let staged ← stageChunk (chunkRows * plan.takeB) (plan.dstAt + row * plan.takeB)
      (fillCols workers src plan row chunkRows)
    let later ← uploadColsFrom workers src plan (row + chunkRows)
    pure (staged :: later)
  else if row < plan.rows then .error "no row fits the staging buffer"
  else .ok []
termination_by plan.rows - row

def uploadColsAt (workers : ℕ) (src : List UInt8) (plan : ColShardPlan) : Except String (List StagedChunk) := do
  if plan.takeB = 0 then throw "attempt to divide by zero"
  uploadColsFrom workers src plan 0

/-- `host[start..start + part.len()].copy_from_slice(part)` -/
def writeRange (host : List α) (start : ℕ) (part : List α) : Except String (List α) :=
  if start + part.length ≤ host.length then .ok (host.take start ++ part ++ host.drop (start + part.length))
  else .error s!"range end index {start + part.length} out of range for slice of length {host.length}"

/-- the rows of the unstaged loader, from `row` on -/
def gatherColsFrom (elems : List Bf16) (totalCols colOffset take : ℕ) :
    ℕ → ℕ → List Bf16 → Except String (List Bf16)
  | 0, _, host => pure host
  | rows + 1, row, host => do
    let src := row * totalCols + colOffset
    let part ← sliceRange elems src (src + take)
    let host ← writeRange host (row * take) part
    gatherColsFrom elems totalCols colOffset take rows (row + 1) host

/-- the columns as the unstaged loader gathers them, element by element -/
def gatherCols (elems : List Bf16) (rows totalCols colOffset take : ℕ) : Except String (List Bf16) :=
  gatherColsFrom elems totalCols colOffset take rows 0 (List.replicate (rows * take) (0, 0))

/-! ## Slices -/

variable {workers limit : ℕ}

theorem sliceRange_ok {slice : List α} {start stop : ℕ} (h : start ≤ stop) (h' : stop ≤ slice.length) :
    sliceRange slice start stop = .ok ((slice.take stop).drop start) := if_pos ⟨h, h'⟩

theorem sliceRange_range {bytes start n : ℕ} (h : start + n ≤ bytes) :
    sliceRange (List.range bytes) start (start + n) = .ok (List.range' start n) := by
  rw [sliceRange_ok (Nat.le_add_right _ _) (by rwa [List.length_range])]
  congr 1
  refine List.ext_getElem ?_ fun i hi hi' => by simp
  rw [List.length_drop, List.length_take, List.length_range, List.length_range']
  omega

theorem sliceChunks_ok {size : ℕ} (h : 0 < size) (slice : List α) : sliceChunks size slice = .ok (chunks size slice) :=
  if_neg h.ne'

theorem divCeil_pos {n : ℕ} (hn : 0 < n) (hworkers : 0 < workers) : 0 < divCeil n workers :=
  Nat.div_pos (by omega) hworkers

/-- pieces copied one by one are copied as a whole -/
theorem eachPair_copies {dsts : List Cells} {srcs : List (List UInt8)}
    {f : Cells → List UInt8 → Except String (List ByteWrite)} {content : List UInt8 → List UInt8}
    (h : List.Forall₂ (fun d s => d.length = (content s).length ∧ f d s = .ok (d.zip (content s))) dsts srcs) :
    eachPair f dsts srcs = .ok (dsts.flatten.zip (srcs.map content).flatten) := by
  have hok : List.Forall₂ (fun d s => f d s = .ok (d.zip (content s))) dsts srcs := h.imp fun _ _ hd => hd.2
  have hlen : List.Forall₂ (fun d s => d.length = s.length) dsts (srcs.map content) :=
    List.forall₂_map_right_iff.2 (h.imp fun _ _ hd => hd.1)
  rw [eachPair_ok hok, ← zipWith_zip_flatten hlen, List.zipWith_map_right]

/-- **The pool copies each byte once**, whatever the number of workers. -/
theorem copy_fills (hworkers : 0 < workers) {src : List UInt8} {dst : Cells} (hlen : dst.length = src.length) :
    FillPool.copy workers src dst = .ok (dst.zip src) := by
  unfold FillPool.copy
  split_ifs with hserial
  · exact if_pos hlen
  · have hsrc : 0 < src.length := by
      unfold parallelFillMinBytes at hserial
      omega
    have hper := divCeil_pos hsrc hworkers
    have hprop := forall₂_chunks src.length Nat.one_pos Nat.one_pos hper
      (hlen.trans (Nat.mul_one _).symm) (Nat.mul_one _).symm
    rw [Nat.mul_one] at hprop
    have hparts : List.Forall₂ (fun d s => d.length = (id s : List UInt8).length ∧
        copyFromSlice d s = .ok (d.zip (id s))) (chunks (divCeil src.length workers) dst)
        (chunks (divCeil src.length workers) src) := by
      refine hprop.imp fun d s hd => ?_
      obtain ⟨r, -, -, hdr, hsr⟩ := hd
      have heq : d.length = s.length := hdr.trans hsr.symm
      exact ⟨heq, if_pos heq⟩
    dsimp only
    rw [sliceChunks_ok hper, sliceChunks_ok hper]
    change eachPair copyFromSlice _ _ = _
    rw [eachPair_copies hparts, List.map_id, chunks_flatten hper, chunks_flatten hper]

/-! ## Column shards -/

variable {strideB offB takeB rows : ℕ}

theorem gatherRow_ok (hfits : offB + takeB ≤ strideB) {dstRow : Cells} {srcRow : List UInt8}
    (hdst : dstRow.length = takeB) (hsrc : srcRow.length = strideB) :
    gatherRow offB takeB dstRow srcRow = .ok (dstRow.zip ((srcRow.take (offB + takeB)).drop offB)) := by
  rw [gatherRow, sliceRange_ok (Nat.le_add_right _ _) (hfits.trans hsrc.ge)]
  exact if_pos (by rw [List.length_drop, List.length_take]; omega)

theorem gatherRows_ok (htake : 0 < takeB) (hfits : offB + takeB ≤ strideB) {dst : Cells} {src : List UInt8}
    (hdst : dst.length = rows * takeB) (hsrc : src.length = rows * strideB) :
    gatherRows strideB offB takeB dst src = .ok (dst.zip (rowsCols strideB offB takeB src)) := by
  have hstride : 0 < strideB := by omega
  have hprop := forall₂_chunks rows htake hstride Nat.one_pos hdst hsrc
  rw [Nat.one_mul, Nat.one_mul] at hprop
  have hrows : List.Forall₂ (fun d s => d.length = ((s.take (offB + takeB)).drop offB).length ∧
      gatherRow offB takeB d s = .ok (d.zip ((s.take (offB + takeB)).drop offB))) (chunks takeB dst)
      (chunks strideB src) := by
    refine hprop.imp fun d s hd => ?_
    obtain ⟨r, hpos, hle, hdr, hsr⟩ := hd
    obtain rfl : r = 1 := by omega
    rw [Nat.one_mul] at hdr hsr
    refine ⟨?_, gatherRow_ok hfits hdr hsr⟩
    rw [List.length_drop, List.length_take]
    omega
  rw [gatherRows, sliceChunks_ok hstride, sliceChunks_ok htake]
  change eachPair (gatherRow offB takeB) _ _ = _
  rw [eachPair_copies hrows, chunks_flatten htake]
  rfl

/-- **The pool gathers each byte of the columns once**, whatever the number of workers. -/
theorem gatherCols_fills (hworkers : 0 < workers) (htake : 0 < takeB) (hfits : offB + takeB ≤ strideB) {dst : Cells}
    {src : List UInt8} (hdst : dst.length = rows * takeB) (hsrc : rows * strideB ≤ src.length) :
    FillPool.gatherCols workers src strideB offB takeB rows dst =
      .ok (dst.zip (rowsCols strideB offB takeB (src.take (rows * strideB)))) := by
  have hstride : 0 < strideB := by omega
  have hused : (src.take (rows * strideB)).length = rows * strideB := by
    rw [List.length_take]
    omega
  rw [FillPool.gatherCols, sliceRange_ok (Nat.zero_le _) hsrc, List.drop_zero]
  change (if _ then gatherRows strideB offB takeB dst (src.take (rows * strideB)) else _) = _
  split_ifs with hserial
  · exact gatherRows_ok htake hfits hdst hused
  · have hrows : 0 < rows := by
      rcases Nat.eq_zero_or_pos rows with rfl | hpos
      · rw [Nat.zero_mul] at hdst
        unfold parallelFillMinBytes at hserial
        omega
      · exact hpos
    have hper := divCeil_pos hrows hworkers
    have hparts : List.Forall₂ (fun d s => d.length = (rowsCols strideB offB takeB s).length ∧
        gatherRows strideB offB takeB d s = .ok (d.zip (rowsCols strideB offB takeB s)))
        (chunks (divCeil rows workers * takeB) dst)
        (chunks (divCeil rows workers * strideB) (src.take (rows * strideB))) := by
      refine (forall₂_chunks rows htake hstride hper hdst hused).imp fun d s hd => ?_
      obtain ⟨r, -, -, hdr, hsr⟩ := hd
      exact ⟨by rw [length_rowsCols hstride hfits hsr, hdr], gatherRows_ok htake hfits hdr hsr⟩
    rw [sliceChunks_ok (Nat.mul_pos hper hstride), sliceChunks_ok (Nat.mul_pos hper htake)]
    change eachPair (gatherRows strideB offB takeB) _ _ = _
    rw [eachPair_copies hparts, chunks_flatten (Nat.mul_pos hper htake), rowsCols_chunks hstride hper]

/-! ## The unstaged loader -/

variable {elems host : List Bf16} {totalCols colOffset take row : ℕ}

theorem writeRange_ok {done part rest : List α} {n : ℕ} (hdone : done.length = n) (hpart : part.length ≤ rest.length) :
    writeRange (done ++ rest) n part = .ok (done ++ part ++ rest.drop part.length) := by
  subst hdone
  rw [writeRange, if_pos (by rw [List.length_append]; omega), List.take_left, List.drop_length_add_append]

theorem gatherColsFrom_ok (hfits : colOffset + take ≤ totalCols) (done : List Bf16) (hdone : done.length = row * take)
    (helems : (row + rows) * totalCols ≤ elems.length) :
    gatherColsFrom elems totalCols colOffset take rows row (done ++ List.replicate (rows * take) (0, 0)) =
      .ok (done ++ (List.range' row rows).flatMap fun r => (elems.drop (r * totalCols + colOffset)).take take) := by
  induction rows generalizing row done with
  | zero => simp [gatherColsFrom, pure, Except.pure]
  | succ rows ih =>
    have hrow : row * totalCols + totalCols ≤ elems.length := by
      rw [← Nat.succ_mul]
      exact (Nat.mul_le_mul_right _ (by omega)).trans helems
    have hpart : ((elems.drop (row * totalCols + colOffset)).take take).length = take := by
      rw [List.length_take, List.length_drop]
      omega
    have hcut : ((elems.take (row * totalCols + colOffset + take)).drop (row * totalCols + colOffset)) =
        (elems.drop (row * totalCols + colOffset)).take take := by
      rw [List.drop_take, Nat.add_sub_cancel_left]
    rw [gatherColsFrom, sliceRange_ok (Nat.le_add_right _ _) (by omega), hcut]
    change (writeRange _ _ _ >>= fun host => gatherColsFrom elems totalCols colOffset take rows (row + 1) host) = _
    rw [writeRange_ok hdone (by rw [hpart, List.length_replicate, Nat.succ_mul]; omega), hpart, List.drop_replicate,
      show (rows + 1) * take - take = rows * take by rw [Nat.succ_mul]; omega]
    change gatherColsFrom elems totalCols colOffset take rows (row + 1) _ = _
    rw [ih _ (by rw [List.length_append, hpart, hdone, Nat.succ_mul]) (by rwa [Nat.add_right_comm, Nat.add_assoc]),
      List.range'_succ, List.flatMap_cons, List.append_assoc]

/-- **The unstaged loader gathers the row-major shard.** -/
theorem gatherCols_ok (hfits : colOffset + take ≤ totalCols) (helems : rows * totalCols ≤ elems.length) :
    gatherCols elems rows totalCols colOffset take = .ok (colShard rows totalCols colOffset take elems) := by
  have h : gatherColsFrom elems totalCols colOffset take rows 0 ([] ++ List.replicate (rows * take) (0, 0)) = _ :=
    gatherColsFrom_ok hfits [] (Nat.zero_mul take).symm (by rwa [Nat.zero_add])
  rw [List.nil_append, List.nil_append] at h
  rw [gatherCols, h, colShard, List.range_eq_range']

end Pegainfer.Core
