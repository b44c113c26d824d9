/-
The loops of the staged uploads, and what the device holds after them.

Each loop stages chunk after chunk into the next of two pinned buffers; the copies to the device run behind. A failed
copy is drained or the process aborts, so only uploads that succeed are modelled.
- `nextContiguousChunk_exact`: a chunk takes what is next of the sources, up to the limit or to their end.
- `uploadSlicesAt_exact`, `uploadColsAt_exact`: the chunks staged are bounded and in order they hold the content.
- `staged_upload_exact`: what the device holds after either upload, in whatever order workers and copies run.
-/
import Mathlib.Data.List.GetD
import Mathlib.Tactic
import Pegainfer.Core.Staging
import Pegainfer.Lib.DoubleBuffer

namespace Pegainfer.Core

open Pegainfer.Lib

variable {srcs : List (List UInt8)} {limit workers bytes dstAt : ℕ} {parts : List (List UInt8)} {c : Cursor}
  {chunk : Contiguous}

/-! ## The slices of a chunk -/

/-- the bytes behind the cursor -/
def remaining (srcs : List (List UInt8)) (c : Cursor) : List UInt8 := (srcs.drop c.source).flatten.drop c.sourceAt

/-- the cursor lies within its source -/
def Inside (srcs : List (List UInt8)) (c : Cursor) : Prop :=
  ∀ h : c.source < srcs.length, c.sourceAt ≤ srcs[c.source].length

theorem inside_start (source : ℕ) : Inside srcs ⟨source, 0⟩ := fun _ => Nat.zero_le _

theorem remaining_inside (h : c.source < srcs.length) (hin : c.sourceAt ≤ srcs[c.source].length) :
    remaining srcs c = srcs[c.source].drop c.sourceAt ++ remaining srcs ⟨c.source + 1, 0⟩ := by
  rw [remaining, List.drop_eq_getElem_cons h, List.flatten_cons, List.drop_append_of_le_length hin]
  rfl

/-- what the loop has: the bytes so far and those to come make up the same content -/
structure TakesNext (srcs : List (List UInt8)) (limit : ℕ) (parts : List (List UInt8)) (bytes : ℕ) (c : Cursor)
    (chunk : Contiguous) : Prop where
  inside : Inside srcs chunk.cursor
  content : chunk.parts.flatten ++ remaining srcs chunk.cursor = parts.flatten ++ remaining srcs c
  counted : chunk.bytes = chunk.parts.flatten.length
  bounded : chunk.bytes ≤ limit
  full : chunk.bytes = limit ∨ srcs.length ≤ chunk.cursor.source

theorem length_append_part (parts : List (List UInt8)) (part : List UInt8) :
    (parts ++ [part]).flatten.length = parts.flatten.length + part.length := by
  rw [List.flatten_append, List.flatten_singleton, List.length_append]

theorem nextContiguousChunk_exact (hin : Inside srcs c) (hcount : bytes = parts.flatten.length) (hlimit : bytes ≤ limit) :
    ∃ chunk, nextContiguousChunk srcs limit parts bytes c = .ok chunk ∧ TakesNext srcs limit parts bytes c chunk := by
  fun_induction nextContiguousChunk srcs limit parts bytes c with
  | case1 parts bytes c h src hempty ih =>
    obtain ⟨chunk, hok, hchunk⟩ := ih (inside_start _) hcount hlimit
    refine ⟨chunk, hok, { hchunk with content := hchunk.content.trans ?_ }⟩
    have hnil : srcs[c.source] = [] := List.isEmpty_iff.1 hempty
    rw [remaining_inside h.1 (hin h.1), hnil, List.drop_nil, List.nil_append]
  | case2 parts bytes c h src hempty hover => exact absurd (hin h.1) (not_le.2 hover)
  | case3 parts bytes c h src hempty hinside take parts' hdone ih =>
    replace hdone : c.sourceAt + take = srcs[c.source].length := hdone
    have htake : take = min (limit - bytes) (srcs[c.source].length - c.sourceAt) := rfl
    have hcut : ((srcs[c.source].drop c.sourceAt).take take).length = take := by
      rw [List.length_take, List.length_drop]
      omega
    have hparts : bytes + take = parts'.flatten.length := by
      simp only [parts', src]
      rw [length_append_part, hcut, hcount]
    obtain ⟨chunk, hok, hchunk⟩ := ih (inside_start _) hparts (by omega)
    refine ⟨chunk, hok, { hchunk with content := hchunk.content.trans ?_ }⟩
    have hall : (srcs[c.source].drop c.sourceAt).take take = srcs[c.source].drop c.sourceAt :=
      List.take_of_length_le (by rw [List.length_drop]; omega)
    rw [remaining_inside h.1 (hin h.1)]
    simp only [parts', src]
    rw [hall, List.flatten_append, List.flatten_singleton, List.append_assoc]
  | case4 parts bytes c h src hempty hinside take parts' hmore ih =>
    replace hmore : ¬ c.sourceAt + take = srcs[c.source].length := hmore
    replace hinside : ¬ srcs[c.source].length < c.sourceAt := hinside
    have htake : take = min (limit - bytes) (srcs[c.source].length - c.sourceAt) := rfl
    have hcut : ((srcs[c.source].drop c.sourceAt).take take).length = take := by
      rw [List.length_take, List.length_drop]
      omega
    have hle : c.sourceAt + take ≤ srcs[c.source].length := by omega
    have hparts : bytes + take = parts'.flatten.length := by
      simp only [parts', src]
      rw [length_append_part, hcut, hcount]
    obtain ⟨chunk, hok, hchunk⟩ := ih (fun _ => hle) hparts (by omega)
    refine ⟨chunk, hok, { hchunk with content := hchunk.content.trans ?_ }⟩
    rw [remaining_inside h.1 (hin h.1), remaining_inside (c := ⟨c.source, c.sourceAt + take⟩) h.1 hle]
    simp only [parts', src]
    rw [List.flatten_append, List.flatten_singleton, List.append_assoc, ← List.drop_drop,
      ← List.append_assoc (List.take _ _), List.take_append_drop]
  | case5 parts bytes c h =>
    exact ⟨_, rfl, ⟨hin, rfl, hcount, hlimit, by rw [not_and_or] at h; dsimp only; omega⟩⟩

theorem takesNext_start (hin : Inside srcs c) (limit : ℕ) :
    ∃ chunk, nextContiguousChunk srcs limit [] 0 c = .ok chunk ∧ TakesNext srcs limit [] 0 c chunk :=
  nextContiguousChunk_exact hin rfl (Nat.zero_le limit)

/-! ## The loop over the chunks -/

/-- `next` lies behind `c`: in a later source, or further into the same one -/
def Ahead (srcs : List (List UInt8)) (c next : Cursor) : Prop :=
  c.source < next.source ∨
    next.source = c.source ∧ c.sourceAt < next.sourceAt ∧ c.sourceAt < (srcs.getD c.source []).length

theorem nextContiguousChunk_moves (h : nextContiguousChunk srcs limit parts bytes c = .ok chunk) :
    chunk.cursor = c ∧ ¬ (c.source < srcs.length ∧ bytes < limit) ∨ Ahead srcs c chunk.cursor := by
  fun_induction nextContiguousChunk srcs limit parts bytes c with
  | case1 parts bytes c hin src hempty ih =>
    refine .inr (.inl ?_)
    rcases ih h with ⟨heq, -⟩ | hlater | ⟨heq, -⟩
    · rw [heq]
      exact Nat.lt_succ_self _
    · exact (Nat.lt_succ_self _).trans hlater
    · rw [heq]
      exact Nat.lt_succ_self _
  | case2 => cases h
  | case3 parts bytes c hin src hempty hinside take parts' hdone ih =>
    refine .inr (.inl ?_)
    rcases ih h with ⟨heq, -⟩ | hlater | ⟨heq, -⟩
    · rw [heq]
      exact Nat.lt_succ_self _
    · exact (Nat.lt_succ_self _).trans hlater
    · rw [heq]
      exact Nat.lt_succ_self _
  | case4 parts bytes c hin src hempty hinside take parts' hmore ih =>
    replace hmore : ¬ c.sourceAt + take = srcs[c.source].length := hmore
    replace hinside : ¬ srcs[c.source].length < c.sourceAt := hinside
    have htake : take = min (limit - bytes) (srcs[c.source].length - c.sourceAt) := rfl
    have hwithin : c.sourceAt < (srcs.getD c.source []).length := by
      rw [List.getD_eq_getElem _ _ hin.1]
      omega
    refine .inr ?_
    rcases ih h with ⟨heq, -⟩ | hlater | ⟨heq, hfurther, -⟩
    · rw [heq]
      exact .inr ⟨rfl, by dsimp only; omega, hwithin⟩
    · exact .inl hlater
    · dsimp only at heq hfurther
      exact .inr ⟨heq, by omega, hwithin⟩
  | case5 parts bytes c hout =>
    obtain rfl := Except.ok.inj h
    exact .inl ⟨rfl, hout⟩

/-- the loop of `upload_slices_at`: each chunk taken and what is staged of it -/
def uploadSlicesFrom (workers limit : ℕ) (srcs : List (List UInt8)) (dstAt : ℕ) (c : Cursor) (dstOffset : ℕ) :
    Except String (List (Contiguous × StagedChunk)) :=
  if hin : c.source < srcs.length ∧ 0 < limit then
    match hnext : nextContiguousChunk srcs limit [] 0 c with
    | .error e => .error e
    | .ok chunk => do
      let staged ← stageChunk chunk.bytes (dstAt + dstOffset) (fillParts workers chunk.parts 0)
      let later ← uploadSlicesFrom workers limit srcs dstAt chunk.cursor (dstOffset + chunk.bytes)
      pure ((chunk, staged) :: later)
  else if c.source < srcs.length then .error "chunks of no bytes never end"
  else .ok []
termination_by (srcs.length - c.source, (srcs.getD c.source []).length - c.sourceAt)
decreasing_by
  rcases nextContiguousChunk_moves hnext with ⟨-, hstay⟩ | hlater | ⟨heq, hfurther, hwithin⟩
  · exact absurd hin hstay
  · exact Prod.Lex.left _ _ (by omega)
  · rw [heq]
    exact Prod.Lex.right _ (by omega)

def uploadSlicesAt (workers limit : ℕ) (srcs : List (List UInt8)) (dstAt : ℕ) :
    Except String (List (Contiguous × StagedChunk)) := uploadSlicesFrom workers limit srcs dstAt ⟨0, 0⟩ 0

/-! ## What is staged -/

/-- `staged` writes `content` into its buffer and goes `offset` bytes into the destination -/
structure Stages (dstAt offset : ℕ) (content : List UInt8) (staged : StagedChunk) : Prop where
  bytes : staged.bytes = content.length
  dst : staged.dstAt = dstAt + offset
  writes : staged.writes = filling 0 content

/-- chunks that stage `content` one behind the other -/
inductive StagesAll (dstAt : ℕ) : ℕ → List UInt8 → List StagedChunk → Prop
  | nil {offset : ℕ} : StagesAll dstAt offset [] []
  | cons {offset : ℕ} {part rest : List UInt8} {staged : StagedChunk} {later : List StagedChunk}
    (first : Stages dstAt offset part staged) (others : StagesAll dstAt (offset + part.length) rest later) :
    StagesAll dstAt offset (part ++ rest) (staged :: later)

theorem stageChunk_ok (dstAt offset : ℕ) {n : ℕ} {content : List UInt8} {fill : Cells → Except String (List ByteWrite)}
    (hn : n = content.length) (hfill : fill (List.range n) = .ok (filling 0 content)) :
    ∃ staged, stageChunk n (dstAt + offset) fill = .ok staged ∧ Stages dstAt offset content staged := by
  refine ⟨⟨n, dstAt + offset, filling 0 content⟩, ?_, hn, rfl, rfl⟩
  rw [stageChunk, hfill]
  rfl

theorem fillParts_ok (hworkers : 0 < workers) (parts : List (List UInt8)) (start : ℕ)
    (hfits : start + parts.flatten.length ≤ bytes) :
    fillParts workers parts start (List.range bytes) = .ok (filling start parts.flatten) := by
  induction parts generalizing start with
  | nil => rfl
  | cons part parts ih =>
    rw [List.flatten_cons, List.length_append] at hfits
    rw [fillParts, sliceRange_range (by omega)]
    change (FillPool.copy workers part (List.range' start part.length) >>= fun first =>
      fillParts workers parts (start + part.length) (List.range bytes) >>= fun others => pure (first ++ others)) = _
    rw [copy_fills hworkers (by simp), ih (start + part.length) (by omega), List.flatten_cons, filling_append]
    rfl

/-- **The slices are staged exactly.** The chunks are bounded, their parts make up what was behind the cursor, and each
is staged behind the one before it. -/
theorem uploadSlicesFrom_exact (hworkers : 0 < workers) (hlimit : 0 < limit) (hin : Inside srcs c) (dstOffset : ℕ) :
    ∃ pairs, uploadSlicesFrom workers limit srcs dstAt c dstOffset = .ok pairs ∧
      (∀ p ∈ pairs, p.1.bytes ≤ limit ∧ p.1.bytes = p.1.parts.flatten.length) ∧
      (pairs.map fun p => p.1.parts.flatten).flatten = remaining srcs c ∧
      StagesAll dstAt dstOffset (remaining srcs c) (pairs.map Prod.snd) := by
  fun_induction uploadSlicesFrom workers limit srcs dstAt c dstOffset with
  | case1 c dstOffset h e hnext =>
    obtain ⟨chunk, hok, -⟩ := takesNext_start hin limit
    rw [hok] at hnext
    cases hnext
  | case2 c dstOffset h chunk hnext ih =>
    obtain ⟨chunk', hok, hchunk⟩ := takesNext_start hin limit
    obtain rfl := Except.ok.inj (hnext.symm.trans hok)
    obtain ⟨staged, hstaged, hstages⟩ := stageChunk_ok dstAt dstOffset hchunk.counted
      (fillParts_ok hworkers chunk.parts 0 (by rw [Nat.zero_add, hchunk.counted]))
    obtain ⟨later, hlater, hbound, hcontent, hall⟩ := ih hchunk.inside
    have hsplit : remaining srcs c = chunk.parts.flatten ++ remaining srcs chunk.cursor := by
      have heq := hchunk.content
      rw [List.flatten_nil, List.nil_append] at heq
      exact heq.symm
    refine ⟨(chunk, staged) :: later, ?_, ?_, ?_, ?_⟩
    · rw [hstaged, hlater]
      rfl
    · exact List.forall_mem_cons.2 ⟨⟨hchunk.bounded, hchunk.counted⟩, hbound⟩
    · rw [List.map_cons, List.flatten_cons, hcontent, hsplit]
    · rw [hsplit, List.map_cons]
      rw [hchunk.counted] at hall
      exact .cons hstages hall
  | case3 c dstOffset h hmore => exact absurd ⟨hmore, hlimit⟩ h
  | case4 c dstOffset h hend =>
    have hnone : remaining srcs c = [] := by
      rw [remaining, List.drop_of_length_le (not_lt.1 hend), List.flatten_nil, List.drop_nil]
    exact ⟨[], rfl, fun p hp => absurd hp List.not_mem_nil, by rw [hnone]; rfl, by rw [hnone]; exact .nil⟩

/-! ## Contiguous and column uploads -/

theorem uploadChunksAt_exact (hworkers : 0 < workers) (src : List UInt8) (i : ℕ) :
    ∃ stages, uploadChunksAt workers dstAt i (chunks stageBytes src) = .ok stages ∧
      (∀ s ∈ stages, s.bytes ≤ stageBytes) ∧ StagesAll dstAt (i * stageBytes) src stages := by
  fun_induction chunks stageBytes src generalizing i with
  | case1 src h ih =>
    obtain ⟨later, hlater, hbound, hall⟩ := ih (i + 1)
    have hcopy : FillPool.copy workers (src.take stageBytes) (List.range (src.take stageBytes).length) =
        .ok (filling 0 (src.take stageBytes)) := by
      rw [copy_fills hworkers (by rw [List.length_range]), List.range_eq_range']
      rfl
    obtain ⟨staged, hstaged, hstages⟩ := stageChunk_ok dstAt (i * stageBytes) rfl hcopy
    refine ⟨staged :: later, ?_, ?_, ?_⟩
    · rw [uploadChunksAt, hstaged, hlater]
      rfl
    · refine List.forall_mem_cons.2 ⟨?_, hbound⟩
      rw [hstages.bytes]
      exact List.length_take_le _ _
    · rw [← List.take_append_drop stageBytes src] at hstages ⊢
      rw [List.take_append_drop] at hstages
      refine .cons hstages ?_
      -- only the last chunk may be short
      rcases le_or_gt stageBytes src.length with hfull | hshort
      · rw [List.length_take, Nat.min_eq_left hfull, ← Nat.succ_mul]
        exact hall
      · rw [List.drop_of_length_le hshort.le, chunks_nil] at hlater
        obtain rfl : [] = later := Except.ok.inj hlater
        rw [List.drop_of_length_le hshort.le]
        exact .nil
  | case2 src h =>
    have hempty : src = [] := List.length_eq_zero_iff.1 (by
      have hpos : 0 < stageBytes := by decide
      omega)
    rw [hempty]
    exact ⟨[], rfl, fun s hs => absurd hs List.not_mem_nil, .nil⟩

theorem uploadAt_exact (hworkers : 0 < workers) (src : List UInt8) (dstAt : ℕ) :
    ∃ stages, uploadAt workers src dstAt = .ok stages ∧ (∀ s ∈ stages, s.bytes ≤ stageBytes) ∧
      StagesAll dstAt 0 src stages := by
  obtain ⟨stages, hok, hbound, hall⟩ := @uploadChunksAt_exact workers dstAt hworkers src 0
  rw [Nat.zero_mul] at hall
  refine ⟨stages, ?_, hbound, hall⟩
  rw [uploadAt, sliceChunks_ok (by decide)]
  exact hok

/-- a plan whose columns lie within the rows of its source, and whose rows fit the staging buffer -/
structure Accepted (src : List UInt8) (plan : ColShardPlan) : Prop where
  whole : src.length = plan.rows * plan.strideB
  columns : plan.offB + plan.takeB ≤ plan.strideB
  takes : 0 < plan.takeB
  fits : plan.takeB ≤ stageBytes

theorem uploadColsFrom_exact {src : List UInt8} {plan : ColShardPlan} (hworkers : 0 < workers)
    (hplan : Accepted src plan) (row : ℕ) (hrow : row ≤ plan.rows) :
    ∃ stages, uploadColsFrom workers src plan row = .ok stages ∧ (∀ s ∈ stages, s.bytes ≤ stageBytes) ∧
      StagesAll plan.dstAt (row * plan.takeB)
        (rowsCols plan.strideB plan.offB plan.takeB (src.drop (row * plan.strideB))) stages := by
  have hstride : 0 < plan.strideB := by
    have h := hplan.columns
    have h' := hplan.takes
    omega
  fun_induction uploadColsFrom workers src plan row with
  | case1 row rowsPer h chunkRows ih =>
    have hchunk : chunkRows = min rowsPer (plan.rows - row) := rfl
    have hbytes : rowsPer * plan.takeB ≤ stageBytes := Nat.div_mul_le_self _ _
    have hlast : (row + chunkRows) * plan.strideB ≤ src.length := by
      rw [hplan.whole]
      exact Nat.mul_le_mul_right _ (by omega)
    rw [Nat.add_mul] at hlast
    have hhere : row * plan.strideB ≤ src.length := by omega
    obtain ⟨later, hlater, hbound, hall⟩ := ih (by omega)
    have hrows : ((src.drop (row * plan.strideB)).take (chunkRows * plan.strideB)).length =
        chunkRows * plan.strideB := by
      rw [List.length_take, List.length_drop]
      omega
    have hlen := length_rowsCols hstride hplan.columns hrows
    have hgather : fillCols workers src plan row chunkRows (List.range (chunkRows * plan.takeB)) =
        .ok (filling 0 (rowsCols plan.strideB plan.offB plan.takeB
          ((src.drop (row * plan.strideB)).take (chunkRows * plan.strideB)))) := by
      rw [fillCols, sliceRange_ok hhere (le_refl _), List.take_length]
      change FillPool.gatherCols workers _ _ _ _ _ _ = _
      rw [gatherCols_fills hworkers hplan.takes hplan.columns List.length_range
        (by rw [List.length_drop]; omega), filling, hlen, List.range_eq_range']
    obtain ⟨staged, hstaged, hstages⟩ := stageChunk_ok plan.dstAt (row * plan.takeB) hlen.symm hgather
    refine ⟨staged :: later, ?_, ?_, ?_⟩
    · rw [hstaged, hlater]
      rfl
    · refine List.forall_mem_cons.2 ⟨?_, hbound⟩
      rw [hstages.bytes, hlen]
      exact (Nat.mul_le_mul_right _ (by omega)).trans hbytes
    · rw [← List.take_append_drop (chunkRows * plan.strideB) (src.drop (row * plan.strideB)),
        rowsCols_append hstride hrows]
      refine .cons hstages ?_
      rw [hlen, ← Nat.add_mul, List.drop_drop, ← Nat.add_mul]
      exact hall
  | case2 row rowsPer h hmore =>
    have hfits : 0 < rowsPer := Nat.div_pos hplan.fits hplan.takes
    exact absurd ⟨hmore, hfits⟩ h
  | case3 row rowsPer h hend =>
    have hnone : src.drop (row * plan.strideB) = [] := by
      obtain rfl : row = plan.rows := by omega
      rw [← hplan.whole, List.drop_length]
    refine ⟨[], rfl, fun s hs => absurd hs List.not_mem_nil, ?_⟩
    rw [hnone, rowsCols, chunks_nil]
    exact .nil

/-- what an accepted request says of its plan -/
structure Prepared (src : List UInt8) (totalCols colOffset take : ℕ) (dst : DeviceSlice) (plan : ColShardPlan) : Prop
    extends Accepted src plan where
  stride : plan.strideB = totalCols * bf16Size
  offset : plan.offB = colOffset * bf16Size
  width : plan.takeB = take * bf16Size
  destination : plan.dstAt = dst.ptr
  shape : plan.rows * take = dst.len
  range : colOffset + take ≤ totalCols

theorem prepareCols_prepared {src : List UInt8} {totalCols colOffset take : ℕ} {dst : DeviceSlice}
    {streamOverride : Bool} {plan : ColShardPlan}
    (h : prepareCols src totalCols colOffset take dst streamOverride = .ok plan) :
    Prepared src totalCols colOffset take dst plan := by
  unfold prepareCols at h
  cases huploadable : ensureUploadable dst streamOverride with
  | error e =>
    rw [huploadable] at h
    cases h
  | ok _ =>
    rw [huploadable] at h
    simp only [bind, Except.bind, pure, Except.pure] at h
    split_ifs at h with hstride hrange htake hshape
    obtain rfl := Except.ok.inj h
    refine { whole := (Nat.div_mul_cancel (Nat.dvd_of_mod_eq_zero hstride.2.2)).symm, columns := ?_, takes := htake.1,
             fits := htake.2, stride := rfl, offset := rfl, width := rfl, destination := rfl, shape := hshape.2,
             range := hrange.2 }
    rw [← Nat.add_mul]
    exact Nat.mul_le_mul_right _ hrange.2

theorem uploadColsAt_exact {src : List UInt8} {plan : ColShardPlan} (hworkers : 0 < workers)
    (hplan : Accepted src plan) :
    ∃ stages, uploadColsAt workers src plan = .ok stages ∧ (∀ s ∈ stages, s.bytes ≤ stageBytes) ∧
      StagesAll plan.dstAt 0 (rowsCols plan.strideB plan.offB plan.takeB src) stages := by
  obtain ⟨stages, hok, hbound, hall⟩ := uploadColsFrom_exact hworkers hplan 0 (Nat.zero_le _)
  rw [Nat.zero_mul, Nat.zero_mul, List.drop_zero] at hall
  refine ⟨stages, ?_, hbound, hall⟩
  rw [uploadColsAt, if_neg hplan.takes.ne']
  exact hok

/-! ## Staged and unstaged -/

/-- the bytes of an element -/
def bf16Bytes (elem : Bf16) : List UInt8 := [elem.1, elem.2]

/-- the elements of some bytes, as the unstaged loader reads them -/
def bf16s : List UInt8 → List Bf16
  | low :: high :: rest => (low, high) :: bf16s rest
  | _ => []

theorem flatMap_bf16s {src : List UInt8} (h : src.length % bf16Size = 0) : (bf16s src).flatMap bf16Bytes = src := by
  fun_induction bf16s src with
  | case1 low high rest ih =>
    rw [List.length_cons, List.length_cons] at h
    rw [List.flatMap_cons, ih (by unfold bf16Size at h ⊢; omega)]
    rfl
  | case2 src hshort =>
    rcases src with _ | ⟨low, _ | ⟨high, rest⟩⟩
    · rfl
    · cases h
    · exact absurd rfl (hshort low high rest)

theorem length_flatMap_bf16 (elems : List Bf16) : (elems.flatMap bf16Bytes).length = elems.length * bf16Size := by
  rw [List.length_flatMap]
  change (elems.map fun _ => bf16Size).sum = _
  rw [List.map_const', List.sum_replicate]
  rfl

theorem length_bf16s {src : List UInt8} (h : src.length % bf16Size = 0) : (bf16s src).length * bf16Size = src.length := by
  rw [← length_flatMap_bf16, flatMap_bf16s h]

/-- **The staged shard is the unstaged one.** -/
theorem rowsCols_eq_gatherCols {src : List UInt8} {totalCols colOffset take : ℕ} {dst : DeviceSlice}
    {plan : ColShardPlan} (h : Prepared src totalCols colOffset take dst plan) :
    ∃ host, gatherCols (bf16s src) plan.rows totalCols colOffset take = .ok host ∧
      host = colShard plan.rows totalCols colOffset take (bf16s src) ∧ host.length = dst.len ∧
      rowsCols plan.strideB plan.offB plan.takeB src = host.flatMap bf16Bytes := by
  have hwhole := h.whole
  rw [h.stride, ← Nat.mul_assoc] at hwhole
  have heven : src.length % bf16Size = 0 := by rw [hwhole, Nat.mul_mod_left]
  have helems : plan.rows * totalCols = (bf16s src).length :=
    Nat.eq_of_mul_eq_mul_right (by decide : 0 < bf16Size) (hwhole.symm.trans (length_bf16s heven).symm)
  have hstride : 0 < totalCols := by
    have htakes := h.takes
    have hrange := h.range
    rw [h.width] at htakes
    have hpos := Nat.pos_of_mul_pos_right htakes
    omega
  refine ⟨_, gatherCols_ok h.range helems.le, rfl, ?_, ?_⟩
  · rw [← rowsCols_eq_colShard hstride h.range helems.symm, length_rowsCols hstride h.range helems.symm, h.shape]
  · have hcolumns := h.columns
    have hwide : ∀ elem, (bf16Bytes elem).length = bf16Size := fun _ => rfl
    have hbytes := colShard_flatMap hwide plan.rows totalCols colOffset take (bf16s src)
    rw [flatMap_bf16s heven] at hbytes
    rw [rowsCols_eq_colShard (by have := h.takes; omega) hcolumns h.whole, h.stride, h.offset, h.width, hbytes]

/-! ## The device -/

/-- a schedule of an upload: its chunks filled in order, each by its writes in any order, copies at any time -/
inductive Schedules : List StagedChunk → List (StagingAct UInt8) → Prop
  | nil : Schedules [] []
  | copy {stages : List StagedChunk} {acts : List (StagingAct UInt8)} (h : Schedules stages acts) :
    Schedules stages (.copy :: acts)
  | fill {staged : StagedChunk} {stages : List StagedChunk} {acts : List (StagingAct UInt8)} {order : List ByteWrite}
    (perm : order.Perm staged.writes) (h : Schedules stages acts) :
    Schedules (staged :: stages) (.fill staged.dstAt staged.bytes order :: acts)

/-- what an upload does: every access lies in its range, each byte of the content is staged once at its offset, and
once the copies are through the device holds the content and is otherwise as before -/
structure Uploads (stages : List StagedChunk) (dstAt : ℕ) (content : List UInt8) : Prop where
  inside : ∀ s ∈ stages, ∀ w ∈ s.writes, w.1 < s.bytes
  within : ∀ s ∈ stages, dstAt ≤ s.dstAt ∧ s.dstAt + s.bytes ≤ dstAt + content.length
  once : (stages.flatMap fun s => s.writes.map fun w => (s.dstAt + w.1, w.2)) = filling dstAt content
  device : ∀ (s s' : DoubleBuffer UInt8) (acts : List (StagingAct UInt8)), s.queue = [] → Schedules stages acts →
    run DoubleBuffer.step s acts = .ok s' → s'.queue = [] → s'.device = store s.device (filling dstAt content)
  finishes : ∀ s : DoubleBuffer UInt8, s.queue = [] →
    ∃ acts s', Schedules stages acts ∧ run DoubleBuffer.step s acts = .ok s' ∧ s'.queue = []

variable {offset : ℕ} {content : List UInt8} {stages : List StagedChunk}

theorem StagesAll.inside (h : StagesAll dstAt offset content stages) : ∀ s ∈ stages, ∀ w ∈ s.writes, w.1 < s.bytes := by
  induction h with
  | nil => exact fun s hs => absurd hs List.not_mem_nil
  | cons first _ ih =>
    refine List.forall_mem_cons.2 ⟨fun w hw => ?_, ih⟩
    rw [first.writes] at hw
    have hcell := List.mem_map_of_mem (f := Prod.fst) hw
    rw [cells_filling, List.mem_range'_1] at hcell
    rw [first.bytes]
    omega

theorem StagesAll.within (h : StagesAll dstAt offset content stages) :
    ∀ s ∈ stages, dstAt + offset ≤ s.dstAt ∧ s.dstAt + s.bytes ≤ dstAt + offset + content.length := by
  induction h with
  | nil => exact fun s hs => absurd hs List.not_mem_nil
  | cons first _ ih =>
    refine List.forall_mem_cons.2 ⟨?_, fun s hs => ?_⟩
    · rw [first.bytes, first.dst, List.length_append]
      omega
    · have hlater := ih s hs
      rw [List.length_append]
      omega

theorem StagesAll.once (h : StagesAll dstAt offset content stages) :
    (stages.flatMap fun s => s.writes.map fun w => (s.dstAt + w.1, w.2)) = filling (dstAt + offset) content := by
  induction h with
  | nil => rfl
  | cons first _ ih =>
    rw [List.flatMap_cons, ih, first.writes, first.dst, filling_shift, filling_append, Nat.add_zero, Nat.add_assoc]

/-- the pieces behind the staged chunks -/
theorem StagesAll.pieces (h : StagesAll dstAt offset content stages) :
    ∃ pieces : List (DoubleBuffer.Piece UInt8), DoubleBuffer.landing pieces = filling (dstAt + offset) content ∧
      List.Forall₂ (fun s piece => s.dstAt = piece.1 ∧ s.bytes = piece.2.length ∧ s.writes = filling 0 piece.2)
        stages pieces := by
  induction h with
  | nil => exact ⟨[], rfl, .nil⟩
  | @cons offset part _ _ _ first _ ih =>
    obtain ⟨pieces, hland, hall⟩ := ih
    refine ⟨(dstAt + offset, part) :: pieces, ?_, .cons ⟨first.dst, first.bytes, first.writes⟩ hall⟩
    rw [DoubleBuffer.landing, List.flatMap_cons, filling_append, Nat.add_assoc, ← hland]
    rfl

variable {pieces : List (DoubleBuffer.Piece UInt8)} {acts : List (StagingAct UInt8)}

theorem writes_of_schedules
    (hall : List.Forall₂ (fun s piece => s.dstAt = piece.1 ∧ s.bytes = piece.2.length ∧ s.writes = filling 0 piece.2)
      stages pieces) (h : Schedules stages acts) : DoubleBuffer.Writes acts pieces := by
  induction h generalizing pieces with
  | nil =>
    cases hall
    exact .nil
  | copy _ ih => exact .copy (ih hall)
  | fill perm _ ih =>
    cases hall with
    | cons hfirst hothers =>
      obtain ⟨hdst, hbytes, hwrites⟩ := hfirst
      rw [hdst, hbytes]
      exact .fill (hwrites ▸ perm) (ih hothers)

theorem schedules_of_writes
    (hall : List.Forall₂ (fun s piece => s.dstAt = piece.1 ∧ s.bytes = piece.2.length ∧ s.writes = filling 0 piece.2)
      stages pieces) (h : DoubleBuffer.Writes acts pieces) : Schedules stages acts := by
  induction h generalizing stages with
  | nil =>
    cases hall
    exact .nil
  | copy _ ih => exact .copy (ih hall)
  | fill order _ ih =>
    cases hall with
    | cons hfirst hothers =>
      obtain ⟨hdst, hbytes, hwrites⟩ := hfirst
      rw [← hdst, ← hbytes]
      exact .fill (hwrites.symm ▸ order) (ih hothers)

theorem StagesAll.uploads (h : StagesAll dstAt 0 content stages) : Uploads stages dstAt content := by
  obtain ⟨pieces, hland, hall⟩ := h.pieces
  refine ⟨h.inside, h.within, h.once, fun s s' acts hstart hschedule hrun hempty => ?_, fun s hstart => ?_⟩
  · rw [DoubleBuffer.drained_store hrun hempty hstart (writes_of_schedules hall hschedule), hland, Nat.add_zero]
  · obtain ⟨acts, s', hwrites, hrun, hempty⟩ := DoubleBuffer.exists_drained pieces s hstart
    exact ⟨acts, s', schedules_of_writes hall hwrites, hrun, hempty⟩

/-- a prepared contiguous upload stays within its buffer and puts the source at its offset -/
theorem uploadAt_uploads (hworkers : 0 < workers) {src : List UInt8} {dst : DeviceSlice} {dstOffset : ℕ}
    {streamOverride : Bool} (h : prepare src dst dstOffset streamOverride = .ok dstAt) :
    dst.ptr ≤ dstAt ∧ dstAt + src.length ≤ dst.ptr + dst.len * bf16Size ∧
      ∃ stages, uploadAt workers src dstAt = .ok stages ∧ (∀ s ∈ stages, s.bytes ≤ stageBytes) ∧
        Uploads stages dstAt src := by
  obtain ⟨stages, hok, hbound, hall⟩ := uploadAt_exact hworkers src dstAt
  unfold prepare at h
  cases huploadable : ensureUploadable dst streamOverride with
  | error e =>
    rw [huploadable] at h
    cases h
  | ok _ =>
    rw [huploadable] at h
    simp only [bind, Except.bind, pure, Except.pure] at h
    split_ifs at h with hwhole hfits
    obtain rfl := Except.ok.inj h
    exact ⟨Nat.le_add_right _ _, by omega, stages, hok, hbound, hall.uploads⟩

/-- **Staged uploads are exact.** Slices: the chunks are bounded and concatenate to the sources, each byte is staged
once, and the device ends up with the sources one behind the other. Column shards: for every accepted request the device
ends up with the row-major shard, which is what the unstaged loader gathers and what the destination has room for. -/
theorem staged_upload_exact (workers : ℕ) (hworkers : 1 ≤ workers) :
    (∀ srcs limit dstAt, 1 ≤ limit →
      ∃ pairs, uploadSlicesAt workers limit srcs dstAt = .ok pairs ∧
        (∀ p ∈ pairs, p.1.bytes ≤ limit ∧ p.1.bytes = p.1.parts.flatten.length) ∧
        (pairs.map fun p => p.1.parts.flatten).flatten = srcs.flatten ∧
        Uploads (pairs.map Prod.snd) dstAt srcs.flatten) ∧
    ∀ src totalCols colOffset take dst streamOverride plan,
      prepareCols src totalCols colOffset take dst streamOverride = .ok plan →
        ∃ host stages, gatherCols (bf16s src) plan.rows totalCols colOffset take = .ok host ∧
          host = colShard plan.rows totalCols colOffset take (bf16s src) ∧
          uploadColsAt workers src plan = .ok stages ∧ (∀ s ∈ stages, s.bytes ≤ stageBytes) ∧
          plan.dstAt = dst.ptr ∧ (host.flatMap bf16Bytes).length = dst.len * bf16Size ∧
          Uploads stages plan.dstAt (host.flatMap bf16Bytes) := by
  refine ⟨fun srcs limit dstAt hlimit => ?_, fun src totalCols colOffset take dst streamOverride plan h => ?_⟩
  · obtain ⟨pairs, hok, hbound, hcontent, hall⟩ :=
      @uploadSlicesFrom_exact srcs limit workers dstAt ⟨0, 0⟩ hworkers hlimit (inside_start 0) 0
    have hwhole : remaining srcs ⟨0, 0⟩ = srcs.flatten := rfl
    rw [hwhole] at hcontent hall
    exact ⟨pairs, hok, hbound, hcontent, hall.uploads⟩
  · have hprepared := prepareCols_prepared h
    obtain ⟨host, hhost, hshard, hlen, hbytes⟩ := rowsCols_eq_gatherCols hprepared
    obtain ⟨stages, hok, hbound, hall⟩ := uploadColsAt_exact hworkers hprepared.toAccepted
    rw [hbytes] at hall
    refine ⟨host, stages, hhost, hshard, hok, hbound, hprepared.destination, ?_, hall.uploads⟩
    rw [length_flatMap_bf16, hlen]

theorem staged_upload_two_workers :
    (∃ pairs, uploadSlicesAt 2 3 [[1, 2], [], [3, 4, 5]] 4096 = .ok pairs ∧
      Uploads (pairs.map Prod.snd) 4096 [1, 2, 3, 4, 5]) ∧
    ∃ stages, uploadColsAt 2 [0, 1, 2, 3, 4, 5, 6, 7, 8, 9, 10, 11] ⟨6, 2, 4, 2, 4096⟩ = .ok stages ∧
      Uploads stages 4096 [2, 3, 4, 5, 8, 9, 10, 11] := by
  obtain ⟨hslices, hcols⟩ := staged_upload_exact 2 (by decide)
  obtain ⟨pairs, hok, -, -, huploads⟩ := hslices [[1, 2], [], [3, 4, 5]] 3 4096 (by decide)
  obtain ⟨host, stages, -, rfl, hok', -, -, -, huploads'⟩ :=
    hcols [0, 1, 2, 3, 4, 5, 6, 7, 8, 9, 10, 11] 3 1 2 ⟨4096, 4, true⟩ false ⟨6, 2, 4, 2, 4096⟩ rfl
  exact ⟨⟨pairs, hok, huploads⟩, stages, hok', huploads'⟩

end Pegainfer.Core
