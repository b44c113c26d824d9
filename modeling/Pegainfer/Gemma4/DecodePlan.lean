/-
The tables a Gemma4 decode step reads, and the full plan that uploads them.

A plan is a list of rows: the batch's own, then padding rows on each pool's reserved page. The attention tables store
the rows end to end, the split-KV plans store each row's chunks, and every table sits at the front of a longer buffer.
- `planRows`: the tables of a list of rows; `fullPlan`: those of a decode batch at its padded size.
- `Tables.bump`: what `advance_decode_metadata` makes of them.
- `buildSplitKvCsr_words`: the plans of this model are those the shared builder stores in words.
- `planRows_congr`: rows on the same pages and chunks differ in their counters only.
- `planRows_bump`: where no row crosses a page or a chunk, the tables of the next position are the bumped tables.
- `Holds`: a device buffer holds these tables in front; uploads and bumps keep it.
-/
import Mathlib.Tactic
import Pegainfer.Core.SplitKv
import Pegainfer.Gemma4.Kv
import Pegainfer.Lib.Ragged

namespace Pegainfer.Gemma4

open Pegainfer.Kvbm (divCeil)
open Pegainfer.Lib

def GLOBAL_SPLIT_CHUNK_TOKENS : ℕ := 256

def LOCAL_SPLIT_CHUNK_TOKENS : ℕ := 64

def I32_MAX : ℕ := 2147483647

/-- what of the loaded model a plan reads -/
structure GemmaServe where
  slidingWindow : ℕ
  globalSplitFactor : ℕ
  cosMaxPos : ℕ
  localPaddingPage : ℕ
  globalPaddingPage : ℕ
  /-- the serving context is parsed inside the i32 metadata domain -/
  cosMaxPos_le : cosMaxPos ≤ I32_MAX

namespace GemmaServe

def localSplitCap (serve : GemmaServe) : ℕ := divCeil (serve.slidingWindow + LOCAL_PAGE_SIZE) LOCAL_SPLIT_CHUNK_TOKENS

def globalSplitCap (serve : GemmaServe) : ℕ := divCeil serve.cosMaxPos GLOBAL_SPLIT_CHUNK_TOKENS

def checkStepBounds (serve : GemmaServe) (kv : RankKv) (kvLen : ℕ) : Except KvError Unit :=
  if kv.slide.frontier ≠ kv.span.seqLen then .error (.frontiersDiverged kv.slide.frontier kv.span.seqLen)
  else if kvLen ≤ serve.cosMaxPos then .ok ()
  else .error (.ropeRows kvLen serve.cosMaxPos)

end GemmaServe

/-! ## Split-KV plans -/

structure SplitKvCsr where
  requestIndices : List ℕ
  kvTileIndices : List ℕ
  blockValidMask : List ℕ
  oIndptr : List ℕ
deriving DecidableEq, Repr

/-- the chunks a request of `kvLen` tokens is read in -/
def splitChunks (chunkSize kvLen : ℕ) : ℕ := max (divCeil kvLen chunkSize) 1

/-- the loop over the requests, from request `idx` on -/
def pushRequests (chunkSize cap : ℕ) : ℕ → List ℕ → SplitKvCsr → Except KvError SplitKvCsr
  | _, [], csr => .ok csr
  | idx, kvLen :: rest, csr =>
    let chunks := splitChunks chunkSize kvLen
    if chunks ≤ cap then
      pushRequests chunkSize cap (idx + 1) rest
        { requestIndices := csr.requestIndices ++ List.replicate chunks idx
          kvTileIndices := csr.kvTileIndices ++ List.range chunks
          blockValidMask := csr.blockValidMask ++ List.replicate chunks 1
          oIndptr := csr.oIndptr ++ [csr.requestIndices.length + chunks] }
    else .error (.chunkBound chunks cap kvLen chunkSize)

/-- the split-KV plan of `kvLens`, padded to `paddedBs * cap` slots -/
def buildSplitKvCsr (chunkSize cap : ℕ) (kvLens : List ℕ) (paddedBs : ℕ) : Except KvError SplitKvCsr :=
  if chunkSize = 0 then .error .zeroChunk
  else if cap = 0 then .error .zeroCap
  else if kvLens.length ≤ paddedBs then
    match pushRequests chunkSize cap 0 kvLens ⟨[], [], [], [0]⟩ with
    | .ok csr =>
      let filled := csr.requestIndices.length
      let pad := List.replicate (paddedBs * cap - filled) 0
      .ok { requestIndices := csr.requestIndices ++ pad
            kvTileIndices := csr.kvTileIndices ++ pad
            blockValidMask := csr.blockValidMask ++ pad
            oIndptr := csr.oIndptr ++ List.replicate (paddedBs - kvLens.length) filled }
    | .error e => .error e
  else .error (.batchBound kvLens.length paddedBs)

theorem pushRequests_congr {chunkSize cap : ℕ} {lens lens' : List ℕ}
    (h : lens'.map (splitChunks chunkSize) = lens.map (splitChunks chunkSize)) :
    ∀ {idx : ℕ} {csr csr' : SplitKvCsr}, pushRequests chunkSize cap idx lens csr = .ok csr' →
      pushRequests chunkSize cap idx lens' csr = .ok csr' := by
  induction lens generalizing lens' with
  | nil =>
    intro idx csr csr' hp
    obtain rfl : lens' = [] := by simpa using h
    exact hp
  | cons kvLen rest ih =>
    intro idx csr csr' hp
    obtain _ | ⟨kvLen', rest'⟩ := lens'
    · simp at h
    · simp only [List.map_cons, List.cons.injEq] at h
      simp only [pushRequests] at hp ⊢
      split_ifs at hp with hc
      rw [h.1, if_pos hc]
      exact ih h.2 hp

/-- the plan only depends on the chunk counts -/
theorem buildSplitKvCsr_congr {chunkSize cap paddedBs : ℕ} {lens lens' : List ℕ} {csr : SplitKvCsr}
    (h : lens'.map (splitChunks chunkSize) = lens.map (splitChunks chunkSize))
    (hb : buildSplitKvCsr chunkSize cap lens paddedBs = .ok csr) :
    buildSplitKvCsr chunkSize cap lens' paddedBs = .ok csr := by
  have hlen : lens'.length = lens.length := by simpa using congrArg List.length h
  simp only [buildSplitKvCsr] at hb ⊢
  split_ifs at hb with h1 h2 hle
  rw [if_neg h1, if_neg h2, hlen, if_pos hle]
  split at hb
  · rename_i mid hmid
    rw [pushRequests_congr h hmid]
    exact hb
  · cases hb

/-! ## Plans in words -/

/-- the tables as the shared builder stores them -/
def SplitKvCsr.words (csr : SplitKvCsr) : Core.SplitKvCsr where
  requestIndices := csr.requestIndices.map asI32
  kvTileIndices := csr.kvTileIndices.map asI32
  blockValidMask := csr.blockValidMask
  oIndptr := csr.oIndptr.map asI32

theorem splitChunks_words {chunkSize kvLen : ℕ} (hchunk : 0 < chunkSize) :
    Core.splitChunks chunkSize kvLen = splitChunks chunkSize kvLen := by
  rw [Core.splitChunks, splitChunks, Core.divCeil, divCeil, Nat.add_sub_assoc hchunk]

theorem pushRequests_length {chunkSize cap idx : ℕ} {lens : List ℕ} {csr csr' : SplitKvCsr}
    (h : pushRequests chunkSize cap idx lens csr = .ok csr') : csr.requestIndices.length ≤ csr'.requestIndices.length ∧
      csr'.requestIndices.length ≤ csr.requestIndices.length + lens.length * cap := by
  induction lens generalizing idx csr with
  | nil =>
    obtain rfl := Except.ok.inj h
    exact ⟨le_refl _, Nat.le_add_right _ _⟩
  | cons kvLen rest ih =>
    simp only [pushRequests] at h
    split_ifs at h with hcap
    have hlen := ih h
    rw [List.length_append, List.length_replicate] at hlen
    rw [List.length_cons, Nat.add_mul]
    omega

theorem pushRequests_words {chunkSize cap idx : ℕ} {lens : List ℕ} {csr csr' : SplitKvCsr} (hchunk : 0 < chunkSize)
    (h : pushRequests chunkSize cap idx lens csr = .ok csr')
    (hroom : 4 * csr'.requestIndices.length ≤ Core.ISIZE_MAX) :
    Core.pushRequests chunkSize cap idx lens csr.words = .ok csr'.words := by
  induction lens generalizing idx csr with
  | nil => exact congrArg (fun c : SplitKvCsr => Except.ok c.words) (Except.ok.inj h)
  | cons kvLen rest ih =>
    simp only [pushRequests] at h
    split_ifs at h with hcap
    have hlen := (pushRequests_length h).1
    have hpushed := ih h
    rw [List.length_append, List.length_replicate] at hlen
    simp only [Core.pushRequests, splitChunks_words hchunk, if_pos hcap]
    refine bind_eq_ok.2 ⟨(), Core.reserve_eq_ok.2 ?_, ?_⟩
    · rw [SplitKvCsr.words, List.length_map]
      omega
    · simpa [SplitKvCsr.words, Core.SplitKvCsr.pushRequest] using hpushed

/-- **A plan of naturals is the plan of words that the shared builder makes, where its tables can be allocated.** -/
theorem buildSplitKvCsr_words {chunkSize cap paddedBs : ℕ} {lens : List ℕ} {csr : SplitKvCsr} (overflowChecks : Bool)
    (hb : buildSplitKvCsr chunkSize cap lens paddedBs = .ok csr) (hslots : 4 * (paddedBs * cap) ≤ Core.ISIZE_MAX)
    (hoffsets : 4 * (paddedBs + 1) ≤ Core.ISIZE_MAX) :
    Core.buildSplitKvCsr overflowChecks chunkSize cap lens paddedBs = .ok csr.words := by
  have hmax : Core.ISIZE_MAX < 2 ^ 64 := by norm_num [Core.ISIZE_MAX]
  simp only [buildSplitKvCsr] at hb
  split_ifs at hb with hchunk hcap hle
  cases hpush : pushRequests chunkSize cap 0 lens ⟨[], [], [], [0]⟩ with
  | error e =>
    rw [hpush] at hb
    cases hb
  | ok filled =>
    rw [hpush] at hb
    obtain rfl := Except.ok.inj hb
    have hfilled : filled.requestIndices.length ≤ paddedBs * cap := by
      calc filled.requestIndices.length ≤ 0 + lens.length * cap := (pushRequests_length hpush).2
        _ = lens.length * cap := Nat.zero_add _
        _ ≤ paddedBs * cap := Nat.mul_le_mul_right _ hle
    obtain ⟨hchunks, hrows⟩ :=
      Core.pushRequests_eq_ok (pushRequests_words (Nat.pos_of_ne_zero hchunk) hpush (by omega))
    have hadm : Core.Admissible chunkSize cap lens paddedBs :=
      ⟨Nat.pos_of_ne_zero hchunk, Nat.pos_of_ne_zero hcap, hle, hchunks⟩
    have hempty : SplitKvCsr.words ⟨[], [], [], [0]⟩ = ⟨[], [], [], [0]⟩ := rfl
    rw [hempty] at hrows
    rw [Core.buildSplitKvCsr_of_admissible hadm hslots hoffsets, ← Core.padSlots_pushRows, ← hrows]
    have hzero : asI32 0 = 0 := rfl
    simp [Core.SplitKvCsr.padSlots, SplitKvCsr.words, hzero]

/-! ## Rows and tables -/

/-- one row of a decode plan -/
@[ext]
structure PlanRow where
  localPages : List ℕ
  localLast : ℕ
  localStart : ℕ
  localOrigin : ℕ
  globalPages : List ℕ
  globalLast : ℕ
  position : ℕ
deriving DecidableEq, Repr

namespace PlanRow

/-- the resident tokens the windowed read covers -/
def localKvLen (r : PlanRow) : ℕ := (r.localPages.length - 1) * LOCAL_PAGE_SIZE + r.localLast

def globalKvLen (r : PlanRow) : ℕ := (r.globalPages.length - 1) * GLOBAL_PAGE_SIZE + r.globalLast

/-- the same pages, one token on -/
def bump (r : PlanRow) : PlanRow :=
  { r with localLast := r.localLast + 1, localStart := r.localStart + 1, globalLast := r.globalLast + 1,
           position := r.position + 1 }

end PlanRow

/-- the split-KV read of the global family: each row's pages once per pseudo-request, and the chunk plan -/
structure SplitTables where
  pages : List ℕ
  indptr : List ℕ
  last : List ℕ
  csr : SplitKvCsr
deriving DecidableEq, Repr

/-- the metadata a decode step reads: a plan's on the host, or the device buffers that hold it -/
structure Tables where
  localPages : List ℕ
  localIndptr : List ℕ
  localLast : List ℕ
  kvChunk : List ℕ
  localSplit : SplitKvCsr
  globalPages : List ℕ
  globalIndptr : List ℕ
  positions : List ℕ
  pseudo : SplitTables
  localOrigins : List ℕ
deriving DecidableEq, Repr

/-- each row `factor` times: the pseudo-requests of the split-KV read -/
def pseudoRows (serve : GemmaServe) (rows : List PlanRow) : List PlanRow :=
  rows.flatMap fun r => List.replicate serve.globalSplitFactor r

/-- `upload_split_kv_tables`, up to the copies -/
def planSplitKv (serve : GemmaServe) (rows : List PlanRow) : Except KvError SplitTables :=
  if rows.all fun r => decide (r.globalPages.length ≤ I32_MAX ∧ r.globalLast ≤ I32_MAX) then
    match buildSplitKvCsr GLOBAL_SPLIT_CHUNK_TOKENS serve.globalSplitCap
      ((pseudoRows serve rows).map PlanRow.globalKvLen) (serve.globalSplitFactor * rows.length) with
    | .ok csr =>
      .ok { pages := ((pseudoRows serve rows).map PlanRow.globalPages).flatten
            indptr := offsets ((pseudoRows serve rows).map PlanRow.globalPages)
            last := (pseudoRows serve rows).map PlanRow.globalLast
            csr := csr }
    | .error e => .error e
  else .error .i32Range

/-- the values of a row's own tables fit the i32 they are uploaded as -/
def rowFits (r : PlanRow) : Bool :=
  decide (r.localOrigin ≤ I32_MAX ∧ r.localLast ≤ I32_MAX ∧ r.localStart + 1 ≤ I32_MAX ∧
    r.globalPages.length ≤ I32_MAX ∧ r.position ≤ I32_MAX)

/-- the tables of a list of rows -/
def planRows (serve : GemmaServe) (rows : List PlanRow) : Except KvError Tables :=
  if rows.any (fun r => r.localPages.isEmpty) then .error (.noPages (rows.findIdx fun r => r.localPages.isEmpty))
  else if rows.all rowFits && decide ((rows.flatMap PlanRow.localPages).length ≤ I32_MAX) then
    match buildSplitKvCsr LOCAL_SPLIT_CHUNK_TOKENS serve.localSplitCap (rows.map PlanRow.localKvLen) rows.length,
      planSplitKv serve rows with
    | .ok localSplit, .ok pseudo =>
      .ok { localPages := (rows.map PlanRow.localPages).flatten
            localIndptr := offsets (rows.map PlanRow.localPages)
            localLast := rows.map PlanRow.localLast
            kvChunk := rows.map fun r => r.localStart + 1
            localSplit := localSplit
            globalPages := (rows.map PlanRow.globalPages).flatten
            globalIndptr := offsets (rows.map PlanRow.globalPages)
            positions := rows.map PlanRow.position
            pseudo := pseudo
            localOrigins := rows.map PlanRow.localOrigin }
    | .error e, _ => .error e
    | _, .error e => .error e
  else .error .i32Range

/-- a batch's own row: the next token of `kv` -/
def decodeRow (serve : GemmaServe) (kv : RankKv) : Except KvError PlanRow := do
  let position := kv.slide.frontier
  let kvLen := position + 1
  serve.checkStepBounds kv kvLen
  let span ← kv.slide.residentSpan position kvLen
  let globalLast ← kv.span.descForLen kvLen
  pure { localPages := kv.slide.resident, localLast := span.lastPageLen, localStart := span.start,
         localOrigin := kv.slide.originPages, globalPages := kv.span.pages, globalLast := globalLast,
         position := position }

/-- a padding row after `j` bumps; the plan uploads it at `j = 0` -/
def padRow (serve : GemmaServe) (j : ℕ) : PlanRow :=
  { localPages := [serve.localPaddingPage], localLast := 1 + j, localStart := j, localOrigin := 0,
    globalPages := [serve.globalPaddingPage], globalLast := 1 + j, position := j }

/-- what a full plan of the batch uploads at the padded size -/
def fullPlan (serve : GemmaServe) (kvs : List RankKv) (padded : ℕ) : Except KvError Tables := do
  let rows ← kvs.mapM (decodeRow serve)
  planRows serve (rows ++ List.replicate (padded - kvs.length) (padRow serve 0))

/-! ## One token on -/

/-- the increment of `advance_decode_metadata` over `rows` rows -/
def Tables.advanceDecodeMetadata (t : Tables) (rows factor : ℕ) : Tables :=
  { t with positions := Lib.bump rows t.positions, localLast := Lib.bump rows t.localLast,
           kvChunk := Lib.bump rows t.kvChunk,
           pseudo := { t.pseudo with last := Lib.bump (rows * factor) t.pseudo.last } }

/-- the increment over the whole of a plan's tables -/
def Tables.bump (t : Tables) : Tables :=
  { t with positions := t.positions.map (· + 1), localLast := t.localLast.map (· + 1),
           kvChunk := t.kvChunk.map (· + 1), pseudo := { t.pseudo with last := t.pseudo.last.map (· + 1) } }

/-- the tables with the counters of other rows -/
def Tables.recount (serve : GemmaServe) (t : Tables) (rows : List PlanRow) : Tables :=
  { t with positions := rows.map PlanRow.position, localLast := rows.map PlanRow.localLast,
           kvChunk := rows.map (fun r => r.localStart + 1),
           pseudo := { t.pseudo with last := (pseudoRows serve rows).map PlanRow.globalLast } }

/-- two rows on the same pages, read in equally many chunks -/
structure SameShape (r r' : PlanRow) : Prop where
  localPages : r'.localPages = r.localPages
  localOrigin : r'.localOrigin = r.localOrigin
  globalPages : r'.globalPages = r.globalPages
  localChunks : splitChunks LOCAL_SPLIT_CHUNK_TOKENS r'.localKvLen = splitChunks LOCAL_SPLIT_CHUNK_TOKENS r.localKvLen
  globalChunks : splitChunks GLOBAL_SPLIT_CHUNK_TOKENS r'.globalKvLen =
    splitChunks GLOBAL_SPLIT_CHUNK_TOKENS r.globalKvLen

theorem map_eq_of_sameShape {β : Type*} {f : PlanRow → β} (hf : ∀ r r', SameShape r r' → f r' = f r)
    {rows rows' : List PlanRow} (h : List.Forall₂ SameShape rows rows') : rows'.map f = rows.map f := by
  induction h with
  | nil => rfl
  | cons hr _ ih => rw [List.map_cons, List.map_cons, hf _ _ hr, ih]

theorem sameShape_pseudoRows (serve : GemmaServe) {rows rows' : List PlanRow} (h : List.Forall₂ SameShape rows rows') :
    List.Forall₂ SameShape (pseudoRows serve rows) (pseudoRows serve rows') := by
  induction h with
  | nil => exact List.Forall₂.nil
  | cons hr _ ih =>
    simp only [pseudoRows, List.flatMap_cons] at ih ⊢
    refine List.rel_append ?_ ih
    exact List.forall₂_iff_get.2 ⟨by simp, fun i h1 h2 => by simpa using hr⟩

theorem mem_pseudoRows {serve : GemmaServe} {rows : List PlanRow} {r : PlanRow} (h : r ∈ pseudoRows serve rows) :
    r ∈ rows := by
  simp only [pseudoRows, List.mem_flatMap, List.mem_replicate] at h
  obtain ⟨r', hr', -, rfl⟩ := h
  exact hr'

theorem length_pseudoRows (serve : GemmaServe) (rows : List PlanRow) :
    (pseudoRows serve rows).length = rows.length * serve.globalSplitFactor := by
  simp [pseudoRows]

theorem pseudoRows_map_bump (serve : GemmaServe) (rows : List PlanRow) :
    pseudoRows serve (rows.map PlanRow.bump) = (pseudoRows serve rows).map PlanRow.bump := by
  simp [pseudoRows, List.flatMap_map, List.map_flatMap]

theorem planSplitKv_ok {serve : GemmaServe} {rows : List PlanRow} {t : SplitTables}
    (h : planSplitKv serve rows = .ok t) :
    (∀ r ∈ rows, r.globalPages.length ≤ I32_MAX ∧ r.globalLast ≤ I32_MAX) ∧
      ∃ csr, buildSplitKvCsr GLOBAL_SPLIT_CHUNK_TOKENS serve.globalSplitCap
          ((pseudoRows serve rows).map PlanRow.globalKvLen) (serve.globalSplitFactor * rows.length) = .ok csr ∧
        t = { pages := ((pseudoRows serve rows).map PlanRow.globalPages).flatten
              indptr := offsets ((pseudoRows serve rows).map PlanRow.globalPages)
              last := (pseudoRows serve rows).map PlanRow.globalLast
              csr := csr } := by
  simp only [planSplitKv] at h
  split_ifs at h with h1
  split at h
  · rename_i csr hcsr
    exact ⟨by simpa using h1, csr, hcsr, (Except.ok.inj h).symm⟩
  · cases h

theorem planSplitKv_congr {serve : GemmaServe} {rows rows' : List PlanRow} {t : SplitTables}
    (h : planSplitKv serve rows = .ok t) (hs : List.Forall₂ SameShape rows rows')
    (hlast : ∀ r ∈ rows', r.globalLast ≤ I32_MAX) :
    planSplitKv serve rows' = .ok { t with last := (pseudoRows serve rows').map PlanRow.globalLast } := by
  obtain ⟨hle, csr, hcsr, rfl⟩ := planSplitKv_ok h
  have hps := sameShape_pseudoRows serve hs
  have hpages := map_eq_of_sameShape (fun _ _ hr => hr.globalPages) hs
  have hle' : rows'.all (fun r => decide (r.globalPages.length ≤ I32_MAX ∧ r.globalLast ≤ I32_MAX)) = true := by
    rw [List.all_eq_true]
    intro r hr
    have hmem : r.globalPages ∈ rows.map PlanRow.globalPages := hpages ▸ List.mem_map_of_mem hr
    obtain ⟨r₀, hr₀, he⟩ := List.mem_map.1 hmem
    exact decide_eq_true ⟨he ▸ (hle r₀ hr₀).1, hlast r hr⟩
  have hcsr' : buildSplitKvCsr GLOBAL_SPLIT_CHUNK_TOKENS serve.globalSplitCap
      ((pseudoRows serve rows').map PlanRow.globalKvLen) (serve.globalSplitFactor * rows'.length) = .ok csr := by
    rw [← hs.length_eq]
    refine buildSplitKvCsr_congr ?_ hcsr
    rw [List.map_map, List.map_map]
    exact map_eq_of_sameShape (fun _ _ hr => hr.globalChunks) hps
  simp only [planSplitKv, hle', if_true, hcsr', map_eq_of_sameShape (fun _ _ hr => hr.globalPages) hps]

theorem planRows_ok {serve : GemmaServe} {rows : List PlanRow} {t : Tables} (h : planRows serve rows = .ok t) :
    rows.any (fun r => r.localPages.isEmpty) = false ∧ rows.all rowFits = true ∧
      (rows.flatMap PlanRow.localPages).length ≤ I32_MAX ∧
      ∃ split pseudo,
        buildSplitKvCsr LOCAL_SPLIT_CHUNK_TOKENS serve.localSplitCap (rows.map PlanRow.localKvLen) rows.length =
          .ok split ∧
        planSplitKv serve rows = .ok pseudo ∧
        t = { localPages := (rows.map PlanRow.localPages).flatten
              localIndptr := offsets (rows.map PlanRow.localPages)
              localLast := rows.map PlanRow.localLast
              kvChunk := rows.map fun r => r.localStart + 1
              localSplit := split
              globalPages := (rows.map PlanRow.globalPages).flatten
              globalIndptr := offsets (rows.map PlanRow.globalPages)
              positions := rows.map PlanRow.position
              pseudo := pseudo
              localOrigins := rows.map PlanRow.localOrigin } := by
  simp only [planRows] at h
  split_ifs at h with h1 h2
  rw [Bool.and_eq_true, decide_eq_true_eq] at h2
  split at h
  · rename_i split pseudo hs hp
    exact ⟨Bool.not_eq_true _ ▸ h1, h2.1, h2.2, split, pseudo, hs, hp, (Except.ok.inj h).symm⟩
  · cases h
  · cases h

/-- rows on the same pages and chunks differ in their counters only -/
theorem planRows_congr {serve : GemmaServe} {rows rows' : List PlanRow} {t : Tables} (h : planRows serve rows = .ok t)
    (hs : List.Forall₂ SameShape rows rows') (hfit : ∀ r ∈ rows', rowFits r = true)
    (hlast : ∀ r ∈ rows', r.globalLast ≤ I32_MAX) : planRows serve rows' = .ok (t.recount serve rows') := by
  obtain ⟨hne, -, htot, split, pseudo, hsplit, hpseudo, rfl⟩ := planRows_ok h
  have hpages := map_eq_of_sameShape (fun _ _ hr => hr.localPages) hs
  have hne' : rows'.any (fun r => r.localPages.isEmpty) = false := by
    have hany : (rows'.map PlanRow.localPages).any List.isEmpty = (rows.map PlanRow.localPages).any List.isEmpty := by
      rw [hpages]
    rw [List.any_map, List.any_map] at hany
    exact hany.trans hne
  have hfit' : rows'.all rowFits = true := List.all_eq_true.2 hfit
  have htot' : (rows'.flatMap PlanRow.localPages).length ≤ I32_MAX := by
    rw [List.flatMap_def] at htot ⊢
    rwa [hpages]
  have hsplit' : buildSplitKvCsr LOCAL_SPLIT_CHUNK_TOKENS serve.localSplitCap (rows'.map PlanRow.localKvLen)
      rows'.length = .ok split := by
    rw [← hs.length_eq]
    refine buildSplitKvCsr_congr ?_ hsplit
    rw [List.map_map, List.map_map]
    exact map_eq_of_sameShape (fun _ _ hr => hr.localChunks) hs
  simp only [planRows, hne', Bool.false_eq_true, if_false, hfit', htot', decide_true, Bool.and_self, if_true, hsplit',
    planSplitKv_congr hpseudo hs hlast, hpages, map_eq_of_sameShape (fun _ _ hr => hr.globalPages) hs,
    map_eq_of_sameShape (fun _ _ hr => hr.localOrigin) hs, Tables.recount]

/-- **One token on.** Where no row crosses a page or a chunk, the next position's plan is the bumped plan. -/
theorem planRows_bump {serve : GemmaServe} {rows : List PlanRow} {t : Tables} (h : planRows serve rows = .ok t)
    (hin : ∀ r ∈ rows, SameShape r r.bump) (hfit : ∀ r ∈ rows, rowFits r.bump = true)
    (hlast : ∀ r ∈ rows, r.bump.globalLast ≤ I32_MAX) :
    planRows serve (rows.map PlanRow.bump) = .ok t.bump := by
  have hs : List.Forall₂ SameShape rows (rows.map PlanRow.bump) := by
    rw [List.forall₂_map_right_iff, List.forall₂_same]
    exact hin
  rw [planRows_congr h hs (by simpa using hfit) (by simpa using hlast)]
  obtain ⟨-, -, -, split, pseudo, -, hpseudo, rfl⟩ := planRows_ok h
  obtain ⟨-, csr, -, rfl⟩ := planSplitKv_ok hpseudo
  simp [Tables.recount, Tables.bump, pseudoRows_map_bump, PlanRow.bump, Function.comp_def]

/-! ## Device buffers -/

def SplitKvCsr.upload (slot csr : SplitKvCsr) : SplitKvCsr :=
  { requestIndices := overlay slot.requestIndices csr.requestIndices
    kvTileIndices := overlay slot.kvTileIndices csr.kvTileIndices
    blockValidMask := overlay slot.blockValidMask csr.blockValidMask
    oIndptr := overlay slot.oIndptr csr.oIndptr }

def SplitTables.upload (slot t : SplitTables) : SplitTables :=
  { pages := overlay slot.pages t.pages
    indptr := overlay slot.indptr t.indptr
    last := overlay slot.last t.last
    csr := slot.csr.upload t.csr }

/-- every table of a plan over the front of its buffer -/
def Tables.upload (dev t : Tables) : Tables :=
  { localPages := overlay dev.localPages t.localPages
    localIndptr := overlay dev.localIndptr t.localIndptr
    localLast := overlay dev.localLast t.localLast
    kvChunk := overlay dev.kvChunk t.kvChunk
    localSplit := dev.localSplit.upload t.localSplit
    globalPages := overlay dev.globalPages t.globalPages
    globalIndptr := overlay dev.globalIndptr t.globalIndptr
    positions := overlay dev.positions t.positions
    pseudo := dev.pseudo.upload t.pseudo
    localOrigins := overlay dev.localOrigins t.localOrigins }

structure SplitKvCsr.Holds (dev csr : SplitKvCsr) : Prop where
  requestIndices : csr.requestIndices <+: dev.requestIndices
  kvTileIndices : csr.kvTileIndices <+: dev.kvTileIndices
  blockValidMask : csr.blockValidMask <+: dev.blockValidMask
  oIndptr : csr.oIndptr <+: dev.oIndptr

/-- the buffers hold, in front, the tables no increment touches: pages, offsets, origins and both split-KV plans -/
structure Tables.HoldsFixed (dev t : Tables) : Prop where
  localPages : t.localPages <+: dev.localPages
  localIndptr : t.localIndptr <+: dev.localIndptr
  localSplit : dev.localSplit.Holds t.localSplit
  globalPages : t.globalPages <+: dev.globalPages
  globalIndptr : t.globalIndptr <+: dev.globalIndptr
  pseudoPages : t.pseudo.pages <+: dev.pseudo.pages
  pseudoIndptr : t.pseudo.indptr <+: dev.pseudo.indptr
  globalSplit : dev.pseudo.csr.Holds t.pseudo.csr
  localOrigins : t.localOrigins <+: dev.localOrigins

/-- the device buffers hold these tables in front -/
structure Tables.Holds (dev t : Tables) : Prop extends dev.HoldsFixed t where
  localLast : t.localLast <+: dev.localLast
  kvChunk : t.kvChunk <+: dev.kvChunk
  positions : t.positions <+: dev.positions
  pseudoLast : t.pseudo.last <+: dev.pseudo.last

theorem SplitKvCsr.holds_upload (slot csr : SplitKvCsr) : (slot.upload csr).Holds csr :=
  ⟨isPrefix_overlay _ _, isPrefix_overlay _ _, isPrefix_overlay _ _, isPrefix_overlay _ _⟩

theorem Tables.holds_upload (dev t : Tables) : (dev.upload t).Holds t where
  localPages := isPrefix_overlay _ _
  localIndptr := isPrefix_overlay _ _
  localSplit := SplitKvCsr.holds_upload _ _
  globalPages := isPrefix_overlay _ _
  globalIndptr := isPrefix_overlay _ _
  pseudoPages := isPrefix_overlay _ _
  pseudoIndptr := isPrefix_overlay _ _
  globalSplit := SplitKvCsr.holds_upload _ _
  localOrigins := isPrefix_overlay _ _
  localLast := isPrefix_overlay _ _
  kvChunk := isPrefix_overlay _ _
  positions := isPrefix_overlay _ _
  pseudoLast := isPrefix_overlay _ _

/-- the device increment over a plan's rows is the plan's own -/
theorem Tables.Holds.advance {dev t : Tables} {serve : GemmaServe} {rows : List PlanRow} (h : dev.Holds t)
    (hp : planRows serve rows = .ok t) :
    (dev.advanceDecodeMetadata rows.length serve.globalSplitFactor).Holds t.bump := by
  obtain ⟨-, -, -, split, pseudo, -, hps, rfl⟩ := planRows_ok hp
  obtain ⟨-, csr, -, rfl⟩ := planSplitKv_ok hps
  exact {
    localPages := h.localPages
    localIndptr := h.localIndptr
    localSplit := h.localSplit
    globalPages := h.globalPages
    globalIndptr := h.globalIndptr
    pseudoPages := h.pseudoPages
    pseudoIndptr := h.pseudoIndptr
    globalSplit := h.globalSplit
    localOrigins := h.localOrigins
    localLast := bump_isPrefix h.localLast (by simp)
    kvChunk := bump_isPrefix h.kvChunk (by simp)
    positions := bump_isPrefix h.positions (by simp)
    pseudoLast := bump_isPrefix h.pseudoLast (by simp [length_pseudoRows]) }

end Pegainfer.Gemma4
