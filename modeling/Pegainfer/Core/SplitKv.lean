/-
The split-KV plan of a decode batch: which request and which chunk each slot of the kernel's grid reads.

The tables are `i32`, written with `as`: a count past the word wraps, where the plan's other index tables are checked.
What Rust would panic on is an error, and `overflowChecks` says whether the build checks `usize` arithmetic.
- `buildSplitKvCsr_ok`, `buildSplitKvCsr_of_admissible`: the builder stores the ragged table of the requests' chunks.
- `ofRows_exact`: such a plan is exact while its chunks fit the tables' words.
- `Exact.representable`: and not beyond.
-/
import Mathlib.Tactic
import Pegainfer.Core.Staging
import Pegainfer.Lib.Fallible
import Pegainfer.Lib.Ragged
import Pegainfer.Lib.Words

namespace Pegainfer.Core

open Pegainfer.Lib

/-! ## Machine arithmetic -/

def ISIZE_MAX : ℕ := 2 ^ 63 - 1

def mulUsize (overflowChecks : Bool) (a b : ℕ) : Except String ℕ :=
  if a * b < 2 ^ 64 then .ok (a * b)
  else if overflowChecks then .error "attempt to multiply with overflow"
  else .ok (a * b % 2 ^ 64)

def addUsize (overflowChecks : Bool) (a b : ℕ) : Except String ℕ :=
  if a + b < 2 ^ 64 then .ok (a + b)
  else if overflowChecks then .error "attempt to add with overflow"
  else .ok ((a + b) % 2 ^ 64)

/-- a vector of `n` words of four bytes: no more than `isize::MAX` bytes -/
def reserve (n : ℕ) : Except String Unit := if 4 * n ≤ ISIZE_MAX then .ok () else .error "capacity overflow"

/-! ## Model -/

structure SplitKvCsr where
  requestIndices : List ℤ
  kvTileIndices : List ℤ
  blockValidMask : List ℕ
  oIndptr : List ℤ
deriving DecidableEq, Repr

/-- the chunks a request of `kvLen` tokens is read in -/
def splitChunks (chunkSize kvLen : ℕ) : ℕ := max (divCeil kvLen chunkSize) 1

/-- one request's slots, and the offset they end at -/
def SplitKvCsr.pushRequest (csr : SplitKvCsr) (requestIdx chunks : ℕ) : SplitKvCsr where
  requestIndices := csr.requestIndices ++ List.replicate chunks (asI32 requestIdx)
  kvTileIndices := csr.kvTileIndices ++ (List.range chunks).map asI32
  blockValidMask := csr.blockValidMask ++ List.replicate chunks 1
  oIndptr := csr.oIndptr ++ [asI32 (csr.requestIndices.length + chunks)]

/-- the loop over the requests, from `requestIdx` on -/
def pushRequests (chunkSize cap : ℕ) : ℕ → List ℕ → SplitKvCsr → Except String SplitKvCsr
  | _, [], csr => .ok csr
  | requestIdx, kvLen :: rest, csr =>
    let chunks := splitChunks chunkSize kvLen
    if chunks ≤ cap then do
      reserve (csr.requestIndices.length + chunks)
      pushRequests chunkSize cap (requestIdx + 1) rest (csr.pushRequest requestIdx chunks)
    else .error (s!"split-KV chunk count {chunks} exceeds bound {cap} " ++
      s!"(kv_len={kvLen}, chunk_size={chunkSize}); context limit misconfigured")

attribute [grind =] pushRequests

/-- the loop that fills the slots up -/
def SplitKvCsr.padSlots (csr : SplitKvCsr) (paddedSlots : ℕ) : SplitKvCsr where
  requestIndices := csr.requestIndices ++ List.replicate (paddedSlots - csr.requestIndices.length) 0
  kvTileIndices := csr.kvTileIndices ++ List.replicate (paddedSlots - csr.requestIndices.length) 0
  blockValidMask := csr.blockValidMask ++ List.replicate (paddedSlots - csr.requestIndices.length) 0
  oIndptr := csr.oIndptr

def buildSplitKvCsr (overflowChecks : Bool) (chunkSize cap : ℕ) (kvLens : List ℕ) (paddedBs : ℕ) :
    Except String SplitKvCsr :=
  if chunkSize = 0 then .error "split-KV chunk_size must be > 0"
  else if cap = 0 then .error "split-KV cap must be > 0"
  else if paddedBs < kvLens.length then
    .error s!"kv_lens length {kvLens.length} exceeds padded batch {paddedBs}"
  else do
    let paddedSlots ← mulUsize overflowChecks paddedBs cap
    reserve paddedSlots
    let offsetsCap ← addUsize overflowChecks paddedBs 1
    reserve offsetsCap
    let csr ← pushRequests chunkSize cap 0 kvLens ⟨[], [], [], [0]⟩
    let oIndptr := csr.oIndptr ++
      List.replicate (paddedBs - kvLens.length) (asI32 csr.requestIndices.length)
    reserve oIndptr.length
    .ok (SplitKvCsr.padSlots { csr with oIndptr } paddedSlots)

theorem reserve_eq_ok {n : ℕ} : reserve n = .ok () ↔ 4 * n ≤ ISIZE_MAX := by
  unfold reserve
  split_ifs with h
  · exact iff_of_true rfl h
  · exact iff_of_false (by simp) h

theorem mulUsize_of_lt {overflowChecks : Bool} {a b : ℕ} (h : a * b < 2 ^ 64) :
    mulUsize overflowChecks a b = .ok (a * b) := if_pos h

theorem addUsize_of_lt {overflowChecks : Bool} {a b : ℕ} (h : a + b < 2 ^ 64) :
    addUsize overflowChecks a b = .ok (a + b) := if_pos h

/-! ## The ragged table of chunks -/

/-- each request's chunks, requests numbered from `requestIdx` on -/
def requestRows (chunkSize : ℕ) : ℕ → List ℕ → List (List (ℕ × ℕ))
  | _, [] => []
  | requestIdx, kvLen :: rest =>
    ((List.range (splitChunks chunkSize kvLen)).map fun chunk => (requestIdx, chunk)) ::
      requestRows chunkSize (requestIdx + 1) rest

/-- the requests' rows, and an empty one for every missing request -/
def planRows (chunkSize : ℕ) (kvLens : List ℕ) (paddedBs : ℕ) : List (List (ℕ × ℕ)) :=
  requestRows chunkSize 0 kvLens ++ List.replicate (paddedBs - kvLens.length) []

/-- all the chunks of a batch -/
def chunkTotal (chunkSize : ℕ) (kvLens : List ℕ) : ℕ := (kvLens.map (splitChunks chunkSize)).sum

namespace SplitKvCsr

/-- a plan with further rows at its end -/
def pushRows (csr : SplitKvCsr) (rows : List (List (ℕ × ℕ))) : SplitKvCsr where
  requestIndices := csr.requestIndices ++ rows.flatten.map fun slot => asI32 slot.1
  kvTileIndices := csr.kvTileIndices ++ rows.flatten.map fun slot => asI32 slot.2
  blockValidMask := csr.blockValidMask ++ List.replicate rows.flatten.length 1
  oIndptr := csr.oIndptr ++ ((offsetsFrom csr.requestIndices.length rows).tail.map asI32)

/-- the plan that stores a ragged table in `slots` slots or more -/
def ofRows (rows : List (List (ℕ × ℕ))) (slots : ℕ) : SplitKvCsr where
  requestIndices := (rows.flatten.map fun slot => asI32 slot.1) ++ List.replicate (slots - rows.flatten.length) 0
  kvTileIndices := (rows.flatten.map fun slot => asI32 slot.2) ++ List.replicate (slots - rows.flatten.length) 0
  blockValidMask := List.replicate rows.flatten.length 1 ++ List.replicate (slots - rows.flatten.length) 0
  oIndptr := (offsets rows).map asI32

end SplitKvCsr

variable {overflowChecks : Bool} {chunkSize cap paddedBs requestIdx slots : ℕ} {kvLens : List ℕ}
  {csr csr' : SplitKvCsr}

theorem offsetsFrom_tail (base : ℕ) (x : List (ℕ × ℕ)) (rows : List (List (ℕ × ℕ))) :
    (offsetsFrom base (x :: rows)).tail = (base + x.length) :: (offsetsFrom (base + x.length) rows).tail := by
  cases rows <;> rfl

/-- the loop over the requests stores their rows, as far as each request stays under its cap -/
theorem pushRequests_eq_ok (h : pushRequests chunkSize cap requestIdx kvLens csr = .ok csr') :
    (∀ kvLen ∈ kvLens, splitChunks chunkSize kvLen ≤ cap) ∧
      csr' = csr.pushRows (requestRows chunkSize requestIdx kvLens) := by
  induction kvLens generalizing requestIdx csr with
  | nil =>
    obtain rfl := Except.ok.inj h
    simp [requestRows, SplitKvCsr.pushRows, offsetsFrom]
  | cons kvLen rest ih =>
    simp only [pushRequests] at h
    split_ifs at h with hcap
    obtain ⟨-, -, h⟩ := bind_eq_ok.1 h
    obtain ⟨hall, rfl⟩ := ih h
    refine ⟨List.forall_mem_cons.2 ⟨hcap, hall⟩, ?_⟩
    simp [requestRows, SplitKvCsr.pushRows, SplitKvCsr.pushRequest, offsetsFrom_tail, Function.comp_def]

theorem length_requestRows : (requestRows chunkSize requestIdx kvLens).length = kvLens.length := by
  induction kvLens generalizing requestIdx with
  | nil => rfl
  | cons kvLen rest ih => exact congrArg (· + 1) ih

theorem length_flatten_requestRows :
    (requestRows chunkSize requestIdx kvLens).flatten.length = chunkTotal chunkSize kvLens := by
  induction kvLens generalizing requestIdx with
  | nil => rfl
  | cons kvLen rest ih =>
    rw [requestRows, List.flatten_cons, List.length_append, ih, List.length_map, List.length_range]
    rfl

theorem getElem?_requestRows (i : ℕ) :
    (requestRows chunkSize requestIdx kvLens)[i]? = kvLens[i]?.map fun kvLen =>
      (List.range (splitChunks chunkSize kvLen)).map fun chunk => (requestIdx + i, chunk) := by
  induction kvLens generalizing requestIdx i with
  | nil => rfl
  | cons kvLen rest ih =>
    rcases i with _ | i
    · rfl
    · rw [requestRows, List.getElem?_cons_succ, ih, List.getElem?_cons_succ, Nat.add_right_comm, Nat.add_assoc]

/-- the loop runs through while the requests keep their caps and the vectors stay allocatable -/
theorem pushRequests_of_le (hcap : ∀ kvLen ∈ kvLens, splitChunks chunkSize kvLen ≤ cap)
    (hroom : 4 * (csr.requestIndices.length + chunkTotal chunkSize kvLens) ≤ ISIZE_MAX) :
    ∃ csr', pushRequests chunkSize cap requestIdx kvLens csr = .ok csr' := by
  induction kvLens generalizing requestIdx csr with
  | nil => exact ⟨csr, rfl⟩
  | cons kvLen rest ih =>
    obtain ⟨hcap, hrest⟩ := List.forall_mem_cons.1 hcap
    rw [chunkTotal, List.map_cons, List.sum_cons, ← Nat.add_assoc] at hroom
    have hlen : (csr.pushRequest requestIdx (splitChunks chunkSize kvLen)).requestIndices.length =
        csr.requestIndices.length + splitChunks chunkSize kvLen := by simp [SplitKvCsr.pushRequest]
    obtain ⟨csr', h⟩ : ∃ csr', pushRequests chunkSize cap (requestIdx + 1) rest
        (csr.pushRequest requestIdx (splitChunks chunkSize kvLen)) = .ok csr' := ih hrest (by rw [hlen]; exact hroom)
    refine ⟨csr', ?_⟩
    simp only [pushRequests, if_pos hcap]
    exact bind_eq_ok.2 ⟨(), reserve_eq_ok.2 (by omega), h⟩

/-! ## What the builder stores -/

/-- the inputs that the builder is to accept -/
structure Admissible (chunkSize cap : ℕ) (kvLens : List ℕ) (paddedBs : ℕ) : Prop where
  chunk_pos : 0 < chunkSize
  cap_pos : 0 < cap
  batch : kvLens.length ≤ paddedBs
  chunks : ∀ kvLen ∈ kvLens, splitChunks chunkSize kvLen ≤ cap

/-- the chunks and the padded tables fit their words: `i32` for a count, `isize::MAX` bytes for a vector -/
structure Representable (chunkSize cap : ℕ) (kvLens : List ℕ) (paddedBs : ℕ) : Prop where
  chunks : chunkTotal chunkSize kvLens < 2 ^ 31
  slots : 4 * (paddedBs * cap) ≤ ISIZE_MAX
  offsets : 4 * (paddedBs + 1) ≤ ISIZE_MAX

theorem length_planRows (h : kvLens.length ≤ paddedBs) : (planRows chunkSize kvLens paddedBs).length = paddedBs := by
  rw [planRows, List.length_append, length_requestRows, List.length_replicate]
  omega

theorem length_flatten_planRows :
    (planRows chunkSize kvLens paddedBs).flatten.length = chunkTotal chunkSize kvLens := by
  rw [planRows, List.flatten_append, List.length_append, length_flatten_requestRows]
  simp

/-- the tables of the requests with the padding loops' entries are the plan of the padded rows -/
theorem padSlots_pushRows :
    SplitKvCsr.padSlots { SplitKvCsr.pushRows ⟨[], [], [], [0]⟩ (requestRows chunkSize 0 kvLens) with
        oIndptr := (SplitKvCsr.pushRows ⟨[], [], [], [0]⟩ (requestRows chunkSize 0 kvLens)).oIndptr ++
          List.replicate (paddedBs - kvLens.length)
            (asI32 (SplitKvCsr.pushRows ⟨[], [], [], [0]⟩ (requestRows chunkSize 0 kvLens)).requestIndices.length) }
        slots =
      .ofRows (planRows chunkSize kvLens paddedBs) slots := by
  have hflat : (planRows chunkSize kvLens paddedBs).flatten = (requestRows chunkSize 0 kvLens).flatten := by
    rw [planRows, List.flatten_append]
    simp
  have hoffsets : offsets (planRows chunkSize kvLens paddedBs) =
      0 :: (offsetsFrom 0 (requestRows chunkSize 0 kvLens)).tail ++
        List.replicate (paddedBs - kvLens.length) (requestRows chunkSize 0 kvLens).flatten.length := by
    rw [offsets, planRows, offsetsFrom_append_replicate, Nat.zero_add]
    congr 1
    cases requestRows chunkSize 0 kvLens <;> rfl
  have hzero : asI32 0 = 0 := rfl
  simp only [SplitKvCsr.padSlots, SplitKvCsr.pushRows, SplitKvCsr.ofRows, hflat, hoffsets, hzero, List.nil_append,
    List.length_map, List.length_nil, List.map_append, List.map_cons, List.map_replicate, List.cons_append]

/-- **A plan that is built stores the chunks of an admissible batch.** -/
theorem buildSplitKvCsr_ok (h : buildSplitKvCsr overflowChecks chunkSize cap kvLens paddedBs = .ok csr) :
    Admissible chunkSize cap kvLens paddedBs ∧ 4 * (paddedBs + 1) ≤ ISIZE_MAX ∧
      ∃ slots, 4 * slots ≤ ISIZE_MAX ∧ csr = .ofRows (planRows chunkSize kvLens paddedBs) slots := by
  unfold buildSplitKvCsr at h
  split_ifs at h with hchunk hcap hbatch
  obtain ⟨slots, -, h⟩ := bind_eq_ok.1 h
  obtain ⟨_, hslots, h⟩ := bind_eq_ok.1 h
  obtain ⟨offsetsCap, -, h⟩ := bind_eq_ok.1 h
  obtain ⟨-, -, h⟩ := bind_eq_ok.1 h
  obtain ⟨pushed, hpushed, h⟩ := bind_eq_ok.1 h
  obtain ⟨_, hoffsets, h⟩ := bind_eq_ok.1 h
  obtain ⟨hchunks, rfl⟩ := pushRequests_eq_ok hpushed
  have hcsr := (Except.ok.inj h).symm.trans padSlots_pushRows
  refine ⟨⟨Nat.pos_of_ne_zero hchunk, Nat.pos_of_ne_zero hcap, not_lt.1 hbatch, hchunks⟩, ?_, slots,
    reserve_eq_ok.1 hslots, hcsr⟩
  have hlen : csr.oIndptr.length = paddedBs + 1 := by
    rw [hcsr, SplitKvCsr.ofRows, List.length_map, length_offsets, length_planRows (not_lt.1 hbatch)]
  rw [← hlen, ← Except.ok.inj h]
  exact reserve_eq_ok.1 hoffsets

theorem Admissible.chunkTotal_le (h : Admissible chunkSize cap kvLens paddedBs) :
    chunkTotal chunkSize kvLens ≤ paddedBs * cap := by
  calc chunkTotal chunkSize kvLens ≤ (kvLens.map (splitChunks chunkSize)).length • cap :=
        List.sum_le_card_nsmul _ _ (List.forall_mem_map.2 h.chunks)
    _ = kvLens.length * cap := by rw [List.length_map, smul_eq_mul]
    _ ≤ paddedBs * cap := Nat.mul_le_mul_right _ h.batch

/-- an admissible batch whose tables can be allocated is planned -/
theorem buildSplitKvCsr_of_admissible (h : Admissible chunkSize cap kvLens paddedBs)
    (hslots : 4 * (paddedBs * cap) ≤ ISIZE_MAX) (hoffsets : 4 * (paddedBs + 1) ≤ ISIZE_MAX) :
    buildSplitKvCsr overflowChecks chunkSize cap kvLens paddedBs =
      .ok (.ofRows (planRows chunkSize kvLens paddedBs) (paddedBs * cap)) := by
  have hmax : ISIZE_MAX < 2 ^ 64 := by norm_num [ISIZE_MAX]
  have htotal := h.chunkTotal_le
  obtain ⟨pushed, hpushed⟩ : ∃ pushed, pushRequests chunkSize cap 0 kvLens ⟨[], [], [], [0]⟩ = .ok pushed :=
    pushRequests_of_le h.chunks (by rw [List.length_nil, Nat.zero_add]; omega)
  obtain ⟨-, rfl⟩ := pushRequests_eq_ok hpushed
  have hlen : (SplitKvCsr.ofRows (planRows chunkSize kvLens paddedBs) (paddedBs * cap)).oIndptr.length =
      paddedBs + 1 := by
    rw [SplitKvCsr.ofRows, List.length_map, length_offsets, length_planRows h.batch]
  rw [buildSplitKvCsr, if_neg h.chunk_pos.ne', if_neg h.cap_pos.ne', if_neg (not_lt.2 h.batch)]
  refine bind_eq_ok.2 ⟨_, mulUsize_of_lt (by omega), bind_eq_ok.2 ⟨(), reserve_eq_ok.2 hslots, ?_⟩⟩
  refine bind_eq_ok.2 ⟨_, addUsize_of_lt (by omega), bind_eq_ok.2 ⟨(), reserve_eq_ok.2 hoffsets, ?_⟩⟩
  rw [← padSlots_pushRows] at hlen ⊢
  refine bind_eq_ok.2 ⟨_, hpushed, bind_eq_ok.2 ⟨(), reserve_eq_ok.2 ?_, rfl⟩⟩
  exact hlen.symm ▸ hoffsets

/-! ## Exact plans -/

/-- the chunks of request `i`: none for a missing request -/
def requestChunks (chunkSize : ℕ) (kvLens : List ℕ) (i : ℕ) : ℕ :=
  match kvLens[i]? with
  | some kvLen => splitChunks chunkSize kvLen
  | none => 0

/-- the slot lies between request `i`'s offset and the next -/
def SplitKvCsr.Holds (csr : SplitKvCsr) (i slot : ℕ) : Prop :=
  ∃ lo hi : ℤ, csr.oIndptr[i]? = some lo ∧ csr.oIndptr[i + 1]? = some hi ∧ lo ≤ slot ∧ (slot : ℤ) < hi

/-- what the kernel trusts of a plan -/
structure Exact (chunkSize cap : ℕ) (kvLens : List ℕ) (paddedBs : ℕ) (csr : SplitKvCsr) : Prop where
  requests_length : csr.requestIndices.length = paddedBs * cap
  tiles_length : csr.kvTileIndices.length = paddedBs * cap
  mask_length : csr.blockValidMask.length = paddedBs * cap
  offsets_length : csr.oIndptr.length = paddedBs + 1
  offsets_head : csr.oIndptr.head? = some 0
  offsets_mono : csr.oIndptr.Pairwise (· ≤ ·)
  /-- between two offsets lie the request's chunks, in order -/
  slots : ∀ i < paddedBs, ∃ lo : ℕ, csr.oIndptr[i]? = some (lo : ℤ) ∧
    csr.oIndptr[i + 1]? = some ((lo + requestChunks chunkSize kvLens i : ℕ) : ℤ) ∧
    ∀ chunk < requestChunks chunkSize kvLens i,
      csr.requestIndices[lo + chunk]? = some (i : ℤ) ∧ csr.kvTileIndices[lo + chunk]? = some (chunk : ℤ)
  /-- every KV position of a request is in exactly one of its slots' chunks -/
  covers : ∀ i kvLen, kvLens[i]? = some kvLen → ∀ pos < kvLen, ∃! slot, csr.Holds i slot ∧
    ∃ tile : ℕ, csr.kvTileIndices[slot]? = some (tile : ℤ) ∧ tile * chunkSize ≤ pos ∧ pos < (tile + 1) * chunkSize
  /-- the slots below the last offset are valid, and no others -/
  valid : ∀ last, csr.oIndptr.getLast? = some last → ∀ (slot : ℕ) mask, csr.blockValidMask[slot]? = some mask →
    mask = if (slot : ℤ) < last then 1 else 0

theorem length_le_chunkTotal : kvLens.length ≤ chunkTotal chunkSize kvLens := by
  calc kvLens.length = (kvLens.map (splitChunks chunkSize)).length • 1 := by
        rw [List.length_map, smul_eq_mul, mul_one]
    _ ≤ chunkTotal chunkSize kvLens :=
      List.card_nsmul_le_sum _ _ (List.forall_mem_map.2 fun _ _ => le_max_right _ _)

theorem requestChunks_of_getElem? {i kvLen : ℕ} (h : kvLens[i]? = some kvLen) :
    requestChunks chunkSize kvLens i = splitChunks chunkSize kvLen := by
  rw [requestChunks, h]

theorem lt_length_of_requestChunks {i chunk : ℕ} (h : chunk < requestChunks chunkSize kvLens i) :
    i < kvLens.length := by
  by_contra hge
  rw [requestChunks, List.getElem?_eq_none (not_lt.1 hge)] at h
  exact Nat.not_lt_zero _ h

theorem getElem?_planRows {i : ℕ} (hbatch : kvLens.length ≤ paddedBs) (hi : i < paddedBs) :
    (planRows chunkSize kvLens paddedBs)[i]? =
      some ((List.range (requestChunks chunkSize kvLens i)).map fun chunk => (i, chunk)) := by
  rw [planRows]
  rcases lt_or_ge i kvLens.length with hlt | hge
  · have hkv := List.getElem?_eq_getElem hlt
    rw [List.getElem?_append_left (by rwa [length_requestRows]), getElem?_requestRows, hkv, Option.map_some,
      Nat.zero_add, requestChunks_of_getElem? hkv]
  · rw [List.getElem?_append_right (by rwa [length_requestRows]), length_requestRows, List.getElem?_replicate,
      if_pos (by omega), requestChunks, List.getElem?_eq_none hge]
    rfl

/-- the position of a request in a chunk -/
theorem lt_splitChunks {kvLen pos : ℕ} (hchunk : 0 < chunkSize) (hpos : pos < kvLen) :
    pos / chunkSize < splitChunks chunkSize kvLen := by
  refine lt_of_lt_of_le ?_ (le_max_left _ _)
  calc pos / chunkSize < (pos + chunkSize) / chunkSize := by rw [Nat.add_div_right _ hchunk]; exact Nat.lt_succ_self _
    _ ≤ divCeil kvLen chunkSize := Nat.div_le_div_right (by omega)

/-- slots in order cover each position once: the one at its position over the chunk size -/
theorem covers_of_slots (hchunk : 0 < chunkSize) {i kvLen pos lo : ℕ} (hkv : kvLens[i]? = some kvLen)
    (hpos : pos < kvLen) (hlo : csr.oIndptr[i]? = some (lo : ℤ))
    (hhi : csr.oIndptr[i + 1]? = some ((lo + requestChunks chunkSize kvLens i : ℕ) : ℤ))
    (hslots : ∀ chunk < requestChunks chunkSize kvLens i, csr.kvTileIndices[lo + chunk]? = some (chunk : ℤ)) :
    ∃! slot, csr.Holds i slot ∧ ∃ tile : ℕ, csr.kvTileIndices[slot]? = some (tile : ℤ) ∧
      tile * chunkSize ≤ pos ∧ pos < (tile + 1) * chunkSize := by
  have hlt : pos / chunkSize < requestChunks chunkSize kvLens i := by
    rw [requestChunks_of_getElem? hkv]
    exact lt_splitChunks hchunk hpos
  refine ⟨lo + pos / chunkSize,
    ⟨⟨lo, _, hlo, hhi, ?_, ?_⟩, pos / chunkSize, hslots _ hlt, Nat.div_mul_le_self _ _, ?_⟩, ?_⟩
  · exact Nat.cast_le.2 (Nat.le_add_right _ _)
  · exact Nat.cast_lt.2 (Nat.add_lt_add_left hlt lo)
  · exact Nat.lt_mul_of_div_lt (Nat.lt_succ_self _) hchunk
  · rintro slot ⟨⟨lo', hi', hlo', hhi', hle, hslot⟩, tile, htile, hbelow, habove⟩
    obtain rfl := Option.some.inj (hlo.symm.trans hlo')
    obtain rfl := Option.some.inj (hhi.symm.trans hhi')
    obtain ⟨chunk, rfl⟩ := Nat.exists_eq_add_of_le (Nat.cast_le.1 hle)
    have hchunkLt : chunk < requestChunks chunkSize kvLens i := Nat.add_lt_add_iff_left.1 (Nat.cast_lt.1 hslot)
    obtain rfl := Nat.cast_injective (Option.some.inj ((hslots chunk hchunkLt).symm.trans htile))
    rw [(Nat.div_eq_iff hchunk).2 ⟨hbelow, by rw [Nat.add_mul, Nat.one_mul] at habove; omega⟩]

namespace SplitKvCsr

variable {rows : List (List (ℕ × ℕ))}

theorem ofRows_requests_length : (ofRows rows slots).requestIndices.length = max rows.flatten.length slots := by
  rw [ofRows, List.length_append, List.length_map, List.length_replicate]
  omega

theorem ofRows_tiles_length : (ofRows rows slots).kvTileIndices.length = max rows.flatten.length slots := by
  rw [ofRows, List.length_append, List.length_map, List.length_replicate]
  omega

theorem ofRows_mask_length : (ofRows rows slots).blockValidMask.length = max rows.flatten.length slots := by
  rw [ofRows, List.length_append, List.length_replicate, List.length_replicate]
  omega

theorem ofRows_mask {slot mask : ℕ} (h : (ofRows rows slots).blockValidMask[slot]? = some mask) :
    mask = if slot < rows.flatten.length then 1 else 0 := by
  rw [ofRows, List.getElem?_append, List.length_replicate] at h
  split_ifs at h ⊢ with hlt
  · exact List.eq_of_mem_replicate (List.mem_of_getElem? h)
  · exact List.eq_of_mem_replicate (List.mem_of_getElem? h)

theorem ofRows_last : (ofRows rows slots).oIndptr.getLast? = some (asI32 rows.flatten.length) := by
  rw [ofRows, List.getLast?_map, offsets_getLast?, Option.map_some]

theorem ofRows_slot {slot request chunk : ℕ} (h : rows.flatten[slot]? = some (request, chunk)) :
    (ofRows rows slots).requestIndices[slot]? = some (asI32 request) ∧
      (ofRows rows slots).kvTileIndices[slot]? = some (asI32 chunk) := by
  obtain ⟨hlt, -⟩ := List.getElem?_eq_some_iff.1 h
  constructor
  · rw [ofRows, List.getElem?_append_left (by rwa [List.length_map]), List.getElem?_map, h, Option.map_some]
  · rw [ofRows, List.getElem?_append_left (by rwa [List.length_map]), List.getElem?_map, h, Option.map_some]

end SplitKvCsr

open SplitKvCsr in
/-- **An admissible batch whose chunks fit an `i32` is planned exactly.** -/
theorem ofRows_exact (h : Admissible chunkSize cap kvLens paddedBs) (htotal : chunkTotal chunkSize kvLens < 2 ^ 31) :
    Exact chunkSize cap kvLens paddedBs (ofRows (planRows chunkSize kvLens paddedBs) (paddedBs * cap)) := by
  have hflat : (planRows chunkSize kvLens paddedBs).flatten.length = chunkTotal chunkSize kvLens :=
    length_flatten_planRows
  have hmax : max (planRows chunkSize kvLens paddedBs).flatten.length (paddedBs * cap) = paddedBs * cap := by
    rw [hflat, max_eq_right h.chunkTotal_le]
  have hoffset : ∀ lo ∈ offsets (planRows chunkSize kvLens paddedBs), lo < 2 ^ 31 := by
    intro lo hlo
    obtain ⟨r, hr⟩ := List.mem_iff_getElem?.1 hlo
    have := offsetsFrom_last_le 0 _ r lo hr
    omega
  have hslots : ∀ i < paddedBs, ∃ lo : ℕ,
      (ofRows (planRows chunkSize kvLens paddedBs) (paddedBs * cap)).oIndptr[i]? = some (lo : ℤ) ∧
      (ofRows (planRows chunkSize kvLens paddedBs) (paddedBs * cap)).oIndptr[i + 1]? =
        some ((lo + requestChunks chunkSize kvLens i : ℕ) : ℤ) ∧
      ∀ chunk < requestChunks chunkSize kvLens i,
        (ofRows (planRows chunkSize kvLens paddedBs) (paddedBs * cap)).requestIndices[lo + chunk]? = some (i : ℤ) ∧
        (ofRows (planRows chunkSize kvLens paddedBs) (paddedBs * cap)).kvTileIndices[lo + chunk]? =
          some (chunk : ℤ) := by
    intro i hi
    obtain ⟨lo, hlo, hhi, hcell⟩ := offsets_cell _ i _ (getElem?_planRows h.batch hi)
    rw [List.length_map, List.length_range] at hhi hcell
    have hhiLt := hoffset _ (List.mem_of_getElem? hhi)
    refine ⟨lo, getElem?_map_asI32 hlo (by omega), getElem?_map_asI32 hhi hhiLt, fun chunk hchunk => ?_⟩
    have hi32 : i < 2 ^ 31 := (lt_length_of_requestChunks hchunk).trans_le (length_le_chunkTotal.trans htotal.le)
    have hcellAt := hcell chunk hchunk
    rw [List.getElem?_map, List.getElem?_range hchunk, Option.map_some] at hcellAt
    refine ⟨(ofRows_slot hcellAt).1.trans ?_, (ofRows_slot hcellAt).2.trans ?_⟩
    · rw [asI32_of_lt hi32]
    · rw [asI32_of_lt (by omega)]
  exact
    { requests_length := ofRows_requests_length.trans hmax
      tiles_length := ofRows_tiles_length.trans hmax
      mask_length := ofRows_mask_length.trans hmax
      offsets_length := by rw [ofRows, List.length_map, length_offsets, length_planRows h.batch]
      offsets_head := by
        rw [ofRows, List.head?_map, List.head?_eq_getElem?, offsets, offsetsFrom_head]
        rfl
      offsets_mono := by
        rw [ofRows, map_asI32 hoffset]
        exact (offsets_pairwise _).map _ fun _ _ => Nat.cast_le.2
      slots := hslots
      covers := by
        intro i kvLen hkv pos hpos
        obtain ⟨hi, -⟩ := List.getElem?_eq_some_iff.1 hkv
        obtain ⟨lo, hlo, hhi, hcells⟩ := hslots i (hi.trans_le h.batch)
        exact covers_of_slots h.chunk_pos hkv hpos hlo hhi fun chunk hchunk => (hcells chunk hchunk).2
      valid := by
        intro last hlast slot mask hmask
        obtain rfl := Option.some.inj (ofRows_last.symm.trans hlast)
        rw [ofRows_mask hmask, hflat, asI32_of_lt htotal]
        simp only [Nat.cast_lt] }

open SplitKvCsr in
/-- a plan is exact only while its chunks fit an `i32` and its slots are not cut off -/
theorem exact_ofRows (h : Exact chunkSize cap kvLens paddedBs (ofRows (planRows chunkSize kvLens paddedBs) slots)) :
    chunkTotal chunkSize kvLens < 2 ^ 31 ∧ max (chunkTotal chunkSize kvLens) slots = paddedBs * cap := by
  have hflat : (planRows chunkSize kvLens paddedBs).flatten.length = chunkTotal chunkSize kvLens :=
    length_flatten_planRows
  refine ⟨?_, by rw [← h.requests_length, ofRows_requests_length, hflat]⟩
  by_contra hge
  -- the last chunk's slot is marked, though the offsets have wrapped below it
  have hslot : (ofRows (planRows chunkSize kvLens paddedBs) slots).blockValidMask[chunkTotal chunkSize kvLens - 1]? =
      some 1 := by
    rw [ofRows, hflat, List.getElem?_append_left (by rw [List.length_replicate]; omega), List.getElem?_replicate,
      if_pos (by omega)]
  have hvalid := h.valid _ ofRows_last _ _ hslot
  rw [hflat] at hvalid
  split_ifs at hvalid with hlt
  have := asI32_lt (chunkTotal chunkSize kvLens)
  omega

/-! ## The builder -/

/-- **The builder accepts exactly the admissible batches and plans them exactly, if and only if an admissible batch
fits the words of its tables.** -/
theorem buildSplitKvCsr_exact_iff (overflowChecks : Bool) (chunkSize cap : ℕ) (kvLens : List ℕ) (paddedBs : ℕ) :
    (((∃ csr, buildSplitKvCsr overflowChecks chunkSize cap kvLens paddedBs = .ok csr) ↔
          Admissible chunkSize cap kvLens paddedBs) ∧
        ∀ csr, buildSplitKvCsr overflowChecks chunkSize cap kvLens paddedBs = .ok csr →
          Exact chunkSize cap kvLens paddedBs csr) ↔
      (Admissible chunkSize cap kvLens paddedBs → Representable chunkSize cap kvLens paddedBs) := by
  constructor
  · rintro ⟨hiff, hexact⟩ hadm
    obtain ⟨csr, hok⟩ := hiff.2 hadm
    obtain ⟨-, hoffsets, slots, hslots, rfl⟩ := buildSplitKvCsr_ok hok
    obtain ⟨htotal, hcap⟩ := exact_ofRows (hexact _ hok)
    refine ⟨htotal, ?_, hoffsets⟩
    rw [← hcap, ISIZE_MAX]
    rw [ISIZE_MAX] at hslots
    omega
  · intro hrep
    refine ⟨⟨?_, fun hadm => ?_⟩, fun csr hok => ?_⟩
    · rintro ⟨csr, hok⟩
      exact (buildSplitKvCsr_ok hok).1
    · have hfits := hrep hadm
      exact ⟨_, buildSplitKvCsr_of_admissible hadm hfits.slots hfits.offsets⟩
    · have hadm := (buildSplitKvCsr_ok hok).1
      have hfits := hrep hadm
      rw [buildSplitKvCsr_of_admissible hadm hfits.slots hfits.offsets] at hok
      obtain rfl := Except.ok.inj hok
      exact ofRows_exact hadm hfits.chunks

/-- a batch of 256 requests at the largest `i32` context: its last offset wraps below zero -/
theorem buildSplitKvCsr_wraps :
    ∃ csr, buildSplitKvCsr false 256 8388608 (List.replicate 256 2147483647) 256 = .ok csr ∧
      csr.oIndptr.head? = some 0 ∧ csr.oIndptr.getLast? = some (-2147483648) ∧
      ¬ Exact 256 8388608 (List.replicate 256 2147483647) 256 csr := by
  have hadm : Admissible 256 8388608 (List.replicate 256 2147483647) 256 := by
    refine ⟨by decide, by decide, List.length_replicate.le, fun kvLen hkv => ?_⟩
    rw [List.eq_of_mem_replicate hkv]
    decide
  have htotal : chunkTotal 256 (List.replicate 256 2147483647) = 2147483648 := by
    rw [chunkTotal, List.map_replicate, List.sum_replicate]
    decide
  refine ⟨_, buildSplitKvCsr_of_admissible hadm (by decide) (by decide), rfl, ?_, fun h => ?_⟩
  · rw [SplitKvCsr.ofRows_last, length_flatten_planRows, htotal]
    decide
  · have := (exact_ofRows h).1
    rw [htotal] at this
    omega

end Pegainfer.Core
