/-
Qwen3.5 tensor-parallel capacity: how many recurrent requests a rank admits.

In graph mode a rank reserves one recurrent state per slot of the decode bucket and sizes the batch from what is left.
The bucket depends on the batch and the batch on the bucket, so the worker walks the bucket down until it is stable.
- `fitMaxBatch_fits`: the walk ends, and the batch found fits beside the reserve of its own bucket.
- `fitMaxBatch_largest_iff`: it is the largest such batch exactly when the first bucket does not overshoot. The walk
  jumps to the bucket of what the large reserve left over, which may lie several buckets below the one that fits.
-/
import Mathlib.Tactic
import Pegainfer.Lib.Ladder

namespace Pegainfer.Qwen35

open Pegainfer.Lib

/-! ## Model -/

def batchBuckets : List ℕ := [1, 2, 4, 8, 16, 32, 64]

/-- the smallest bucket that holds `bs`; a larger batch panics -/
def bucketFor (bs : ℕ) : Except String ℕ :=
  match covering batchBuckets bs with
  | some b => .ok b
  | none => .error s!"batch size {bs} exceeds largest bucket {batchBuckets.getLast (by decide)}"

def tpRuntimeMemoryReserveBytes : ℕ := 512 * 1024 * 1024

/-- `saturating_sub` on `usize` is subtraction of naturals -/
def effectiveRecurrentCapacity (requestedMaxBatch freeBytes recurrentBytesPerRequest runtimeReserveBytes
    prefillScratchBytes : ℕ) : ℕ :=
  if recurrentBytesPerRequest = 0 then requestedMaxBatch
  else min requestedMaxBatch ((freeBytes - runtimeReserveBytes - prefillScratchBytes) / recurrentBytesPerRequest)

/-- the loop over `slot_bucket`; the reserve is a `usize` product -/
def fitSlots (requestedMaxBatch freeBytes recurrentBytes prefillScratchBytes slotBucket : ℕ) : Except String ℕ :=
  let reserve := slotBucket * recurrentBytes % 2 ^ 64
  let candidate := effectiveRecurrentCapacity requestedMaxBatch (freeBytes - reserve) recurrentBytes
    tpRuntimeMemoryReserveBytes prefillScratchBytes
  let fitted := min candidate slotBucket
  match bucketFor fitted with
  | .error message => .error message
  | .ok next =>
    if slotBucket ≤ next then .ok fitted
    else fitSlots requestedMaxBatch freeBytes recurrentBytes prefillScratchBytes next
termination_by slotBucket

/-- the batch of a rank: with graphs the slots are reserved before the requests are counted -/
def fitMaxBatch (graphEnabled : Bool) (requestedMaxBatch freeBytes recurrentBytes prefillScratchBytes : ℕ) :
    Except String ℕ :=
  if graphEnabled then do
    let slotBucket ← bucketFor requestedMaxBatch
    fitSlots requestedMaxBatch freeBytes recurrentBytes prefillScratchBytes slotBucket
  else
    .ok (effectiveRecurrentCapacity requestedMaxBatch freeBytes recurrentBytes tpRuntimeMemoryReserveBytes
      prefillScratchBytes)

/-- `TpWorkerState::new` refuses a rank without room for one request -/
def newMaxBatch (rank prefillScratchTokens : ℕ) (graphEnabled : Bool)
    (requestedMaxBatch freeBytes recurrentBytes prefillScratchBytes : ℕ) : Except String ℕ := do
  let maxBatch ← fitMaxBatch graphEnabled requestedMaxBatch freeBytes recurrentBytes prefillScratchBytes
  if 0 < maxBatch then pure maxBatch
  else
    .error (s!"Qwen3.5 TP rank {rank} has {freeBytes / (1024 * 1024)} MiB free after fixed buffers, " ++
      s!"but one recurrent request needs {recurrentBytes / (1024 * 1024)} MiB " ++
      s!"plus {tpRuntimeMemoryReserveBytes / (1024 * 1024)} MiB runtime reserve " ++
      s!"and {prefillScratchBytes / (1024 * 1024)} MiB prefill scratch for {prefillScratchTokens} tokens")

variable {requested free recurrent scratch : ℕ} {bs bucket half next m n : ℕ}

/-! ## Buckets -/

theorem batchBuckets_ascend : batchBuckets.Pairwise (· < ·) := by decide

theorem bucketFor_eq_ok_iff : bucketFor bs = .ok bucket ↔ SmallestCover batchBuckets bs bucket := by
  rw [← covering_eq_some_iff batchBuckets_ascend]
  unfold bucketFor
  cases covering batchBuckets bs with
  | none => simp
  | some b => simp

theorem bucketFor_total (h : bs ≤ 64) : ∃ bucket, bucketFor bs = .ok bucket := by
  cases hfind : covering batchBuckets bs with
  | none => exact absurd (covering_eq_none_iff.1 hfind 64 (by decide)) (not_lt.2 h)
  | some b => exact ⟨b, by simp [bucketFor, hfind]⟩

theorem bucket_le_largest (h : bucket ∈ batchBuckets) : bucket ≤ 64 := by
  have hall : ∀ bucket ∈ batchBuckets, bucket ≤ 64 := by decide
  exact hall bucket h

theorem bucket_pos (h : bucket ∈ batchBuckets) : 0 < bucket := by
  have hall : ∀ bucket ∈ batchBuckets, 0 < bucket := by decide
  exact hall bucket h

/-- a bucket is one slot, or twice the bucket below it -/
theorem bucket_double (h : bucket ∈ batchBuckets) :
    bucket = 1 ∨ ∃ half ∈ batchBuckets, bucket = 2 * half ∧ ∀ other ∈ batchBuckets, other < bucket → other ≤ half := by
  have hall : ∀ bucket ∈ batchBuckets, bucket = 1 ∨
      ∃ half ∈ batchBuckets, bucket = 2 * half ∧ ∀ other ∈ batchBuckets, other < bucket → other ≤ half := by decide
  exact hall bucket h

/-! ## Slots -/

/-- the recurrent states that fit beside the runtime reserve and the prefill scratch -/
def recurrentSlots (free recurrent scratch : ℕ) : ℕ := (free - tpRuntimeMemoryReserveBytes - scratch) / recurrent

theorem le_recurrentSlots_iff (hr : 0 < recurrent) (hn : 0 < n) :
    n ≤ recurrentSlots free recurrent scratch ↔ n * recurrent + tpRuntimeMemoryReserveBytes + scratch ≤ free := by
  have hpos : 0 < n * recurrent := Nat.mul_pos hn hr
  rw [recurrentSlots, Nat.le_div_iff_mul_le hr]
  omega

/-- a bucket's reserve costs as many requests as the bucket has slots -/
theorem effectiveRecurrentCapacity_reserved (hr : 0 < recurrent) :
    effectiveRecurrentCapacity requested (free - bucket * recurrent) recurrent tpRuntimeMemoryReserveBytes scratch =
      min requested (recurrentSlots free recurrent scratch - bucket) := by
  have hcomm : free - bucket * recurrent - tpRuntimeMemoryReserveBytes - scratch =
      free - tpRuntimeMemoryReserveBytes - scratch - recurrent * bucket := by
    rw [Nat.mul_comm recurrent]
    omega
  rw [effectiveRecurrentCapacity, if_neg hr.ne', hcomm, Nat.sub_mul_div, recurrentSlots]

/-- what the walk fits beside the reserve of `bucket` -/
def fittedAt (requested free recurrent scratch bucket : ℕ) : ℕ :=
  min (min requested (recurrentSlots free recurrent scratch - bucket)) bucket

theorem fitSlots_eq (hr : 0 < recurrent) (hover : bucket * recurrent < 2 ^ 64)
    (hnext : SmallestCover batchBuckets (fittedAt requested free recurrent scratch bucket) next) :
    fitSlots requested free recurrent scratch bucket =
      if bucket ≤ next then .ok (fittedAt requested free recurrent scratch bucket)
      else fitSlots requested free recurrent scratch next := by
  have hbucket := bucketFor_eq_ok_iff.2 hnext
  unfold fittedAt at hbucket ⊢
  rw [fitSlots, Nat.mod_eq_of_lt hover, effectiveRecurrentCapacity_reserved hr, hbucket]

theorem fitSlots_stop (hr : 0 < recurrent) (hover : bucket * recurrent < 2 ^ 64)
    (hstable : SmallestCover batchBuckets (fittedAt requested free recurrent scratch bucket) bucket) :
    fitSlots requested free recurrent scratch bucket = .ok (fittedAt requested free recurrent scratch bucket) := by
  rw [fitSlots_eq hr hover hstable, if_pos (le_refl bucket)]

theorem fitSlots_jump (hr : 0 < recurrent) (hover : bucket * recurrent < 2 ^ 64)
    (hnext : SmallestCover batchBuckets (fittedAt requested free recurrent scratch bucket) next) (hlt : next < bucket) :
    fitSlots requested free recurrent scratch bucket = fitSlots requested free recurrent scratch next := by
  rw [fitSlots_eq hr hover hnext, if_neg (not_le.2 hlt)]

/-- one slot is the smallest bucket, so the walk stops there -/
theorem fitSlots_one (hr : 0 < recurrent) (hover : 1 * recurrent < 2 ^ 64) :
    fitSlots requested free recurrent scratch 1 = .ok (fittedAt requested free recurrent scratch 1) :=
  fitSlots_stop hr hover ⟨by decide, Nat.min_le_right _ _, fun _ hin _ => bucket_pos hin⟩

/-! ## The walk from the first bucket -/

/-- the first bucket is kept when more than half of it is filled -/
theorem fitSlots_kept (hr : 0 < recurrent) (hover : 2 * half * recurrent < 2 ^ 64)
    (hfirst : SmallestCover batchBuckets requested (2 * half)) (hhalf : half < requested)
    (hgap : ∀ other ∈ batchBuckets, other < 2 * half → other ≤ half)
    (hroom : 3 * half < recurrentSlots free recurrent scratch) :
    fitSlots requested free recurrent scratch (2 * half) =
      .ok (min requested (recurrentSlots free recurrent scratch - 2 * half)) := by
  have hle := hfirst.covers
  have hfitted : fittedAt requested free recurrent scratch (2 * half) =
      min requested (recurrentSlots free recurrent scratch - 2 * half) := by
    unfold fittedAt
    omega
  have hstable : SmallestCover batchBuckets (fittedAt requested free recurrent scratch (2 * half)) (2 * half) := by
    rw [hfitted]
    refine hfirst.shrink (Nat.min_le_left _ _) fun other hin hlt => ?_
    have hother := hgap other hin hlt
    omega
  rw [fitSlots_stop hr hover hstable, hfitted]

/-- a first bucket at most half filled is left for the bucket of its leftover, which is then filled -/
theorem fitSlots_left (hr : 0 < recurrent) (hover : 2 * half * recurrent < 2 ^ 64)
    (hhalf : half < requested) (hin : half ∈ batchBuckets)
    (hfits : 2 * half ≤ recurrentSlots free recurrent scratch)
    (hroom : recurrentSlots free recurrent scratch ≤ 3 * half)
    (hnext : SmallestCover batchBuckets (recurrentSlots free recurrent scratch - 2 * half) next) :
    fitSlots requested free recurrent scratch (2 * half) = .ok next := by
  have hpos := bucket_pos hin
  have hle : next ≤ half := hnext.least half hin (by omega)
  have hleft : fittedAt requested free recurrent scratch (2 * half) =
      recurrentSlots free recurrent scratch - 2 * half := by
    unfold fittedAt
    omega
  have hfilled : fittedAt requested free recurrent scratch next = next := by
    unfold fittedAt
    omega
  rw [fitSlots_jump hr hover (hleft.symm ▸ hnext) (by omega)]
  have hlower : next * recurrent < 2 ^ 64 :=
    lt_of_le_of_lt (Nat.mul_le_mul_right recurrent (by omega : next ≤ 2 * half)) hover
  rw [fitSlots_stop hr hlower (hfilled.symm ▸ SmallestCover.self hnext.mem), hfilled]

/-- a first bucket that does not fit is left for one slot -/
theorem fitSlots_starved (hr : 0 < recurrent) (hover : 2 * half * recurrent < 2 ^ 64) (hpos : 0 < half)
    (hhalf : half < requested) (hroom : recurrentSlots free recurrent scratch < 2 * half) :
    fitSlots requested free recurrent scratch (2 * half) =
      .ok (min 1 (recurrentSlots free recurrent scratch - 1)) := by
  have hnone : fittedAt requested free recurrent scratch (2 * half) = 0 := by
    unfold fittedAt
    omega
  have hone : SmallestCover batchBuckets 0 1 := ⟨by decide, by decide, fun _ hin _ => bucket_pos hin⟩
  rw [fitSlots_jump hr hover (hnone.symm ▸ hone) (by omega)]
  have hlower : 1 * recurrent < 2 ^ 64 :=
    lt_of_le_of_lt (Nat.mul_le_mul_right recurrent (by omega : 1 ≤ 2 * half)) hover
  rw [fitSlots_one hr hlower]
  congr 1
  unfold fittedAt
  omega

/-! ## What fits -/

/-- the states of a batch, of its bucket's slots, the runtime reserve and the scratch all fit -/
def Fits (free recurrent scratch m : ℕ) : Prop :=
  ∃ bucket, bucketFor m = .ok bucket ∧
    (bucket + m) * recurrent + tpRuntimeMemoryReserveBytes + scratch ≤ free

/-- a batch within the request that fits, unless it is empty -/
structure FitBatch (requested free recurrent scratch m : ℕ) : Prop where
  within : m ≤ requested
  fits : 0 < m → Fits free recurrent scratch m

/-- the largest batch that the request, the buckets and the memory allow -/
structure LargestFit (requested free recurrent scratch m : ℕ) : Prop extends
    FitBatch requested free recurrent scratch m where
  largest : ∀ n ≤ requested, n ≤ 64 → Fits free recurrent scratch n → n ≤ m

theorem fits_iff (hr : 0 < recurrent) (hcover : SmallestCover batchBuckets m bucket) :
    Fits free recurrent scratch m ↔ bucket + m ≤ recurrentSlots free recurrent scratch := by
  have hpos := bucket_pos hcover.mem
  rw [le_recurrentSlots_iff hr (by omega)]
  constructor
  · rintro ⟨other, hother, hle⟩
    rwa [← (bucketFor_eq_ok_iff.1 hother).unique hcover]
  · exact fun hle => ⟨bucket, bucketFor_eq_ok_iff.2 hcover, hle⟩

/-- a batch that fills its bucket fits twice over -/
theorem fits_bucket (hr : 0 < recurrent) (hin : bucket ∈ batchBuckets)
    (h : 2 * bucket ≤ recurrentSlots free recurrent scratch) : Fits free recurrent scratch bucket := by
  rw [fits_iff hr (SmallestCover.self hin)]
  omega

/-- a batch above the half bucket needs the whole one -/
theorem Fits.le_of_half (h : Fits free recurrent scratch n) (hr : 0 < recurrent)
    (hfirst : SmallestCover batchBuckets requested (2 * half)) (hn : n ≤ requested) (hhalf : half < n)
    (hgap : ∀ other ∈ batchBuckets, other < 2 * half → other ≤ half) :
    2 * half + n ≤ recurrentSlots free recurrent scratch := by
  have hcover : SmallestCover batchBuckets n (2 * half) :=
    hfirst.shrink hn fun other hin hlt => lt_of_le_of_lt (hgap other hin hlt) hhalf
  exact (fits_iff hr hcover).1 h

/-! ## The batch of each branch -/

/-- a batch never takes more than half of the slots left by a smallest bucket -/
theorem Fits.le_slots (h : Fits free recurrent scratch n) (hr : 0 < recurrent) :
    2 * n ≤ recurrentSlots free recurrent scratch ∧ n + 1 ≤ recurrentSlots free recurrent scratch := by
  obtain ⟨bucket, hbucket, hle⟩ := h
  have hcover := bucketFor_eq_ok_iff.1 hbucket
  have hcovers := hcover.covers
  have hpos := bucket_pos hcover.mem
  have hslots := (fits_iff hr hcover).1 ⟨bucket, hbucket, hle⟩
  omega

theorem fittedAt_one_largest (hr : 0 < recurrent) (hone : requested ≤ 1) :
    LargestFit requested free recurrent scratch (fittedAt requested free recurrent scratch 1) := by
  refine ⟨⟨by unfold fittedAt; omega, fun hpos => ?_⟩, fun n hn _ hfit => ?_⟩
  · have hm : fittedAt requested free recurrent scratch 1 = 1 := by
      unfold fittedAt at hpos ⊢
      omega
    rw [hm]
    unfold fittedAt at hpos
    exact fits_bucket hr (by decide) (by omega)
  · have hslots := hfit.le_slots hr
    unfold fittedAt
    omega

theorem kept_largest (hr : 0 < recurrent) (hfirst : SmallestCover batchBuckets requested (2 * half))
    (hhalf : half < requested) (hgap : ∀ other ∈ batchBuckets, other < 2 * half → other ≤ half)
    (hroom : 3 * half < recurrentSlots free recurrent scratch) :
    LargestFit requested free recurrent scratch
      (min requested (recurrentSlots free recurrent scratch - 2 * half)) := by
  have habove : half < min requested (recurrentSlots free recurrent scratch - 2 * half) := by omega
  have hcover : SmallestCover batchBuckets (min requested (recurrentSlots free recurrent scratch - 2 * half))
      (2 * half) :=
    hfirst.shrink (Nat.min_le_left _ _) fun other hin hlt => lt_of_le_of_lt (hgap other hin hlt) habove
  refine ⟨⟨Nat.min_le_left _ _, fun _ => (fits_iff hr hcover).2 (by omega)⟩, fun n hn _ hfit => ?_⟩
  by_contra hlt
  have hslots := hfit.le_of_half hr hfirst hn (habove.trans (not_le.1 hlt)) hgap
  omega

theorem left_fits (hr : 0 < recurrent) (hhalf : half < requested) (hin : half ∈ batchBuckets)
    (hfits : 2 * half ≤ recurrentSlots free recurrent scratch)
    (hroom : recurrentSlots free recurrent scratch ≤ 3 * half)
    (hnext : SmallestCover batchBuckets (recurrentSlots free recurrent scratch - 2 * half) next) :
    FitBatch requested free recurrent scratch next := by
  have hle : next ≤ half := hnext.least half hin (by omega)
  exact ⟨by omega, fun _ => fits_bucket hr hnext.mem (by omega)⟩

theorem left_largest_iff (hr : 0 < recurrent) (hfirst : SmallestCover batchBuckets requested (2 * half))
    (hhalf : half < requested) (hin : half ∈ batchBuckets)
    (hgap : ∀ other ∈ batchBuckets, other < 2 * half → other ≤ half)
    (hfits : 2 * half ≤ recurrentSlots free recurrent scratch)
    (hroom : recurrentSlots free recurrent scratch ≤ 3 * half)
    (hnext : SmallestCover batchBuckets (recurrentSlots free recurrent scratch - 2 * half) next) :
    LargestFit requested free recurrent scratch next ↔ next = half := by
  have hle : next ≤ half := hnext.least half hin (by omega)
  constructor
  · intro hlargest
    exact le_antisymm hle (hlargest.largest half hhalf.le (bucket_le_largest hin) (fits_bucket hr hin hfits))
  · rintro rfl
    refine ⟨left_fits hr hhalf hin hfits hroom hnext, fun n hn _ hfit => ?_⟩
    by_contra hlt
    have hslots := hfit.le_of_half hr hfirst hn (not_le.1 hlt) hgap
    omega

/-- the leftover fills the half bucket when it reaches past its quarter -/
theorem next_eq_half_iff (hin : half ∈ batchBuckets) (hroom : m ≤ half) (hnext : SmallestCover batchBuckets m next) :
    next = half ↔ half = 1 ∨ half / 2 < m := by
  have hle : next ≤ half := hnext.least half hin hroom
  have hpos := bucket_pos hnext.mem
  rcases bucket_double hin with rfl | ⟨quarter, hquarter, rfl, hgap⟩
  · omega
  · have hcovers := hnext.covers
    constructor
    · intro heq
      by_contra hno
      have hdown := hnext.least quarter hquarter (by omega)
      omega
    · intro habove
      by_contra hne
      have hdown := hgap next hnext.mem (by omega)
      omega

theorem starved_fits (hr : 0 < recurrent) (hpos : 0 < half) (hhalf : half < requested) :
    FitBatch requested free recurrent scratch (min 1 (recurrentSlots free recurrent scratch - 1)) := by
  refine ⟨by omega, fun hm => ?_⟩
  have hone : min 1 (recurrentSlots free recurrent scratch - 1) = 1 := by omega
  rw [hone]
  exact fits_bucket hr (by decide) (by omega)

theorem starved_largest_iff (hr : 0 < recurrent) (hpos : 0 < half) (hhalf : half < requested) :
    LargestFit requested free recurrent scratch (min 1 (recurrentSlots free recurrent scratch - 1)) ↔
      recurrentSlots free recurrent scratch ≤ 3 := by
  constructor
  · intro hlargest
    by_contra hroom
    have htwo := hlargest.largest 2 (by omega) (by decide) (fits_bucket hr (by decide) (by omega))
    omega
  · intro hroom
    refine ⟨starved_fits hr hpos hhalf, fun n _ _ hfit => ?_⟩
    have hslots := hfit.le_slots hr
    omega

/-! ## The batch found -/

theorem fitMaxBatch_graph (hbucket : bucketFor requested = .ok bucket) :
    fitMaxBatch true requested free recurrent scratch = fitSlots requested free recurrent scratch bucket := by
  simp only [fitMaxBatch, if_true, hbucket]
  rfl

/-- the walk from the first bucket: it ends with a batch that fits, the largest one when it does not overshoot -/
theorem fitMaxBatch_walk (free scratch : ℕ) (hr : 0 < recurrent) (hcover : SmallestCover batchBuckets requested bucket)
    (hover : bucket * recurrent < 2 ^ 64) :
    ∃ m, fitMaxBatch true requested free recurrent scratch = .ok m ∧
      FitBatch requested free recurrent scratch m ∧
      (LargestFit requested free recurrent scratch m ↔
        bucket ≤ 2 ∨ recurrentSlots free recurrent scratch ≤ 3 ∨
          bucket + bucket / 4 + 1 ≤ recurrentSlots free recurrent scratch) := by
  rw [fitMaxBatch_graph (bucketFor_eq_ok_iff.2 hcover)]
  rcases bucket_double hcover.mem with rfl | ⟨half, hin, rfl, hgap⟩
  · have hlargest : LargestFit requested free recurrent scratch (fittedAt requested free recurrent scratch 1) :=
      fittedAt_one_largest hr hcover.covers
    exact ⟨_, fitSlots_one hr hover, hlargest.toFitBatch, fun _ => .inl (by decide), fun _ => hlargest⟩
  have hpos := bucket_pos hin
  have hhalf : half < requested := by
    by_contra hle
    have hdown := hcover.least half hin (not_lt.1 hle)
    omega
  by_cases hkept : 3 * half < recurrentSlots free recurrent scratch
  · have hlargest := kept_largest hr hcover hhalf hgap hkept
    exact ⟨_, fitSlots_kept hr hover hcover hhalf hgap hkept, hlargest.toFitBatch,
      fun _ => .inr (.inr (by omega)), fun _ => hlargest⟩
  have hroom := not_lt.1 hkept
  by_cases hfits : 2 * half ≤ recurrentSlots free recurrent scratch
  · obtain ⟨next, hfound⟩ := bucketFor_total
      (by have := bucket_le_largest hin; omega : recurrentSlots free recurrent scratch - 2 * half ≤ 64)
    have hnext := bucketFor_eq_ok_iff.1 hfound
    refine ⟨next, fitSlots_left hr hover hhalf hin hfits hroom hnext,
      left_fits hr hhalf hin hfits hroom hnext, ?_⟩
    rw [left_largest_iff hr hcover hhalf hin hgap hfits hroom hnext, next_eq_half_iff hin (by omega) hnext]
    omega
  · refine ⟨_, fitSlots_starved hr hover hpos hhalf (not_le.1 hfits), starved_fits hr hpos hhalf, ?_⟩
    rw [starved_largest_iff hr hpos hhalf]
    omega

/-- **The walk ends with a batch that fits.** -/
theorem fitMaxBatch_fits (hrequested : requested ≤ 64) (hr : 0 < recurrent)
    (hover : ∀ bucket, bucketFor requested = .ok bucket → bucket * recurrent < 2 ^ 64) :
    ∃ m, fitMaxBatch true requested free recurrent scratch = .ok m ∧
      FitBatch requested free recurrent scratch m := by
  obtain ⟨bucket, hbucket⟩ := bucketFor_total hrequested
  obtain ⟨m, hm, hfits, _⟩ := fitMaxBatch_walk free scratch hr
    (bucketFor_eq_ok_iff.1 hbucket) (hover bucket hbucket)
  exact ⟨m, hm, hfits⟩

/-- **The batch found is the largest that fits exactly when the first bucket does not overshoot.** With the slots of
the first bucket reserved, either more than a quarter of the bucket is left, or not even two requests fit at all; the
two smallest buckets cannot overshoot. -/
theorem fitMaxBatch_largest_iff (requested free recurrent scratch : ℕ) (hr : 0 < recurrent)
    (hover : ∀ bucket, bucketFor requested = .ok bucket → bucket * recurrent < 2 ^ 64) :
    (∃ m, fitMaxBatch true requested free recurrent scratch = .ok m ∧
        LargestFit requested free recurrent scratch m) ↔
      ∃ bucket, bucketFor requested = .ok bucket ∧
        (bucket ≤ 2 ∨ free < 4 * recurrent + tpRuntimeMemoryReserveBytes + scratch ∨
          (bucket + bucket / 4 + 1) * recurrent + tpRuntimeMemoryReserveBytes + scratch ≤ free) := by
  cases hbucket : bucketFor requested with
  | error message => simp [fitMaxBatch, hbucket, bind, Except.bind]
  | ok bucket =>
    obtain ⟨m, hm, _, hlargest⟩ := fitMaxBatch_walk free scratch hr
      (bucketFor_eq_ok_iff.1 hbucket) (hover bucket hbucket)
    have hfour := @le_recurrentSlots_iff free recurrent scratch 4 hr (by decide)
    have hstarved : recurrentSlots free recurrent scratch ≤ 3 ↔
        free < 4 * recurrent + tpRuntimeMemoryReserveBytes + scratch := by omega
    rw [le_recurrentSlots_iff hr (Nat.succ_pos _), hstarved] at hlargest
    constructor
    · rintro ⟨found, hfound, hfit⟩
      obtain rfl : m = found := Except.ok.inj (hm.symm.trans hfound)
      exact ⟨bucket, rfl, hlargest.1 hfit⟩
    · rintro ⟨other, hother, hcond⟩
      obtain rfl : bucket = other := Except.ok.inj hother
      exact ⟨m, hm, hlargest.2 hcond⟩

theorem fitMaxBatch_largest_sixtyFour :
    ∃ m, fitMaxBatch true 64 (200 * 2 ^ 20 + 2 ^ 29) (2 ^ 20) 0 = .ok m ∧
      LargestFit 64 (200 * 2 ^ 20 + 2 ^ 29) (2 ^ 20) 0 m :=
  (fitMaxBatch_largest_iff 64 (200 * 2 ^ 20 + 2 ^ 29) (2 ^ 20) 0 (by decide) (by
    intro bucket hbucket
    have hle := bucket_le_largest (bucketFor_eq_ok_iff.1 hbucket).mem
    omega)).2 ⟨64, by decide, by decide⟩

/-- room for 70 states: after 64 slots six are left, so eight slots are kept although 32 fit -/
theorem fitMaxBatch_overshoots :
    fitMaxBatch true 64 (70 * 2 ^ 20 + 2 ^ 29) (2 ^ 20) 0 = .ok 8 ∧
      Fits (70 * 2 ^ 20 + 2 ^ 29) (2 ^ 20) 0 32 ∧
      ¬ ∃ m, fitMaxBatch true 64 (70 * 2 ^ 20 + 2 ^ 29) (2 ^ 20) 0 = .ok m ∧
        LargestFit 64 (70 * 2 ^ 20 + 2 ^ 29) (2 ^ 20) 0 m := by
  have hrun : fitMaxBatch true 64 (70 * 2 ^ 20 + 2 ^ 29) (2 ^ 20) 0 = .ok 8 := by
    have hsix : SmallestCover batchBuckets 6 8 := ⟨by decide, by decide, by decide⟩
    rw [fitMaxBatch_graph (by decide : bucketFor 64 = .ok (2 * 32))]
    exact fitSlots_left (by decide) (by decide) (by decide) (by decide) (by decide) (by decide) hsix
  have hfits : Fits (70 * 2 ^ 20 + 2 ^ 29) (2 ^ 20) 0 32 := ⟨32, by decide, by decide⟩
  refine ⟨hrun, hfits, ?_⟩
  rintro ⟨m, hm, hlargest⟩
  obtain rfl : 8 = m := Except.ok.inj (hrun.symm.trans hm)
  exact absurd (hlargest.largest 32 (by decide) (by decide) hfits) (by decide)

end Pegainfer.Qwen35
