/-
How a prompt is split over the ranks of a context-parallel prefill.

The in-process lane splits evenly, the fleet whale by a cost model in floating point. Only the model's integer answer
enters the split, which clamps it; here it is an arbitrary function, so nothing below depends on what it answers.
- `k3WhaleSegments_tiles`: a split is contiguous and stays within the prompt.
- `k3WhaleAdmits_partition`: an admitted split is a partition with every segment within its bounds.
- `k3CpSegments_partition`: the even split always is one.
- `cp_segmentation_exact`: these and the gang's block.
-/
import Mathlib.Tactic
import Pegainfer.Lib.Ladder
import Pegainfer.Lib.Tiling
import Pegainfer.K3.Whale

namespace Pegainfer.K3

open Pegainfer.Lib

/-! ## Chunk buckets -/

def k3BatchBuckets : List ℕ := [1, 2, 4, 8, 16, 32, 48, 64, 96, 128]

def k3PrefillBuckets : List ℕ := [256, 512, 1024, 2048, 4224, 8448, 16896]

def k3MaxChunk : ℕ := 16896

/-- the compiled bucket a chunk's tokens are rounded up to -/
def k3ChunkBucket (rows : ℕ) : Except String ℕ :=
  if rows = 0 then .error "K3 chunk needs at least one row"
  else
    match covering (k3BatchBuckets ++ k3PrefillBuckets) rows with
    | some bucket => .ok bucket
    | none => .error s!"K3 chunk of {rows} tokens exceeds the largest bucket {k3MaxChunk}"

/-! ## The whale's split -/

/-- the tokens the leveled time budget affords a rank from its start on, rounded down -/
abbrev CostModel := (total width chunkTokens rank start : ℕ) → ℕ

/-- no segment leaves the mean's bucket -/
def segmentCap (total width chunkTokens : ℕ) : ℕ :=
  match k3ChunkBucket ((total + width - 1) / width) with
  | .ok bucket => min bucket chunkTokens
  | .error _ => chunkTokens

def affordable (cost : CostModel) (total width chunkTokens rank start : ℕ) : ℕ :=
  min (cost total width chunkTokens rank start) (segmentCap total width chunkTokens)

/-- the last `ranksLeft` ranks' segments from `start` on; every later rank is left a token, the last takes the rest -/
def segmentsFrom (cost : CostModel) (total width chunkTokens : ℕ) : ℕ → ℕ → List (ℕ × ℕ)
  | 0, _ => []
  | ranksLeft + 1, start =>
    let remaining := total - start
    let len :=
      if ranksLeft = 0 then min remaining chunkTokens
      else
        let rank := width - (ranksLeft + 1)
        min (max (affordable cost total width chunkTokens rank start) 1) (remaining - ranksLeft)
    (start, len) :: segmentsFrom cost total width chunkTokens ranksLeft (start + len)

def k3WhaleSegments (cost : CostModel) : WhaleSegments := fun total width chunkTokens =>
  segmentsFrom cost total width chunkTokens width 0

/-! ## The even split -/

def k3ConvState : ℕ := 3

/-- every segment outspans the convolution window and fits one chunk -/
def k3CpAdmits (total cpSize chunkTokens : ℕ) : Bool :=
  let shortest := total / cpSize
  let longest := shortest + if total % cpSize = 0 then 0 else 1
  decide (k3ConvState < shortest) && decide (longest ≤ chunkTokens)

/-- the segments of `ranks` ranks from `rank` on, the first `extra` of all one token longer -/
def evenSegments (base extra : ℕ) : (ranks rank start : ℕ) → List (ℕ × ℕ)
  | 0, _, _ => []
  | ranks + 1, rank, start =>
    let len := base + if rank < extra then 1 else 0
    (start, len) :: evenSegments base extra ranks (rank + 1) (start + len)

def k3CpSegments (total cpSize : ℕ) : List (ℕ × ℕ) := evenSegments (total / cpSize) (total % cpSize) cpSize 0 0

/-! ## Partitions -/

/-- the segments split `[0, total)` over `width` ranks, nothing left out and nothing taken twice -/
structure Split (total width : ℕ) (segments : List (ℕ × ℕ)) : Prop where
  length : segments.length = width
  tiles : Tiles 0 segments total
  each : ∀ x < total, ∃! i : ℕ, ∃ segment : ℕ × ℕ, segments[i]? = some segment ∧ Spans segment x

variable {cost : CostModel} {total width chunkTokens : ℕ}

theorem partition_of_tiles {segments : List (ℕ × ℕ)} (hlength : segments.length = width)
    (htiles : Tiles 0 segments total) : Split total width segments :=
  ⟨hlength, htiles, fun x hx => htiles.existsUnique (Nat.zero_le x) hx⟩

theorem length_segmentsFrom : ∀ ranksLeft start,
    (segmentsFrom cost total width chunkTokens ranksLeft start).length = ranksLeft := by
  intro ranksLeft
  induction ranksLeft with
  | zero => exact fun _ => rfl
  | succ ranksLeft ih => exact fun start => congrArg Nat.succ (ih _)

/-- the clamps keep a rank's end within the prompt -/
theorem segmentsFrom_tiles : ∀ ranksLeft start, start ≤ total →
    ∃ stop ≤ total, Tiles start (segmentsFrom cost total width chunkTokens ranksLeft start) stop := by
  intro ranksLeft
  induction ranksLeft with
  | zero => exact fun start hle => ⟨start, hle, .nil start⟩
  | succ ranksLeft ih =>
    intro start hle
    rw [segmentsFrom]
    dsimp only
    split_ifs with hlast
    · have hlen : min (total - start) chunkTokens ≤ total - start := min_le_left _ _
      obtain ⟨stop, hstop, htiles⟩ := ih (start + min (total - start) chunkTokens) (by omega)
      exact ⟨stop, hstop, .cons start _ htiles⟩
    · have hlen : min (max (affordable cost total width chunkTokens (width - (ranksLeft + 1)) start) 1)
          (total - start - ranksLeft) ≤ total - start := (min_le_right _ _).trans (Nat.sub_le _ _)
      obtain ⟨stop, hstop, htiles⟩ := ih (start + min (max (affordable cost total width chunkTokens
        (width - (ranksLeft + 1)) start) 1) (total - start - ranksLeft)) (by omega)
      exact ⟨stop, hstop, .cons start _ htiles⟩

/-- **A split is contiguous and stays within the prompt.** -/
theorem k3WhaleSegments_tiles : (k3WhaleSegments cost total width chunkTokens).length = width ∧
    ∃ stop ≤ total, Tiles 0 (k3WhaleSegments cost total width chunkTokens) stop :=
  ⟨length_segmentsFrom width 0, segmentsFrom_tiles width 0 (Nat.zero_le _)⟩

/-- **An admitted split is a partition with every segment within its bounds.** -/
theorem k3WhaleAdmits_partition (h : k3WhaleAdmits (k3WhaleSegments cost) total width chunkTokens = true) :
    Split total width (k3WhaleSegments cost total width chunkTokens) ∧
      ∀ segment ∈ k3WhaleSegments cost total width chunkTokens,
        k3WhaleSegmentFloor ≤ segment.2 ∧ segment.2 ≤ chunkTokens := by
  unfold k3WhaleAdmits at h
  split_ifs at h with hfew
  dsimp only at h
  obtain ⟨hlast, hall⟩ := Bool.and_eq_true_iff.1 h
  obtain ⟨hlength, stop, -, htiles⟩ :
      (k3WhaleSegments cost total width chunkTokens).length = width ∧
        ∃ stop ≤ total, Tiles 0 (k3WhaleSegments cost total width chunkTokens) stop := k3WhaleSegments_tiles
  refine ⟨partition_of_tiles hlength ?_, fun segment hin => ?_⟩
  · rcases hend : (k3WhaleSegments cost total width chunkTokens).getLast? with _ | segment
    · rw [hend] at hlast
      exact absurd hlast Bool.false_ne_true
    · rw [hend] at hlast
      have hstop : stop = total := (htiles.getLast_end hend).symm.trans (beq_iff_eq.1 hlast)
      rwa [hstop] at htiles
  · have hbounds := List.all_eq_true.1 hall segment hin
    obtain ⟨hfloor, hchunk⟩ := Bool.and_eq_true_iff.1 hbounds
    exact ⟨of_decide_eq_true hfloor, of_decide_eq_true hchunk⟩

/-! ## The even split -/

theorem length_evenSegments {base extra : ℕ} : ∀ ranks rank start,
    (evenSegments base extra ranks rank start).length = ranks := by
  intro ranks
  induction ranks with
  | zero => exact fun _ _ => rfl
  | succ ranks ih => exact fun rank start => congrArg Nat.succ (ih _ _)

/-- so many of the ranks from `rank` on are still owed an extra token -/
theorem evenSegments_tiles {base extra : ℕ} : ∀ ranks rank start,
    Tiles start (evenSegments base extra ranks rank start) (start + ranks * base + min ranks (extra - rank)) := by
  intro ranks
  induction ranks with
  | zero =>
    intro rank start
    rw [Nat.zero_mul, Nat.zero_min]
    exact .nil start
  | succ ranks ih =>
    intro rank start
    have htail := ih (rank + 1) (start + (base + if rank < extra then 1 else 0))
    have hstop : start + (base + if rank < extra then 1 else 0) + ranks * base + min ranks (extra - (rank + 1)) =
        start + (ranks + 1) * base + min (ranks + 1) (extra - rank) := by
      rw [Nat.succ_mul]
      split_ifs with hextra
      · omega
      · omega
    rw [hstop] at htail
    exact .cons start _ htail

/-- a segment of the even split has the base length or one token more -/
theorem evenSegments_length {base extra : ℕ} {segment : ℕ × ℕ} : ∀ ranks rank start,
    segment ∈ evenSegments base extra ranks rank start →
      base ≤ segment.2 ∧ segment.2 ≤ base + if extra = 0 then 0 else 1 := by
  intro ranks
  induction ranks with
  | zero => exact fun _ _ hin => absurd hin List.not_mem_nil
  | succ ranks ih =>
    intro rank start hin
    rcases List.mem_cons.1 hin with rfl | hin
    · refine ⟨Nat.le_add_right _ _, Nat.add_le_add_left ?_ _⟩
      split_ifs with hextra hzero
      · omega
      · exact le_refl _
      · exact le_refl _
      · exact Nat.zero_le _
    · exact ih _ _ hin

/-- **The even split is a partition, with every segment within the bounds of an admitted prompt.** -/
theorem k3CpSegments_partition {cpSize : ℕ} (hsize : 0 < cpSize) :
    Split total cpSize (k3CpSegments total cpSize) ∧
      (k3CpAdmits total cpSize chunkTokens = true →
        ∀ segment ∈ k3CpSegments total cpSize, k3ConvState < segment.2 ∧ segment.2 ≤ chunkTokens) := by
  refine ⟨partition_of_tiles (length_evenSegments _ _ _) ?_, fun hadmits segment hin => ?_⟩
  · have htiles : Tiles 0 (k3CpSegments total cpSize)
        (0 + cpSize * (total / cpSize) + min cpSize (total % cpSize - 0)) := evenSegments_tiles cpSize 0 0
    rwa [Nat.sub_zero, min_eq_right (Nat.mod_lt _ hsize).le, Nat.zero_add, Nat.div_add_mod] at htiles
  · obtain ⟨hshortest, hlongest⟩ := Bool.and_eq_true_iff.1 hadmits
    obtain ⟨hlow, hhigh⟩ := evenSegments_length cpSize 0 0 hin
    exact ⟨(of_decide_eq_true hshortest).trans_le hlow, hhigh.trans (of_decide_eq_true hlongest)⟩

/-! ## The gang and the width -/

/-- a width the loop returns was asked for and admitted -/
theorem k3WhaleWidth_admits {segments : WhaleSegments} {world : ℕ}
    (h : k3WhaleWidth segments total world chunkTokens = some width) :
    k3WhaleAdmits segments total width chunkTokens = true := (shrinkWidth_some h).2.2

/-- `width` ranks of the world, the poster last -/
structure GangOf (poster width world : ℕ) (gang : List ℕ) : Prop where
  length : gang.length = width
  distinct : gang.Nodup
  world : ∀ rank ∈ gang, rank < world
  last : gang.getLast? = some poster

/-- **Context-parallel segmentation.** Whatever the cost model answers, a split is contiguous and within the prompt, an
admitted one is a partition within its bounds, the width returned is an admitted one, and the gang is a block of the
world that ends at the poster; the even split is a partition within its own bounds. -/
theorem cp_segmentation_exact (cost : CostModel) :
    (∀ world poster width, poster < world → 2 ≤ width → width ≤ world →
        GangOf poster width world (k3WhaleGang poster width world)) ∧
      (∀ total width chunkTokens, (k3WhaleSegments cost total width chunkTokens).length = width ∧
        ∃ stop ≤ total, Tiles 0 (k3WhaleSegments cost total width chunkTokens) stop) ∧
      (∀ total width chunkTokens, k3WhaleAdmits (k3WhaleSegments cost) total width chunkTokens = true →
        Split total width (k3WhaleSegments cost total width chunkTokens) ∧
          ∀ segment ∈ k3WhaleSegments cost total width chunkTokens,
            k3WhaleSegmentFloor ≤ segment.2 ∧ segment.2 ≤ chunkTokens) ∧
      (∀ total world chunkTokens width,
        k3WhaleWidth (k3WhaleSegments cost) total world chunkTokens = some width →
          k3WhaleAdmits (k3WhaleSegments cost) total width chunkTokens = true ∧ 2 ≤ width ∧ width ≤ world) ∧
      ∀ total cpSize chunkTokens, 0 < cpSize →
        Split total cpSize (k3CpSegments total cpSize) ∧
          (k3CpAdmits total cpSize chunkTokens = true →
            ∀ segment ∈ k3CpSegments total cpSize, k3ConvState < segment.2 ∧ segment.2 ≤ chunkTokens) :=
  ⟨fun _ _ _ hposter h2 hw => ⟨k3WhaleGang_length hposter h2 hw, k3WhaleGang_nodup, k3WhaleGang_lt hposter h2 hw,
      k3WhaleGang_getLast⟩,
    fun _ _ _ => k3WhaleSegments_tiles, fun _ _ _ h => k3WhaleAdmits_partition h,
    fun _ _ _ _ h => ⟨k3WhaleWidth_admits h, k3WhaleWidth_le h⟩, fun _ _ _ hsize => k3CpSegments_partition hsize⟩

end Pegainfer.K3
