/-
The arenas a rank registers for offload, and what their validation promises of the byte ranges of blocks.

An arena holds `numBlocks` blocks of `segments` segments; all its numbers are machine words. `validateArenas` computes a
block's extent and the last block's reach by wrapping multiplication and addition.
- `ArenaSpec.grid`: where segment `j` of block `i` lies, by the strides' meaning.
- `ArenaSpec.Sound`: every such range is inside the arena and no two overlap.
- `validateArenas_sound_iff`: accepted arenas are sound just when no reach wraps and the segments beyond the two that
  are checked are apart.
-/
import Mathlib.Tactic
import Pegainfer.Lib.Strided

namespace Pegainfer.KvStore

open Pegainfer.Lib

/-! ## Model -/

inductive EngineError
  | invalidArgument (message : String)
deriving DecidableEq, Repr

/-- one strided arena of a rank -/
structure ArenaSpec where
  name : String
  sizeBytes : UInt64
  numBlocks : UInt64
  segmentBytes : UInt64
  segments : UInt64
  kvStrideBytes : UInt64
  blockStrideBytes : UInt64
deriving DecidableEq

namespace ArenaSpec

def extent (a : ArenaSpec) : UInt64 := (a.segments - 1) * a.kvStrideBytes + a.segmentBytes

def lastBlockReach (a : ArenaSpec) : UInt64 := (a.numBlocks - 1) * a.blockStrideBytes + a.extent

end ArenaSpec

/-- the checks of one arena whose name is new -/
def validateArena (numBlocks : UInt64) (a : ArenaSpec) : Except EngineError Unit :=
  if a.numBlocks ≠ numBlocks then
    .error (.invalidArgument s!"arena {a.name.quote} has num_blocks={a.numBlocks} but the rank's first arena has {numBlocks}: all arenas are indexed by the same pool block ids")
  else if a.numBlocks = 0 ∨ a.segmentBytes = 0 ∨ a.segments = 0 then
    .error (.invalidArgument s!"arena {a.name.quote}: num_blocks, segment_bytes and segments must all be non-zero")
  else if a.segments = 2 ∧ a.kvStrideBytes < a.segmentBytes then
    .error (.invalidArgument s!"arena {a.name.quote}: two-segment (K/V-split) layout needs kv_stride_bytes ({a.kvStrideBytes}) >= segment_bytes ({a.segmentBytes}) — V copies start kv_stride_bytes into the block")
  else if a.blockStrideBytes < a.extent then
    .error (.invalidArgument s!"arena {a.name.quote}: block_stride_bytes ({a.blockStrideBytes}) must fit one block's extent ({a.extent})")
  else if a.sizeBytes < a.lastBlockReach then
    .error (.invalidArgument s!"arena {a.name.quote}: size_bytes ({a.sizeBytes}) does not cover the last block's strided reach ({a.lastBlockReach})")
  else .ok ()

/-- the loop over the arenas, with the names seen so far -/
def validateEach (numBlocks : UInt64) (names : List String) : List ArenaSpec → Except EngineError Unit
  | [] => .ok ()
  | a :: arenas =>
    if a.name ∈ names then
      .error (.invalidArgument s!"duplicate arena name {a.name.quote} in one rank's registration")
    else
      match validateArena numBlocks a with
      | .error e => .error e
      | .ok () => validateEach numBlocks (a.name :: names) arenas

def validateArenas : List ArenaSpec → Except EngineError Unit
  | [] => .error (.invalidArgument "rank_with_offload requires at least one arena")
  | first :: arenas => validateEach first.numBlocks [] (first :: arenas)

/-! ## The byte ranges -/

namespace ArenaSpec

/-- segment `j` of block `i` lies `i` block strides and `j` segment strides into the arena -/
def grid (a : ArenaSpec) : Strided where
  rows := a.numBlocks.toNat
  columns := a.segments.toNat
  size := a.segmentBytes.toNat
  inner := a.kvStrideBytes.toNat
  outer := a.blockStrideBytes.toNat

/-- every range of a block's segment is inside the arena, and those of different blocks or segments are disjoint -/
structure Sound (a : ArenaSpec) : Prop where
  inside : ∀ block < a.numBlocks.toNat, ∀ segment < a.segments.toNat,
    a.grid.cell block segment ⊆ Set.Ico 0 a.sizeBytes.toNat
  apart : a.grid.Apart

/-- the last block's reach is a machine word, and more than two segments are as far apart as they are long -/
structure Addressable (a : ArenaSpec) : Prop where
  reach : a.grid.reach < 2 ^ 64
  stride : 2 < a.segments.toNat → a.segmentBytes.toNat ≤ a.kvStrideBytes.toNat

/-- what an accepted arena passed -/
structure Checked (a : ArenaSpec) : Prop where
  blocks : 0 < a.numBlocks.toNat
  bytes : 0 < a.segmentBytes.toNat
  segments : 0 < a.segments.toNat
  split : a.segments.toNat = 2 → a.segmentBytes.toNat ≤ a.kvStrideBytes.toNat
  extent : a.extent.toNat ≤ a.blockStrideBytes.toNat
  size : a.lastBlockReach.toNat ≤ a.sizeBytes.toNat

theorem toNat_sub_one {x : UInt64} (h : 0 < x.toNat) : (x - 1).toNat = x.toNat - 1 :=
  UInt64.toNat_sub_of_le x 1 (UInt64.le_iff_toNat_le.2 h)

variable {a : ArenaSpec}

/-- without wrapping the extent is the grid's -/
theorem extent_exact (h : a.Checked) (hreach : a.grid.reach < 2 ^ 64) : a.extent.toNat = a.grid.extent := by
  have hle : a.grid.extent ≤ a.grid.reach := Nat.le_add_left _ _
  unfold ArenaSpec.extent
  rw [UInt64.toNat_add, UInt64.toNat_mul, toNat_sub_one h.segments, Nat.mod_add_mod]
  exact Nat.mod_eq_of_lt (lt_of_le_of_lt hle hreach)

theorem reach_exact (h : a.Checked) (hreach : a.grid.reach < 2 ^ 64) : a.lastBlockReach.toNat = a.grid.reach := by
  unfold lastBlockReach
  rw [UInt64.toNat_add, UInt64.toNat_mul, toNat_sub_one h.blocks, extent_exact h hreach, Nat.mod_add_mod]
  exact Nat.mod_eq_of_lt hreach

theorem sound_of_addressable (h : a.Checked) (ha : a.Addressable) : a.Sound := by
  have hextent := extent_exact h ha.reach
  refine ⟨fun block hblock segment hsegment x hx => ⟨Nat.zero_le x, ?_⟩, Strided.apart_of_fits ?_ fun hmany => ?_⟩
  · have hend : a.grid.start block segment + a.grid.size ≤ a.grid.reach := Strided.end_le_reach hblock hsegment
    have hsize := h.size
    rw [reach_exact h ha.reach] at hsize
    exact lt_of_lt_of_le hx.2 (hend.trans hsize)
  · exact hextent ▸ h.extent
  · -- two segments are checked, more are not
    rcases Nat.lt_or_ge 2 a.segments.toNat with hmore | htwo
    · exact ha.stride hmore
    · exact h.split (le_antisymm htwo hmany)

/-- the last byte of the last segment of the last block is inside the arena -/
theorem addressable_of_sound (h : a.Checked) (hs : a.Sound) : a.Addressable := by
  refine ⟨?_, fun hmore => Strided.inner_of_apart hs.apart h.blocks (lt_trans (by decide) hmore)⟩
  have hlast := hs.inside (a.numBlocks.toNat - 1) (Nat.sub_lt h.blocks Nat.one_pos) (a.segments.toNat - 1)
    (Nat.sub_lt h.segments Nat.one_pos)
  have hend : a.grid.start (a.numBlocks.toNat - 1) (a.segments.toNat - 1) + a.grid.size = a.grid.reach :=
    Strided.end_last
  have hbytes : 0 < a.grid.size := h.bytes
  have hmem : a.grid.reach - 1 ∈ a.grid.cell (a.numBlocks.toNat - 1) (a.segments.toNat - 1) := by
    unfold Strided.cell
    rw [hend]
    exact ⟨by omega, by omega⟩
  have hlt : a.grid.reach - 1 < a.sizeBytes.toNat := (hlast hmem).2
  have hword := a.sizeBytes.toNat_lt
  omega

theorem sound_iff (h : a.Checked) : a.Sound ↔ a.Addressable := ⟨addressable_of_sound h, sound_of_addressable h⟩

end ArenaSpec

/-! ## Validation -/

theorem validateArena_checked {numBlocks : UInt64} {a : ArenaSpec} (h : validateArena numBlocks a = .ok ()) :
    a.Checked := by
  unfold validateArena at h
  split_ifs at h with hblocks hzero hsplit hextent hsize
  rw [not_or, not_or] at hzero
  obtain ⟨hz, hb, hs⟩ := hzero
  refine ⟨?_, ?_, ?_, fun htwo => ?_, ?_, ?_⟩
  · exact Nat.pos_of_ne_zero fun h0 => hz (UInt64.toNat_inj.1 h0)
  · exact Nat.pos_of_ne_zero fun h0 => hb (UInt64.toNat_inj.1 h0)
  · exact Nat.pos_of_ne_zero fun h0 => hs (UInt64.toNat_inj.1 h0)
  · have hne : ¬a.kvStrideBytes < a.segmentBytes := fun hlt => hsplit ⟨UInt64.toNat_inj.1 htwo, hlt⟩
    exact UInt64.le_iff_toNat_le.1 (UInt64.not_lt.1 hne)
  · exact UInt64.le_iff_toNat_le.1 (UInt64.not_lt.1 hextent)
  · exact UInt64.le_iff_toNat_le.1 (UInt64.not_lt.1 hsize)

theorem validateEach_checked {numBlocks : UInt64} (arenas : List ArenaSpec) :
    ∀ names, validateEach numBlocks names arenas = .ok () → ∀ a ∈ arenas, a.Checked := by
  induction arenas with
  | nil => exact fun _ _ a ha => absurd ha List.not_mem_nil
  | cons a arenas ih =>
    intro names h
    unfold validateEach at h
    split_ifs at h with hname
    cases ha : validateArena numBlocks a with
    | error e =>
      rw [ha] at h
      cases h
    | ok u =>
      rw [ha] at h
      intro b hb
      rcases List.mem_cons.1 hb with rfl | hb
      · exact validateArena_checked ha
      · exact ih _ h b hb

theorem validateArenas_checked {arenas : List ArenaSpec} (h : validateArenas arenas = .ok ()) :
    ∀ a ∈ arenas, a.Checked := by
  cases arenas with
  | nil => cases h
  | cons first arenas => exact validateEach_checked _ [] h

/-- **Validated arenas.** The ranges of all blocks and segments are inside their arenas and disjoint just when no
arena's reach wraps and arenas of more than two segments keep them apart. -/
theorem validateArenas_sound_iff (arenas : List ArenaSpec) (h : validateArenas arenas = .ok ()) :
    (∀ a ∈ arenas, a.Sound) ↔ ∀ a ∈ arenas, a.Addressable :=
  forall₂_congr fun a ha => ArenaSpec.sound_iff (validateArenas_checked h a ha)

/-- two arenas of a paged pool: the latents, and a split K/V cache -/
def pagedArenas : List ArenaSpec :=
  [⟨"layer0.mla", 4096, 4, 1024, 1, 0, 1024⟩, ⟨"layer0.kv", 8192, 4, 512, 2, 1024, 2048⟩]

theorem validateArenas_sound_paged : validateArenas pagedArenas = .ok () ∧ (∀ a ∈ pagedArenas, a.Sound) :=
  ⟨by decide, (validateArenas_sound_iff pagedArenas (by decide)).2 fun a ha => by
    simp only [pagedArenas, List.mem_cons, List.not_mem_nil, or_false] at ha
    rcases ha with rfl | rfl <;> exact ⟨by decide, by decide⟩⟩

/-- two blocks of a split cache whose segment stride wraps the extent to nothing -/
def wrappedArena : ArenaSpec := ⟨"layer0.kv", 0, 2, 8, 2, 18446744073709551608, 0⟩

/-- an empty allocation passes for two blocks whose segment stride is eight below `2 ^ 64`, and three segments that
all start at the block's own start pass too -/
theorem validateArenas_unsound :
    (validateArenas [wrappedArena] = .ok () ∧ ¬ wrappedArena.Sound) ∧
      ∃ a : ArenaSpec, validateArenas [a] = .ok () ∧ a.grid.reach < 2 ^ 64 ∧ ¬ a.Sound := by
  refine ⟨⟨by decide, fun h => ?_⟩, ⟨"layer0.kv", 8, 1, 8, 3, 0, 8⟩, by decide, by decide, fun h => ?_⟩
  · have hbyte : 0 ∈ wrappedArena.grid.cell 0 0 := ⟨by decide, by decide⟩
    exact absurd (h.inside 0 (by decide) 0 (by decide) hbyte).2 (by decide)
  · exact absurd (Strided.inner_of_apart h.apart (by decide) (by decide)) (by decide)

end Pegainfer.KvStore
