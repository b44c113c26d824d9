/-
No double allocation: every block of the pool is in exactly one place.

A block is free, inactive, or in somebody's possession: an exclusive guard, a shared one, a duplicate that keeps it alive,
or a drop that is under way.
- `possessed_iff`: possession, read off the slot.
- `Partitioned`: the three places, exclusive mutable possession, the padding block, the counts.
- `blocks_partitioned`: every reached state is `Partitioned`.
-/
import Mathlib.Tactic
import Pegainfer.KvStore.Blocks

set_option linter.unusedSectionVars false

namespace Pegainfer.KvStore.World

open Pegainfer.Kvbm Pegainfer.Lib

variable {H : Type} [DecidableEq H] [BlockHash H]

/-- somebody holds block `b` -/
inductive Possessed (w : World H) (b : BlockId) : Prop
  | mutable (h : b ∈ w.holdings.1)
  | complete (k : H) (h : (b, k) ∈ w.holdings.2.1)
  | shared (x : ImmutableBlock H) (h : x ∈ w.holdings.2.2) (hb : x.blockId = b)
  /-- a duplicate's object keeps its primary alive -/
  | keptAlive (x y : ImmutableBlockInner H) (hx : x ∈ w.pool.store.inners) (hy : y ∈ w.pool.store.inners)
    (hk : y.primaryKeepalive = some x.ptr) (hb : x.blockId = b)
  /-- the last reference is gone, the slot is not released yet -/
  | dropping (x : ImmutableBlockInner H) (hx : x ∈ w.pool.store.inners) (hs : w.pool.store.strong x.ptr = 0)
    (hb : w.pool.store.slots b = .primary x.seqHash x.ptr ∨ w.pool.store.slots b = .duplicate x.seqHash x.ptr)

/-! ## Possession and slots -/

theorem strong_shared {w : World H} (h : w.Accounted) {x : ImmutableBlock H} (hx : x ∈ w.holdings.2.2) :
    0 < w.pool.store.strong x.ptr := by
  have hpos := Multiset.count_pos.2 (Multiset.mem_map_of_mem ImmutableBlock.ptr hx)
  have := h.refs.strong_eq x.ptr
  omega

theorem strong_keptAlive {w : World H} (h : w.Accounted) {x y : ImmutableBlockInner H}
    (hy : y ∈ w.pool.store.inners) (hk : y.primaryKeepalive = some x.ptr) : 0 < w.pool.store.strong x.ptr := by
  have hmem : x.ptr ∈ w.pool.store.inners.filterMap (·.primaryKeepalive) := List.mem_filterMap.2 ⟨y, hy, hk⟩
  have hpos := List.count_pos_iff.2 hmem
  have := h.refs.strong_eq x.ptr
  omega

/-- a shared guard's slot is registered under its hash -/
theorem slot_shared {w : World H} (h : w.Accounted) {x : ImmutableBlock H} (hx : x ∈ w.holdings.2.2) :
    w.pool.store.slots x.blockId = .primary x.seqHash x.ptr ∨
      w.pool.store.slots x.blockId = .duplicate x.seqHash x.ptr := by
  obtain ⟨q, hq⟩ := h.refs.shared_inner x hx
  exact h.refs.slot_of_strong hq (strong_shared h hx)

/-- the object of a registered slot is held, keeps something alive, or is being dropped -/
theorem possessed_of_inner {w : World H} (h : w.Accounted) {x : ImmutableBlockInner H}
    (hx : x ∈ w.pool.store.inners)
    (hb : w.pool.store.slots x.blockId = .primary x.seqHash x.ptr ∨
      w.pool.store.slots x.blockId = .duplicate x.seqHash x.ptr) : w.Possessed x.blockId := by
  rcases Nat.eq_zero_or_pos (w.pool.store.strong x.ptr) with hzero | hpos
  · exact .dropping x hx hzero hb
  · rw [h.refs.strong_eq] at hpos
    by_cases hg : 0 < (w.holdings.2.2.map ImmutableBlock.ptr).count x.ptr
    · obtain ⟨y, hy, hptr⟩ := Multiset.mem_map.1 (Multiset.count_pos.1 hg)
      obtain ⟨q, hq⟩ := h.refs.shared_inner y hy
      have heq := h.refs.inner_unique hq hx hptr
      exact .shared y hy (congrArg ImmutableBlockInner.blockId heq)
    · have hk : 0 < (w.pool.store.inners.filterMap (·.primaryKeepalive)).count x.ptr := by omega
      obtain ⟨y, hy, hptr⟩ := List.mem_filterMap.1 (List.count_pos_iff.1 hk)
      exact .keptAlive x y hx hy hptr rfl

theorem possessed_iff {w : World H} (h : w.Accounted) (b : BlockId) :
    w.Possessed b ↔ w.pool.store.slots b ≠ .reset ∧ ∀ k, w.pool.store.slots b ≠ .inactive k := by
  constructor
  · rintro (hm | ⟨k, hc⟩ | ⟨x, hx, rfl⟩ | ⟨x, y, hx, hy, hk, rfl⟩ | ⟨x, -, -, hb⟩)
    · simp [(h.slots.mutable_iff b).1 hm]
    · simp [(h.slots.staged_iff b k).1 hc]
    · rcases slot_shared h hx with hb | hb <;> simp [hb]
    · rcases h.refs.slot_of_strong hx (strong_keptAlive h hy hk) with hb | hb <;> simp [hb]
    · rcases hb with hb | hb <;> simp [hb]
  · rintro ⟨hreset, hinactive⟩
    cases hb : w.pool.store.slots b with
    | reset => exact absurd hb hreset
    | inactive k => exact absurd hb (hinactive k)
    | «mutable» => exact .mutable ((h.slots.mutable_iff b).2 hb)
    | staged k => exact .complete k ((h.slots.staged_iff b k).2 hb)
    | primary k p => exact possessed_of_inner h (h.refs.primary_inner b k p hb) (Or.inl hb)
    | duplicate k p =>
      obtain ⟨q, hq⟩ := (h.refs.duplicate_iff b k p).2 hb
      exact possessed_of_inner h hq (Or.inr hb)

theorem mem_inactive_iff {w : World H} (h : w.Accounted) (b : BlockId) :
    b ∈ w.pool.store.inactive.map Prod.snd ↔ ∃ k, w.pool.store.slots b = .inactive k := by
  simp only [List.mem_map, Prod.exists, exists_eq_right, h.slots.inactive_iff]

/-! ## The partition -/

/-- where the blocks of a pool of `numBlocks` are -/
structure Partitioned [Inhabited H] (w : World H) (numBlocks : ℕ) : Prop where
  /-- a block is in one of the three places -/
  somewhere : ∀ b < numBlocks, b ∈ w.pool.store.free ∨ b ∈ w.pool.store.inactive.map Prod.snd ∨ w.Possessed b
  free_alone : ∀ b ∈ w.pool.store.free, b < numBlocks ∧ b ∉ w.pool.store.inactive.map Prod.snd ∧ ¬ w.Possessed b
  inactive_alone : ∀ b ∈ w.pool.store.inactive.map Prod.snd,
    b < numBlocks ∧ b ∉ w.pool.store.free ∧ ¬ w.Possessed b
  possessed_alone : ∀ b, w.Possessed b →
    b < numBlocks ∧ b ∉ w.pool.store.free ∧ b ∉ w.pool.store.inactive.map Prod.snd
  /-- neither list names a block twice -/
  nodup : w.pool.store.free.Nodup ∧ (w.pool.store.inactive.map Prod.snd).Nodup
  /-- a block is held mutable once, and then neither staged, registered nor shared -/
  mutable_once : ∀ b, w.holdings.1.count b ≤ 1
  mutable_alone : ∀ b ∈ w.holdings.1, (∀ k, (b, k) ∉ w.holdings.2.1) ∧ (∀ x ∈ w.holdings.2.2, x.blockId ≠ b) ∧
    (∀ k, w.pool.store.activeByHash k ≠ some b) ∧ ∀ k, (k, b) ∉ w.pool.store.inactive
  /-- the padding block is out of both lists, and nobody gets it -/
  padding_kept : w.pool.paddingBlockId ∉ w.pool.store.free ∧
    w.pool.paddingBlockId ∉ w.pool.store.inactive.map Prod.snd
  padding_exclusive : w.pool.paddingBlockId ∉ w.handedOut.1 ∧ ∀ k, (w.pool.paddingBlockId, k) ∉ w.handedOut.2.1
  padding_shared : (∀ k : H, IsBlockHash k → k ≠ default) → ∀ x ∈ w.handedOut.2.2, x.blockId ≠ w.pool.paddingBlockId
  available : w.pool.store.available = w.pool.store.free.length + w.pool.store.inactive.length
  /-- free, inactive and held blocks are all there are, the padding block apart -/
  total : ∃ held : Finset BlockId, (∀ b, b ∈ held ↔ w.Possessed b ∧ b ≠ w.pool.paddingBlockId) ∧
    w.pool.store.free.length + w.pool.store.inactive.length + held.card + 1 = numBlocks

/-- what holds in every reached state -/
structure Reached [Inhabited H] (w : World H) (numBlocks : ℕ) : Prop where
  accounted : w.Accounted
  padded : w.paddingInner ∈ w.pool.store.inners
  named : w.Named
  paddingId : w.padding.blockId = w.pool.paddingBlockId
  paddingHash : w.padding.seqHash = default
  total : w.pool.store.totalBlocks = numBlocks

theorem step_reached [Inhabited H] {w w' : World H} {n : ℕ} {o : Op} (h : w.Reached n) (hs : w.step o = .ok w') :
    w'.Reached n := by
  obtain ⟨hacc, hpad, hpe, hid, -, htotal⟩ := step_kept h.accounted h.padded hs
  refine ⟨hacc, hpad, step_named h.accounted h.named hs, ?_, ?_, htotal.trans h.total⟩
  · rw [hpe, hid]
    exact h.paddingId
  · rw [hpe]
    exact h.paddingHash

theorem run_reached [Inhabited H] {blockSize numBlocks : ℕ} {w₀ w : World H} {ops : List Op}
    (hn : World.new blockSize numBlocks = .ok w₀) (hr : run step w₀ ops = .ok w) : w.Reached numBlocks := by
  have hf := new_fresh hn
  refine run_invariant (I := fun _ w => w.Reached numBlocks) w₀
    ⟨hf.accounted, hf.padded, hf.named, hf.paddingId, hf.paddingHash, hf.total⟩ ?_ ops w (stepsMeet_true w₀ ops) hr
  intro _ w o w' h _ hs
  exact step_reached h hs

/-! ## The padding block -/

theorem mem_sum_shared {α : Type} {f : α → Holdings H} {l : List α} {x : ImmutableBlock H}
    (h : x ∈ (l.map f).sum.2.2) : ∃ a ∈ l, x ∈ (f a).2.2 := by
  induction l with
  | nil => simp at h
  | cons a l ih =>
    simp only [List.map_cons, List.sum_cons, Prod.snd_add, Multiset.mem_add] at h
    rcases h with h | h
    · exact ⟨a, List.mem_cons_self, h⟩
    · obtain ⟨b, hb, hx⟩ := ih h
      exact ⟨b, List.mem_cons_of_mem _ hb, hx⟩

/-- every shared guard handed out is named by the hash of a token block -/
theorem Named.shared {w : World H} (h : w.Named) {x : ImmutableBlock H} (hx : x ∈ w.handedOut.2.2) :
    IsBlockHash x.seqHash := by
  simp only [handedOut, Prod.snd_add, Multiset.mem_add] at hx
  rcases hx with ((hx | hx) | hx) | hx
  · obtain ⟨_ | e, he, hx⟩ := mem_sum_shared hx
    · simp [requestHoldings] at hx
    · have hmem : x ∈ e.seq.assigned := by
        simpa [requestHoldings, SchedulableSequence.holdings, SchedulableSequence.guards] using hx
      exact isBlockHash_assigned (h.requests e he) hmem
  · obtain ⟨_ | pr, hpr, hx⟩ := mem_sum_shared hx
    · simp [probeHoldings] at hx
    · exact (h.probes pr hpr).2 x (by simpa [probeHoldings, Holdings.ofImmutable] using hx)
  · obtain ⟨_ | ids, -, hx⟩ := mem_sum_shared hx
    · simp [reservationHoldings] at hx
    · simp [reservationHoldings, Holdings.ofMutable] at hx
  · obtain ⟨xs, hxs, hx⟩ := mem_sum_shared hx
    exact h.guards xs hxs x (by simpa [Holdings.ofImmutable] using hx)

theorem padding_mem (w : World H) : w.padding ∈ w.holdings.2.2 := by simp [holdings, Holdings.ofImmutable]

theorem mem_holdings_shared {w : World H} {x : ImmutableBlock H} (h : x ∈ w.handedOut.2.2) : x ∈ w.holdings.2.2 :=
  Multiset.mem_add.2 (Or.inr h)

/-- the padding block stays the primary of the default hash -/
theorem Reached.slot_padding [Inhabited H] {w : World H} {n : ℕ} (h : w.Reached n) :
    w.pool.store.slots w.pool.paddingBlockId = .primary default w.padding.ptr := by
  have hslot := h.accounted.refs.live_primary _ _ _ h.padded (strong_padding h.accounted)
  rw [h.paddingId, h.paddingHash] at hslot
  exact hslot

theorem Reached.padding_not_shared [Inhabited H] {w : World H} {n : ℕ} (h : w.Reached n)
    (hk : ∀ k : H, IsBlockHash k → k ≠ default) {x : ImmutableBlock H} (hx : x ∈ w.handedOut.2.2) :
    x.blockId ≠ w.pool.paddingBlockId := by
  intro hb
  have hslot := slot_shared h.accounted (mem_holdings_shared hx)
  rw [hb, h.slot_padding] at hslot
  have hdef : x.seqHash = default := by
    rcases hslot with heq | heq
    · exact (SlotState.primary.inj heq).1.symm
    · cases heq
  exact hk x.seqHash (h.named.shared hx) hdef

/-! ## Counting -/

theorem inactive_ids_nodup {w : World H} (h : w.Accounted) : (w.pool.store.inactive.map Prod.snd).Nodup := by
  refine (List.Nodup.of_map _ h.slots.inactive_nodup).map_on ?_
  rintro ⟨k, b⟩ hx ⟨k', b'⟩ hy (rfl : b = b')
  have hk := (h.slots.inactive_iff b k).1 hx
  rw [(h.slots.inactive_iff b k').1 hy] at hk
  rw [SlotState.inactive.inj hk]

theorem slot_reset_or {w : World H} (h : w.Accounted) (b : BlockId) :
    w.pool.store.slots b = .reset ∨ b ∈ w.pool.store.inactive.map Prod.snd ∨ w.Possessed b := by
  by_cases hreset : w.pool.store.slots b = .reset
  · exact Or.inl hreset
  · by_cases hin : b ∈ w.pool.store.inactive.map Prod.snd
    · exact Or.inr (Or.inl hin)
    · rw [mem_inactive_iff h, not_exists] at hin
      exact Or.inr (Or.inr ((possessed_iff h b).2 ⟨hreset, hin⟩))

theorem lt_total_of_slot {w : World H} (h : w.Accounted) {b : BlockId} (hb : w.pool.store.slots b ≠ .reset) :
    b < w.pool.store.totalBlocks := by
  by_contra hge
  exact hb (h.slots.in_range b (Nat.le_of_not_lt hge))

open Classical in
/-- the possessed blocks fill what the two lists leave of the pool -/
theorem possessed_card {w : World H} (h : w.Accounted) :
    w.pool.store.free.length + w.pool.store.inactive.length +
      ((Finset.range w.pool.store.totalBlocks).filter w.Possessed).card = w.pool.store.totalBlocks := by
  have hfree : w.pool.store.free.toFinset.card = w.pool.store.free.length :=
    List.toFinset_card_of_nodup h.slots.free_nodup
  have hin : (w.pool.store.inactive.map Prod.snd).toFinset.card = w.pool.store.inactive.length := by
    rw [List.toFinset_card_of_nodup (inactive_ids_nodup h), List.length_map]
  have hcover : w.pool.store.free.toFinset ∪ (w.pool.store.inactive.map Prod.snd).toFinset ∪
      (Finset.range w.pool.store.totalBlocks).filter w.Possessed = Finset.range w.pool.store.totalBlocks := by
    ext b
    simp only [Finset.mem_union, List.mem_toFinset, Finset.mem_filter, Finset.mem_range, h.slots.free_iff]
    constructor
    · rintro ((⟨hb, -⟩ | hb) | ⟨hb, -⟩)
      · exact hb
      · obtain ⟨k, hk⟩ := (mem_inactive_iff h b).1 hb
        exact lt_total_of_slot h (by simp [hk])
      · exact hb
    · intro hb
      rcases slot_reset_or h b with hr | hi | hp
      · exact Or.inl (Or.inl ⟨hb, hr⟩)
      · exact Or.inl (Or.inr hi)
      · exact Or.inr ⟨hb, hp⟩
  have hd₁ : Disjoint w.pool.store.free.toFinset (w.pool.store.inactive.map Prod.snd).toFinset := by
    rw [Finset.disjoint_left]
    intro b hb hi
    rw [List.mem_toFinset, h.slots.free_iff] at hb
    rw [List.mem_toFinset, mem_inactive_iff h] at hi
    obtain ⟨k, hk⟩ := hi
    rw [hb.2] at hk
    cases hk
  have hd₂ : Disjoint (w.pool.store.free.toFinset ∪ (w.pool.store.inactive.map Prod.snd).toFinset)
      ((Finset.range w.pool.store.totalBlocks).filter w.Possessed) := by
    rw [Finset.disjoint_right]
    intro b hb hu
    rw [Finset.mem_filter, possessed_iff h] at hb
    rw [Finset.mem_union, List.mem_toFinset, List.mem_toFinset, h.slots.free_iff, mem_inactive_iff h] at hu
    rcases hu with ⟨-, hr⟩ | ⟨k, hk⟩
    · exact hb.2.1 hr
    · exact hb.2.2 k hk
  have hcard := congrArg Finset.card hcover
  rw [Finset.card_union_of_disjoint hd₂, Finset.card_union_of_disjoint hd₁, hfree, hin, Finset.card_range] at hcard
  exact hcard

open Classical in
theorem Reached.total_held [Inhabited H] {w : World H} {n : ℕ} (h : w.Reached n) :
    ∃ held : Finset BlockId, (∀ b, b ∈ held ↔ w.Possessed b ∧ b ≠ w.pool.paddingBlockId) ∧
      w.pool.store.free.length + w.pool.store.inactive.length + held.card + 1 = n := by
  have hall : ∀ b, b ∈ (Finset.range w.pool.store.totalBlocks).filter w.Possessed ↔ w.Possessed b := by
    intro b
    rw [Finset.mem_filter, Finset.mem_range, and_iff_right_iff_imp]
    intro hp
    exact lt_total_of_slot h.accounted ((possessed_iff h.accounted b).1 hp).1
  have hpad : w.Possessed w.pool.paddingBlockId := .shared w.padding w.padding_mem h.paddingId
  refine ⟨((Finset.range w.pool.store.totalBlocks).filter w.Possessed).erase w.pool.paddingBlockId, ?_, ?_⟩
  · intro b
    rw [Finset.mem_erase, hall, and_comm]
  · have hcard := possessed_card h.accounted
    have herase := Finset.card_erase_add_one ((hall _).2 hpad)
    rw [h.total] at hcard
    rw [h.total] at herase ⊢
    omega

/-! ## Main result -/

theorem Reached.partitioned [Inhabited H] {w : World H} {n : ℕ} (h : w.Reached n) : w.Partitioned n := by
  have hacc := h.accounted
  have hmut : w.handedOut.1 = w.holdings.1 := by simp [holdings, Holdings.ofImmutable]
  have hcomp : w.handedOut.2.1 = w.holdings.2.1 := by simp [holdings, Holdings.ofImmutable]
  refine ⟨?_, ?_, ?_, ?_, ⟨hacc.slots.free_nodup, inactive_ids_nodup hacc⟩, ?_, ?_, ⟨?_, ?_⟩, ⟨?_, ?_⟩, ?_, rfl,
    h.total_held⟩
  · intro b hb
    rcases slot_reset_or hacc b with hr | hrest
    · exact Or.inl ((hacc.slots.free_iff b).2 ⟨h.total ▸ hb, hr⟩)
    · exact Or.inr hrest
  · intro b hb
    obtain ⟨hlt, hr⟩ := (hacc.slots.free_iff b).1 hb
    refine ⟨h.total ▸ hlt, ?_, ?_⟩
    · simp [mem_inactive_iff hacc, hr]
    · simp [possessed_iff hacc, hr]
  · intro b hb
    obtain ⟨k, hk⟩ := (mem_inactive_iff hacc b).1 hb
    refine ⟨h.total ▸ lt_total_of_slot hacc (by simp [hk]), ?_, ?_⟩
    · simp [hacc.slots.free_iff, hk]
    · simp [possessed_iff hacc, hk]
  · intro b hb
    obtain ⟨hr, hi⟩ := (possessed_iff hacc b).1 hb
    refine ⟨h.total ▸ lt_total_of_slot hacc hr, ?_, ?_⟩
    · simp [hacc.slots.free_iff, hr]
    · rw [mem_inactive_iff hacc, not_exists]
      exact hi
  · intro b
    exact Multiset.nodup_iff_count_le_one.1 hacc.slots.mutable_nodup b
  · intro b hb
    have hslot := (hacc.slots.mutable_iff b).1 hb
    refine ⟨?_, ?_, ?_, ?_⟩
    · simp [hacc.slots.staged_iff, hslot]
    · rintro x hx rfl
      rcases slot_shared hacc hx with hreg | hreg <;> simp [hslot] at hreg
    · simp [hacc.slots.active_iff, hslot]
    · simp [hacc.slots.inactive_iff, hslot]
  · simp [hacc.slots.free_iff, h.slot_padding]
  · simp [mem_inactive_iff hacc, h.slot_padding]
  · simp [hmut, hacc.slots.mutable_iff, h.slot_padding]
  · simp [hcomp, hacc.slots.staged_iff, h.slot_padding]
  · intro hk x hx
    exact h.padding_not_shared hk hx

/-- **No double allocation.** After every run of the pool's operations each block is in exactly one place, and a block
held mutable is nowhere else. -/
theorem blocks_partitioned [Inhabited H] (blockSize numBlocks : ℕ) (w₀ w : World H) (ops : List Op)
    (hn : World.new blockSize numBlocks = .ok w₀) (hr : run step w₀ ops = .ok w) : w.Partitioned numBlocks :=
  (run_reached hn hr).partitioned

/-- two requests prefill one prompt, so the second registers a duplicate; the first goes away, a probe finds the primary
it leaves, and a loaded block continues it -/
theorem blocks_partitioned_duplicate :
    ∃ w₀ w : World (List ℕ), World.new 2 6 = .ok w₀ ∧
      run step w₀ [.newRequest [1, 2, 3] 1 0, .newRequest [1, 2, 3] 1 0, .tryAdmit 0 0, .call 0 (.schedulePrefill 3),
        .call 1 (.schedulePrefill 3), .call 0 (.applyPrefill (some 4)), .call 1 (.applyPrefill (some 5)),
        .dropRequest 0, .probe [1, 2, 6, 7] 0, .reserve 1, .commit 0 0, .finishDrop 4] = .ok w ∧
      w.pool.store.free.length = 1 ∧ w.Partitioned 6 :=
  ⟨_, _, rfl, rfl, rfl, blocks_partitioned 2 6 _ _ [.newRequest [1, 2, 3] 1 0, .newRequest [1, 2, 3] 1 0, .tryAdmit 0 0,
    .call 0 (.schedulePrefill 3), .call 1 (.schedulePrefill 3), .call 0 (.applyPrefill (some 4)),
    .call 1 (.applyPrefill (some 5)), .dropRequest 0, .probe [1, 2, 6, 7] 0, .reserve 1, .commit 0 0, .finishDrop 4]
    rfl rfl⟩

end Pegainfer.KvStore.World
