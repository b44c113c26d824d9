/-
The invariant of the block store, relative to the guards that exist outside it.

`Holdings` are the guards: mutable blocks, complete blocks, and strong references to registered blocks. `Inv σ g` says
that the store `σ` accounts for exactly the guards `g`: every slot is in the list, index or possession its state names,
and every strong count is the number of references that exist.
Each store operation is specified by what it does to the guards and to the number of available blocks.
- `allocateAtomic_spec`, `acquireForHash_spec`, `matchBlocks_spec`, `stage_inv`, `registerBlock_spec`
- `resetSlot_mutable_inv`, `resetSlot_staged_inv`, `dropImmutable_inv`, `dropInner_spec`
None of them panics from a state that satisfies the invariant.
-/
import Mathlib.Tactic
import Pegainfer.Kvbm.Store

namespace Pegainfer.Kvbm

variable {H : Type}

/-- the guards that exist: mutable blocks, complete blocks, strong references -/
abbrev Holdings (H : Type) := Multiset BlockId × Multiset (BlockId × H) × Multiset (ImmutableBlock H)

namespace Holdings

def ofMutable (bs : List BlockId) : Holdings H := (↑bs, 0, 0)

def ofComplete (cs : List (BlockId × H)) : Holdings H := (0, ↑cs, 0)

def ofImmutable (xs : List (ImmutableBlock H)) : Holdings H := (0, 0, ↑xs)

end Holdings

/-- the slots against the lists, the hash index and the exclusive guards -/
structure SlotsInv (σ : BlockStore H) (g : Holdings H) : Prop where
  free_iff : ∀ b, b ∈ σ.free ↔ b < σ.totalBlocks ∧ σ.slots b = .reset
  inactive_iff : ∀ b h, (h, b) ∈ σ.inactive ↔ σ.slots b = .inactive h
  mutable_iff : ∀ b, b ∈ g.1 ↔ σ.slots b = .mutable
  staged_iff : ∀ b h, (b, h) ∈ g.2.1 ↔ σ.slots b = .staged h
  active_iff : ∀ b h, σ.activeByHash h = some b ↔ ∃ p, σ.slots b = .primary h p
  inactive_not_active : ∀ b h, σ.slots b = .inactive h → σ.activeByHash h = none
  in_range : ∀ b, σ.totalBlocks ≤ b → σ.slots b = .reset
  free_nodup : σ.free.Nodup
  inactive_nodup : (σ.inactive.map Prod.fst).Nodup
  mutable_nodup : g.1.Nodup
  staged_nodup : g.2.1.Nodup

/-- the inner blocks against the registered slots and the strong references -/
structure RefsInv (σ : BlockStore H) (g : Holdings H) : Prop where
  primary_inner : ∀ b h p, σ.slots b = .primary h p → ⟨p, b, h, none⟩ ∈ σ.inners
  duplicate_iff : ∀ b h p, (∃ q, ⟨p, b, h, some q⟩ ∈ σ.inners) ↔ σ.slots b = .duplicate h p
  live_primary : ∀ p b h, ⟨p, b, h, none⟩ ∈ σ.inners → 0 < σ.strong p → σ.slots b = .primary h p
  keepalive_inner : ∀ x ∈ σ.inners, ∀ q, x.primaryKeepalive = some q → ∃ b h, ⟨q, b, h, none⟩ ∈ σ.inners
  shared_inner : ∀ x ∈ g.2.2, ∃ q, ⟨x.ptr, x.blockId, x.seqHash, q⟩ ∈ σ.inners
  strong_eq : ∀ p, σ.strong p =
    (g.2.2.map ImmutableBlock.ptr).count p + (σ.inners.filterMap (·.primaryKeepalive)).count p
  fresh : ∀ x ∈ σ.inners, x.ptr < σ.nextPtr
  inner_nodup : (σ.inners.map (·.ptr)).Nodup

/-- the store accounts for exactly the guards `g` -/
structure Inv (σ : BlockStore H) (g : Holdings H) : Prop where
  slots : SlotsInv σ g
  refs : RefsInv σ g

/-- inner blocks are only added, the pool keeps its size -/
structure Grows (σ σ' : BlockStore H) : Prop where
  inners : ∀ y ∈ σ.inners, y ∈ σ'.inners
  total : σ'.totalBlocks = σ.totalBlocks

theorem Grows.refl (σ : BlockStore H) : Grows σ σ := ⟨fun _ hy => hy, rfl⟩

theorem Grows.trans {σ σ₁ σ₂ : BlockStore H} (h₁ : Grows σ σ₁) (h₂ : Grows σ₁ σ₂) : Grows σ σ₂ :=
  ⟨fun y hy => h₂.inners y (h₁.inners y hy), h₂.total.trans h₁.total⟩

theorem new_inv (totalBlocks : ℕ) (reset : Bool) : Inv (BlockStore.new totalBlocks reset : BlockStore H) 0 := by
  refine ⟨⟨?_, ?_, ?_, ?_, ?_, ?_, ?_, List.nodup_range, ?_, ?_, ?_⟩, ⟨?_, ?_, ?_, ?_, ?_, ?_, ?_, ?_⟩⟩ <;>
    simp [BlockStore.new]

/-! ## Small facts -/

/-- the registered slots are all a `RefsInv` reads of the slots -/
theorem RefsInv.congr {σ σ' : BlockStore H} {g g' : Holdings H} (h : RefsInv σ g)
    (hp : ∀ b k p, σ'.slots b = .primary k p ↔ σ.slots b = .primary k p)
    (hd : ∀ b k p, σ'.slots b = .duplicate k p ↔ σ.slots b = .duplicate k p)
    (hi : σ'.inners = σ.inners) (hs : σ'.strong = σ.strong) (hn : σ'.nextPtr = σ.nextPtr)
    (hg : g'.2.2 = g.2.2) : RefsInv σ' g' where
  primary_inner b k p hb := by rw [hi]; exact h.primary_inner b k p ((hp b k p).1 hb)
  duplicate_iff b k p := by rw [hi, hd]; exact h.duplicate_iff b k p
  live_primary p b k hx hst := by
    rw [hi] at hx; rw [hs] at hst
    exact (hp b k p).2 (h.live_primary p b k hx hst)
  keepalive_inner := by rw [hi]; exact h.keepalive_inner
  shared_inner := by rw [hi, hg]; exact h.shared_inner
  strong_eq p := by rw [hi, hs, hg]; exact h.strong_eq p
  fresh := by rw [hi, hn]; exact h.fresh
  inner_nodup := by rw [hi]; exact h.inner_nodup

/-- a `SlotsInv` reads neither the inner blocks nor the strong references -/
theorem SlotsInv.congr {σ σ' : BlockStore H} {g g' : Holdings H} (h : SlotsInv σ g)
    (ht : σ'.totalBlocks = σ.totalBlocks) (hs : σ'.slots = σ.slots) (hf : σ'.free = σ.free)
    (hi : σ'.inactive = σ.inactive) (ha : σ'.activeByHash = σ.activeByHash) (hm : g'.1 = g.1)
    (hc : g'.2.1 = g.2.1) : SlotsInv σ' g' where
  free_iff := by rw [ht, hs, hf]; exact h.free_iff
  inactive_iff := by rw [hs, hi]; exact h.inactive_iff
  mutable_iff := by rw [hs, hm]; exact h.mutable_iff
  staged_iff := by rw [hs, hc]; exact h.staged_iff
  active_iff := by rw [hs, ha]; exact h.active_iff
  inactive_not_active := by rw [hs, ha]; exact h.inactive_not_active
  in_range := by rw [ht, hs]; exact h.in_range
  free_nodup := by rw [hf]; exact h.free_nodup
  inactive_nodup := by rw [hi]; exact h.inactive_nodup
  mutable_nodup := by rw [hm]; exact h.mutable_nodup
  staged_nodup := by rw [hc]; exact h.staged_nodup

/-- two inner blocks at one address are one -/
theorem RefsInv.inner_unique {σ : BlockStore H} {g : Holdings H} (h : RefsInv σ g) {x y : ImmutableBlockInner H}
    (hx : x ∈ σ.inners) (hy : y ∈ σ.inners) (hp : x.ptr = y.ptr) : x = y :=
  List.inj_on_of_nodup_map h.inner_nodup hx hy hp

theorem RefsInv.strong_fresh {σ : BlockStore H} {g : Holdings H} (h : RefsInv σ g) : σ.strong σ.nextPtr = 0 := by
  rw [h.strong_eq]
  have hg : (g.2.2.map ImmutableBlock.ptr).count σ.nextPtr = 0 := by
    rw [Multiset.count_eq_zero]
    intro hm
    obtain ⟨x, hx, hp⟩ := Multiset.mem_map.1 hm
    obtain ⟨q, hq⟩ := h.shared_inner x hx
    exact absurd (h.fresh _ hq) (by simp [hp])
  have hk : (σ.inners.filterMap (·.primaryKeepalive)).count σ.nextPtr = 0 := by
    rw [List.count_eq_zero]
    intro hm
    obtain ⟨x, hx, hp⟩ := List.mem_filterMap.1 hm
    obtain ⟨b, k, hy⟩ := h.keepalive_inner x hx _ hp
    exact absurd (h.fresh _ hy) (by simp)
  omega

/-- a live strong count belongs to a registered slot -/
theorem RefsInv.slot_of_strong {σ : BlockStore H} {g : Holdings H} (h : RefsInv σ g) {x : ImmutableBlockInner H}
    (hx : x ∈ σ.inners) (hs : 0 < σ.strong x.ptr) :
    σ.slots x.blockId = .primary x.seqHash x.ptr ∨ σ.slots x.blockId = .duplicate x.seqHash x.ptr := by
  obtain ⟨p, b, k, _ | q⟩ := x
  · exact Or.inl (h.live_primary p b k hx hs)
  · exact Or.inr ((h.duplicate_iff b k p).1 ⟨q, hx⟩)

theorem SlotsInv.inactive_unique {σ : BlockStore H} {g : Holdings H} (h : SlotsInv σ g) {b b' : BlockId} {k : H}
    (hb : σ.slots b = .inactive k) (hb' : σ.slots b' = .inactive k) : b = b' := by
  have h1 := (h.inactive_iff b k).2 hb
  have h2 := (h.inactive_iff b' k).2 hb'
  exact congrArg Prod.snd (List.inj_on_of_nodup_map h.inactive_nodup h1 h2 rfl)

theorem SlotsInv.active_unique {σ : BlockStore H} {g : Holdings H} (h : SlotsInv σ g) {b b' : BlockId} {k : H}
    {p p' : Ptr} (hb : σ.slots b = .primary k p) (hb' : σ.slots b' = .primary k p') : b = b' := by
  have h1 := (h.active_iff b k).2 ⟨p, hb⟩
  have h2 := (h.active_iff b' k).2 ⟨p', hb'⟩
  rw [h1] at h2
  exact Option.some.inj h2

/-! ## Strong references -/

theorem clone_inv {σ : BlockStore H} {g : Holdings H} (h : Inv σ g) {x : ImmutableBlock H} {q : Option Ptr}
    (hx : ⟨x.ptr, x.blockId, x.seqHash, q⟩ ∈ σ.inners) (hs : 0 < σ.strong x.ptr) :
    Inv (σ.clone x.ptr) ((0, 0, {x}) + g) := by
  refine ⟨h.slots.congr rfl rfl rfl rfl rfl (by simp) (by simp), ?_⟩
  refine ⟨h.refs.primary_inner, h.refs.duplicate_iff, ?_, h.refs.keepalive_inner, ?_, ?_, h.refs.fresh,
    h.refs.inner_nodup⟩
  · intro p b k hp hpos
    by_cases hpx : p = x.ptr
    · subst hpx
      exact h.refs.live_primary _ b k hp hs
    · exact h.refs.live_primary p b k hp (by simpa [BlockStore.clone, Function.update_of_ne hpx] using hpos)
  · intro y hy
    rcases Multiset.mem_add.1 hy with hy | hy
    · exact ⟨q, by rw [Multiset.mem_singleton.1 hy]; exact hx⟩
    · exact h.refs.shared_inner y hy
  · intro p
    have := h.refs.strong_eq p
    by_cases hpx : p = x.ptr
    · subst hpx
      simp only [BlockStore.clone, Function.update_self, this, Prod.snd_add, Multiset.map_add, Multiset.map_singleton,
        Multiset.count_add, Multiset.count_singleton_self]
      omega
    · simp [BlockStore.clone, this, hpx]

theorem dropImmutable_inv {σ : BlockStore H} {g : Holdings H} {x : ImmutableBlock H} (h : Inv σ ((0, 0, {x}) + g)) :
    Inv (σ.dropImmutable x.ptr) g := by
  refine ⟨h.slots.congr rfl rfl rfl rfl rfl (by simp) (by simp), ?_⟩
  refine ⟨h.refs.primary_inner, h.refs.duplicate_iff, ?_, h.refs.keepalive_inner, ?_, ?_, h.refs.fresh,
    h.refs.inner_nodup⟩
  · intro q b k hq hpos
    refine h.refs.live_primary q b k hq ?_
    by_cases hqp : q = x.ptr
    · subst hqp
      simp only [BlockStore.dropImmutable, Function.update_self] at hpos
      exact Nat.lt_of_lt_of_le hpos (Nat.sub_le _ _)
    · simpa [BlockStore.dropImmutable, Function.update_of_ne hqp] using hpos
  · intro q hq
    exact h.refs.shared_inner q (Multiset.mem_add.2 (Or.inr hq))
  · intro q
    have := h.refs.strong_eq q
    by_cases hqp : q = x.ptr
    · subst hqp
      simp only [Prod.snd_add, Multiset.map_add, Multiset.map_singleton, Multiset.count_add,
        Multiset.count_singleton_self] at this
      simp only [BlockStore.dropImmutable, Function.update_self, this]
      omega
    · simpa [BlockStore.dropImmutable, Function.update_of_ne hqp, Multiset.count_singleton, hqp] using this

/-! ## Exclusive guards -/

theorem stage_inv {σ : BlockStore H} {g : Holdings H} {b : BlockId} (k : H) (h : Inv σ (({b}, 0, 0) + g)) :
    Inv (σ.stage b k) ((0, {(b, k)}, 0) + g) := by
  have hb : σ.slots b = .mutable := (h.slots.mutable_iff b).1 (by simp)
  have hnd : b ∉ g.1 ∧ g.1.Nodup := by simpa using h.slots.mutable_nodup
  obtain ⟨h1, h2, h3, h4, h5, h6, h7, h8, h9, h10, h11⟩ := h.slots
  simp only [Prod.fst_add, Prod.snd_add, Multiset.singleton_add, Multiset.mem_cons, zero_add] at h3 h4 h10 h11
  refine ⟨⟨?_, ?_, ?_, ?_, ?_, ?_, ?_, h8, h9, ?_, ?_⟩, h.refs.congr ?_ ?_ rfl rfl rfl (by simp)⟩ <;>
    simp only [BlockStore.stage, BlockStore.setSlot, Function.update_apply, Prod.fst_add, Prod.snd_add,
      Multiset.singleton_add, Multiset.mem_cons, zero_add, Multiset.nodup_cons] <;> grind

theorem resetSlot_mutable_inv {σ : BlockStore H} {g : Holdings H} {b : BlockId} (h : Inv σ (({b}, 0, 0) + g)) :
    Inv (σ.resetSlot b) g := by
  have hb : σ.slots b = .mutable := (h.slots.mutable_iff b).1 (by simp)
  have hnd : b ∉ g.1 ∧ g.1.Nodup := by simpa using h.slots.mutable_nodup
  obtain ⟨h1, h2, h3, h4, h5, h6, h7, h8, h9, h10, h11⟩ := h.slots
  have hlt : b < σ.totalBlocks := by
    by_contra hge
    rw [h7 b (not_lt.1 hge)] at hb
    cases hb
  simp only [Prod.fst_add, Prod.snd_add, Multiset.singleton_add, Multiset.mem_cons, zero_add] at h3 h4 h10 h11
  refine ⟨⟨?_, ?_, ?_, ?_, ?_, ?_, ?_, ?_, h9, hnd.2, h11⟩, h.refs.congr ?_ ?_ rfl rfl rfl (by simp)⟩ <;>
    simp only [BlockStore.resetSlot, BlockStore.setSlot, Function.update_apply, List.mem_append, List.mem_singleton,
      List.nodup_append] <;> grind

theorem resetSlot_staged_inv {σ : BlockStore H} {g : Holdings H} {b : BlockId} {k : H}
    (h : Inv σ ((0, {(b, k)}, 0) + g)) : Inv (σ.resetSlot b) g := by
  have hb : σ.slots b = .staged k := (h.slots.staged_iff b k).1 (by simp)
  have hnd : (b, k) ∉ g.2.1 ∧ g.2.1.Nodup := by simpa using h.slots.staged_nodup
  obtain ⟨h1, h2, h3, h4, h5, h6, h7, h8, h9, h10, h11⟩ := h.slots
  have hlt : b < σ.totalBlocks := by
    by_contra hge
    rw [h7 b (not_lt.1 hge)] at hb
    cases hb
  simp only [Prod.fst_add, Prod.snd_add, Multiset.singleton_add, Multiset.mem_cons, zero_add] at h3 h4 h10 h11
  refine ⟨⟨?_, ?_, ?_, ?_, ?_, ?_, ?_, ?_, h9, h10, hnd.2⟩, h.refs.congr ?_ ?_ rfl rfl rfl (by simp)⟩ <;>
    simp only [BlockStore.resetSlot, BlockStore.setSlot, Function.update_apply, List.mem_append, List.mem_singleton,
      List.nodup_append] <;> grind

/-! ## Allocation -/

/-- the ids an allocation takes: some from the front of the free list, some from the front of the inactive index -/
def takenIds (σ : BlockStore H) (m n : ℕ) : List BlockId := σ.free.take m ++ (σ.inactive.take n).map Prod.snd

theorem mem_takenIds (σ : BlockStore H) (m n : ℕ) (b : BlockId) :
    b ∈ takenIds σ m n ↔ b ∈ σ.free.take m ∨ ∃ k, (k, b) ∈ σ.inactive.take n := by
  simp only [takenIds, List.mem_append, List.mem_map, Prod.exists, exists_eq_right]

/-- a taken id was reset or inactive -/
theorem takenIds_state {σ : BlockStore H} {g : Holdings H} (h : SlotsInv σ g) {m n : ℕ} {b : BlockId}
    (hb : b ∈ takenIds σ m n) : σ.slots b = .reset ∧ b < σ.totalBlocks ∨ ∃ k, σ.slots b = .inactive k := by
  rcases (mem_takenIds σ m n b).1 hb with hb | ⟨k, hb⟩
  · exact Or.inl ((h.free_iff b).1 (List.mem_of_mem_take hb)).symm
  · exact Or.inr ⟨k, (h.inactive_iff b k).1 (List.mem_of_mem_take hb)⟩

theorem takenIds_nodup {σ : BlockStore H} {g : Holdings H} (h : SlotsInv σ g) (m n : ℕ) : (takenIds σ m n).Nodup := by
  rw [takenIds, List.nodup_append]
  refine ⟨h.free_nodup.sublist (List.take_sublist _ _), ?_, ?_⟩
  · have hnd : (σ.inactive.take n).Nodup := (List.Nodup.of_map _ h.inactive_nodup).sublist (List.take_sublist _ _)
    refine (List.nodup_map_iff_inj_on hnd).2 ?_
    rintro ⟨k, b⟩ hx ⟨k', b'⟩ hy hbb
    simp only at hbb
    subst hbb
    have e1 := (h.inactive_iff b k).1 (List.mem_of_mem_take hx)
    have e2 := (h.inactive_iff b k').1 (List.mem_of_mem_take hy)
    rw [e1] at e2
    simp only [SlotState.inactive.injEq] at e2
    rw [e2]
  · rintro b hb b' hb' rfl
    obtain ⟨⟨k, b'⟩, hm, rfl⟩ := List.mem_map.1 hb'
    have e1 := (h.free_iff _).1 (List.mem_of_mem_take hb)
    have e2 := (h.inactive_iff _ _).1 (List.mem_of_mem_take hm)
    rw [e1.2] at e2
    cases e2

/-- the store after an allocation of `m` reset and `n` inactive blocks -/
theorem taken_inv {σ σ' : BlockStore H} {g : Holdings H} (h : Inv σ g) (m n : ℕ)
    (ht : σ'.totalBlocks = σ.totalBlocks) (hf : σ'.free = σ.free.drop m) (hi : σ'.inactive = σ.inactive.drop n)
    (hs : ∀ b, σ'.slots b = if b ∈ takenIds σ m n then .mutable else σ.slots b)
    (ha : σ'.activeByHash = σ.activeByHash) (hin : σ'.inners = σ.inners) (hst : σ'.strong = σ.strong)
    (hnp : σ'.nextPtr = σ.nextPtr) : Inv σ' (Holdings.ofMutable (takenIds σ m n) + g) := by
  have hstate := fun b => takenIds_state h.slots (m := m) (n := n) (b := b)
  have hmem := mem_takenIds σ m n
  have hfn := h.slots.free_nodup
  rw [← List.take_append_drop m σ.free, List.nodup_append] at hfn
  have hmemf : ∀ b, b ∈ σ.free ↔ b ∈ σ.free.take m ∨ b ∈ σ.free.drop m := by
    intro b
    rw [← List.mem_append, List.take_append_drop]
  have hmemi : ∀ e, e ∈ σ.inactive ↔ e ∈ σ.inactive.take n ∨ e ∈ σ.inactive.drop n := by
    intro e
    rw [← List.mem_append, List.take_append_drop]
  have hin' := h.slots.inactive_nodup
  rw [← List.take_append_drop n σ.inactive, List.map_append, List.nodup_append] at hin'
  have hdisj : ∀ b k, (k, b) ∈ σ.inactive.take n → (k, b) ∉ σ.inactive.drop n := by
    intro b k hm hm'
    exact hin'.2.2 k (List.mem_map.2 ⟨_, hm, rfl⟩) k (List.mem_map.2 ⟨_, hm', rfl⟩) rfl
  have hmut : ∀ b ∈ takenIds σ m n, b ∉ g.1 := by
    intro b hb hg
    have hbm := (h.slots.mutable_iff b).1 hg
    rcases hstate b hb with ⟨hr, -⟩ | ⟨k, hk⟩
    · rw [hbm] at hr; cases hr
    · rw [hbm] at hk; cases hk
  have hnd := takenIds_nodup h.slots m n
  have hrefs : RefsInv σ' (Holdings.ofMutable (takenIds σ m n) + g) := by
    refine h.refs.congr ?_ ?_ hin hst hnp (by simp [Holdings.ofMutable])
    · intro b k p; rw [hs]; grind
    · intro b k p; rw [hs]; grind
  obtain ⟨h1, h2, h3, h4, h5, h6, h7, h8, h9, h10, h11⟩ := h.slots
  refine ⟨⟨?_, ?_, ?_, ?_, ?_, ?_, ?_, ?_, ?_, ?_, ?_⟩, hrefs⟩
  · intro b; rw [hf, ht, hs]; grind
  · intro b k; rw [hi, hs]; grind
  · intro b
    rw [hs]
    simp only [Holdings.ofMutable, Prod.fst_add, Multiset.mem_add, Multiset.mem_coe]
    grind
  · intro b k
    rw [hs]
    simp only [Holdings.ofMutable, Prod.snd_add, Prod.fst_add, zero_add]
    grind
  · intro b k; rw [ha, hs]; grind
  · intro b k; rw [ha, hs]; grind
  · intro b; rw [ht, hs]; grind
  · rw [hf]; exact h8.sublist (List.drop_sublist _ _)
  · rw [hi]; exact h9.sublist ((List.drop_sublist _ _).map _)
  · simp only [Holdings.ofMutable, Prod.fst_add]
    exact (Multiset.Nodup.add_iff (Multiset.coe_nodup.2 hnd) h10).2
      (Multiset.disjoint_left.2 fun hb => hmut _ (Multiset.mem_coe.1 hb))
  · simpa [Holdings.ofMutable] using h11

theorem allocateBlocks_none {σ : BlockStore H} {n : ℕ} (h : σ.available < n) : σ.allocateBlocks n = .ok none := by
  have hn : n ≠ 0 := by omega
  simp [BlockStore.allocateBlocks, BlockStore.allocateAtomic, hn, h]

/-- **Allocation.** When enough blocks are available it succeeds and takes that many from them. -/
theorem allocateBlocks_spec {σ : BlockStore H} {g : Holdings H} (h : Inv σ g) {n : ℕ} (hn : n ≤ σ.available) :
    ∃ ids σ', σ.allocateBlocks n = .ok (some (ids, σ')) ∧ ids.length = n ∧
      Inv σ' (Holdings.ofMutable ids + g) ∧ σ'.available + n = σ.available ∧ Grows σ σ' := by
  by_cases hz : n = 0
  · subst hz
    refine ⟨[], σ, by simp [BlockStore.allocateBlocks, BlockStore.allocateAtomic], rfl, ?_, rfl, .refl σ⟩
    have hzero : (Holdings.ofMutable [] : Holdings H) = 0 := rfl
    rwa [hzero, zero_add]
  · have hall : (σ.inactive.take (n - min n σ.free.length)).all (fun e => (σ.slots e.2).isInactive) = true := by
      rw [List.all_eq_true]
      rintro ⟨k, b⟩ hm
      simp [(h.slots.inactive_iff b k).1 (List.mem_of_mem_take hm), SlotState.isInactive]
    have hnot : ¬ σ.available < n := by omega
    have heq : σ.allocateBlocks n =
        .ok (some (takenIds σ (min n σ.free.length) (n - min n σ.free.length),
          { σ with
            free := σ.free.drop (min n σ.free.length)
            inactive := σ.inactive.drop (n - min n σ.free.length)
            slots := fun b =>
              if b ∈ takenIds σ (min n σ.free.length) (n - min n σ.free.length) then .mutable else σ.slots b
            resetOnRelease := fun b =>
              if b ∈ takenIds σ (min n σ.free.length) (n - min n σ.free.length) then σ.defaultResetOnRelease
              else σ.resetOnRelease b })) := by
      unfold BlockStore.allocateBlocks BlockStore.allocateAtomic
      rw [if_neg hz, if_neg hnot]
      simp only [hall, if_true]
      rfl
    rw [heq]
    refine ⟨_, _, rfl, ?_, taken_inv h _ _ rfl rfl rfl (fun _ => rfl) rfl rfl rfl rfl, ?_, fun _ hy => hy, rfl⟩
    · unfold BlockStore.available at hn
      simp only [takenIds, List.length_append, List.length_map, List.length_take]
      omega
    · unfold BlockStore.available at hn ⊢
      simp only [List.length_drop]
      omega

/-! ## Registration and lookup by hash -/

variable [DecidableEq H]

theorem eagerPrimaryToInactive_inv {σ : BlockStore H} {g : Holdings H} {b : BlockId} {k : H} {p : Ptr}
    (h : Inv σ g) (hb : σ.slots b = .primary k p) (hs : σ.strong p = 0) :
    Inv (σ.eagerPrimaryToInactive k b) g := by
  have hact : σ.activeByHash k = some b := (h.slots.active_iff b k).2 ⟨p, hb⟩
  have huniq : ∀ b' p', σ.slots b' = .primary k p' → b' = b := fun b' p' hb' => h.slots.active_unique hb' hb
  obtain ⟨h1, h2, h3, h4, h5, h6, h7, h8, h9, h10, h11⟩ := h.slots
  obtain ⟨r1, r2, r3, r4, r5, r6, r7, r8⟩ := h.refs
  have hnot : k ∉ σ.inactive.map Prod.fst := by
    intro hm
    obtain ⟨⟨k', b'⟩, hmem, rfl⟩ := List.mem_map.1 hm
    rw [h6 b' _ ((h2 b' _).1 hmem)] at hact
    cases hact
  refine ⟨⟨?_, ?_, ?_, ?_, ?_, ?_, ?_, ?_, ?_, h10, h11⟩, ⟨?_, ?_, ?_, r4, r5, r6, r7, r8⟩⟩ <;>
    simp only [BlockStore.eagerPrimaryToInactive, BlockStore.setSlot, Function.update_apply, List.mem_append,
      List.mem_singleton, List.map_append, List.nodup_append, List.map_cons, List.map_nil, List.nodup_singleton] <;> grind

/-- a slot that is not registered becomes a primary with a fresh inner block -/
theorem newPrimary_refs {σ : BlockStore H} {g g' : Holdings H} {b : BlockId} (k : H) (h : RefsInv σ g)
    (hp : ∀ k' p, σ.slots b ≠ .primary k' p) (hd : ∀ k' p, σ.slots b ≠ .duplicate k' p)
    (hg : g'.2.2 = {⟨σ.nextPtr, b, k⟩} + g.2.2) : RefsInv (σ.newPrimary b k) g' := by
  have hfresh := h.strong_fresh
  obtain ⟨r1, r2, r3, r4, r5, r6, r7, r8⟩ := h
  have r6' := r6 σ.nextPtr
  refine ⟨?_, ?_, ?_, ?_, ?_, ?_, ?_, ?_⟩
  · simp only [BlockStore.newPrimary, BlockStore.setSlot, BlockStore.newInner, Function.update_apply, List.mem_cons]
    grind
  · simp only [BlockStore.newPrimary, BlockStore.setSlot, BlockStore.newInner, Function.update_apply, List.mem_cons]
    grind
  · simp only [BlockStore.newPrimary, BlockStore.setSlot, BlockStore.newInner, Function.update_apply, List.mem_cons]
    grind
  · simp only [BlockStore.newPrimary, BlockStore.setSlot, BlockStore.newInner, List.mem_cons]
    grind
  · intro y hy
    rw [hg] at hy
    rcases Multiset.mem_add.1 hy with hy | hy
    · rw [Multiset.mem_singleton.1 hy]
      exact ⟨none, List.mem_cons_self⟩
    · obtain ⟨q, hq⟩ := r5 y hy
      exact ⟨q, List.mem_cons_of_mem _ hq⟩
  · intro p
    have r6p := r6 p
    simp only [BlockStore.newPrimary, BlockStore.setSlot, BlockStore.newInner, Function.update_apply, hg,
      Multiset.map_add, Multiset.map_singleton, Multiset.count_add, Multiset.count_singleton, List.filterMap_cons]
    grind
  · simp only [BlockStore.newPrimary, BlockStore.setSlot, BlockStore.newInner, List.mem_cons]
    grind
  · simp only [BlockStore.newPrimary, BlockStore.setSlot, BlockStore.newInner, List.map_cons, List.nodup_cons,
      List.mem_map]
    grind

theorem newPrimary_active {σ : BlockStore H} {b : BlockId} {k : H}
    (h : ∀ b' k', σ.activeByHash k' = some b' ↔ ∃ p, σ.slots b' = .primary k' p) (ha : σ.activeByHash k = none)
    (hp : ∀ k' p, σ.slots b ≠ .primary k' p) (b' : BlockId) (k' : H) :
    (σ.newPrimary b k).activeByHash k' = some b' ↔ ∃ p, (σ.newPrimary b k).slots b' = .primary k' p := by
  have hb' := h b' k'
  simp only [BlockStore.newPrimary, BlockStore.setSlot, BlockStore.newInner]
  by_cases hk : k' = k
  · subst hk
    have hnone : ∀ p, σ.slots b' ≠ .primary k' p := fun p hp' => by
      rw [hb'.2 ⟨p, hp'⟩] at ha
      cases ha
    by_cases hbb : b' = b
    · simp [hbb]
    · simp [hbb, Ne.symm hbb, hnone]
  · by_cases hbb : b' = b
    · subst hbb
      simp [hk, Ne.symm hk, hb', hp]
    · simp [hk, hbb, hb']

theorem newPrimary_staged_inv {σ : BlockStore H} {g : Holdings H} {b : BlockId} {k : H}
    (h : Inv σ ((0, {(b, k)}, 0) + g)) (ha : σ.activeByHash k = none) (hi : k ∉ σ.inactive.map Prod.fst) :
    Inv (σ.newPrimary b k) ((0, 0, {⟨σ.nextPtr, b, k⟩}) + g) := by
  have hb : σ.slots b = .staged k := (h.slots.staged_iff b k).1 (by simp)
  have hnd : (b, k) ∉ g.2.1 ∧ g.2.1.Nodup := by simpa using h.slots.staged_nodup
  have hi' : ∀ b', σ.slots b' ≠ .inactive k := fun b' hb' =>
    hi (List.mem_map.2 ⟨(k, b'), (h.slots.inactive_iff b' k).2 hb', rfl⟩)
  refine ⟨?_, newPrimary_refs k h.refs (by simp [hb]) (by simp [hb]) (by simp)⟩
  obtain ⟨h1, h2, h3, h4, h5, h6, h7, h8, h9, h10, h11⟩ := h.slots
  simp only [Prod.fst_add, Prod.snd_add, Multiset.singleton_add, Multiset.mem_cons, zero_add] at h3 h4 h10 h11
  refine ⟨?_, ?_, ?_, ?_, newPrimary_active h5 ha (by simp [hb]), ?_, ?_, h8, h9, by simpa using h10,
    by simpa using hnd.2⟩ <;>
    simp only [BlockStore.newPrimary, BlockStore.setSlot, BlockStore.newInner, Function.update_apply, Prod.fst_add,
      Prod.snd_add, zero_add] <;> grind

theorem newPrimary_inactive_inv {σ : BlockStore H} {g : Holdings H} {b : BlockId} {k : H} (h : Inv σ g)
    (hb : σ.slots b = .inactive k) :
    Inv (({ σ with inactive := σ.inactive.filter fun e => e.1 ≠ k } : BlockStore H).newPrimary b k)
      ((0, 0, {⟨σ.nextPtr, b, k⟩}) + g) := by
  have hact := h.slots.inactive_not_active b k hb
  have huniq : ∀ b', σ.slots b' = .inactive k → b' = b := fun b' hb' => h.slots.inactive_unique hb' hb
  have hrefs : RefsInv ({ σ with inactive := σ.inactive.filter fun e => e.1 ≠ k } : BlockStore H) g :=
    h.refs.congr (fun _ _ _ => Iff.rfl) (fun _ _ _ => Iff.rfl) rfl rfl rfl rfl
  refine ⟨?_, newPrimary_refs k hrefs (by simp [hb]) (by simp [hb]) (by simp)⟩
  obtain ⟨h1, h2, h3, h4, h5, h6, h7, h8, h9, h10, h11⟩ := h.slots
  have h9' : ((σ.inactive.filter fun e => e.1 ≠ k).map Prod.fst).Nodup := h9.sublist (List.filter_sublist.map _)
  refine ⟨?_, ?_, ?_, ?_, newPrimary_active h5 hact (by simp [hb]), ?_, ?_, h8, h9', by simpa using h10,
    by simpa using h11⟩ <;>
    simp only [BlockStore.newPrimary, BlockStore.setSlot, BlockStore.newInner, Function.update_apply, Prod.fst_add,
      Prod.snd_add, zero_add, List.mem_filter] <;> grind

omit [DecidableEq H] in
theorem newDuplicate_inv {σ : BlockStore H} {g : Holdings H} {b : BlockId} {k : H} {y : ImmutableBlock H}
    (h : Inv σ ((0, {(b, k)}, {y}) + g)) (hq : ⟨y.ptr, y.blockId, y.seqHash, none⟩ ∈ σ.inners) :
    Inv ((σ.newInner b k (some y.ptr)).setSlot b (.duplicate k σ.nextPtr)) ((0, 0, {⟨σ.nextPtr, b, k⟩}) + g) := by
  have hb : σ.slots b = .staged k := (h.slots.staged_iff b k).1 (by simp)
  have hnd : (b, k) ∉ g.2.1 ∧ g.2.1.Nodup := by simpa using h.slots.staged_nodup
  have hfresh := h.refs.strong_fresh
  obtain ⟨h1, h2, h3, h4, h5, h6, h7, h8, h9, h10, h11⟩ := h.slots
  obtain ⟨r1, r2, r3, r4, r5, r6, r7, r8⟩ := h.refs
  have r6' := r6 σ.nextPtr
  simp only [Prod.fst_add, Prod.snd_add, Multiset.singleton_add, Multiset.mem_cons, zero_add] at h3 h4 h10 h11 r5
  simp only [Prod.snd_add, Multiset.map_add, Multiset.map_singleton, Multiset.count_add,
    Multiset.count_singleton] at r6 r6'
  refine ⟨⟨?_, ?_, ?_, ?_, ?_, ?_, ?_, h8, h9, by simpa using h10, by simpa using hnd.2⟩, ?_⟩
  iterate 7
    simp only [BlockStore.setSlot, BlockStore.newInner, Function.update_apply, Prod.fst_add,
      Prod.snd_add, zero_add]
    grind
  refine ⟨?_, ?_, ?_, ?_, ?_, ?_, ?_, ?_⟩
  · simp only [BlockStore.setSlot, BlockStore.newInner, Function.update_apply, List.mem_cons]
    grind
  · intro c k₁ p
    have hold := r2 c k₁ p
    simp only [BlockStore.setSlot, BlockStore.newInner]
    by_cases hc : c = b
    · subst hc
      have hnone : ∀ q₁, ⟨p, c, k₁, some q₁⟩ ∉ σ.inners := fun q₁ hq₁ => by
        have := hold.1 ⟨q₁, hq₁⟩
        rw [hb] at this
        cases this
      simp [hnone]
      grind
    · simp [hc, hold]
  · simp only [BlockStore.setSlot, BlockStore.newInner, Function.update_apply, List.mem_cons]
    grind
  · simp only [BlockStore.setSlot, BlockStore.newInner, List.mem_cons]
    grind
  · intro z hz
    rcases Multiset.mem_add.1 hz with hz | hz
    · rw [Multiset.mem_singleton.1 hz]
      exact ⟨some y.ptr, List.mem_cons_self⟩
    · obtain ⟨q, hq⟩ := r5 z (Or.inr hz)
      exact ⟨q, List.mem_cons_of_mem _ hq⟩
  · intro p
    have hr := r6 p
    simp only [BlockStore.setSlot, BlockStore.newInner, Function.update_apply, Prod.snd_add, Multiset.map_add,
      Multiset.map_singleton, Multiset.count_add, Multiset.count_singleton, List.filterMap_cons, List.count_cons]
    grind
  · simp only [BlockStore.setSlot, BlockStore.newInner, List.mem_cons]
    grind
  · simp only [BlockStore.setSlot, BlockStore.newInner, List.map_cons, List.nodup_cons,
      List.mem_map]
    grind

theorem keepalive_count_erase {σ : BlockStore H} {x : ImmutableBlockInner H}
    (hx : x ∈ σ.inners) (p : Ptr) :
    (σ.inners.filterMap (·.primaryKeepalive)).count p =
      ((σ.inners.erase x).filterMap (·.primaryKeepalive)).count p + if x.primaryKeepalive = some p then 1 else 0 := by
  have hperm := (List.perm_cons_erase hx).filterMap (·.primaryKeepalive)
  rw [hperm.count_eq, List.filterMap_cons]
  cases hk : x.primaryKeepalive with
  | none => simp
  | some q => simp [List.count_cons]

theorem mem_erase_inner {σ : BlockStore H} {g : Holdings H} (h : RefsInv σ g) (x y : ImmutableBlockInner H) :
    y ∈ σ.inners.erase x ↔ y ≠ x ∧ y ∈ σ.inners :=
  (List.Nodup.of_map _ h.inner_nodup).mem_erase_iff

/-- the inner blocks after one whose strong count is zero is gone, its slot having moved on -/
theorem erase_refs {σ σ' : BlockStore H} {g : Holdings H} (h : RefsInv σ g) {x : ImmutableBlockInner H}
    (hx : x ∈ σ.inners) (hs : σ.strong x.ptr = 0) (hk : x.primaryKeepalive = none)
    (hp : ∀ b k p, σ'.slots b = .primary k p ↔ σ.slots b = .primary k p ∧ p ≠ x.ptr)
    (hd : ∀ b k p, σ'.slots b = .duplicate k p ↔ σ.slots b = .duplicate k p)
    (hi : σ'.inners = σ.inners.erase x) (hst : σ'.strong = σ.strong) (hn : σ'.nextPtr = σ.nextPtr) :
    RefsInv σ' g := by
  have hmem := mem_erase_inner h x
  have huniq := fun y (hy : y ∈ σ.inners) => h.inner_unique hx hy
  have hcount := keepalive_count_erase hx
  obtain ⟨r1, r2, r3, r4, r5, r6, r7, r8⟩ := h
  have hzero : ∀ y ∈ σ.inners, y.primaryKeepalive ≠ some x.ptr := by
    intro y hy hyk
    have hpos : 0 < (σ.inners.filterMap (·.primaryKeepalive)).count x.ptr :=
      List.count_pos_iff.2 (List.mem_filterMap.2 ⟨y, hy, hyk⟩)
    have := r6 x.ptr
    omega
  have hshared : ∀ y ∈ g.2.2, y.ptr ≠ x.ptr := by
    intro y hy hp
    have := Multiset.count_pos.2 (Multiset.mem_map_of_mem ImmutableBlock.ptr hy)
    have := r6 x.ptr
    rw [hp] at *
    omega
  refine ⟨?_, ?_, ?_, ?_, ?_, ?_, ?_, ?_⟩
  · intro b k p hb
    obtain ⟨hb, hne⟩ := (hp b k p).1 hb
    rw [hi, hmem]
    exact ⟨fun heq => hne (congrArg ImmutableBlockInner.ptr heq), r1 b k p hb⟩
  · intro b k p
    rw [hi, hd, ← r2 b k p]
    simp only [hmem]
    exact ⟨fun ⟨q, _, hq⟩ => ⟨q, hq⟩, fun ⟨q, hq⟩ => ⟨q, (fun heq => by rw [← heq] at hk; cases hk), hq⟩⟩
  · intro p b k hin hpos
    rw [hi, hmem] at hin
    rw [hst] at hpos
    refine (hp b k p).2 ⟨r3 p b k hin.2 hpos, fun heq => ?_⟩
    exact hin.1 (huniq _ hin.2 heq.symm).symm
  · intro y hy q hyq
    rw [hi, hmem] at hy
    obtain ⟨b, k, hb⟩ := r4 y hy.2 q hyq
    refine ⟨b, k, ?_⟩
    rw [hi, hmem]
    refine ⟨fun heq => hzero y hy.2 ?_, hb⟩
    rw [hyq, ← heq]
  · intro y hy
    obtain ⟨q, hq⟩ := r5 y hy
    refine ⟨q, ?_⟩
    rw [hi, hmem]
    exact ⟨fun heq => hshared y hy (congrArg ImmutableBlockInner.ptr heq), hq⟩
  · intro p
    have := hcount p
    rw [hst, hi, r6 p, this]
    simp [hk]
  · intro y hy
    rw [hi, hmem] at hy
    rw [hn]
    exact r7 y hy.2
  · rw [hi]
    exact r8.sublist (List.erase_sublist.map _)

/-- a primary in its slot is the only block of its hash -/
theorem releasePrimary_slots {σ : BlockStore H} {g : Holdings H} (h : SlotsInv σ g) {b : BlockId} {k : H} {p : Ptr}
    (hb : σ.slots b = .primary k p) :
    SlotsInv (σ.releasePrimary b p) g ∧ (σ.releasePrimary b p).available = σ.available + 1 := by
  have hact : σ.activeByHash k = some b := (h.active_iff b k).2 ⟨p, hb⟩
  have huniq : ∀ b' p', σ.slots b' = .primary k p' → b' = b := fun b' p' hb' => h.active_unique hb' hb
  obtain ⟨h1, h2, h3, h4, h5, h6, h7, h8, h9, h10, h11⟩ := h
  have hlt : b < σ.totalBlocks := by
    by_contra hge
    rw [h7 b (not_lt.1 hge)] at hb
    cases hb
  have hnot : k ∉ σ.inactive.map Prod.fst := by
    intro hm
    obtain ⟨⟨k', b'⟩, hmem, rfl⟩ := List.mem_map.1 hm
    rw [h6 b' _ ((h2 b' _).1 hmem)] at hact
    cases hact
  simp only [BlockStore.releasePrimary, hb, if_true]
  split_ifs with hr
  · refine ⟨⟨?_, ?_, ?_, ?_, ?_, ?_, ?_, ?_, h9, h10, h11⟩, ?_⟩
    iterate 8
      simp only [BlockStore.resetSlot, BlockStore.setSlot, Function.update_apply, List.mem_append,
        List.mem_singleton, List.nodup_append]
      grind
    simp only [BlockStore.available, BlockStore.resetSlot, BlockStore.setSlot, List.length_append, List.length_singleton]
    omega
  · refine ⟨⟨?_, ?_, ?_, ?_, ?_, ?_, ?_, h8, ?_, h10, h11⟩, ?_⟩
    iterate 8
      simp only [BlockStore.eagerPrimaryToInactive, BlockStore.setSlot, Function.update_apply, List.mem_append,
        List.mem_singleton, List.map_append, List.nodup_append, List.map_cons, List.map_nil, List.nodup_singleton]
      grind
    simp only [BlockStore.available, BlockStore.eagerPrimaryToInactive, BlockStore.setSlot, List.length_append,
      List.length_singleton]
    omega

omit [DecidableEq H] in
theorem releaseDuplicate_slots {σ : BlockStore H} {g : Holdings H} (h : SlotsInv σ g) {b : BlockId} {k : H} {p : Ptr}
    (hb : σ.slots b = .duplicate k p) :
    SlotsInv (σ.releaseDuplicate b p) g ∧ (σ.releaseDuplicate b p).available = σ.available + 1 := by
  obtain ⟨h1, h2, h3, h4, h5, h6, h7, h8, h9, h10, h11⟩ := h
  have hlt : b < σ.totalBlocks := by
    by_contra hge
    rw [h7 b (not_lt.1 hge)] at hb
    cases hb
  simp only [BlockStore.releaseDuplicate, hb, if_true]
  refine ⟨⟨?_, ?_, ?_, ?_, ?_, ?_, ?_, ?_, h9, h10, h11⟩, ?_⟩
  iterate 8
    simp only [BlockStore.resetSlot, BlockStore.setSlot, Function.update_apply, List.mem_append,
      List.mem_singleton, List.nodup_append]
    grind
  simp only [BlockStore.available, BlockStore.resetSlot, BlockStore.setSlot, List.length_append, List.length_singleton]
  omega

theorem releasePrimary_refs_fields (σ : BlockStore H) (b : BlockId) (p : Ptr) :
    (σ.releasePrimary b p).inners = σ.inners ∧ (σ.releasePrimary b p).strong = σ.strong ∧
      (σ.releasePrimary b p).nextPtr = σ.nextPtr := by
  unfold BlockStore.releasePrimary
  split
  · split_ifs <;> exact ⟨rfl, rfl, rfl⟩
  · exact ⟨rfl, rfl, rfl⟩

/-- the drop of a primary whose slot still points at it -/
theorem dropInner_primary_inv {σ : BlockStore H} {g : Holdings H} (h : Inv σ g) {p : Ptr} {b : BlockId} {k : H}
    (hx : ⟨p, b, k, none⟩ ∈ σ.inners) (hs : σ.strong p = 0) (hb : σ.slots b = .primary k p) :
    Inv (σ.dropInner ⟨p, b, k, none⟩) g ∧ (σ.dropInner ⟨p, b, k, none⟩).available = σ.available + 1 := by
  set σ₁ : BlockStore H := { σ with inners := σ.inners.erase ⟨p, b, k, none⟩ } with hσ₁
  have hslots : SlotsInv σ₁ g := h.slots.congr rfl rfl rfl rfl rfl rfl rfl
  have hdrop : σ.dropInner ⟨p, b, k, none⟩ = σ₁.releasePrimary b p := rfl
  obtain ⟨hs', hav⟩ := releasePrimary_slots hslots hb
  obtain ⟨hin, hst, hnp⟩ := releasePrimary_refs_fields σ₁ b p
  have hslot : ∀ b', (σ₁.releasePrimary b p).slots b' = if b' = b then (σ₁.releasePrimary b p).slots b
      else σ.slots b' := by
    intro b'
    simp only [BlockStore.releasePrimary, hσ₁, hb, if_true]
    split_ifs <;>
      simp_all [BlockStore.resetSlot, BlockStore.eagerPrimaryToInactive, BlockStore.setSlot]
  have hgone : ∀ k' p', (σ₁.releasePrimary b p).slots b ≠ .primary k' p' ∧
      (σ₁.releasePrimary b p).slots b ≠ .duplicate k' p' := by
    intro k' p'
    simp only [BlockStore.releasePrimary, hσ₁, hb, if_true]
    split_ifs <;> simp [BlockStore.resetSlot, BlockStore.eagerPrimaryToInactive, BlockStore.setSlot]
  rw [hdrop]
  refine ⟨⟨hs', erase_refs h.refs hx hs rfl ?_ ?_ hin hst hnp⟩, hav⟩
  · intro b' k' p'
    rw [hslot]
    split_ifs with hbb
    · subst hbb
      simp only [(hgone k' p').1, false_iff, hb]
      grind
    · refine ⟨fun hb' => ⟨hb', fun hp => hbb ?_⟩, fun hb' => hb'.1⟩
      simp only at hp
      subst hp
      exact congrArg (·.blockId) (h.refs.inner_unique (h.refs.primary_inner b' k' p' hb') hx rfl)
  · intro b' k' p'
    rw [hslot]
    split_ifs with hbb
    · subst hbb
      simp [(hgone k' p').2, hb]
    · rfl

/-- the drop of a primary that a lookup has already moved on: only the inner block goes away -/
theorem dropInner_moved_inv {σ : BlockStore H} {g : Holdings H} (h : Inv σ g) {p : Ptr} {b : BlockId} {k : H}
    (hx : ⟨p, b, k, none⟩ ∈ σ.inners) (hs : σ.strong p = 0) (hb : σ.slots b ≠ .primary k p) :
    Inv (σ.dropInner ⟨p, b, k, none⟩) g ∧ (σ.dropInner ⟨p, b, k, none⟩).available = σ.available := by
  have hno : ∀ b' k', σ.slots b' ≠ .primary k' p := by
    intro b' k' hk'
    have := h.refs.inner_unique (h.refs.primary_inner b' k' p hk') hx rfl
    simp only [ImmutableBlockInner.mk.injEq, true_and, and_true] at this
    exact hb (by rw [← this.1, ← this.2]; exact hk')
  have hdrop : σ.dropInner ⟨p, b, k, none⟩ = { σ with inners := σ.inners.erase ⟨p, b, k, none⟩ } := by
    show BlockStore.releasePrimary _ b p = _
    unfold BlockStore.releasePrimary
    split
    · rename_i k' p' hk'
      by_cases hp : p' = p
      · subst hp; exact absurd hk' (hno b k')
      · simp [hp]
    · rfl
  rw [hdrop]
  refine ⟨⟨h.slots.congr rfl rfl rfl rfl rfl rfl rfl,
    erase_refs h.refs hx hs rfl ?_ (fun _ _ _ => Iff.rfl) rfl rfl rfl⟩, rfl⟩
  intro b' k' p'
  exact ⟨fun hb' => ⟨hb', fun hp => hno b' k' (by rw [hb']; exact congrArg _ hp)⟩, fun hb' => hb'.1⟩

/-- the drop of a duplicate: its slot is reset and its primary loses one reference -/
theorem dropInner_duplicate_inv {σ : BlockStore H} {g : Holdings H} (h : Inv σ g) {p q : Ptr} {b : BlockId} {k : H}
    (hx : ⟨p, b, k, some q⟩ ∈ σ.inners) (hs : σ.strong p = 0) :
    Inv (σ.dropInner ⟨p, b, k, some q⟩) g ∧
      (σ.dropInner ⟨p, b, k, some q⟩).available = σ.available + 1 := by
  have hb : σ.slots b = .duplicate k p := (h.refs.duplicate_iff b k p).1 ⟨q, hx⟩
  set σ₁ : BlockStore H := { σ with inners := σ.inners.erase ⟨p, b, k, some q⟩ } with hσ₁
  have hslots : SlotsInv σ₁ g := h.slots.congr rfl rfl rfl rfl rfl rfl rfl
  have hdrop : σ.dropInner ⟨p, b, k, some q⟩ = (σ₁.resetSlot b).dropImmutable q := by
    show (BlockStore.releaseDuplicate _ b p).dropImmutable q = _
    simp [BlockStore.releaseDuplicate, hb, hσ₁]
  have hrel : σ₁.releaseDuplicate b p = σ₁.resetSlot b := by simp [BlockStore.releaseDuplicate, hb, hσ₁]
  obtain ⟨hs', hav⟩ := releaseDuplicate_slots hslots hb
  rw [hrel] at hs' hav
  rw [hdrop]
  refine ⟨⟨hs'.congr rfl rfl rfl rfl rfl rfl rfl, ?_⟩, hav⟩
  have hmem := mem_erase_inner h.refs ⟨p, b, k, some q⟩
  have hcount := keepalive_count_erase hx
  have huniq := fun y (hy : y ∈ σ.inners) => h.refs.inner_unique hx hy
  obtain ⟨r1, r2, r3, r4, r5, r6, r7, r8⟩ := h.refs
  have hshared : ∀ y ∈ g.2.2, y.ptr ≠ p := by
    intro y hy hp
    have := Multiset.count_pos.2 (Multiset.mem_map_of_mem ImmutableBlock.ptr hy)
    have := r6 p
    rw [hp] at *
    omega
  refine ⟨?_, ?_, ?_, ?_, ?_, ?_, ?_, r8.sublist (List.erase_sublist.map _)⟩
  · simp only [BlockStore.dropImmutable, BlockStore.resetSlot, BlockStore.setSlot, hσ₁, Function.update_apply, hmem]
    grind
  · intro b' k' p'
    have hold := r2 b' k' p'
    simp only [BlockStore.dropImmutable, BlockStore.resetSlot, BlockStore.setSlot, hσ₁, hmem]
    by_cases hbb : b' = b
    · subst hbb
      simp only [Function.update_self, reduceCtorEq, iff_false, not_exists, not_and]
      intro q' hne hq'
      have hdup := hold.1 ⟨q', hq'⟩
      rw [hb] at hdup
      simp only [SlotState.duplicate.injEq] at hdup
      exact hne (huniq _ hq' hdup.2).symm
    · rw [Function.update_of_ne hbb, ← hold]
      exact ⟨fun ⟨q', _, hq'⟩ => ⟨q', hq'⟩, fun ⟨q', hq'⟩ => ⟨q', (fun heq => hbb (congrArg (·.blockId) heq)), hq'⟩⟩
  · intro p' b' k' hin hpos
    simp only [BlockStore.dropImmutable, BlockStore.resetSlot, BlockStore.setSlot, hσ₁, hmem] at hin hpos ⊢
    have hpos' : 0 < σ.strong p' := by
      rw [Function.update_apply] at hpos
      split_ifs at hpos with hpq
      · rw [hpq]; omega
      · exact hpos
    have hprim := r3 p' b' k' hin.2 hpos'
    have hbb : b' ≠ b := by rintro rfl; rw [hb] at hprim; cases hprim
    rw [Function.update_of_ne hbb]
    exact hprim
  · intro y hy q' hyq
    simp only [BlockStore.dropImmutable, BlockStore.resetSlot, BlockStore.setSlot, hσ₁, hmem] at hy ⊢
    obtain ⟨b', k', hb'⟩ := r4 y hy.2 q' hyq
    exact ⟨b', k', by simp, hb'⟩
  · intro y hy
    obtain ⟨q', hq'⟩ := r5 y hy
    refine ⟨q', ?_⟩
    simp only [BlockStore.dropImmutable, BlockStore.resetSlot, BlockStore.setSlot, hσ₁, hmem]
    exact ⟨fun heq => hshared y hy (congrArg ImmutableBlockInner.ptr heq), hq'⟩
  · intro p'
    have hold := r6 p'
    have hc := hcount p'
    simp only [BlockStore.dropImmutable, BlockStore.resetSlot, BlockStore.setSlot, hσ₁, Function.update_apply]
    by_cases hpq : p' = q
    · subst hpq
      simp only [if_true] at hc ⊢
      omega
    · have : ¬ (some q = some p') := fun heq => hpq (Option.some.inj heq).symm
      simp only [this, if_false] at hc
      simp only [hpq, if_false]
      omega
  · intro y hy
    simp only [BlockStore.dropImmutable, BlockStore.resetSlot, BlockStore.setSlot, hσ₁, hmem] at hy ⊢
    exact r7 y hy.2

/-- a drop removes the inner block and no other -/
theorem dropInner_inners (σ : BlockStore H) (x : ImmutableBlockInner H) :
    (σ.dropInner x).inners = σ.inners.erase x ∧ (σ.dropInner x).totalBlocks = σ.totalBlocks := by
  unfold BlockStore.dropInner
  cases x.primaryKeepalive with
  | none =>
    simp only [BlockStore.releasePrimary]
    split
    · split_ifs <;> exact ⟨rfl, rfl⟩
    · exact ⟨rfl, rfl⟩
  | some q =>
    simp only [BlockStore.releaseDuplicate, BlockStore.dropImmutable]
    split
    · split_ifs <;> exact ⟨rfl, rfl⟩
    · exact ⟨rfl, rfl⟩

/-- **Drop of an inner block.** Its slot, if it still points at it, becomes available again. -/
theorem dropInner_spec {σ : BlockStore H} {g : Holdings H} (h : Inv σ g) {x : ImmutableBlockInner H}
    (hx : x ∈ σ.inners) (hs : σ.strong x.ptr = 0) :
    Inv (σ.dropInner x) g ∧ σ.available ≤ (σ.dropInner x).available := by
  obtain ⟨p, b, k, _ | q⟩ := x
  · by_cases hb : σ.slots b = .primary k p
    · obtain ⟨hinv, hav⟩ := dropInner_primary_inv h hx hs hb
      exact ⟨hinv, by omega⟩
    · obtain ⟨hinv, hav⟩ := dropInner_moved_inv h hx hs hb
      exact ⟨hinv, by omega⟩
  · obtain ⟨hinv, hav⟩ := dropInner_duplicate_inv h hx hs
    exact ⟨hinv, by omega⟩

end Pegainfer.Kvbm
