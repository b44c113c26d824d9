/-
What a lookup, a prefix match and a registration do to the store: to the guards, to the availability, and to the set of
registered hashes.

A lookup that hits an inactive block takes it out of the available blocks; a hit on an active block, or on one whose
last holder is still dropping it, does not. So a prefix match costs `pinned` blocks, and a registration costs one block
when its hash is parked in the inactive index: the duplicate it makes keeps the resurrected primary alive.
-/
import Mathlib.Tactic
import Pegainfer.Kvbm.StoreInv

namespace Pegainfer.Kvbm

variable {H : Type} [DecidableEq H]

namespace BlockStore

/-- `has_inactive` -/
def hasInactive (σ : BlockStore H) (k : H) : Bool := σ.inactive.any fun e => e.1 = k

/-- the hash has a primary, active or inactive -/
def isRegistered (σ : BlockStore H) (k : H) : Bool := (σ.activeByHash k).isSome || σ.hasInactive k

/-- how many inactive primaries acquiring these hashes revives -/
def revived (σ : BlockStore H) (hs : List H) : ℕ := (hs.filter σ.hasInactive).dedup.length

/-- how many inactive blocks a prefix match takes out of availability -/
def pinned (σ : BlockStore H) (hs : List H) : ℕ := σ.revived (hs.takeWhile σ.isRegistered)

/-- whether registering `k` resurrects an inactive primary -/
def resurrects (σ : BlockStore H) (k : H) : ℕ := if σ.hasInactive k then 1 else 0

end BlockStore

open BlockStore

theorem hasInactive_iff (σ : BlockStore H) (k : H) : σ.hasInactive k = true ↔ k ∈ σ.inactive.map Prod.fst := by
  simp [hasInactive]

theorem hasInactive_slot {σ : BlockStore H} {g : Holdings H} (h : SlotsInv σ g) (k : H) :
    σ.hasInactive k = true ↔ ∃ b, σ.slots b = .inactive k := by
  rw [hasInactive_iff, List.mem_map]
  constructor
  · rintro ⟨⟨k', b⟩, hm, rfl⟩
    exact ⟨b, (h.inactive_iff b _).1 hm⟩
  · rintro ⟨b, hb⟩
    exact ⟨(k, b), (h.inactive_iff b k).2 hb, rfl⟩

/-- what a lookup that hits leaves behind -/
structure Acquired (σ σ' : BlockStore H) (g : Holdings H) (k : H) (x : ImmutableBlock H) : Prop where
  inv : Inv σ' ((0, 0, {x}) + g)
  hash : x.seqHash = k
  inner : ⟨x.ptr, x.blockId, x.seqHash, none⟩ ∈ σ'.inners
  grows : Grows σ σ'
  inactive : ∀ k', σ'.hasInactive k' = (σ.hasInactive k' && decide (k' ≠ k))
  registered : ∀ k', σ'.isRegistered k' = σ.isRegistered k'
  available : σ'.available + σ.resurrects k = σ.available

/-- removing the entry of one hash from an index with distinct hashes -/
theorem length_filter_ne (l : List (H × BlockId)) (hl : (l.map Prod.fst).Nodup) (k : H) :
    (l.filter fun e => e.1 ≠ k).length + (if k ∈ l.map Prod.fst then 1 else 0) = l.length := by
  induction l with
  | nil => simp
  | cons e l ih =>
    simp only [List.map_cons, List.nodup_cons] at hl
    have hrest := ih hl.2
    by_cases he : e.1 = k
    · have hn : k ∉ l.map Prod.fst := he ▸ hl.1
      simp only [hn, if_false] at hrest
      simp only [List.filter_cons, he, ne_eq, not_true_eq_false, decide_false, Bool.false_eq_true, if_false,
        List.map_cons, List.mem_cons, true_or, if_true, List.length_cons] at hrest ⊢
      omega
    · have hmem : (k ∈ (e :: l).map Prod.fst) ↔ k ∈ l.map Prod.fst := by simp [Ne.symm he]
      simp only [List.filter_cons, he, ne_eq, not_false_eq_true, decide_true, if_true, List.length_cons, hmem]
      simp only [ne_eq] at hrest
      omega

theorem resurrect_none {σ : BlockStore H} {k : H} (hk : σ.hasInactive k = false) : σ.resurrect k = .ok (none, σ) := by
  have : σ.inactive.find? (fun e => e.1 = k) = none := by
    rw [List.find?_eq_none]
    intro e he
    simp only [hasInactive, List.any_eq_false] at hk
    exact hk e he
  simp [resurrect, this]

theorem resurrect_some {σ : BlockStore H} {g : Holdings H} (h : Inv σ g) {k : H} (ha : σ.activeByHash k = none)
    (hk : σ.hasInactive k = true) :
    ∃ x σ', σ.resurrect k = .ok (some x, σ') ∧ Acquired σ σ' g k x := by
  obtain ⟨b, hb⟩ := (hasInactive_slot h.slots k).1 hk
  have hfind : ∃ k', σ.inactive.find? (fun e => e.1 = k) = some (k', b) := by
    cases hf : σ.inactive.find? (fun e => e.1 = k) with
    | none =>
      rw [List.find?_eq_none] at hf
      have := hf (k, b) ((h.slots.inactive_iff b k).2 hb)
      simp at this
    | some e =>
      obtain ⟨k', b'⟩ := e
      have hkk : k' = k := by simpa using List.find?_some hf
      have hb' := (h.slots.inactive_iff b' k').1 (List.mem_of_find?_eq_some hf)
      rw [hkk] at hb'
      exact ⟨k', by rw [h.slots.inactive_unique hb hb']⟩
  obtain ⟨k', hfind⟩ := hfind
  have heq : σ.resurrect k = .ok (some ⟨σ.nextPtr, b, k⟩,
      ({ σ with inactive := σ.inactive.filter fun e => e.1 ≠ k } : BlockStore H).newPrimary b k) := by
    simp [resurrect, hfind, hb, SlotState.isInactive]
  refine ⟨_, _, heq, newPrimary_inactive_inv h hb, rfl, List.mem_cons_self,
    ⟨fun y hy => List.mem_cons_of_mem _ hy, rfl⟩, ?_, ?_, ?_⟩
  · intro k''
    simp only [hasInactive, newPrimary, newInner, setSlot, List.any_filter]
    by_cases hkk : k'' = k
    · subst hkk
      simp
    · simp only [ne_eq, hkk, not_false_eq_true, decide_true, Bool.and_true]
      congr 1
      funext e
      by_cases he : e.1 = k'' <;> simp [he, hkk]
  · intro k''
    simp only [isRegistered, hasInactive, newPrimary, newInner, setSlot, List.any_filter, Function.update_apply]
    by_cases hkk : k'' = k
    · subst hkk
      have := hk
      simp only [hasInactive] at this
      simp [this]
    · simp only [hkk, if_false]
      congr 2
      funext e
      by_cases he : e.1 = k'' <;> simp [he, hkk]
  · have hlen := length_filter_ne σ.inactive h.slots.inactive_nodup k
    have hmem := (hasInactive_iff σ k).1 hk
    simp only [hmem, if_true] at hlen
    simp only [available, newPrimary, newInner, setSlot, resurrects, hk, if_true]
    omega

/-- **Lookup by hash.** It never panics; it misses exactly the unregistered hashes, and costs an available block
exactly when it resurrects an inactive one. -/
theorem acquireForHash_spec {σ : BlockStore H} {g : Holdings H} (h : Inv σ g) (k : H) :
    (σ.isRegistered k = false ∧ σ.acquireForHash k = .ok (none, σ)) ∨
    ∃ x σ', σ.isRegistered k = true ∧ σ.acquireForHash k = .ok (some x, σ') ∧ Acquired σ σ' g k x := by
  cases ha : σ.activeByHash k with
  | none =>
    cases hk : σ.hasInactive k with
    | false =>
      left
      refine ⟨by simp [isRegistered, ha, hk], ?_⟩
      simp [acquireForHash, ha, resurrect_none hk]
    | true =>
      right
      obtain ⟨x, σ', heq, hacq⟩ := resurrect_some h ha hk
      exact ⟨x, σ', by simp [isRegistered, hk], by simp [acquireForHash, ha, heq], hacq⟩
  | some b =>
    right
    obtain ⟨p, hb⟩ := (h.slots.active_iff b k).1 ha
    have hnot : σ.hasInactive k = false := by
      by_contra hk
      obtain ⟨b', hb'⟩ := (hasInactive_slot h.slots k).1 (by simpa using hk)
      rw [h.slots.inactive_not_active b' k hb'] at ha
      cases ha
    have hin := h.refs.primary_inner b k p hb
    by_cases hs : 0 < σ.strong p
    · -- the weak pointer upgrades
      refine ⟨⟨p, b, k⟩, σ.clone p, by simp [isRegistered, ha], by simp [acquireForHash, ha, hb, hs],
        clone_inv (x := ⟨p, b, k⟩) h hin hs, rfl, hin, ⟨fun _ hy => hy, rfl⟩, ?_, fun _ => rfl, ?_⟩
      · intro k'
        by_cases hkk : k' = k
        · subst hkk; simp [hasInactive, clone] at hnot ⊢; exact hnot
        · simp [hkk, hasInactive, clone]
      · simp [resurrects, hnot, available, clone]
    · -- the last holder is mid-drop: the lookup parks the block itself, then resurrects it
      have hzero : σ.strong p = 0 := by omega
      have h' := eagerPrimaryToInactive_inv h hb hzero
      set τ := σ.eagerPrimaryToInactive k b with hτ
      have hτk : τ.hasInactive k = true := by simp [hτ, hasInactive, eagerPrimaryToInactive, setSlot]
      have hτa : τ.activeByHash k = none := by simp [hτ, eagerPrimaryToInactive]
      have hτi : ∀ k', k' ≠ k → τ.hasInactive k' = σ.hasInactive k' := by
        intro k' hkk
        simp [hτ, hasInactive, eagerPrimaryToInactive, setSlot, Ne.symm hkk]
      have hτr : ∀ k', k' ≠ k → τ.isRegistered k' = σ.isRegistered k' := by
        intro k' hkk
        simp only [isRegistered, hτi k' hkk]
        simp [hτ, eagerPrimaryToInactive, Function.update_of_ne hkk]
      obtain ⟨x, σ', heq, hacq⟩ := resurrect_some h' hτa hτk
      refine ⟨x, σ', by simp [isRegistered, ha], by simp [acquireForHash, ha, hb, hs, ← hτ, heq],
        hacq.inv, hacq.hash, hacq.inner, ⟨hacq.grows.inners, hacq.grows.total⟩, ?_, ?_, ?_⟩
      · intro k'
        rw [hacq.inactive k']
        by_cases hkk : k' = k
        · simp [hkk]
        · rw [hτi k' hkk]
      · intro k'
        rw [hacq.registered k']
        by_cases hkk : k' = k
        · subst hkk; simp [isRegistered, ha, hτk]
        · exact hτr k' hkk
      · have := hacq.available
        simp only [resurrects, hτk, if_true] at this
        simp only [resurrects, hnot, Bool.false_eq_true, if_false, Nat.add_zero]
        have hlen : τ.available = σ.available + 1 := by
          simp only [hτ, available, eagerPrimaryToInactive, setSlot, List.length_append, List.length_singleton]
          omega
        omega

/-- what a prefix match leaves behind -/
structure Matched (σ σ' : BlockStore H) (g : Holdings H) (hs : List H) (xs : List (ImmutableBlock H)) : Prop where
  inv : Inv σ' (Holdings.ofImmutable xs + g)
  hashes : xs.map ImmutableBlock.seqHash = hs.takeWhile σ.isRegistered
  grows : Grows σ σ'
  available : σ'.available + σ.pinned hs = σ.available
  inactive : ∀ k, σ'.hasInactive k = true → σ.hasInactive k = true
  registered : ∀ k, σ'.isRegistered k = σ.isRegistered k

omit [DecidableEq H] in
theorem ofImmutable_cons (x : ImmutableBlock H) (xs : List (ImmutableBlock H)) :
    (Holdings.ofImmutable (x :: xs) : Holdings H) = (0, 0, {x}) + Holdings.ofImmutable xs := by
  simp [Holdings.ofImmutable]

/-- the revivals split into that of the first hash and those of the rest -/
theorem revived_cons {σ σ' : BlockStore H} {k : H} (hs : List H)
    (h : ∀ k', σ'.hasInactive k' = (σ.hasInactive k' && decide (k' ≠ k))) :
    σ.revived (k :: hs) = σ.resurrects k + σ'.revived hs := by
  have hfil : hs.filter σ'.hasInactive = (hs.filter σ.hasInactive).filter fun k' => decide (k' ≠ k) := by
    rw [List.filter_filter]
    congr 1
    funext k'
    rw [h k', Bool.and_comm]
  simp only [revived, hfil, List.filter_cons]
  set l := hs.filter σ.hasInactive with hl
  have hcard : ∀ m : List H, m.dedup.length = m.toFinset.card := fun m => (List.card_toFinset m).symm
  have herase : (l.filter fun k' => decide (k' ≠ k)).toFinset = l.toFinset.erase k := by
    ext a
    simp [and_comm]
  simp only [hcard, herase, resurrects]
  cases hi : σ.hasInactive k with
  | true =>
    simp only [if_true, List.toFinset_cons]
    by_cases hm : k ∈ l.toFinset
    · rw [Finset.insert_eq_of_mem hm, ← Finset.card_erase_add_one hm, Nat.add_comm]
    · rw [Finset.card_insert_of_notMem hm, Finset.erase_eq_of_notMem hm, Nat.add_comm]
  | false =>
    have hm : k ∉ l.toFinset := by simp [hl, hi]
    simp [Finset.erase_eq_of_notMem hm]

/-- the pins of a match split into those of its first hit and those of the rest -/
theorem pinned_cons {σ σ' : BlockStore H} {g : Holdings H} {k : H} {x : ImmutableBlock H} {hs : List H}
    (hk : σ.isRegistered k = true) (h : Acquired σ σ' g k x) :
    σ.pinned (k :: hs) = σ.resurrects k + σ'.pinned hs := by
  have hreg : σ'.isRegistered = σ.isRegistered := funext h.registered
  simp only [pinned, hreg, List.takeWhile_cons, hk, if_true]
  exact revived_cons _ h.inactive

/-- **Prefix match.** It never panics, returns the longest registered prefix in order, and takes `pinned` blocks out of
availability. -/
theorem matchBlocks_spec (hs : List H) {σ : BlockStore H} {g : Holdings H} (h : Inv σ g) :
    ∃ xs σ', σ.matchBlocks hs = .ok (xs, σ') ∧ Matched σ σ' g hs xs := by
  induction hs generalizing σ g with
  | nil =>
    have hzero : (Holdings.ofImmutable [] : Holdings H) = 0 := rfl
    exact ⟨[], σ, rfl, by rwa [hzero, zero_add], rfl, .refl σ, rfl, fun _ hk => hk, fun _ => rfl⟩
  | cons k hs ih =>
    rcases acquireForHash_spec h k with ⟨hk, heq⟩ | ⟨x, σ₁, hk, heq, hacq⟩
    · refine ⟨[], σ, by simp [matchBlocks, heq], ?_, by simp [hk], .refl σ, ?_, fun _ hk => hk,
        fun _ => rfl⟩
      · have hzero : (Holdings.ofImmutable [] : Holdings H) = 0 := rfl
        rwa [hzero, zero_add]
      · simp [pinned, revived, hk]
    · obtain ⟨xs, σ₂, heq₂, hm⟩ := ih hacq.inv
      refine ⟨x :: xs, σ₂, by simp [matchBlocks, heq, heq₂], ?_, ?_, hacq.grows.trans hm.grows, ?_, ?_, ?_⟩
      · rw [ofImmutable_cons, add_assoc, add_left_comm]
        exact hm.inv
      · have hreg : σ₁.isRegistered = σ.isRegistered := funext hacq.registered
        simp [hk, hacq.hash, hm.hashes, hreg]
      · rw [pinned_cons hk hacq]
        have := hm.available
        have := hacq.available
        omega
      · intro k' hk'
        have := hm.inactive k' hk'
        rw [hacq.inactive k', Bool.and_eq_true] at this
        exact this.1
      · intro k'
        rw [hm.registered, hacq.registered]

/-- what a registration leaves behind -/
structure Registered (σ σ' : BlockStore H) (g : Holdings H) (b : BlockId) (k : H) (x : ImmutableBlock H) : Prop where
  inv : Inv σ' ((0, 0, {x}) + g)
  block : x.blockId = b
  hash : x.seqHash = k
  grows : Grows σ σ'
  available : σ'.available + σ.resurrects k = σ.available
  inactive : ∀ k', σ'.hasInactive k' = (σ.hasInactive k' && decide (k' ≠ k))

/-- **Registration.** It never panics. The block becomes the primary of an unregistered hash, else a duplicate; when
the existing primary was inactive, that block leaves the available ones too. -/
theorem registerBlock_spec {σ : BlockStore H} {g : Holdings H} {b : BlockId} {k : H}
    (h : Inv σ ((0, {(b, k)}, 0) + g)) :
    ∃ x σ', σ.registerBlock b k = .ok (x, σ') ∧ Registered σ σ' g b k x := by
  rcases acquireForHash_spec h k with ⟨hk, heq⟩ | ⟨y, σ₁, hk, heq, hacq⟩
  · simp only [isRegistered, Bool.or_eq_false_iff] at hk
    have ha : σ.activeByHash k = none := by simpa using hk.1
    have hi : k ∉ σ.inactive.map Prod.fst := by
      rw [← hasInactive_iff, hk.2]
      simp
    refine ⟨⟨σ.nextPtr, b, k⟩, σ.newPrimary b k, by simp only [registerBlock, heq], newPrimary_staged_inv h ha hi,
      rfl, rfl, ⟨fun y hy => List.mem_cons_of_mem _ hy, rfl⟩, ?_, ?_⟩
    · simp [resurrects, hk.2, available, newPrimary, newInner, setSlot]
    · intro k'
      by_cases hkk : k' = k
      · subst hkk
        have := hk.2
        simp only [hasInactive] at this
        simp [hasInactive, newPrimary, newInner, setSlot, this]
      · simp [hkk, hasInactive, newPrimary, newInner, setSlot]
  · have hinv : Inv σ₁ ((0, {(b, k)}, {y}) + g) := by
      have := hacq.inv
      rwa [← add_assoc, show ((0, 0, {y}) + (0, {(b, k)}, 0) : Holdings H) = (0, {(b, k)}, {y}) by simp] at this
    have hne : y.blockId ≠ b := by
      rintro rfl
      have hst := (hinv.slots.staged_iff y.blockId k).1 (by simp)
      have hpos : 0 < σ₁.strong y.ptr := by
        rw [hinv.refs.strong_eq]
        simp only [Prod.snd_add, Multiset.map_add, Multiset.map_singleton, Multiset.count_add,
          Multiset.count_singleton_self]
        omega
      have hpr := hinv.refs.live_primary _ _ _ hacq.inner hpos
      rw [hst] at hpr
      cases hpr
    refine ⟨⟨σ₁.nextPtr, b, k⟩, (σ₁.newInner b k (some y.ptr)).setSlot b (.duplicate k σ₁.nextPtr),
      by simp only [registerBlock, heq, hne, if_false], newDuplicate_inv hinv hacq.inner, rfl, rfl,
      ⟨fun z hz => List.mem_cons_of_mem _ (hacq.grows.inners z hz), hacq.grows.total⟩, ?_, ?_⟩
    · have := hacq.available
      simpa [available, newInner, setSlot] using this
    · intro k'
      have := hacq.inactive k'
      simpa [hasInactive, newInner, setSlot] using this

end Pegainfer.Kvbm
