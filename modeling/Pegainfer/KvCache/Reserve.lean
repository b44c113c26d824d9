/-
What a request may still draw, and what the pool must keep for it.

A request of `prompt` tokens that may generate `max` holds at most `ceil((prompt + max) / block)` blocks; what it does
not hold yet is its remainder. An owner that keeps the remainders of all its requests available can serve every step.
- `census`: in a quiet store every block is available, exclusive to a guard or behind a live inner block.
- `match_served`: a prefix match takes at most the blocks the request holds afterwards.
- `schedulePrefill_cases`, `scheduleDecode_cases`: a schedule fails only when the remainder is not available.
- `applyPrefill_served`, `applyDecode_served`: an apply costs the inactive blocks its registrations revive, and no other.
- `dropKv_served`: a request that goes away only adds to what is available.
-/
import Mathlib.Tactic
import Pegainfer.KvCache.Pool

set_option linter.unusedSectionVars false

namespace Pegainfer.KvCache

open Pegainfer.Kvbm Pegainfer.Kvbm.BlockStore Pegainfer.Kvbm.SchedulableSequence

variable {H : Type} [DecidableEq H]

/-! ## The census of a quiet store -/

section Census

variable {σ : BlockStore H} {g : Holdings H}

/-- the slot of a live inner block names it -/
theorem Quiet.slot (hq : σ.Quiet) (h : Inv σ g) {x : ImmutableBlockInner H} (hx : x ∈ σ.inners) :
    σ.slots x.blockId = .primary x.seqHash x.ptr ∨ σ.slots x.blockId = .duplicate x.seqHash x.ptr :=
  h.refs.slot_of_strong hx (hq x hx)

theorem Quiet.nodup_blockIds (hq : σ.Quiet) (h : Inv σ g) : (σ.inners.map (·.blockId)).Nodup := by
  have hn := h.refs.inner_nodup
  rw [List.Nodup, List.pairwise_map] at hn ⊢
  refine hn.imp_of_mem ?_
  intro x y hx hy hne heq
  have h1 := Quiet.slot hq h hx
  have h2 := Quiet.slot hq h hy
  rw [heq] at h1
  rcases h1 with h1 | h1 <;> rcases h2 with h2 | h2 <;> rw [h1] at h2 <;> simp_all

/-- a slot state is registered when an inner block stands behind it -/
theorem Quiet.mem_blockIds (hq : σ.Quiet) (h : Inv σ g) (b : BlockId) :
    b ∈ σ.inners.map (·.blockId) ↔ ∃ k p, σ.slots b = .primary k p ∨ σ.slots b = .duplicate k p := by
  constructor
  · intro hb
    obtain ⟨x, hx, rfl⟩ := List.mem_map.1 hb
    exact ⟨x.seqHash, x.ptr, Quiet.slot hq h hx⟩
  · rintro ⟨k, p, hb | hb⟩
    · exact List.mem_map.2 ⟨_, h.refs.primary_inner b k p hb, rfl⟩
    · obtain ⟨q, hin⟩ := (h.refs.duplicate_iff b k p).2 hb
      exact List.mem_map.2 ⟨_, hin, rfl⟩

theorem mem_inactiveIds (h : SlotsInv σ g) (b : BlockId) :
    b ∈ σ.inactive.map Prod.snd ↔ ∃ k, σ.slots b = .inactive k := by
  constructor
  · intro hb
    obtain ⟨⟨k, b'⟩, he, rfl⟩ := List.mem_map.1 hb
    exact ⟨k, (h.inactive_iff b' k).1 he⟩
  · rintro ⟨k, hb⟩
    exact List.mem_map.2 ⟨(k, b), (h.inactive_iff b k).2 hb, rfl⟩

theorem nodup_inactiveIds (h : SlotsInv σ g) : (σ.inactive.map Prod.snd).Nodup := by
  have hn := h.inactive_nodup
  rw [List.Nodup, List.pairwise_map] at hn ⊢
  refine hn.imp_of_mem ?_
  rintro ⟨k, b⟩ ⟨k', b'⟩ hx hy hne heq
  have h1 := (h.inactive_iff b k).1 hx
  have h2 := (h.inactive_iff b' k').1 hy
  simp only at heq hne
  rw [heq, h2] at h1
  exact hne (by simpa using h1.symm)

theorem mem_stagedIds (h : SlotsInv σ g) (b : BlockId) : b ∈ g.2.1.map Prod.fst ↔ ∃ k, σ.slots b = .staged k := by
  constructor
  · intro hb
    obtain ⟨⟨b', k⟩, he, rfl⟩ := Multiset.mem_map.1 hb
    exact ⟨k, (h.staged_iff b' k).1 he⟩
  · rintro ⟨k, hb⟩
    exact Multiset.mem_map.2 ⟨(b, k), (h.staged_iff b k).2 hb, rfl⟩

theorem nodup_stagedIds (h : SlotsInv σ g) : (g.2.1.map Prod.fst).Nodup := by
  refine h.staged_nodup.map_on ?_
  rintro ⟨b, k⟩ hx ⟨b', k'⟩ hy heq
  have h1 := (h.staged_iff b k).1 hx
  have h2 := (h.staged_iff b' k').1 hy
  simp only at heq
  rw [heq, h2] at h1
  simp only [SlotState.staged.injEq] at h1
  rw [heq, h1]

/-- **Census.** Every block of a quiet store is available, held exclusively or behind an inner block. -/
theorem census (h : Inv σ g) (hq : σ.Quiet) :
    σ.available + g.1.card + g.2.1.card + σ.inners.length = σ.totalBlocks := by
  have hall : (↑σ.free + ↑(σ.inactive.map Prod.snd) + g.1 + g.2.1.map Prod.fst + ↑(σ.inners.map (·.blockId)) :
      Multiset BlockId) = Multiset.range σ.totalBlocks := by
    have hfree : (↑σ.free : Multiset BlockId).Nodup := by simpa using h.slots.free_nodup
    have hinact : (↑(σ.inactive.map Prod.snd) : Multiset BlockId).Nodup := by
      simpa using nodup_inactiveIds h.slots
    have hinner : (↑(σ.inners.map (·.blockId)) : Multiset BlockId).Nodup := by
      simpa using Quiet.nodup_blockIds hq h
    have mfree : ∀ b, b ∈ (↑σ.free : Multiset BlockId) ↔ b < σ.totalBlocks ∧ σ.slots b = .reset := by
      intro b
      rw [Multiset.mem_coe]
      exact h.slots.free_iff b
    have minact := mem_inactiveIds h.slots
    have minner := Quiet.mem_blockIds hq h
    simp only [← Multiset.mem_coe] at minact minner
    refine (Multiset.Nodup.ext ?_ (Multiset.nodup_range _)).2 ?_
    · refine Multiset.nodup_add.2 ⟨Multiset.nodup_add.2 ⟨Multiset.nodup_add.2 ⟨Multiset.nodup_add.2
        ⟨hfree, hinact, ?_⟩, h.slots.mutable_nodup, ?_⟩, nodup_stagedIds h.slots, ?_⟩, hinner, ?_⟩
      all_goals
        rw [Multiset.disjoint_left]
        intro b hb hb'
        simp only [Multiset.mem_add, mfree, minact, minner, h.slots.mutable_iff, mem_stagedIds h.slots] at hb hb'
        grind
    · intro b
      have hrange := h.slots.in_range b
      simp only [Multiset.mem_add, mfree, minact, minner, h.slots.mutable_iff, mem_stagedIds h.slots,
        Multiset.mem_range]
      cases hs : σ.slots b <;> simp_all
  have hcard := congrArg Multiset.card hall
  simp only [Multiset.card_add, Multiset.coe_card, List.length_map, Multiset.card_map, Multiset.card_range] at hcard
  simp only [available]
  omega

/-- **Comparison.** Between two quiet stores whose guards differ by the references `xs`, and whose duplicates were all
there before, at most one block for each of `xs` is no longer available. -/
theorem available_le_of_quiet {σ' : BlockStore H} {xs : List (ImmutableBlock H)} (h : Inv σ g) (hq : σ.Quiet)
    (h' : Inv σ' (Holdings.ofImmutable xs + g)) (hq' : σ'.Quiet) (htotal : σ'.totalBlocks = σ.totalBlocks)
    (hdup : ∀ y ∈ σ'.inners, y.primaryKeepalive ≠ none → y ∈ σ.inners) :
    σ.available ≤ σ'.available + xs.length := by
  have hsub : σ'.inners.map (·.ptr) ⊆ σ.inners.map (·.ptr) ++ xs.map ImmutableBlock.ptr := by
    intro p hp
    obtain ⟨y, hy, rfl⟩ := List.mem_map.1 hp
    have hpos := hq' y hy
    rw [h'.refs.strong_eq] at hpos
    rw [List.mem_append]
    by_cases hx : y.ptr ∈ xs.map ImmutableBlock.ptr
    · exact Or.inr hx
    left
    rcases Nat.eq_zero_or_pos ((σ'.inners.filterMap (·.primaryKeepalive)).count y.ptr) with hk | hk
    · -- no duplicate keeps it alive: another guard does, and its inner block is an old one
      rw [hk, Nat.add_zero, Multiset.count_pos] at hpos
      obtain ⟨z, hz, hzp⟩ := Multiset.mem_map.1 hpos
      simp only [Holdings.ofImmutable, Prod.snd_add, Multiset.mem_add, Multiset.mem_coe] at hz
      rcases hz with hz | hz
      · exact absurd (List.mem_map.2 ⟨z, hz, hzp⟩) hx
      · obtain ⟨q, hin⟩ := h.refs.shared_inner z hz
        exact List.mem_map.2 ⟨_, hin, hzp⟩
    · obtain ⟨d, hd, hdk⟩ := List.mem_filterMap.1 (List.count_pos_iff.1 hk)
      obtain ⟨b, k, hin⟩ := h.refs.keepalive_inner d (hdup d hd (by simp [hdk])) y.ptr hdk
      exact List.mem_map.2 ⟨_, hin, rfl⟩
  have hlen := (List.subperm_of_subset h'.refs.inner_nodup hsub).length_le
  simp only [List.length_append, List.length_map] at hlen
  have hc := census h hq
  have hc' := census h' hq'
  simp only [Holdings.ofImmutable, Prod.fst_add, Prod.snd_add, zero_add] at hc'
  omega

end Census

/-! ## A request within its lifetime -/

section Request

variable [BlockHash H]

/-- the blocks a request may hold over its lifetime -/
def lifetimeBlocks (kv : RequestKv H) : ℕ := divCeil (kv.numInputTokens + kv.maxOutputTokens) kv.blockSize

/-- the blocks it may still draw -/
def remainingBlocks (kv : RequestKv H) : ℕ := lifetimeBlocks kv - kv.residentBlocks

/-- a request of `prompt` input tokens and up to `max` output tokens, and where its sequence stands -/
structure Within (bs prompt max : ℕ) (kv : RequestKv H) : Prop where
  size : kv.blockSize = bs
  input : kv.numInputTokens = prompt
  output : kv.maxOutputTokens = max
  positions : Positions (prompt + max) kv
  tokens : kv.totalTokens = prompt + kv.generatedTokens
  provisioned : kv.Provisioned
  /-- every token with KV lies in a block the request holds -/
  covered : divCeil kv.kvPosition bs ≤ kv.residentBlocks

/-- before its prefill is scheduled -/
structure Waiting (bs prompt max : ℕ) (kv : RequestKv H) : Prop extends Within bs prompt max kv where
  state : kv.state = .idle
  unfinished : kv.prefillPosition < prompt

/-- its whole suffix is scheduled -/
structure Prefilling (bs prompt max : ℕ) (kv : RequestKv H) : Prop extends Within bs prompt max kv where
  state : ∃ n b, kv.state = .prefillScheduled n b ∧ kv.prefillPosition + n = prompt

/-- `count` tokens generated, the last without KV -/
structure Generated (bs prompt max count : ℕ) (kv : RequestKv H) : Prop extends Within bs prompt max kv where
  prefilled : kv.prefillPosition = prompt
  generated : kv.generatedTokens = count
  positive : 1 ≤ count

/-- between two steps -/
structure Settled (bs prompt max count : ℕ) (kv : RequestKv H) : Prop extends Generated bs prompt max count kv where
  state : kv.state = .idle

/-- its next decode is scheduled -/
structure Decoding (bs prompt max count : ℕ) (kv : RequestKv H) : Prop extends Generated bs prompt max count kv where
  state : ∃ b, kv.state = .decodeScheduled b

variable {bs prompt max count : ℕ} {kv : RequestKv H}

theorem Within.lifetime (h : Within bs prompt max kv) : lifetimeBlocks kv = divCeil (prompt + max) bs := by
  rw [lifetimeBlocks, h.size, h.input, h.output]

theorem Within.resident_le (h : Within bs prompt max kv) : kv.residentBlocks ≤ divCeil (prompt + max) bs := by
  have hle := h.positions.resident_le
  have hst : kv.staged.length = 0 := by rw [h.positions.base.staged_nil]; rfl
  rw [h.size] at hle
  simp only [residentBlocks]
  omega

theorem Generated.kvPosition (h : Generated bs prompt max count kv) : kv.kvPosition + 1 = prompt + count := by
  have hpos := h.positive
  rcases h.positions.generating (by rw [h.prefilled, h.input]) with ⟨-, hkv⟩ | ⟨h0, -⟩
  · rw [hkv, h.input, h.generated]
  · rw [h.generated] at h0
    omega

/-- a request of one token whose page is scheduled -/
theorem Prefilling.single (h : Prefilling bs 1 max kv) :
    kv.kvPosition = 0 ∧ remainingBlocks kv + 1 ≤ divCeil (1 + max) bs := by
  obtain ⟨m, b, hst, hm⟩ := h.state
  obtain ⟨hlt, -, -⟩ := h.positions.inPrefill m b hst
  obtain ⟨hkv, -, -⟩ := h.positions.prefilling hlt
  rw [h.input] at hlt
  have hb : 0 < bs := h.size ▸ h.positions.base.size_pos
  have hheld := h.provisioned.prefill m b hst
  have hceil : 0 / bs + 1 ≤ divCeil 1 bs := div_succ_le_divCeil hb
  rw [hm, h.size] at hheld
  rw [Nat.zero_div] at hceil
  have hres := h.resident_le
  refine ⟨by omega, ?_⟩
  rw [remainingBlocks, h.lifetime]
  simp only [residentBlocks] at hres ⊢
  omega

theorem Generated.generates (h : Generated bs prompt max count kv) (hlt : count < max) : kv.Generates := by
  have htok := h.tokens
  have hkv := h.kvPosition
  have hgen := h.generated
  refine ⟨by rw [h.input, h.prefilled], by rw [h.generated, h.output]; exact hlt, by omega⟩

theorem new_waiting (tokens : List Token) (max : ℕ) {bs : ℕ} (salt : SaltHash) (hb : 0 < bs) (hp : tokens ≠ []) :
    Waiting bs tokens.length max (SchedulableSequence.new tokens max bs salt : RequestKv H) :=
  ⟨⟨rfl, rfl, rfl, positions_new tokens max salt hb, rfl, .of_idle rfl, (divCeil_le_iff hb).2 (Nat.zero_le _)⟩, rfl,
    List.length_pos_of_ne_nil hp⟩

/-- the calls of plain generation: no speculation, no padding, no adopted anchor -/
def isPlain : Call → Bool
  | .matchAndAddPrefix | .schedulePrefill _ | .applyPrefill _ | .scheduleDecode | .applyDecode _ => true
  | _ => false

/-- **Plain calls.** They keep a request within its lifetime and its computed tokens within its blocks. -/
theorem Within.effect {c : Call} {r : CallResult} {kv' : RequestKv H} (h : Within bs prompt max kv)
    (he : Effect kv c r kv') (hc : isPlain c = true) (hm : c = .matchAndAddPrefix → kv.prefillPosition = 0) :
    Within bs prompt max kv' := by
  have hpos := he.positions (fun hc _ _ => hm hc) h.positions
  have hprov := he.provisioned h.positions.base h.provisioned
  have htok := he.unpadded_tokens (fun pad hp => by rw [hp] at hc; cases hc) (by rw [h.tokens, h.input])
  have hb : 0 < bs := by
    rw [← h.size]
    exact h.positions.base.size_pos
  have hcov := h.covered
  have hstaged := h.positions.base.staged_nil
  cases he with
  | refused => exact h
  | unmatched => exact h
  | matched xs hs hres hne hmax hle hx =>
    refine ⟨h.size, h.input, h.output, hpos, by rw [htok]; congr 1; exact h.input, hprov, ?_⟩
    have hzero := hm rfl
    simp only [withMatched, hzero, Nat.zero_add, h.size, divCeil_mul _ hb, residentBlocks]
    omega
  | prefillScheduled n ids =>
    refine ⟨h.size, h.input, h.output, hpos, h.tokens, hprov, ?_⟩
    rw [resident_drawn]
    exact hcov.trans (Nat.le_add_right _ _)
  | prefillApplied n b t xs hs ht hf hg hx =>
    refine ⟨h.size, h.input, h.output, hpos, by rw [htok]; congr 1; exact h.input, hprov, ?_⟩
    have hp := h.provisioned.prefill n b hs
    have hres := resident_withRegistered hstaged hx
    rw [h.size] at hp
    simp only [residentBlocks, appended, withRegistered, List.length_nil] at hres ⊢
    omega
  | decodeScheduled ids =>
    refine ⟨h.size, h.input, h.output, hpos, h.tokens, hprov, ?_⟩
    rw [resident_drawn]
    exact hcov.trans (Nat.le_add_right _ _)
  | decodeApplied b t xs hs hg hx =>
    refine ⟨h.size, h.input, h.output, hpos, by rw [htok]; congr 1; exact h.input, hprov, ?_⟩
    have hp := h.provisioned.decode b hs
    have hd := (h.positions.inDecode b hs).dangling
    have hres := resident_withRegistered hstaged hx
    have hceil : divCeil (kv.kvPosition + 1) bs ≤ kv.completeSequenceBlocks + 1 := by
      rw [divCeil_le_iff hb, completeSequenceBlocks, hd, h.size]
      have := Nat.div_add_mod (kv.kvPosition + 1) bs
      have := Nat.mod_lt (kv.kvPosition + 1) hb
      nlinarith
    simp only [residentBlocks, appended, withRegistered, List.length_nil] at hres ⊢
    omega
  | _ => cases hc

end Request

/-! ## Operations on the pool -/

section Pool

variable [BlockHash H] {p p' : BlockPool H} {kv kv' : RequestKv H} {F : Holdings H} {bs prompt max count : ℕ}

/-- the pool accounts for the guards `g`, and no release is due -/
structure Account (p : BlockPool H) (g : Holdings H) : Prop where
  inv : Inv p.store g
  quiet : p.store.Quiet

/-- the pool is the same but for its store, which keeps its size -/
structure SamePool (p p' : BlockPool H) : Prop where
  blockSize : p'.blockSize = p.blockSize
  paddingBlockId : p'.paddingBlockId = p.paddingBlockId
  total : p'.store.totalBlocks = p.store.totalBlocks

theorem SamePool.refl (p : BlockPool H) : SamePool p p := ⟨rfl, rfl, rfl⟩

theorem SamePool.trans {p₁ p₂ p₃ : BlockPool H} (h : SamePool p₁ p₂) (h' : SamePool p₂ p₃) : SamePool p₁ p₃ :=
  ⟨h'.blockSize.trans h.blockSize, h'.paddingBlockId.trans h.paddingBlockId, h'.total.trans h.total⟩

theorem dueDrop_of_quiet {σ : BlockStore H} (h : σ.Quiet) : σ.dueDrop = none := by
  refine List.find?_eq_none.2 ?_
  intro x hx
  have := h x (List.mem_reverse.1 hx)
  simp only [decide_eq_true_eq]
  omega

theorem runDropsUpTo_of_quiet {σ : BlockStore H} (h : σ.Quiet) (n : ℕ) : runDropsUpTo n σ = σ := by
  cases n with
  | zero => rfl
  | succ n => simp only [runDropsUpTo, dueDrop_of_quiet h]

theorem runDrops_of_quiet {σ : BlockStore H} (h : σ.Quiet) : σ.runDrops = σ := runDropsUpTo_of_quiet h _

theorem mem_runDropsUpTo (n : ℕ) {σ : BlockStore H} {x : ImmutableBlockInner H}
    (hx : x ∈ (runDropsUpTo n σ).inners) : x ∈ σ.inners := by
  induction n generalizing σ with
  | zero => exact hx
  | succ n ih =>
    simp only [runDropsUpTo] at hx
    split at hx
    · exact hx
    · have := ih hx
      rw [(dropInner_inners _ _).1] at this
      exact List.mem_of_mem_erase this

/-- what a carried-out call leaves -/
theorem call_account {c : Call} {σ : BlockStore H} {r : CallResult} (h : Account p (kv.holdings + F))
    (hc : kv.call c p.store = .ok (r, kv', σ)) :
    p.call kv c = .ok (r, kv', { p with store := σ.runDrops }) ∧
      Account { p with store := σ.runDrops } (kv'.holdings + F) ∧ SamePool p { p with store := σ.runDrops } ∧
      σ.available ≤ σ.runDrops.available ∧ CallSpec kv kv' p.store σ F c r := by
  have hspec := call_spec h.inv hc
  obtain ⟨hinv, hav, hq, htot⟩ := runDrops_spec hspec.inv
  exact ⟨by simp only [BlockPool.call, hc], ⟨hinv, hq⟩, ⟨rfl, rfl, htot.trans hspec.grows.total⟩, hav, hspec⟩

/-- a schedule that finds too few blocks changes nothing -/
theorem call_refused {c : Call} {r : CallResult} (h : Account p (kv.holdings + F))
    (hc : kv.call c p.store = .ok (r, kv, p.store)) : p.call kv c = .ok (r, kv, p) := by
  simp only [BlockPool.call, hc, runDrops_of_quiet h.quiet]

/-! ### Prefix match -/

theorem resurrect_inners {σ σ' : BlockStore H} {k : H} {x : Option (ImmutableBlock H)}
    (h : σ.resurrect k = .ok (x, σ')) : ∀ y ∈ σ'.inners, y.primaryKeepalive ≠ none → y ∈ σ.inners := by
  intro y hy hk
  unfold resurrect at h
  split at h
  · simp only [Except.ok.injEq, Prod.mk.injEq] at h
    rwa [← h.2] at hy
  · split_ifs at h
    simp only [Except.ok.injEq, Prod.mk.injEq] at h
    rw [← h.2] at hy
    rcases List.mem_cons.1 hy with rfl | hy
    · exact absurd rfl hk
    · exact hy

theorem acquireForHash_inners {σ σ' : BlockStore H} {k : H} {x : Option (ImmutableBlock H)}
    (h : σ.acquireForHash k = .ok (x, σ')) : ∀ y ∈ σ'.inners, y.primaryKeepalive ≠ none → y ∈ σ.inners := by
  unfold acquireForHash at h
  split at h
  · exact resurrect_inners h
  · split at h
    · split_ifs at h
      · simp only [Except.ok.injEq, Prod.mk.injEq] at h
        rw [← h.2]
        exact fun y hy _ => hy
      · exact resurrect_inners (σ := σ.eagerPrimaryToInactive k _) h
    · cases h

/-- a match adds no duplicate -/
theorem matchBlocks_inners (hs : List H) : ∀ {σ σ' : BlockStore H} {xs : List (ImmutableBlock H)},
    σ.matchBlocks hs = .ok (xs, σ') → ∀ y ∈ σ'.inners, y.primaryKeepalive ≠ none → y ∈ σ.inners := by
  induction hs with
  | nil =>
    intro σ σ' xs h y hy _
    simp only [matchBlocks, Except.ok.injEq, Prod.mk.injEq] at h
    rwa [← h.2] at hy
  | cons k hs ih =>
    intro σ σ' xs h y hy hk
    simp only [matchBlocks] at h
    split at h
    · cases h
    · rename_i σ₁ heq
      simp only [Except.ok.injEq, Prod.mk.injEq] at h
      rw [← h.2] at hy
      exact acquireForHash_inners heq y hy hk
    · rename_i b σ₁ heq
      split at h
      · cases h
      · rename_i bs σ₂ heq₂
        simp only [Except.ok.injEq, Prod.mk.injEq] at h
        rw [← h.2] at hy
        exact acquireForHash_inners heq y (ih heq₂ y hy hk) hk

theorem dropImmutables_inners (xs : List (ImmutableBlock H)) (σ : BlockStore H) :
    (σ.dropImmutables xs).inners = σ.inners := by
  induction xs generalizing σ with
  | nil => rfl
  | cons x xs ih => exact ih (σ.dropImmutable x.ptr)

theorem matchAndAddPrefix_inners {σ σ' : BlockStore H} {r : Except ScheduleError ℕ}
    (h : kv.matchAndAddPrefix σ = .ok (r, kv', σ')) :
    ∀ y ∈ σ'.inners, y.primaryKeepalive ≠ none → y ∈ σ.inners := by
  unfold matchAndAddPrefix at h
  split_ifs at h
  · simp only [Except.ok.injEq, Prod.mk.injEq] at h
    rw [← h.2.2]
    exact fun y hy _ => hy
  · split at h
    · cases h
    · rename_i hits σ₁ heq
      have hdrop := dropImmutables_inners (hits.drop kv.maxMatchedBlocks) σ₁
      simp only at h
      split_ifs at h
      all_goals
        simp only [Except.ok.injEq, Prod.mk.injEq] at h
        rw [← h.2.2, hdrop]
        exact matchBlocks_inners _ heq

/-- **Prefix match.** A new request attaches its cached prefix, and no more blocks leave the available ones than it
attaches. -/
theorem match_served [PositionalHash H] (h : Account p F) (tokens : List Token) (max : ℕ) (salt : SaltHash)
    (hb : 0 < p.blockSize) (hp : tokens ≠ []) :
    ∃ kv' p', p.call (p.newRequest tokens max salt) .matchAndAddPrefix = .ok (.done, kv', p') ∧
      Account p' (kv'.holdings + F) ∧ SamePool p p' ∧ Waiting p.blockSize tokens.length max kv' ∧
      kv'.prefillPosition = kv'.prefixMatchedBlocks * p.blockSize ∧
      ∀ R, divCeil (tokens.length + max) p.blockSize + R ≤ p.availableBlocks →
        remainingBlocks kv' + R ≤ p'.availableBlocks := by
  have hw : Waiting p.blockSize tokens.length max (p.newRequest tokens max salt) := new_waiting tokens max salt hb hp
  set kv := p.newRequest tokens max salt with hkv
  have hzero : kv.holdings = 0 := rfl
  have hacc : Account p (kv.holdings + F) := by rwa [hzero, zero_add]
  obtain ⟨xs, σ, heq, hlen⟩ := matchAndAddPrefix_carried hacc.inv hb rfl rfl rfl
  have hcall : kv.call .matchAndAddPrefix p.store = .ok (.done, kv.withMatched xs, σ) := by
    simp only [call, heq, Except.map, CallResult.ofSchedule]
  obtain ⟨hpc, hacc', hsame, -, -⟩ := call_account hacc hcall
  have hwith := hw.toWithin.effect (call_effect hcall) rfl (fun _ => rfl)
  have hres : (kv.withMatched xs).residentBlocks = xs.length := rfl
  have hpos : (kv.withMatched xs).prefillPosition < tokens.length := by
    have hcap : xs.length ≤ (tokens.length - 1) / p.blockSize := by
      rw [hlen]
      exact min_le_right _ _
    have hmul := (Nat.le_div_iff_mul_le hb).1 hcap
    have htok := List.length_pos_of_ne_nil hp
    show 0 + xs.length * p.blockSize < tokens.length
    omega
  have hcached : (kv.withMatched xs).prefillPosition = (kv.withMatched xs).prefixMatchedBlocks * p.blockSize := by
    show 0 + xs.length * p.blockSize = (0 + xs.length) * p.blockSize
    rw [Nat.zero_add, Nat.zero_add]
  refine ⟨_, _, hpc, hacc', hsame, ⟨hwith, rfl, hpos⟩, hcached, ?_⟩
  intro R hR
  have hinners : ∀ y ∈ σ.runDrops.inners, y.primaryKeepalive ≠ none → y ∈ p.store.inners := by
    intro y hy hk
    exact matchAndAddPrefix_inners heq y (mem_runDropsUpTo _ hy) hk
  have hav : p.store.available ≤ σ.runDrops.available + xs.length :=
    available_le_of_quiet h.inv h.quiet hacc'.inv hacc'.quiet hsame.total hinners
  have hfull := hwith.resident_le
  rw [hres] at hfull
  simp only [remainingBlocks, hwith.lifetime, hres, BlockPool.availableBlocks] at hR ⊢
  omega

/-! ### Schedules -/

/-- what a schedule that is carried out leaves available -/
theorem schedule_room {c : Call} {σ : BlockStore H} (h : Account p (kv.holdings + F)) (hw : Within bs prompt max kv)
    (hw' : Within bs prompt max kv') (hc : c.isSchedule = true) (hcall : kv.call c p.store = .ok (.done, kv', σ)) :
    ∀ R, remainingBlocks kv + R ≤ p.availableBlocks → remainingBlocks kv' + R ≤ σ.runDrops.available := by
  intro R hR
  obtain ⟨-, -, -, hav, hspec⟩ := call_account h hcall
  have hsettle : σ.available + kv'.residentBlocks = p.store.available + kv.residentBlocks := by
    have := hspec.settles rfl
    cases c <;> simp_all [Settles, registers, revived, Call.isSchedule]
  have h1 := hw.resident_le
  have h2 := hw'.resident_le
  simp only [remainingBlocks, hw.lifetime, hw'.lifetime, BlockPool.availableBlocks] at hR ⊢
  omega

/-- a schedule that passed its checks draws, or finds too few blocks -/
theorem drawn_cases {c : Call} {next : SequenceState} (h : Account p (kv.holdings + F))
    (hd : kv.call c p.store = (kv.drawInto (kv.draws c) next p.store).map fun r => (.ofSchedule r.1, r.2)) :
    (∃ kv' σ, kv.call c p.store = .ok (.done, kv', σ)) ∨
      kv.call c p.store = .ok (.scheduleError (.allocationFailed (kv.draws c)), kv, p.store) ∧
        p.store.available < kv.draws c := by
  rcases drawInto_spec h.inv (kv.draws c) next with ⟨hlt, heq⟩ | ⟨ids, σ, -, heq, -⟩
  · exact Or.inr ⟨by rw [hd, heq]; rfl, hlt⟩
  · exact Or.inl ⟨_, σ, by rw [hd, heq]; rfl⟩

theorem short_of_draws {c : Call} (hw : Within bs prompt max kv) (hav : p.store.available < kv.draws c) :
    p.availableBlocks < remainingBlocks kv := by
  have hle := hw.positions.draws_le c
  rw [hw.size] at hle
  simp only [remainingBlocks, hw.lifetime, BlockPool.availableBlocks]
  omega

/-- **Scheduling a prefill.** The whole suffix is scheduled, or the remainder is not available. -/
theorem schedulePrefill_cases (h : Account p (kv.holdings + F)) (hw : Waiting bs prompt max kv) :
    (∃ kv' p', p.call kv (.schedulePrefill (prompt - kv.prefillPosition)) = .ok (.done, kv', p') ∧
      Account p' (kv'.holdings + F) ∧ SamePool p p' ∧ Prefilling bs prompt max kv' ∧
      kv'.prefillPosition = kv.prefillPosition ∧
      ∀ R, remainingBlocks kv + R ≤ p.availableBlocks → remainingBlocks kv' + R ≤ p'.availableBlocks) ∨
    ∃ n, p.call kv (.schedulePrefill (prompt - kv.prefillPosition)) =
      .ok (.scheduleError (.allocationFailed n), kv, p) ∧ p.availableBlocks < remainingBlocks kv := by
  set c : Call := .schedulePrefill (prompt - kv.prefillPosition) with hc
  have hlt := hw.unfinished
  have hp : kv.isPrefillComplete = false := by simpa [isPrefillComplete, hw.input] using hlt
  have hn : kv.prefillPosition + (prompt - kv.prefillPosition) ≤ kv.numInputTokens := by rw [hw.input]; omega
  have hd : kv.call c p.store = (kv.drawInto (kv.draws c) (.prefillScheduled (prompt - kv.prefillPosition)
      (kv.draws c)) p.store).map fun r => (.ofSchedule r.1, r.2) := by
    simp [call, schedulePrefill, draws, hc, hw.state, hp, hn, not_lt.2 hn]
  rcases drawn_cases h hd with ⟨kv', σ, heq⟩ | ⟨heq, hav⟩
  · left
    obtain ⟨hpc, hacc, hsame, -, -⟩ := call_account h heq
    have hwith := hw.toWithin.effect (call_effect heq) rfl (by simp [hc])
    have hroom := schedule_room h hw.toWithin hwith rfl heq
    have heff := call_effect heq
    rw [hc] at heff
    cases heff with
    | refused c r hr => exact absurd rfl hr
    | prefillScheduled n ids hs hp hn hids =>
      exact ⟨_, _, hpc, hacc, hsame, ⟨hwith, _, ids.length, rfl, by simp only [drawn]; omega⟩, rfl, hroom⟩
  · exact Or.inr ⟨_, call_refused h heq, short_of_draws hw.toWithin hav⟩

/-- **Scheduling a decode.** The step is scheduled, or the remainder is not available. -/
theorem scheduleDecode_cases (h : Account p (kv.holdings + F)) (hw : Settled bs prompt max count kv)
    (hlt : count < max) :
    (∃ kv' p', p.call kv .scheduleDecode = .ok (.done, kv', p') ∧ Account p' (kv'.holdings + F) ∧ SamePool p p' ∧
      Decoding bs prompt max count kv' ∧
      ∀ R, remainingBlocks kv + R ≤ p.availableBlocks → remainingBlocks kv' + R ≤ p'.availableBlocks) ∨
    ∃ n, p.call kv .scheduleDecode = .ok (.scheduleError (.allocationFailed n), kv, p) ∧
      p.availableBlocks < remainingBlocks kv := by
  have hreq := requireGeneration_of hw.state (hw.generates hlt)
  have hd : kv.call .scheduleDecode p.store = (kv.drawInto (kv.draws .scheduleDecode)
      (.decodeScheduled (kv.draws .scheduleDecode)) p.store).map fun r => (.ofSchedule r.1, r.2) := by
    simp [call, scheduleDecode, draws, hreq]
  rcases drawn_cases h hd with ⟨kv', σ, heq⟩ | ⟨heq, hav⟩
  · left
    obtain ⟨hpc, hacc, hsame, -, -⟩ := call_account h heq
    have hwith := hw.toWithin.effect (call_effect heq) rfl (by simp)
    have hroom := schedule_room h hw.toWithin hwith rfl heq
    cases call_effect heq with
    | refused c r hr => exact absurd rfl hr
    | decodeScheduled ids hs hg hids =>
      exact ⟨_, _, hpc, hacc, hsame, ⟨⟨hwith, hw.prefilled, hw.generated, hw.positive⟩, _, rfl⟩, hroom⟩
  · exact Or.inr ⟨_, call_refused h heq, short_of_draws hw.toWithin hav⟩

/-! ### Applies -/

/-- what an apply leaves available when its registrations revive nothing -/
theorem apply_room {c : Call} {σ : BlockStore H} (h : Account p (kv.holdings + F)) (hw : Within bs prompt max kv)
    (hw' : Within bs prompt max kv') (hc : (∃ t, c = .applyPrefill t) ∨ ∃ t, c = .applyDecode t)
    (hcall : kv.call c p.store = .ok (.done, kv', σ)) (hrev : p.store.revived (kv.registers c) = 0) :
    ∀ R, remainingBlocks kv + R ≤ p.availableBlocks → remainingBlocks kv' + R ≤ σ.runDrops.available := by
  intro R hR
  obtain ⟨-, -, -, hav, hspec⟩ := call_account h hcall
  have hsettle : σ.available + kv'.residentBlocks = p.store.available + kv.residentBlocks := by
    have hs := hspec.settles rfl
    rcases hc with ⟨t, rfl⟩ | ⟨t, rfl⟩
    all_goals
      simp only [Settles, hrev, Nat.add_zero] at hs
      exact hs
  have h1 := hw.resident_le
  have h2 := hw'.resident_le
  simp only [remainingBlocks, hw.lifetime, hw'.lifetime, BlockPool.availableBlocks] at hR ⊢
  omega

/-- **Applying a prefill.** It is carried out, and the first token is generated. -/
theorem applyPrefill_served (h : Account p (kv.holdings + F)) (hw : Prefilling bs prompt max kv) (t : Token)
    (hmax : 1 ≤ max) :
    ∃ kv' p', p.call kv (.applyPrefill (some t)) = .ok (.done, kv', p') ∧ Account p' (kv'.holdings + F) ∧
      SamePool p p' ∧ Settled bs prompt max 1 kv' ∧
      (p.store.revived (kv.registers (.applyPrefill (some t))) = 0 →
        ∀ R, remainingBlocks kv + R ≤ p.availableBlocks → remainingBlocks kv' + R ≤ p'.availableBlocks) := by
  obtain ⟨n, b, hst, hn⟩ := hw.state
  obtain ⟨hlt, -, -⟩ := hw.positions.inPrefill n b hst
  obtain ⟨-, hgen, -⟩ := hw.positions.prefilling hlt
  obtain ⟨kv', σ, heq⟩ := applyPrefill_carried (t := some t) h.inv hst (by simp)
    (fun _ => ⟨by rw [hw.input, hn], by rw [hgen, hw.output]; exact hmax⟩)
  obtain ⟨hpc, hacc, hsame, -, -⟩ := call_account h heq
  have hwith := hw.toWithin.effect (call_effect heq) rfl (by simp)
  have hroom := apply_room h hw.toWithin hwith (Or.inl ⟨_, rfl⟩) heq
  cases call_effect heq with
  | refused c r hr => exact absurd rfl hr
  | prefillApplied n' b' t' xs hs ht hf hg hx =>
    rw [hst] at hs
    simp only [SequenceState.prefillScheduled.injEq] at hs
    refine ⟨_, _, hpc, hacc, hsame, ⟨⟨hwith, ?_, ?_, le_rfl⟩, rfl⟩, hroom⟩
    · show kv.prefillPosition + n' = prompt
      rw [← hs.1, hn]
    · show kv.generatedTokens + 1 = 1
      rw [hgen]

/-- **Applying a decode.** It is carried out, and one more token is generated. -/
theorem applyDecode_served (h : Account p (kv.holdings + F)) (hw : Decoding bs prompt max count kv) (t : Token)
    (hlt : count < max) :
    ∃ kv' p', p.call kv (.applyDecode t) = .ok (.done, kv', p') ∧ Account p' (kv'.holdings + F) ∧
      SamePool p p' ∧ Settled bs prompt max (count + 1) kv' ∧
      (p.store.revived (kv.registers (.applyDecode t)) = 0 →
        ∀ R, remainingBlocks kv + R ≤ p.availableBlocks → remainingBlocks kv' + R ≤ p'.availableBlocks) := by
  obtain ⟨b, hst⟩ := hw.state
  obtain ⟨kv', σ, heq⟩ := applyDecode_carried (t := t) h.inv hst (by rw [hw.generated, hw.output]; exact hlt)
  obtain ⟨hpc, hacc, hsame, -, -⟩ := call_account h heq
  have hwith := hw.toWithin.effect (call_effect heq) rfl (by simp)
  have hroom := apply_room h hw.toWithin hwith (Or.inr ⟨_, rfl⟩) heq
  cases call_effect heq with
  | refused c r hr => exact absurd rfl hr
  | decodeApplied b' t' xs hs hg hx =>
    refine ⟨_, _, hpc, hacc, hsame, ⟨⟨hwith, hw.prefilled, ?_, by omega⟩, rfl⟩, hroom⟩
    show kv.generatedTokens + 1 = count + 1
    rw [hw.generated]

/-! ### Going away -/

/-- **Dropping a request.** The account no longer has its guards, and nothing becomes unavailable. -/
theorem dropKv_served (h : Account p (kv.holdings + F)) :
    Account (p.dropKv kv) F ∧ SamePool p (p.dropKv kv) ∧ p.availableBlocks ≤ (p.dropKv kv).availableBlocks := by
  obtain ⟨hinv, hgr, hav⟩ := clear_spec h.inv
  obtain ⟨hinv', hav', hq, htot⟩ := runDrops_spec hinv
  refine ⟨⟨hinv', hq⟩, ⟨rfl, rfl, htot.trans hgr.total⟩, ?_⟩
  simp only [BlockPool.dropKv, BlockPool.availableBlocks]
  omega

/-! ### A fresh pool -/

/-- what `BlockPool::new` leaves: every block but the padding one available, the padding guard leaked -/
structure FreshPool [Inhabited H] (p : BlockPool H) (padding : ImmutableBlock H) (bs numBlocks : ℕ) : Prop where
  account : Account p (Holdings.ofImmutable [padding])
  paddingId : padding.blockId = p.paddingBlockId
  paddingHash : padding.seqHash = default
  size : p.blockSize = bs
  positive : 0 < bs
  available : p.availableBlocks + 1 = numBlocks

theorem new_fresh [Inhabited H] {bs numBlocks : ℕ} {padding : ImmutableBlock H}
    (h : BlockPool.new bs numBlocks = .ok (p, padding)) : FreshPool p padding bs numBlocks := by
  unfold BlockPool.new at h
  by_cases h2 : numBlocks < 2
  · simp [h2] at h
  by_cases hb : ¬ (0 < bs ∧ bs &&& (bs - 1) = 0 ∧ bs ≤ 1024)
  · simp only [h2, if_false, hb] at h
    simp at h
  simp only [h2, if_false, hb] at h
  have hinit := new_inv (H := H) numBlocks false
  have hav : (BlockStore.new numBlocks false : BlockStore H).available = numBlocks := by
    simp [BlockStore.available, BlockStore.new]
  obtain ⟨ids, σ, heq, hlen, hinv, hav₁, hgr₁⟩ := allocateBlocks_spec hinit (n := 1) (by omega)
  obtain ⟨b, rfl⟩ := List.length_eq_one_iff.1 hlen
  have hempty : σ.activeByHash default = none ∧ σ.inactive = [] ∧ σ.inners = [] := by
    have hn : ¬ (BlockStore.new numBlocks false : BlockStore H).available < 1 := by omega
    unfold BlockStore.allocateBlocks BlockStore.allocateAtomic at heq
    rw [if_neg one_ne_zero, if_neg hn] at heq
    simp only [BlockStore.new, List.take_nil, List.all_nil, if_true, Except.ok.injEq, Option.some.injEq,
      Prod.mk.injEq] at heq
    rw [← heq.2]
    exact ⟨rfl, List.drop_nil, rfl⟩
  -- nothing is registered yet, so the padding block becomes a primary
  have hreg : (σ.stage b default).registerBlock b default =
      .ok (⟨σ.nextPtr, b, default⟩, (σ.stage b default).newPrimary b default) := by
    simp [registerBlock, acquireForHash, resurrect, stage, setSlot, hempty.1, hempty.2.1]
  rw [heq] at h
  simp only [hreg, Except.ok.injEq, Prod.mk.injEq] at h
  obtain ⟨rfl, rfl⟩ := h
  rw [ofMutable_cons, add_assoc] at hinv
  obtain ⟨x, σ', hreg', hspec⟩ := registerBlock_spec (stage_inv (default : H) hinv)
  rw [hreg] at hreg'
  simp only [Except.ok.injEq, Prod.mk.injEq] at hreg'
  obtain ⟨rfl, rfl⟩ := hreg'
  have hzero : (Holdings.ofMutable [] + 0 : Holdings H) = 0 := rfl
  have hacc := hspec.inv
  rw [hzero, add_zero] at hacc
  refine ⟨⟨hacc, ?_⟩, rfl, rfl, rfl, (not_not.1 hb).1, ?_⟩
  · intro y hy
    rcases List.mem_cons.1 hy with rfl | hy
    · simp [newPrimary, newInner, setSlot, stage]
    · simp only [stage, setSlot, hempty.2.2] at hy
      cases hy
  · have h1 := hspec.available
    have h2 : (σ.stage b default).available = σ.available := rfl
    have h3 : (σ.stage b default).resurrects (default : H) = 0 := by
      simp [resurrects, hasInactive, stage, setSlot, hempty.2.1]
    simp only [BlockPool.availableBlocks]
    omega

/-- **Padding.** No request holds the padding block, where no block's hash is the default one. -/
theorem padding_not_held [Inhabited H] {padding : ImmutableBlock H} {g : Holdings H}
    (h : Account p (kv.holdings + (Holdings.ofImmutable [padding] + g))) (hbase : kv.Base)
    (hpad : padding.seqHash = default)
    (hhash : ∀ (salt : SaltHash) (bs : ℕ) (ts : List Token), (BlockHash.blockHash salt bs ts : H) ≠ default) :
    padding.blockId ∉ pageIndices kv := by
  obtain ⟨q, hin⟩ := h.inv.refs.shared_inner padding (by simp [Holdings.ofImmutable])
  have hslot := Quiet.slot h.quiet h.inv hin
  simp only [hpad] at hslot
  simp only [pageIndices, List.mem_append, List.mem_map, not_or, not_exists, not_and]
  refine ⟨⟨?_, ?_⟩, ?_⟩
  · intro x hx heq
    obtain ⟨q', hin'⟩ := h.inv.refs.shared_inner x (by simp [holdings, guards, hx])
    have hslot' := Quiet.slot h.quiet h.inv hin'
    simp only [heq] at hslot'
    have hdef : x.seqHash = default := by
      rcases hslot with hs | hs <;> rcases hslot' with hs' | hs' <;> rw [hs] at hs' <;> simp_all
    have hmem : x.seqHash ∈ kv.allSequenceHashes := by
      have := List.mem_map_of_mem (f := ImmutableBlock.seqHash) hx
      rw [hbase.hashes] at this
      exact List.mem_of_mem_take this
    obtain ⟨i, -, hi⟩ := List.mem_map.1 hmem
    exact hhash _ _ _ (hi.trans hdef)
  · rintro ⟨b, k⟩ hx heq
    have hst := (h.inv.slots.staged_iff b k).1 (by simp [holdings, guards, hx])
    simp only at heq
    rw [heq] at hst
    rcases hslot with hs | hs <;> rw [hs] at hst <;> cases hst
  · intro hx
    have hmut := (h.inv.slots.mutable_iff padding.blockId).1 (by simp [holdings, guards, hx])
    rcases hslot with hs | hs <;> rw [hs] at hmut <;> cases hmut

end Pool

end Pegainfer.KvCache
