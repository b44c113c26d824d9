/-
When a call is carried out.

Over a store that accounts for its guards a call panics only when a caller breaks its protocol. Each lemma gives the
checks of one call and concludes that it answers `done`; what it then leaves is `call_effect` and `call_spec`.
- `matchAndAddPrefix_carried`: a fresh sequence matches its registered leading blocks. Needs hashes that carry the
  position of their block, as the token library's do: a block found twice would be a panic.
- `schedulePrefill_carried`, `generation_carried`: the schedules, given the blocks they draw.
- `applyPrefill_carried`, `applyDecode_carried`, `applySpeculative_carried`: the applies, in their scheduled state.
-/
import Mathlib.Tactic
import Pegainfer.Kvbm.Draws
import Pegainfer.Kvbm.Speculative

set_option linter.unusedSectionVars false

namespace Pegainfer.Kvbm

/-- block hashes carry the position of their block -/
class PositionalHash (H : Type) [BlockHash H] : Prop where
  position : ∀ (salt : SaltHash) (blockSize : ℕ) (ts us : List Token),
    (BlockHash.blockHash salt blockSize ts : H) = BlockHash.blockHash salt blockSize us →
      ts.length / blockSize = us.length / blockSize

instance : PositionalHash (List ℕ) where
  position salt blockSize ts us h := by
    simp only [BlockHash.blockHash, List.cons.injEq, true_and] at h
    rw [h]

namespace SchedulableSequence

variable {H : Type} [DecidableEq H] [BlockHash H]

/-! ## Prefix matching -/

theorem nodup_allSequenceHashes [PositionalHash H] (q : SchedulableSequence H) (hb : 0 < q.blockSize) :
    q.allSequenceHashes.Nodup := by
  refine List.Nodup.map_on ?_ List.nodup_range
  intro i hi j hj hij
  have hlen : ∀ k ∈ List.range q.completeSequenceBlocks,
      (q.tokens.take ((k + 1) * q.blockSize)).length / q.blockSize = k + 1 := by
    intro k hk
    have hle : (k + 1) * q.blockSize ≤ q.tokens.length := by
      rw [← Nat.le_div_iff_mul_le hb]
      exact List.mem_range.1 hk
    rw [List.length_take, min_eq_left hle, Nat.mul_div_cancel _ hb]
  have hpos := PositionalHash.position (H := H) q.saltHash q.blockSize _ _ hij
  rw [hlen i hi, hlen j hj] at hpos
  omega

/-- guards of distinct hashes guard distinct blocks -/
theorem nodup_blockIds {σ : BlockStore H} {g : Holdings H} (h : Inv σ g) {xs : List (ImmutableBlock H)}
    (hx : ∀ x ∈ xs, x ∈ g.2.2) (hn : (xs.map ImmutableBlock.seqHash).Nodup) :
    (xs.map ImmutableBlock.blockId).Nodup := by
  have hslot : ∀ x ∈ xs, σ.slots x.blockId = .primary x.seqHash x.ptr ∨ σ.slots x.blockId = .duplicate x.seqHash x.ptr := by
    intro x hxs
    obtain ⟨p, hp⟩ := h.refs.shared_inner x (hx x hxs)
    have hpos : 0 < σ.strong x.ptr := by
      have hcount := Multiset.count_pos.2 (Multiset.mem_map_of_mem ImmutableBlock.ptr (hx x hxs))
      have := h.refs.strong_eq x.ptr
      omega
    exact h.refs.slot_of_strong hp hpos
  rw [List.Nodup, List.pairwise_map] at hn ⊢
  refine hn.imp_of_mem ?_
  intro x y hxm hym hne heq
  refine hne ?_
  have hx' := hslot x hxm
  have hy' := hslot y hym
  rw [heq] at hx'
  rcases hx' with h1 | h1 <;> rcases hy' with h2 | h2 <;> simp_all

/-- **Matching.** A fresh sequence matches its leading registered blocks, short of its last input token. -/
theorem matchAndAddPrefix_carried [PositionalHash H] {q : SchedulableSequence H} {σ : BlockStore H} {F : Holdings H}
    (h : Inv σ (q.holdings + F)) (hb : 0 < q.blockSize)
    (hs : q.state = .idle) (he : q.residentBlocks = 0) (hk : q.kvPosition = q.prefillPosition) :
    ∃ xs σ', q.matchAndAddPrefix σ = .ok (.ok xs.length, q.withMatched xs, σ') ∧ xs.length = q.prefixHit σ := by
  obtain ⟨hits, σ₁, heq, hm⟩ := matchBlocks_spec q.allSequenceHashes h
  have ha : q.assigned = [] := by unfold residentBlocks at he; exact List.length_eq_zero_iff.1 (by omega)
  have hst : q.staged = [] := by unfold residentBlocks at he; exact List.length_eq_zero_iff.1 (by omega)
  have hu : q.unassigned = [] := by unfold residentBlocks at he; exact List.length_eq_zero_iff.1 (by omega)
  set xs := hits.take q.maxMatchedBlocks with hxs
  refine ⟨xs, σ₁.dropImmutables (hits.drop q.maxMatchedBlocks), ?_, ?_⟩
  · have hpre : hits.map ImmutableBlock.seqHash <+: q.allSequenceHashes := by
      rw [hm.hashes]
      exact List.takeWhile_prefix _
    have hhash : xs.map ImmutableBlock.seqHash = q.allSequenceHashes.take xs.length := by
      have hxpre : xs.map ImmutableBlock.seqHash <+: q.allSequenceHashes :=
        ((List.take_prefix _ _).map _).trans hpre
      have := List.prefix_iff_eq_take.1 hxpre
      rwa [List.length_map] at this
    have hlen : xs.length ≤ q.completeSequenceBlocks := by
      have := congrArg List.length hhash
      simp only [List.length_map, List.length_take, length_allSequenceHashes] at this
      omega
    have hnd : (xs.map ImmutableBlock.blockId).Nodup := by
      refine nodup_blockIds hm.inv ?_ ?_
      · intro x hx
        have : x ∈ hits := List.mem_of_mem_take hx
        simp [Holdings.ofImmutable, this]
      · rw [hhash]
        exact (nodup_allSequenceHashes q hb).sublist (List.take_sublist _ _)
    have hval : q.validateNoDuplicates (xs.map ImmutableBlock.blockId) = true := by
      simp [validateNoDuplicates, contains, ha, hst, hu, hnd]
    unfold matchAndAddPrefix
    rw [if_neg (by simp [hs]), if_neg (by simp [he]), heq]
    by_cases hnil : xs = []
    · have hsame : q.withMatched [] = q := by
        cases q
        simp_all [withMatched]
      simp only [← hxs]
      rw [if_pos hnil, hnil, hsame]
      rfl
    · simp only [← hxs]
      rw [if_neg hnil, if_neg (not_lt.2 hlen), if_pos ⟨hhash, hval⟩]
      rfl
  · rw [hxs, List.length_take, prefixHit, ← hm.hashes, List.length_map, min_comm]

/-! ## Schedules -/

theorem drawInto_carried {q : SchedulableSequence H} {σ : BlockStore H} {F : Holdings H} {n : ℕ}
    (h : Inv σ (q.holdings + F)) (next : ℕ → SequenceState) (hav : n ≤ σ.available) :
    ∃ q' σ', q.drawInto n (next n) σ = .ok (.ok (), q', σ') := by
  rcases drawInto_spec h n (next n) with ⟨hlt, -⟩ | ⟨ids, σ', -, heq, -⟩
  · omega
  · exact ⟨_, σ', heq⟩

theorem schedulePrefill_carried {q : SchedulableSequence H} {σ : BlockStore H} {F : Holdings H} {n : ℕ}
    (h : Inv σ (q.holdings + F)) (hs : q.state = .idle) (hp : q.prefillPosition < q.numInputTokens)
    (hn : q.prefillPosition + n ≤ q.numInputTokens)
    (hav : divCeil (q.prefillPosition + n) q.blockSize - q.residentBlocks ≤ σ.available) :
    ∃ q' σ', q.call (.schedulePrefill n) σ = .ok (.done, q', σ') := by
  have hc : q.isPrefillComplete = false := by simpa [isPrefillComplete] using hp
  obtain ⟨q', σ', heq⟩ := drawInto_carried h (.prefillScheduled n) hav
  exact ⟨q', σ', by simp [call, schedulePrefill, hs, hc, not_lt.2 hn, heq, Except.map, CallResult.ofSchedule]⟩

theorem requireGeneration_of {q : SchedulableSequence H} (hs : q.state = .idle) (hg : q.Generates) :
    q.requireGeneration = .ok () := by
  have h1 : q.isPrefillComplete = true := by simpa [isPrefillComplete] using hg.prefilled
  have h2 : q.isComplete = false := by simpa [isComplete] using hg.incomplete
  have h3 : q.tailTokens = 1 := by rw [tailTokens, hg.dangling]; omega
  simp [requireGeneration, hs, h1, h2, h3]

/-- decode and speculative schedules, given the blocks they draw -/
theorem generation_carried {q : SchedulableSequence H} {σ : BlockStore H} {F : Holdings H} {c : Call}
    (h : Inv σ (q.holdings + F)) (hs : q.state = .idle) (hg : q.Generates)
    (hc : c = .scheduleDecode ∨ ∃ n, c = .scheduleSpeculative n) (hav : q.draws c ≤ σ.available) :
    ∃ q' σ', q.call c σ = .ok (.done, q', σ') := by
  have hreq := requireGeneration_of hs hg
  rcases hc with rfl | ⟨n, rfl⟩
  · have hd : q.draws .scheduleDecode =
        (q.completeSequenceBlocks - (q.assigned.length + q.staged.length) + 1) - q.unassigned.length := by
      simp [draws, hreq]
    rw [hd] at hav
    obtain ⟨q', σ', heq⟩ := drawInto_carried h .decodeScheduled hav
    exact ⟨q', σ', by simp [call, scheduleDecode, hreq, heq, Except.map, CallResult.ofSchedule]⟩
  · have hd : q.draws (.scheduleSpeculative n) =
        divCeil (q.totalTokens + min n q.remainingTokens) q.blockSize - q.residentBlocks := by
      simp [draws, hreq]
    rw [hd] at hav
    obtain ⟨q', σ', heq⟩ := drawInto_carried h (.speculativeScheduled (min n q.remainingTokens)) hav
    exact ⟨q', σ', by simp [call, scheduleSpeculative, hreq, heq, Except.map, CallResult.ofSchedule]⟩

/-! ## Applies -/

theorem appendTokens_carried {q : SchedulableSequence H} (ts : List Token)
    (h : q.generatedTokens + ts.length ≤ q.maxOutputTokens) : ∃ c, q.appendTokens ts = .ok (c, q.appended ts) := by
  induction ts generalizing q with
  | nil => exact ⟨false, by simp [appendTokens, appended]⟩
  | cons t ts ih =>
    simp only [List.length_cons] at h
    have hlt : q.generatedTokens < q.maxOutputTokens := by omega
    obtain ⟨c, hc⟩ := ih (q := { q with tokens := q.tokens ++ [t], generatedTokens := q.generatedTokens + 1 })
      (by simp only; omega)
    have happ : ({ q with tokens := q.tokens ++ [t], generatedTokens := q.generatedTokens + 1 }).appended ts =
        q.appended (t :: ts) := by
      simp [appended, Nat.add_assoc, Nat.add_comm 1]
    rw [happ] at hc
    simp only [appendTokens, appendToken, hlt, if_true, hc]
    exact ⟨_, rfl⟩

theorem applyPrefill_carried {q : SchedulableSequence H} {σ : BlockStore H} {F : Holdings H} {n b : ℕ}
    {t : Option Token} (h : Inv σ (q.holdings + F)) (hs : q.state = .prefillScheduled n b)
    (hnone : t = none → q.prefillPosition + n < q.numInputTokens)
    (hsome : t ≠ none → q.numInputTokens ≤ q.prefillPosition + n ∧ q.generatedTokens < q.maxOutputTokens) :
    ∃ q' σ', q.call (.applyPrefill t) σ = .ok (.done, q', σ') := by
  obtain ⟨q₁, σ₁, heq, -⟩ := completeAndRegisterPending_spec h
  obtain ⟨xs, -, rfl⟩ := completeAndRegisterPending_ok heq
  cases t with
  | none =>
    have hlt := hnone rfl
    have hfin : decide (q.numInputTokens ≤ q.prefillPosition + n) = false := by simpa using hlt
    simp only [call, applyPrefill, hs, hfin, heq, Except.map, appendTokens, Option.toList, Option.isSome_some, Option.isSome_none, Option.isNone_none, Option.isNone_some]
    exact ⟨_, _, rfl⟩
  | some t =>
    obtain ⟨hle, hlt⟩ := hsome (by simp)
    have hfin : decide (q.numInputTokens ≤ q.prefillPosition + n) = true := by simpa using hle
    obtain ⟨c, happ⟩ := appendTokens_carried [t]
      (q := { q.withRegistered xs with prefillPosition := q.prefillPosition + n, kvPosition := q.prefillPosition + n })
      (by simpa [withRegistered] using hlt)
    simp only [call, applyPrefill, hs, hfin, heq, Except.map, Option.toList, Option.isSome_some, Option.isSome_none, Option.isNone_none,
      Option.isNone_some, happ]
    exact ⟨_, _, rfl⟩

theorem applyDecode_carried {q : SchedulableSequence H} {σ : BlockStore H} {F : Holdings H} {b : ℕ} {t : Token}
    (h : Inv σ (q.holdings + F)) (hs : q.state = .decodeScheduled b) (hg : q.generatedTokens < q.maxOutputTokens) :
    ∃ q' σ', q.call (.applyDecode t) σ = .ok (.done, q', σ') := by
  obtain ⟨q₁, σ₁, heq, -⟩ := completeAndRegisterPending_spec h
  obtain ⟨xs, -, rfl⟩ := completeAndRegisterPending_ok heq
  have hg' : (q.withRegistered xs).generatedTokens < (q.withRegistered xs).maxOutputTokens := hg
  simp only [call, applyDecode, hs, heq, appendToken, hg', if_true, Except.map]
  exact ⟨_, _, rfl⟩

theorem applySpeculative_carried {q : SchedulableSequence H} {σ : BlockStore H} {F : Holdings H} {n b : ℕ}
    {ts : List Token} (h : Inv σ (q.holdings + F)) (hs : q.state = .speculativeScheduled n b) (hn : ts.length ≤ n)
    (hg : q.generatedTokens + ts.length ≤ q.maxOutputTokens) :
    ∃ q' σ', q.call (.applySpeculative ts) σ = .ok (.done, q', σ') := by
  obtain ⟨c, happ⟩ := appendTokens_carried ts hg
  obtain ⟨q₁, σ₁, heq, -⟩ := completeAndRegisterPending_spec (q := q.appended ts) h
  simp only [call, applySpeculative, hs, not_lt.2 hn, if_false, happ, heq, Except.map]
  exact ⟨_, _, rfl⟩

end SchedulableSequence

end Pegainfer.Kvbm
