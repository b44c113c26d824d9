/-
The free list: blocks that were reset, as opposed to cached ones that an allocation may evict.

Lookups and registrations revive cached blocks and never touch the free list; an allocation takes from it first. So what a
sequence needs of the free list is what it draws.
- `call_free`: a carried-out step moves blocks between the free list and the sequence, and loses none.
-/
import Mathlib.Tactic
import Pegainfer.Kvbm.Draws
import Pegainfer.Kvbm.Computed

set_option linter.unusedSectionVars false

namespace Pegainfer.Kvbm

namespace BlockStore

variable {H : Type} [DecidableEq H]

theorem allocateBlocks_free {σ σ' : BlockStore H} {n : ℕ} {ids : List BlockId}
    (h : σ.allocateBlocks n = .ok (some (ids, σ'))) (hn : n ≤ σ.free.length) :
    σ'.free.length + n = σ.free.length := by
  unfold allocateBlocks at h
  split at h
  · cases h
  · cases h
  · rename_i ids' ev σ₁ heq
    simp only [Except.ok.injEq, Option.some.injEq, Prod.mk.injEq] at h
    obtain ⟨rfl, rfl⟩ := h
    unfold allocateAtomic at heq
    simp only at heq
    split_ifs at heq with h0 hav hall
    · simp only [Except.ok.injEq, Option.some.injEq, Prod.mk.injEq] at heq
      rw [← heq.2.2, h0, Nat.add_zero]
    · cases heq
    · simp only [Except.ok.injEq, Option.some.injEq, Prod.mk.injEq] at heq
      rw [← heq.2.2]
      simp only [List.length_drop]
      omega

theorem resurrect_free {σ σ' : BlockStore H} {k : H} {x : Option (ImmutableBlock H)}
    (h : σ.resurrect k = .ok (x, σ')) : σ'.free = σ.free := by
  unfold resurrect at h
  split at h
  · simp only [Except.ok.injEq, Prod.mk.injEq] at h
    rw [← h.2]
  · split_ifs at h
    simp only [Except.ok.injEq, Prod.mk.injEq] at h
    rw [← h.2]
    rfl

theorem acquireForHash_free {σ σ' : BlockStore H} {k : H} {x : Option (ImmutableBlock H)}
    (h : σ.acquireForHash k = .ok (x, σ')) : σ'.free = σ.free := by
  unfold acquireForHash at h
  split at h
  · exact resurrect_free h
  · split at h
    · split_ifs at h
      · simp only [Except.ok.injEq, Prod.mk.injEq] at h
        rw [← h.2]
        rfl
      · have := resurrect_free h
        exact this
    · cases h

theorem registerBlock_free {σ σ' : BlockStore H} {b : BlockId} {k : H} {x : ImmutableBlock H}
    (h : σ.registerBlock b k = .ok (x, σ')) : σ'.free = σ.free := by
  unfold registerBlock at h
  split at h
  · cases h
  · rename_i σ₁ hacq
    simp only [Except.ok.injEq, Prod.mk.injEq] at h
    have hfree := acquireForHash_free hacq
    rw [← h.2]
    exact hfree
  · rename_i y σ₁ hacq
    split_ifs at h
    simp only [Except.ok.injEq, Prod.mk.injEq] at h
    have hfree := acquireForHash_free hacq
    rw [← h.2]
    exact hfree

theorem matchBlocks_free {σ σ' : BlockStore H} {hs : List H} {xs : List (ImmutableBlock H)}
    (h : σ.matchBlocks hs = .ok (xs, σ')) : σ'.free = σ.free := by
  induction hs generalizing σ xs with
  | nil =>
    simp only [matchBlocks, Except.ok.injEq, Prod.mk.injEq] at h
    rw [← h.2]
  | cons k hs ih =>
    simp only [matchBlocks] at h
    split at h
    · cases h
    · rename_i σ₁ hacq
      simp only [Except.ok.injEq, Prod.mk.injEq] at h
      rw [← h.2]
      exact acquireForHash_free hacq
    · rename_i y σ₁ hacq
      split at h
      · cases h
      · rename_i ys σ₂ hys
        simp only [Except.ok.injEq, Prod.mk.injEq] at h
        obtain ⟨-, rfl⟩ := h
        exact (ih hys).trans (acquireForHash_free hacq)

theorem registerAll_free {σ σ' : BlockStore H} {cs : List (BlockId × H)} {xs : List (ImmutableBlock H)}
    (h : σ.registerAll cs = .ok (xs, σ')) : σ'.free = σ.free := by
  induction cs generalizing σ xs with
  | nil =>
    simp only [registerAll, Except.ok.injEq, Prod.mk.injEq] at h
    rw [← h.2]
  | cons c cs ih =>
    simp only [registerAll] at h
    split at h
    · cases h
    · rename_i x σ₁ hreg
      split at h
      · cases h
      · rename_i ys σ₂ hys
        simp only [Except.ok.injEq, Prod.mk.injEq] at h
        obtain ⟨-, rfl⟩ := h
        exact (ih hys).trans (registerBlock_free hreg)

theorem stageAll_free (cs : List (BlockId × H)) (σ : BlockStore H) : (σ.stageAll cs).free = σ.free := by
  induction cs generalizing σ with
  | nil => rfl
  | cons c cs ih => exact ih (σ.stage c.1 c.2)

theorem dropImmutables_free (xs : List (ImmutableBlock H)) (σ : BlockStore H) : (σ.dropImmutables xs).free = σ.free := by
  induction xs generalizing σ with
  | nil => rfl
  | cons x xs ih => exact ih (σ.dropImmutable x.ptr)

theorem dropMutables_free (bs : List BlockId) (σ : BlockStore H) :
    (σ.dropMutables bs).free.length = σ.free.length + bs.length := by
  induction bs generalizing σ with
  | nil => rfl
  | cons b bs ih =>
    have hstep : (σ.resetSlot b).free.length = σ.free.length + 1 := by simp [resetSlot]
    have hrest := ih (σ.resetSlot b)
    simp only [dropMutables, List.foldl_cons, List.length_cons] at hrest ⊢
    omega

end BlockStore

namespace SchedulableSequence

open BlockStore

variable {H : Type} [DecidableEq H] [BlockHash H]

theorem completeAndRegisterPending_free {q q' : SchedulableSequence H} {σ σ' : BlockStore H}
    (h : q.completeAndRegisterPending σ = .ok (q', σ')) : σ'.free = σ.free := by
  unfold completeAndRegisterPending registerStaged stagePending at h
  split at h
  · cases h
  · rename_i xs τ hxs
    simp only [Except.ok.injEq, Prod.mk.injEq] at h
    rw [← h.2]
    exact (registerAll_free hxs).trans (stageAll_free _ σ)

theorem lifoPopUnassigned_free (q : SchedulableSequence H) (n : ℕ) (σ : BlockStore H) :
    (q.lifoPopUnassigned n σ).2.free.length + (q.lifoPopUnassigned n σ).1.residentBlocks =
      σ.free.length + q.residentBlocks := by
  simp only [lifoPopUnassigned, dropMutables_free, residentBlocks, List.length_reverse, List.length_drop,
    List.length_take]
  omega

theorem drawInto_free {q q' : SchedulableSequence H} {n : ℕ} {next : SequenceState} {σ σ' : BlockStore H}
    (h : q.drawInto n next σ = .ok (.ok (), q', σ')) (hn : n ≤ σ.free.length) :
    σ'.free.length + q'.residentBlocks = σ.free.length + q.residentBlocks := by
  unfold drawInto SchedulableSequence.allocateBlocks at h
  split_ifs at h with h0
  · simp only [Except.ok.injEq, Prod.mk.injEq, true_and] at h
    rw [← h.1, ← h.2]
    rfl
  · cases halloc : σ.allocateBlocks n with
    | error e => simp [halloc] at h
    | ok o =>
      cases o with
      | none => simp [halloc] at h
      | some y =>
        obtain ⟨ids, τ⟩ := y
        simp only [halloc] at h
        split_ifs at h
        · simp only [Except.ok.injEq, Prod.mk.injEq, true_and] at h
          have hfree := allocateBlocks_free halloc hn
          have hlen := allocateBlocks_length halloc
          rw [← h.1, ← h.2]
          simp only [residentBlocks, List.length_append]
          omega
        · cases h

theorem registered_free {q q' : SchedulableSequence H} {σ σ' : BlockStore H} {F : Holdings H}
    (h : Inv σ (q.holdings + F)) (hr : q.completeAndRegisterPending σ = .ok (q', σ')) :
    σ'.free.length + q'.residentBlocks = σ.free.length + q.residentBlocks := by
  obtain ⟨q₁, σ₁, heq, -, -, -, hres⟩ := completeAndRegisterPending_spec h
  rw [hr] at heq
  simp only [Except.ok.injEq, Prod.mk.injEq] at heq
  obtain ⟨rfl, rfl⟩ := heq
  rw [completeAndRegisterPending_free hr, hres]

/-- **Steps.** What the free list loses, the sequence holds. -/
theorem call_free {q q' : SchedulableSequence H} {c : Call} {σ σ' : BlockStore H} {F : Holdings H}
    (h : Inv σ (q.holdings + F)) (hs : c.steps = true) (hc : q.call c σ = .ok (.done, q', σ'))
    (hn : q.draws c ≤ σ.free.length) : σ.free.length + q.residentBlocks ≤ σ'.free.length + q'.residentBlocks := by
  cases hsched : c.isSchedule with
  | true =>
    rcases schedule_eq (q := q) hsched with ⟨e, -, -, hcall⟩ | ⟨next, hcall, -⟩
    · rw [hcall] at hc
      cases hc
    · rw [hcall] at hc
      obtain ⟨r, hd, hr⟩ := map_ok hc
      cases r with
      | error e => cases hr
      | ok u => exact (drawInto_free hd hn).ge
  | false =>
    cases c with
    | matchAndAddPrefix =>
      obtain ⟨hzero, -⟩ := match_resident h hc
      obtain ⟨_, hx, -⟩ := map_ok hc
      rw [hzero, Nat.add_zero]
      refine le_trans (le_of_eq ?_) (Nat.le_add_right _ _)
      unfold matchAndAddPrefix at hx
      split_ifs at hx
      · simp only [Except.ok.injEq, Prod.mk.injEq] at hx
        rw [← hx.2.2]
      · split at hx
        · cases hx
        · rename_i hits σ₁ hits_eq
          have hfree : (σ₁.dropImmutables (hits.drop q.maxMatchedBlocks)).free = σ.free :=
            (dropImmutables_free _ _).trans (matchBlocks_free hits_eq)
          simp only at hx
          split_ifs at hx <;>
            (simp only [Except.ok.injEq, Prod.mk.injEq] at hx; rw [← hx.2.2, hfree])
    | applyPrefill t =>
      obtain ⟨_, hx, hr⟩ := map_ok hc
      unfold applyPrefill at hx
      split at hx
      · simp only at hx
        split_ifs at hx
        · simp only [Except.ok.injEq, Prod.mk.injEq] at hx
          rw [← hx.2.1, ← hx.2.2]
        · simp only [Except.ok.injEq, Prod.mk.injEq] at hx
          rw [← hx.2.1, ← hx.2.2]
        · split at hx
          · cases hx
          · rename_i q₁ σ₁ hreg
            split at hx
            · cases hx
            · rename_i c q₂ happ
              obtain ⟨-, rfl⟩ := appendTokens_ok happ
              simp only [Except.ok.injEq, Prod.mk.injEq] at hx
              rw [← hx.2.1, ← hx.2.2]
              exact (registered_free h hreg).ge
      · simp only [Except.ok.injEq, Prod.mk.injEq] at hx
        rw [← hx.2.1, ← hx.2.2]
    | applyDecode t =>
      obtain ⟨_, hx, -⟩ := map_ok hc
      unfold applyDecode at hx
      split at hx
      · split at hx
        · cases hx
        · rename_i q₁ σ₁ hreg
          split at hx
          · cases hx
          · rename_i c q₂ happ
            obtain ⟨-, rfl⟩ := appendToken_ok happ
            simp only [Except.ok.injEq, Prod.mk.injEq] at hx
            rw [← hx.2.1, ← hx.2.2]
            exact (registered_free h hreg).ge
      · simp only [Except.ok.injEq, Prod.mk.injEq] at hx
        rw [← hx.2.1, ← hx.2.2]
    | applySpeculative ts =>
      obtain ⟨_, hx, -⟩ := map_ok hc
      unfold applySpeculative at hx
      split at hx
      · split_ifs at hx
        · simp only [Except.ok.injEq, Prod.mk.injEq] at hx
          rw [← hx.2.1, ← hx.2.2]
        · split at hx
          · cases hx
          · rename_i completed q₁ happ
            obtain ⟨-, rfl⟩ := appendTokens_ok happ
            split at hx
            · cases hx
            · rename_i q₂ σ₂ hreg
              simp only [Except.ok.injEq, Prod.mk.injEq] at hx
              have hfree := registered_free (q := q.appended ts) h hreg
              have hpop := lifoPopUnassigned_free { q₂ with kvPosition := q₂.kvPosition + ts.length }
                (q₂.unassigned.length - if q₂.isComplete then 0 else 1) σ₂
              rw [← hx.2.1, ← hx.2.2]
              exact (hpop.trans hfree).ge
      · simp only [Except.ok.injEq, Prod.mk.injEq] at hx
        rw [← hx.2.1, ← hx.2.2]
    | revertSchedule =>
      simp only [call, Except.ok.injEq, revertSchedule] at hc
      split at hc
      all_goals
        obtain ⟨-, hq, hσ⟩ : _ ∧ _ ∧ _ := by simpa only [Prod.mk.injEq] using hc
        rw [← hq, ← hσ]
      · exact (lifoPopUnassigned_free q _ σ).ge
      · exact (lifoPopUnassigned_free q _ σ).ge
      · exact (lifoPopUnassigned_free q _ σ).ge
    | padTailBlock pad => simp [Call.steps] at hs
    | adoptExternalPrefillAnchor => simp [Call.steps] at hs
    | release => simp [Call.steps] at hs
    | _ => simp [Call.isSchedule] at hsched

end SchedulableSequence

end Pegainfer.Kvbm
