/-
Which blocks answer to which hash, and where names come from.

A block has a name while its slot is registered, shared or cached. `Names σ σ' cs`: every name of `σ'` is one of `σ` or
among the pairs `cs`. Only registration adds names; everything else keeps or loses them.
- `matchBlocks_names`, `allocateBlocks_names`, `dropInner_names`: no new names.
- `registerAll_names_store`: the registered pairs.
- `call_names`: the pairs a call registers.
-/
import Mathlib.Tactic
import Pegainfer.Kvbm.CallStore

set_option linter.unusedSectionVars false

namespace Pegainfer.Kvbm

variable {H : Type} [DecidableEq H]

/-- the hash of a registered slot -/
def SlotState.name : SlotState H → Option H
  | .primary h _ | .duplicate h _ | .inactive h => some h
  | _ => none

namespace BlockStore

def named (σ : BlockStore H) (b : BlockId) : Option H := (σ.slots b).name

end BlockStore

open BlockStore

/-- the names of `σ'` are those of `σ`, or among `cs` -/
def Names (σ σ' : BlockStore H) (cs : List (BlockId × H)) : Prop :=
  ∀ b h, σ'.named b = some h → σ.named b = some h ∨ (b, h) ∈ cs

theorem Names.refl (σ : BlockStore H) : Names σ σ [] := fun _ _ h => Or.inl h

theorem Names.same {σ σ' : BlockStore H} {cs : List (BlockId × H)} (h : σ = σ') : Names σ σ' cs := by
  subst h
  exact fun _ _ hk => Or.inl hk

theorem Names.of_slots {σ σ' : BlockStore H} (h : σ'.slots = σ.slots) : Names σ σ' [] := by
  intro b k hk
  left
  simpa only [named, h] using hk

theorem Names.trans {σ σ₁ σ₂ : BlockStore H} {cs ds : List (BlockId × H)} (h₁ : Names σ σ₁ cs) (h₂ : Names σ₁ σ₂ ds) :
    Names σ σ₂ (cs ++ ds) := by
  intro b k hk
  rcases h₂ b k hk with hk | hk
  · rcases h₁ b k hk with hk | hk
    · exact Or.inl hk
    · exact Or.inr (List.mem_append_left _ hk)
  · exact Or.inr (List.mem_append_right _ hk)

theorem Names.mono {σ σ' : BlockStore H} {cs ds : List (BlockId × H)} (h : Names σ σ' cs) (hs : cs ⊆ ds) :
    Names σ σ' ds := fun b k hk => (h b k hk).imp_right fun hm => hs hm

/-- one slot changes: its name stays, goes, or is new -/
theorem Names.of_update {σ σ' : BlockStore H} {b : BlockId} {s : SlotState H} {cs : List (BlockId × H)}
    (h : σ'.slots = Function.update σ.slots b s)
    (hs : ∀ k, s.name = some k → σ.named b = some k ∨ (b, k) ∈ cs) : Names σ σ' cs := by
  intro b' k hk
  by_cases hb : b' = b
  · subst hb
    exact hs k (by simpa [named, h] using hk)
  · left
    simpa [named, h, Function.update_of_ne hb] using hk

/-! ## Allocation and lookup -/

theorem allocateBlocks_names {σ σ' : BlockStore H} {n : ℕ} {ids : List BlockId}
    (h : σ.allocateBlocks n = .ok (some (ids, σ'))) : Names σ σ' [] := by
  unfold allocateBlocks at h
  split at h
  · cases h
  · cases h
  · rename_i ids' ev σ₁ heq
    simp only [Except.ok.injEq, Option.some.injEq, Prod.mk.injEq] at h
    obtain ⟨rfl, rfl⟩ := h
    unfold allocateAtomic at heq
    simp only at heq
    split_ifs at heq
    · simp only [Except.ok.injEq, Option.some.injEq, Prod.mk.injEq] at heq
      obtain ⟨-, -, rfl⟩ := heq
      exact .refl σ
    · cases heq
    · simp only [Except.ok.injEq, Option.some.injEq, Prod.mk.injEq] at heq
      obtain ⟨-, -, rfl⟩ := heq
      intro b k hk
      left
      simp only [named] at hk ⊢
      split_ifs at hk
      · simp [SlotState.name] at hk
      · exact hk

theorem newPrimary_names (σ : BlockStore H) (b : BlockId) (k : H) : Names σ (σ.newPrimary b k) [(b, k)] := by
  refine .of_update (b := b) (s := .primary k σ.nextPtr) rfl ?_
  intro k' hk
  right
  simpa [SlotState.name, eq_comm] using hk

theorem resurrect_names {σ σ' : BlockStore H} {g : Holdings H} (h : Inv σ g) {k : H} {x : Option (ImmutableBlock H)}
    (hr : σ.resurrect k = .ok (x, σ')) : Names σ σ' [] := by
  unfold resurrect at hr
  split at hr
  · simp only [Except.ok.injEq, Prod.mk.injEq] at hr
    rw [← hr.2]
    exact .refl σ
  · rename_i k' b hfind
    split_ifs at hr
    simp only [Except.ok.injEq, Prod.mk.injEq] at hr
    rw [← hr.2]
    have hk : k' = k := by simpa using List.find?_some hfind
    have hslot := (h.slots.inactive_iff b k').1 (List.mem_of_find?_eq_some hfind)
    refine .of_update (b := b) (s := .primary k σ.nextPtr) rfl ?_
    intro k'' hk''
    left
    simpa [named, hslot, SlotState.name, hk] using hk''

theorem acquireForHash_names {σ σ' : BlockStore H} {g : Holdings H} (h : Inv σ g) {k : H}
    {x : Option (ImmutableBlock H)} (hr : σ.acquireForHash k = .ok (x, σ')) : Names σ σ' [] := by
  unfold acquireForHash at hr
  split at hr
  · exact resurrect_names h hr
  · rename_i b hact
    split at hr
    · rename_i k' p hslot
      obtain ⟨p', hp'⟩ := (h.slots.active_iff b k).1 hact
      obtain ⟨rfl, rfl⟩ : k' = k ∧ p = p' := by simpa [hslot] using hp'
      split_ifs at hr with hpos
      · simp only [Except.ok.injEq, Prod.mk.injEq] at hr
        rw [← hr.2]
        exact .of_slots rfl
      · have heager : Names σ (σ.eagerPrimaryToInactive k' b) [] := by
          refine .of_update (b := b) (s := .inactive k') rfl ?_
          intro k'' hk''
          left
          simpa [named, hslot, SlotState.name] using hk''
        have hinv := eagerPrimaryToInactive_inv h hslot (Nat.eq_zero_of_not_pos hpos)
        exact heager.trans (resurrect_names hinv hr)
    · cases hr

theorem matchBlocks_names {hs : List H} {σ σ' : BlockStore H} {g : Holdings H} {xs : List (ImmutableBlock H)}
    (h : Inv σ g) (hm : σ.matchBlocks hs = .ok (xs, σ')) : Names σ σ' [] := by
  induction hs generalizing σ g xs with
  | nil =>
    simp only [matchBlocks, Except.ok.injEq, Prod.mk.injEq] at hm
    rw [← hm.2]
    exact .refl σ
  | cons k hs ih =>
    simp only [matchBlocks] at hm
    split at hm
    · cases hm
    · rename_i σ₁ hacq
      simp only [Except.ok.injEq, Prod.mk.injEq] at hm
      rw [← hm.2]
      exact acquireForHash_names h hacq
    · rename_i x σ₁ hacq
      have hn := acquireForHash_names h hacq
      rcases acquireForHash_spec h k with ⟨-, heq⟩ | ⟨y, τ, -, heq, hspec⟩
      · rw [heq] at hacq
        cases hacq
      · rw [heq] at hacq
        simp only [Except.ok.injEq, Prod.mk.injEq, Option.some.injEq] at hacq
        obtain ⟨rfl, rfl⟩ := hacq
        split at hm
        · cases hm
        · rename_i ys σ₂ hys
          simp only [Except.ok.injEq, Prod.mk.injEq] at hm
          obtain ⟨-, rfl⟩ := hm
          exact hn.trans (ih hspec.inv hys)

/-! ## Registration and release -/

theorem stage_names (σ : BlockStore H) (b : BlockId) (k : H) : Names σ (σ.stage b k) [] :=
  .of_update (b := b) (s := .staged k) rfl fun _ hk => by simp [SlotState.name] at hk

theorem stageAll_names (cs : List (BlockId × H)) (σ : BlockStore H) : Names σ (σ.stageAll cs) [] := by
  induction cs generalizing σ with
  | nil => exact .refl σ
  | cons c cs ih => exact (stage_names σ c.1 c.2).trans (ih (σ.stage c.1 c.2))

theorem registerBlock_names_store {σ σ' : BlockStore H} {g : Holdings H} (h : Inv σ g) {b : BlockId} {k : H}
    {x : ImmutableBlock H} (hr : σ.registerBlock b k = .ok (x, σ')) : Names σ σ' [(b, k)] := by
  unfold registerBlock at hr
  split at hr
  · cases hr
  · rename_i σ₁ hacq
    simp only [Except.ok.injEq, Prod.mk.injEq] at hr
    rw [← hr.2]
    exact (acquireForHash_names h hacq).trans (newPrimary_names σ₁ b k)
  · rename_i y σ₁ hacq
    split_ifs at hr
    simp only [Except.ok.injEq, Prod.mk.injEq] at hr
    rw [← hr.2]
    refine (acquireForHash_names h hacq).trans (.of_update (b := b) (s := .duplicate k σ₁.nextPtr) rfl ?_)
    intro k' hk'
    right
    simpa [SlotState.name, eq_comm] using hk'

theorem registerAll_names_store (cs : List (BlockId × H)) {σ σ' : BlockStore H} {g : Holdings H}
    {xs : List (ImmutableBlock H)} (h : Inv σ (Holdings.ofComplete cs + g)) (hr : σ.registerAll cs = .ok (xs, σ')) :
    Names σ σ' cs := by
  induction cs generalizing σ g xs with
  | nil =>
    simp only [registerAll, Except.ok.injEq, Prod.mk.injEq] at hr
    rw [← hr.2]
    exact .refl σ
  | cons c cs ih =>
    obtain ⟨b, k⟩ := c
    rw [ofComplete_cons, add_assoc] at h
    obtain ⟨x, σ₁, heq, hreg⟩ := registerBlock_spec h
    simp only [registerAll, heq] at hr
    split at hr
    · cases hr
    · rename_i ys σ₂ hys
      simp only [Except.ok.injEq, Prod.mk.injEq] at hr
      obtain ⟨-, rfl⟩ := hr
      have hnext := hreg.inv
      rw [add_left_comm] at hnext
      exact (registerBlock_names_store h heq).trans (ih hnext hys)

theorem resetSlot_names (σ : BlockStore H) (b : BlockId) : Names σ (σ.resetSlot b) [] :=
  .of_update (b := b) (s := .reset) rfl fun _ hk => by simp [SlotState.name] at hk

theorem dropMutables_names (bs : List BlockId) (σ : BlockStore H) : Names σ (σ.dropMutables bs) [] := by
  induction bs generalizing σ with
  | nil => exact .refl σ
  | cons b bs ih => exact (resetSlot_names σ b).trans (ih (σ.resetSlot b))

theorem dropCompletes_names (cs : List (BlockId × H)) (σ : BlockStore H) : Names σ (σ.dropCompletes cs) [] := by
  induction cs generalizing σ with
  | nil => exact .refl σ
  | cons c cs ih => exact (resetSlot_names σ c.1).trans (ih (σ.resetSlot c.1))

theorem dropImmutables_names (xs : List (ImmutableBlock H)) (σ : BlockStore H) : Names σ (σ.dropImmutables xs) [] := by
  induction xs generalizing σ with
  | nil => exact .refl σ
  | cons x xs ih =>
    have hone : Names σ (σ.dropImmutable x.ptr) [] := .of_slots rfl
    exact hone.trans (ih (σ.dropImmutable x.ptr))

theorem releasePrimary_names (σ : BlockStore H) (b : BlockId) (p : Ptr) : Names σ (σ.releasePrimary b p) [] := by
  unfold releasePrimary
  split
  · rename_i k p' hslot
    split_ifs
    · exact .of_update (b := b) (s := .reset) rfl fun _ hk => by simp [SlotState.name] at hk
    · refine .of_update (b := b) (s := .inactive k) rfl ?_
      intro k' hk'
      left
      simpa [named, hslot, SlotState.name] using hk'
    · exact .refl σ
  · exact .refl σ

theorem releaseDuplicate_names (σ : BlockStore H) (b : BlockId) (p : Ptr) : Names σ (σ.releaseDuplicate b p) [] := by
  unfold releaseDuplicate
  split
  · split_ifs
    · exact resetSlot_names σ b
    · exact .refl σ
  · exact .refl σ

theorem dropInner_names (σ : BlockStore H) (x : ImmutableBlockInner H) : Names σ (σ.dropInner x) [] := by
  have herase : Names σ { σ with inners := σ.inners.erase x } [] := .of_slots rfl
  unfold dropInner
  split
  · exact herase.trans (releasePrimary_names _ x.blockId x.ptr)
  · rename_i q hq
    exact (herase.trans (releaseDuplicate_names _ x.blockId x.ptr)).trans (.of_slots rfl)

/-! ## Calls -/

namespace SchedulableSequence

variable [BlockHash H]

/-- the blocks a carried-out call registers, with their names -/
def registerPairs (q : SchedulableSequence H) : Call → List (BlockId × H)
  | .applyPrefill _ | .applyDecode _ => q.staged ++ q.pendingPairs
  | .applySpeculative ts => (q.appended ts).staged ++ (q.appended ts).pendingPairs
  | .padTailBlock pad =>
    q.staged ++ { q with tokens := q.tokens ++ List.replicate q.padCount pad }.pendingPairs
  | _ => []

theorem completeAndRegisterPending_names {q q' : SchedulableSequence H} {σ σ' : BlockStore H} {F : Holdings H}
    (h : Inv σ (q.holdings + F)) (hc : q.completeAndRegisterPending σ = .ok (q', σ')) :
    Names σ σ' (q.staged ++ q.pendingPairs) := by
  obtain ⟨hinv, -⟩ := stagePending_spec h
  unfold completeAndRegisterPending registerStaged stagePending at hc
  split at hc
  · cases hc
  · rename_i xs τ hxs
    simp only [Except.ok.injEq, Prod.mk.injEq] at hc
    rw [← hc.2]
    exact (stageAll_names q.pendingPairs σ).trans (registerAll_names_store _ hinv hxs)

theorem drawInto_names {q q' : SchedulableSequence H} {n : ℕ} {next : SequenceState} {σ σ' : BlockStore H}
    {r : Except ScheduleError Unit} (h : q.drawInto n next σ = .ok (r, q', σ')) : Names σ σ' [] := by
  unfold drawInto allocateBlocks at h
  split_ifs at h with h0
  · simp only [Except.ok.injEq, Prod.mk.injEq] at h
    rw [← h.2.2]
    exact .refl σ
  · cases halloc : σ.allocateBlocks n with
    | error e => rw [halloc] at h; cases h
    | ok o =>
      rw [halloc] at h
      cases o with
      | none =>
        simp only [Except.ok.injEq, Prod.mk.injEq] at h
        rw [← h.2.2]
        exact .refl σ
      | some y =>
        obtain ⟨ids, σ₁⟩ := y
        simp only at h
        split_ifs at h
        · simp only [Except.ok.injEq, Prod.mk.injEq] at h
          rw [← h.2.2]
          exact allocateBlocks_names halloc
        · simp only [Except.ok.injEq, Prod.mk.injEq] at h
          rw [← h.2.2]
          exact (allocateBlocks_names halloc).trans (dropMutables_names ids σ₁)

theorem clear_names (q : SchedulableSequence H) (σ : BlockStore H) : Names σ (q.clear σ).2 [] :=
  ((dropImmutables_names q.assigned σ).trans (dropCompletes_names q.staged _)).trans
    (dropMutables_names q.unassigned _)

/-- **Names.** A call adds the names of the blocks it registers and no others. -/
theorem call_names {q q' : SchedulableSequence H} {c : Call} {σ σ' : BlockStore H} {F : Holdings H} {r : CallResult}
    (h : Inv σ (q.holdings + F)) (hc : q.call c σ = .ok (r, q', σ')) : Names σ σ' (q.registerPairs c) := by
  cases c with
  | matchAndAddPrefix =>
    obtain ⟨_, hx, -⟩ := map_ok hc
    unfold matchAndAddPrefix at hx
    split_ifs at hx
    · simp only [Except.ok.injEq, Prod.mk.injEq] at hx
      exact .same hx.2.2
    · split at hx
      · cases hx
      · rename_i hits σ₁ hits_eq
        have hmatch := (matchBlocks_names h hits_eq).trans
          (dropImmutables_names (hits.drop q.maxMatchedBlocks) σ₁)
        simp only at hx
        split_ifs at hx <;>
          (simp only [Except.ok.injEq, Prod.mk.injEq] at hx; rw [← hx.2.2]; exact hmatch)
  | schedulePrefill n =>
    obtain ⟨_, hx, -⟩ := map_ok hc
    unfold schedulePrefill at hx
    simp only at hx
    split_ifs at hx
    · simp only [Except.ok.injEq, Prod.mk.injEq] at hx
      exact .same hx.2.2
    · simp only [Except.ok.injEq, Prod.mk.injEq] at hx
      exact .same hx.2.2
    · simp only [Except.ok.injEq, Prod.mk.injEq] at hx
      exact .same hx.2.2
    · exact drawInto_names hx
  | scheduleDecode =>
    obtain ⟨_, hx, -⟩ := map_ok hc
    unfold scheduleDecode at hx
    split at hx
    · simp only [Except.ok.injEq, Prod.mk.injEq] at hx
      exact .same hx.2.2
    · exact drawInto_names hx
  | scheduleSpeculative n =>
    obtain ⟨_, hx, -⟩ := map_ok hc
    unfold scheduleSpeculative at hx
    split at hx
    · simp only [Except.ok.injEq, Prod.mk.injEq] at hx
      exact .same hx.2.2
    · exact drawInto_names hx
  | applyPrefill t =>
    obtain ⟨_, hx, -⟩ := map_ok hc
    unfold applyPrefill at hx
    split at hx
    · simp only at hx
      split_ifs at hx
      · simp only [Except.ok.injEq, Prod.mk.injEq] at hx
        exact .same hx.2.2
      · simp only [Except.ok.injEq, Prod.mk.injEq] at hx
        exact .same hx.2.2
      · split at hx
        · cases hx
        · rename_i q₁ σ₁ hreg
          split at hx
          · cases hx
          · simp only [Except.ok.injEq, Prod.mk.injEq] at hx
            rw [← hx.2.2]
            exact completeAndRegisterPending_names h hreg
    · simp only [Except.ok.injEq, Prod.mk.injEq] at hx
      exact .same hx.2.2
  | applyDecode t =>
    obtain ⟨_, hx, -⟩ := map_ok hc
    unfold applyDecode at hx
    split at hx
    · split at hx
      · cases hx
      · rename_i q₁ σ₁ hreg
        split at hx
        · cases hx
        · simp only [Except.ok.injEq, Prod.mk.injEq] at hx
          rw [← hx.2.2]
          exact completeAndRegisterPending_names h hreg
    · simp only [Except.ok.injEq, Prod.mk.injEq] at hx
      exact .same hx.2.2
  | applySpeculative ts =>
    obtain ⟨_, hx, -⟩ := map_ok hc
    unfold applySpeculative at hx
    split at hx
    · split_ifs at hx
      · simp only [Except.ok.injEq, Prod.mk.injEq] at hx
        exact .same hx.2.2
      · split at hx
        · cases hx
        · rename_i completed q₁ happ
          obtain ⟨-, rfl⟩ := appendTokens_ok happ
          split at hx
          · cases hx
          · rename_i q₂ σ₂ hreg
            simp only [Except.ok.injEq, Prod.mk.injEq] at hx
            rw [← hx.2.2]
            have hreg := completeAndRegisterPending_names (q := q.appended ts) h hreg
            exact (hreg.trans (dropMutables_names _ σ₂)).mono (by simp [registerPairs])
    · simp only [Except.ok.injEq, Prod.mk.injEq] at hx
      exact .same hx.2.2
  | revertSchedule =>
    simp only [call, Except.ok.injEq, revertSchedule] at hc
    split at hc
    · rw [← (Prod.mk.inj (Prod.mk.inj hc).2).2]
      exact dropMutables_names _ σ
    · rw [← (Prod.mk.inj (Prod.mk.inj hc).2).2]
      exact dropMutables_names _ σ
    · rw [← (Prod.mk.inj (Prod.mk.inj hc).2).2]
      exact dropMutables_names _ σ
    · exact .same (Prod.mk.inj (Prod.mk.inj hc).2).2
  | padTailBlock pad =>
    obtain ⟨_, hx, -⟩ := map_ok hc
    unfold padTailBlock at hx
    split_ifs at hx
    · simp only [Except.ok.injEq, Prod.mk.injEq] at hx
      exact .same hx.2.2
    · simp only [Except.ok.injEq, Prod.mk.injEq] at hx
      exact .same hx.2.2
    · split at hx
      · cases hx
      · rename_i q₁ σ₁ hreg
        simp only [Except.ok.injEq, Prod.mk.injEq] at hx
        rw [← hx.2.2]
        exact completeAndRegisterPending_names
          (q := { q with tokens := q.tokens ++ List.replicate q.padCount pad }) h hreg
  | adoptExternalPrefillAnchor =>
    simp only [call, Except.ok.injEq, Prod.mk.injEq] at hc
    exact .same hc.2.2
  | release =>
    simp only [call, Except.ok.injEq, release] at hc
    split_ifs at hc
    · exact .same (Prod.mk.inj (Prod.mk.inj hc).2).2
    · rw [← (Prod.mk.inj (Prod.mk.inj hc).2).2]
      exact clear_names q σ

end SchedulableSequence

end Pegainfer.Kvbm
