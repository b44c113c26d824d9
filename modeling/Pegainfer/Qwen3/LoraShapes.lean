/-
The shapes of a rank's packed LoRA buffers.

A projection's buffers are cut for one input and one output size, and an adapter is entered only after each of its
projections was written to buffers of its shape. The rank a decode kernel reads is the largest of the slots' ranks.
- `PackedLoraProjection.Ranked`: the buffers' rank covers every slot's and stays within what a slot has room for.
- `LoraModel.Shaped`: the adapters of a rank fit its buffers, layer by layer.
- `LoraModel.Consistent`: a rank's records agree and its adapters fit; `lora_ranks_consistent`: ranks stay consistent.
-/
import Mathlib.Tactic
import Pegainfer.Lib.Faulty
import Pegainfer.Qwen3.LoraAgreement
import Pegainfer.Qwen3.LoraRuns

set_option linter.unusedSectionVars false

namespace Pegainfer.Qwen3

open Pegainfer.Lib

variable {B F : Type}

/-! ## Shapes -/

/-- what a write to the buffers checks of a projection -/
structure DeviceLoraProjection.FitsIn (projection : DeviceLoraProjection B) (p : PackedLoraProjection B F) : Prop where
  rank : projection.a.rows ≤ p.maxRank
  input : projection.a.cols = p.inDim
  output : projection.b.rows = p.outDim
  inner : projection.b.cols = projection.a.rows

namespace PackedLoraProjection

structure Ranked (p : PackedLoraProjection B F) : Prop where
  largest : p.rank = p.slotRanks.foldr max 0
  bounded : ∀ rank ∈ p.slotRanks, rank ≤ p.maxRank

variable {p : PackedLoraProjection B F}

theorem Ranked.le_rank (h : p.Ranked) (slot : ℕ) : p.slotRanks.getD slot 0 ≤ p.rank := by
  have hfold : ∀ ranks : List ℕ, ∀ rank ∈ ranks, rank ≤ ranks.foldr max 0 := by
    intro ranks
    induction ranks with
    | nil => exact fun rank hrank => absurd hrank List.not_mem_nil
    | cons first ranks ih =>
      intro rank hrank
      rcases List.mem_cons.1 hrank with rfl | hrank
      · exact le_max_left _ _
      · exact (ih rank hrank).trans (le_max_right _ _)
  rw [h.largest, List.getD_eq_getElem?_getD]
  cases hrank : p.slotRanks[slot]? with
  | none => exact Nat.zero_le _
  | some rank => exact hfold _ rank (List.mem_of_getElem? hrank)

theorem Ranked.rank_le (h : p.Ranked) : p.rank ≤ p.maxRank := by
  have hfold : ∀ ranks : List ℕ, (∀ rank ∈ ranks, rank ≤ p.maxRank) → ranks.foldr max 0 ≤ p.maxRank := by
    intro ranks
    induction ranks with
    | nil => exact fun _ => Nat.zero_le _
    | cons first ranks ih =>
      intro hall
      obtain ⟨hfirst, hranks⟩ := List.forall_mem_cons.1 hall
      exact max_le hfirst (ih hranks)
  rw [h.largest]
  exact hfold _ h.bounded

end PackedLoraProjection

namespace LoraModel

/-- adapters of as many layers as the model has, which fit the buffers -/
structure Shaped (numHiddenLayers : ℕ) (r : LoraModel B F) : Prop where
  hidden : r.numHiddenLayers = numHiddenLayers
  ranked : ∀ layerIdx kind p, r.packedLayers layerIdx kind = some p → p.Ranked
  layers : ∀ name adapter, r.loraAdapters name = some adapter → adapter.layers.length = numHiddenLayers
  fits : ∀ name adapter, r.loraAdapters name = some adapter → ∀ layerIdx < numHiddenLayers, ∀ kind projection,
    adapter.projection layerIdx kind = some projection →
      ∃ p, r.packedLayers layerIdx kind = some p ∧ projection.FitsIn p

/-- **Consistency** of a rank: its records agree, and its adapters fit its buffers. -/
structure Consistent [Zero B] [Zero F] (r : LoraModel B F) : Prop extends Agrees r, Shaped r.numHiddenLayers r

end LoraModel

/-! ## Buffers under a rank's operations -/

namespace PackedLoraProjection

variable [Zero B] [Zero F] {p p' : PackedLoraProjection B F} {slot rank : ℕ} {scale : F}

/-- the same cut, and ranks in order -/
structure Cut (p p' : PackedLoraProjection B F) : Prop where
  maxRank : p'.maxRank = p.maxRank
  inDim : p'.inDim = p.inDim
  outDim : p'.outDim = p.outDim
  ranked : p'.Ranked

theorem Cut.fits (h : Cut p p') {projection : DeviceLoraProjection B} (hfits : projection.FitsIn p) :
    projection.FitsIn p' where
  rank := by rw [h.maxRank]; exact hfits.rank
  input := by rw [h.inDim]; exact hfits.input
  output := by rw [h.outDim]; exact hfits.output
  inner := hfits.inner

theorem new_ranked (maxLoras maxRank inDim outDim : ℕ) :
    (new maxLoras maxRank inDim outDim : PackedLoraProjection B F).Ranked where
  largest := by
    induction maxLoras with
    | zero => rfl
    | succ maxLoras ih => exact ih
  bounded rank hrank := by
    rw [List.eq_of_mem_replicate hrank]
    exact Nat.zero_le _

theorem Cut.setScale (h : Cut p p') (hrank : rank ≤ p.maxRank) :
    Cut p ((p'.setScale slot scale).setSlotRank slot rank).refreshRank where
  maxRank := h.maxRank
  inDim := h.inDim
  outDim := h.outDim
  ranked := by
    refine ⟨rfl, fun k hk => ?_⟩
    rcases List.mem_or_eq_of_mem_set hk with hk | rfl
    · exact h.ranked.bounded k hk
    · exact hrank.trans h.maxRank.ge

/-- a change of what the buffers hold -/
theorem Cut.of_data (h : Cut p p') (a b : ℕ → B) : Cut p { p' with a := a, b := b } :=
  ⟨h.maxRank, h.inDim, h.outDim, ⟨h.ranked.largest, h.ranked.bounded⟩⟩

theorem operate_cut (message : String) :
    Faulty.Ends (Cut p) (Faulty.operate message) (fun _ => Cut p) (Cut p) :=
  Faulty.Ends.operate (fun _ h => h) fun _ h => h

theorem ensure_cut (φ : Prop) [Decidable φ] (message : String) :
    Faulty.Ends (Cut p) (Faulty.ensure φ message) (fun _ => Cut p) (Cut p) :=
  Faulty.Ends.ensure (fun _ h _ => h) fun _ h _ => h

theorem modify_cut (f : PackedLoraProjection B F → PackedLoraProjection B F) (hf : ∀ p', Cut p p' → Cut p (f p')) :
    Faulty.Ends (Cut p) (Faulty.modify f) (fun _ => Cut p) (Cut p) := Faulty.Ends.modify hf

theorem clearSlot_cut (slot : ℕ) : Faulty.Ends (Cut p) (clearSlot slot) (fun _ => Cut p) (Cut p) := by
  have hread : Faulty.Ends (Cut p) Faulty.get (fun _ => Cut p) (Cut p) := Faulty.Ends.get fun _ h => h
  refine hread.bind fun _ => ?_
  refine (ensure_cut _ _).bind fun _ => ?_
  refine (operate_cut _).bind fun _ => ?_
  refine (modify_cut _ fun p' h => h.of_data _ p'.b).bind fun _ => ?_
  refine (operate_cut _).bind fun _ => ?_
  refine (modify_cut _ fun p' h => h.of_data p'.a _).bind fun _ => ?_
  refine (operate_cut _).bind fun _ => ?_
  exact modify_cut _ fun _ h => h.setScale (Nat.zero_le _)

/-- a projection that is written fits -/
theorem writeSlot_cut (slot : ℕ) (projection : DeviceLoraProjection B) (scale : F) :
    Faulty.Ends (Cut p) (writeSlot slot projection scale) (fun _ p' => projection.FitsIn p ∧ Cut p p') (Cut p) := by
  have hread : Faulty.Ends (Cut p) Faulty.get (fun a p' => Cut p a ∧ Cut p p') (Cut p) :=
    Faulty.Ends.get fun _ h => ⟨h, h⟩
  refine hread.bind fun a => Faulty.Ends.given fun ha => ?_
  refine (ensure_cut _ _).bind fun _ => ?_
  have hshapeA : Faulty.Ends (Cut p) (Faulty.ensure (projection.a.rows ≤ a.maxRank ∧ projection.a.cols = a.inDim)
        "inconsistent LoRA A shape in packed projection")
      (fun _ p' => (projection.a.rows ≤ p.maxRank ∧ projection.a.cols = p.inDim) ∧ Cut p p') (Cut p) :=
    Faulty.Ends.ensure (fun _ h hin => ⟨by rwa [← ha.maxRank, ← ha.inDim], h⟩) fun _ h _ => h
  refine hshapeA.bind fun _ => Faulty.Ends.given fun hin => ?_
  have hshapeB : Faulty.Ends (Cut p)
      (Faulty.ensure (projection.b.rows = a.outDim ∧ projection.b.cols = projection.a.rows)
        "inconsistent LoRA B shape in packed projection")
      (fun _ p' => (projection.b.rows = p.outDim ∧ projection.b.cols = projection.a.rows) ∧ Cut p p') (Cut p) :=
    Faulty.Ends.ensure (fun _ h hout => ⟨by rwa [← ha.outDim], h⟩) fun _ h _ => h
  refine hshapeB.bind fun _ => Faulty.Ends.given fun hout => ?_
  refine (clearSlot_cut slot).bind fun _ => ?_
  refine (operate_cut _).bind fun _ => ?_
  refine (modify_cut _ fun p' h => h.of_data _ p'.b).bind fun _ => ?_
  refine (ensure_cut _ _).bind fun _ => ?_
  refine (operate_cut _).bind fun _ => ?_
  refine (modify_cut _ fun p' h => h.of_data p'.a _).bind fun _ => ?_
  refine (operate_cut _).bind fun _ => ?_
  exact Faulty.Ends.modify fun _ h => ⟨⟨hin.1, hin.2, hout.1, hout.2⟩, h.setScale hin.1⟩

end PackedLoraProjection

namespace LoraModel

variable [Zero B] [Zero F] {r r₁ r₂ : LoraModel B F} {target : ℕ × LoraProjectionKind} {slot : ℕ}
  {adapter : DeviceLoraAdapter B F} {n : ℕ}

/-- the same adapters, in buffers of the same cut or further ones -/
structure Grown (r r₁ : LoraModel B F) : Prop where
  numHiddenLayers : r₁.numHiddenLayers = r.numHiddenLayers
  loraAdapters : r₁.loraAdapters = r.loraAdapters
  buffers : ∀ layerIdx kind p, r.packedLayers layerIdx kind = some p →
    ∃ p', r₁.packedLayers layerIdx kind = some p' ∧ p.Cut p'
  ranked : ∀ layerIdx kind p, r₁.packedLayers layerIdx kind = some p → p.Ranked

theorem Shaped.grown_self (h : r.Shaped n) : Grown r r :=
  ⟨rfl, rfl, fun layerIdx kind p hp => ⟨p, hp, rfl, rfl, rfl, h.ranked layerIdx kind p hp⟩, h.ranked⟩

theorem Shaped.of_grown (h : r.Shaped n) (hgrown : Grown r r₁) : r₁.Shaped n where
  hidden := hgrown.numHiddenLayers.trans h.hidden
  ranked := hgrown.ranked
  layers name adapter hadapter := by
    rw [hgrown.loraAdapters] at hadapter
    exact h.layers name adapter hadapter
  fits name adapter hadapter layerIdx hlayer kind projection hprojection := by
    rw [hgrown.loraAdapters] at hadapter
    obtain ⟨p, hp, hfits⟩ := h.fits name adapter hadapter layerIdx hlayer kind projection hprojection
    obtain ⟨p', hp', hcut⟩ := hgrown.buffers layerIdx kind p hp
    exact ⟨p', hp', hcut.fits hfits⟩

/-- a projection's buffers in place of those of its cut -/
theorem Grown.setPacked (h : Grown r r₁) {p p' : PackedLoraProjection B F}
    (hp : r₁.packedLayers target.1 target.2 = some p) (hcut : p.Cut p') :
    Grown r (r₁.setPacked target.1 target.2 p') where
  numHiddenLayers := h.numHiddenLayers
  loraAdapters := h.loraAdapters
  buffers layerIdx kind q hq := by
    obtain ⟨q', hq', hcut'⟩ := h.buffers layerIdx kind q hq
    by_cases heq : (layerIdx, kind) = target
    · subst heq
      obtain rfl := Option.some.inj (hp.symm.trans hq')
      exact ⟨p', packedLayers_setPacked_self .., hcut.maxRank.trans hcut'.maxRank, hcut.inDim.trans hcut'.inDim,
        hcut.outDim.trans hcut'.outDim, hcut.ranked⟩
    · exact ⟨q', (packedLayers_setPacked_of_ne r₁ p' heq).trans hq', hcut'⟩
  ranked layerIdx kind q hq := by
    by_cases heq : (layerIdx, kind) = target
    · subst heq
      rw [packedLayers_setPacked_self] at hq
      obtain rfl := Option.some.inj hq
      exact hcut.ranked
    · exact h.ranked layerIdx kind q ((packedLayers_setPacked_of_ne r₁ p' heq).symm.trans hq)

/-- buffers for a projection that had none -/
theorem Grown.allocate (h : Grown r r₁) {p : PackedLoraProjection B F}
    (hnone : r₁.packedLayers target.1 target.2 = none) (hranked : p.Ranked) :
    Grown r (r₁.setPacked target.1 target.2 p) where
  numHiddenLayers := h.numHiddenLayers
  loraAdapters := h.loraAdapters
  buffers layerIdx kind q hq := by
    obtain ⟨q', hq', hcut'⟩ := h.buffers layerIdx kind q hq
    have hne : (layerIdx, kind) ≠ target := by
      rintro rfl
      rw [hnone] at hq'
      cases hq'
    exact ⟨q', (packedLayers_setPacked_of_ne r₁ p hne).trans hq', hcut'⟩
  ranked layerIdx kind q hq := by
    by_cases heq : (layerIdx, kind) = target
    · subst heq
      rw [packedLayers_setPacked_self] at hq
      obtain rfl := Option.some.inj hq
      exact hranked
    · exact h.ranked layerIdx kind q ((packedLayers_setPacked_of_ne r₁ p heq).symm.trans hq)

/-- an operation on a projection's buffers, as an operation on the rank -/
theorem onPacked_grown (h : Grown r r₁) {p : PackedLoraProjection B F} {φ : Prop}
    {m : Faulty (PackedLoraProjection B F) Unit} (hp : r₁.packedLayers target.1 target.2 = some p)
    (hm : Faulty.Ends p.Cut m (fun _ p' => φ ∧ p.Cut p') p.Cut) :
    Faulty.Ends (fun r₂ => r₂ = r₁) (onPacked target.1 target.2 p m)
      (fun _ r₂ => Grown r r₂ ∧ ∃ p', r₂.packedLayers target.1 target.2 = some p' ∧ p.Cut p' ∧ φ) (Grown r) := by
  rintro r₂ fs rfl
  have hrun := hm p fs ⟨rfl, rfl, rfl, h.ranked _ _ p hp⟩
  unfold onPacked
  cases hcase : m p fs with
  | mk result rest =>
    obtain ⟨p', fs'⟩ := rest
    rw [hcase] at hrun
    cases result with
    | error e => exact h.setPacked hp hrun
    | ok _ => exact ⟨h.setPacked hp hrun.2, p', packedLayers_setPacked_self .., hrun.2, hrun.1⟩

theorem clearPackedLoraProjectionSlot_grown (slot : ℕ) (target : ℕ × LoraProjectionKind) :
    Faulty.Ends (Grown r) (clearPackedLoraProjectionSlot slot target) (fun _ => Grown r) (Grown r) := by
  refine Faulty.Ends.of_each fun r₁ h => ?_
  have hread : Faulty.Ends (fun r₂ => r₂ = r₁) Faulty.get (fun a r₂ => a = r₁ ∧ r₂ = r₁) (Grown r) :=
    Faulty.Ends.get fun _ h => ⟨h, h⟩
  refine hread.bind fun a => Faulty.Ends.given fun ha => ?_
  subst ha
  cases hp : a.packedLayers target.1 target.2 with
  | some p =>
    have hclear : Faulty.Ends p.Cut (PackedLoraProjection.clearSlot slot) (fun _ p' => True ∧ p.Cut p') p.Cut :=
      (PackedLoraProjection.clearSlot_cut slot).weaken (fun _ h => h) (fun _ _ h => ⟨trivial, h⟩) fun _ h => h
    exact (onPacked_grown h hp hclear).weaken (fun _ h => h) (fun _ _ h => h.1) fun _ h => h
  | none =>
    apply Faulty.Ends.pure
    rintro r₂ rfl
    exact h

theorem clearPackedLoraSlot_grown (slot : ℕ) :
    Faulty.Ends (Grown r) (clearPackedLoraSlot slot) (fun _ => Grown r) (Grown r) := by
  have hread : Faulty.Ends (Grown r) Faulty.get (fun _ => Grown r) (Grown r) := Faulty.Ends.get fun _ h => h
  refine hread.bind fun a => ?_
  exact Faulty.Ends.each (I := fun _ => Grown r) _ fun _ target _ _ => clearPackedLoraProjectionSlot_grown slot target

/-- the adapter's projection has buffers that it fits -/
def FitsAt (adapter : DeviceLoraAdapter B F) (r : LoraModel B F) (target : ℕ × LoraProjectionKind) : Prop :=
  ∀ projection, adapter.projection target.1 target.2 = some projection →
    ∃ p, r.packedLayers target.1 target.2 = some p ∧ projection.FitsIn p

theorem FitsAt.of_grown (h : FitsAt adapter r₁ target) (hgrown : Grown r₁ r₂) : FitsAt adapter r₂ target := by
  intro projection hprojection
  obtain ⟨p, hp, hfits⟩ := h projection hprojection
  obtain ⟨p', hp', hcut⟩ := hgrown.buffers _ _ p hp
  exact ⟨p', hp', hcut.fits hfits⟩

/-- the buffers a projection is written to: those there are, or new ones -/
theorem allocPacked_grown (h : Grown r r₁) (projection : DeviceLoraProjection B) :
    Faulty.Ends (fun r₂ => r₂ = r₁) (allocPacked target projection)
      (fun p r₂ => Grown r r₂ ∧ r₂.packedLayers target.1 target.2 = some p) (Grown r) := by
  have hread : Faulty.Ends (fun r₂ => r₂ = r₁) Faulty.get (fun a r₂ => a = r₁ ∧ r₂ = r₁) (Grown r) :=
    Faulty.Ends.get fun _ h => ⟨h, h⟩
  refine hread.bind fun a => Faulty.Ends.given fun ha => ?_
  subst ha
  have hfault {message : String} : Faulty.Ends (fun r₂ => r₂ = a) (Faulty.operate message) (fun _ r₂ => r₂ = a)
      (Grown r) := Faulty.Ends.operate (fun _ h => h) fun r₂ hr₂ => by rwa [hr₂]
  cases hp : a.packedLayers target.1 target.2 with
  | some p =>
    apply Faulty.Ends.pure
    rintro r₂ rfl
    exact ⟨h, hp⟩
  | none =>
    refine hfault.bind fun _ => hfault.bind fun _ => hfault.bind fun _ => ?_
    have hset : Faulty.Ends (fun r₂ => r₂ = a)
        (Faulty.modify fun r₂ => r₂.setPacked target.1 target.2
          (.new a.maxLoras a.maxLoraRank projection.a.cols projection.b.rows))
        (fun _ r₂ => r₂ = a.setPacked target.1 target.2
          (.new a.maxLoras a.maxLoraRank projection.a.cols projection.b.rows)) (Grown r) :=
      Faulty.Ends.modify fun r₂ hr₂ => by rw [hr₂]
    refine hset.bind fun _ => Faulty.Ends.pure ?_
    rintro r₂ rfl
    exact ⟨h.allocate hp (PackedLoraProjection.new_ranked _ _ _ _), packedLayers_setPacked_self ..⟩

/-- one projection of the adapter, if it has it -/
theorem packTarget_grown (h : Grown r r₁) (slot : ℕ) (adapter : DeviceLoraAdapter B F)
    (target : ℕ × LoraProjectionKind) :
    Faulty.Ends (fun r₂ => r₂ = r₁) (packTarget slot adapter target)
      (fun _ r₂ => Grown r r₂ ∧ Grown r₁ r₂ ∧ FitsAt adapter r₂ target) fun r₂ => Grown r r₂ := by
  have hself : Grown r₁ r₁ := ⟨rfl, rfl, fun layerIdx kind p hp => ⟨p, hp, rfl, rfl, rfl, h.ranked layerIdx kind p hp⟩,
    h.ranked⟩
  have htrans : ∀ {r₂}, Grown r₁ r₂ → Grown r r₂ := fun {r₂} hgrown => by
    refine ⟨hgrown.numHiddenLayers.trans h.numHiddenLayers, hgrown.loraAdapters.trans h.loraAdapters, ?_, hgrown.ranked⟩
    intro layerIdx kind p hp
    obtain ⟨p₁, hp₁, hcut₁⟩ := h.buffers layerIdx kind p hp
    obtain ⟨p₂, hp₂, hcut₂⟩ := hgrown.buffers layerIdx kind p₁ hp₁
    exact ⟨p₂, hp₂, hcut₂.maxRank.trans hcut₁.maxRank, hcut₂.inDim.trans hcut₁.inDim, hcut₂.outDim.trans hcut₁.outDim,
      hcut₂.ranked⟩
  unfold packTarget
  cases hprojection : adapter.projection target.1 target.2 with
  | none =>
    apply Faulty.Ends.pure
    rintro r₂ rfl
    refine ⟨h, hself, fun projection hsome => ?_⟩
    rw [hprojection] at hsome
    cases hsome
  | some projection =>
    have hpack : Faulty.Ends (fun r₂ => r₂ = r₁) (packLoraProjectionSlot slot projection adapter.scale target)
        (fun _ r₂ => Grown r₁ r₂ ∧ FitsAt adapter r₂ target) (Grown r₁) := by
      refine (allocPacked_grown hself projection).bind fun p => Faulty.Ends.of_each fun r₂ hr₂ => ?_
      obtain ⟨hgrown, hp⟩ := hr₂
      have hwrite := onPacked_grown hgrown hp (PackedLoraProjection.writeSlot_cut slot projection adapter.scale)
      refine hwrite.weaken (fun _ h => h) (fun _ r₃ h => ⟨h.1, fun other hother => ?_⟩) fun _ h => h
      obtain ⟨p', hp', hcut, hfits⟩ := h.2
      obtain rfl := Option.some.inj (hprojection.symm.trans hother)
      exact ⟨p', hp', hcut.fits hfits⟩
    exact hpack.weaken (fun _ h => h) (fun _ r₂ h => ⟨htrans h.1, h⟩) fun _ h => htrans h

/-- an adapter that was packed fits the buffers -/
theorem updatePackedLoraSlot_grown (h : Grown r r) (slot : ℕ) (adapter : DeviceLoraAdapter B F) :
    Faulty.Ends (fun r₁ => r₁ = r) (updatePackedLoraSlot slot adapter)
      (fun _ r₁ => Grown r r₁ ∧ ∀ target ∈ layerProjections r.numHiddenLayers, FitsAt adapter r₁ target) (Grown r) := by
  have hclear : Faulty.Ends (fun r₁ => r₁ = r) (clearPackedLoraSlot slot) (fun _ => Grown r) (Grown r) :=
    (clearPackedLoraSlot_grown slot).weaken (fun r₁ hr₁ => by rwa [hr₁]) (fun _ _ h => h) fun _ h => h
  refine hclear.bind fun _ => ?_
  have hread : Faulty.Ends (Grown r) Faulty.get (fun a r₁ => a.numHiddenLayers = r.numHiddenLayers ∧ Grown r r₁)
      (Grown r) := Faulty.Ends.get fun _ h => ⟨h.numHiddenLayers, h⟩
  refine hread.bind fun a => Faulty.Ends.given fun ha => ?_
  rw [ha]
  have hloop : Faulty.Ends (fun r₁ => Grown r r₁ ∧ ∀ target ∈ [], FitsAt adapter r₁ target)
      (Faulty.each (packTarget slot adapter) (layerProjections r.numHiddenLayers))
      (fun _ r₁ => Grown r r₁ ∧ ∀ target ∈ layerProjections r.numHiddenLayers, FitsAt adapter r₁ target) (Grown r) := by
    apply Faulty.Ends.each (I := fun done r₁ => Grown r r₁ ∧ ∀ target ∈ done, FitsAt adapter r₁ target)
    intro done target rest _
    refine Faulty.Ends.of_each fun r₁ hr₁ => ?_
    obtain ⟨hgrown, hdone⟩ := hr₁
    refine (packTarget_grown hgrown slot adapter target).weaken (fun _ h => h) (fun _ r₂ h => ?_) fun _ h => h
    refine ⟨h.1, fun other hother => ?_⟩
    rcases List.mem_append.1 hother with hother | hother
    · exact (hdone other hother).of_grown h.2.1
    · rw [List.mem_singleton.1 hother]
      exact h.2.2
  exact hloop.weaken (fun _ h => ⟨h, fun _ hnil => absurd hnil List.not_mem_nil⟩) (fun _ _ h => h) fun _ h => h

/-! ## A rank's commands -/

/-- a rank's shape is its layers, its adapters and its buffers -/
theorem Shaped.congr (h : r.Shaped n) (hlayers : r₁.numHiddenLayers = r.numHiddenLayers)
    (hadapters : ∀ name adapter, r₁.loraAdapters name = some adapter → r.loraAdapters name = some adapter)
    (hpacked : r₁.packedLayers = r.packedLayers) : r₁.Shaped n where
  hidden := hlayers.trans h.hidden
  ranked layerIdx kind p hp := h.ranked layerIdx kind p (by rwa [← hpacked])
  layers name adapter hadapter := h.layers name adapter (hadapters name adapter hadapter)
  fits name adapter hadapter layerIdx hlayer kind projection hprojection := by
    rw [hpacked]
    exact h.fits name adapter (hadapters name adapter hadapter) layerIdx hlayer kind projection hprojection

theorem removeAdapter_shaped (h : r.Shaped n) (name : String) : (r.removeAdapter name).Shaped n := by
  refine h.congr rfl (fun name' adapter hadapter => ?_) rfl
  change Function.update r.loraAdapters name none name' = some adapter at hadapter
  rw [Function.update_apply] at hadapter
  split_ifs at hadapter
  exact hadapter

theorem releaseSlot_shaped (h : r.Shaped n) (name : String) (slot : ℕ) : (r.releaseSlot name slot).Shaped n :=
  h.congr rfl (fun _ _ hadapter => hadapter) rfl

theorem bindSlot_shaped (h : r.Shaped n) (slot : ℕ) (name : String) : (r.bindSlot slot name).Shaped n := by
  unfold bindSlot
  cases r.slotNames[slot]?.join with
  | none => exact h.congr rfl (fun _ _ hadapter => hadapter) rfl
  | some previousName => exact h.congr rfl (fun _ _ hadapter => hadapter) rfl

theorem insertAdapter_shaped (h : r.Shaped n) (hlayers : adapter.layers.length = n)
    (hfits : ∀ target ∈ layerProjections n, FitsAt adapter r target) :
    (r.insertAdapter adapter).Shaped n where
  hidden := h.hidden
  ranked := h.ranked
  layers name other hother := by
    change Function.update r.loraAdapters adapter.name (some adapter) name = some other at hother
    rw [Function.update_apply] at hother
    split_ifs at hother
    · obtain rfl := Option.some.inj hother
      exact hlayers
    · exact h.layers name other hother
  fits name other hother layerIdx hlayer kind projection hprojection := by
    change Function.update r.loraAdapters adapter.name (some adapter) name = some other at hother
    rw [Function.update_apply] at hother
    split_ifs at hother
    · obtain rfl := Option.some.inj hother
      exact hfits (layerIdx, kind) (mem_layerProjections hlayer kind) projection hprojection
    · exact h.fits name other hother layerIdx hlayer kind projection hprojection

theorem dropFailedUpdate_shaped (h : r.Shaped n) (slot : ℕ) (name : String) :
    (dropFailedUpdate slot name r).Shaped n := by
  unfold dropFailedUpdate
  dsimp only
  split_ifs
  · exact releaseSlot_shaped (removeAdapter_shaped h name) name slot
  · exact removeAdapter_shaped h name

/-- **Install** keeps the shape, whether it succeeds or fails. -/
theorem installLoraAdapter_shaped (h : r.Shaped n) (hlayers : adapter.layers.length = n)
    (loadInplace : Bool) :
    Faulty.Ends (fun r₁ => r₁ = r) (installLoraAdapter adapter loadInplace) (fun _ r₁ => r₁.Shaped n) (Shaped n) := by
  have hread : Faulty.Ends (fun r₁ => r₁ = r) Faulty.get (fun a r₁ => a = r ∧ r₁ = r) (Shaped n) :=
    Faulty.Ends.get fun _ h => ⟨h, h⟩
  refine hread.bind fun a => Faulty.Ends.given fun ha => ?_
  subst ha
  cases a.slotForInstall adapter.name loadInplace with
  | error e =>
    apply Faulty.Ends.fail
    rintro r₁ rfl
    exact h
  | ok slot =>
    have htry : Faulty.Ends (fun r₁ => r₁ = a) (Faulty.attempt (updatePackedLoraSlot slot adapter))
        (fun result r₁ => Grown a r₁ ∧ (result = .ok () →
          ∀ target ∈ layerProjections a.numHiddenLayers, FitsAt adapter r₁ target)) (Shaped n) := by
      apply Faulty.Ends.attempt
      refine (updatePackedLoraSlot_grown h.grown_self slot adapter).weaken (fun _ h => h)
        (fun _ r₁ h => ?_) fun r₁ h e => ?_
      · exact ⟨h.1, fun _ => h.2⟩
      · exact ⟨h, fun hok => by cases hok⟩
    refine htry.bind fun result => ?_
    cases result with
    | error err =>
      have hdrop : Faulty.Ends (fun r₁ => Grown a r₁ ∧ (Except.error err = Except.ok () →
            ∀ target ∈ layerProjections a.numHiddenLayers, FitsAt adapter r₁ target))
          (Faulty.modify (dropFailedUpdate slot adapter.name)) (fun _ => Shaped n) (Shaped n) :=
        Faulty.Ends.modify fun r₁ hr₁ => dropFailedUpdate_shaped (h.of_grown hr₁.1) slot adapter.name
      exact hdrop.bind fun _ => Faulty.Ends.fail fun _ hr => hr
    | ok _ =>
      refine Faulty.Ends.of_each fun r₁ hr₁ => ?_
      obtain ⟨hgrown, hfits⟩ := hr₁
      have hread : Faulty.Ends (fun r₂ => r₂ = r₁) Faulty.get (fun b r₂ => b = r₁ ∧ r₂ = r₁) (Shaped n) :=
        Faulty.Ends.get fun _ h => ⟨h, h⟩
      refine hread.bind fun b => Faulty.Ends.given fun hb => ?_
      subst hb
      have hnew : Faulty.Ends (fun r₂ => r₂ = b)
          (Faulty.ensure (loadInplace || (b.loraAdapters adapter.name).isNone)
            ("Qwen3 LoRA adapter " ++ adapter.name ++ " is already loaded"))
          (fun _ r₂ => r₂ = b) (Shaped n) :=
        Faulty.Ends.ensure (fun _ hr _ => hr) fun r₂ hr _ => by
          rw [hr]
          exact h.of_grown hgrown
      refine hnew.bind fun _ => Faulty.Ends.modify fun r₂ hr₂ => ?_
      rw [hr₂]
      apply bindSlot_shaped
      apply insertAdapter_shaped (h.of_grown hgrown) hlayers
      rw [← h.hidden]
      exact hfits rfl

theorem loadLoraAdapter_shaped (h : r.Shaped n) (hlayers : adapter.layers.length = n)
    (loadInplace : Bool) :
    Faulty.Ends (fun r₁ => r₁ = r) (loadLoraAdapter adapter loadInplace) (fun _ r₁ => r₁.Shaped n) (Shaped n) := by
  have hcopy : Faulty.Ends (fun r₁ => r₁ = r)
      (Faulty.each (fun _ => Faulty.operate "LoRA matrix copy failed") adapter.matrices) (fun _ r₁ => r₁ = r) (Shaped n) :=
    Faulty.Ends.each (I := fun _ r₁ => r₁ = r) adapter.matrices fun _ _ _ _ =>
      Faulty.Ends.operate (fun _ hr => hr) fun r₁ hr => by rwa [hr]
  exact hcopy.bind fun _ => installLoraAdapter_shaped h hlayers loadInplace

theorem uninstallLoraAdapter_shaped (h : r.Shaped n) (name : String) :
    Faulty.Ends (fun r₁ => r₁ = r) (uninstallLoraAdapter name) (fun _ r₁ => r₁.Shaped n) (Shaped n) := by
  have hread : Faulty.Ends (fun r₁ => r₁ = r) Faulty.get (fun a r₁ => a = r ∧ r₁ = r) (Shaped n) :=
    Faulty.Ends.get fun _ h => ⟨h, h⟩
  refine hread.bind fun a => Faulty.Ends.given fun ha => ?_
  subst ha
  cases a.slotFor name with
  | none =>
    apply Faulty.Ends.fail
    rintro r₁ rfl
    exact h
  | some slot =>
    have hclear : Faulty.Ends (fun r₁ => r₁ = a) (clearPackedLoraSlot slot) (fun _ => Shaped n) (Shaped n) :=
      (clearPackedLoraSlot_grown slot).weaken (fun r₁ hr₁ => by rw [hr₁]; exact h.grown_self)
        (fun _ _ hgrown => h.of_grown hgrown) fun _ hgrown => h.of_grown hgrown
    exact hclear.bind fun _ => Faulty.Ends.modify fun r₁ hr₁ =>
      removeAdapter_shaped (releaseSlot_shaped hr₁ name slot) name

theorem discardLoraAdapter_shaped (h : r.Shaped n) (name : String) : (r.discardLoraAdapter name).Shaped n := by
  unfold discardLoraAdapter
  cases r.slotFor name with
  | none => exact removeAdapter_shaped h name
  | some slot => exact removeAdapter_shaped (releaseSlot_shaped h name slot) name

theorem new_shaped (numHiddenLayers maxLoras maxLoraRank : ℕ) :
    (new numHiddenLayers maxLoras maxLoraRank : LoraModel B F).Shaped numHiddenLayers where
  hidden := rfl
  ranked _ _ _ h := by cases h
  layers _ _ h := by cases h
  fits _ _ h := by cases h

end LoraModel

/-! ## All ranks -/

/-- the loader reads one layer for each of the model's -/
def LoraCall.Layered (numHiddenLayers : ℕ) : LoraCall B F → Prop
  | .load _ shards _ _ => ∀ shard, shards = some shard → ∀ rank, (shard rank).1.length = numHiddenLayers
  | .unload .. => True

namespace LoraRanks

variable [Zero B] [Zero F] {s : LoraRanks B F} {n : ℕ}

/-- commands that keep each rank's shape -/
theorem onRanks_shaped {command : ℕ → Faulty (LoraModel B F) Unit} {faults : ℕ → Faults}
    (h : ∀ r ∈ s.ranks, r.Shaped n)
    (hcommand : ∀ rank r, r.Shaped n →
      Faulty.Ends (fun r₁ => r₁ = r) (command rank) (fun _ r₁ => r₁.Shaped n) (LoraModel.Shaped n)) :
    ∀ answered ∈ onRanks command faults 0 s.ranks, answered.2.Shaped n := by
  intro answered hanswered
  obtain ⟨i, r, hr, rfl⟩ := (mem_onRanks _ _ _ _ _).1 hanswered
  have hends := hcommand (0 + i) r (h r (List.mem_of_getElem? hr))
  cases hcase : command (0 + i) r (faults (0 + i)) with
  | mk result rest =>
    obtain ⟨r', fs'⟩ := rest
    cases result with
    | error e => exact hends.run_error rfl hcase
    | ok _ => exact hends.run_ok rfl hcase

/-- **Every call keeps the ranks' shapes**, whatever fails. -/
theorem call_shaped (h : ∀ r ∈ s.ranks, r.Shaped n) {c : LoraCall B F} (hc : c.Layered n) :
    ∀ r ∈ (s.call c).2.ranks, r.Shaped n := by
  cases c with
  | load name shards loadInplace faults =>
    change ∀ r ∈ (s.loadLoraAdapter name shards loadInplace faults).2.ranks, r.Shaped n
    unfold loadLoraAdapter
    cases s.ensureLoraCapacity name loadInplace with
    | error err => exact h
    | ok _ =>
      cases shards with
      | none => exact h
      | some shard =>
        dsimp only
        set command : ℕ → Faulty (LoraModel B F) Unit := fun rank =>
          LoraModel.loadLoraAdapter ⟨name, (shard rank).2, (shard rank).1⟩ loadInplace
        have hanswers : ∀ answered ∈ onRanks command faults 0 s.ranks, answered.2.Shaped n :=
          onRanks_shaped h fun rank r hr => LoraModel.loadLoraAdapter_shaped hr (hc shard rfl rank) loadInplace
        cases errors 0 (onRanks command faults 0 s.ranks) with
        | nil =>
          intro r hr
          obtain ⟨answered, hanswered, rfl⟩ := List.mem_map.1 hr
          exact hanswers answered hanswered
        | cons err errs =>
          intro r hr
          obtain ⟨answered, hanswered, rfl⟩ := List.mem_map.1 hr
          exact LoraModel.discardLoraAdapter_shaped (hanswers answered hanswered) name
  | unload name faults =>
    change ∀ r ∈ (s.unloadLoraAdapter name faults).2.ranks, r.Shaped n
    have hranks : ∀ r ∈ (onRanks (fun _ => LoraModel.uninstallLoraAdapter name) faults 0 s.ranks).map Prod.snd,
        r.Shaped n := by
      intro r hr
      obtain ⟨answered, hanswered, rfl⟩ := List.mem_map.1 hr
      exact onRanks_shaped h (fun _ r hr => LoraModel.uninstallLoraAdapter_shaped hr name) answered hanswered
    unfold unloadLoraAdapter
    dsimp only
    cases errors 0 (onRanks (fun _ => LoraModel.uninstallLoraAdapter name) faults 0 s.ranks) with
    | nil => exact hranks
    | cons err errs => exact hranks

/-- **Consistent ranks.** After any whole calls of adapters with all layers, on any number of ranks. -/
theorem lora_ranks_consistent (worldSize numHiddenLayers maxLoras maxLoraRank : ℕ) (hworld : 0 < worldSize)
    (calls : List (LoraCall B F)) (s : LoraRanks B F)
    (hwhole : StepsMeet step (fun s c => s.Whole c ∧ c.Layered numHiddenLayers)
      (new worldSize numHiddenLayers maxLoras maxLoraRank) calls)
    (hrun : run step (new worldSize numHiddenLayers maxLoras maxLoraRank) calls = .ok s) :
    ∀ r ∈ s.ranks, r.Consistent := by
  have hkept : s.Settled ∧ ∀ r ∈ s.ranks, r.Shaped numHiddenLayers := by
    refine run_invariant (I := fun _ s => s.Settled ∧ ∀ r ∈ s.ranks, r.Shaped numHiddenLayers) _ ⟨?_, ?_⟩ ?_ calls s
      hwhole hrun
    · exact new_settled hworld _ _ _
    · intro r hr
      rw [List.eq_of_mem_replicate hr]
      exact LoraModel.new_shaped _ _ _
    · rintro _ s c s' ⟨hsettled, hshaped⟩ ⟨hone, hlayered⟩ hstep
      cases hstep
      exact ⟨step_settled hsettled c hone, call_shaped hshaped hlayered⟩
  intro r hr
  have hshaped := hkept.2 r hr
  exact ⟨hkept.1.ranks r hr, by rw [hshaped.hidden]; exact hshaped⟩

end LoraRanks

end Pegainfer.Qwen3
