/-
The LoRA registries of the ranks agree with the executor, with their packed slots and with each other.

- `PackedLoraProjection.Beside`: an operation on a slot leaves the other slots alone.
- `clearSlot_ends`, `writeSlot_ends`: a slot that is cleared holds nothing, a slot that is written holds the projection.
- `LoraModel.Agrees`: what a rank's three records say of one another; `updatePackedLoraSlot_ends` for its buffers.
-/
import Mathlib.Tactic
import Pegainfer.Lib.Machine
import Pegainfer.Lib.Faulty
import Pegainfer.Qwen3.LoraRegistry

set_option linter.unusedSectionVars false

namespace Pegainfer.Qwen3

open Pegainfer.Lib

variable {B F : Type} [Zero B] [Zero F]

/-! ## One projection's buffers -/

/-- two slots' places in a buffer do not meet -/
theorem slot_places_apart {slot slot' stride j : ℕ} (hne : slot' ≠ slot) (hj : j < stride) :
    ¬ (slot * stride ≤ slot' * stride + j ∧ slot' * stride + j < slot * stride + stride) := by
  rintro ⟨hlow, hhigh⟩
  rcases Nat.lt_or_gt_of_ne hne with hlt | hgt
  · have hstep : (slot' + 1) * stride ≤ slot * stride := Nat.mul_le_mul_right stride hlt
    rw [Nat.add_mul, Nat.one_mul] at hstep
    omega
  · have hstep : (slot + 1) * stride ≤ slot' * stride := Nat.mul_le_mul_right stride hgt
    rw [Nat.add_mul, Nat.one_mul] at hstep
    omega

namespace PackedLoraProjection

/-- the same buffers, but for a slot -/
structure Beside (slot : ℕ) (p p' : PackedLoraProjection B F) : Prop where
  maxLoras : p'.maxLoras = p.maxLoras
  maxRank : p'.maxRank = p.maxRank
  inDim : p'.inDim = p.inDim
  outDim : p'.outDim = p.outDim
  slotRanks : p'.slotRanks.length = p.slotRanks.length
  contents : ∀ slot', slot' ≠ slot → p'.contents slot' = p.contents slot'

namespace Beside

variable {slot : ℕ} {p p' p'' : PackedLoraProjection B F}

theorem refl (p : PackedLoraProjection B F) : Beside slot p p := ⟨rfl, rfl, rfl, rfl, rfl, fun _ _ => rfl⟩

theorem trans (h : Beside slot p p') (h' : Beside slot p' p'') : Beside slot p p'' where
  maxLoras := h'.maxLoras.trans h.maxLoras
  maxRank := h'.maxRank.trans h.maxRank
  inDim := h'.inDim.trans h.inDim
  outDim := h'.outDim.trans h.outDim
  slotRanks := h'.slotRanks.trans h.slotRanks
  contents slot' hne := (h'.contents slot' hne).trans (h.contents slot' hne)

theorem aStride (h : Beside slot p p') : p'.aStride = p.aStride := by
  unfold PackedLoraProjection.aStride
  rw [h.maxRank, h.inDim]

theorem bStride (h : Beside slot p p') : p'.bStride = p.bStride := by
  unfold PackedLoraProjection.bStride
  rw [h.maxRank, h.outDim]

end Beside

variable (p : PackedLoraProjection B F) (slot : ℕ)

/-- a change of `a` inside a slot's place -/
theorem beside_a (a : ℕ → B)
    (h : ∀ i, ¬ (slot * p.aStride ≤ i ∧ i < slot * p.aStride + p.aStride) → a i = p.a i) :
    Beside slot p { p with a := a } := by
  refine ⟨rfl, rfl, rfl, rfl, rfl, fun slot' hne => ?_⟩
  refine Contents.ext (funext fun j => ?_) rfl rfl rfl
  change (if j < p.aStride then a (slot' * p.aStride + j) else 0) = if j < p.aStride then _ else 0
  by_cases hj : j < p.aStride
  · rw [if_pos hj, if_pos hj]
    exact h _ (slot_places_apart hne hj)
  · rw [if_neg hj, if_neg hj]

/-- a change of `b` inside a slot's place -/
theorem beside_b (b : ℕ → B)
    (h : ∀ i, ¬ (slot * p.bStride ≤ i ∧ i < slot * p.bStride + p.bStride) → b i = p.b i) :
    Beside slot p { p with b := b } := by
  refine ⟨rfl, rfl, rfl, rfl, rfl, fun slot' hne => ?_⟩
  refine Contents.ext rfl (funext fun j => ?_) rfl rfl
  change (if j < p.bStride then b (slot' * p.bStride + j) else 0) = if j < p.bStride then _ else 0
  by_cases hj : j < p.bStride
  · rw [if_pos hj, if_pos hj]
    exact h _ (slot_places_apart hne hj)
  · rw [if_neg hj, if_neg hj]

theorem zeroA_beside : Beside slot p (p.zeroA slot) :=
  beside_a p slot _ fun _ hi => if_neg hi

theorem zeroB_beside : Beside slot p (p.zeroB slot) :=
  beside_b p slot _ fun _ hi => if_neg hi

theorem setScale_beside (scale : F) (rank : ℕ) :
    Beside slot p ((p.setScale slot scale).setSlotRank slot rank).refreshRank := by
  refine ⟨rfl, rfl, rfl, rfl, List.length_set, fun slot' hne => ?_⟩
  refine Contents.ext rfl rfl ?_ ?_
  · exact Function.update_of_ne hne scale p.scales
  change (p.slotRanks.set slot rank).getD slot' 0 = p.slotRanks.getD slot' 0
  rw [List.getD_eq_getElem?_getD, List.getD_eq_getElem?_getD, List.getElem?_set_ne (Ne.symm hne)]

theorem copyA_beside (a : DeviceMatrix B) (h : a.rows ≤ p.maxRank) : Beside slot p (p.copyA slot a) := by
  apply beside_a
  intro i hi
  have hwidth : a.rows * p.inDim ≤ p.aStride := Nat.mul_le_mul_right p.inDim h
  exact if_neg fun ⟨hlow, hhigh⟩ => hi ⟨hlow, by omega⟩

theorem packBRows_beside (rank : ℕ) (b : DeviceMatrix B) : Beside slot p (p.packBRows slot rank b) := by
  apply beside_b
  intro i hi
  exact if_neg fun ⟨hlow, hhigh, _⟩ => hi ⟨hlow, by omega⟩

/-! ## What the writes leave in the slot -/

theorem zeroA_contents_a : ((p.zeroA slot).contents slot).a = fun _ => 0 := by
  funext j
  change (if j < p.aStride then copyTo p.a (slot * p.aStride) p.aStride (fun _ => 0) (slot * p.aStride + j) else 0) = 0
  by_cases hj : j < p.aStride
  · rw [if_pos hj]
    exact if_pos ⟨by omega, by omega⟩
  · exact if_neg hj

theorem zeroB_contents_b : ((p.zeroB slot).contents slot).b = fun _ => 0 := by
  funext j
  change (if j < p.bStride then copyTo p.b (slot * p.bStride) p.bStride (fun _ => 0) (slot * p.bStride + j) else 0) = 0
  by_cases hj : j < p.bStride
  · rw [if_pos hj]
    exact if_pos ⟨by omega, by omega⟩
  · exact if_neg hj

theorem setScale_contents (scale : F) (rank : ℕ) (h : slot < p.slotRanks.length) :
    (((p.setScale slot scale).setSlotRank slot rank).refreshRank).contents slot =
      { p.contents slot with scale := scale, rank := rank } := by
  refine Contents.ext rfl rfl ?_ ?_
  · exact Function.update_self slot scale p.scales
  change (p.slotRanks.set slot rank).getD slot 0 = rank
  rw [List.getD_eq_getElem?_getD, List.getElem?_set_self h]
  rfl

/-- a cleared slot takes the rows of `a`, and nothing past them -/
theorem copyA_contents (a : DeviceMatrix B) (hrows : a.rows ≤ p.maxRank) (hcols : a.cols = p.inDim)
    (hempty : (p.contents slot).a = fun _ => 0) :
    (p.copyA slot a).contents slot =
      { p.contents slot with a := fun j => if j < a.rows * a.cols then a.data.getD j 0 else 0 } := by
  have hwidth : a.rows * p.inDim ≤ p.aStride := Nat.mul_le_mul_right p.inDim hrows
  refine Contents.ext (funext fun j => ?_) rfl rfl rfl
  change (if j < p.aStride then
      copyTo p.a (slot * p.aStride) (a.rows * p.inDim) (fun j => a.data.getD j 0) (slot * p.aStride + j) else 0) =
    if j < a.rows * a.cols then a.data.getD j 0 else 0
  rw [hcols]
  by_cases hj : j < a.rows * p.inDim
  · rw [if_pos hj, if_pos (by omega)]
    unfold copyTo
    rw [if_pos ⟨by omega, by omega⟩, Nat.add_sub_cancel_left]
  · rw [if_neg hj]
    -- past the rows the buffer is as it was cleared
    have hold := congrFun hempty j
    change (if j < p.aStride then p.a (slot * p.aStride + j) else 0) = 0 at hold
    have hout : ¬ (slot * p.aStride ≤ slot * p.aStride + j ∧
        slot * p.aStride + j < slot * p.aStride + a.rows * p.inDim) := by omega
    unfold copyTo
    rw [if_neg hout]
    exact hold

/-- and the rows of `b`, each at the start of a row of the slot -/
theorem packBRows_contents (rank : ℕ) (b : DeviceMatrix B) (hrows : b.rows = p.outDim)
    (hempty : (p.contents slot).b = fun _ => 0) :
    (p.packBRows slot rank b).contents slot =
      { p.contents slot with
        b := fun j => if j < b.rows * p.maxRank ∧ j % p.maxRank < rank then
          b.data.getD (j / p.maxRank * rank + j % p.maxRank) 0 else 0 } := by
  refine Contents.ext rfl (funext fun j => ?_) rfl rfl
  have hsub : slot * p.bStride + j - slot * p.bStride = j := by omega
  have hold := congrFun hempty j
  change (if j < p.bStride then p.b (slot * p.bStride + j) else 0) = 0 at hold
  change (if j < p.bStride then
      if slot * p.bStride ≤ slot * p.bStride + j ∧ slot * p.bStride + j - slot * p.bStride < p.bStride ∧
          (slot * p.bStride + j - slot * p.bStride) % p.maxRank < rank then
        b.data.getD ((slot * p.bStride + j - slot * p.bStride) / p.maxRank * rank +
          (slot * p.bStride + j - slot * p.bStride) % p.maxRank) 0
      else p.b (slot * p.bStride + j) else 0) = _
  rw [hsub, hrows]
  change _ = if j < p.bStride ∧ j % p.maxRank < rank then _ else 0
  by_cases hj : j < p.bStride
  · rw [if_pos hj] at hold ⊢
    by_cases hrank : j % p.maxRank < rank
    · rw [if_pos ⟨by omega, hj, hrank⟩, if_pos ⟨hj, hrank⟩]
    · rw [if_neg fun h => hrank h.2.2, if_neg fun h => hrank h.2, hold]
  · rw [if_neg hj, if_neg fun h => hj h.1]

/-! ## Clearing and writing a slot -/

/-- a slot that holds nothing -/
def cleared : PackedLoraProjection B F :=
  ((((p.zeroA slot).zeroB slot).setScale slot 0).setSlotRank slot 0).refreshRank

theorem cleared_beside : Beside slot p (p.cleared slot) :=
  ((zeroA_beside p slot).trans (zeroB_beside _ slot)).trans (setScale_beside _ slot 0 0)

theorem cleared_contents (h : slot < p.slotRanks.length) : (p.cleared slot).contents slot = .zero := by
  unfold cleared
  rw [setScale_contents ((p.zeroA slot).zeroB slot) slot 0 0 h]
  exact Contents.ext (zeroA_contents_a p slot) (zeroB_contents_b (p.zeroA slot) slot) rfl rfl

/-- three operations, each after the one before it -/
theorem clearSlot_eq (fs : Faults) (h : slot < p.maxLoras) :
    clearSlot slot p fs =
      if fs.headD false then (.error "packed LoRA A clear failed", p, fs.tail)
      else if fs.tail.headD false then (.error "packed LoRA B clear failed", p.zeroA slot, fs.tail.tail)
      else if fs.tail.tail.headD false then
        (.error "packed LoRA scale clear failed", (p.zeroA slot).zeroB slot, fs.tail.tail.tail)
      else (.ok (), p.cleared slot, fs.tail.tail.tail) := by
  change Faulty.bind (Faulty.ensure (slot < p.maxLoras) _) _ p fs = _
  unfold Faulty.ensure
  rw [if_pos h]
  change Faulty.bind (Faulty.operate _) _ p fs = _
  unfold Faulty.bind Faulty.operate
  cases fs.headD false with
  | true => rfl
  | false =>
    change Faulty.bind (Faulty.operate _) _ (p.zeroA slot) fs.tail = _
    unfold Faulty.bind Faulty.operate
    cases fs.tail.headD false with
    | true => rfl
    | false =>
      change Faulty.bind (Faulty.operate _) _ ((p.zeroA slot).zeroB slot) fs.tail.tail = _
      unfold Faulty.bind Faulty.operate
      cases fs.tail.tail.headD false with
      | true => rfl
      | false => rfl

theorem clearSlot_ends {p₀ : PackedLoraProjection B F} (hslot : slot < p₀.maxLoras)
    (hranks : p₀.slotRanks.length = p₀.maxLoras) :
    Faulty.Ends (Beside slot p₀) (clearSlot slot) (fun _ p => Beside slot p₀ p ∧ p.contents slot = .zero)
      (Beside slot p₀) := by
  intro p fs hp
  rw [clearSlot_eq p slot fs (by rwa [hp.maxLoras])]
  have hA : Beside slot p₀ (p.zeroA slot) := hp.trans (zeroA_beside p slot)
  cases fs.headD false with
  | true => exact hp
  | false =>
    cases fs.tail.headD false with
    | true => exact hA
    | false =>
      cases fs.tail.tail.headD false with
      | true => exact hA.trans (zeroB_beside _ slot)
      | false =>
        exact ⟨hp.trans (cleared_beside p slot), cleared_contents p slot (by rwa [hp.slotRanks, hranks])⟩

/-- what a written slot holds, from what a cleared one does -/
theorem writeSlot_ends {p₀ : PackedLoraProjection B F} (hranks : p₀.slotRanks.length = p₀.maxLoras)
    (projection : DeviceLoraProjection B) (scale : F) :
    Faulty.Ends (Beside slot p₀) (writeSlot slot projection scale)
      (fun _ p => Beside slot p₀ p ∧ p.contents slot = projection.packed p₀.maxRank scale) (Beside slot p₀) := by
  have hread : Faulty.Ends (Beside slot p₀) Faulty.get (fun a p => p = a ∧ Beside slot p₀ p) (Beside slot p₀) :=
    Faulty.Ends.get fun _ hp => ⟨rfl, hp⟩
  refine hread.bind fun a => ?_
  have hroom : Faulty.Ends (fun p => p = a ∧ Beside slot p₀ p)
      (Faulty.ensure (slot < a.maxLoras) "packed LoRA slot out of range")
      (fun _ p => slot < p₀.maxLoras ∧ (p = a ∧ Beside slot p₀ p)) (Beside slot p₀) :=
    Faulty.Ends.ensure (fun p hp h => ⟨by rw [← hp.2.maxLoras, hp.1]; exact h, hp⟩) fun p hp _ => hp.2
  refine hroom.bind fun _ => Faulty.Ends.given fun hslot => ?_
  have hshapeA : Faulty.Ends (fun p => p = a ∧ Beside slot p₀ p)
      (Faulty.ensure (projection.a.rows ≤ a.maxRank ∧ projection.a.cols = a.inDim)
        "inconsistent LoRA A shape in packed projection")
      (fun _ p => (projection.a.rows ≤ p₀.maxRank ∧ projection.a.cols = p₀.inDim) ∧ (p = a ∧ Beside slot p₀ p))
      (Beside slot p₀) :=
    Faulty.Ends.ensure (fun p hp h => ⟨by rw [← hp.2.maxRank, ← hp.2.inDim, hp.1]; exact h, hp⟩) fun p hp _ => hp.2
  refine hshapeA.bind fun _ => Faulty.Ends.given fun ⟨hrank, hin⟩ => ?_
  have hshapeB : Faulty.Ends (fun p => p = a ∧ Beside slot p₀ p)
      (Faulty.ensure (projection.b.rows = a.outDim ∧ projection.b.cols = projection.a.rows)
        "inconsistent LoRA B shape in packed projection")
      (fun _ p => projection.b.rows = p₀.outDim ∧ Beside slot p₀ p) (Beside slot p₀) :=
    Faulty.Ends.ensure (fun p hp h => ⟨by rw [← hp.2.outDim, hp.1]; exact h.1, hp.2⟩) fun p hp _ => hp.2
  refine hshapeB.bind fun _ => Faulty.Ends.given fun hout => ?_
  refine (clearSlot_ends slot hslot hranks).bind fun _ => ?_
  have hfault {message : String} {φ : PackedLoraProjection B F → Prop} :
      Faulty.Ends (fun p => Beside slot p₀ p ∧ φ p) (Faulty.operate message) (fun _ p => Beside slot p₀ p ∧ φ p)
        (Beside slot p₀) := Faulty.Ends.operate (fun _ hp => hp) fun _ hp => hp.1
  refine hfault.bind fun _ => ?_
  -- the rows of `a`, then those of `b`, then the scale
  have hcopyA : Faulty.Ends (fun p => Beside slot p₀ p ∧ p.contents slot = Contents.zero)
      (Faulty.modify fun p => p.copyA slot projection.a)
      (fun _ p => Beside slot p₀ p ∧ p.contents slot =
        { Contents.zero with a := (projection.packed p₀.maxRank scale).a }) (Beside slot p₀) := by
    apply Faulty.Ends.modify
    rintro p ⟨hp, hzero⟩
    have hrows : projection.a.rows ≤ p.maxRank := by rwa [hp.maxRank]
    refine ⟨hp.trans (copyA_beside p slot _ hrows), ?_⟩
    rw [copyA_contents p slot _ hrows (by rw [hp.inDim, hin]) (by rw [hzero]; rfl), hzero]
    rfl
  refine hcopyA.bind fun _ => ?_
  have hpositive : Faulty.Ends (fun p => Beside slot p₀ p ∧ p.contents slot =
        { Contents.zero with a := (projection.packed p₀.maxRank scale).a })
      (Faulty.ensure (0 < projection.a.rows) "LoRA rank must be > 0")
      (fun _ p => Beside slot p₀ p ∧ p.contents slot =
        { Contents.zero with a := (projection.packed p₀.maxRank scale).a }) (Beside slot p₀) :=
    Faulty.Ends.ensure (fun _ hp _ => hp) fun _ hp _ => hp.1
  refine hpositive.bind fun _ => ?_
  refine hfault.bind fun _ => ?_
  have hcopyB : Faulty.Ends (fun p => Beside slot p₀ p ∧ p.contents slot =
        { Contents.zero with a := (projection.packed p₀.maxRank scale).a })
      (Faulty.modify fun p => p.packBRows slot projection.a.rows projection.b)
      (fun _ p => Beside slot p₀ p ∧ p.contents slot =
        { projection.packed p₀.maxRank scale with scale := (0 : F), rank := 0 }) (Beside slot p₀) := by
    apply Faulty.Ends.modify
    rintro p ⟨hp, hcopied⟩
    refine ⟨hp.trans (packBRows_beside p slot _ _), ?_⟩
    rw [packBRows_contents p slot _ _ (by rw [hp.outDim, hout]) (by rw [hcopied]; rfl), hcopied, hp.maxRank]
    rfl
  refine hcopyB.bind fun _ => ?_
  refine hfault.bind fun _ => ?_
  apply Faulty.Ends.modify
  rintro p ⟨hp, hcopied⟩
  refine ⟨hp.trans (setScale_beside p slot _ _), ?_⟩
  rw [setScale_contents p slot _ _ (by rwa [hp.slotRanks, hranks]), hcopied]
  rfl

end PackedLoraProjection

/-! ## A rank's buffers -/

namespace LoraModel

/-- every projection's buffers are cut as the rank is configured -/
def Fitting (r : LoraModel B F) : Prop :=
  ∀ layerIdx kind p, r.packedLayers layerIdx kind = some p →
    p.maxLoras = r.maxLoras ∧ p.maxRank = r.maxLoraRank ∧ p.slotRanks.length = r.maxLoras

/-- the same rank, but for what its buffers hold in a slot -/
structure InSlot (slot : ℕ) (r r' : LoraModel B F) : Prop where
  numHiddenLayers : r'.numHiddenLayers = r.numHiddenLayers
  maxLoras : r'.maxLoras = r.maxLoras
  maxLoraRank : r'.maxLoraRank = r.maxLoraRank
  loraAdapters : r'.loraAdapters = r.loraAdapters
  slotsByName : r'.slotsByName = r.slotsByName
  slotNames : r'.slotNames = r.slotNames
  fitting : r'.Fitting
  contents : ∀ layerIdx kind slot', slot' ≠ slot → r'.contents layerIdx kind slot' = r.contents layerIdx kind slot'

namespace InSlot

variable {slot : ℕ} {r r' r'' : LoraModel B F}

theorem refl (h : r.Fitting) : InSlot slot r r := ⟨rfl, rfl, rfl, rfl, rfl, rfl, h, fun _ _ _ _ => rfl⟩

theorem trans (h : InSlot slot r r') (h' : InSlot slot r' r'') : InSlot slot r r'' where
  numHiddenLayers := h'.numHiddenLayers.trans h.numHiddenLayers
  maxLoras := h'.maxLoras.trans h.maxLoras
  maxLoraRank := h'.maxLoraRank.trans h.maxLoraRank
  loraAdapters := h'.loraAdapters.trans h.loraAdapters
  slotsByName := h'.slotsByName.trans h.slotsByName
  slotNames := h'.slotNames.trans h.slotNames
  fitting := h'.fitting
  contents layerIdx kind slot' hne :=
    (h'.contents layerIdx kind slot' hne).trans (h.contents layerIdx kind slot' hne)

end InSlot

@[simp] theorem packedLayers_setPacked_self (r : LoraModel B F) (layerIdx : ℕ) (kind : LoraProjectionKind)
    (p : PackedLoraProjection B F) : (r.setPacked layerIdx kind p).packedLayers layerIdx kind = some p := by
  change Function.update r.packedLayers layerIdx (Function.update (r.packedLayers layerIdx) kind (some p)) layerIdx kind =
    some p
  rw [Function.update_self, Function.update_self]

theorem packedLayers_setPacked_of_ne (r : LoraModel B F) {target t : ℕ × LoraProjectionKind}
    (p : PackedLoraProjection B F) (hne : t ≠ target) :
    (r.setPacked target.1 target.2 p).packedLayers t.1 t.2 = r.packedLayers t.1 t.2 := by
  change Function.update r.packedLayers target.1 (Function.update (r.packedLayers target.1) target.2 (some p)) t.1 t.2 =
    r.packedLayers t.1 t.2
  by_cases hlayer : t.1 = target.1
  · rw [hlayer]
    rw [Function.update_self, Function.update_of_ne fun hkind => hne (Prod.ext hlayer hkind)]
  · rw [Function.update_of_ne hlayer]

theorem contents_of_packed {r : LoraModel B F} {layerIdx slot : ℕ} {kind : LoraProjectionKind}
    {p : PackedLoraProjection B F} (h : r.packedLayers layerIdx kind = some p) :
    r.contents layerIdx kind slot = p.contents slot := by
  unfold contents
  rw [h]

theorem isSome_setPacked {r : LoraModel B F} {target : ℕ × LoraProjectionKind} {p : PackedLoraProjection B F}
    (p' : PackedLoraProjection B F) (hp : r.packedLayers target.1 target.2 = some p) (t : ℕ × LoraProjectionKind) :
    ((r.setPacked target.1 target.2 p').packedLayers t.1 t.2).isSome = (r.packedLayers t.1 t.2).isSome := by
  by_cases heq : t = target
  · rw [heq, packedLayers_setPacked_self, hp]
    rfl
  · rw [packedLayers_setPacked_of_ne r p' heq]

theorem contents_setPacked_of_ne (r : LoraModel B F) {target t : ℕ × LoraProjectionKind}
    (p : PackedLoraProjection B F) (slot : ℕ) (hne : t ≠ target) :
    (r.setPacked target.1 target.2 p).contents t.1 t.2 slot = r.contents t.1 t.2 slot := by
  unfold contents
  rw [packedLayers_setPacked_of_ne r p hne]

theorem new_contents (maxLoras maxRank inDim outDim slot : ℕ) :
    (PackedLoraProjection.new maxLoras maxRank inDim outDim : PackedLoraProjection B F).contents slot = .zero := by
  refine Contents.ext (funext fun j => ite_self 0) (funext fun j => ite_self 0) rfl ?_
  change (List.replicate maxLoras 0).getD slot 0 = 0
  rw [List.getD_eq_getElem?_getD]
  cases h : (List.replicate maxLoras 0)[slot]? with
  | none => rfl
  | some rank => exact List.eq_of_mem_replicate (List.mem_of_getElem? h)

/-- a projection's buffers in place of those it had, which held the same in the other slots -/
theorem setPacked_inSlot {r : LoraModel B F} (hr : r.Fitting) (target : ℕ × LoraProjectionKind) {slot : ℕ}
    {p : PackedLoraProjection B F}
    (hp : p.maxLoras = r.maxLoras ∧ p.maxRank = r.maxLoraRank ∧ p.slotRanks.length = r.maxLoras)
    (hcontents : ∀ slot', slot' ≠ slot → p.contents slot' = r.contents target.1 target.2 slot') :
    InSlot slot r (r.setPacked target.1 target.2 p) where
  numHiddenLayers := rfl
  maxLoras := rfl
  maxLoraRank := rfl
  loraAdapters := rfl
  slotsByName := rfl
  slotNames := rfl
  fitting layerIdx kind q hq := by
    by_cases heq : (layerIdx, kind) = target
    · subst heq
      rw [packedLayers_setPacked_self] at hq
      cases hq
      exact hp
    · exact hr layerIdx kind q ((packedLayers_setPacked_of_ne r p heq).symm.trans hq)
  contents layerIdx kind slot' hne := by
    by_cases heq : (layerIdx, kind) = target
    · subst heq
      rw [contents_of_packed (packedLayers_setPacked_self ..)]
      exact hcontents slot' hne
    · exact contents_setPacked_of_ne r p slot' heq

/-- the slot holds what it held, but for one target -/
def Rewritten (slot : ℕ) (target : ℕ × LoraProjectionKind) (c : Contents B F) (r r' : LoraModel B F) : Prop :=
  ∀ t : ℕ × LoraProjectionKind, r'.contents t.1 t.2 slot = if t = target then c else r.contents t.1 t.2 slot

variable {slot : ℕ} {r₁ : LoraModel B F} {target : ℕ × LoraProjectionKind}

/-- an operation on a projection's buffers, as an operation on the rank -/
theorem onPacked_ends {p : PackedLoraProjection B F} {m : Faulty (PackedLoraProjection B F) Unit} {c : Contents B F}
    (hr : r₁.Fitting) (hp : r₁.packedLayers target.1 target.2 = some p)
    (hm : Faulty.Ends (PackedLoraProjection.Beside slot p) m
      (fun _ p' => PackedLoraProjection.Beside slot p p' ∧ p'.contents slot = c) (PackedLoraProjection.Beside slot p)) :
    Faulty.Ends (fun r => r = r₁) (onPacked target.1 target.2 p m)
      (fun _ r => InSlot slot r₁ r ∧ Rewritten slot target c r₁ r) (InSlot slot r₁) := by
  have hset {p' : PackedLoraProjection B F} (h : PackedLoraProjection.Beside slot p p') :
      InSlot slot r₁ (r₁.setPacked target.1 target.2 p') := by
    obtain ⟨hloras, hrank, hranks⟩ := hr _ _ _ hp
    refine setPacked_inSlot hr target ?_ fun slot' hne => ?_
    · exact ⟨h.maxLoras.trans hloras, h.maxRank.trans hrank, h.slotRanks.trans hranks⟩
    · rw [h.contents slot' hne, contents_of_packed hp]
  rintro r fs rfl
  have hrun := hm p fs (PackedLoraProjection.Beside.refl p)
  unfold onPacked
  cases hcase : m p fs with
  | mk result rest =>
    obtain ⟨p', fs'⟩ := rest
    rw [hcase] at hrun
    cases result with
    | error e => exact hset hrun
    | ok _ =>
      refine ⟨hset hrun.1, fun t => ?_⟩
      by_cases heq : t = target
      · rw [if_pos heq, heq, contents_of_packed (packedLayers_setPacked_self ..)]
        exact hrun.2
      · rw [if_neg heq]
        exact contents_setPacked_of_ne r p' slot heq

theorem clearPackedLoraProjectionSlot_ends (target : ℕ × LoraProjectionKind) (hr : r₁.Fitting) (hslot : slot < r₁.maxLoras) :
    Faulty.Ends (fun r => r = r₁) (clearPackedLoraProjectionSlot slot target)
      (fun _ r => InSlot slot r₁ r ∧ Rewritten slot target .zero r₁ r) (InSlot slot r₁) := by
  have hread : Faulty.Ends (fun r => r = r₁) Faulty.get (fun a r => a = r₁ ∧ r = r₁) (InSlot slot r₁) :=
    Faulty.Ends.get fun r hr => ⟨hr, hr⟩
  refine hread.bind fun a => Faulty.Ends.given fun ha => ?_
  subst ha
  cases hp : a.packedLayers target.1 target.2 with
  | some p =>
    obtain ⟨hloras, _, hranks⟩ := hr _ _ _ hp
    exact onPacked_ends hr hp
      (PackedLoraProjection.clearSlot_ends slot (by rwa [hloras]) (by rw [hranks, hloras]))
  | none =>
    apply Faulty.Ends.pure
    rintro r rfl
    refine ⟨InSlot.refl hr, fun t => ?_⟩
    by_cases heq : t = target
    · subst heq
      rw [if_pos rfl]
      unfold contents
      rw [hp]
    · rw [if_neg heq]

/-- the slot holds nothing of the targets that are done -/
def Emptied (slot : ℕ) (r₁ : LoraModel B F) (done : List (ℕ × LoraProjectionKind)) (r : LoraModel B F) : Prop :=
  InSlot slot r₁ r ∧ ∀ t ∈ done, r.contents t.1 t.2 slot = .zero

theorem clearEach_ends (hslot : slot < r₁.maxLoras) (targets : List (ℕ × LoraProjectionKind)) :
    Faulty.Ends (Emptied slot r₁ []) (Faulty.each (clearPackedLoraProjectionSlot slot) targets)
      (fun _ => Emptied slot r₁ targets) (InSlot slot r₁) := by
  apply Faulty.Ends.each
  intro done target rest _
  refine Faulty.Ends.of_each fun r₂ hr₂ => ?_
  have hone := clearPackedLoraProjectionSlot_ends target hr₂.1.fitting (by rwa [hr₂.1.maxLoras])
  refine hone.weaken (fun _ h => h) (fun _ r h => ?_) fun _ h => hr₂.1.trans h
  refine ⟨hr₂.1.trans h.1, fun t ht => ?_⟩
  rw [h.2 t]
  by_cases heq : t = target
  · rw [if_pos heq]
  · rw [if_neg heq]
    rcases List.mem_append.1 ht with hdone | hlast
    · exact hr₂.2 t hdone
    · exact absurd (List.mem_singleton.1 hlast) heq

/-- a cleared slot holds nothing in any layer -/
theorem clearPackedLoraSlot_ends (hr : r₁.Fitting) (hslot : slot < r₁.maxLoras) :
    Faulty.Ends (fun r => r = r₁) (clearPackedLoraSlot slot)
      (fun _ => Emptied slot r₁ (layerProjections r₁.numHiddenLayers)) (InSlot slot r₁) := by
  have hread : Faulty.Ends (fun r => r = r₁) Faulty.get (fun a r => a = r₁ ∧ r = r₁) (InSlot slot r₁) :=
    Faulty.Ends.get fun r hr => ⟨hr, hr⟩
  refine hread.bind fun a => Faulty.Ends.given fun ha => ?_
  subst ha
  refine (clearEach_ends hslot _).weaken (fun r hra => ?_) (fun _ _ h => h) fun _ h => h
  rw [hra]
  exact ⟨InSlot.refl hr, fun t ht => absurd ht List.not_mem_nil⟩

/-! ## Packing an adapter into a slot -/

/-- the buffers a projection is written to: those there are, or empty ones -/
theorem allocPacked_ends (hr : r₁.Fitting) (projection : DeviceLoraProjection B) :
    Faulty.Ends (fun r => r = r₁) (allocPacked target projection)
      (fun p r => InSlot slot r₁ r ∧ r.packedLayers target.1 target.2 = some p ∧
        ∀ t : ℕ × LoraProjectionKind, r.contents t.1 t.2 slot = r₁.contents t.1 t.2 slot) (InSlot slot r₁) := by
  have hread : Faulty.Ends (fun r => r = r₁) Faulty.get (fun a r => a = r₁ ∧ r = r₁) (InSlot slot r₁) :=
    Faulty.Ends.get fun r hr => ⟨hr, hr⟩
  refine hread.bind fun a => Faulty.Ends.given fun ha => ?_
  subst ha
  have hfault {message : String} : Faulty.Ends (fun r => r = a) (Faulty.operate message) (fun _ r => r = a)
      (InSlot slot a) := Faulty.Ends.operate (fun _ h => h) fun r h => by
      rw [h]
      exact InSlot.refl hr
  cases hp : a.packedLayers target.1 target.2 with
  | some p =>
    apply Faulty.Ends.pure
    rintro r rfl
    exact ⟨InSlot.refl hr, hp, fun _ => rfl⟩
  | none =>
    refine hfault.bind fun _ => hfault.bind fun _ => hfault.bind fun _ => ?_
    have hempty (t : ℕ × LoraProjectionKind) (slot' : ℕ) (ht : t = target) : a.contents t.1 t.2 slot' = .zero := by
      unfold contents
      rw [ht, hp]
    have hset : Faulty.Ends (fun r => r = a)
        (Faulty.modify fun r => r.setPacked target.1 target.2
          (.new a.maxLoras a.maxLoraRank projection.a.cols projection.b.rows))
        (fun _ r => r = a.setPacked target.1 target.2
          (.new a.maxLoras a.maxLoraRank projection.a.cols projection.b.rows)) (InSlot slot a) :=
      Faulty.Ends.modify fun r h => by rw [h]
    refine hset.bind fun _ => Faulty.Ends.pure ?_
    rintro r rfl
    refine ⟨?_, packedLayers_setPacked_self .., fun t => ?_⟩
    · refine setPacked_inSlot hr target ⟨rfl, rfl, List.length_replicate⟩ fun slot' _ => ?_
      rw [new_contents, hempty target slot' rfl]
    · by_cases heq : t = target
      · rw [hempty t slot heq, heq, contents_of_packed (packedLayers_setPacked_self ..), new_contents]
      · exact contents_setPacked_of_ne a _ slot heq

/-- one projection of the adapter, if it has it -/
theorem packTarget_ends (slot : ℕ) (target : ℕ × LoraProjectionKind) (hr : r₁.Fitting)
    (adapter : DeviceLoraAdapter B F)
    (hempty : (adapter.projection target.1 target.2) = none →
      r₁.contents target.1 target.2 slot = .zero) :
    Faulty.Ends (fun r => r = r₁) (packTarget slot adapter target)
      (fun _ r => InSlot slot r₁ r ∧
        Rewritten slot target (adapter.packed r₁.maxLoraRank target.1 target.2) r₁ r) (InSlot slot r₁) := by
  unfold packTarget DeviceLoraAdapter.packed
  cases hprojection : adapter.projection target.1 target.2 with
  | none =>
    apply Faulty.Ends.pure
    rintro r rfl
    refine ⟨InSlot.refl hr, fun t => ?_⟩
    by_cases heq : t = target
    · rw [if_pos heq, heq]
      exact hempty hprojection
    · rw [if_neg heq]
  | some projection =>
    refine (allocPacked_ends hr projection).bind fun p => Faulty.Ends.of_each fun r₂ ⟨hin, hp, hsame⟩ => ?_
    obtain ⟨hloras, hrank, hranks⟩ := hin.fitting _ _ _ hp
    have hwrite := onPacked_ends hin.fitting hp
      (PackedLoraProjection.writeSlot_ends slot (by rw [hranks, hloras]) projection adapter.scale)
    refine hwrite.weaken (fun _ h => h) (fun _ r h => ?_) fun _ h => hin.trans h
    refine ⟨hin.trans h.1, fun t => ?_⟩
    rw [h.2 t, hsame t, hrank, hin.maxLoraRank]

/-- the slot holds the adapter's part of the targets that are done, and nothing of the others -/
def Filled (slot : ℕ) (r₁ : LoraModel B F) (adapter : DeviceLoraAdapter B F)
    (targets done : List (ℕ × LoraProjectionKind)) (r : LoraModel B F) : Prop :=
  InSlot slot r₁ r ∧ ∀ t ∈ targets, r.contents t.1 t.2 slot =
    if t ∈ done then adapter.packed r₁.maxLoraRank t.1 t.2 else .zero

/-- **Update.** A slot that is updated holds the adapter in every layer; a failed update changes no other slot. -/
theorem updatePackedLoraSlot_ends (hr : r₁.Fitting) (hslot : slot < r₁.maxLoras) (adapter : DeviceLoraAdapter B F) :
    Faulty.Ends (fun r => r = r₁) (updatePackedLoraSlot slot adapter)
      (fun _ r => InSlot slot r₁ r ∧ ∀ t ∈ layerProjections r₁.numHiddenLayers,
        r.contents t.1 t.2 slot = adapter.packed r₁.maxLoraRank t.1 t.2) (InSlot slot r₁) := by
  refine (clearPackedLoraSlot_ends hr hslot).bind fun _ => ?_
  have hread : Faulty.Ends (Emptied slot r₁ (layerProjections r₁.numHiddenLayers)) Faulty.get
      (fun a r => a = r ∧ Emptied slot r₁ (layerProjections r₁.numHiddenLayers) r) (InSlot slot r₁) :=
    Faulty.Ends.get fun r hr => ⟨rfl, hr⟩
  refine hread.bind fun a => Faulty.Ends.of_each fun r₂ ⟨ha, hemptied⟩ => ?_
  rw [ha, hemptied.1.numHiddenLayers]
  have hloop : Faulty.Ends (Filled slot r₁ adapter (layerProjections r₁.numHiddenLayers) [])
      (Faulty.each (packTarget slot adapter) (layerProjections r₁.numHiddenLayers))
      (fun _ => Filled slot r₁ adapter (layerProjections r₁.numHiddenLayers) (layerProjections r₁.numHiddenLayers))
      (InSlot slot r₁) := by
    apply Faulty.Ends.each
    intro done target rest heq
    refine Faulty.Ends.of_each fun r₃ ⟨hin, hfilled⟩ => ?_
    have hmem : target ∈ layerProjections r₁.numHiddenLayers := by
      rw [heq]
      exact List.mem_append_right done List.mem_cons_self
    have hone := packTarget_ends slot target hin.fitting adapter fun hnone => by
      rw [hfilled target hmem]
      unfold DeviceLoraAdapter.packed
      rw [hnone]
      exact ite_self _
    refine hone.weaken (fun _ h => h) (fun _ r h => ?_) fun _ h => hin.trans h
    refine ⟨hin.trans h.1, fun t ht => ?_⟩
    rw [h.2 t, hfilled t ht, hin.maxLoraRank]
    by_cases heq : t = target
    · rw [if_pos heq, if_pos (by rw [heq]; exact List.mem_append_right done List.mem_cons_self), heq]
    · have hiff : t ∈ done ++ [target] ↔ t ∈ done := by
        rw [List.mem_append, List.mem_singleton]
        exact ⟨fun h => h.resolve_right heq, Or.inl⟩
      rw [if_neg heq]
      exact if_congr hiff.symm rfl rfl
  refine hloop.weaken (fun r hra => ?_) (fun _ r h => ⟨h.1, fun t ht => ?_⟩) fun _ h => h
  · rw [hra]
    exact ⟨hemptied.1, fun t ht => by rw [hemptied.2 t ht, if_neg List.not_mem_nil]⟩
  · rw [h.2 t ht, if_pos ht]

/-! ## The device failures of a clear -/

end LoraModel

/-- the first failure, counted from behind operations that do not fail -/
theorem findIdx_drop {fs : Faults} {n : ℕ} (hlen : n ≤ fs.length) (hquiet : true ∉ fs.take n) :
    fs.findIdx id = (fs.drop n).findIdx id + n := by
  have hfirst : (fs.take n).findIdx id = (fs.take n).length := by
    apply List.findIdx_eq_length_of_false
    rintro (_ | _) hx
    · rfl
    · exact absurd hx hquiet
  conv_lhs => rw [← List.take_append_drop n fs]
  rw [List.findIdx_append, hfirst, if_neg (lt_irrefl _), List.length_take, Nat.min_eq_left hlen]

/-- what the three operations of a clear each find empty already -/
def Contents.parts (c : Contents B F) : List Prop := [c.a = fun _ => 0, c.b = fun _ => 0, c.scale = 0 ∧ c.rank = 0]

theorem PackedLoraProjection.clearSlot_faults (p : PackedLoraProjection B F) (slot : ℕ) (fs : Faults)
    (h : slot < p.maxLoras) :
    (true ∉ fs.take 3 → clearSlot slot p fs = (.ok (), p.cleared slot, fs.drop 3)) ∧
      (true ∈ fs.take 3 → ∃ e p' fs', clearSlot slot p fs = (.error e, p', fs') ∧
        ((∀ part ∈ (p.contents slot).parts.take (fs.findIdx id), part) → p'.contents slot = p.contents slot)) := by
  rw [clearSlot_eq p slot fs h]
  have hA : (p.contents slot).a = (fun _ => 0) → (p.zeroA slot).contents slot = p.contents slot := fun ha =>
    Contents.ext ((zeroA_contents_a p slot).trans ha.symm) rfl rfl rfl
  have hB : (p.contents slot).b = (fun _ => 0) →
      ((p.zeroA slot).zeroB slot).contents slot = (p.zeroA slot).contents slot := fun hb =>
    Contents.ext rfl ((zeroB_contents_b (p.zeroA slot) slot).trans hb.symm) rfl rfl
  match fs with
  | [] => exact ⟨fun _ => rfl, fun h => absurd h List.not_mem_nil⟩
  | true :: fs => exact ⟨fun h => absurd List.mem_cons_self h, fun _ => ⟨_, p, fs, rfl, fun _ => rfl⟩⟩
  | [false] => exact ⟨fun _ => rfl, fun h => by simp at h⟩
  | false :: true :: fs =>
    refine ⟨fun h => absurd (by simp) h, fun _ => ⟨_, p.zeroA slot, fs, rfl, fun hparts => ?_⟩⟩
    exact hA (hparts _ List.mem_cons_self)
  | [false, false] => exact ⟨fun _ => rfl, fun h => by simp at h⟩
  | false :: false :: true :: fs =>
    refine ⟨fun h => absurd (by simp) h, fun _ => ⟨_, (p.zeroA slot).zeroB slot, fs, rfl, fun hparts => ?_⟩⟩
    have hfirst := hA (hparts _ List.mem_cons_self)
    exact (hB (hparts _ (List.mem_cons_of_mem _ List.mem_cons_self))).trans hfirst
  | false :: false :: false :: fs => exact ⟨fun _ => rfl, fun h => by simp at h⟩

namespace LoraModel

/-- of a projection that has buffers -/
def slotParts (r : LoraModel B F) (slot : ℕ) (target : ℕ × LoraProjectionKind) : List Prop :=
  if (r.packedLayers target.1 target.2).isSome then (r.contents target.1 target.2 slot).parts else []

/-- the operations of a slot's clear, in order: what each finds empty already -/
def clearParts (r : LoraModel B F) (slot : ℕ) : List Prop :=
  (layerProjections r.numHiddenLayers).flatMap (r.slotParts slot)

theorem length_slotParts (r : LoraModel B F) (slot : ℕ) (target : ℕ × LoraProjectionKind) :
    (r.slotParts slot target).length = if (r.packedLayers target.1 target.2).isSome then 3 else 0 := by
  unfold slotParts
  cases (r.packedLayers target.1 target.2).isSome with
  | true => rfl
  | false => rfl

/-- a clear that fails leaves the slot as it was, if what it had done by then found only empty parts -/
theorem clearEach_faults (slot : ℕ) (targets : List (ℕ × LoraProjectionKind)) : ∀ (r : LoraModel B F) (fs : Faults),
    r.Fitting → slot < r.maxLoras →
    (true ∉ fs.take (targets.flatMap (r.slotParts slot)).length →
      ∃ r' fs', Faulty.each (clearPackedLoraProjectionSlot slot) targets r fs = (.ok (), r', fs')) ∧
    (true ∈ fs.take (targets.flatMap (r.slotParts slot)).length →
      ∃ e r' fs', Faulty.each (clearPackedLoraProjectionSlot slot) targets r fs = (.error e, r', fs') ∧
        ((∀ part ∈ (targets.flatMap (r.slotParts slot)).take (fs.findIdx id), part) →
          ∀ t : ℕ × LoraProjectionKind, r'.contents t.1 t.2 slot = r.contents t.1 t.2 slot)) := by
  induction targets with
  | nil => exact fun r fs _ _ => ⟨fun _ => ⟨r, fs, rfl⟩, fun h => absurd h (by simp)⟩
  | cons target targets ih =>
    intro r fs hr hslot
    change (_ → ∃ r' fs', Faulty.bind (clearPackedLoraProjectionSlot slot target) _ r fs = _) ∧
      (_ → ∃ e r' fs', Faulty.bind (clearPackedLoraProjectionSlot slot target) _ r fs = _ ∧ _)
    cases hp : r.packedLayers target.1 target.2 with
    | none =>
      -- a projection without buffers takes no operation
      have hone : clearPackedLoraProjectionSlot slot target r fs = (.ok (), r, fs) := by
        rw [clearPackedLoraProjectionSlot, Faulty.get_bind, hp]
        rfl
      have hparts : r.slotParts slot target = [] := by
        unfold slotParts
        rw [hp]
        rfl
      rw [List.flatMap_cons, hparts, List.nil_append]
      unfold Faulty.bind
      rw [hone]
      exact ih r fs hr hslot
    | some p =>
      obtain ⟨hloras, -, hranks⟩ := hr _ _ _ hp
      have hone : clearPackedLoraProjectionSlot slot target r fs =
          onPacked target.1 target.2 p (PackedLoraProjection.clearSlot slot) r fs := by
        rw [clearPackedLoraProjectionSlot, Faulty.get_bind, hp]
      have hparts : r.slotParts slot target = (p.contents slot).parts := by
        unfold slotParts
        rw [hp, contents_of_packed hp]
        rfl
      obtain ⟨hquiet, hfault⟩ := p.clearSlot_faults slot fs (by rwa [hloras])
      rw [List.flatMap_cons, hparts]
      by_cases hhere : true ∈ fs.take 3
      · -- the target itself fails
        obtain ⟨e, p', fs', hrun, hsame⟩ := hfault hhere
        have hend : clearPackedLoraProjectionSlot slot target r fs =
            (.error e, r.setPacked target.1 target.2 p', fs') := by
          rw [hone]
          unfold onPacked
          rw [hrun]
        have hthree : 3 ≤ ((p.contents slot).parts ++ targets.flatMap (r.slotParts slot)).length := by
          rw [List.length_append]
          exact Nat.le_add_right 3 _
        unfold Faulty.bind
        rw [hend]
        refine ⟨fun hno => absurd (List.take_subset_take_left fs hthree hhere) hno, fun _ => ?_⟩
        refine ⟨e, _, fs', rfl, fun hempty t => ?_⟩
        by_cases heq : t = target
        · rw [heq, contents_of_packed (packedLayers_setPacked_self ..), contents_of_packed hp]
          apply hsame
          intro part hpart
          apply hempty
          rw [List.take_append]
          exact List.mem_append_left _ hpart
        · exact contents_setPacked_of_ne r p' slot heq
      · -- the target is cleared, and the rest goes on from there
        have hend : clearPackedLoraProjectionSlot slot target r fs =
            (.ok (), r.setPacked target.1 target.2 (p.cleared slot), fs.drop 3) := by
          rw [hone]
          unfold onPacked
          rw [hquiet hhere]
        have hbeside := p.cleared_beside slot
        have hin : InSlot slot r (r.setPacked target.1 target.2 (p.cleared slot)) := by
          obtain ⟨hloras, hrank, hranks⟩ := hr _ _ _ hp
          refine setPacked_inSlot hr target ?_ fun slot' hne => ?_
          · exact ⟨hloras, hrank, hbeside.slotRanks.trans hranks⟩
          · rw [hbeside.contents slot' hne, contents_of_packed hp]
        obtain ⟨hok, herr⟩ := ih (r.setPacked target.1 target.2 (p.cleared slot)) (fs.drop 3) hin.fitting hslot
        have hlength : (targets.flatMap ((r.setPacked target.1 target.2 (p.cleared slot)).slotParts slot)).length =
            (targets.flatMap (r.slotParts slot)).length := by
          rw [List.length_flatMap, List.length_flatMap]
          congr 1
          refine List.map_congr_left fun t _ => ?_
          rw [length_slotParts, length_slotParts, isSome_setPacked _ hp]
        have hcount : ((p.contents slot).parts ++ targets.flatMap (r.slotParts slot)).length =
            3 + (targets.flatMap (r.slotParts slot)).length := List.length_append
        rw [hlength] at hok herr
        unfold Faulty.bind
        rw [hend, hcount, List.take_add, List.mem_append, or_iff_right hhere]
        refine ⟨hok, fun hlater => ?_⟩
        obtain ⟨e, r', fs', hrun, hsame⟩ := herr hlater
        refine ⟨e, r', fs', hrun, fun hempty => ?_⟩
        have hlen : 3 ≤ fs.length := by
          by_contra hshort
          rw [List.drop_eq_nil_of_le (by omega), List.take_nil] at hlater
          exact absurd hlater List.not_mem_nil
        rw [findIdx_drop hlen hhere, List.take_append, Nat.add_comm] at hempty
        -- the target was empty already, so that its clear changed nothing
        have hzero : p.contents slot = .zero := by
          have hpart (part : Prop) (h : part ∈ (p.contents slot).parts) : part := by
            apply hempty
            rw [List.take_of_length_le (Nat.le_add_right 3 _)]
            exact List.mem_append_left _ h
          have hscale := hpart _ (List.mem_cons_of_mem _ (List.mem_cons_of_mem _ List.mem_cons_self))
          exact Contents.ext (hpart _ List.mem_cons_self) (hpart _ (List.mem_cons_of_mem _ List.mem_cons_self))
            hscale.1 hscale.2
        have hunchanged (t : ℕ × LoraProjectionKind) :
            (r.setPacked target.1 target.2 (p.cleared slot)).contents t.1 t.2 slot = r.contents t.1 t.2 slot := by
          by_cases heq : t = target
          · rw [heq, contents_of_packed (packedLayers_setPacked_self ..), contents_of_packed hp, hzero]
            exact p.cleared_contents slot (by rwa [hranks])
          · exact contents_setPacked_of_ne r _ slot heq
        have hslotParts : (r.setPacked target.1 target.2 (p.cleared slot)).slotParts slot = r.slotParts slot := by
          funext t
          unfold slotParts
          rw [isSome_setPacked _ hp, hunchanged]
        refine fun t => (hsame (fun part hpart => ?_) t).trans (hunchanged t)
        apply hempty
        rw [hslotParts] at hpart
        apply List.mem_append_right
        rwa [show (p.contents slot).parts.length = 3 from rfl, Nat.add_sub_cancel_left]

end LoraModel

end Pegainfer.Qwen3
