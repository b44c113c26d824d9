/-
Every run of adapter loads and unloads keeps the ranks' registries in agreement, unless an unload fails part-way.

- `LoraModel.Agrees`: a rank's slot maps are inverse to each other, its adapters are the bound names, and a bound slot
  holds its adapter and nothing else.
- `installLoraAdapter_ends`, `discardLoraAdapter_agrees`, `uninstallLoraAdapter_agrees`: what one rank's command does.
- `LoraRanks.Agrees`: a name is loaded exactly when all ranks have it, and when any has it.
- `LoraRanks.Whole`: an unload that is cleared on all ranks, or fails on all of them before anything is lost.
- `lora_registries_agree`: runs of whole calls; `unload_splits_ranks`, `unload_leaves_half_a_slot`: what the others do.
-/
import Mathlib.Tactic
import Pegainfer.Lib.Machine
import Pegainfer.Lib.Faulty
import Pegainfer.Qwen3.LoraRegistry
import Pegainfer.Qwen3.LoraAgreement

set_option linter.unusedSectionVars false

namespace Pegainfer.Qwen3

open Pegainfer.Lib

variable {B F : Type} [Zero B] [Zero F]

namespace LoraModel

/-! ## One rank -/

/-- the slot maps and the adapters name the same adapters -/
structure Registered (r : LoraModel B F) : Prop where
  fitting : r.Fitting
  slots : r.slotNames.length = r.maxLoras
  inverse : ∀ name slot, r.slotsByName name = some slot ↔ r.slotNames[slot]? = some (some name)
  keys : ∀ name, (r.loraAdapters name).isSome = (r.slotsByName name).isSome
  named : ∀ name adapter, r.loraAdapters name = some adapter → adapter.name = name

/-- a slot that is bound holds its adapter's projections and scale, and nothing where the adapter has none -/
def HoldsAdapter (r : LoraModel B F) (slot : ℕ) : Prop :=
  ∀ name adapter, r.slotsByName name = some slot → r.loraAdapters name = some adapter →
    ∀ layerIdx < r.numHiddenLayers, ∀ kind, r.contents layerIdx kind slot = adapter.packed r.maxLoraRank layerIdx kind

/-- **Agreement** of a rank's records. -/
structure Agrees (r : LoraModel B F) : Prop extends Registered r where
  packed : ∀ slot, r.HoldsAdapter slot

def installed (r : LoraModel B F) (name : String) : Prop := (r.slotsByName name).isSome

theorem mem_layerProjections {numHiddenLayers layerIdx : ℕ} (h : layerIdx < numHiddenLayers)
    (kind : LoraProjectionKind) : (layerIdx, kind) ∈ layerProjections numHiddenLayers := by
  refine List.mem_flatMap.2 ⟨layerIdx, List.mem_range.2 h, ?_⟩
  exact List.mem_map.2 ⟨kind, LoraProjectionKind.mem_all kind, rfl⟩

theorem new_agrees (numHiddenLayers maxLoras maxLoraRank : ℕ) :
    (new numHiddenLayers maxLoras maxLoraRank : LoraModel B F).Agrees where
  fitting _ _ _ h := by cases h
  slots := List.length_replicate
  inverse name slot := by
    refine ⟨fun h => (by cases h), fun h => ?_⟩
    cases List.eq_of_mem_replicate (List.mem_of_getElem? h)
  keys _ := rfl
  named _ _ h := by cases h
  packed _ _ _ h := by cases h

variable {r r' : LoraModel B F} {slot : ℕ} {name : String}

theorem Registered.unique (h : r.Registered) {name' : String} (hslot : r.slotsByName name = some slot)
    (hslot' : r.slotsByName name' = some slot) : name = name' := by
  have heq := ((h.inverse name slot).1 hslot).symm.trans ((h.inverse name' slot).1 hslot')
  exact Option.some.inj (Option.some.inj heq)

theorem Registered.slot_lt (h : r.Registered) (hslot : r.slotsByName name = some slot) : slot < r.maxLoras := by
  rw [← h.slots]
  exact (List.getElem?_eq_some_iff.1 ((h.inverse name slot).1 hslot)).1

theorem Registered.inSlot (h : r.Registered) (hin : InSlot slot r r') : r'.Registered where
  fitting := hin.fitting
  slots := by rw [hin.slotNames, hin.maxLoras, h.slots]
  inverse := by
    rw [hin.slotsByName, hin.slotNames]
    exact h.inverse
  keys := by
    rw [hin.slotsByName, hin.loraAdapters]
    exact h.keys
  named := by
    rw [hin.loraAdapters]
    exact h.named

theorem HoldsAdapter.inSlot {slot' : ℕ} (h : r.HoldsAdapter slot') (hin : InSlot slot r r') (hne : slot' ≠ slot) :
    r'.HoldsAdapter slot' := by
  intro name adapter hslot hadapter layerIdx hlayer kind
  rw [hin.slotsByName] at hslot
  rw [hin.loraAdapters] at hadapter
  rw [hin.numHiddenLayers] at hlayer
  rw [hin.contents layerIdx kind slot' hne, hin.maxLoraRank]
  exact h name adapter hslot hadapter layerIdx hlayer kind

/-- a slot that no name is bound to may hold anything -/
theorem Agrees.of_free (h : r.Agrees) (hin : InSlot slot r r') (hfree : r.slotNames[slot]? = some none) :
    r'.Agrees where
  toRegistered := h.toRegistered.inSlot hin
  packed slot' := by
    by_cases heq : slot' = slot
    · intro name adapter hslot
      rw [hin.slotsByName, h.inverse, heq, hfree] at hslot
      cases hslot
    · exact (h.packed slot').inSlot hin heq

/-- the name and its slot go together -/
def forget (r : LoraModel B F) (name : String) (slot : ℕ) : LoraModel B F :=
  (r.releaseSlot name slot).removeAdapter name

theorem slotsByName_forget (r : LoraModel B F) (name name' : String) (slot : ℕ) :
    (r.forget name slot).slotsByName name' = if name' = name then none else r.slotsByName name' :=
  Function.update_apply ..

theorem loraAdapters_forget (r : LoraModel B F) (name name' : String) (slot : ℕ) :
    (r.forget name slot).loraAdapters name' = if name' = name then none else r.loraAdapters name' :=
  Function.update_apply ..

theorem forget_agrees (h : r.Registered) (hslot : r.slotsByName name = some slot)
    (hpacked : ∀ slot', slot' ≠ slot → r.HoldsAdapter slot') : (r.forget name slot).Agrees where
  fitting := h.fitting
  slots := (List.length_set).trans h.slots
  inverse name' slot' := by
    rw [slotsByName_forget]
    change _ ↔ (r.slotNames.set slot none)[slot']? = some (some name')
    by_cases heq : slot' = slot
    · rw [heq, List.getElem?_set_self (by rw [h.slots]; exact h.slot_lt hslot)]
      refine ⟨fun hbound => ?_, fun hnone => by cases hnone⟩
      by_cases hname : name' = name
      · rw [if_pos hname] at hbound
        cases hbound
      · rw [if_neg hname] at hbound
        exact absurd (h.unique hbound hslot) hname
    · rw [List.getElem?_set_ne (Ne.symm heq), ← h.inverse]
      by_cases hname : name' = name
      · rw [if_pos hname, hname, hslot]
        exact ⟨fun hnone => (by cases hnone), fun hother => absurd (Option.some.inj hother).symm heq⟩
      · rw [if_neg hname]
  keys name' := by
    rw [slotsByName_forget, loraAdapters_forget]
    by_cases hname : name' = name
    · rw [if_pos hname, if_pos hname]
      rfl
    · rw [if_neg hname, if_neg hname]
      exact h.keys name'
  named name' adapter hadapter := by
    rw [loraAdapters_forget] at hadapter
    by_cases hname : name' = name
    · rw [if_pos hname] at hadapter
      cases hadapter
    · rw [if_neg hname] at hadapter
      exact h.named name' adapter hadapter
  packed slot' name' adapter hslot' hadapter := by
    rw [slotsByName_forget] at hslot'
    rw [loraAdapters_forget] at hadapter
    by_cases hname : name' = name
    · rw [if_pos hname] at hslot'
      cases hslot'
    · rw [if_neg hname] at hslot' hadapter
      have hne : slot' ≠ slot := fun heq => hname (h.unique (heq ▸ hslot') hslot)
      exact hpacked slot' hne name' adapter hslot' hadapter

/-! ## Installing -/

/-- a slot for a name: the one it has, or a free one if it has none -/
def SlotOf (r : LoraModel B F) (name : String) (slot : ℕ) : Prop :=
  (r.slotsByName name = none ∧ r.slotNames[slot]? = some none) ∨ r.slotsByName name = some slot

theorem slotForInstall_ok {loadInplace : Bool} (h : r.slotForInstall name loadInplace = .ok slot) :
    (r.slotsByName name = none ∧ r.slotNames[slot]? = some none) ∨
      (loadInplace = true ∧ r.slotsByName name = some slot) := by
  unfold slotForInstall slotFor at h
  cases hbound : r.slotsByName name with
  | some slot' =>
    rw [hbound] at h
    cases loadInplace with
    | true =>
      cases h
      exact Or.inr ⟨rfl, rfl⟩
    | false => cases h
  | none =>
    rw [hbound] at h
    cases hfind : r.slotNames.findIdx? Option.isNone with
    | none =>
      rw [hfind] at h
      cases h
    | some slot' =>
      rw [hfind] at h
      cases h
      obtain ⟨hlt, hnone, -⟩ := List.findIdx?_eq_some_iff_getElem.1 hfind
      refine Or.inl ⟨rfl, ?_⟩
      rw [List.getElem?_eq_getElem hlt, Option.isNone_iff_eq_none.1 hnone]

theorem bindSlot_eq (h : r.Registered) (hslot : r.SlotOf name slot) :
    r.bindSlot slot name =
      { r with
        slotNames := r.slotNames.set slot (some name)
        slotsByName := Function.update r.slotsByName name (some slot) } := by
  unfold bindSlot
  rcases hslot with ⟨-, hfree⟩ | hbound
  · rw [hfree]
    rfl
  · rw [(h.inverse name slot).1 hbound]
    change ({ r with slotNames := _, slotsByName := Function.update (Function.update _ name none) name _ } : LoraModel B F) =
      _
    rw [Function.update_idem]
    rfl

/-- the adapter under its name, and the name in its slot -/
def enter (r : LoraModel B F) (adapter : DeviceLoraAdapter B F) (slot : ℕ) : LoraModel B F :=
  (r.insertAdapter adapter).bindSlot slot adapter.name

theorem enter_eq {adapter : DeviceLoraAdapter B F} (h : r.Registered) (hslot : r.SlotOf adapter.name slot) :
    r.enter adapter slot =
      { r with
        loraAdapters := Function.update r.loraAdapters adapter.name (some adapter)
        slotNames := r.slotNames.set slot (some adapter.name)
        slotsByName := Function.update r.slotsByName adapter.name (some slot) } := by
  have hbind := bindSlot_eq h hslot
  unfold enter insertAdapter bindSlot at *
  cases hname : r.slotNames[slot]?.join with
  | none => rfl
  | some previous =>
    rw [hname] at hbind
    change ({ r with
      loraAdapters := Function.update r.loraAdapters adapter.name (some adapter)
      slotNames := _
      slotsByName := Function.update (Function.update r.slotsByName previous none) adapter.name (some slot) } :
        LoraModel B F) = _
    have hmaps : Function.update (Function.update r.slotsByName previous none) adapter.name (some slot) =
        Function.update r.slotsByName adapter.name (some slot) := congrArg LoraModel.slotsByName hbind
    rw [hmaps]
    rfl

theorem SlotOf.other (h : r.Registered) (hslot : r.SlotOf name slot) {name' : String} (hne : name' ≠ name) :
    r.slotsByName name' ≠ some slot := by
  intro hother
  rcases hslot with ⟨-, hfree⟩ | hbound
  · rw [h.inverse, hfree] at hother
    cases hother
  · exact hne (h.unique hother hbound)

theorem SlotOf.slot_lt (h : r.Registered) (hslot : r.SlotOf name slot) : slot < r.maxLoras := by
  rcases hslot with ⟨-, hfree⟩ | hbound
  · rw [← h.slots]
    exact (List.getElem?_eq_some_iff.1 hfree).1
  · exact h.slot_lt hbound

theorem enter_agrees {adapter : DeviceLoraAdapter B F} (h : r.Registered) (hslot : r.SlotOf adapter.name slot)
    (hpacked : ∀ slot', slot' ≠ slot → r.HoldsAdapter slot')
    (hown : ∀ layerIdx < r.numHiddenLayers, ∀ kind,
      r.contents layerIdx kind slot = adapter.packed r.maxLoraRank layerIdx kind) :
    (r.enter adapter slot).Agrees := by
  rw [enter_eq h hslot]
  have hlt : slot < r.slotNames.length := by
    rw [h.slots]
    exact hslot.slot_lt h
  refine ⟨⟨h.fitting, List.length_set.trans h.slots, ?inverse, ?keys, ?named⟩, ?packed⟩
  case inverse =>
    intro name' slot'
    change Function.update r.slotsByName adapter.name (some slot) name' = some slot' ↔
      (r.slotNames.set slot (some adapter.name))[slot']? = some (some name')
    rw [Function.update_apply]
    by_cases hname : name' = adapter.name
    · rw [if_pos hname, hname]
      by_cases heq : slot' = slot
      · rw [heq, List.getElem?_set_self hlt]
        exact ⟨fun _ => rfl, fun _ => rfl⟩
      · rw [List.getElem?_set_ne (Ne.symm heq), ← h.inverse]
        refine ⟨fun hsame => absurd (Option.some.inj hsame).symm heq, fun hbound => ?_⟩
        -- the name had no slot, or this one
        rcases hslot with ⟨hnone, -⟩ | hhad
        · rw [hnone] at hbound
          cases hbound
        · exact hhad.symm.trans hbound
    · rw [if_neg hname]
      by_cases heq : slot' = slot
      · rw [heq, List.getElem?_set_self hlt]
        refine ⟨fun hbound => absurd hbound (hslot.other h hname), fun hsame => ?_⟩
        exact absurd (Option.some.inj (Option.some.inj hsame)).symm hname
      · rw [List.getElem?_set_ne (Ne.symm heq)]
        exact h.inverse name' slot'
  case keys =>
    intro name'
    change (Function.update r.loraAdapters adapter.name (some adapter) name').isSome =
      (Function.update r.slotsByName adapter.name (some slot) name').isSome
    rw [Function.update_apply, Function.update_apply]
    by_cases hname : name' = adapter.name
    · rw [if_pos hname, if_pos hname]
      rfl
    · rw [if_neg hname, if_neg hname]
      exact h.keys name'
  case named =>
    intro name' adapter' hadapter
    change Function.update r.loraAdapters adapter.name (some adapter) name' = some adapter' at hadapter
    rw [Function.update_apply] at hadapter
    by_cases hname : name' = adapter.name
    · rw [if_pos hname] at hadapter
      cases hadapter
      exact hname.symm
    · rw [if_neg hname] at hadapter
      exact h.named name' adapter' hadapter
  case packed =>
    intro slot' name' adapter' hbound hadapter
    change Function.update r.slotsByName adapter.name (some slot) name' = some slot' at hbound
    change Function.update r.loraAdapters adapter.name (some adapter) name' = some adapter' at hadapter
    rw [Function.update_apply] at hbound hadapter
    by_cases hname : name' = adapter.name
    · rw [if_pos hname] at hbound hadapter
      cases hbound
      cases hadapter
      exact hown
    · rw [if_neg hname] at hbound hadapter
      have hne : slot' ≠ slot := fun heq => hslot.other h hname (heq ▸ hbound)
      exact hpacked slot' hne name' adapter' hbound hadapter

/-- the names a rank has, after one that comes or goes -/
structure Moved (names : String → Prop) (r r' : LoraModel B F) : Prop where
  agrees : r'.Agrees
  maxLoras : r'.maxLoras = r.maxLoras
  names : ∀ name, r'.installed name ↔ names name

theorem forget_moved (h : r.Registered) (hslot : r.slotsByName name = some slot)
    (hpacked : ∀ slot', slot' ≠ slot → r.HoldsAdapter slot') :
    Moved (fun name' => name' ≠ name ∧ r.installed name') r (r.forget name slot) where
  agrees := forget_agrees h hslot hpacked
  maxLoras := rfl
  names name' := by
    unfold installed
    rw [slotsByName_forget]
    by_cases hname : name' = name
    · rw [if_pos hname]
      exact ⟨fun hsome => (by cases hsome), fun hboth => absurd hname hboth.1⟩
    · rw [if_neg hname]
      exact ⟨fun hsome => ⟨hname, hsome⟩, fun hboth => hboth.2⟩

theorem enter_moved {adapter : DeviceLoraAdapter B F} (h : r.Registered) (hslot : r.SlotOf adapter.name slot)
    (hpacked : ∀ slot', slot' ≠ slot → r.HoldsAdapter slot')
    (hown : ∀ layerIdx < r.numHiddenLayers, ∀ kind,
      r.contents layerIdx kind slot = adapter.packed r.maxLoraRank layerIdx kind) :
    Moved (fun name' => name' = adapter.name ∨ r.installed name') r (r.enter adapter slot) where
  agrees := enter_agrees h hslot hpacked hown
  maxLoras := by rw [enter_eq h hslot]
  names name' := by
    unfold installed
    rw [enter_eq h hslot]
    change (Function.update r.slotsByName adapter.name (some slot) name').isSome ↔ _
    rw [Function.update_apply]
    by_cases hname : name' = adapter.name
    · rw [if_pos hname]
      exact ⟨fun _ => Or.inl hname, fun _ => rfl⟩
    · rw [if_neg hname]
      exact ⟨Or.inr, fun h => h.resolve_left hname⟩

/-- a rank in agreement, that may or may not have the name -/
structure Kept (name : String) (r r' : LoraModel B F) : Prop where
  agrees : r'.Agrees
  maxLoras : r'.maxLoras = r.maxLoras
  others : ∀ name', name' ≠ name → (r'.installed name' ↔ r.installed name')

theorem Kept.refl (h : r.Agrees) : Kept name r r := ⟨h, rfl, fun _ _ => Iff.rfl⟩

/-- a failed update leaves a slot that no name has -/
theorem dropFailedUpdate_kept (h : r.Agrees) (hslot : r.SlotOf name slot) (hin : InSlot slot r r') :
    Kept name r (dropFailedUpdate slot name r') := by
  have hpacked (slot' : ℕ) (hne : slot' ≠ slot) : r'.HoldsAdapter slot' := (h.packed slot').inSlot hin hne
  have hothers (name' : String) : r'.installed name' ↔ r.installed name' := by
    unfold installed
    rw [hin.slotsByName]
  rcases hslot with ⟨hnone, hfree⟩ | hbound
  · -- the name had no adapter to remove
    have hgone : r'.slotsByName name = none := by rw [hin.slotsByName, hnone]
    have hadapter : r'.loraAdapters name = none := by
      rw [← Option.isNone_iff_eq_none, ← Option.not_isSome, hin.loraAdapters, h.keys, hnone]
      rfl
    have hsame : r'.removeAdapter name = r' := by
      unfold removeAdapter
      rw [← hadapter, Function.update_eq_self]
    have hdrop : dropFailedUpdate slot name r' = r' := by
      unfold dropFailedUpdate
      rw [hsame]
      refine if_neg fun heq => ?_
      rw [slotFor, hgone] at heq
      cases heq
    rw [hdrop]
    exact ⟨h.of_free hin hfree, hin.maxLoras, fun name' _ => hothers name'⟩
  · have hbound' : r'.slotsByName name = some slot := by rw [hin.slotsByName, hbound]
    have hdrop : dropFailedUpdate slot name r' = r'.forget name slot := if_pos hbound'
    rw [hdrop]
    have hmoved := forget_moved (h.toRegistered.inSlot hin) hbound' hpacked
    refine ⟨hmoved.agrees, hin.maxLoras, fun name' hne => (hmoved.names name').trans ?_⟩
    exact ⟨fun hboth => (hothers name').1 hboth.2, fun hhas => ⟨hne, (hothers name').2 hhas⟩⟩

/-- **Install.** The adapter is in, or the rank is as it was but perhaps for the name. -/
theorem installLoraAdapter_ends {r₁ : LoraModel B F} (h : r₁.Agrees) (adapter : DeviceLoraAdapter B F)
    (loadInplace : Bool) :
    Faulty.Ends (fun r => r = r₁) (installLoraAdapter adapter loadInplace)
      (fun _ => Moved (fun name => name = adapter.name ∨ r₁.installed name) r₁) (Kept adapter.name r₁) := by
  have hread : Faulty.Ends (fun r => r = r₁) Faulty.get (fun a r => a = r₁ ∧ r = r₁) (Kept adapter.name r₁) :=
    Faulty.Ends.get fun r hr => ⟨hr, hr⟩
  refine hread.bind fun a => Faulty.Ends.given fun ha => ?_
  subst ha
  cases hchoice : a.slotForInstall adapter.name loadInplace with
  | error e =>
    apply Faulty.Ends.fail
    rintro r rfl
    exact Kept.refl h
  | ok slot =>
    have hinstall := slotForInstall_ok hchoice
    have hslot : a.SlotOf adapter.name slot := hinstall.imp_right And.right
    have hupdate := updatePackedLoraSlot_ends h.fitting (hslot.slot_lt h.toRegistered) adapter
    have htry : Faulty.Ends (fun r => r = a) (Faulty.attempt (updatePackedLoraSlot slot adapter))
        (fun result r => InSlot slot a r ∧ (result = .ok () → ∀ t ∈ layerProjections a.numHiddenLayers,
          r.contents t.1 t.2 slot = adapter.packed a.maxLoraRank t.1 t.2)) (Kept adapter.name a) := by
      apply Faulty.Ends.attempt
      refine hupdate.weaken (fun _ hr => hr) (fun _ r hr => ⟨hr.1, fun _ => hr.2⟩) fun r hin e => ?_
      exact ⟨hin, fun hok => by cases hok⟩
    refine htry.bind fun result => ?_
    cases result with
    | error err =>
      have hdrop : Faulty.Ends (fun r => InSlot slot a r ∧ (Except.error err = Except.ok () →
            ∀ t ∈ layerProjections a.numHiddenLayers, r.contents t.1 t.2 slot = adapter.packed a.maxLoraRank t.1 t.2))
          (Faulty.modify (dropFailedUpdate slot adapter.name)) (fun _ => Kept adapter.name a) (Kept adapter.name a) :=
        Faulty.Ends.modify fun r hr => dropFailedUpdate_kept h hslot hr.1
      exact hdrop.bind fun _ => Faulty.Ends.fail fun _ hr => hr
    | ok _ =>
      refine Faulty.Ends.of_each fun r₂ ⟨hin, hfilled⟩ => ?_
      have hread : Faulty.Ends (fun r => r = r₂) Faulty.get (fun a r => a = r₂ ∧ r = r₂) (Kept adapter.name a) :=
        Faulty.Ends.get fun r hr => ⟨hr, hr⟩
      refine hread.bind fun a' => Faulty.Ends.given fun ha' => ?_
      subst ha'
      have hnew : Faulty.Ends (fun r => r = a')
          (Faulty.ensure (loadInplace || (a'.loraAdapters adapter.name).isNone)
            ("Qwen3 LoRA adapter " ++ adapter.name ++ " is already loaded"))
          (fun _ r => r = a') (Kept adapter.name a) := by
        refine Faulty.Ends.ensure (fun r hr _ => hr) fun r _ hloaded => absurd ?_ hloaded
        rcases hinstall with ⟨hnone, -⟩ | ⟨hinplace, -⟩
        · rw [hin.loraAdapters, ← Option.not_isSome, h.keys, hnone]
          exact Bool.or_true _
        · rw [hinplace]
          rfl
      refine hnew.bind fun _ => Faulty.Ends.modify fun r hr => ?_
      rw [hr]
      have hslot' : a'.SlotOf adapter.name slot := by
        unfold SlotOf
        rw [hin.slotsByName, hin.slotNames]
        exact hslot
      have hmoved := enter_moved (h.toRegistered.inSlot hin) hslot' (fun slot' hne => (h.packed slot').inSlot hin hne)
        fun layerIdx hlayer kind => by
          rw [hin.maxLoraRank]
          rw [hin.numHiddenLayers] at hlayer
          exact hfilled rfl (layerIdx, kind) (mem_layerProjections hlayer kind)
      refine ⟨hmoved.agrees, hmoved.maxLoras.trans hin.maxLoras, fun name => (hmoved.names name).trans ?_⟩
      unfold installed
      rw [hin.slotsByName]

theorem loadLoraAdapter_ends {r₁ : LoraModel B F} (h : r₁.Agrees) (adapter : DeviceLoraAdapter B F)
    (loadInplace : Bool) :
    Faulty.Ends (fun r => r = r₁) (loadLoraAdapter adapter loadInplace)
      (fun _ => Moved (fun name => name = adapter.name ∨ r₁.installed name) r₁) (Kept adapter.name r₁) := by
  have hcopy : Faulty.Ends (fun r => r = r₁)
      (Faulty.each (fun _ => Faulty.operate "LoRA matrix copy failed") adapter.matrices) (fun _ r => r = r₁)
      (Kept adapter.name r₁) :=
    Faulty.Ends.each (I := fun _ r => r = r₁) adapter.matrices fun _ _ _ _ =>
      Faulty.Ends.operate (fun _ hr => hr) fun r hr => by
        rw [hr]
        exact Kept.refl h
  exact hcopy.bind fun _ => installLoraAdapter_ends h adapter loadInplace

theorem discardLoraAdapter_moved {r₁ : LoraModel B F} (h : Kept name r₁ r) :
    Moved (fun name' => name' ≠ name ∧ r₁.installed name') r₁ (r.discardLoraAdapter name) := by
  unfold discardLoraAdapter slotFor
  cases hslot : r.slotsByName name with
  | some slot =>
    have hmoved := forget_moved h.agrees.toRegistered hslot fun slot' _ => h.agrees.packed slot'
    refine ⟨hmoved.agrees, hmoved.maxLoras.trans h.maxLoras, fun name' => (hmoved.names name').trans ?_⟩
    exact and_congr_right fun hne => h.others name' hne
  | none =>
    have hadapter : r.loraAdapters name = none := by
      rw [← Option.isNone_iff_eq_none, ← Option.not_isSome, h.agrees.keys, hslot]
      rfl
    have hsame : r.removeAdapter name = r := by
      unfold removeAdapter
      rw [← hadapter, Function.update_eq_self]
    change Moved _ _ (r.removeAdapter name)
    rw [hsame]
    refine ⟨h.agrees, h.maxLoras, fun name' => ?_⟩
    by_cases hname : name' = name
    · refine ⟨fun hhas => ?_, fun hboth => absurd hname hboth.1⟩
      unfold installed at hhas
      rw [hname, hslot] at hhas
      cases hhas
    · exact (h.others name' hname).trans ⟨fun hhas => ⟨hname, hhas⟩, And.right⟩

/-! ## Uninstalling -/

/-- a device failure stops the clear of the name's slot -/
def UnloadFails (r : LoraModel B F) (name : String) (faults : Faults) : Prop :=
  ∃ slot, r.slotFor name = some slot ∧ true ∈ faults.take (r.clearParts slot).length

/-- before it stops, the clear of the name's slot has come to empty parts only -/
def UnloadHarmless (r : LoraModel B F) (name : String) (faults : Faults) : Prop :=
  ∀ slot, r.slotFor name = some slot → ∀ part ∈ (r.clearParts slot).take (faults.findIdx id), part

theorem not_installed (h : ¬ r.installed name) : r.slotsByName name = none := by
  rwa [installed, Bool.not_eq_true, Option.isSome_eq_false_iff, Option.isNone_iff_eq_none] at h

/-- an adapter that is not there is not uninstalled -/
theorem uninstallLoraAdapter_absent (h : ¬ r.installed name) (fs : Faults) :
    uninstallLoraAdapter name r fs = (.error ("Qwen3 LoRA adapter " ++ name ++ " is not loaded"), r, fs) := by
  rw [uninstallLoraAdapter, Faulty.get_bind, slotFor, not_installed h]
  rfl

theorem uninstallLoraAdapter_eq {fs : Faults} (hslot : r.slotsByName name = some slot) :
    uninstallLoraAdapter name r fs =
      match Faulty.each (clearPackedLoraProjectionSlot slot) (layerProjections r.numHiddenLayers) r fs with
      | (.ok (), r', fs') => (.ok (), r'.forget name slot, fs')
      | (.error e, r', fs') => (.error e, r', fs') := by
  rw [uninstallLoraAdapter, Faulty.get_bind, slotFor, hslot]
  change Faulty.bind (Faulty.each (clearPackedLoraProjectionSlot slot) (layerProjections r.numHiddenLayers)) _ r fs = _
  unfold Faulty.bind
  cases Faulty.each (clearPackedLoraProjectionSlot slot) (layerProjections r.numHiddenLayers) r fs with
  | mk result rest =>
    obtain ⟨r', fs'⟩ := rest
    cases result with
    | error e => rfl
    | ok _ => rfl

/-- **Uninstall**, where the clear goes through. -/
theorem uninstallLoraAdapter_clears (h : r.Agrees) (hhas : r.installed name) (fs : Faults)
    (hfault : ¬ r.UnloadFails name fs) :
    ∃ r' fs', uninstallLoraAdapter name r fs = (.ok (), r', fs') ∧
      Moved (fun name' => name' ≠ name ∧ r.installed name') r r' := by
  obtain ⟨slot, hslot⟩ := Option.isSome_iff_exists.1 hhas
  have hlt := h.slot_lt hslot
  have hquiet : true ∉ fs.take (r.clearParts slot).length := fun hin => hfault ⟨slot, hslot, hin⟩
  obtain ⟨r', fs', hrun⟩ := (clearEach_faults slot (layerProjections r.numHiddenLayers) r fs h.fitting hlt).1 hquiet
  have hin := ((clearPackedLoraSlot_ends h.fitting hlt).run_ok rfl (show clearPackedLoraSlot slot r fs = _ from hrun)).1
  refine ⟨r'.forget name slot, fs', by rw [uninstallLoraAdapter_eq hslot, hrun], ?_⟩
  have hmoved := forget_moved (h.toRegistered.inSlot hin) (by rw [hin.slotsByName, hslot])
    fun slot' hne => (h.packed slot').inSlot hin hne
  refine ⟨hmoved.agrees, hmoved.maxLoras.trans hin.maxLoras, fun name' => (hmoved.names name').trans ?_⟩
  unfold installed
  rw [hin.slotsByName]

/-- and where it stops before anything is lost -/
theorem uninstallLoraAdapter_stops (h : r.Agrees) {fs : Faults} (hfault : r.UnloadFails name fs)
    (hharmless : r.UnloadHarmless name fs) :
    ∃ e r' fs', uninstallLoraAdapter name r fs = (.error e, r', fs') ∧
      Moved (fun name' => r.installed name') r r' := by
  obtain ⟨slot, hslot, hstops⟩ := hfault
  have hlt := h.slot_lt hslot
  obtain ⟨e, r', fs', hrun, hsame⟩ :=
    (clearEach_faults slot (layerProjections r.numHiddenLayers) r fs h.fitting hlt).2 hstops
  have hin := (clearPackedLoraSlot_ends h.fitting hlt).run_error rfl (show clearPackedLoraSlot slot r fs = _ from hrun)
  have hcontents := hsame (hharmless slot hslot)
  refine ⟨e, r', fs', by rw [uninstallLoraAdapter_eq hslot, hrun], ⟨h.toRegistered.inSlot hin, fun slot' => ?_⟩,
    hin.maxLoras, fun name' => ?_⟩
  · by_cases heq : slot' = slot
    · intro name' adapter hbound hadapter layerIdx hlayer kind
      rw [hin.slotsByName] at hbound
      rw [hin.loraAdapters] at hadapter
      rw [hin.numHiddenLayers] at hlayer
      rw [heq, hcontents (layerIdx, kind), hin.maxLoraRank]
      exact h.packed slot name' adapter (heq ▸ hbound) hadapter layerIdx hlayer kind
    · exact (h.packed slot').inSlot hin heq
  · unfold installed
    rw [hin.slotsByName]

end LoraModel

namespace LoraRanks

/-! ## All ranks -/

/-- **Agreement** of the ranks with the executor. -/
structure Agrees (s : LoraRanks B F) : Prop where
  ranks : ∀ r ∈ s.ranks, r.Agrees
  all : ∀ name, name ∈ s.loadedLoraAdapters ↔ ∀ r ∈ s.ranks, r.installed name
  any : ∀ name, name ∈ s.loadedLoraAdapters ↔ ∃ r ∈ s.ranks, r.installed name

/-- no name is stuck: what is not loaded can be loaded while there is room, what is loaded can be loaded over and can be
unloaded -/
structure Retries (s : LoraRanks B F) : Prop where
  load : ∀ name, name ∉ s.loadedLoraAdapters → s.loadedLoraAdapters.card < s.maxLoras →
    s.ensureLoraCapacity name false = .ok () ∧ ∀ r ∈ s.ranks, ∃ slot, r.slotForInstall name false = .ok slot
  reload : ∀ name, name ∈ s.loadedLoraAdapters →
    s.ensureLoraCapacity name true = .ok () ∧ ∀ r ∈ s.ranks, ∃ slot, r.slotForInstall name true = .ok slot
  unload : ∀ name, name ∈ s.loadedLoraAdapters → (s.unloadLoraAdapter name fun _ => []).1 = .ok ()

/-- what the calls keep: every rank agrees, and has just the names that are loaded -/
structure Settled (s : LoraRanks B F) : Prop where
  nonempty : s.ranks ≠ []
  ranks : ∀ r ∈ s.ranks, r.Agrees
  maxLoras : ∀ r ∈ s.ranks, r.maxLoras = s.maxLoras
  names : ∀ r ∈ s.ranks, ∀ name, r.installed name ↔ name ∈ s.loadedLoraAdapters

variable {s : LoraRanks B F}

theorem Settled.agrees (h : s.Settled) : s.Agrees := by
  obtain ⟨r₀, hr₀⟩ := List.exists_mem_of_ne_nil _ h.nonempty
  refine ⟨h.ranks, fun name => ⟨fun hin r hr => (h.names r hr name).2 hin, fun hall => ?_⟩, fun name => ⟨?_, ?_⟩⟩
  · exact (h.names r₀ hr₀ name).1 (hall r₀ hr₀)
  · exact fun hin => ⟨r₀, hr₀, (h.names r₀ hr₀ name).2 hin⟩
  · rintro ⟨r, hr, hhas⟩
    exact (h.names r hr name).1 hhas

theorem new_settled {worldSize : ℕ} (hworld : 0 < worldSize) (numHiddenLayers maxLoras maxLoraRank : ℕ) :
    (new worldSize numHiddenLayers maxLoras maxLoraRank : LoraRanks B F).Settled where
  nonempty := fun hnil => absurd ((List.replicate_eq_nil_iff _).1 hnil) (Nat.ne_of_gt hworld)
  ranks r hr := by
    rw [List.eq_of_mem_replicate hr]
    exact LoraModel.new_agrees numHiddenLayers maxLoras maxLoraRank
  maxLoras r hr := by
    rw [List.eq_of_mem_replicate hr]
    rfl
  names r hr name := by
    rw [List.eq_of_mem_replicate hr]
    exact ⟨fun hhas => (by cases hhas), fun hin => absurd hin (Finset.notMem_empty name)⟩

theorem mem_onRanks (command : ℕ → Faulty (LoraModel B F) Unit) (faults : ℕ → Faults) (rank : ℕ)
    (ranks : List (LoraModel B F)) (answered : Except String Unit × LoraModel B F) :
    answered ∈ onRanks command faults rank ranks ↔
      ∃ i r, ranks[i]? = some r ∧ ((command (rank + i) r (faults (rank + i))).1,
        (command (rank + i) r (faults (rank + i))).2.1) = answered := by
  induction ranks generalizing rank with
  | nil => exact ⟨fun h => absurd h List.not_mem_nil, fun ⟨_, _, h, _⟩ => by cases h⟩
  | cons r ranks ih =>
    unfold onRanks
    rw [List.mem_cons, ih]
    constructor
    · rintro (rfl | ⟨i, r', hr', hanswer⟩)
      · exact ⟨0, r, rfl, rfl⟩
      · refine ⟨i + 1, r', hr', ?_⟩
        rwa [show rank + (i + 1) = rank + 1 + i by omega]
    · rintro ⟨_ | i, r', hr', hanswer⟩
      · cases hr'
        exact Or.inl hanswer.symm
      · refine Or.inr ⟨i, r', hr', ?_⟩
        rwa [show rank + 1 + i = rank + (i + 1) by omega]

theorem length_onRanks (command : ℕ → Faulty (LoraModel B F) Unit) (faults : ℕ → Faults) (rank : ℕ)
    (ranks : List (LoraModel B F)) : (onRanks command faults rank ranks).length = ranks.length := by
  induction ranks generalizing rank with
  | nil => rfl
  | cons r ranks ih => exact congrArg (· + 1) (ih (rank + 1))

theorem errors_eq_nil (rank : ℕ) (answers : List (Except String Unit × LoraModel B F)) :
    errors rank answers = [] ↔ ∀ answered ∈ answers, answered.1 = .ok () := by
  induction answers generalizing rank with
  | nil => exact ⟨fun _ _ h => absurd h List.not_mem_nil, fun _ => rfl⟩
  | cons answered answers ih =>
    rw [List.forall_mem_cons, ← ih (rank + 1)]
    rcases answered with ⟨_ | _, r⟩
    · exact ⟨fun h => (by cases h), fun h => by cases h.1⟩
    · exact ⟨fun h => ⟨rfl, h⟩, And.right⟩

/-- answers that leave each rank with the names `loaded` -/
theorem settled_of_answers (h : s.Settled) {loaded : Finset String} {ranks : List (LoraModel B F)}
    (hlength : ranks.length = s.ranks.length)
    (hranks : ∀ r' ∈ ranks, ∃ r ∈ s.ranks, LoraModel.Moved (fun name => name ∈ loaded) r r') :
    ({ s with loadedLoraAdapters := loaded, ranks := ranks } : LoraRanks B F).Settled where
  nonempty hnil := by
    change ranks = [] at hnil
    rw [hnil, List.length_nil, eq_comm, List.length_eq_zero_iff] at hlength
    exact h.nonempty hlength
  ranks r' hr' := by
    obtain ⟨r, _, hmoved⟩ := hranks r' hr'
    exact hmoved.agrees
  maxLoras r' hr' := by
    obtain ⟨r, hr, hmoved⟩ := hranks r' hr'
    exact hmoved.maxLoras.trans (h.maxLoras r hr)
  names r' hr' := by
    obtain ⟨r, _, hmoved⟩ := hranks r' hr'
    exact hmoved.names

theorem loadLoraAdapter_settled (h : s.Settled) (name : String)
    (shards : Option (ℕ → List (DeviceLoraLayer B) × F)) (loadInplace : Bool) (faults : ℕ → Faults) :
    (s.loadLoraAdapter name shards loadInplace faults).2.Settled := by
  unfold loadLoraAdapter
  cases s.ensureLoraCapacity name loadInplace with
  | error err => exact h
  | ok _ =>
    cases shards with
    | none => exact h
    | some shard =>
      dsimp only
      set command : ℕ → Faulty (LoraModel B F) Unit := fun rank =>
        LoraModel.loadLoraAdapter ⟨name, (shard rank).2, (shard rank).1⟩ loadInplace
      have hends (rank : ℕ) (r : LoraModel B F) (hr : r ∈ s.ranks) := LoraModel.loadLoraAdapter_ends (h.ranks r hr)
        ⟨name, (shard rank).2, (shard rank).1⟩ loadInplace
      cases herrors : errors 0 (onRanks command faults 0 s.ranks) with
      | nil =>
        -- every rank has it
        apply settled_of_answers h (by rw [List.length_map, length_onRanks])
        intro r' hr'
        obtain ⟨answered, hanswered, rfl⟩ := List.mem_map.1 hr'
        obtain ⟨i, r, hr, rfl⟩ := (mem_onRanks _ _ _ _ _).1 hanswered
        have hmem := List.mem_of_getElem? hr
        have hok := (errors_eq_nil _ _).1 herrors _ hanswered
        have hmoved := (hends (0 + i) r hmem).run_ok (a := ()) rfl (Prod.ext hok rfl)
        refine ⟨r, hmem, hmoved.agrees, hmoved.maxLoras, fun name' => (hmoved.names name').trans ?_⟩
        rw [h.names r hmem name', Finset.mem_insert]
      | cons err errs =>
        -- every rank discards it, whatever it has of it
        apply settled_of_answers h (by rw [List.length_map, length_onRanks])
        intro r' hr'
        obtain ⟨answered, hanswered, rfl⟩ := List.mem_map.1 hr'
        obtain ⟨i, r, hr, rfl⟩ := (mem_onRanks _ _ _ _ _).1 hanswered
        have hmem := List.mem_of_getElem? hr
        have hkept : LoraModel.Kept name r (command (0 + i) r (faults (0 + i))).2.1 := by
          rcases hcase : command (0 + i) r (faults (0 + i)) with ⟨_ | _, r', fs'⟩
          · exact (hends (0 + i) r hmem).run_error rfl hcase
          · have hrun := (hends (0 + i) r hmem).run_ok rfl hcase
            refine ⟨hrun.agrees, hrun.maxLoras, fun name' hne => (hrun.names name').trans ?_⟩
            exact ⟨fun hor => hor.resolve_left hne, Or.inr⟩
        have hmoved := LoraModel.discardLoraAdapter_moved hkept
        refine ⟨r, hmem, hmoved.agrees, hmoved.maxLoras, fun name' => (hmoved.names name').trans ?_⟩
        rw [h.names r hmem name', Finset.mem_erase]

/-- an unload of a loaded adapter goes through on every rank, or stops on every rank before anything is lost -/
def Whole (s : LoraRanks B F) : LoraCall B F → Prop
  | .load .. => True
  | .unload name faults => name ∈ s.loadedLoraAdapters →
      (∀ (i : ℕ) (r : LoraModel B F), s.ranks[i]? = some r → ¬ r.UnloadFails name (faults i)) ∨
        ∀ (i : ℕ) (r : LoraModel B F), s.ranks[i]? = some r → r.UnloadFails name (faults i) ∧ r.UnloadHarmless name (faults i)

/-- the unload's answers, where all ranks answer alike -/
theorem unloadLoraAdapter_ok {name : String} {faults : ℕ → Faults}
    (hok : ∀ i r, s.ranks[i]? = some r → ∃ r' fs',
      LoraModel.uninstallLoraAdapter name r (faults i) = (.ok (), r', fs')) :
    s.unloadLoraAdapter name faults = (.ok (), { s with
      loadedLoraAdapters := s.loadedLoraAdapters.erase name
      ranks := (onRanks (fun _ => LoraModel.uninstallLoraAdapter name) faults 0 s.ranks).map Prod.snd }) := by
  have herrors : errors 0 (onRanks (fun _ => LoraModel.uninstallLoraAdapter name) faults 0 s.ranks) = [] := by
    rw [errors_eq_nil]
    intro answered hanswered
    obtain ⟨i, r, hr, rfl⟩ := (mem_onRanks _ _ _ _ _).1 hanswered
    obtain ⟨r', fs', hrun⟩ := hok i r hr
    rw [Nat.zero_add, hrun]
  unfold unloadLoraAdapter
  dsimp only
  rw [herrors]

theorem unloadLoraAdapter_error {name : String} {faults : ℕ → Faults} (hranks : s.ranks ≠ [])
    (herror : ∀ i r, s.ranks[i]? = some r → ∃ e r' fs',
      LoraModel.uninstallLoraAdapter name r (faults i) = (.error e, r', fs')) :
    (s.unloadLoraAdapter name faults).2 = { s with
      ranks := (onRanks (fun _ => LoraModel.uninstallLoraAdapter name) faults 0 s.ranks).map Prod.snd } := by
  unfold unloadLoraAdapter
  dsimp only
  cases herrors : errors 0 (onRanks (fun _ => LoraModel.uninstallLoraAdapter name) faults 0 s.ranks) with
  | cons err errs => rfl
  | nil =>
    obtain ⟨r, ranks, hcons⟩ := List.exists_cons_of_ne_nil hranks
    have hfirst : s.ranks[0]? = some r := by
      rw [hcons]
      rfl
    obtain ⟨e, r', fs', hrun⟩ := herror 0 r hfirst
    have hok := (errors_eq_nil _ _).1 herrors _ ((mem_onRanks _ _ _ _ _).2 ⟨0, r, hfirst, rfl⟩)
    rw [Nat.zero_add, hrun] at hok
    cases hok

theorem unloadLoraAdapter_settled (h : s.Settled) (name : String) (faults : ℕ → Faults)
    (hwhole : s.Whole (.unload name faults)) : (s.unloadLoraAdapter name faults).2.Settled := by
  have hlength : ((onRanks (fun _ => LoraModel.uninstallLoraAdapter name) faults 0 s.ranks).map Prod.snd).length =
      s.ranks.length := by rw [List.length_map, length_onRanks]
  by_cases hloaded : name ∈ s.loadedLoraAdapters
  · have hhas {i : ℕ} {r : LoraModel B F} (hr : s.ranks[i]? = some r) : r.installed name :=
      (h.names r (List.mem_of_getElem? hr) name).2 hloaded
    rcases hwhole hloaded with hclears | hstops
    · have hone (i : ℕ) (r : LoraModel B F) (hr : s.ranks[i]? = some r) :=
        LoraModel.uninstallLoraAdapter_clears (h.ranks r (List.mem_of_getElem? hr)) (hhas hr) (faults i)
          (hclears i r hr)
      rw [unloadLoraAdapter_ok fun i r hr => (hone i r hr).imp fun _ => Exists.imp fun _ => And.left]
      apply settled_of_answers h hlength
      intro r' hr'
      obtain ⟨answered, hanswered, rfl⟩ := List.mem_map.1 hr'
      obtain ⟨i, r, hr, rfl⟩ := (mem_onRanks _ _ _ _ _).1 hanswered
      obtain ⟨r', fs', hrun, hmoved⟩ := hone i r hr
      have hmem := List.mem_of_getElem? hr
      rw [Nat.zero_add, hrun]
      refine ⟨r, hmem, hmoved.agrees, hmoved.maxLoras, fun name' => (hmoved.names name').trans ?_⟩
      rw [h.names r hmem name', Finset.mem_erase]
    · have hone (i : ℕ) (r : LoraModel B F) (hr : s.ranks[i]? = some r) :=
        LoraModel.uninstallLoraAdapter_stops (h.ranks r (List.mem_of_getElem? hr)) (hstops i r hr).1 (hstops i r hr).2
      rw [unloadLoraAdapter_error h.nonempty fun i r hr =>
        (hone i r hr).imp fun _ => Exists.imp fun _ => Exists.imp fun _ => And.left]
      apply settled_of_answers h hlength
      intro r' hr'
      obtain ⟨answered, hanswered, rfl⟩ := List.mem_map.1 hr'
      obtain ⟨i, r, hr, rfl⟩ := (mem_onRanks _ _ _ _ _).1 hanswered
      obtain ⟨e, r', fs', hrun, hmoved⟩ := hone i r hr
      have hmem := List.mem_of_getElem? hr
      rw [Nat.zero_add, hrun]
      exact ⟨r, hmem, hmoved.agrees, hmoved.maxLoras, fun name' => (hmoved.names name').trans (h.names r hmem name')⟩
  · -- no rank has it, and none does anything
    have hone (i : ℕ) (r : LoraModel B F) (hr : s.ranks[i]? = some r) := LoraModel.uninstallLoraAdapter_absent
      (fun hhas => hloaded ((h.names r (List.mem_of_getElem? hr) name).1 hhas)) (faults i)
    rw [unloadLoraAdapter_error h.nonempty fun i r hr => ⟨_, _, _, hone i r hr⟩]
    apply settled_of_answers h hlength
    intro r' hr'
    obtain ⟨answered, hanswered, rfl⟩ := List.mem_map.1 hr'
    obtain ⟨i, r, hr, rfl⟩ := (mem_onRanks _ _ _ _ _).1 hanswered
    have hmem := List.mem_of_getElem? hr
    rw [Nat.zero_add, hone i r hr]
    exact ⟨r, hmem, h.ranks r hmem, rfl, h.names r hmem⟩

/-- what one call keeps -/
theorem step_settled (h : s.Settled) (c : LoraCall B F) (hwhole : s.Whole c) : (s.call c).2.Settled := by
  cases c with
  | load name shards loadInplace faults => exact loadLoraAdapter_settled h name shards loadInplace faults
  | unload name faults => exact unloadLoraAdapter_settled h name faults hwhole

/-! ## What is open to the next call -/

/-- a rank with fewer names than slots has a free slot -/
theorem exists_free_slot {r : LoraModel B F} (h : r.Agrees) {loaded : Finset String}
    (hnames : ∀ name, r.installed name ↔ name ∈ loaded) (hroom : loaded.card < r.maxLoras) :
    ∃ slot, r.slotNames.findIdx? Option.isNone = some slot := by
  rw [← Option.isSome_iff_exists, List.findIdx?_isSome]
  by_contra hfull
  -- otherwise every slot has a name of its own
  have hbound (slot : ℕ) (hslot : slot < r.maxLoras) : ∃ name, r.slotsByName name = some slot := by
    have hlt : slot < r.slotNames.length := by rwa [h.slots]
    cases hname : r.slotNames[slot] with
    | none =>
      refine absurd (List.any_eq_true.2 ⟨none, ?_, rfl⟩) hfull
      rw [← hname]
      exact List.getElem_mem hlt
    | some name => exact ⟨name, (h.inverse name slot).2 (by rw [List.getElem?_eq_getElem hlt, hname])⟩
  choose! nameOf hnameOf using hbound
  have hcard : (Finset.range r.maxLoras).card ≤ loaded.card := by
    apply Finset.card_le_card_of_injOn nameOf
    · intro slot hslot
      refine (hnames (nameOf slot)).1 ?_
      rw [LoraModel.installed, hnameOf slot (Finset.mem_range.1 hslot)]
      rfl
    · intro slot hslot slot' hslot' heq
      have hone := hnameOf slot (Finset.mem_range.1 hslot)
      have hother := hnameOf slot' (Finset.mem_range.1 hslot')
      rw [← heq, hone] at hother
      exact Option.some.inj hother
  rw [Finset.card_range] at hcard
  omega

theorem Settled.retries (h : s.Settled) : s.Retries where
  load name habsent hroom := by
    refine ⟨by rw [ensureLoraCapacity, if_neg habsent, if_pos hroom], fun r hr => ?_⟩
    have hnone := LoraModel.not_installed fun hhas => habsent ((h.names r hr name).1 hhas)
    obtain ⟨slot, hfree⟩ := exists_free_slot (h.ranks r hr) (h.names r hr) (by rwa [h.maxLoras r hr])
    refine ⟨slot, ?_⟩
    unfold LoraModel.slotForInstall LoraModel.slotFor
    rw [hnone]
    dsimp only
    rw [hfree]
  reload name hloaded := by
    refine ⟨by rw [ensureLoraCapacity, if_pos hloaded]; rfl, fun r hr => ?_⟩
    obtain ⟨slot, hslot⟩ := Option.isSome_iff_exists.1 ((h.names r hr name).2 hloaded)
    refine ⟨slot, ?_⟩
    unfold LoraModel.slotForInstall LoraModel.slotFor
    rw [hslot]
    rfl
  unload name hloaded := by
    have hone (i : ℕ) (r : LoraModel B F) (hr : s.ranks[i]? = some r) := LoraModel.uninstallLoraAdapter_clears
      (h.ranks r (List.mem_of_getElem? hr)) ((h.names r (List.mem_of_getElem? hr) name).2 hloaded) []
      (by rintro ⟨slot, -, hfails⟩; rw [List.take_nil] at hfails; exact absurd hfails List.not_mem_nil)
    rw [unloadLoraAdapter_ok fun i r hr => (hone i r hr).imp fun _ => Exists.imp fun _ => And.left]

/-! ## Runs -/

/-- **Registry agreement.** After any whole calls, on any number of ranks. -/
theorem lora_registries_agree (worldSize numHiddenLayers maxLoras maxLoraRank : ℕ) (hworld : 0 < worldSize)
    (calls : List (LoraCall B F)) (s : LoraRanks B F)
    (hwhole : StepsMeet step Whole (new worldSize numHiddenLayers maxLoras maxLoraRank) calls)
    (hrun : run step (new worldSize numHiddenLayers maxLoras maxLoraRank) calls = .ok s) : s.Agrees ∧ s.Retries := by
  have hsettled : s.Settled := by
    refine run_invariant (I := fun _ s => s.Settled) _ (new_settled hworld _ _ _) ?_ calls s hwhole hrun
    intro _ s c s' h hone hstep
    cases hstep
    exact step_settled h c hone
  exact ⟨hsettled.agrees, hsettled.retries⟩

/-- one layer, one projection, of rank one -/
def sampleShards : ℕ → List (DeviceLoraLayer ℕ) × ℕ := fun _ =>
  ([fun kind => if kind = .q then some ⟨⟨[2], 1, 1⟩, ⟨[3], 1, 1⟩⟩ else none], 1)

def sampleLoad : LoraCall ℕ ℕ := .load "sql" (some sampleShards) false fun _ => []

/-- the unload of `sql`, with a script for the second rank -/
def sampleUnload (faults : Faults) : LoraCall ℕ ℕ := .unload "sql" fun rank => if rank = 1 then faults else []

/-- an unload that stops at once on both ranks, and one that goes through -/
theorem unload_again_agrees :
    ∃ s, run step (new 2 1 1 1) [sampleLoad, .unload "sql" fun _ => [true], sampleUnload []] = .ok s ∧
      s.Agrees ∧ s.Retries := by
  refine ⟨_, rfl, lora_registries_agree 2 1 1 1 (by decide)
    [sampleLoad, .unload "sql" fun _ => [true], sampleUnload []] _ ?_ rfl⟩
  refine ⟨trivial, ?_⟩
  rintro _ ⟨⟩
  refine ⟨fun _ => Or.inr fun i r hr => ⟨?_, fun _ _ part hpart => absurd hpart List.not_mem_nil⟩, ?_⟩
  · match i with
    | 0 =>
      cases hr
      exact ⟨0, rfl, by decide⟩
    | 1 =>
      cases hr
      exact ⟨0, rfl, by decide⟩
    | i + 2 => cases hr
  · rintro _ ⟨⟩
    refine ⟨fun _ => Or.inl fun i r _ ⟨slot, _, hfails⟩ => ?_, fun _ _ => trivial⟩
    have hnone : (if i = 1 then [] else [] : Faults) = [] := ite_self []
    change true ∈ (if i = 1 then [] else [] : Faults).take _ at hfails
    rw [hnone, List.take_nil] at hfails
    exact absurd hfails List.not_mem_nil

/-- the adapter goes to two ranks; its unload goes through on the first and stops half-way on the second -/
theorem unload_splits_ranks :
    ∃ s, run step (new 2 1 1 1) [sampleLoad, sampleUnload [false, true]] = .ok s ∧ ¬ s.Agrees ∧ ¬ s.Retries ∧
      "sql" ∈ s.loadedLoraAdapters ∧ s.ranks.map (fun r => (r.slotsByName "sql").isSome) = [false, true] ∧
      s.ranks.map (fun r => ((r.contents 0 .q 0).a 0, (r.contents 0 .q 0).b 0)) = [(0, 0), (0, 3)] := by
  refine ⟨_, rfl, fun h => ?_, fun h => ?_, ?_, ?_, ?_⟩
  · have hfirst := (h.all "sql").1 (by decide) _ List.mem_cons_self
    exact absurd hfirst Bool.false_ne_true
  · cases h.unload "sql" (by decide)
  · decide
  · decide
  · decide

end LoraRanks

end Pegainfer.Qwen3
