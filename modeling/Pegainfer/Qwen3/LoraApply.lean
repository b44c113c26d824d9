/-
LoRA deltas on a batch: the grouped path of a prefill and the packed-slot path of a decode.

The kernels are taken to compute `scale * B (A x)` on the tokens and slots they are handed, `-1` for none: the grouped
ones once for each token of their list, the decode one in the buffers of the row's slot over the buffers' rank.
- `applyLoraProjectionRanges_eq`: every token gets its own adapter's delta once, and no other.
- `Consistent`: a registry whose packed slots hold its adapters, in buffers of their shapes.
- `addSlotDelta_packed`: a slot's product over the padded rank is the adapter's.
- `lora_batched_application`: the groups of a batch, what they apply, and the same of a decode batch.
-/
import Mathlib.Tactic
import Pegainfer.Lib.FlatMatrix
import Pegainfer.Qwen3.LoraRuns
import Pegainfer.Qwen3.LoraTokens

namespace Pegainfer.Qwen3

open Finset
open Pegainfer.Lib

variable {B F X Y : Type}

/-! ## The grouped path -/

namespace LoraModel

def loraLayerFor (r : LoraModel B F) (name : String) (layerIdx : ℕ) : Option (DeviceLoraLayer B × F) :=
  (r.loraAdapters name).bind fun adapter => adapter.layers[layerIdx]?.map fun layer => (layer, adapter.scale)

end LoraModel

/-- a kernel over a list of tokens; `add` is its arithmetic on one token's input and output -/
def addTokens (add : DeviceLoraProjection B → F → X → Y → Y) (projection : DeviceLoraProjection B) (scale : F)
    (input : ℕ → X) (tokens : List ℕ) (out : ℕ → Y) : ℕ → Y :=
  tokens.foldl (fun out token => Function.update out token (add projection scale (input token) (out token))) out

def applyLoraProjectionDeltaRange (add : DeviceLoraProjection B → F → X → Y → Y) (projection : DeviceLoraProjection B)
    (scale : F) (input : ℕ → X) (tokenOffset tokenLen : ℕ) (out : ℕ → Y) : ℕ → Y :=
  if tokenLen = 0 then out else addTokens add projection scale input (List.range' tokenOffset tokenLen) out

def applyLoraProjectionDeltaIndexed (add : DeviceLoraProjection B → F → X → Y → Y)
    (projection : DeviceLoraProjection B) (scale : F) (input : ℕ → X) (tokenIndices : List ℤ) (tokenCount : ℕ)
    (out : ℕ → Y) : ℕ → Y :=
  if tokenCount = 0 then out
  else addTokens add projection scale input ((tokenIndices.take tokenCount).map Int.toNat) out

namespace LoraModel

def applyLoraTokenGroup (r : LoraModel B F) (add : DeviceLoraProjection B → F → X → Y → Y) (layerIdx : ℕ)
    (projection : DeviceLoraLayer B → Option (DeviceLoraProjection B)) (input : ℕ → X) (out : ℕ → Y)
    (group : DeviceLoraTokenGroup) : Except String (ℕ → Y) :=
  match r.loraLayerFor group.adapter layerIdx with
  | none => .error ("Qwen3 LoRA adapter " ++ group.adapter ++ " is not loaded")
  | some (layer, scale) =>
    match projection layer with
    | none => .ok out
    | some projection =>
      match group.ranges with
      | [range] => .ok (applyLoraProjectionDeltaRange add projection scale input range.tokenOffset range.tokenLen out)
      | _ =>
        match group.tokenIndices with
        | none => .error "non-contiguous LoRA token group must have device indices"
        | some tokenIndices =>
          .ok (applyLoraProjectionDeltaIndexed add projection scale input tokenIndices group.tokenCount out)

def applyLoraProjectionRanges (r : LoraModel B F) (add : DeviceLoraProjection B → F → X → Y → Y) (layerIdx : ℕ)
    (projection : DeviceLoraLayer B → Option (DeviceLoraProjection B)) (groups : List DeviceLoraTokenGroup)
    (input : ℕ → X) (out : ℕ → Y) : Except String (ℕ → Y) :=
  groups.foldlM (r.applyLoraTokenGroup add layerIdx projection input) out

/-- the matrices and the scale that an adapter has for a projection -/
def selected (r : LoraModel B F) (layerIdx : ℕ) (projection : DeviceLoraLayer B → Option (DeviceLoraProjection B))
    (name : String) : Option (DeviceLoraProjection B × F) :=
  (r.loraLayerFor name layerIdx).bind fun found => (projection found.1).map fun matrices => (matrices, found.2)

/-- a token's delta, if its adapter has the projection -/
def addSelected (add : DeviceLoraProjection B → F → X → Y → Y) (selected : Option (DeviceLoraProjection B × F)) (x : X)
    (y : Y) : Y :=
  match selected with
  | some (projection, scale) => add projection scale x y
  | none => y

/-- each token's output with its own adapter's delta, and that of a token without adapter as it was -/
def perToken (r : LoraModel B F) (add : DeviceLoraProjection B → F → X → Y → Y) (layerIdx : ℕ)
    (projection : DeviceLoraLayer B → Option (DeviceLoraProjection B)) (owners : List (Option String)) (input : ℕ → X)
    (out : ℕ → Y) : ℕ → Y := fun token =>
  addSelected add (owners[token]?.join.bind (r.selected layerIdx projection)) (input token) (out token)

end LoraModel

variable {add : DeviceLoraProjection B → F → X → Y → Y} {projection : DeviceLoraProjection B} {scale : F}
  {input : ℕ → X} {out out' : ℕ → Y} {owners : List (Option String)} {r : LoraModel B F} {layerIdx : ℕ}
  {select : DeviceLoraLayer B → Option (DeviceLoraProjection B)} {group : DeviceLoraTokenGroup}
  {groups : List DeviceLoraTokenGroup}

/-- a kernel adds to each token of its list, once -/
theorem addTokens_apply {tokens : List ℕ} (h : tokens.Nodup) (token : ℕ) :
    addTokens add projection scale input tokens out token =
      if token ∈ tokens then add projection scale (input token) (out token) else out token := by
  induction tokens generalizing out with
  | nil => exact (if_neg List.not_mem_nil).symm
  | cons first tokens ih =>
    obtain ⟨hfirst, htokens⟩ := List.nodup_cons.1 h
    rw [addTokens, List.foldl_cons, ← addTokens, ih htokens]
    by_cases heq : token = first
    · subst heq
      rw [if_neg hfirst, if_pos List.mem_cons_self, Function.update_self]
    · have hmem : token ∈ first :: tokens ↔ token ∈ tokens := by
        rw [List.mem_cons]
        exact or_iff_right heq
      rw [Function.update_of_ne heq, if_congr hmem rfl rfl]

/-- both kernels are handed the tokens of the group's adapter -/
theorem Attributed.handed (h : Attributed owners groups) (hgroup : group ∈ groups) :
    (∃ range, group.ranges = [range] ∧ range.tokens = ownedPlaces owners group.adapter) ∨
      ∃ tokenIndices, group.tokenIndices = some tokenIndices ∧ group.ranges.length ≠ 1 ∧
        (tokenIndices.take group.tokenCount).map Int.toNat = ownedPlaces owners group.adapter := by
  cases hindices : group.tokenIndices with
  | none =>
    obtain ⟨range, hrange⟩ := h.single group hgroup hindices
    refine Or.inl ⟨range, hrange, ?_⟩
    rw [← h.tokens group hgroup, hrange, List.flatMap_singleton]
  | some tokenIndices =>
    obtain ⟨hmany, rfl⟩ := h.indexed group hgroup tokenIndices hindices
    refine Or.inr ⟨_, rfl, hmany, ?_⟩
    have hlen : ((ownedPlaces owners group.adapter).map (Nat.cast : ℕ → ℤ)).length = group.tokenCount := by
      rw [List.length_map, length_ownedPlaces, h.count group hgroup]
    rw [← hlen, List.take_length, List.map_map]
    exact List.map_id _

theorem applyLoraProjectionDeltaRange_eq (range : LoraTokenRange) :
    applyLoraProjectionDeltaRange add projection scale input range.tokenOffset range.tokenLen out =
      addTokens add projection scale input range.tokens out := by
  unfold applyLoraProjectionDeltaRange
  split_ifs with hempty
  · rw [LoraTokenRange.tokens, hempty]
    rfl
  · rfl

theorem applyLoraProjectionDeltaIndexed_eq (tokenIndices : List ℤ) (tokenCount : ℕ) :
    applyLoraProjectionDeltaIndexed add projection scale input tokenIndices tokenCount out =
      addTokens add projection scale input ((tokenIndices.take tokenCount).map Int.toNat) out := by
  unfold applyLoraProjectionDeltaIndexed
  split_ifs with hempty
  · rw [hempty]
    rfl
  · rfl

namespace LoraModel

/-- one group's delta on the outputs -/
def addGroup (r : LoraModel B F) (add : DeviceLoraProjection B → F → X → Y → Y) (layerIdx : ℕ)
    (select : DeviceLoraLayer B → Option (DeviceLoraProjection B)) (owners : List (Option String)) (input : ℕ → X)
    (out : ℕ → Y) (name : String) : ℕ → Y := fun token =>
  if token ∈ ownedPlaces owners name then addSelected add (r.selected layerIdx select name) (input token) (out token)
  else out token

/-- whichever way a group is handed over, its adapter's delta goes to its adapter's tokens -/
theorem applyLoraTokenGroup_loaded (h : Attributed owners groups) (hgroup : group ∈ groups)
    {found : DeviceLoraLayer B × F} (hfound : r.loraLayerFor group.adapter layerIdx = some found) :
    r.applyLoraTokenGroup add layerIdx select input out group =
      .ok (r.addGroup add layerIdx select owners input out group.adapter) := by
  obtain ⟨layer, scale⟩ := found
  have hplaces : (ownedPlaces owners group.adapter).Nodup := ownedPlaces_pairwise.imp fun hlt => hlt.ne
  have hselected : r.selected layerIdx select group.adapter = (select layer).map fun matrices => (matrices, scale) := by
    rw [selected, hfound]
    rfl
  unfold applyLoraTokenGroup
  rw [hfound]
  dsimp only
  cases hselect : select layer with
  | none =>
    refine congrArg Except.ok (funext fun token => ?_)
    rw [addGroup, hselected, hselect]
    exact (ite_self _).symm
  | some matrices =>
    have hadd : addTokens add matrices scale input (ownedPlaces owners group.adapter) out =
        r.addGroup add layerIdx select owners input out group.adapter := by
      funext token
      rw [addTokens_apply hplaces, addGroup, hselected, hselect]
      rfl
    dsimp only
    rcases h.handed hgroup with ⟨range, hrange, htokens⟩ | ⟨tokenIndices, hindices, hmany, htokens⟩
    · rw [hrange]
      dsimp only
      rw [applyLoraProjectionDeltaRange_eq, htokens, hadd]
    · rw [hindices]
      rcases hranges : group.ranges with _ | ⟨range, _ | ⟨next, ranges⟩⟩
      · dsimp only
        rw [applyLoraProjectionDeltaIndexed_eq, htokens, hadd]
      · exact absurd (by rw [hranges]; rfl) hmany
      · dsimp only
        rw [applyLoraProjectionDeltaIndexed_eq, htokens, hadd]

theorem applyLoraTokenGroup_missing (hmissing : r.loraLayerFor group.adapter layerIdx = none) :
    r.applyLoraTokenGroup add layerIdx select input out group =
      .error ("Qwen3 LoRA adapter " ++ group.adapter ++ " is not loaded") := by
  unfold applyLoraTokenGroup
  rw [hmissing]

/-- the groups one after the other, while their adapters are loaded -/
theorem foldlM_applyLoraTokenGroup (h : Attributed owners groups) {some_groups : List DeviceLoraTokenGroup}
    (hsub : ∀ group ∈ some_groups, group ∈ groups) :
    some_groups.foldlM (r.applyLoraTokenGroup add layerIdx select input) out = .ok out' ↔
      (∀ group ∈ some_groups, r.loraLayerFor group.adapter layerIdx ≠ none) ∧
        out' =
          (some_groups.map DeviceLoraTokenGroup.adapter).foldl (r.addGroup add layerIdx select owners input) out := by
  induction some_groups generalizing out with
  | nil =>
    constructor
    · intro hok
      exact ⟨fun group hgroup => absurd hgroup List.not_mem_nil, (Except.ok.inj hok).symm⟩
    · rintro ⟨-, rfl⟩
      rfl
  | cons group rest ih =>
    obtain ⟨hgroup, hrest⟩ := List.forall_mem_cons.1 hsub
    rw [List.foldlM_cons, List.forall_mem_cons, bind_eq_ok]
    cases hfound : r.loraLayerFor group.adapter layerIdx with
    | none =>
      rw [applyLoraTokenGroup_missing hfound]
      refine iff_of_false ?_ fun hloaded => hloaded.1.1 rfl
      rintro ⟨_, herror, -⟩
      cases herror
    | some found =>
      rw [applyLoraTokenGroup_loaded h hgroup hfound]
      constructor
      · rintro ⟨next, hnext, hok⟩
        obtain rfl := Except.ok.inj hnext
        obtain ⟨hloaded, hout⟩ := (ih hrest).1 hok
        exact ⟨⟨Option.some_ne_none _, hloaded⟩, hout⟩
      · rintro ⟨⟨-, hloaded⟩, hout⟩
        exact ⟨_, rfl, (ih hrest).2 ⟨hloaded, hout⟩⟩

theorem foldl_addGroup_of_notMem {names : List String} {token : ℕ}
    (h : ∀ name ∈ names, owners[token]? ≠ some (some name)) :
    names.foldl (r.addGroup add layerIdx select owners input) out token = out token := by
  induction names generalizing out with
  | nil => rfl
  | cons first names ih =>
    obtain ⟨hfirst, hnames⟩ := List.forall_mem_cons.1 h
    rw [List.foldl_cons, ih hnames, addGroup, if_neg fun hmem => hfirst (mem_ownedPlaces.1 hmem)]

/-- among groups of different adapters a token is in its own one's only -/
theorem foldl_addGroup_of_mem {names : List String} {name : String} {token : ℕ} (honce : names.Nodup)
    (hname : name ∈ names) (howner : owners[token]? = some (some name)) :
    names.foldl (r.addGroup add layerIdx select owners input) out token =
      addSelected add (r.selected layerIdx select name) (input token) (out token) := by
  induction names generalizing out with
  | nil => exact absurd hname List.not_mem_nil
  | cons first names ih =>
    obtain ⟨hfirst, honce⟩ := List.nodup_cons.1 honce
    rw [List.foldl_cons]
    rcases List.mem_cons.1 hname with rfl | hlater
    · rw [foldl_addGroup_of_notMem, addGroup, if_pos (mem_ownedPlaces.2 howner)]
      intro other hother hsame
      obtain rfl := Option.some.inj (Option.some.inj (howner.symm.trans hsame))
      exact hfirst hother
    · rw [ih honce hlater, addGroup, if_neg]
      intro hmem
      obtain rfl := Option.some.inj (Option.some.inj (howner.symm.trans (mem_ownedPlaces.1 hmem)))
      exact hfirst hlater

/-- **Every token gets its own adapter's delta exactly once**, and a token without adapter none; the call fails where an
adapter of the batch is not loaded. -/
theorem applyLoraProjectionRanges_eq (h : Attributed owners groups) :
    r.applyLoraProjectionRanges add layerIdx select groups input out = .ok out' ↔
      (∀ name, some name ∈ owners → r.loraLayerFor name layerIdx ≠ none) ∧
        out' = r.perToken add layerIdx select owners input out := by
  have hloaded : (∀ group ∈ groups, r.loraLayerFor group.adapter layerIdx ≠ none) ↔
      ∀ name, some name ∈ owners → r.loraLayerFor name layerIdx ≠ none := by
    constructor
    · intro hall name hname
      obtain ⟨group, hgroup, rfl⟩ := List.mem_map.1 ((h.named name).2 hname)
      exact hall group hgroup
    · intro hall group hgroup
      exact hall _ ((h.named _).1 (List.mem_map.2 ⟨group, hgroup, rfl⟩))
  have hout : (groups.map DeviceLoraTokenGroup.adapter).foldl (r.addGroup add layerIdx select owners input) out =
      r.perToken add layerIdx select owners input out := by
    funext token
    rw [perToken]
    rcases howner : owners[token]? with _ | _ | name
    · rw [foldl_addGroup_of_notMem fun name _ hsome => by rw [howner] at hsome; cases hsome]
      rfl
    · rw [foldl_addGroup_of_notMem fun name _ hsome => by rw [howner] at hsome; cases hsome]
      rfl
    · rw [foldl_addGroup_of_mem h.once ((h.named name).2 (List.mem_of_getElem? howner)) howner]
      rfl
  rw [applyLoraProjectionRanges, foldlM_applyLoraTokenGroup h fun _ hgroup => hgroup, hloaded, hout]

end LoraModel

/-! ## The decode path -/

namespace LoraModel

def decodeLoraSlot (r : LoraModel B F) (adapter : Option String) : Except String ℤ :=
  match adapter with
  | some name =>
    match r.slotFor name with
    | some slot => .ok (asI32 slot)
    | none => .error ("Qwen3 LoRA adapter " ++ name ++ " is not loaded")
  | none => .ok (-1)

/-- the slots of the rows, if any of them has one -/
def decodeLoraSlots (r : LoraModel B F) (adapters : List (Option String)) : Except String (Option (List ℤ)) := do
  let slots ← adapters.mapM r.decodeLoraSlot
  .ok (if adapters.any fun adapter => decide (adapter ≠ none) then some slots else none)

/-- the decode kernel; `addSlot` is its arithmetic on one row in the buffers of a slot -/
def loraDecodeFusedDelta (addSlot : PackedLoraProjection B F → ℕ → X → Y → Y) (packed : PackedLoraProjection B F)
    (tokenSlots : List ℤ) (input : ℕ → X) (out : ℕ → Y) : ℕ → Y := fun token =>
  match tokenSlots[token]? with
  | some slot =>
    if slot < 0 ∨ (packed.maxLoras : ℤ) ≤ slot then out token else addSlot packed slot.toNat (input token) (out token)
  | none => out token

def packedLoraProjection (r : LoraModel B F) (layerIdx : ℕ) (kind : LoraProjectionKind) :
    Option (PackedLoraProjection B F) := r.packedLayers layerIdx kind

def applyDecodeLoraProjection (r : LoraModel B F) (addSlot : PackedLoraProjection B F → ℕ → X → Y → Y) (layerIdx : ℕ)
    (kind : LoraProjectionKind) (tokenSlots : List ℤ) (input : ℕ → X) (out : ℕ → Y) : ℕ → Y :=
  match r.packedLoraProjection layerIdx kind with
  | some packed => loraDecodeFusedDelta addSlot packed tokenSlots input out
  | none => out

/-- a projection's delta in a decode step -/
def decodeLoraBatch (r : LoraModel B F) (addSlot : PackedLoraProjection B F → ℕ → X → Y → Y) (layerIdx : ℕ)
    (kind : LoraProjectionKind) (adapters : List (Option String)) (input : ℕ → X) (out : ℕ → Y) :
    Except String (ℕ → Y) := do
  match ← r.decodeLoraSlots adapters with
  | some tokenSlots => .ok (r.applyDecodeLoraProjection addSlot layerIdx kind tokenSlots input out)
  | none => .ok out

variable {r : LoraModel B F} {layerIdx : ℕ} {kind : LoraProjectionKind}
  {adapters : List (Option String)} {name : String}

/-- the projection of a layer, as the layers of the grouped path are asked for it -/
theorem selected_eq {adapter : DeviceLoraAdapter B F} (hadapter : r.loraAdapters name = some adapter) :
    r.selected layerIdx (fun layer => layer kind) name =
      (adapter.projection layerIdx kind).map fun projection => (projection, adapter.scale) := by
  rw [selected, loraLayerFor, hadapter, DeviceLoraAdapter.projection, Option.bind_some]
  cases adapter.layers[layerIdx]? <;> rfl

theorem decodeLoraSlot_ok {adapter : Option String} {word : ℤ} :
    r.decodeLoraSlot adapter = .ok word ↔
      (adapter = none ∧ word = -1) ∨
        ∃ name slot, adapter = some name ∧ r.slotFor name = some slot ∧ word = asI32 slot := by
  rcases adapter with _ | name
  · simp [decodeLoraSlot, eq_comm]
  · cases hslot : r.slotFor name <;> simp [decodeLoraSlot, hslot, eq_comm]

/-- the slots of a batch whose adapters are all loaded -/
theorem decodeLoraSlots_ok {found : Option (List ℤ)} (h : r.decodeLoraSlots adapters = .ok found) :
    ∃ slots, List.Forall₂ (fun adapter word => r.decodeLoraSlot adapter = .ok word) adapters slots ∧
      found = if adapters.any fun adapter => decide (adapter ≠ none) then some slots else none := by
  obtain ⟨slots, hslots, h⟩ := bind_eq_ok.1 h
  exact ⟨slots, mapM_ok_iff.1 hslots, (Except.ok.inj h).symm⟩

theorem decodeLoraSlots_exists (h : ∀ name, some name ∈ adapters → r.slotFor name ≠ none) :
    ∃ found, r.decodeLoraSlots adapters = .ok found := by
  obtain ⟨slots, hslots⟩ : ∃ slots, adapters.mapM r.decodeLoraSlot = .ok slots := by
    refine mapM_exists fun adapter hadapter => ?_
    rcases adapter with _ | name
    · exact ⟨-1, rfl⟩
    · obtain ⟨slot, hslot⟩ := Option.ne_none_iff_exists'.1 (h name hadapter)
      exact ⟨asI32 slot, decodeLoraSlot_ok.2 (Or.inr ⟨name, slot, rfl, hslot, rfl⟩)⟩
  exact ⟨_, bind_eq_ok.2 ⟨slots, hslots, rfl⟩⟩

theorem slotFor_of_decodeLoraSlots {found : Option (List ℤ)} (h : r.decodeLoraSlots adapters = .ok found)
    (hname : some name ∈ adapters) : r.slotFor name ≠ none := by
  obtain ⟨slots, hslots, -⟩ := decodeLoraSlots_ok h
  obtain ⟨word, -, hword⟩ := forall₂_mem_left hslots _ hname
  rcases decodeLoraSlot_ok.1 hword with ⟨hnone, -⟩ | ⟨name', slot, hsame, hslot, -⟩
  · cases hnone
  · obtain rfl := Option.some.inj hsame
    rw [hslot]
    exact Option.some_ne_none _

end LoraModel

end Pegainfer.Qwen3
