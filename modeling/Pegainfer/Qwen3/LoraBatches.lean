/-
A batch's LoRA deltas by tokens, by groups and by packed slots.

The kernels are taken at their exact value `scale * B (A x)`: the grouped ones with the adapter's own matrices, the decode
one with those in the row's slot, over the rank of the buffers.
- `addSlotDelta_packed`: the product over a padded slot is the adapter's.
- `decodeLoraBatch_eq`: a decode batch gets each row's own adapter's delta.
- `lora_batched_application`: the groups of a batch, what they apply, and the same of a decode batch.
-/
import Mathlib.Tactic
import Pegainfer.Lib.FlatMatrix
import Pegainfer.Qwen3.LoraApply
import Pegainfer.Qwen3.LoraShapes

namespace Pegainfer.Qwen3

open Finset
open Pegainfer.Lib

variable {R : Type} [Semiring R]

/-! ## Kernels -/

/-- a token's output rows from `rowOffset` on, with `scale * B (A x)` added -/
def addDelta (rowOffset : ℕ) (projection : DeviceLoraProjection R) (scale : R) (x : List R) (y : ℕ → R) : ℕ → R :=
  fun row =>
    if rowOffset ≤ row ∧ row < rowOffset + projection.b.rows then
      y row + scale * (matVec projection.b.rows projection.b.cols projection.b.data
        (matVec projection.a.rows projection.a.cols projection.a.data x)).getD (row - rowOffset) 0
    else y row

/-- the same with the matrices of a slot, over the rank of the buffers -/
def addSlotDelta (rowOffset : ℕ) (p : PackedLoraProjection R R) (slot : ℕ) (x : List R) (y : ℕ → R) : ℕ → R :=
  fun row =>
    if rowOffset ≤ row ∧ row < rowOffset + p.outDim then
      y row + p.scales slot * ∑ k ∈ range p.rank, p.b (slot * p.bStride + ((row - rowOffset) * p.maxRank + k)) *
        ∑ c ∈ range p.inDim, p.a (slot * p.aStride + (k * p.inDim + c)) * x.getD c 0
    else y row

variable {rowOffset slot : ℕ} {p : PackedLoraProjection R R} {projection : DeviceLoraProjection R} {scale : R}
  {x : List R} {y : ℕ → R}

/-- an entry of A in the slot -/
theorem packed_a (hfits : projection.FitsIn p) (hslot : p.contents slot = projection.packed p.maxRank scale) {k c : ℕ}
    (hk : k < projection.a.rows) (hc : c < p.inDim) :
    p.a (slot * p.aStride + (k * p.inDim + c)) = projection.a.data.getD (k * projection.a.cols + c) 0 := by
  have hrow : k * p.inDim + c < projection.a.rows * p.inDim := by
    calc k * p.inDim + c < k * p.inDim + p.inDim := Nat.add_lt_add_left hc _
      _ = (k + 1) * p.inDim := (Nat.succ_mul k p.inDim).symm
      _ ≤ projection.a.rows * p.inDim := Nat.mul_le_mul_right _ hk
  have hstride : k * p.inDim + c < p.aStride := hrow.trans_le (Nat.mul_le_mul_right _ hfits.rank)
  have hentry := congrFun (congrArg Contents.a hslot) (k * p.inDim + c)
  rw [PackedLoraProjection.contents, DeviceLoraProjection.packed] at hentry
  dsimp only at hentry
  rw [if_pos hstride, hfits.input, if_pos hrow] at hentry
  rw [hentry, hfits.input]

/-- an entry of B in the slot: none past the adapter's rank -/
theorem packed_b (hfits : projection.FitsIn p) (hslot : p.contents slot = projection.packed p.maxRank scale) {i k : ℕ}
    (hi : i < p.outDim) (hk : k < p.maxRank) :
    p.b (slot * p.bStride + (i * p.maxRank + k)) =
      if k < projection.a.rows then projection.b.data.getD (i * projection.b.cols + k) 0 else 0 := by
  have hrow : i * p.maxRank + k < p.outDim * p.maxRank := by
    calc i * p.maxRank + k < i * p.maxRank + p.maxRank := Nat.add_lt_add_left hk _
      _ = (i + 1) * p.maxRank := (Nat.succ_mul i p.maxRank).symm
      _ ≤ p.outDim * p.maxRank := Nat.mul_le_mul_right _ hi
  have hmod : (i * p.maxRank + k) % p.maxRank = k := by rw [Nat.mul_add_mod_self_right, Nat.mod_eq_of_lt hk]
  have hdiv : (i * p.maxRank + k) / p.maxRank = i := by
    rw [Nat.mul_comm, Nat.mul_add_div (Nat.zero_lt_of_lt hk), Nat.div_eq_of_lt hk, Nat.add_zero]
  have hentry := congrFun (congrArg Contents.b hslot) (i * p.maxRank + k)
  rw [PackedLoraProjection.contents, DeviceLoraProjection.packed] at hentry
  dsimp only at hentry
  rw [if_pos (show i * p.maxRank + k < p.bStride from hrow), hfits.output, hmod, hdiv] at hentry
  rw [hentry, hfits.inner]
  exact if_congr (and_iff_right hrow) rfl rfl

/-- **Rank padding is harmless**: over the rank of the buffers the slot's product is the adapter's. -/
theorem addSlotDelta_packed (hranked : p.Ranked) (hfits : projection.FitsIn p)
    (hslot : p.contents slot = projection.packed p.maxRank scale) :
    addSlotDelta rowOffset p slot x y = addDelta rowOffset projection scale x y := by
  have hscale : p.scales slot = scale := congrArg Contents.scale hslot
  have hrank : projection.a.rows ≤ p.rank := by
    rw [show projection.a.rows = p.slotRanks.getD slot 0 from (congrArg Contents.rank hslot).symm]
    exact hranked.le_rank slot
  funext row
  unfold addSlotDelta addDelta
  rw [hfits.output, hscale]
  refine if_ctx_congr Iff.rfl (fun hrow => ?_) fun _ => rfl
  have hi : row - rowOffset < p.outDim := by omega
  congr 2
  rw [getD_matVec hi, hfits.inner]
  symm
  calc ∑ k ∈ range projection.a.rows, projection.b.data.getD ((row - rowOffset) * projection.a.rows + k) 0 *
        (matVec projection.a.rows projection.a.cols projection.a.data x).getD k 0
      = ∑ k ∈ range projection.a.rows, p.b (slot * p.bStride + ((row - rowOffset) * p.maxRank + k)) *
          ∑ c ∈ range p.inDim, p.a (slot * p.aStride + (k * p.inDim + c)) * x.getD c 0 := by
        refine sum_congr rfl fun k hk => ?_
        have hk := mem_range.1 hk
        rw [packed_b hfits hslot hi (hk.trans_le hfits.rank), if_pos hk, hfits.inner, getD_matVec hk, hfits.input]
        refine congrArg _ (sum_congr rfl fun c hc => ?_)
        rw [packed_a hfits hslot hk (mem_range.1 hc), hfits.input]
    _ = ∑ k ∈ range p.rank, p.b (slot * p.bStride + ((row - rowOffset) * p.maxRank + k)) *
          ∑ c ∈ range p.inDim, p.a (slot * p.aStride + (k * p.inDim + c)) * x.getD c 0 := by
        refine sum_subset (range_mono hrank) fun k hk hpast => ?_
        rw [packed_b hfits hslot hi ((mem_range.1 hk).trans_le hranked.rank_le),
          if_neg fun hlt => hpast (mem_range.2 hlt), zero_mul]

/-- an empty slot adds nothing -/
theorem addSlotDelta_zero (hslot : p.contents slot = .zero) : addSlotDelta rowOffset p slot x y = y := by
  have hscale : p.scales slot = 0 := congrArg Contents.scale hslot
  funext row
  unfold addSlotDelta
  rw [hscale, zero_mul, add_zero, ite_self]

/-! ## A decode batch -/

/-- what a slot is to hold for what the grouped path selects -/
def Contents.ofSelected (maxRank : ℕ) (selected : Option (DeviceLoraProjection R × R)) : Contents R R :=
  match selected with
  | some (projection, scale) => projection.packed maxRank scale
  | none => .zero

namespace LoraModel

variable {r : LoraModel R R} {layerIdx : ℕ} {kind : LoraProjectionKind}
  {adapters : List (Option String)} {name : String}

/-- an adapter is loaded for the one path exactly when it is for the other -/
theorem Consistent.loaded_iff (h : r.Consistent) (hlayer : layerIdx < r.numHiddenLayers) (name : String) :
    r.loraLayerFor name layerIdx ≠ none ↔ r.slotFor name ≠ none := by
  have hkeys := h.keys name
  rw [loraLayerFor, slotFor]
  cases hadapter : r.loraAdapters name with
  | none =>
    rw [hadapter] at hkeys
    refine iff_of_false (fun hne => hne rfl) fun hne => ?_
    obtain ⟨slot, hslot⟩ := Option.ne_none_iff_exists'.1 hne
    rw [hslot] at hkeys
    cases hkeys
  | some adapter =>
    rw [hadapter] at hkeys
    have hlt : layerIdx < adapter.layers.length := by rwa [h.layers name adapter hadapter]
    refine iff_of_true ?_ fun hnone => ?_
    · rw [Option.bind_some, List.getElem?_eq_getElem hlt]
      exact Option.some_ne_none _
    · rw [hnone] at hkeys
      cases hkeys

/-- a row's slot holds the matrices and the scale that the grouped path selects for its adapter -/
theorem Consistent.slot_contents (h : r.Consistent) (hlayer : layerIdx < r.numHiddenLayers) {slot : ℕ}
    (hslot : r.slotFor name = some slot) :
    slot < r.maxLoras ∧ r.contents layerIdx kind slot =
      .ofSelected r.maxLoraRank (r.selected layerIdx (fun layer => layer kind) name) := by
  have hkeys := h.keys name
  rw [show r.slotsByName name = some slot from hslot] at hkeys
  obtain ⟨adapter, hadapter⟩ := Option.isSome_iff_exists.1 hkeys
  refine ⟨h.toRegistered.slot_lt hslot, ?_⟩
  rw [h.packed slot name adapter hslot hadapter layerIdx hlayer kind, selected_eq hadapter, DeviceLoraAdapter.packed]
  cases adapter.projection layerIdx kind <;> rfl

/-- a projection without buffers is one the adapter does not have -/
theorem Consistent.selected_none (h : r.Consistent) (hlayer : layerIdx < r.numHiddenLayers) {slot : ℕ}
    (hslot : r.slotFor name = some slot) (hpacked : r.packedLayers layerIdx kind = none) :
    (some (some name)).join.bind (r.selected layerIdx fun layer => layer kind) = none := by
  have hkeys := h.keys name
  rw [show r.slotsByName name = some slot from hslot] at hkeys
  obtain ⟨adapter, hadapter⟩ := Option.isSome_iff_exists.1 hkeys
  change r.selected layerIdx (fun layer => layer kind) name = none
  rw [selected_eq hadapter]
  cases hprojection : adapter.projection layerIdx kind with
  | none => rfl
  | some projection =>
    obtain ⟨packed, hsome, -⟩ := h.fits name adapter hadapter layerIdx hlayer kind projection hprojection
    rw [hpacked] at hsome
    cases hsome

/-- the kernel's arithmetic in a row's slot is the grouped path's -/
theorem Consistent.addSlotDelta_eq (h : r.Consistent) (hlayer : layerIdx < r.numHiddenLayers) {slot : ℕ}
    (hslot : r.slotFor name = some slot) {packed : PackedLoraProjection R R}
    (hpacked : r.packedLayers layerIdx kind = some packed) :
    addSlotDelta rowOffset packed slot x y =
      addSelected (addDelta rowOffset) (r.selected layerIdx (fun layer => layer kind) name) x y := by
  have hkeys := h.keys name
  rw [show r.slotsByName name = some slot from hslot] at hkeys
  obtain ⟨adapter, hadapter⟩ := Option.isSome_iff_exists.1 hkeys
  have hcontents : r.contents layerIdx kind slot =
      .ofSelected r.maxLoraRank (r.selected layerIdx (fun layer => layer kind) name) := (h.slot_contents hlayer hslot).2
  rw [contents_of_packed hpacked] at hcontents
  obtain ⟨-, hmaxRank, -⟩ := h.fitting layerIdx kind packed hpacked
  rw [selected_eq hadapter] at hcontents ⊢
  cases hprojection : adapter.projection layerIdx kind with
  | none =>
    rw [hprojection] at hcontents
    exact addSlotDelta_zero hcontents
  | some projection =>
    rw [hprojection, ← hmaxRank] at hcontents
    obtain ⟨packed', hpacked', hfits⟩ := h.fits name adapter hadapter layerIdx hlayer kind projection hprojection
    obtain rfl := Option.some.inj (hpacked.symm.trans hpacked')
    exact addSlotDelta_packed (h.ranked layerIdx kind packed hpacked) hfits hcontents

/-- a row of a decode batch, in the slot it was given -/
theorem Consistent.decode_row (h : r.Consistent) (hwords : r.maxLoras ≤ 2 ^ 31) (hlayer : layerIdx < r.numHiddenLayers)
    {slots : List ℤ} (hslots : List.Forall₂ (fun adapter word => r.decodeLoraSlot adapter = .ok word) adapters slots)
    (input : ℕ → List R) (out : ℕ → ℕ → R) (token : ℕ) :
    r.applyDecodeLoraProjection (addSlotDelta rowOffset) layerIdx kind slots input out token =
      r.perToken (addDelta rowOffset) layerIdx (fun layer => layer kind) adapters input out token := by
  have hlen := hslots.length_eq
  rw [applyDecodeLoraProjection, perToken, packedLoraProjection]
  rcases hadapter : adapters[token]? with _ | adapter
  · have hnone : slots[token]? = none := by
      rw [List.getElem?_eq_none_iff] at hadapter ⊢
      omega
    cases r.packedLayers layerIdx kind with
    | none => rfl
    | some packed =>
      simp only [loraDecodeFusedDelta, hnone]
      rfl
  · obtain ⟨word, hword, hrow⟩ := forall₂_getElem? hslots hadapter
    rcases decodeLoraSlot_ok.1 hrow with ⟨rfl, hnone⟩ | ⟨name, slot, rfl, hslot, hsome⟩
    · rw [hnone] at hword
      cases r.packedLayers layerIdx kind with
      | none => rfl
      | some packed =>
        simp only [loraDecodeFusedDelta, hword]
        rfl
    · have hlt : slot < r.maxLoras := h.toRegistered.slot_lt hslot
      rw [hsome, asI32_of_lt (hlt.trans_le hwords)] at hword
      cases hpacked : r.packedLayers layerIdx kind with
      | none =>
        rw [h.selected_none hlayer hslot hpacked]
        rfl
      | some packed =>
        obtain ⟨hmaxLoras, -, -⟩ := h.fitting layerIdx kind packed hpacked
        have hin : ¬ ((slot : ℤ) < 0 ∨ (packed.maxLoras : ℤ) ≤ slot) := by omega
        simp only [loraDecodeFusedDelta, hword, if_neg hin, Int.toNat_natCast]
        exact h.addSlotDelta_eq hlayer hslot hpacked

theorem perToken_none {input : ℕ → List R} {out : ℕ → ℕ → R}
    {select : DeviceLoraLayer R → Option (DeviceLoraProjection R)}
    (h : ∀ name, some name ∉ adapters) : r.perToken (addDelta rowOffset) layerIdx select adapters input out = out := by
  funext token
  rw [perToken]
  rcases hadapter : adapters[token]? with _ | _ | name
  · rfl
  · rfl
  · exact absurd (List.mem_of_getElem? hadapter) (h name)

/-- **Every row of a decode batch gets its own adapter's delta**, and a row without adapter none; the call fails where an
adapter of the batch is not loaded. -/
theorem Consistent.decodeLoraBatch_eq (h : r.Consistent) (hwords : r.maxLoras ≤ 2 ^ 31)
    (hlayer : layerIdx < r.numHiddenLayers) {input : ℕ → List R} {out out' : ℕ → ℕ → R} :
    r.decodeLoraBatch (addSlotDelta rowOffset) layerIdx kind adapters input out = .ok out' ↔
      (∀ name, some name ∈ adapters → r.loraLayerFor name layerIdx ≠ none) ∧
        out' = r.perToken (addDelta rowOffset) layerIdx (fun layer => layer kind) adapters input out := by
  have hbatch : ∀ found, r.decodeLoraSlots adapters = .ok found →
      r.decodeLoraBatch (addSlotDelta rowOffset) layerIdx kind adapters input out =
        .ok (r.perToken (addDelta rowOffset) layerIdx (fun layer => layer kind) adapters input out) := by
    intro found hfound
    obtain ⟨slots, hslots, hany⟩ := decodeLoraSlots_ok hfound
    refine bind_eq_ok.2 ⟨found, hfound, ?_⟩
    by_cases hsome : adapters.any fun adapter => decide (adapter ≠ none)
    · rw [hany, if_pos hsome]
      exact congrArg Except.ok (funext fun token => h.decode_row hwords hlayer hslots input out token)
    · rw [hany, if_neg hsome]
      refine congrArg Except.ok (perToken_none fun name hname => hsome ?_).symm
      exact List.any_eq_true.2 ⟨some name, hname, decide_eq_true (Option.some_ne_none name)⟩
  constructor
  · intro hok
    obtain ⟨found, hfound, -⟩ := bind_eq_ok.1 hok
    rw [hbatch found hfound] at hok
    refine ⟨fun name hname => ?_, (Except.ok.inj hok).symm⟩
    exact (h.loaded_iff hlayer name).2 (slotFor_of_decodeLoraSlots hfound hname)
  · rintro ⟨hloaded, rfl⟩
    obtain ⟨found, hfound⟩ := decodeLoraSlots_exists fun name hname => (h.loaded_iff hlayer name).1 (hloaded name hname)
    exact hbatch found hfound

end LoraModel

/-! ## Batches -/

/-- a decode batch's slots: `-1` for a row without adapter, and for one with an adapter the slot that holds what the
grouped path selects -/
def LoraModel.SlotsSelect (r : LoraModel R R) (layerIdx : ℕ) (kind : LoraProjectionKind)
    (adapters : List (Option String)) (slots : List ℤ) : Prop :=
  slots.length = adapters.length ∧ ∀ (row : ℕ) (adapter : Option String), adapters[row]? = some adapter →
    (adapter = none → slots[row]? = some (-1)) ∧
    ∀ name, adapter = some name → ∃ slot : ℕ, slots[row]? = some (slot : ℤ) ∧ slot < r.maxLoras ∧
      r.contents layerIdx kind slot =
        .ofSelected r.maxLoraRank (r.selected layerIdx (fun layer => layer kind) name)

theorem LoraModel.Consistent.slotsSelect {r : LoraModel R R} {layerIdx : ℕ} (h : r.Consistent)
    (hwords : r.maxLoras ≤ 2 ^ 31) (hlayer : layerIdx < r.numHiddenLayers) (kind : LoraProjectionKind)
    {adapters : List (Option String)} {slots : List ℤ} (hslots : r.decodeLoraSlots adapters = .ok (some slots)) :
    r.SlotsSelect layerIdx kind adapters slots := by
  obtain ⟨found, heach, hfound⟩ := decodeLoraSlots_ok hslots
  split_ifs at hfound with hany
  obtain rfl := Option.some.inj hfound
  refine ⟨heach.length_eq.symm, fun row adapter hadapter => ?_⟩
  obtain ⟨word, hword, hrow⟩ := forall₂_getElem? heach hadapter
  rcases decodeLoraSlot_ok.1 hrow with ⟨hnone, hempty⟩ | ⟨name, slot, hsome, hslot, hbound⟩
  · refine ⟨fun _ => by rw [hword, hempty], fun name hname => ?_⟩
    rw [hnone] at hname
    cases hname
  · refine ⟨fun hnone => ?_, fun other hother => ?_⟩
    · rw [hnone] at hsome
      cases hsome
    · obtain rfl := Option.some.inj (hsome.symm.trans hother)
      obtain ⟨hlt, hcontents⟩ := h.slot_contents hlayer hslot
      refine ⟨slot, ?_, hlt, hcontents⟩
      rw [hword, hbound, asI32_of_lt (hlt.trans_le hwords)]

/-- **Batched LoRA is per-token LoRA.** The groups of a batch name each adapter with tokens once, with exactly its tokens
in order for either kernel; applying them gives every token its own adapter's delta once; and a decode batch's slots
select what the groups would, and give the same outputs. -/
theorem lora_batched_application {seqLens : List ℕ} {adapters : List (Option String)}
    {copyError : List ℤ → Option String} {groups : List DeviceLoraTokenGroup}
    (hprepared : prepareLoraTokenGroups copyError (buildLoraTokenRanges seqLens adapters) = .ok groups)
    (htokens : (tokenAdapters (seqLens.zip adapters)).length ≤ 2 ^ 31) :
    Attributed (tokenAdapters (seqLens.zip adapters)) groups ∧
      (∀ (r : LoraModel R R) (rowOffset layerIdx : ℕ) (select : DeviceLoraLayer R → Option (DeviceLoraProjection R))
        (input : ℕ → List R) (out out' : ℕ → ℕ → R),
        r.applyLoraProjectionRanges (addDelta rowOffset) layerIdx select groups input out = .ok out' ↔
          (∀ name, some name ∈ tokenAdapters (seqLens.zip adapters) → r.loraLayerFor name layerIdx ≠ none) ∧
            out' = r.perToken (addDelta rowOffset) layerIdx select (tokenAdapters (seqLens.zip adapters)) input out) ∧
      ∀ r : LoraModel R R, r.Consistent → r.maxLoras ≤ 2 ^ 31 → seqLens = List.replicate adapters.length 1 →
        ∀ layerIdx < r.numHiddenLayers, ∀ kind,
          (∀ slots, r.decodeLoraSlots adapters = .ok (some slots) → r.SlotsSelect layerIdx kind adapters slots) ∧
          ∀ (rowOffset : ℕ) (input : ℕ → List R) (out out' : ℕ → ℕ → R),
            r.decodeLoraBatch (addSlotDelta rowOffset) layerIdx kind adapters input out = .ok out' ↔
              r.applyLoraProjectionRanges (addDelta rowOffset) layerIdx (fun layer => layer kind) groups input out =
                .ok out' := by
  have hattributed :=
    prepareLoraTokenGroups_attributed (buildLoraTokenRanges_describes seqLens adapters) htokens hprepared
  refine ⟨hattributed, fun r rowOffset layerIdx select input out out' => ?_, ?_⟩
  · exact LoraModel.applyLoraProjectionRanges_eq hattributed
  · intro r hr hslots hones layerIdx hlayer kind
    refine ⟨fun slots hok => hr.slotsSelect hslots hlayer kind hok, fun rowOffset input out out' => ?_⟩
    rw [hr.decodeLoraBatch_eq hslots hlayer, LoraModel.applyLoraProjectionRanges_eq hattributed, hones,
      tokenAdapters_ones]

/-- two rows of one adapter around one without, in a rank that has loaded it -/
theorem lora_batched_application_sql :
    ∃ r : LoraModel ℕ ℕ, r.Consistent ∧ r.slotFor "sql" = some 0 ∧ ∃ groups,
      prepareLoraTokenGroups (fun _ => none) (buildLoraTokenRanges [1, 1, 1] [some "sql", none, some "sql"]) = .ok groups ∧
      Attributed [some "sql", none, some "sql"] groups ∧
      ∀ (rowOffset : ℕ) (input : ℕ → List ℕ) (out out' : ℕ → ℕ → ℕ),
        r.decodeLoraBatch (addSlotDelta rowOffset) 0 .q [some "sql", none, some "sql"] input out = .ok out' ↔
          r.applyLoraProjectionRanges (addDelta rowOffset) 0 (fun layer => layer .q) groups input out = .ok out' := by
  have hprepared : prepareLoraTokenGroups (fun _ => none) (buildLoraTokenRanges [1, 1, 1] [some "sql", none, some "sql"]) =
      .ok [⟨"sql", [⟨"sql", 0, 1⟩, ⟨"sql", 2, 1⟩], 2, some [0, 2]⟩] := rfl
  have hconsistent : ∀ r ∈ (LoraRanks.call (LoraRanks.new 1 1 1 1) LoraRanks.sampleLoad).2.ranks, r.Consistent := by
    refine LoraRanks.lora_ranks_consistent 1 1 1 1 (by decide) [LoraRanks.sampleLoad] _ ⟨⟨trivial, ?_⟩, ?_⟩ rfl
    · rintro shard ⟨⟩ rank
      rfl
    · exact fun _ _ => trivial
  have hr := hconsistent _ List.mem_cons_self
  refine ⟨_, hr, rfl, _, hprepared, (lora_batched_application hprepared (by decide) (R := ℕ)).1, ?_⟩
  exact ((lora_batched_application hprepared (by decide)).2.2 _ hr (by decide) rfl 0 Nat.one_pos .q).2

/-- a rank with more slots than an `i32` numbers, and an adapter without layers in the last one -/
def crowdedRank : LoraModel ℕ ℕ where
  numHiddenLayers := 0
  maxLoras := 2147483649
  maxLoraRank := 1
  loraAdapters name := if name = "a" then some ⟨"a", 0, []⟩ else none
  slotsByName name := if name = "a" then some 2147483648 else none
  slotNames := List.replicate 2147483648 none ++ [some "a"]
  packedLayers _ _ := none

theorem crowdedRank_consistent : crowdedRank.Consistent where
  fitting _ _ _ h := by cases h
  slots := by rw [crowdedRank, List.length_append, List.length_replicate, List.length_singleton]
  inverse name slot := by
    change (if name = "a" then some 2147483648 else none) = some slot ↔
      (List.replicate 2147483648 none ++ [some "a"])[slot]? = some (some name)
    rw [List.getElem?_append, List.length_replicate, List.getElem?_replicate]
    rcases lt_trichotomy slot 2147483648 with hlt | rfl | hgt
    · rw [if_pos hlt, if_pos hlt]
      refine iff_of_false (fun h => ?_) fun h => by cases h
      split_ifs at h
      obtain rfl := Option.some.inj h
      exact lt_irrefl _ hlt
    · rw [if_neg (lt_irrefl _), Nat.sub_self]
      by_cases hname : name = "a"
      · rw [if_pos hname, hname]
        exact iff_of_true rfl rfl
      · rw [if_neg hname]
        refine iff_of_false (fun h => by cases h) fun h => ?_
        exact hname (Option.some.inj (Option.some.inj h)).symm
    · rw [if_neg (not_lt_of_gt hgt), List.getElem?_eq_none (by rw [List.length_singleton]; omega)]
      refine iff_of_false (fun h => ?_) fun h => by cases h
      split_ifs at h
      obtain rfl := Option.some.inj h
      exact lt_irrefl _ hgt
  keys name := by
    change (if name = "a" then some (⟨"a", 0, []⟩ : DeviceLoraAdapter ℕ ℕ) else none).isSome =
      (if name = "a" then some 2147483648 else none).isSome
    split_ifs
    · rfl
    · rfl
  named name adapter h := by
    change (if name = "a" then some (⟨"a", 0, []⟩ : DeviceLoraAdapter ℕ ℕ) else none) = some adapter at h
    split_ifs at h with hname
    obtain rfl := Option.some.inj h
    exact hname.symm
  packed _ _ _ _ _ _ hlayer := absurd hlayer (Nat.not_lt_zero _)
  hidden := rfl
  ranked _ _ _ h := by cases h
  layers name adapter h := by
    change (if name = "a" then some (⟨"a", 0, []⟩ : DeviceLoraAdapter ℕ ℕ) else none) = some adapter at h
    split_ifs at h
    obtain rfl := Option.some.inj h
    rfl
  fits _ _ _ _ hlayer := absurd hlayer (Nat.not_lt_zero _)

/-- an adapter of empty sequences only has no group; indices and slots from `2 ^ 31` on wrap below zero -/
theorem lora_groups_skip_and_wrap :
    prepareLoraTokenGroups (fun _ => none) (buildLoraTokenRanges [0] [some "a"]) = .ok [] ∧
      prepareLoraTokenGroups (fun _ => none)
          (buildLoraTokenRanges [1, 2147483647, 1] [some "a", some "b", some "a"]) =
        .ok [⟨"a", [⟨"a", 0, 1⟩, ⟨"a", 2147483648, 1⟩], 2, some [0, -2147483648]⟩,
          ⟨"b", [⟨"b", 1, 2147483647⟩], 2147483647, none⟩] ∧
      crowdedRank.Consistent ∧ crowdedRank.slotFor "a" = some 2147483648 ∧
      crowdedRank.decodeLoraSlots [some "a"] = .ok (some [-2147483648]) :=
  ⟨rfl, rfl, crowdedRank_consistent, rfl, rfl⟩

end Pegainfer.Qwen3
