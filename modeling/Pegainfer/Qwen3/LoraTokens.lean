/-
The tokens of a batch that each LoRA adapter is applied to.

A batch's sequences lie one after the other. Ranges of tokens are built for the sequences that name an adapter, adjacent
ones of one adapter as one range; a group gathers an adapter's ranges. A group of one range is applied in place, a group
of several through the indices of its tokens.
- `buildLoraTokenRanges_describes`: the ranges are ascending and hold each adapter's tokens, and no others.
- `unifiedLoraTokenRanges_describes`: so do those of a step with prefill and decode rows.
- `groupLoraTokenRanges_grouped`: one group to an adapter, with all its ranges.
- `Attributed`: what a batch's groups are; `prepareLoraTokenGroups_attributed`.
-/
import Mathlib.Tactic
import Pegainfer.Lib.Fallible
import Pegainfer.Lib.Owners
import Pegainfer.Lib.Words

namespace Pegainfer.Qwen3

open Pegainfer.Lib

/-! ## Model -/

structure LoraTokenRange where
  adapter : String
  tokenOffset : ℕ
  tokenLen : ℕ
deriving DecidableEq, Repr

/-- `token_offset..token_offset + token_len` -/
def LoraTokenRange.tokens (range : LoraTokenRange) : List ℕ := List.range' range.tokenOffset range.tokenLen

structure LoraTokenGroup where
  adapter : String
  ranges : List LoraTokenRange
  tokenCount : ℕ
deriving DecidableEq, Repr

structure DeviceLoraTokenGroup where
  adapter : String
  ranges : List LoraTokenRange
  tokenCount : ℕ
  tokenIndices : Option (List ℤ)
deriving DecidableEq, Repr

/-- one sequence's tokens: the last range grows if it is the adapter's and ends here -/
def pushTokenRange (ranges : List LoraTokenRange) (tokenOffset seqLen : ℕ) (adapter : Option String) :
    List LoraTokenRange :=
  match adapter with
  | some adapter =>
    if 0 < seqLen then
      match ranges.getLast? with
      | some prev =>
        if prev.adapter = adapter ∧ prev.tokenOffset + prev.tokenLen = tokenOffset then
          ranges.dropLast ++ [{ prev with tokenLen := prev.tokenLen + seqLen }]
        else ranges ++ [⟨adapter, tokenOffset, seqLen⟩]
      | none => [⟨adapter, tokenOffset, seqLen⟩]
    else ranges
  | none => ranges

/-- the loop over the sequences, with the ranges so far and the token offset -/
def buildLoraTokenRanges (seqLens : List ℕ) (adapters : List (Option String)) : List LoraTokenRange :=
  ((seqLens.zip adapters).foldl (fun s seq => (pushTokenRange s.1 s.2 seq.1 seq.2, s.2 + seq.1)) ([], 0)).1

/-- a range joins the first group of its adapter, or opens one -/
def pushGroupRange (range : LoraTokenRange) : List LoraTokenGroup → List LoraTokenGroup
  | [] => [⟨range.adapter, [range], range.tokenLen⟩]
  | group :: groups =>
    if group.adapter = range.adapter then
      { group with tokenCount := group.tokenCount + range.tokenLen, ranges := group.ranges ++ [range] } :: groups
    else group :: pushGroupRange range groups

def groupLoraTokenRanges (ranges : List LoraTokenRange) : List LoraTokenGroup :=
  ranges.foldl (fun groups range => pushGroupRange range groups) []

/-- a group on the device; `copyError` is the driver's error of a copy, if it fails -/
def prepareLoraTokenGroup (copyError : List ℤ → Option String) (group : LoraTokenGroup) :
    Except String DeviceLoraTokenGroup :=
  if group.ranges.length = 1 then .ok ⟨group.adapter, group.ranges, group.tokenCount, none⟩
  else
    let tokenIndices := (group.ranges.flatMap LoraTokenRange.tokens).map asI32
    match copyError tokenIndices with
    | some e => .error ("LoRA indexed token copy failed: " ++ e)
    | none => .ok ⟨group.adapter, group.ranges, group.tokenCount, some tokenIndices⟩

def prepareLoraTokenGroups (copyError : List ℤ → Option String) (ranges : List LoraTokenRange) :
    Except String (List DeviceLoraTokenGroup) := (groupLoraTokenRanges ranges).mapM (prepareLoraTokenGroup copyError)

/-- the ranges of a step with prefill and decode rows: the decode rows behind the prefill tokens -/
def unifiedLoraTokenRanges (prefillLens : List ℕ) (prefillAdapters decodeAdapters : List (Option String)) :
    List LoraTokenRange :=
  buildLoraTokenRanges prefillLens prefillAdapters ++
    (buildLoraTokenRanges (List.replicate decodeAdapters.length 1) decodeAdapters).map fun range =>
      { range with tokenOffset := range.tokenOffset + prefillLens.sum }

/-! ## The tokens of a batch -/

/-- the adapter of each token -/
def tokenAdapters (sequences : List (ℕ × Option String)) : List (Option String) :=
  sequences.flatMap fun seq => List.replicate seq.1 seq.2

/-- the ranges of one adapter -/
def rangesOf (ranges : List LoraTokenRange) (adapter : String) : List LoraTokenRange :=
  ranges.filter fun range => decide (range.adapter = adapter)

/-- the ranges are in order and hold the tokens of the adapters -/
structure Describes (owners : List (Option String)) (ranges : List LoraTokenRange) : Prop where
  ascending : ranges.Pairwise fun range next => range.tokenOffset + range.tokenLen ≤ next.tokenOffset
  positive : ∀ range ∈ ranges, 0 < range.tokenLen
  within : ∀ range ∈ ranges, range.tokenOffset + range.tokenLen ≤ owners.length
  places : ∀ adapter, (rangesOf ranges adapter).flatMap LoraTokenRange.tokens = ownedPlaces owners adapter

variable {owners : List (Option String)} {ranges : List LoraTokenRange} {seqLen : ℕ} {adapter : String}

theorem rangesOf_append (ranges more : List LoraTokenRange) (adapter : String) :
    rangesOf (ranges ++ more) adapter = rangesOf ranges adapter ++ rangesOf more adapter := List.filter_append ..

theorem rangesOf_singleton (range : LoraTokenRange) (adapter : String) :
    rangesOf [range] adapter = if range.adapter = adapter then [range] else [] := by
  rw [rangesOf, List.filter_cons, List.filter_nil]
  exact if_congr decide_eq_true_iff rfl rfl

/-- tokens of no adapter -/
theorem Describes.skip (h : Describes owners ranges) (n : ℕ) : Describes (owners ++ List.replicate n none) ranges where
  ascending := h.ascending
  positive := h.positive
  within range hrange := by
    rw [List.length_append]
    exact (h.within range hrange).trans (Nat.le_add_right _ _)
  places adapter := by
    rw [ownedPlaces_append_replicate, if_neg (by simp), List.append_nil]
    exact h.places adapter

/-- a range of its own -/
theorem Describes.push (h : Describes owners ranges) (hlen : 0 < seqLen) (adapter : String) :
    Describes (owners ++ List.replicate seqLen (some adapter)) (ranges ++ [⟨adapter, owners.length, seqLen⟩]) where
  ascending := by
    refine List.pairwise_append.2 ⟨h.ascending, List.pairwise_singleton _ _, fun range hrange next hnext => ?_⟩
    obtain rfl := List.mem_singleton.1 hnext
    exact h.within range hrange
  positive range hrange := by
    rcases List.mem_append.1 hrange with hrange | hrange
    · exact h.positive range hrange
    · obtain rfl := List.mem_singleton.1 hrange
      exact hlen
  within range hrange := by
    rw [List.length_append, List.length_replicate]
    rcases List.mem_append.1 hrange with hrange | hrange
    · exact (h.within range hrange).trans (Nat.le_add_right _ _)
    · obtain rfl := List.mem_singleton.1 hrange
      exact le_refl _
  places other := by
    rw [rangesOf_append, List.flatMap_append, h.places, ownedPlaces_append_replicate, rangesOf_singleton]
    congr 1
    by_cases hother : adapter = other
    · rw [if_pos hother, if_pos (congrArg some hother), List.flatMap_singleton]
      rfl
    · rw [if_neg hother, if_neg fun heq => hother (Option.some.inj heq), List.flatMap_nil]

/-- more tokens for the last range -/
theorem Describes.grow {prev : LoraTokenRange} (h : Describes owners (ranges ++ [prev]))
    (hend : prev.tokenOffset + prev.tokenLen = owners.length) :
    Describes (owners ++ List.replicate seqLen (some prev.adapter))
      (ranges ++ [{ prev with tokenLen := prev.tokenLen + seqLen }]) where
  ascending := by
    obtain ⟨hranges, -, hbefore⟩ := List.pairwise_append.1 h.ascending
    refine List.pairwise_append.2 ⟨hranges, List.pairwise_singleton _ _, fun range hrange next hnext => ?_⟩
    obtain rfl := List.mem_singleton.1 hnext
    exact hbefore range hrange prev (List.mem_singleton_self prev)
  positive range hrange := by
    rcases List.mem_append.1 hrange with hrange | hrange
    · exact h.positive range (List.mem_append_left _ hrange)
    · obtain rfl := List.mem_singleton.1 hrange
      exact Nat.add_pos_left (h.positive prev (List.mem_append_right _ (List.mem_singleton_self prev))) _
  within range hrange := by
    rw [List.length_append, List.length_replicate]
    rcases List.mem_append.1 hrange with hrange | hrange
    · exact (h.within range (List.mem_append_left _ hrange)).trans (Nat.le_add_right _ _)
    · obtain rfl := List.mem_singleton.1 hrange
      rw [← Nat.add_assoc, hend]
  places other := by
    rw [ownedPlaces_append_replicate, ← h.places other, rangesOf_append, rangesOf_append, List.flatMap_append,
      List.flatMap_append, List.append_assoc, rangesOf_singleton, rangesOf_singleton]
    congr 1
    by_cases hother : prev.adapter = other
    · rw [if_pos hother, if_pos hother, if_pos (congrArg some hother), List.flatMap_singleton, List.flatMap_singleton,
        ← hend]
      exact (List.range'_append_1 ..).symm
    · rw [if_neg hother, if_neg hother, if_neg fun heq => hother (Option.some.inj heq)]
      rfl

theorem pushTokenRange_describes (h : Describes owners ranges) (seqLen : ℕ) (adapter : Option String) :
    Describes (owners ++ List.replicate seqLen adapter) (pushTokenRange ranges owners.length seqLen adapter) := by
  rcases adapter with _ | adapter
  · exact h.skip seqLen
  · unfold pushTokenRange
    dsimp only
    split_ifs with hlen
    · rcases List.eq_nil_or_concat' ranges with rfl | ⟨before, prev, rfl⟩
      · exact h.push hlen adapter
      · rw [List.getLast?_concat]
        dsimp only
        split_ifs with hprev
        · obtain ⟨rfl, hend⟩ := hprev
          rw [List.dropLast_concat]
          exact h.grow hend
        · exact h.push hlen adapter
    · obtain rfl : seqLen = 0 := by omega
      rw [List.replicate_zero, List.append_nil]
      exact h

/-- **The ranges of a batch describe its tokens.** -/
theorem buildLoraTokenRanges_describes (seqLens : List ℕ) (adapters : List (Option String)) :
    Describes (tokenAdapters (seqLens.zip adapters)) (buildLoraTokenRanges seqLens adapters) := by
  have hrun : ∀ (sequences : List (ℕ × Option String)) (owners : List (Option String)) (ranges : List LoraTokenRange),
      Describes owners ranges → Describes (owners ++ tokenAdapters sequences)
        (sequences.foldl (fun s seq => (pushTokenRange s.1 s.2 seq.1 seq.2, s.2 + seq.1))
          (ranges, owners.length)).1 := by
    intro sequences
    induction sequences with
    | nil =>
      intro owners ranges h
      rw [tokenAdapters, List.flatMap_nil, List.append_nil]
      exact h
    | cons seq sequences ih =>
      intro owners ranges h
      have hstep := ih _ _ (pushTokenRange_describes h seq.1 seq.2)
      rw [List.length_append, List.length_replicate, List.append_assoc] at hstep
      exact hstep
  refine hrun (seqLens.zip adapters) [] [] ⟨List.Pairwise.nil, ?_, ?_, fun adapter => rfl⟩
  · exact fun range hrange => absurd hrange List.not_mem_nil
  · exact fun range hrange => absurd hrange List.not_mem_nil

/-- two batches, one behind the other -/
theorem Describes.append {more : List (Option String)} {others : List LoraTokenRange} (h : Describes owners ranges)
    (hmore : Describes more others) :
    Describes (owners ++ more) (ranges ++ others.map fun range =>
      { range with tokenOffset := range.tokenOffset + owners.length }) where
  ascending := by
    refine List.pairwise_append.2 ⟨h.ascending, ?_, fun range hrange next hnext => ?_⟩
    · refine hmore.ascending.map _ fun range next hle => ?_
      dsimp only
      omega
    · obtain ⟨next, -, rfl⟩ := List.mem_map.1 hnext
      exact (h.within range hrange).trans (Nat.le_add_left _ _)
  positive range hrange := by
    rcases List.mem_append.1 hrange with hrange | hrange
    · exact h.positive range hrange
    · obtain ⟨source, hsource, rfl⟩ := List.mem_map.1 hrange
      exact hmore.positive source hsource
  within range hrange := by
    rw [List.length_append]
    rcases List.mem_append.1 hrange with hrange | hrange
    · exact (h.within range hrange).trans (Nat.le_add_right _ _)
    · obtain ⟨source, hsource, rfl⟩ := List.mem_map.1 hrange
      have := hmore.within source hsource
      dsimp only
      omega
  places adapter := by
    have hshift : (rangesOf (others.map fun range => { range with tokenOffset := range.tokenOffset + owners.length })
        adapter).flatMap LoraTokenRange.tokens =
        ((rangesOf others adapter).flatMap LoraTokenRange.tokens).map (owners.length + ·) := by
      rw [rangesOf, List.filter_map, List.flatMap_map, List.map_flatMap]
      refine List.flatMap_congr fun range _ => ?_
      rw [LoraTokenRange.tokens, LoraTokenRange.tokens, List.map_add_range', Nat.add_comm]
    rw [rangesOf_append, List.flatMap_append, h.places, hshift, hmore.places, ownedPlaces_append]

theorem length_tokenAdapters {seqLens : List ℕ} {adapters : List (Option String)}
    (h : seqLens.length = adapters.length) : (tokenAdapters (seqLens.zip adapters)).length = seqLens.sum := by
  have hlens : (seqLens.zip adapters).map Prod.fst = seqLens := List.map_fst_zip h.le
  rw [tokenAdapters, List.length_flatMap]
  conv_rhs => rw [← hlens]
  exact congrArg List.sum (List.map_congr_left fun seq _ => List.length_replicate)

/-- sequences of one token each -/
theorem tokenAdapters_ones (adapters : List (Option String)) :
    tokenAdapters ((List.replicate adapters.length 1).zip adapters) = adapters := by
  induction adapters with
  | nil => rfl
  | cons adapter adapters ih =>
    rw [List.length_cons, List.replicate_succ, List.zip_cons_cons, tokenAdapters, List.flatMap_cons,
      ← tokenAdapters, ih]
    rfl

/-- **The ranges of a mixed step describe its prefill tokens and its decode rows.** -/
theorem unifiedLoraTokenRanges_describes {prefillLens : List ℕ} {prefillAdapters : List (Option String)}
    (h : prefillLens.length = prefillAdapters.length) (decodeAdapters : List (Option String)) :
    Describes (tokenAdapters (prefillLens.zip prefillAdapters) ++ decodeAdapters)
      (unifiedLoraTokenRanges prefillLens prefillAdapters decodeAdapters) := by
  have hdecode := buildLoraTokenRanges_describes (List.replicate decodeAdapters.length 1) decodeAdapters
  rw [tokenAdapters_ones] at hdecode
  have hboth := (buildLoraTokenRanges_describes prefillLens prefillAdapters).append hdecode
  rw [length_tokenAdapters h] at hboth
  exact hboth

/-- the tokens of a range are the adapter's -/
theorem Describes.owner (h : Describes owners ranges) {range : LoraTokenRange} (hrange : range ∈ ranges) {token : ℕ}
    (htoken : token ∈ range.tokens) : owners[token]? = some (some range.adapter) := by
  rw [← mem_ownedPlaces, ← h.places]
  exact List.mem_flatMap.2 ⟨range, List.mem_filter.2 ⟨hrange, decide_eq_true rfl⟩, htoken⟩

/-- an adapter has a range if and only if it has a token -/
theorem Describes.exists_range (h : Describes owners ranges) (adapter : String) :
    (∃ range ∈ ranges, range.adapter = adapter) ↔ some adapter ∈ owners := by
  constructor
  · rintro ⟨range, hrange, rfl⟩
    have hfirst : range.tokenOffset ∈ range.tokens :=
      List.mem_range'_1.2 ⟨le_refl _, Nat.lt_add_of_pos_right (h.positive range hrange)⟩
    exact List.mem_of_getElem? (h.owner hrange hfirst)
  · intro howner
    obtain ⟨token, htoken⟩ := List.mem_iff_getElem?.1 howner
    rw [← mem_ownedPlaces, ← h.places] at htoken
    obtain ⟨range, hrange, -⟩ := List.mem_flatMap.1 htoken
    obtain ⟨hrange, hadapter⟩ := List.mem_filter.1 hrange
    exact ⟨range, hrange, of_decide_eq_true hadapter⟩

/-! ## Groups -/

/-- one group to an adapter, with all its ranges -/
structure Grouped (ranges : List LoraTokenRange) (groups : List LoraTokenGroup) : Prop where
  once : (groups.map LoraTokenGroup.adapter).Nodup
  named : ∀ adapter, adapter ∈ groups.map LoraTokenGroup.adapter ↔ ∃ range ∈ ranges, range.adapter = adapter
  ranges : ∀ group ∈ groups, group.ranges = rangesOf ranges group.adapter
  count : ∀ group ∈ groups, group.tokenCount = (group.ranges.map LoraTokenRange.tokenLen).sum

variable {groups : List LoraTokenGroup}

/-- the groups' adapters, after a further range -/
theorem map_adapter_pushGroupRange (range : LoraTokenRange) (groups : List LoraTokenGroup) :
    (pushGroupRange range groups).map LoraTokenGroup.adapter =
      if range.adapter ∈ groups.map LoraTokenGroup.adapter then groups.map LoraTokenGroup.adapter
      else groups.map LoraTokenGroup.adapter ++ [range.adapter] := by
  induction groups with
  | nil => rfl
  | cons group groups ih =>
    rw [pushGroupRange]
    by_cases hown : group.adapter = range.adapter
    · rw [if_pos hown, if_pos (List.mem_map.2 ⟨group, List.mem_cons_self, hown⟩)]
      rfl
    · have hmem : range.adapter ∈ (group :: groups).map LoraTokenGroup.adapter ↔
          range.adapter ∈ groups.map LoraTokenGroup.adapter := by
        rw [List.map_cons, List.mem_cons]
        exact or_iff_right (Ne.symm hown)
      rw [if_neg hown, List.map_cons, ih, if_congr hmem rfl rfl]
      split_ifs
      · rfl
      · rfl

/-- the group of the range's adapter has the range at its end; the others are as they were -/
theorem mem_pushGroupRange {range : LoraTokenRange} {group : LoraTokenGroup}
    (hgroup : group ∈ pushGroupRange range groups) (honce : (groups.map LoraTokenGroup.adapter).Nodup) :
    (group ∈ groups ∧ group.adapter ≠ range.adapter) ∨
      (∃ old ∈ groups, old.adapter = range.adapter ∧
        group = { old with tokenCount := old.tokenCount + range.tokenLen, ranges := old.ranges ++ [range] }) ∨
      (range.adapter ∉ groups.map LoraTokenGroup.adapter ∧ group = ⟨range.adapter, [range], range.tokenLen⟩) := by
  induction groups with
  | nil =>
    obtain rfl := List.mem_singleton.1 hgroup
    exact Or.inr (Or.inr ⟨List.not_mem_nil, rfl⟩)
  | cons first groups ih =>
    obtain ⟨hfirst, honce⟩ := List.nodup_cons.1 honce
    rw [pushGroupRange] at hgroup
    split_ifs at hgroup with hown
    · rcases List.mem_cons.1 hgroup with rfl | hgroup
      · exact Or.inr (Or.inl ⟨first, List.mem_cons_self, hown, rfl⟩)
      · refine Or.inl ⟨List.mem_cons_of_mem _ hgroup, fun hsame => hfirst ?_⟩
        exact List.mem_map.2 ⟨group, hgroup, hsame.trans hown.symm⟩
    · rcases List.mem_cons.1 hgroup with rfl | hgroup
      · exact Or.inl ⟨List.mem_cons_self, hown⟩
      · rcases ih hgroup honce with ⟨hold, hne⟩ | ⟨old, hold, hsame⟩ | ⟨hnew, hgroup⟩
        · exact Or.inl ⟨List.mem_cons_of_mem _ hold, hne⟩
        · exact Or.inr (Or.inl ⟨old, List.mem_cons_of_mem _ hold, hsame⟩)
        · refine Or.inr (Or.inr ⟨fun hmem => ?_, hgroup⟩)
          rcases List.mem_cons.1 hmem with hsame | hmem
          · exact hown hsame.symm
          · exact hnew hmem

theorem Grouped.push (h : Grouped ranges groups) (range : LoraTokenRange) :
    Grouped (ranges ++ [range]) (pushGroupRange range groups) := by
  have hnone : range.adapter ∉ groups.map LoraTokenGroup.adapter → rangesOf ranges range.adapter = [] := by
    intro hnew
    refine List.filter_eq_nil_iff.2 fun other hother hsame => hnew ?_
    exact (h.named _).2 ⟨other, hother, of_decide_eq_true hsame⟩
  refine ⟨?once, ?named, ?ranges, ?count⟩
  case once =>
    rw [map_adapter_pushGroupRange]
    split_ifs with hmem
    · exact h.once
    · exact List.nodup_append.2 ⟨h.once, List.nodup_singleton _, fun a ha b hb hab =>
        hmem (by rwa [← List.mem_singleton.1 hb, ← hab])⟩
  case named =>
    intro adapter
    have hranges : (∃ other ∈ ranges ++ [range], other.adapter = adapter) ↔
        (∃ other ∈ ranges, other.adapter = adapter) ∨ range.adapter = adapter := by
      simp only [List.mem_append, List.mem_singleton, or_and_right, exists_or, exists_eq_left]
    rw [hranges, ← h.named, map_adapter_pushGroupRange]
    split_ifs with hmem
    · constructor
      · exact Or.inl
      · rintro (hold | rfl)
        · exact hold
        · exact hmem
    · rw [List.mem_append, List.mem_singleton]
      exact or_congr_right eq_comm
  case ranges =>
    intro group hgroup
    rw [rangesOf_append, rangesOf_singleton]
    rcases mem_pushGroupRange hgroup h.once with ⟨hold, hne⟩ | ⟨old, hold, hsame, rfl⟩ | ⟨hnew, rfl⟩
    · rw [if_neg hne.symm, List.append_nil]
      exact h.ranges group hold
    · rw [if_pos hsame.symm]
      exact congrArg (· ++ [range]) (h.ranges old hold)
    · rw [if_pos rfl, hnone hnew]
      rfl
  case count =>
    intro group hgroup
    rcases mem_pushGroupRange hgroup h.once with ⟨hold, -⟩ | ⟨old, hold, -, rfl⟩ | ⟨-, rfl⟩
    · exact h.count group hold
    · rw [List.map_append, List.sum_append, ← h.count old hold]
      rfl
    · rfl

theorem groupLoraTokenRanges_grouped (ranges : List LoraTokenRange) : Grouped ranges (groupLoraTokenRanges ranges) := by
  induction ranges using List.reverseRecOn with
  | nil => exact ⟨List.nodup_nil, by simp [groupLoraTokenRanges], by simp [groupLoraTokenRanges],
      by simp [groupLoraTokenRanges]⟩
  | append_singleton ranges range ih =>
    rw [groupLoraTokenRanges, List.foldl_append]
    exact ih.push range

/-! ## Groups on the device -/

/-- a batch's groups: each adapter with tokens once, with its tokens in order, however they are handed over -/
structure Attributed (owners : List (Option String)) (groups : List DeviceLoraTokenGroup) : Prop where
  once : (groups.map DeviceLoraTokenGroup.adapter).Nodup
  named : ∀ adapter, adapter ∈ groups.map DeviceLoraTokenGroup.adapter ↔ some adapter ∈ owners
  ascending : ∀ group ∈ groups, group.ranges.Pairwise fun range next =>
    range.tokenOffset + range.tokenLen ≤ next.tokenOffset
  tokens : ∀ group ∈ groups, group.ranges.flatMap LoraTokenRange.tokens = ownedPlaces owners group.adapter
  count : ∀ group ∈ groups, group.tokenCount = owners.count (some group.adapter)
  single : ∀ group ∈ groups, group.tokenIndices = none → ∃ range, group.ranges = [range]
  indexed : ∀ group ∈ groups, ∀ indices, group.tokenIndices = some indices →
    group.ranges.length ≠ 1 ∧ indices = (ownedPlaces owners group.adapter).map Nat.cast

variable {copyError : List ℤ → Option String} {group : LoraTokenGroup} {prepared : DeviceLoraTokenGroup}

theorem prepareLoraTokenGroup_ok (h : prepareLoraTokenGroup copyError group = .ok prepared) :
    prepared.adapter = group.adapter ∧ prepared.ranges = group.ranges ∧ prepared.tokenCount = group.tokenCount ∧
      prepared.tokenIndices = if group.ranges.length = 1 then none
        else some ((group.ranges.flatMap LoraTokenRange.tokens).map asI32) := by
  unfold prepareLoraTokenGroup at h
  split_ifs at h ⊢ with hone
  · obtain rfl := Except.ok.inj h
    exact ⟨rfl, rfl, rfl, rfl⟩
  · cases hcopy : copyError ((group.ranges.flatMap LoraTokenRange.tokens).map asI32) with
    | some e =>
      simp only [hcopy] at h
      cases h
    | none =>
      simp only [hcopy] at h
      obtain rfl := Except.ok.inj h
      exact ⟨rfl, rfl, rfl, rfl⟩

/-- groups are prepared unless a copy fails -/
theorem prepareLoraTokenGroups_exists (hcopy : ∀ indices, copyError indices = none) (ranges : List LoraTokenRange) :
    ∃ prepared, prepareLoraTokenGroups copyError ranges = .ok prepared := by
  refine mapM_exists fun group _ => ?_
  unfold prepareLoraTokenGroup
  split_ifs
  · exact ⟨_, rfl⟩
  · dsimp only
    rw [hcopy]
    exact ⟨_, rfl⟩

theorem forall₂_map_adapter {groups : List LoraTokenGroup} {prepared : List DeviceLoraTokenGroup}
    (h : List.Forall₂ (fun group prepared => prepareLoraTokenGroup copyError group = .ok prepared) groups prepared) :
    prepared.map DeviceLoraTokenGroup.adapter = groups.map LoraTokenGroup.adapter := by
  induction h with
  | nil => rfl
  | cons hhead _ ih => rw [List.map_cons, List.map_cons, ih, (prepareLoraTokenGroup_ok hhead).1]

theorem sum_tokenLen (ranges : List LoraTokenRange) :
    (ranges.map LoraTokenRange.tokenLen).sum = (ranges.flatMap LoraTokenRange.tokens).length := by
  rw [List.length_flatMap]
  exact congrArg List.sum (List.map_congr_left fun range _ => List.length_range'.symm)

/-- **The groups of a batch attribute every token to its own adapter.** -/
theorem prepareLoraTokenGroups_attributed {prepared : List DeviceLoraTokenGroup} (hdescribes : Describes owners ranges)
    (hwords : owners.length ≤ 2 ^ 31) (h : prepareLoraTokenGroups copyError ranges = .ok prepared) :
    Attributed owners prepared := by
  have hgrouped := groupLoraTokenRanges_grouped ranges
  have heach := mapM_ok_iff.1 h
  have hnames := forall₂_map_adapter heach
  have hof : ∀ group ∈ prepared, ∃ host ∈ groupLoraTokenRanges ranges,
      prepareLoraTokenGroup copyError host = .ok group :=
    forall₂_mem_right heach
  have htokens : ∀ host ∈ groupLoraTokenRanges ranges,
      host.ranges.flatMap LoraTokenRange.tokens = ownedPlaces owners host.adapter := by
    intro host hhost
    rw [hgrouped.ranges host hhost, hdescribes.places]
  refine ⟨hnames ▸ hgrouped.once, fun adapter => ?_, ?_, ?_, ?_, ?_, ?_⟩
  · rw [hnames, hgrouped.named, hdescribes.exists_range]
  all_goals
    intro group hgroup
    obtain ⟨host, hhost, hok⟩ := hof group hgroup
    obtain ⟨hadapter, hranges, hcount, hindices⟩ := prepareLoraTokenGroup_ok hok
  · rw [hranges, hgrouped.ranges host hhost]
    exact hdescribes.ascending.filter _
  · rw [hranges, hadapter, htokens host hhost]
  · rw [hcount, hadapter, hgrouped.count host hhost, sum_tokenLen, htokens host hhost, length_ownedPlaces]
  · intro hnone
    rw [hindices] at hnone
    split_ifs at hnone with hone
    rw [hranges]
    exact List.length_eq_one_iff.1 hone
  · intro indices hsome
    rw [hindices] at hsome
    split_ifs at hsome with hone
    obtain rfl := Option.some.inj hsome
    rw [hranges, hadapter, htokens host hhost]
    exact ⟨hone, map_asI32 fun token htoken => (lt_of_mem_ownedPlaces htoken).trans_le hwords⟩

end Pegainfer.Qwen3
