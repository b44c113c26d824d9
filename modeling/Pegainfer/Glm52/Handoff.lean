/-
Native prefill/decode handoff: the names under which the prefill side seals a prompt's pages, and the decode side's
restore of them.

The prefill side matches, prefills in chunks, applies the anchor it sampled and pads the partial page; each of its calls
may find another store, since other requests use the pool in between. The decode side names the pages from one padded
token vector, resolves them, and restores the prompt and the anchor as a request that feeds the anchor next.
- `nativePrefill_names`: the registered hashes are those of `paddedChain`, for every chunking.
- `restore_carried`: a restore of pages the pool holds succeeds and stops at the committed length.
- `handoff_agrees`: both, with the counts of `nativeKvShape`.
-/
import Mathlib.Tactic
import Mathlib.Data.List.TakeWhile
import Pegainfer.Kvbm.Carried
import Pegainfer.KvStore.Partition
import Pegainfer.KvStore.Resolve

set_option linter.unusedSectionVars false

namespace Pegainfer.Glm52

open Pegainfer.Kvbm Pegainfer.Kvbm.SchedulableSequence Pegainfer.KvStore Pegainfer.Lib

variable {H : Type} [DecidableEq H] [BlockHash H]

/-! ## Names -/

def PAGE : ℕ := 64

/-- `usize::next_multiple_of` -/
def nextMultipleOf (n m : ℕ) : ℕ := if n % m = 0 then n else n + (m - n % m)

structure NativeMtpHandoff where
  committedLen : ℕ
  anchorTokenId : Option Token
  draftTokens : List Token
deriving DecidableEq, Repr

structure NativeKvShape where
  inputTokens : ℕ
  maxOutputTokens : ℕ
deriving DecidableEq, Repr

/-- the committed prompt and the anchor as input -/
def nativeKvShape (maxTokens : ℕ) (handoff : NativeMtpHandoff) : NativeKvShape :=
  ⟨handoff.committedLen + 1, maxTokens⟩

def lifetimeBlocks (promptTokens maxTokens : ℕ) : ℕ := divCeil (promptTokens + maxTokens) PAGE

/-- the committed prompt and the dangling anchor, padded to the page boundary; an aligned prompt stays alone -/
def paddedChain (committedPrompt : List Token) (anchor : Token) : List Token :=
  if committedPrompt.length % PAGE = 0 then committedPrompt
  else
    committedPrompt ++ [anchor] ++
      List.replicate (nextMultipleOf (committedPrompt.length + 1) PAGE - (committedPrompt.length + 1)) PAD_TOKEN_ID

/-- block hashes of a token vector -/
def chainHashes (H : Type) [BlockHash H] (chain : List Token) (salt : SaltHash) : List H :=
  (new chain 0 PAGE salt : SchedulableSequence H).allSequenceHashes

/-! ## The prefill side -/

/-- non-final chunks: their size, and the stores their schedule and apply find -/
def prefillChunks (kv : SchedulableSequence H) :
    List (ℕ × BlockStore H × BlockStore H) → Option (SchedulableSequence H)
  | [] => some kv
  | (rows, σ, τ) :: chunks =>
    (perform (kv, σ) (.schedulePrefill rows)).bind fun s =>
      (perform (s.1, τ) (.applyPrefill none)).bind fun s => prefillChunks s.1 chunks

/-- the final chunk, the anchor, the padding, and the envelope sent with it -/
def sealPrefill (kv : SchedulableSequence H) (rows : ℕ) (σ τ υ : BlockStore H) (anchor : Token) (emit : ℕ)
    (drafts : List Token) : Option (SchedulableSequence H × NativeMtpHandoff) :=
  (perform (kv, σ) (.schedulePrefill rows)).bind fun s =>
    (perform (s.1, τ) (.applyPrefill (some anchor))).bind fun s =>
      let committedLen := s.1.kvPosition
      (perform (s.1, υ) (.padTailBlock PAD_TOKEN_ID)).map fun s =>
        (s.1, ⟨committedLen, if emit = 1 then some anchor else none, drafts⟩)

/-- one prompt's way through the prefill role -/
structure PrefillPlan (H : Type) where
  matching : BlockStore H
  chunks : List (ℕ × BlockStore H × BlockStore H)
  lastRows : ℕ
  lastStores : BlockStore H × BlockStore H × BlockStore H
  anchor : Token
  emit : ℕ
  drafts : List Token

def nativePrefill (prompt : List Token) (maxTokens : ℕ) (salt : SaltHash) (plan : PrefillPlan H) :
    Option (SchedulableSequence H × NativeMtpHandoff) :=
  (perform (new prompt maxTokens PAGE salt, plan.matching) .matchAndAddPrefix).bind fun s =>
    (prefillChunks s.1 plan.chunks).bind fun kv =>
      sealPrefill kv plan.lastRows plan.lastStores.1 plan.lastStores.2.1 plan.lastStores.2.2 plan.anchor plan.emit
        plan.drafts

/-! ## The decode side -/

/-- a page copied into the request's own page; `pfx` pins the source -/
structure BoundaryCopy (H : Type) where
  srcPage : BlockId
  dstPage : BlockId
  pfx : KvPrefix H

inductive RestoreError
  | matchPrefix (e : ScheduleError)
  | matched (cached expected : ℕ)
  | schedule (e : ScheduleError)
  | noPageIndex
  | apply (e : ApplyError)
  | noResolvedPages
  | position (kvPosition expected : ℕ)
  | adopt (e : ApplyError)
deriving DecidableEq, Repr

/-- the boundary rows get a private page, to be filled by a copy of the restored one -/
def restoreBoundary (kv : SchedulableSequence H) (pfx : KvPrefix H) (boundaryRows : ℕ) (σ : BlockStore H) :
    Except String (Except RestoreError (Option (BoundaryCopy H)) × SchedulableSequence H × BlockStore H) :=
  if 0 < boundaryRows then
    match kv.schedulePrefill boundaryRows σ with
    | .error e => .error e
    | .ok (.error e, kv, σ) => .ok (.error (.schedule e), kv, σ)
    | .ok (.ok (), kv, σ) =>
      match (stepPageIndices kv boundaryRows).getLast? with
      | none => .ok (.error .noPageIndex, kv, σ)
      | some dstPage =>
        match kv.applyPrefill none σ with
        | .error e => .error e
        | .ok (.error e, kv, σ) => .ok (.error (.apply e), kv, σ)
        | .ok (.ok (), kv, σ) =>
          match (pfx.held.map ImmutableBlock.blockId).getLast? with
          | none => .ok (.error .noResolvedPages, kv, σ)
          | some srcPage => .ok (.ok (some ⟨srcPage, dstPage, pfx⟩), kv, σ)
  else .ok (.ok none, kv, σ)

def restoreNativeKv (kv : SchedulableSequence H) (pfx : KvPrefix H) (handoff : NativeMtpHandoff) (σ : BlockStore H) :
    Except String (Except RestoreError (Option (BoundaryCopy H)) × SchedulableSequence H × BlockStore H) :=
  let fullPageTokens := handoff.committedLen / PAGE * PAGE
  match kv.matchAndAddPrefix σ with
  | .error e => .error e
  | .ok (.error e, kv, σ) => .ok (.error (.matchPrefix e), kv, σ)
  | .ok (.ok blocks, kv, σ) =>
    if blocks * kv.blockSize ≠ fullPageTokens then
      .ok (.error (.matched (blocks * kv.blockSize) fullPageTokens), kv, σ)
    else
      match restoreBoundary kv pfx (handoff.committedLen - fullPageTokens) σ with
      | .error e => .error e
      | .ok (.error e, kv, σ) => .ok (.error e, kv, σ)
      | .ok (.ok copy, kv, σ) =>
        if kv.kvPosition ≠ handoff.committedLen then .ok (.error (.position kv.kvPosition handoff.committedLen), kv, σ)
        else
          match kv.adoptExternalPrefillAnchor with
          | (.error e, kv) => .ok (.error (.adopt e), kv, σ)
          | (.ok (), kv) => .ok (.ok copy, kv, σ)

/-! ## Arithmetic of the padded chain -/

theorem length_paddedChain (prompt : List Token) (anchor : Token) :
    (paddedChain prompt anchor).length = divCeil prompt.length PAGE * PAGE := by
  unfold paddedChain nextMultipleOf divCeil PAGE
  split_ifs <;> simp <;> omega

theorem paddedChain_blocks (prompt : List Token) (anchor : Token) :
    (paddedChain prompt anchor).length / PAGE = divCeil prompt.length PAGE := by
  rw [length_paddedChain, Nat.mul_div_cancel _ (by decide)]

/-- the padding names the tokens past the anchor -/
theorem padded_tokens {kv : SchedulableSequence H} {prompt : List Token} {anchor : Token}
    (hb : kv.blockSize = PAGE) (ht : kv.tokens = prompt ++ [anchor]) (hp : prompt.length % PAGE ≠ 0) :
    kv.tokens ++ List.replicate kv.padCount PAD_TOKEN_ID = paddedChain prompt anchor := by
  rw [paddedChain, if_neg hp, ht]
  congr 2
  simp only [padCount, nextMultipleOf, totalTokens, ht, hb, List.length_append, List.length_singleton]
  split_ifs <;> omega

/-! ## The prefill side -/

/-- between two chunks -/
structure Prefilling (prompt : List Token) (maxTokens : ℕ) (salt : SaltHash) (kv : SchedulableSequence H) : Prop where
  positions : Positions (prompt.length + maxTokens) kv
  idle : kv.state = .idle
  tokens : kv.tokens = prompt
  size : kv.blockSize = PAGE
  salted : kv.saltHash = salt
  input : kv.numInputTokens = prompt.length

variable {prompt : List Token} {maxTokens : ℕ} {salt : SaltHash}

theorem matched_prefilling {σ : BlockStore H} {s : SchedulableSequence H × BlockStore H}
    (h : perform (new prompt maxTokens PAGE salt, σ) .matchAndAddPrefix = some s) :
    Prefilling prompt maxTokens salt s.1 := by
  obtain ⟨kv, τ⟩ := s
  have he : Effect (new prompt maxTokens PAGE salt) .matchAndAddPrefix .done kv := perform_effect h
  have hpos := he.positions (fun _ _ _ => rfl) (positions_new prompt maxTokens salt (by decide))
  cases he with
  | refused c r hr => exact absurd rfl hr
  | unmatched => exact ⟨hpos, rfl, rfl, rfl, rfl, rfl⟩
  | matched xs => exact ⟨hpos, rfl, rfl, rfl, rfl, rfl⟩

theorem chunk_prefilling {kv : SchedulableSequence H} {rows : ℕ} {σ τ : BlockStore H}
    {s s' : SchedulableSequence H × BlockStore H} (h : Prefilling prompt maxTokens salt kv)
    (hs : perform (kv, σ) (.schedulePrefill rows) = some s) (ha : perform (s.1, τ) (.applyPrefill none) = some s') :
    Prefilling prompt maxTokens salt s'.1 := by
  obtain ⟨kv₁, σ₁⟩ := s
  obtain ⟨kv₂, σ₂⟩ := s'
  have hes : Effect kv (.schedulePrefill rows) .done kv₁ := perform_effect hs
  have hea : Effect kv₁ (.applyPrefill none) .done kv₂ := perform_effect ha
  have hpos := hea.positions (fun hc => by cases hc) (hes.positions (fun hc => by cases hc) h.positions)
  cases hes with
  | refused c r hr => exact absurd rfl hr
  | prefillScheduled n ids =>
    cases hea with
    | refused c r hr => exact absurd rfl hr
    | prefillApplied n' b t xs =>
      exact ⟨hpos, rfl, by simpa [appended, withRegistered, drawn] using h.tokens, h.size, h.salted, h.input⟩

theorem chunks_prefilling {kv kv' : SchedulableSequence H} {chunks : List (ℕ × BlockStore H × BlockStore H)}
    (h : Prefilling prompt maxTokens salt kv) (hc : prefillChunks kv chunks = some kv') :
    Prefilling prompt maxTokens salt kv' := by
  induction chunks generalizing kv with
  | nil =>
    cases hc
    exact h
  | cons chunk chunks ih =>
    obtain ⟨rows, σ, τ⟩ := chunk
    simp only [prefillChunks, Option.bind_eq_some_iff] at hc
    obtain ⟨s, hs, s', ha, hrest⟩ := hc
    exact ih (chunk_prefilling h hs ha) hrest

/-- prefilled and anchored: every full page is named, the partial one has a block -/
structure Anchored (prompt : List Token) (salt : SaltHash) (anchor : Token) (kv : SchedulableSequence H) : Prop where
  base : kv.Base
  idle : kv.state = .idle
  tokens : kv.tokens = prompt ++ [anchor]
  size : kv.blockSize = PAGE
  salted : kv.saltHash = salt
  position : kv.kvPosition = prompt.length
  named : kv.assigned.length = prompt.length / PAGE
  held : kv.unassigned.length = divCeil prompt.length PAGE - prompt.length / PAGE

theorem anchored_of_final {kv : SchedulableSequence H} {rows : ℕ} {σ τ : BlockStore H} {anchor : Token}
    {s s' : SchedulableSequence H × BlockStore H} (h : Prefilling prompt maxTokens salt kv)
    (hs : perform (kv, σ) (.schedulePrefill rows) = some s)
    (ha : perform (s.1, τ) (.applyPrefill (some anchor)) = some s') : Anchored prompt salt anchor s'.1 := by
  obtain ⟨kv₁, σ₁⟩ := s
  obtain ⟨kv₂, σ₂⟩ := s'
  have hes : Effect kv (.schedulePrefill rows) .done kv₁ := perform_effect hs
  have hea : Effect kv₁ (.applyPrefill (some anchor)) .done kv₂ := perform_effect ha
  have hpos := hes.positions (fun hc => by cases hc) h.positions
  have hprov := hes.provisioned h.positions.base (.of_idle h.idle)
  have hbase := hea.base hpos.base
  cases hes with
  | refused c r hr => exact absurd rfl hr
  | prefillScheduled _ ids hidle hlt hn hids =>
    cases hea with
    | refused c r hr => exact absurd rfl hr
    | prefillApplied n' b t xs hst hfin hnone hgen hx =>
      set q₁ := kv.drawn ids (.prefillScheduled rows ids.length) with hq₁
      obtain ⟨rfl, rfl⟩ : rows = n' ∧ ids.length = b := by simpa [hq₁, drawn] using hst
      have hend : kv.prefillPosition + rows = prompt.length := by
        have := hfin (by simp)
        simp only [hq₁, drawn] at this
        rw [h.input] at this hn
        omega
      obtain ⟨-, -, hle⟩ := hpos.inPrefill rows ids.length rfl
      have hge := hprov.prefill rows ids.length rfl
      have hasg := hpos.base.assigned_le
      obtain ⟨hlen, hun⟩ := length_withRegistered hpos.base.staged_nil hx
      have htot : q₁.completeSequenceBlocks = prompt.length / PAGE := by
        simp only [completeSequenceBlocks, totalTokens, hq₁, drawn, h.tokens, h.size]
      have hpp : q₁.prefillPosition + rows = prompt.length := hend
      have hsz : q₁.blockSize = PAGE := h.size
      rw [hpp, hsz] at hle hge
      rw [htot] at hasg hlen hun
      have hceil : prompt.length / PAGE ≤ divCeil prompt.length PAGE := div_le_divCeil _ (by decide)
      refine ⟨hbase, rfl, ?_, h.size, h.salted, hend, ?_, ?_⟩
      · simp [appended, withRegistered, hq₁, drawn, h.tokens]
      · simp only [appended]
        omega
      · simp only [appended]
        omega

/-- no partial page: padding does nothing -/
theorem padTailBlock_aligned {kv : SchedulableSequence H} {υ : BlockStore H} {pad : Token}
    {s : SchedulableSequence H × BlockStore H} (hp : kv.kvPosition % kv.blockSize = 0)
    (h : perform (kv, υ) (.padTailBlock pad) = some s) : s.1 = kv := by
  obtain ⟨kv', σ'⟩ := s
  have he : Effect kv (.padTailBlock pad) .done kv' := perform_effect h
  cases he with
  | refused c r hr => exact absurd rfl hr
  | unpadded => rfl
  | padded pad xs hs hk => exact absurd hp hk

/-- a partial page: the padded tokens name it -/
theorem padTailBlock_partial {kv : SchedulableSequence H} {υ : BlockStore H} {pad : Token}
    {s : SchedulableSequence H × BlockStore H} (hp : kv.kvPosition % kv.blockSize ≠ 0)
    (h : perform (kv, υ) (.padTailBlock pad) = some s) :
    ∃ xs, { kv with tokens := kv.tokens ++ List.replicate kv.padCount pad }.Registers xs ∧
      s.1 = { kv with tokens := kv.tokens ++ List.replicate kv.padCount pad }.withRegistered xs := by
  unfold perform call padTailBlock at h
  simp only at h
  split_ifs at h with hs
  · simp [Except.map, CallResult.ofApply] at h
  · split at h
    · rename_i s' heq
      split at heq
      · simp [Except.map] at heq
      · rename_i q₁ σ₁ hreg
        obtain ⟨xs, hx, rfl⟩ := completeAndRegisterPending_ok hreg
        simp only [Except.map, Except.ok.injEq, Prod.mk.injEq] at heq
        obtain rfl := Option.some.inj h
        exact ⟨xs, hx, by rw [← heq.2]⟩
    · cases h

/-- **Sealed names.** The padded sequence is registered in full under the chain's hashes. -/
theorem pad_names {kv : SchedulableSequence H} {υ : BlockStore H} {anchor : Token}
    {s : SchedulableSequence H × BlockStore H} (h : Anchored prompt salt anchor kv)
    (hp : perform (kv, υ) (.padTailBlock PAD_TOKEN_ID) = some s) :
    s.1.assigned.map ImmutableBlock.seqHash = chainHashes H (paddedChain prompt anchor) salt ∧
      s.1.kvPosition = prompt.length := by
  have hbase := (perform_effect hp).base h.base
  have hcount : (new (paddedChain prompt anchor) 0 PAGE salt : SchedulableSequence H).completeSequenceBlocks =
      divCeil prompt.length PAGE := by
    rw [← paddedChain_blocks prompt anchor]
    rfl
  by_cases hal : prompt.length % PAGE = 0
  · have hsame := padTailBlock_aligned (by rw [h.position, h.size]; exact hal) hp
    rw [hsame] at hbase ⊢
    refine ⟨?_, h.position⟩
    have hlen : kv.assigned.length = divCeil prompt.length PAGE := by
      rw [h.named, divCeil_eq_div (by decide) hal]
    have hchain : paddedChain prompt anchor = prompt := by rw [paddedChain, if_pos hal]
    have hext := allSequenceHashes_extend (new prompt 0 PAGE salt : SchedulableSequence H) [anchor]
      (by simp [new, PAGE])
    have hall : kv.allSequenceHashes =
        { (new prompt 0 PAGE salt : SchedulableSequence H) with tokens := prompt ++ [anchor] }.allSequenceHashes :=
      allSequenceHashes_congr h.size h.tokens h.salted
    rw [hchain] at hcount ⊢
    rw [hbase.hashes, hlen, hall, ← hcount]
    exact hext
  · obtain ⟨xs, hx, hs⟩ := padTailBlock_partial (by rw [h.position, h.size]; exact hal) hp
    have htok := padded_tokens h.size h.tokens hal
    have hlens := length_withRegistered
      (q := { kv with tokens := kv.tokens ++ List.replicate kv.padCount PAD_TOKEN_ID }) h.base.staged_nil hx
    have hcomp : ({ kv with tokens := kv.tokens ++ List.replicate kv.padCount PAD_TOKEN_ID } :
        SchedulableSequence H).completeSequenceBlocks = divCeil prompt.length PAGE := by
      rw [← paddedChain_blocks prompt anchor, ← htok]
      simp only [completeSequenceBlocks, totalTokens, h.size]
    have hall : s.1.allSequenceHashes = chainHashes H (paddedChain prompt anchor) salt := by
      rw [hs]
      exact allSequenceHashes_congr h.size htok h.salted
    have hceil : prompt.length / PAGE ≤ divCeil prompt.length PAGE := div_le_divCeil _ (by decide)
    have hlen : s.1.assigned.length = divCeil prompt.length PAGE := by
      have hn := h.named
      have hh := h.held
      rw [hs, hlens.1, hcomp]
      simp only
      omega
    refine ⟨?_, ?_⟩
    · rw [hbase.hashes, hall, hlen, ← hcount]
      exact List.take_of_length_le (by rw [chainHashes, length_allSequenceHashes])
    · rw [hs]
      exact h.position

/-- **Prefill names.** Every chunking registers the blocks of the padded chain and commits the prompt. -/
theorem nativePrefill_names {plan : PrefillPlan H} {kv : SchedulableSequence H} {handoff : NativeMtpHandoff}
    (h : nativePrefill prompt maxTokens salt plan = some (kv, handoff)) :
    kv.assigned.map ImmutableBlock.seqHash = chainHashes H (paddedChain prompt plan.anchor) salt ∧
      kv.kvPosition = prompt.length ∧ handoff.committedLen = prompt.length ∧
      ∀ a, handoff.anchorTokenId = some a → a = plan.anchor := by
  simp only [nativePrefill, sealPrefill, Option.bind_eq_some_iff, Option.map_eq_some_iff, Prod.mk.injEq] at h
  obtain ⟨s, hm, kv₁, hc, s₁, hs, s₂, ha, s₃, hp, rfl, rfl⟩ := h
  have hanch := anchored_of_final (chunks_prefilling (matched_prefilling hm) hc) hs ha
  obtain ⟨hnames, hpos⟩ := pad_names hanch hp
  refine ⟨hnames, hpos, hanch.position, ?_⟩
  intro a hanchor
  simp only at hanchor
  split_ifs at hanchor
  exact (Option.some.inj hanchor).symm

/-! ## The decode side -/

/-- the request's own blocks are blocks of the chain -/
theorem restored_hashes (prompt : List Token) (anchor : Token) (maxTokens : ℕ) (salt : SaltHash) :
    (new (prompt ++ [anchor]) maxTokens PAGE salt : SchedulableSequence H).allSequenceHashes ⊆
      chainHashes H (paddedChain prompt anchor) salt := by
  set q₀ := (new (prompt ++ [anchor]) maxTokens PAGE salt : SchedulableSequence H) with hq₀
  by_cases hal : prompt.length % PAGE = 0
  · have hext := allSequenceHashes_extend (new prompt maxTokens PAGE salt : SchedulableSequence H) [anchor]
      (by simp [new, PAGE])
    have hchain : paddedChain prompt anchor = prompt := by rw [paddedChain, if_pos hal]
    have hall : q₀.allSequenceHashes = { (new prompt maxTokens PAGE salt : SchedulableSequence H) with
        tokens := prompt ++ [anchor] }.allSequenceHashes := allSequenceHashes_congr rfl rfl rfl
    have hlen : q₀.completeSequenceBlocks =
        (new prompt maxTokens PAGE salt : SchedulableSequence H).completeSequenceBlocks := by
      simp only [hq₀, completeSequenceBlocks, totalTokens, new, PAGE, List.length_append, List.length_singleton] at hal ⊢
      omega
    have hsame : q₀.allSequenceHashes = (new prompt maxTokens PAGE salt : SchedulableSequence H).allSequenceHashes := by
      rw [← hext, ← hlen, hall]
      exact (List.take_of_length_le (by rw [← hall, length_allSequenceHashes])).symm
    rw [hchain, hsame]
    exact fun _ hk => hk
  · obtain ⟨pads, hpads⟩ : ∃ pads, paddedChain prompt anchor = q₀.tokens ++ pads :=
      ⟨_, by rw [paddedChain, if_neg hal]; rfl⟩
    have hext := allSequenceHashes_extend q₀ pads (by simp [hq₀, new, PAGE])
    have hchain : chainHashes H (paddedChain prompt anchor) salt =
        { q₀ with tokens := q₀.tokens ++ pads }.allSequenceHashes := allSequenceHashes_congr rfl hpads rfl
    rw [hchain, ← hext]
    exact List.take_subset _ _

/-- a match against pages that are all held takes the full pages and leaves the free blocks alone -/
theorem match_held {q : SchedulableSequence H} {σ : BlockStore H} {g : Holdings H} (h : Inv σ g)
    (hact : ∀ k ∈ q.allSequenceHashes, (σ.activeByHash k).isSome) :
    q.prefixHit σ = min q.completeSequenceBlocks q.maxMatchedBlocks ∧ σ.pinned q.allSequenceHashes = 0 := by
  have hreg : q.allSequenceHashes.takeWhile σ.isRegistered = q.allSequenceHashes := by
    rw [List.takeWhile_eq_self_iff]
    intro k hk
    simp [BlockStore.isRegistered, hact k hk]
  have hdead : q.allSequenceHashes.filter σ.hasInactive = [] := by
    rw [List.filter_eq_nil_iff]
    intro k hk hin
    obtain ⟨b, hb⟩ := (hasInactive_slot h.slots k).1 hin
    have hnone := h.slots.inactive_not_active b k hb
    simpa [hnone] using hact k hk
  constructor
  · rw [prefixHit, hreg, length_allSequenceHashes]
  · simp [BlockStore.pinned, BlockStore.revived, hreg, hdead]

theorem schedule_done {q q' : SchedulableSequence H} {σ σ' : BlockStore H} {n : ℕ}
    (h : q.call (.schedulePrefill n) σ = .ok (.done, q', σ')) : q.schedulePrefill n σ = .ok (.ok (), q', σ') := by
  obtain ⟨r, hx, hr⟩ := map_ok h
  cases r with
  | ok u => exact hx
  | error e => cases hr

theorem apply_done {q q' : SchedulableSequence H} {σ σ' : BlockStore H} {t : Option Token}
    (h : q.call (.applyPrefill t) σ = .ok (.done, q', σ')) : q.applyPrefill t σ = .ok (.ok (), q', σ') := by
  obtain ⟨r, hx, hr⟩ := map_ok h
  cases r with
  | ok u => exact hx
  | error e => cases hr

/-- `rows` more rows are restored, nothing else moved -/
structure RowsRestored (q : SchedulableSequence H) (rows : ℕ) (q' : SchedulableSequence H) : Prop where
  idle : q'.state = .idle
  tokens : q'.tokens = q.tokens
  input : q'.numInputTokens = q.numInputTokens
  generated : q'.generatedTokens = q.generatedTokens
  output : q'.maxOutputTokens = q.maxOutputTokens
  prefill : q'.prefillPosition = q.prefillPosition + rows
  position : q'.kvPosition = q.prefillPosition + rows

theorem restoreBoundary_carried {q : SchedulableSequence H} {σ : BlockStore H} {F : Holdings H} (pfx : KvPrefix H)
    (rows : ℕ) (h : Inv σ (q.holdings + F)) (hs : q.state = .idle) (hb : 0 < q.blockSize)
    (hk : q.kvPosition = q.prefillPosition) (hin : q.prefillPosition + rows < q.numInputTokens)
    (hroom : divCeil (q.prefillPosition + rows) q.blockSize - q.residentBlocks ≤ σ.available)
    (hheld : 0 < rows → pfx.held ≠ []) :
    ∃ copy q' σ', restoreBoundary q pfx rows σ = .ok (.ok copy, q', σ') ∧ RowsRestored q rows q' ∧
      (copy.isSome ↔ 0 < rows) := by
  by_cases hrows : 0 < rows
  · obtain ⟨q₁, σ₁, hsched⟩ := schedulePrefill_carried h hs (by omega) (by omega) hroom
    have hinv₁ := (call_spec h hsched).inv
    obtain ⟨ids, hids, rfl⟩ : ∃ ids, ids.length = divCeil (q.prefillPosition + rows) q.blockSize - q.residentBlocks ∧
        q₁ = q.drawn ids (.prefillScheduled rows ids.length) := by
      cases call_effect hsched with
      | refused c r hr => exact absurd rfl hr
      | prefillScheduled n ids hs hp hn hids => exact ⟨ids, hids, rfl⟩
    obtain ⟨q₂, σ₂, happly⟩ := applyPrefill_carried (t := none) hinv₁ rfl (fun _ => hin) (fun hne => absurd rfl hne)
    obtain ⟨xs, hq₂⟩ : ∃ xs, q₂ = { (q.drawn ids (.prefillScheduled rows ids.length)).withRegistered xs with
          prefillPosition := q.prefillPosition + rows, kvPosition := q.prefillPosition + rows, state := .idle } := by
      cases call_effect happly with
      | refused c r hr => exact absurd rfl hr
      | prefillApplied n b t xs hst ht hf hg hx =>
        obtain ⟨rfl, rfl⟩ : rows = n ∧ ids.length = b := by simpa [drawn] using hst
        exact ⟨xs, by simp [appended, drawn, withRegistered]⟩
    -- the private page exists: the drawn step holds every page it writes
    have hpages : stepPageIndices (q.drawn ids (.prefillScheduled rows ids.length)) rows ≠ [] := by
      have hceil : 0 < divCeil (q.prefillPosition + rows) q.blockSize := by
        by_contra hzero
        have := le_divCeil_mul (q.prefillPosition + rows) hb
        rw [Nat.eq_zero_of_not_pos hzero] at this
        omega
      have hlen : (pageIndices (q.drawn ids (.prefillScheduled rows ids.length))).length =
          q.residentBlocks + ids.length := by
        simp only [pageIndices, drawn, residentBlocks, List.length_append, List.length_map]
        omega
      rw [← List.length_pos_iff, stepPageIndices, List.length_take, hlen]
      simp only [drawn, hk]
      omega
    have hdst : ∃ dst, (stepPageIndices (q.drawn ids (.prefillScheduled rows ids.length)) rows).getLast? = some dst :=
      ⟨_, List.getLast?_eq_some_getLast hpages⟩
    obtain ⟨dst, hdst⟩ := hdst
    have hsrc : ∃ src, (pfx.held.map ImmutableBlock.blockId).getLast? = some src :=
      ⟨_, List.getLast?_eq_some_getLast (by simpa using hheld hrows)⟩
    obtain ⟨src, hsrc⟩ := hsrc
    refine ⟨some ⟨src, dst, pfx⟩, q₂, σ₂, ?_, ?_, by simp [hrows]⟩
    · rw [restoreBoundary, if_pos hrows]
      simp only [schedule_done hsched, hdst, apply_done happly, hsrc]
    · rw [hq₂]
      exact ⟨rfl, rfl, rfl, rfl, rfl, rfl, rfl⟩
  · obtain rfl : rows = 0 := by omega
    exact ⟨none, q, σ, by simp [restoreBoundary], ⟨hs, rfl, rfl, rfl, rfl, rfl, hk⟩, by simp⟩

/-- restored: the committed tokens have their rows, the anchor is fed next -/
structure Restored (prompt : List Token) (anchor : Token) (kv : SchedulableSequence H) : Prop where
  position : kv.kvPosition = prompt.length
  next : kv.tokens.drop kv.kvPosition = [anchor]
  ready : kv.requireGeneration = .ok ()

/-- **Restore.** Over a pool that holds the chain's pages and has a block to spare, the restore stops at the committed
length with the anchor next. -/
theorem restore_carried [PositionalHash H] {σ : BlockStore H} {F : Holdings H} {pfx : KvPrefix H}
    {handoff : NativeMtpHandoff} {anchor : Token} (h : Inv σ F) (hlen : handoff.committedLen = prompt.length)
    (hact : ∀ k ∈ chainHashes H (paddedChain prompt anchor) salt, (σ.activeByHash k).isSome)
    (hheld : prompt.length % PAGE ≠ 0 → pfx.held ≠ []) (hroom : 0 < σ.available) (hmax : 1 < maxTokens) :
    ∃ copy kv σ', restoreNativeKv (new (prompt ++ [anchor]) maxTokens PAGE salt) pfx handoff σ =
        .ok (.ok copy, kv, σ') ∧ Restored prompt anchor kv ∧ (copy.isSome ↔ prompt.length % PAGE ≠ 0) := by
  set q₀ := (new (prompt ++ [anchor]) maxTokens PAGE salt : SchedulableSequence H) with hq₀
  have hinv₀ : Inv σ (q₀.holdings + F) := by
    have hzero : q₀.holdings = 0 := rfl
    rwa [hzero, zero_add]
  obtain ⟨hhit, hpin⟩ := match_held (q := q₀) h fun k hk => hact k (restored_hashes prompt anchor maxTokens salt hk)
  obtain ⟨xs, σ₁, hmatch, hxs⟩ := matchAndAddPrefix_carried hinv₀ (by simp [hq₀, new, PAGE]) rfl rfl rfl
  have hfull : xs.length = prompt.length / PAGE := by
    rw [hxs, hhit]
    simp only [hq₀, completeSequenceBlocks, maxMatchedBlocks, totalTokens, new, List.length_append,
      List.length_singleton, PAGE]
    omega
  have hspec := matchAndAddPrefix_spec hinv₀ hmatch
  have hav : σ₁.available = σ.available := by
    have := hspec.settles rfl
    simp only [Settles, hpin] at this
    omega
  have hsplit : prompt.length / PAGE * PAGE + prompt.length % PAGE = prompt.length := Nat.div_add_mod' _ _
  have hceil : divCeil prompt.length PAGE ≤ prompt.length / PAGE + 1 := by
    unfold divCeil PAGE
    omega
  set q₁ := q₀.withMatched xs with hq₁
  have hpre : q₁.prefillPosition = prompt.length / PAGE * PAGE := by
    simp only [hq₁, withMatched, hfull, hq₀, new, Nat.zero_add]
  have hres : q₁.residentBlocks = prompt.length / PAGE := by
    simp [hq₁, withMatched, residentBlocks, hfull, hq₀, new]
  have hrows : handoff.committedLen - handoff.committedLen / PAGE * PAGE = prompt.length % PAGE := by
    rw [hlen]
    omega
  obtain ⟨copy, q₂, σ₂, hbound, hrest, hcopy⟩ := restoreBoundary_carried pfx (prompt.length % PAGE)
    hspec.inv rfl (by simp [hq₁, withMatched, hq₀, new, PAGE]) rfl
    (by
      rw [hpre, hsplit]
      simp [hq₁, withMatched, hq₀, new])
    (by
      have hbs : q₁.blockSize = PAGE := rfl
      rw [hpre, hsplit, hres, hav, hbs]
      omega) (fun hrows => hheld (by omega))
  have hin : q₂.numInputTokens = prompt.length + 1 := by
    rw [hrest.input]
    simp [hq₁, withMatched, hq₀, new]
  have hgen : q₂.generatedTokens = 0 := hrest.generated
  have hout : q₂.maxOutputTokens = maxTokens := hrest.output
  have htok : q₂.tokens = prompt ++ [anchor] := hrest.tokens
  have hkv : q₂.kvPosition = prompt.length := by rw [hrest.position, hpre, hsplit]
  have hpp : q₂.prefillPosition = prompt.length := by rw [hrest.prefill, hpre, hsplit]
  have htail : q₂.tailTokens = 1 := by
    rw [tailTokens, totalTokens, htok, hkv]
    simp
  have hrem : 0 < q₂.remainingTokens := by
    rw [remainingTokens, hgen, hout]
    omega
  refine ⟨copy, { q₂ with
    numInputTokens := q₂.numInputTokens - 1, generatedTokens := q₂.generatedTokens + 1 }, σ₂, ?_, ⟨hkv, ?_, ?_⟩, ?_⟩
  · have hcached : xs.length * q₁.blockSize = handoff.committedLen / PAGE * PAGE := by rw [hfull, hlen]; rfl
    have hadopt : q₂.adoptExternalPrefillAnchor = (.ok (), { q₂ with
        numInputTokens := q₂.numInputTokens - 1, generatedTokens := q₂.generatedTokens + 1 }) := by
      rw [adoptExternalPrefillAnchor, if_neg (by simp [hrest.idle]), if_pos ⟨by rw [hpp, hkv], by rw [hpp, hin], htail, hrem⟩]
    have hend : q₂.kvPosition = handoff.committedLen := by rw [hkv, hlen]
    rw [restoreNativeKv]
    simp only [hmatch, hcached, ne_eq, not_true_eq_false, if_false, hrows, hbound, hend, hadopt]
  · simp [htok, hkv]
  · refine requireGeneration_of hrest.idle ⟨?_, ?_, ?_⟩
    · simp only [hin, hpp]
      omega
    · simp only [hgen, hout]
      omega
    · simp [totalTokens, htok, hkv]
  · rw [hcopy]
    omega

/-! ## Agreement -/

/-- what a resolve hands over: guards of the named blocks, whose hashes the pool answers from live blocks -/
structure Holds (w : World H) (pr : PrefixProbe H) (names : List H) : Prop where
  named : pr.held.map ImmutableBlock.seqHash = names
  live : ∀ k ∈ names, (w.pool.store.activeByHash k).isSome

theorem run_blockSize [Inhabited H] {blockSize numBlocks : ℕ} {w₀ w : World H} {ops : List KvStore.Op}
    (hn : World.new blockSize numBlocks = .ok w₀) (hr : run World.step w₀ ops = .ok w) :
    w.pool.blockSize = blockSize := by
  have hf := World.new_fresh hn
  have h := run_invariant (I := fun _ (w : World H) => w.Reached numBlocks ∧ w.pool.blockSize = blockSize) w₀
    ⟨⟨hf.accounted, hf.padded, hf.named, hf.paddingId, hf.paddingHash, hf.total⟩, hf.blockSize⟩ ?_ ops w
    (stepsMeet_true w₀ ops) hr
  · exact h.2
  · intro _ w o w' h _ hs
    exact ⟨World.step_reached h.1 hs, (World.step_kept h.1.accounted h.1.padded hs).blockSize.trans h.2⟩

/-- an entitled request has a block beyond its full pages -/
theorem tryAdmit_room {p : BlockPool H} {tokens : List Token} {maxTokens : ℕ} {salt : SaltHash} (hb : p.blockSize = PAGE)
    {committed : ℕ} (hlen : tokens.length = committed + 1)
    (h : ((p.newRequest tokens maxTokens salt).tryAdmit (committed / PAGE) p).1 = true) : 0 < p.store.available := by
  have hceil : committed / PAGE + 1 ≤ divCeil (tokens.length + maxTokens) PAGE :=
    (div_succ_le_divCeil (by decide)).trans (divCeil_mono (by decide) (by omega))
  unfold EntitledSeq.tryAdmit at h
  simp only [BlockPool.newRequest, Bool.false_eq_true, if_false, hb] at h
  split_ifs at h with hlt
  have hrem : (EntitledSeq.remaining ⟨(new tokens maxTokens PAGE salt : SchedulableSequence H), false,
      divCeil (tokens.length + maxTokens) PAGE⟩).toNat = divCeil (tokens.length + maxTokens) PAGE := by
    simp [EntitledSeq.remaining, EntitledSeq.resident, residentBlocks, new]
  rw [hrem] at hlt
  omega

/-- **Handoff.** Whatever the chunking, the prefill side seals the blocks of the padded chain, `nativeKvShape` counts
the chain's committed tokens and pages, and a restore of those blocks stops at the committed length with the anchor
next. -/
theorem handoff_agrees [Inhabited H] [PositionalHash H] (prompt : List Token) (maxTokens : ℕ) (salt : SaltHash)
    (plan : PrefillPlan H) (kv : SchedulableSequence H) (handoff : NativeMtpHandoff)
    (hp : nativePrefill prompt maxTokens salt plan = some (kv, handoff)) :
    kv.assigned.map ImmutableBlock.seqHash = chainHashes H (paddedChain prompt plan.anchor) salt ∧
    handoff.committedLen = prompt.length ∧
    (∀ m, nativeKvShape m handoff = ⟨prompt.length + 1, m⟩ ∧
      divCeil ((nativeKvShape m handoff).inputTokens - 1) PAGE = (paddedChain prompt plan.anchor).length / PAGE) ∧
    ∀ (numBlocks : ℕ) (w₀ w : World H) (ops : List KvStore.Op) (i : ℕ) (pr : PrefixProbe H) (anchor m : ℕ),
      World.new PAGE numBlocks = .ok w₀ → run World.step w₀ ops = .ok w → w.probe? i = some pr →
      Holds w pr (kv.assigned.map ImmutableBlock.seqHash) → handoff.anchorTokenId = some anchor → 1 < m →
      ((w.pool.newRequest (prompt ++ [anchor]) m salt).tryAdmit (handoff.committedLen / PAGE) w.pool).1 = true →
      ∃ copy kv' σ', restoreNativeKv (w.pool.newRequest (prompt ++ [anchor]) m salt).seq
          ⟨(paddedChain prompt anchor).length, pr.held⟩ handoff w.pool.store = .ok (.ok copy, kv', σ') ∧
        Restored prompt anchor kv' ∧ (copy.isSome ↔ prompt.length % PAGE ≠ 0) := by
  obtain ⟨hnames, -, hlen, hanchor⟩ := nativePrefill_names hp
  refine ⟨hnames, hlen, ?_, ?_⟩
  · intro m
    refine ⟨by rw [nativeKvShape, hlen], ?_⟩
    rw [paddedChain_blocks, nativeKvShape, hlen]
    rfl
  · intro numBlocks w₀ w ops i pr anchor m hn hr hpr hold ha hm hroom
    obtain rfl := hanchor anchor ha
    have hb := run_blockSize hn hr
    rw [hnames] at hold
    have hseq : (w.pool.newRequest (prompt ++ [plan.anchor]) m salt).seq =
        new (prompt ++ [plan.anchor]) m PAGE salt := by
      rw [BlockPool.newRequest, hb]
    rw [hseq]
    refine restore_carried (World.run_reached hn hr).accounted hlen hold.live ?_ ?_ hm
    · intro hpart hnil
      have hnil : pr.held = [] := hnil
      have hcount := congrArg List.length hold.named
      rw [hnil, chainHashes, length_allSequenceHashes] at hcount
      have hblocks : (new (paddedChain prompt plan.anchor) 0 PAGE salt : SchedulableSequence H).completeSequenceBlocks =
          divCeil prompt.length PAGE := (paddedChain_blocks prompt plan.anchor)
      rw [hblocks, List.map_nil, List.length_nil] at hcount
      have := le_divCeil_mul prompt.length (b := PAGE) (by decide)
      rw [← hcount] at this
      have hzero : prompt.length = 0 := by omega
      exact hpart (by rw [hzero]; rfl)
    · rw [hlen] at hroom
      exact tryAdmit_room hb (by simp) hroom

/-- three tokens prefilled as two chunks over one pool, the anchor and sixty pads behind them -/
def threePlan : PrefillPlan (List ℕ) :=
  let s₀ := (new [1, 2, 3] 4 PAGE 7, BlockStore.new 4 false)
  let s₁ := (perform s₀ .matchAndAddPrefix).getD s₀
  let s₂ := (perform s₁ (.schedulePrefill 2)).getD s₁
  let s₃ := (perform s₂ (.applyPrefill none)).getD s₂
  let s₄ := (perform s₃ (.schedulePrefill 1)).getD s₃
  let s₅ := (perform s₄ (.applyPrefill (some 9))).getD s₄
  ⟨s₀.2, [(2, s₁.2, s₂.2)], 1, (s₃.2, s₄.2, s₅.2), 9, 1, []⟩

/-- the page is loaded on the decode side and restored there -/
theorem handoff_agrees_three :
    ∃ (kv : SchedulableSequence (List ℕ)) (handoff : NativeMtpHandoff) (w₀ w : World (List ℕ))
      (pr : PrefixProbe (List ℕ)) (copy : Option (BoundaryCopy (List ℕ))) (kv' : SchedulableSequence (List ℕ))
      (σ' : BlockStore (List ℕ)), nativePrefill [1, 2, 3] 4 7 threePlan = some (kv, handoff) ∧
      World.new PAGE 4 = .ok w₀ ∧ run World.step w₀ [.probe (paddedChain [1, 2, 3] 9) 7, .includeFinalBlock 0,
        .reserve 1, .commit 0 0] = .ok w ∧ w.probe? 0 = some pr ∧
      Holds w pr (kv.assigned.map ImmutableBlock.seqHash) ∧
      restoreNativeKv (w.pool.newRequest ([1, 2, 3] ++ [9]) 4 7).seq ⟨(paddedChain [1, 2, 3] 9).length, pr.held⟩ handoff
        w.pool.store = .ok (.ok copy, kv', σ') ∧ Restored [1, 2, 3] 9 kv' ∧ copy.isSome := by
  have hagree := handoff_agrees [1, 2, 3] 4 7 threePlan _ _ rfl
  obtain ⟨copy, kv', σ', hrest, hdone, hcopy⟩ := hagree.2.2.2 4 _ _ [.probe (paddedChain [1, 2, 3] 9) 7,
    .includeFinalBlock 0, .reserve 1, .commit 0 0] 0 _ 9 4 rfl rfl rfl ⟨rfl, by decide⟩ rfl (by decide) (by decide)
  exact ⟨_, _, _, _, _, copy, kv', σ', rfl, rfl, rfl, rfl, ⟨rfl, by decide⟩, hrest, hdone, hcopy.2 (by decide)⟩

end Pegainfer.Glm52
