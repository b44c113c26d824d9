/-
Matched blocks are written: the invariant over runs of the pool with its rows.

A request in use has every computed position written in the page it holds for it (`Filled`), and its registered blocks
end at `kvPosition`; so a block gets a name without padding tokens only when it is written in full (`Sound.store`), and
what a lookup finds was written.
- `Live.step`: a carried-out call of a request in use keeps its rows.
- `step_sound`: every operation keeps the invariant.
- `rows_written`: matched and resolved blocks are written, in every state of every fit run.
-/
import Mathlib.Tactic
import Pegainfer.KvStore.Rows

set_option linter.unusedSectionVars false

namespace Pegainfer.KvStore

open Pegainfer.Kvbm Pegainfer.Kvbm.SchedulableSequence Pegainfer.Lib

/-- equal block hashes are of equal tokens: the names are content addresses -/
class CollisionFree (H : Type) [BlockHash H] : Prop where
  tokens_eq : ∀ (salt salt' : SaltHash) (blockSize : ℕ) (ts us : List Token),
    (BlockHash.blockHash salt blockSize ts : H) = BlockHash.blockHash salt' blockSize us → ts = us

instance : CollisionFree (List ℕ) where
  tokens_eq _ _ _ _ _ h := (List.cons.inj h).2

variable {H : Type} [DecidableEq H] [BlockHash H]

/-- the name of tokens without padding -/
def Clean (blockSize : ℕ) (k : H) : Prop := ∃ salt ts, k = BlockHash.blockHash salt blockSize ts ∧ PAD_TOKEN_ID ∉ ts

theorem clean_sequenceHash [CollisionFree H] {q : SchedulableSequence H} {i : ℕ} :
    Clean q.blockSize (q.sequenceHash i) ↔ PAD_TOKEN_ID ∉ q.tokens.take ((i + 1) * q.blockSize) := by
  constructor
  · rintro ⟨salt, ts, heq, hts⟩
    rw [CollisionFree.tokens_eq (H := H) _ _ _ _ _ heq]
    exact hts
  · intro h
    exact ⟨_, _, rfl, h⟩

/-! ## Rows of a request -/

/-- every computed position of an unpadded block is written in its page -/
def Filled (written : BlockId → ℕ → Bool) (q : SchedulableSequence H) : Prop :=
  ∀ p < q.kvPosition, ∀ page, (pageIndices q)[p / q.blockSize]? = some page →
    PAD_TOKEN_ID ∉ q.tokens.take ((p / q.blockSize + 1) * q.blockSize) → written page (p % q.blockSize) = true

/-- while a step can still be scheduled, the pages held before it cover the computed positions -/
def Covered (q : SchedulableSequence H) : Prop :=
  q.prefillPosition < q.numInputTokens ∨ q.generatedTokens < q.maxOutputTokens →
    q.kvPosition ≤ (q.assigned.length + q.unassigned.length - q.drawnNow) * q.blockSize

/-- a request in use -/
structure Live (written : BlockId → ℕ → Bool) (q : SchedulableSequence H) : Prop where
  run : ∃ cap, RunInv cap q
  covered : Covered q
  filled : Filled written q

theorem Filled.mono {written written' : BlockId → ℕ → Bool} {q : SchedulableSequence H} (h : Filled written q)
    (hw : ∀ b ∈ pageIndices q, ∀ r, written b r = true → written' b r = true) : Filled written' q := by
  intro p hp page hpage hclean
  exact hw page (List.mem_of_getElem? hpage) _ (h p hp page hpage hclean)

/-- a block whose positions are all computed is written in full -/
theorem Filled.full {written : BlockId → ℕ → Bool} {q : SchedulableSequence H} (h : Filled written q) {i : ℕ}
    {page : BlockId} (hpage : (pageIndices q)[i]? = some page)
    (hclean : PAD_TOKEN_ID ∉ q.tokens.take ((i + 1) * q.blockSize)) (hend : (i + 1) * q.blockSize ≤ q.kvPosition) :
    Full q.blockSize written page := by
  intro r hr
  have hdiv : (i * q.blockSize + r) / q.blockSize = i := by
    rw [Nat.mul_comm, Nat.mul_add_div (by omega), Nat.div_eq_of_lt hr, Nat.add_zero]
  have hmod : (i * q.blockSize + r) % q.blockSize = r := by
    rw [Nat.mul_comm, Nat.mul_add_mod, Nat.mod_eq_of_lt hr]
  have hlt : i * q.blockSize + r < q.kvPosition := by
    rw [Nat.add_mul, Nat.one_mul] at hend
    omega
  have hrow := h (i * q.blockSize + r) hlt page
  rw [hdiv, hmod] at hrow
  exact hrow hpage hclean

/-- rows fed and pages kept: the computed positions stay written -/
theorem Filled.extend {written : BlockId → ℕ → Bool} {q q' : SchedulableSequence H} {n : ℕ} (h : Filled written q)
    (hb : q'.blockSize = q.blockSize) (hpages : pageIndices q' <+: pageIndices q) (ht : q.tokens <+: q'.tokens)
    (hk : q'.kvPosition = q.kvPosition + n) : Filled (writeRows q n written) q' := by
  intro p hp page hpage hclean
  rw [hb] at hpage hclean ⊢
  have hpage' : (pageIndices q)[p / q.blockSize]? = some page := by
    obtain ⟨rest, hrest⟩ := hpages
    rw [← hrest, List.getElem?_append_left (List.getElem?_eq_some_iff.1 hpage).1]
    exact hpage
  have hclean' : PAD_TOKEN_ID ∉ q.tokens.take ((p / q.blockSize + 1) * q.blockSize) := by
    intro hm
    exact hclean ((ht.take _).subset hm)
  simp only [writeRows, Bool.or_eq_true, List.any_eq_true, List.mem_range, Bool.and_eq_true, beq_iff_eq]
  by_cases hlt : p < q.kvPosition
  · exact Or.inl (h p hlt page hpage' hclean')
  · refine Or.inr ⟨p - q.kvPosition, by omega, ?_, ?_⟩
    · rw [Nat.add_sub_cancel' (not_lt.1 hlt)]
      exact hpage'
    · rw [Nat.add_sub_cancel' (not_lt.1 hlt)]

theorem writeRows_mono (q : SchedulableSequence H) (n : ℕ) {written : BlockId → ℕ → Bool} {b : BlockId} {r : ℕ}
    (h : written b r = true) : writeRows q n written b r = true := by
  simp [writeRows, h]

/-! ## Drawn pages -/

/-- a slot an allocation may take -/
def Fresh (σ : BlockStore H) (b : BlockId) : Prop := σ.slots b = .reset ∨ ∃ k, σ.slots b = .inactive k

theorem allocateBlocks_fresh {σ σ' : BlockStore H} {g : Holdings H} (h : Inv σ g) {n : ℕ} {ids : List BlockId}
    (ha : σ.allocateBlocks n = .ok (some (ids, σ'))) : ∀ b ∈ ids, Fresh σ b ∧ σ'.named b = none := by
  unfold BlockStore.allocateBlocks at ha
  split at ha
  · cases ha
  · cases ha
  · rename_i ids' ev σ₁ heq
    simp only [Except.ok.injEq, Option.some.injEq, Prod.mk.injEq] at ha
    obtain ⟨rfl, rfl⟩ := ha
    unfold BlockStore.allocateAtomic at heq
    simp only at heq
    split_ifs at heq
    · simp only [Except.ok.injEq, Option.some.injEq, Prod.mk.injEq] at heq
      rw [← heq.1]
      simp
    · cases heq
    · simp only [Except.ok.injEq, Option.some.injEq, Prod.mk.injEq] at heq
      rw [← heq.1, ← heq.2.2]
      intro b hb
      exact ⟨(takenIds_state h.slots hb).imp_left And.left, by simp only [BlockStore.named, if_pos hb, SlotState.name]⟩

/-- what a carried-out schedule draws -/
theorem schedule_fresh {q q' : SchedulableSequence H} {c : Call} {σ σ' : BlockStore H} {g : Holdings H} (h : Inv σ g)
    (hs : c.isSchedule = true) (hc : q.call c σ = .ok (.done, q', σ')) :
    ∃ ids next, q' = q.drawn ids next ∧ ∀ b ∈ ids, Fresh σ b := by
  rcases schedule_eq (q := q) hs with ⟨e, -, -, hcall⟩ | ⟨next, hcall, -⟩
  · rw [hcall] at hc
    cases hc
  · rw [hcall] at hc
    obtain ⟨r, hd, hr⟩ := map_ok hc
    unfold drawInto SchedulableSequence.allocateBlocks at hd
    split_ifs at hd
    · simp only [Except.ok.injEq, Prod.mk.injEq] at hd
      exact ⟨[], next, by simp [← hd.2.1, drawn], by simp⟩
    · cases halloc : σ.allocateBlocks (q.draws c) with
      | error e => simp [halloc] at hd
      | ok o =>
        cases o with
        | none =>
          simp only [halloc, Except.ok.injEq, Prod.mk.injEq] at hd
          rw [← hd.1] at hr
          cases hr
        | some y =>
          obtain ⟨ids, τ⟩ := y
          simp only [halloc] at hd
          split_ifs at hd
          · simp only [Except.ok.injEq, Prod.mk.injEq] at hd
            exact ⟨ids, next, hd.2.1.symm, fun b hb => (allocateBlocks_fresh h halloc b hb).1⟩
          · simp only [Except.ok.injEq, Prod.mk.injEq] at hd
            rw [← hd.1] at hr
            cases hr

/-- a guard's slot answers to its name -/
theorem named_of_shared {σ : BlockStore H} {g : Holdings H} (h : Inv σ g) {x : ImmutableBlock H} (hx : x ∈ g.2.2) :
    σ.named x.blockId = some x.seqHash := by
  obtain ⟨p, hp⟩ := h.refs.shared_inner x hx
  have hpos : 0 < σ.strong x.ptr := by
    have hcount := Multiset.count_pos.2 (Multiset.mem_map_of_mem ImmutableBlock.ptr hx)
    have := h.refs.strong_eq x.ptr
    omega
  rcases h.refs.slot_of_strong hp hpos with hslot | hslot
  · simp only at hslot
    simp [BlockStore.named, hslot, SlotState.name]
  · simp only at hslot
    simp [BlockStore.named, hslot, SlotState.name]

/-- a page somebody holds is not up for allocation -/
theorem page_not_fresh {σ : BlockStore H} {F : Holdings H} {q : SchedulableSequence H} (h : Inv σ (q.holdings + F))
    {b : BlockId} (hb : b ∈ pageIndices q) : ¬ Fresh σ b := by
  simp only [pageIndices, List.mem_append, List.mem_map] at hb
  rcases hb with (⟨x, hx, rfl⟩ | ⟨c, hc, rfl⟩) | hb
  · obtain ⟨p, hp⟩ := h.refs.shared_inner x (by simp [holdings, guards, hx])
    have hpos : 0 < σ.strong x.ptr := by
      have hcount := Multiset.count_pos.2 (Multiset.mem_map_of_mem ImmutableBlock.ptr
        (show x ∈ (q.holdings + F).2.2 by simp [holdings, guards, hx]))
      have := h.refs.strong_eq x.ptr
      omega
    have hslot := h.refs.slot_of_strong hp hpos
    simp only at hslot
    rintro (hf | ⟨k, hf⟩) <;> rcases hslot with hs | hs <;> rw [hf] at hs <;> cases hs
  · obtain ⟨b, k⟩ := c
    have hslot := (h.slots.staged_iff b k).1 (by simp [holdings, guards, hc])
    rintro (hf | ⟨k', hf⟩) <;> rw [hf] at hslot <;> cases hslot
  · have hslot := (h.slots.mutable_iff b).1 (by simp [holdings, guards, hb])
    rintro (hf | ⟨k', hf⟩) <;> rw [hf] at hslot <;> cases hslot

theorem clearRows_keep {ids : List BlockId} {written : BlockId → ℕ → Bool} {b : BlockId} {r : ℕ}
    (h : written b r = true) (hb : b ∉ ids) : clearRows ids written b r = true := by
  simp [clearRows, h, hb]

/-! ## Calls of a request in use -/

theorem covered_drawn {q : SchedulableSequence H} (h : Covered q) (hs : q.state = .idle) {ids : List BlockId}
    {next : SequenceState} (hn : (q.drawn ids next).drawnNow = ids.length) : Covered (q.drawn ids next) := by
  intro hmore
  have hold := h hmore
  have hzero : q.drawnNow = 0 := by simp [drawnNow, drawnBlocks, hs]
  rw [hn]
  rw [hzero, Nat.sub_zero] at hold
  simp only [drawn, List.length_append] at hold ⊢
  rwa [← Nat.add_assoc, Nat.add_sub_cancel]

theorem covered_step {cap : ℕ} {q q' : SchedulableSequence H} {c : Call} (he : Effect q c .done q')
    (hsteps : c.steps = true) (h : RunInv cap q) (hc : Covered q) : Covered q' := by
  have hb := h.positions.base.size_pos
  have hst := h.positions.base.staged_nil
  cases he with
  | refused c r hr => exact absurd rfl hr
  | unmatched => exact hc
  | matched xs hs he hne hmax hle hx =>
    have hfresh := h.match_fresh he (lt_of_lt_of_le (List.length_pos_of_ne_nil hne) hle)
    intro _
    have hzero : (q.withMatched xs).drawnNow = 0 := by simp [drawnNow, drawnBlocks, withMatched, hs]
    rw [hzero, Nat.sub_zero]
    simp only [withMatched, hfresh, Nat.zero_add]
    exact Nat.mul_le_mul_right _ (Nat.le_add_right _ _)
  | prefillScheduled n ids hs => exact covered_drawn hc hs rfl
  | decodeScheduled ids hs => exact covered_drawn hc hs rfl
  | speculativeScheduled n ids hs => exact covered_drawn hc hs rfl
  | prefillApplied n b t xs hs ht hf hg hx =>
    intro _
    have hres := resident_withRegistered hst hx
    have hprov := h.provisioned.prefill n b hs
    refine (le_divCeil_mul (q.prefillPosition + n) hb).trans (Nat.mul_le_mul_right q.blockSize ?_)
    simp only [appended, drawnNow, drawnBlocks, Option.getD_none, Nat.sub_zero]
    omega
  | decodeApplied b t xs hs hg hx =>
    intro _
    obtain ⟨-, -, hd⟩ := h.positions.inDecode b hs
    have hres := resident_withRegistered hst hx
    have hprov := h.provisioned.decode b hs
    have hlt : q.totalTokens ≤ (q.completeSequenceBlocks + 1) * q.blockSize := by
      rw [completeSequenceBlocks, Nat.add_mul, Nat.one_mul]
      exact (Nat.lt_div_mul_add hb).le
    have hmul := Nat.mul_le_mul_right q.blockSize hprov
    simp only [appended, drawnNow, drawnBlocks, Option.getD_none, Nat.sub_zero, hres]
    have hsize : (q.withRegistered xs).blockSize = q.blockSize := rfl
    rw [hsize]
    omega
  | speculativeApplied n b ts xs hs hn hg hx =>
    intro hmore
    obtain ⟨⟨-, -, hd⟩, -⟩ := h.positions.inSpeculative n b hs
    have hreg := h.speculative_registered hs hn hx
    have hres := resident_withRegistered (q := q.appended ts) hst hx
    have hprov := h.provisioned.speculative n b hs
    have hwork : (q.appended ts).isComplete = false := by
      obtain ⟨hfull, -⟩ := h.positions.inSpeculative n b hs
      rcases hmore with hlt | hlt
      · have hle := hfull.prefilled
        exact absurd hlt (not_lt.2 hle)
      · have hlt : q.generatedTokens + ts.length < q.maxOutputTokens := hlt
        exact decide_eq_false (not_le.2 hlt)
    simp only [drawnNow, drawnBlocks, Option.getD_none, Nat.sub_zero, keepUnassigned, hwork, List.length_take, hreg]
    set T := q.totalTokens + ts.length with hT
    have hceil : divCeil T q.blockSize ≤ q.assigned.length + q.unassigned.length :=
      (divCeil_mono hb (by omega)).trans hprov
    have hsum : (q.appended ts).assigned.length + (q.appended ts).unassigned.length =
        q.assigned.length + q.unassigned.length := rfl
    rw [hsum, hreg] at hres
    have hsize : ((q.appended ts).withRegistered xs).blockSize = q.blockSize := rfl
    rw [hsize]
    have hdiv := Nat.div_add_mod T q.blockSize
    rw [Nat.mul_comm] at hdiv
    by_cases hmod : T % q.blockSize = 0
    · have : T / q.blockSize * q.blockSize ≤ (T / q.blockSize +
          min (if false = true then 0 else 1) ((q.appended ts).withRegistered xs).unassigned.length) * q.blockSize :=
        Nat.mul_le_mul_right _ (Nat.le_add_right _ _)
      omega
    · have hone : T / q.blockSize + 1 ≤ divCeil T q.blockSize := by
        by_contra hlt
        have h1 := (divCeil_le_iff hb).1 (Nat.le_of_lt_succ (not_le.1 hlt))
        omega
      have hkeep : min (if false = true then 0 else 1) ((q.appended ts).withRegistered xs).unassigned.length = 1 := by
        simp only [Bool.false_eq_true, if_false]
        omega
      rw [hkeep, Nat.add_mul, Nat.one_mul]
      have := Nat.mod_lt T hb
      omega
  | reverted n hs =>
    intro hmore
    have hold := hc hmore
    have hdrawn : q.drawnNow = n := by simp [drawnNow, hs]
    have hle := h.positions.drawn_le
    rw [hdrawn] at hold hle
    simp only [drawnNow, drawnBlocks, Option.getD_none, Nat.sub_zero, keepUnassigned, List.length_take] at hold ⊢
    refine hold.trans (Nat.mul_le_mul_right _ ?_)
    omega
  | unpadded pad => simp [Call.steps] at hsteps
  | padded pad => simp [Call.steps] at hsteps
  | adopted => simp [Call.steps] at hsteps
  | released => simp [Call.steps] at hsteps

/-- names without padding are of pages written in full -/
def StoreWritten (blockSize : ℕ) (written : BlockId → ℕ → Bool) (σ : BlockStore H) : Prop :=
  ∀ b k, σ.named b = some k → Clean blockSize k → Full blockSize written b

/-- a match fills its pages with what the store has -/
theorem filled_matched [CollisionFree H] {q : SchedulableSequence H} {σ σ' : BlockStore H} {F : Holdings H}
    {written : BlockId → ℕ → Bool} (hinv : Inv σ (q.holdings + F)) {xs : List (ImmutableBlock H)}
    (hc : q.call .matchAndAddPrefix σ = .ok (.done, q.withMatched xs, σ'))
    (hbase : (q.withMatched xs).Base) (hst : q.staged = []) (hu : q.unassigned = [])
    (hstore : StoreWritten q.blockSize written σ) : Filled written (q.withMatched xs) := by
  intro p hp page hpage hclean
  have hb := hbase.size_pos
  have hb' : 0 < q.blockSize := hb
  have hsize : (q.withMatched xs).blockSize = q.blockSize := rfl
  rw [hsize] at hpage hclean ⊢
  have hpages : pageIndices (q.withMatched xs) = xs.map ImmutableBlock.blockId := by
    simp [pageIndices, withMatched, hst, hu]
  rw [hpages, List.getElem?_map, Option.map_eq_some_iff] at hpage
  obtain ⟨x, hx, rfl⟩ := hpage
  have hmem : x ∈ (q.withMatched xs).assigned := List.mem_of_getElem? hx
  have hname := named_of_shared (call_spec hinv hc).inv (x := x) (by simp [holdings, guards, hmem])
  rcases call_names hinv hc _ _ hname with hname | hname
  · refine hstore x.blockId x.seqHash hname ?_ _ (Nat.mod_lt _ hb')
    have hhash : x.seqHash = (q.withMatched xs).sequenceHash (p / q.blockSize) := assigned_name hbase hx
    rw [hhash]
    exact clean_sequenceHash.2 hclean
  · cases hname

/-- a schedule's pages lie past the computed positions -/
theorem filled_drawn {q : SchedulableSequence H} {σ : BlockStore H} {F : Holdings H} {written : BlockId → ℕ → Bool}
    (hinv : Inv σ (q.holdings + F)) (hb : 0 < q.blockSize) (hst : q.staged = []) (hs : q.state = .idle)
    (hmore : q.prefillPosition < q.numInputTokens ∨ q.generatedTokens < q.maxOutputTokens) (hcov : Covered q)
    (hfill : Filled written q) {ids : List BlockId} {next : SequenceState} (hids : ∀ b ∈ ids, Fresh σ b) :
    Filled (clearRows ids written) (q.drawn ids next) := by
  intro p hp page hpage hclean
  have hlt : p / q.blockSize < (pageIndices q).length := by
    have hold := hcov hmore
    have hzero : q.drawnNow = 0 := by simp [drawnNow, drawnBlocks, hs]
    rw [hzero, Nat.sub_zero] at hold
    rw [length_pageIndices, residentBlocks, hst, List.length_nil, Nat.add_zero, Nat.div_lt_iff_lt_mul hb]
    exact lt_of_lt_of_le hp hold
  have hsize : (q.drawn ids next).blockSize = q.blockSize := rfl
  rw [hsize, pageIndices_drawn, List.getElem?_append_left hlt] at hpage
  refine clearRows_keep (hfill p hp page hpage hclean) ?_
  intro hm
  exact page_not_fresh hinv (List.mem_of_getElem? hpage) (hids page hm)

/-- **A step.** A carried-out call of a request in use keeps its computed positions written. -/
theorem Live.step [CollisionFree H] {q q' : SchedulableSequence H} {c : Call} {σ σ' : BlockStore H} {F : Holdings H}
    {written : BlockId → ℕ → Bool} (h : Live written q) (hinv : Inv σ (q.holdings + F))
    (hal : Aligned (q, σ) (.call c)) (hc : q.call c σ = .ok (.done, q', σ'))
    (hstore : StoreWritten q.blockSize written σ) : Live (rowsAfter q q' c written) q' := by
  obtain ⟨cap, hrun⟩ := h.run
  have hsteps := aligned_steps (s := (q, σ)) hal
  have he : Effect q c .done q' := call_effect hc
  have hrun' : RunInv cap q' := by
    have hstep : SchedulableSequence.step (q, σ) (.call c) = .ok (q', σ') := by
      simp [SchedulableSequence.step, hc, Except.map]
    exact step_runInv (s := (q, σ)) hrun hal hstep
  refine ⟨⟨cap, hrun'⟩, covered_step he hsteps hrun h.covered, ?_⟩
  have hb := hrun.positions.base.size_pos
  have hst := hrun.positions.base.staged_nil
  have hfill := h.filled
  cases he with
  | refused c r hr => exact absurd rfl hr
  | unmatched => exact hfill.extend (n := 0) rfl (List.prefix_refl _) (List.prefix_refl _) rfl
  | matched xs hs he hne hmax hle hx =>
    have hu : q.unassigned = [] := by
      unfold residentBlocks at he
      exact List.length_eq_zero_iff.1 (by omega)
    have hm := filled_matched hinv hc hrun'.positions.base hst hu hstore
    exact hm.mono fun b _ r hr => writeRows_mono q 0 hr
  | prefillScheduled n ids hs hp hn hids =>
    obtain ⟨ids', next, heq, hfresh⟩ := schedule_fresh hinv rfl hc
    obtain rfl : ids = ids' := List.append_cancel_left (congrArg SchedulableSequence.unassigned heq)
    have hdrop : (q.drawn ids (.prefillScheduled n ids.length)).unassigned.drop q.unassigned.length = ids := by
      simp [drawn]
    simp only [rowsAfter, Call.isSchedule, if_true, hdrop]
    exact filled_drawn hinv hb hst hs (Or.inl hp) h.covered hfill hfresh
  | decodeScheduled ids hs hg hids =>
    obtain ⟨ids', next, heq, hfresh⟩ := schedule_fresh hinv rfl hc
    obtain rfl : ids = ids' := List.append_cancel_left (congrArg SchedulableSequence.unassigned heq)
    have hdrop : (q.drawn ids (.decodeScheduled ids.length)).unassigned.drop q.unassigned.length = ids := by
      simp [drawn]
    simp only [rowsAfter, Call.isSchedule, if_true, hdrop]
    exact filled_drawn hinv hb hst hs (Or.inr hg.incomplete) h.covered hfill hfresh
  | speculativeScheduled n ids hs hg hids =>
    obtain ⟨ids', next, heq, hfresh⟩ := schedule_fresh hinv rfl hc
    obtain rfl : ids = ids' := List.append_cancel_left (congrArg SchedulableSequence.unassigned heq)
    have hdrop : (q.drawn ids (.speculativeScheduled (min n q.remainingTokens) ids.length)).unassigned.drop
        q.unassigned.length = ids := by
      simp [drawn]
    simp only [rowsAfter, Call.isSchedule, if_true, hdrop]
    exact filled_drawn hinv hb hst hs (Or.inr hg.incomplete) h.covered hfill hfresh
  | prefillApplied n b t xs hs ht hf hg hx =>
    obtain ⟨hlt, -, -⟩ := hrun.positions.inPrefill n b hs
    obtain ⟨hkv, -, -⟩ := hrun.positions.prefilling hlt
    have hfed : rowsFed q (.applyPrefill t) = n := by simp [rowsFed, hs]
    simp only [rowsAfter, Call.isSchedule, Bool.false_eq_true, if_false, hfed]
    have hpages : pageIndices (q.withRegistered xs) <+: pageIndices q := by
      rw [pageIndices_withRegistered hx]
    exact hfill.extend rfl hpages (List.prefix_append _ _) (by simp [hkv])
  | decodeApplied b t xs hs hg hx =>
    simp only [rowsAfter, Call.isSchedule, Bool.false_eq_true, if_false, rowsFed]
    have hpages : pageIndices (q.withRegistered xs) <+: pageIndices q := by
      rw [pageIndices_withRegistered hx]
    exact hfill.extend rfl hpages (List.prefix_append _ _) rfl
  | speculativeApplied n b ts xs hs hn hg hx =>
    simp only [rowsAfter, Call.isSchedule, Bool.false_eq_true, if_false, rowsFed]
    have hpages : pageIndices ((q.appended ts).withRegistered xs) <+: pageIndices q := by
      rw [pageIndices_withRegistered (q := q.appended ts) hx]
      exact List.prefix_refl _
    have hkept := pageIndices_keep ((q.appended ts).withRegistered xs) (if (q.appended ts).isComplete then 0 else 1)
    exact hfill.extend rfl (hkept.trans hpages) (List.prefix_append _ _) rfl
  | reverted n hs =>
    simp only [rowsAfter, Call.isSchedule, Bool.false_eq_true, if_false, rowsFed]
    exact hfill.extend rfl (pageIndices_keep q (q.unassigned.length - n)) (List.prefix_refl _) rfl
  | unpadded pad => simp [Call.steps] at hsteps
  | padded pad => simp [Call.steps] at hsteps
  | adopted => simp [Call.steps] at hsteps
  | released => simp [Call.steps] at hsteps

/-! ## The invariant -/

/-- the matched blocks lie in the prefilled part of the prompt -/
def MatchedInput (q : SchedulableSequence H) : Prop :=
  q.prefixMatchedBlocks * q.blockSize ≤ q.prefillPosition ∧ q.prefillPosition ≤ q.numInputTokens

/-- what fit runs keep of a request -/
structure Tended (blockSize : ℕ) (written : BlockId → ℕ → Bool) (e : EntitledSeq H) : Prop where
  size : e.seq.blockSize = blockSize
  matched : MatchedInput e.seq
  live : InUse e.seq → Live written e.seq

/-- what fit runs keep -/
structure Sound [Inhabited H] (numBlocks : ℕ) (s : KvMemory H) : Prop where
  reached : s.world.Reached numBlocks
  requests : ∀ e, some e ∈ s.world.requests → Tended s.world.pool.blockSize s.written e
  store : StoreWritten s.world.pool.blockSize s.written s.world.pool.store
  tier : ∀ k rows, s.tier k = some rows → Clean s.world.pool.blockSize k → ∀ r < s.world.pool.blockSize, rows r = true
  probes : ∀ pr, some pr ∈ s.world.probes → ∀ x ∈ pr.held, x.seqHash ∈ pr.seqHashes

theorem live_new (tokens : List Token) (maxOutputTokens : ℕ) {blockSize : ℕ} (salt : SaltHash) (hb : 0 < blockSize)
    (written : BlockId → ℕ → Bool) :
    Live written (SchedulableSequence.new tokens maxOutputTokens blockSize salt : SchedulableSequence H) := by
  refine ⟨⟨_, runInv_new tokens maxOutputTokens salt hb⟩, fun _ => Nat.zero_le _, ?_⟩
  intro p hp
  exact absurd hp (Nat.not_lt_zero p)

/-- one request's guards out of all -/
theorem request_mem {w : World H} {e : EntitledSeq H} (h : some e ∈ w.requests) : ∃ j, w.request? j = some e := by
  obtain ⟨j, hj, heq⟩ := List.mem_iff_getElem.1 h
  exact ⟨j, by simp [World.request?, hj, heq]⟩

theorem page_held {w : World H} (hacc : w.Accounted) {e : EntitledSeq H} (h : some e ∈ w.requests) {b : BlockId}
    (hb : b ∈ pageIndices e.seq) : ¬ Fresh w.pool.store b := by
  obtain ⟨j, hj⟩ := request_mem h
  obtain ⟨F, hF, -⟩ := World.holdings_request hj
  unfold World.Accounted at hacc
  rw [hF] at hacc
  exact page_not_fresh hacc hb

theorem Live.cleared {w : World H} (hacc : w.Accounted) {e : EntitledSeq H} (he : some e ∈ w.requests)
    {written : BlockId → ℕ → Bool} (h : Live written e.seq) {ids : List BlockId}
    (hids : ∀ b ∈ ids, Fresh w.pool.store b) : Live (clearRows ids written) e.seq := by
  refine ⟨h.run, h.covered, h.filled.mono ?_⟩
  intro b hb r hr
  exact clearRows_keep hr fun hm => page_held hacc he hb (hids b hm)

theorem Live.fed {q : SchedulableSequence H} {written : BlockId → ℕ → Bool} (h : Live written q)
    (q' : SchedulableSequence H) (n : ℕ) : Live (writeRows q' n written) q :=
  ⟨h.run, h.covered, h.filled.mono fun _ _ _ hr => writeRows_mono q' n hr⟩

/-- a request that calls leaves the others' pages alone -/
theorem Live.others {w : World H} (hacc : w.Accounted) {e a : EntitledSeq H} {i : ℕ} (he : w.request? i = some e)
    (ha : some a ∈ w.requests) {written : BlockId → ℕ → Bool} (h : Live written a.seq) {c : Call}
    {q' : SchedulableSequence H} {σ' : BlockStore H} (hc : e.seq.call c w.pool.store = .ok (.done, q', σ')) :
    Live (rowsAfter e.seq q' c written) a.seq := by
  unfold rowsAfter
  split_ifs with hs
  · obtain ⟨F, hF, -⟩ := World.holdings_request he
    have hinv := hacc
    unfold World.Accounted at hinv
    rw [hF] at hinv
    obtain ⟨ids, next, rfl, hfresh⟩ := schedule_fresh hinv hs hc
    refine h.cleared hacc ha ?_
    intro b hb
    refine hfresh b ?_
    simpa [drawn] using hb
  · exact h.fed e.seq _

/-! ## Calls -/

theorem writeRows_zero (q : SchedulableSequence H) (written : BlockId → ℕ → Bool) : writeRows q 0 written = written := by
  funext b r
  simp [writeRows]

/-- a released request is in use only if nothing of it was computed -/
theorem Live.released {q : SchedulableSequence H} {written : BlockId → ℕ → Bool} (h : InUse q → Live written q)
    (hs : q.state = .idle) (hu : InUse q.cleared) : Live written q.cleared := by
  obtain ⟨htotal, hempty⟩ := hu
  have hkv : q.kvPosition = 0 := hempty (Nat.zero_le _)
  obtain ⟨cap, hrun⟩ := (h ⟨htotal, fun _ => hkv⟩).run
  have he : Effect q .release .done q.cleared := .released hs
  have hfresh : q.prefillPosition = 0 := by
    rcases Nat.lt_or_ge q.prefillPosition q.numInputTokens with hlt | hge
    · exact (hrun.positions.prefilling hlt).1.symm.trans hkv
    · rcases hrun.positions.generating (le_antisymm hrun.positions.prefill_le hge) with ⟨hg, hk⟩ | ⟨-, hk, -⟩
      · have hle := hrun.positions.prefill_le
        omega
      · have hle := hrun.positions.prefill_le
        omega
  refine ⟨⟨cap, ?_⟩, ?_, ?_⟩
  · refine ⟨he.positions (fun hc => by cases hc) hrun.positions, .of_idle hs, htotal, fun _ => Or.inl hfresh, ?_⟩
    exact (Nat.zero_mul _).le.trans (Nat.zero_le _)
  · intro _
    exact hkv.le.trans (Nat.zero_le _)
  · intro p hp
    have hp : p < q.kvPosition := hp
    omega

/-- an adopted anchor moves no page and no row -/
theorem Live.adopted {q q' : SchedulableSequence H} {written : BlockId → ℕ → Bool} (h : Live written q)
    (he : Effect q .adoptExternalPrefillAnchor .done q') : Live written q' := by
  obtain ⟨cap, hrun⟩ := h.run
  have hpos := he.positions (fun hc => by cases hc) hrun.positions
  have hprov := he.provisioned hrun.positions.base hrun.provisioned
  cases he with
  | refused c r hr => exact absurd rfl hr
  | adopted hs hk hp ht hg =>
    refine ⟨⟨cap, hpos, hprov, ?_, ?_, hrun.computed⟩, fun _ => h.covered (Or.inl (by omega)), h.filled⟩
    · have := hrun.unpadded
      show q.totalTokens = q.numInputTokens - 1 + (q.generatedTokens + 1)
      omega
    · intro hempty
      exact (hrun.emptyFresh hempty).imp_right fun hd => ⟨hd.1.trans (Nat.le_succ _), hd.2⟩

theorem mem_registered {q : SchedulableSequence H} {xs : List (ImmutableBlock H)} (hx : q.Registers xs) {b : BlockId}
    {k : H} (hm : (b, k) ∈ q.staged ++ q.pendingPairs) :
    ∃ x ∈ (q.withRegistered xs).assigned, x.blockId = b ∧ x.seqHash = k := by
  rw [← hx] at hm
  obtain ⟨x, hxs, heq⟩ := List.mem_map.1 hm
  exact ⟨x, List.mem_append_right _ hxs, (Prod.mk.inj heq).1, (Prod.mk.inj heq).2⟩

/-- what a step registers, the request holds -/
theorem mem_registerPairs {q q' : SchedulableSequence H} {c : Call} (he : Effect q c .done q') (hs : c.steps = true)
    {b : BlockId} {k : H} (hm : (b, k) ∈ q.registerPairs c) : ∃ x ∈ q'.assigned, x.blockId = b ∧ x.seqHash = k := by
  cases he with
  | refused c r hr => exact absurd rfl hr
  | prefillApplied n d t xs hst ht hf hg hx => exact mem_registered hx hm
  | decodeApplied d t xs hst hg hx => exact mem_registered hx hm
  | speculativeApplied n d ts xs hst hn hg hx => exact mem_registered (q := q.appended ts) hx hm
  | padded pad => simp [Call.steps] at hs
  | unpadded pad => simp [Call.steps] at hs
  | _ => cases hm

/-- a name that outlives a call keeps its rows: what the call draws has no name yet -/
theorem rowsAfter_named {q q' : SchedulableSequence H} {c : Call} {σ' : BlockStore H} {F : Holdings H}
    (hinv' : Inv σ' (q'.holdings + F)) {written : BlockId → ℕ → Bool} {b : BlockId} {k : H}
    (hb : σ'.named b = some k) {r : ℕ} (h : written b r = true) : rowsAfter q q' c written b r = true := by
  unfold rowsAfter
  split_ifs
  · refine clearRows_keep h ?_
    intro hm
    have hslot := (hinv'.slots.mutable_iff b).1 (by simp [holdings, guards, List.mem_of_mem_drop hm])
    rw [BlockStore.named, hslot] at hb
    cases hb
  · exact writeRows_mono q _ h

/-- **Names of a step.** What a step of a request in use registers without padding is written in full. -/
theorem storeWritten_step [CollisionFree H] {q q' : SchedulableSequence H} {c : Call} {σ σ' : BlockStore H}
    {F : Holdings H} {written : BlockId → ℕ → Bool} (hinv : Inv σ (q.holdings + F)) (hsteps : c.steps = true)
    (hc : q.call c σ = .ok (.done, q', σ')) (hlive : Live (rowsAfter q q' c written) q')
    (hstore : StoreWritten q.blockSize written σ) : StoreWritten q.blockSize (rowsAfter q q' c written) σ' := by
  intro b k hb hclean
  have he : Effect q c .done q' := call_effect hc
  have hsize := he.blockSize
  rcases call_names hinv hc b k hb with hold | hnew
  · intro r hr
    exact rowsAfter_named (call_spec hinv hc).inv hb (hstore b k hold hclean r hr)
  · obtain ⟨x, hx, rfl, rfl⟩ := mem_registerPairs he hsteps hnew
    obtain ⟨cap, hrun⟩ := hlive.run
    obtain ⟨i, hi, hpage, hname⟩ := assigned_page hrun.positions.base hx
    rw [← hsize] at hclean ⊢
    rw [hname] at hclean
    refine hlive.filled.full hpage (clean_sequenceHash.1 hclean) ?_
    exact (Nat.mul_le_mul_right _ hi).trans hrun.computed

/-- padding leaves a sequence that ends on a boundary alone -/
theorem padTailBlock_cases {q q' : SchedulableSequence H} {pad : Token} {σ σ' : BlockStore H} {r : CallResult}
    (hc : q.call (.padTailBlock pad) σ = .ok (r, q', σ')) :
    (q' = q ∧ σ' = σ) ∨ (q.kvPosition % q.blockSize ≠ 0 ∧
      ∃ xs, { q with tokens := q.tokens ++ List.replicate q.padCount pad }.Registers xs ∧
        q' = { q with tokens := q.tokens ++ List.replicate q.padCount pad }.withRegistered xs) := by
  obtain ⟨_, hx, -⟩ := map_ok hc
  unfold padTailBlock at hx
  split_ifs at hx with hs hk
  · simp only [Except.ok.injEq, Prod.mk.injEq] at hx
    exact Or.inl ⟨hx.2.1.symm, hx.2.2.symm⟩
  · simp only [Except.ok.injEq, Prod.mk.injEq] at hx
    exact Or.inl ⟨hx.2.1.symm, hx.2.2.symm⟩
  · split at hx
    · cases hx
    · rename_i q₁ σ₁ hreg
      simp only [Except.ok.injEq, Prod.mk.injEq] at hx
      obtain ⟨-, rfl, rfl⟩ := hx
      obtain ⟨xs, hxs, rfl⟩ := completeAndRegisterPending_ok hreg
      exact Or.inr ⟨hk, xs, hxs, rfl⟩

/-- once the prompt is prefilled, every block short of the last token is computed -/
theorem complete_computed {cap : ℕ} {q : SchedulableSequence H} (h : RunInv cap q)
    (hfull : q.numInputTokens ≤ q.prefillPosition) (htail : q.totalTokens % q.blockSize ≠ 0) {i : ℕ}
    (hend : (i + 1) * q.blockSize ≤ q.totalTokens) : (i + 1) * q.blockSize ≤ q.kvPosition := by
  have hne : (i + 1) * q.blockSize ≠ q.totalTokens := by
    intro heq
    rw [← heq, Nat.mul_mod_left] at htail
    exact htail rfl
  have hunpadded := h.unpadded
  rcases h.positions.generating (le_antisymm h.positions.prefill_le hfull) with ⟨hg, hk⟩ | ⟨hg, hk, -⟩
  · omega
  · omega

/-- **Names of a padding.** A block that padding completes has a padding token, or all its positions are computed. -/
theorem storeWritten_pad [CollisionFree H] {q q' : SchedulableSequence H} {σ σ' : BlockStore H} {F : Holdings H}
    {written : BlockId → ℕ → Bool} (hinv : Inv σ (q.holdings + F)) {r : CallResult}
    (hc : q.call (.padTailBlock PAD_TOKEN_ID) σ = .ok (r, q', σ')) (hlive : Live written q)
    (hfull : q.numInputTokens ≤ q.prefillPosition)
    (htail : q.kvPosition % q.blockSize = 0 ∨ q.totalTokens % q.blockSize ≠ 0)
    (hstore : StoreWritten q.blockSize written σ) :
    StoreWritten q.blockSize written σ' ∧ (InUse q' → Live written q') := by
  have hnames := call_names hinv hc
  obtain ⟨cap, hrun⟩ := hlive.run
  rcases padTailBlock_cases hc with ⟨rfl, rfl⟩ | ⟨hk, xs, hxs, rfl⟩
  · exact ⟨hstore, fun _ => hlive⟩
  have htail := htail.resolve_left hk
  have hb := hrun.positions.base.size_pos
  have hcount : q.padCount = q.blockSize - q.totalTokens % q.blockSize := if_neg htail
  set p : SchedulableSequence H := { q with tokens := q.tokens ++ List.replicate q.padCount PAD_TOKEN_ID } with hp
  have hpBase : p.Base := hrun.positions.base.extend _
  have hpages : pageIndices (p.withRegistered xs) = pageIndices q := pageIndices_withRegistered hxs
  have htotal : p.totalTokens = q.totalTokens + q.padCount := by
    simp [hp, totalTokens]
  refine ⟨?_, ?_⟩
  · intro b k hname hclean
    rcases hnames b k hname with hold | hnew
    · exact hstore b k hold hclean
    · obtain ⟨x, hx, rfl, rfl⟩ := mem_registered hxs hnew
      have hbase : (p.withRegistered xs).Base := hpBase.registered hxs
      obtain ⟨i, hi, hpage, hseq⟩ := assigned_page hbase hx
      rw [hseq] at hclean
      have hclean : PAD_TOKEN_ID ∉ p.tokens.take ((i + 1) * q.blockSize) := clean_sequenceHash.1 hclean
      rw [hpages] at hpage
      by_cases hend : (i + 1) * q.blockSize ≤ q.totalTokens
      · refine hlive.filled.full hpage ?_ (complete_computed hrun hfull htail hend)
        intro hm
        refine hclean ?_
        rw [hp, List.take_append_of_le_length hend]
        exact hm
      · -- the block reaches past the request's tokens
        refine absurd ?_ hclean
        have hlen : (i + 1) * q.blockSize ≤ p.totalTokens := by
          have := (Nat.mul_le_mul_right q.blockSize hi).trans (Nat.mul_le_mul_right _ hbase.assigned_le)
          exact this.trans (Nat.div_mul_le_self _ _)
        rw [hp, List.take_append, List.mem_append]
        refine Or.inr ?_
        have hpos : min ((i + 1) * q.blockSize - q.tokens.length) q.padCount ≠ 0 := by
          have : q.totalTokens = q.tokens.length := rfl
          omega
        rw [List.take_replicate, List.mem_replicate]
        exact ⟨hpos, rfl⟩
  · rintro ⟨hu, -⟩
    have hu : p.totalTokens = q.numInputTokens + q.generatedTokens := hu
    have hlt := Nat.mod_lt q.totalTokens hb
    have hunpadded := hrun.unpadded
    omega

/-! ## Operations -/

theorem Tended.of_seq {blockSize : ℕ} {written : BlockId → ℕ → Bool} {e e' : EntitledSeq H}
    (h : Tended blockSize written e) (hseq : e'.seq = e.seq) : Tended blockSize written e' := by
  refine ⟨?_, ?_, ?_⟩
  · rw [hseq]
    exact h.size
  · rw [hseq]
    exact h.matched
  · rw [hseq]
    exact h.live

theorem Tended.rows {blockSize : ℕ} {written written' : BlockId → ℕ → Bool} {e : EntitledSeq H}
    (h : Tended blockSize written e) (hl : Live written e.seq → Live written' e.seq) : Tended blockSize written' e :=
  ⟨h.size, h.matched, fun huse => hl (h.live huse)⟩

/-- the store's part of one request's calls -/
theorem World.Accounted.request {w : World H} (h : w.Accounted) {i : ℕ} {e : EntitledSeq H}
    (he : w.request? i = some e) : ∃ F, Inv w.pool.store (e.seq.holdings + F) := by
  obtain ⟨F, hF, -⟩ := World.holdings_request he
  unfold World.Accounted at h
  rw [hF] at h
  exact ⟨F, h⟩

theorem Effect.matchedInput {q q' : SchedulableSequence H} {c : Call} {r : CallResult} (he : Effect q c r q')
    (h : MatchedInput q)
    (hfresh : q.residentBlocks = 0 → 0 < q.completeSequenceBlocks → q.prefillPosition = 0)
    (hchunk : ∀ n b, q.state = .prefillScheduled n b → q.prefillPosition + n ≤ q.numInputTokens) : MatchedInput q' := by
  cases he with
  | matched xs hs he hne hmax hle hx =>
    have hzero := hfresh he (lt_of_lt_of_le (List.length_pos_of_ne_nil hne) hle)
    obtain ⟨hm, hp⟩ := h
    have hnone : q.prefixMatchedBlocks * q.blockSize = 0 := Nat.eq_zero_of_le_zero (hm.trans hzero.le)
    have hmul : xs.length * q.blockSize ≤ q.numInputTokens := by
      refine (Nat.mul_le_mul_right _ hmax).trans ?_
      unfold maxMatchedBlocks
      exact (Nat.div_mul_le_self _ _).trans (Nat.sub_le _ _)
    refine ⟨?_, ?_⟩
    · simp only [withMatched, Nat.add_mul]
      omega
    · simp only [withMatched]
      omega
  | prefillApplied n b t xs hs => exact ⟨h.1.trans (Nat.le_add_right _ _), hchunk n b hs⟩
  | adopted hs hk hp =>
    refine ⟨h.1, ?_⟩
    show q.prefillPosition ≤ q.numInputTokens - 1
    omega
  | _ => exact h

/-- a carried-out call of a request in its fit state -/
theorem call_sound [CollisionFree H] [Inhabited H] {n : ℕ} {s : KvMemory H} (h : Sound n s) {i : ℕ} {c : Call}
    {e e' : EntitledSeq H} {p : BlockPool H} (he : s.world.request? i = some e)
    (hfit : FitCall e.seq s.world.pool.store c) (hreq : e.request c s.world.pool = .ok (.done, e', p)) :
    StoreWritten s.world.pool.blockSize (rowsAfter e.seq e'.seq c s.written) p.store ∧
      Tended s.world.pool.blockSize (rowsAfter e.seq e'.seq c s.written) e' := by
  obtain ⟨F, hinv⟩ := h.reached.accounted.request he
  obtain ⟨hsize, hmatched, hlive⟩ := h.requests e (World.mem_of_slot (World.request_slot he))
  have hc := (World.request_ok hreq).1
  have heff : Effect e.seq c .done e'.seq := call_effect hc
  have hstore := h.store
  rw [← hsize] at hstore ⊢
  have hstep : InUse e.seq → Aligned (e.seq, s.world.pool.store) (.call c) →
      StoreWritten e.seq.blockSize (rowsAfter e.seq e'.seq c s.written) p.store ∧
        Tended e.seq.blockSize (rowsAfter e.seq e'.seq c s.written) e' := by
    intro huse hal
    have hsteps := aligned_steps (s := (e.seq, s.world.pool.store)) hal
    have hlive' := (hlive huse).step hinv hal hc hstore
    obtain ⟨cap, hrun⟩ := (hlive huse).run
    refine ⟨storeWritten_step hinv hsteps hc hlive' hstore, heff.blockSize, ?_, fun _ => hlive'⟩
    exact Effect.matchedInput heff hmatched hrun.match_fresh fun m b hs => (hrun.positions.inPrefill m b hs).2.1
  cases c with
  | release =>
    have hkeep : rowsAfter e.seq e'.seq .release s.written = s.written := writeRows_zero e.seq s.written
    rw [hkeep]
    refine ⟨?_, heff.blockSize, ?_, ?_⟩
    · intro b k hname hclean
      rcases call_names hinv hc b k hname with hold | hnew
      · exact hstore b k hold hclean
      · cases hnew
    · generalize e'.seq = q' at heff
      cases heff with
      | refused c r hr => exact absurd rfl hr
      | released hs => exact hmatched
    · generalize e'.seq = q' at heff
      cases heff with
      | refused c r hr => exact absurd rfl hr
      | released hs => exact Live.released hlive hs
  | adoptExternalPrefillAnchor =>
    have hkeep : rowsAfter e.seq e'.seq .adoptExternalPrefillAnchor s.written = s.written :=
      writeRows_zero e.seq s.written
    rw [hkeep]
    have hlive' := (hlive hfit).adopted heff
    obtain ⟨cap, hrun⟩ := (hlive hfit).run
    refine ⟨?_, heff.blockSize, ?_, fun _ => hlive'⟩
    · intro b k hname hclean
      rcases call_names hinv hc b k hname with hold | hnew
      · exact hstore b k hold hclean
      · cases hnew
    · exact Effect.matchedInput heff hmatched hrun.match_fresh fun m b hs => (hrun.positions.inPrefill m b hs).2.1
  | padTailBlock pad =>
    have hkeep : rowsAfter e.seq e'.seq (.padTailBlock pad) s.written = s.written := writeRows_zero e.seq s.written
    rw [hkeep]
    obtain ⟨huse, rfl, hfull, htail⟩ := hfit
    obtain ⟨hnamed, hlive'⟩ := storeWritten_pad hinv hc (hlive huse) hfull htail hstore
    refine ⟨hnamed, heff.blockSize, ?_, hlive'⟩
    rcases padTailBlock_cases hc with ⟨hq, -⟩ | ⟨-, xs, -, hq⟩
    · rw [hq]
      exact hmatched
    · rw [hq]
      exact hmatched
  | _ => exact hstep hfit.1 hfit.2

/-- an operation that touches neither rows nor the tier and names nothing -/
theorem Sound.quiet [Inhabited H] {n : ℕ} {s s' : KvMemory H} (h : Sound n s) (hr : s'.world.Reached n)
    (hb : s'.world.pool.blockSize = s.world.pool.blockSize)
    (hnames : Names s.world.pool.store s'.world.pool.store []) (hw : s'.written = s.written) (ht : s'.tier = s.tier)
    (hreq : ∀ e, some e ∈ s'.world.requests → Tended s.world.pool.blockSize s.written e)
    (hpr : ∀ pr, some pr ∈ s'.world.probes → ∀ x ∈ pr.held, x.seqHash ∈ pr.seqHashes) : Sound n s' := by
  refine ⟨hr, ?_, ?_, ?_, hpr⟩
  · rw [hb, hw]
    exact hreq
  · intro b k hname hclean
    rw [hb] at hclean ⊢
    rw [hw]
    rcases hnames b k hname with hold | hnew
    · exact h.store b k hold hclean
    · cases hnew
  · rw [hb, ht]
    exact h.tier

theorem step_call_sound [CollisionFree H] [Inhabited H] {n : ℕ} {s s' : KvMemory H} (h : Sound n s) {i : ℕ} {c : Call}
    (hfit : s.Fit (.call i c)) (hs : s.step (.call i c) = .ok s') : Sound n s' := by
  obtain ⟨-, hw, hwritten, htier⟩ := KvMemory.step_ok hs
  have hreach := World.step_reached h.reached hw
  have hsize := (World.step_kept h.reached.accounted h.reached.padded hw).blockSize
  simp only [KvMemory.Fit] at hfit
  simp only [World.step] at hw
  cases he : s.world.request? i with
  | none =>
    simp only [he, Except.ok.injEq] at hw
    simp only [KvMemory.writtenAfter, he] at hwritten
    exact h.quiet hreach hsize (.same (by rw [hw])) hwritten htier (by rw [← hw]; exact h.requests)
      (by rw [← hw]; exact h.probes)
  | some e =>
    simp only [he] at hw hfit
    split at hw
    · cases hw
    · rename_i r e' p hreq
      have hmem := World.mem_of_slot (World.request_slot he)
      have hc := (World.request_ok hreq).1
      obtain ⟨F, hinv⟩ := h.reached.accounted.request he
      by_cases hr : r = .done
      · subst hr
        obtain ⟨hstore, htended⟩ := call_sound h he hfit hreq
        simp only [KvMemory.writtenAfter, he, hreq] at hwritten
        refine ⟨hreach, ?_, ?_, ?_, ?_⟩
        · rw [hsize, hwritten, ← Except.ok.inj hw]
          refine World.forall_some_set ?_ ?_
          · intro a ha
            exact (h.requests a ha).rows fun hl => hl.others h.reached.accounted he ha hc
          · intro a ha
            obtain rfl := Option.some.inj ha
            exact htended
        · rw [hsize, hwritten, ← Except.ok.inj hw]
          exact hstore
        · rw [hsize, htier]
          exact h.tier
        · rw [← Except.ok.inj hw]
          exact h.probes
      · obtain ⟨hseq, hσ⟩ := (call_spec hinv hc).refused hr
        have hwritten : s'.written = s.written := by
          rw [hwritten]
          simp only [KvMemory.writtenAfter, he, hreq]
          cases r with
          | done => exact absurd rfl hr
          | _ => rfl
        refine h.quiet hreach hsize (.same ?_) hwritten htier ?_ ?_
        · rw [← Except.ok.inj hw]
          exact hσ.symm
        · rw [← Except.ok.inj hw]
          refine World.forall_some_set h.requests ?_
          intro a ha
          obtain rfl := Option.some.inj ha
          exact (h.requests e hmem).of_seq hseq
        · rw [← Except.ok.inj hw]
          exact h.probes

theorem step_reserve_sound [Inhabited H] {n : ℕ} {s s' : KvMemory H} (h : Sound n s) {count : ℕ}
    (hs : s.step (.reserve count) = .ok s') : Sound n s' := by
  obtain ⟨-, hw, hwritten, htier⟩ := KvMemory.step_ok hs
  have hreach := World.step_reached h.reached hw
  have hsize := (World.step_kept h.reached.accounted h.reached.padded hw).blockSize
  have hnames := World.step_names h.reached.accounted hw
  simp only [World.step] at hw
  simp only [KvMemory.writtenAfter] at hwritten
  split at hw
  · cases hw
  · rename_i hres
    simp only [hres] at hwritten
    exact h.quiet hreach hsize hnames hwritten htier (by rw [← Except.ok.inj hw]; exact h.requests)
      (by rw [← Except.ok.inj hw]; exact h.probes)
  · rename_i ids p hres
    simp only [hres] at hwritten
    have hfresh := allocateBlocks_fresh h.reached.accounted (World.reserveLoadedBlocks_ok hres).2.1
    refine ⟨hreach, ?_, ?_, ?_, ?_⟩
    · rw [hsize, hwritten, ← Except.ok.inj hw]
      intro e he
      exact (h.requests e he).rows fun hl => hl.cleared h.reached.accounted he fun b hb => (hfresh b hb).1
    · rw [hsize, hwritten]
      intro b k hname hclean r hr
      rcases hnames b k hname with hold | hnew
      · refine clearRows_keep (h.store b k hold hclean r hr) ?_
        intro hm
        rw [← Except.ok.inj hw] at hname
        have hnone : p.store.named b = none := (hfresh b hm).2
        rw [hnone] at hname
        cases hname
      · cases hnew
    · rw [hsize, htier]
      exact h.tier
    · rw [← Except.ok.inj hw]
      exact h.probes

/-- a request and a reservation hold different pages -/
theorem page_not_reserved {w : World H} (hacc : w.Accounted) (hnamed : w.Named) {e : EntitledSeq H}
    (he : some e ∈ w.requests) {j : ℕ} {ids : List BlockId} (hr : w.reservation? j = some ids) {b : BlockId}
    (hb : b ∈ pageIndices e.seq) : b ∉ ids := by
  intro hm
  obtain ⟨i, hi⟩ := request_mem he
  obtain ⟨F, hF, hset⟩ := World.holdings_reservation hr
  have hi' : ({ w with reservations := w.reservations.set j none } : World H).request? i = some e := hi
  obtain ⟨F', hF', -⟩ := World.holdings_request hi'
  have hsplit : w.holdings = Holdings.ofMutable ids + (e.seq.holdings + F') := by
    rw [hF, ← hF']
    refine congrArg (Holdings.ofMutable ids + ·) ?_
    exact ((hset none w.pool).trans (zero_add F)).symm
  have hinv := hacc
  unfold World.Accounted at hinv
  rw [hsplit] at hinv
  have hslot : w.pool.store.slots b = .mutable := (hinv.slots.mutable_iff b).1 (by simp [Holdings.ofMutable, hm])
  simp only [pageIndices, (hnamed.requests e he).staged_nil, List.map_nil, List.append_nil, List.mem_append,
    List.mem_map] at hb
  rcases hb with ⟨x, hx, rfl⟩ | hb
  · have hname := named_of_shared hinv (x := x) (by simp [holdings, guards, Holdings.ofMutable, hx])
    rw [BlockStore.named, hslot] at hname
    cases hname
  · have hnodup := hinv.slots.mutable_nodup
    simp only [Prod.fst_add, Multiset.nodup_add] at hnodup
    have hres : b ∈ (Holdings.ofMutable ids : Holdings H).1 := by simpa [Holdings.ofMutable] using hm
    exact Multiset.disjoint_left.1 hnodup.2.2 hres (by simp [holdings, guards, hb])

theorem loadRows_other {pages : List (BlockId × H)} {tier : H → Option (ℕ → Bool)} {written : BlockId → ℕ → Bool}
    {b : BlockId} (hb : b ∉ pages.map Prod.fst) (r : ℕ) : loadRows pages tier written b r = written b r := by
  have hnone : pages.find? (fun c => c.1 == b) = none := by
    rw [List.find?_eq_none]
    intro c hc heq
    exact hb (List.mem_map.2 ⟨c, hc, by simpa using heq⟩)
  simp only [loadRows, hnone]

theorem loadRows_page {pages : List (BlockId × H)} {tier : H → Option (ℕ → Bool)} {written : BlockId → ℕ → Bool}
    (hnodup : (pages.map Prod.fst).Nodup) {b : BlockId} {k : H} (hm : (b, k) ∈ pages) {rows : ℕ → Bool}
    (ht : tier k = some rows) (r : ℕ) : loadRows pages tier written b r = rows r := by
  have hfind : pages.find? (fun c => c.1 == b) = some (b, k) := by
    induction pages with
    | nil => cases hm
    | cons c cs ih =>
      rw [List.map_cons, List.nodup_cons] at hnodup
      rcases List.mem_cons.1 hm with rfl | hm
      · simp
      · have hne : c.1 ≠ b := by
          rintro rfl
          exact hnodup.1 (List.mem_map.2 ⟨_, hm, rfl⟩)
        rw [List.find?_cons_of_neg (by simpa using hne)]
        exact ih hnodup.2 hm
  simp only [loadRows, hfind, ht, Option.any_some]

theorem step_commit_sound [Inhabited H] {n : ℕ} {s s' : KvMemory H} (h : Sound n s) {i j : ℕ}
    (hs : s.step (.commit i j) = .ok s') : Sound n s' := by
  obtain ⟨hload, hw, hwritten, htier⟩ := KvMemory.step_ok hs
  have hreach := World.step_reached h.reached hw
  have hsize := (World.step_kept h.reached.accounted h.reached.padded hw).blockSize
  have hnames := World.step_names h.reached.accounted hw
  simp only [World.step] at hw
  simp only [KvMemory.writtenAfter] at hwritten
  simp only [KvMemory.loadable, List.all_eq_true] at hload
  split at hw
  · rename_i pr ids hpr hr
    have hpairs : s.world.registerPairs (.commit i j) = ids.zip (pr.seqHashes.drop pr.gpuHit) := by
      simp only [World.registerPairs, hpr, hr]
    rw [hpairs] at hwritten hload hnames
    split at hw
    · cases hw
    · rename_i pr' p hcommit
      obtain ⟨F, hF, -⟩ := World.holdings_reservation hr
      have hinv := h.reached.accounted
      unfold World.Accounted at hinv
      rw [hF] at hinv
      have hslot : ∀ b ∈ ids, s.world.pool.store.slots b = .mutable := fun b hb =>
        (hinv.slots.mutable_iff b).1 (by simp [Holdings.ofMutable, hb])
      have hnodup : ids.Nodup := by
        have := hinv.slots.mutable_nodup
        simp only [Prod.fst_add, Multiset.nodup_add] at this
        simpa [Holdings.ofMutable] using this.1
      unfold BlockPool.commitLoadedBlocks at hcommit
      split at hcommit
      · cases hcommit
      rename_i xs σ' hxs
      simp only [Except.ok.injEq, Prod.mk.injEq] at hcommit
      obtain ⟨-, -, hhash, hlen, -⟩ := World.commitBlocks_spec ids hinv hxs
      have hzip : (ids.zip (pr.seqHashes.drop pr.gpuHit)).map Prod.fst = ids := by
        refine List.map_fst_zip ?_
        have := congrArg List.length hhash
        rw [List.length_map, List.length_take, hlen] at this
        omega
      refine ⟨hreach, ?_, ?_, ?_, ?_⟩
      · rw [hsize, hwritten, ← Except.ok.inj hw]
        intro e he
        refine (h.requests e he).rows fun hl => ⟨hl.run, hl.covered, hl.filled.mono ?_⟩
        intro b hb r hrow
        have hnot := page_not_reserved h.reached.accounted h.reached.named he hr hb
        rw [loadRows_other fun hm => hnot (hzip ▸ hm)]
        exact hrow
      · rw [hsize, hwritten]
        intro b k hname hclean r hrow
        rcases hnames b k hname with hold | hnew
        · rw [loadRows_other]
          · exact h.store b k hold hclean r hrow
          · rw [hzip]
            intro hm
            rw [BlockStore.named, hslot b hm] at hold
            cases hold
        · obtain ⟨rows, hrows⟩ := Option.isSome_iff_exists.1 (hload _ hnew)
          rw [loadRows_page (by rw [hzip]; exact hnodup) hnew hrows]
          exact h.tier k rows hrows hclean r hrow
      · rw [hsize, htier]
        exact h.tier
      · rw [← Except.ok.inj hw]
        refine World.forall_some_set h.probes ?_
        intro pr₁ hpr₁
        obtain rfl := Option.some.inj hpr₁
        rw [← hcommit.1]
        intro x hx
        rcases List.mem_append.1 hx with hx | hx
        · exact h.probes pr (World.mem_of_slot (World.probe_slot hpr)) x hx
        · have hmem := List.mem_map_of_mem (f := ImmutableBlock.seqHash) hx
          rw [hhash] at hmem
          exact List.mem_of_mem_drop (List.mem_of_mem_take hmem)
  · rename_i hnone
    have hpairs : s.world.registerPairs (.commit i j) = [] := by
      simp only [World.registerPairs]
    have hwritten : s'.written = s.written := by
      rw [hwritten, hpairs]
      rfl
    rw [hpairs] at hnames
    exact h.quiet hreach hsize hnames hwritten htier (by rw [← Except.ok.inj hw]; exact h.requests)
      (by rw [← Except.ok.inj hw]; exact h.probes)

theorem step_guard_sound [Inhabited H] {n : ℕ} {s s' : KvMemory H} (h : Sound n s) {i : ℕ}
    (hs : s.step (.guardAssigned i) = .ok s') : Sound n s' := by
  obtain ⟨-, hw, hwritten, htier⟩ := KvMemory.step_ok hs
  have hreach := World.step_reached h.reached hw
  have hsize := (World.step_kept h.reached.accounted h.reached.padded hw).blockSize
  have hnames := World.step_names h.reached.accounted hw
  have hwritten : s'.written = s.written := hwritten
  simp only [World.step] at hw
  simp only [KvMemory.tierAfter] at htier
  cases he : s.world.request? i with
  | none =>
    simp only [he] at hw htier
    exact h.quiet hreach hsize hnames hwritten htier (by rw [← Except.ok.inj hw]; exact h.requests)
      (by rw [← Except.ok.inj hw]; exact h.probes)
  | some e =>
    simp only [he] at hw htier
    obtain ⟨F, hinv⟩ := h.reached.accounted.request he
    refine ⟨hreach, ?_, ?_, ?_, ?_⟩
    · rw [hsize, hwritten, ← Except.ok.inj hw]
      exact h.requests
    · rw [hsize, hwritten]
      intro b k hname hclean
      rcases hnames b k hname with hold | hnew
      · exact h.store b k hold hclean
      · cases hnew
    · rw [hsize, htier]
      intro k rows hrows hclean
      simp only at hrows
      split at hrows
      · exact h.tier k rows hrows hclean
      · rename_i x hfind
        have hx := List.mem_of_find?_eq_some hfind
        have hk : x.seqHash = k := by simpa using List.find?_some hfind
        rw [← Option.some.inj hrows]
        have hname := named_of_shared hinv (x := x) (by simp [holdings, guards, hx])
        rw [hk] at hname
        exact h.store x.blockId k hname hclean
    · rw [← Except.ok.inj hw]
      exact h.probes

/-- operations on probes, and drops -/
theorem step_probe_sound [Inhabited H] {n : ℕ} {s s' : KvMemory H} (h : Sound n s) {tokens : List Token}
    {salt : SaltHash} (hs : s.step (.probe tokens salt) = .ok s') : Sound n s' := by
  obtain ⟨-, hw, hwritten, htier⟩ := KvMemory.step_ok hs
  have hreach := World.step_reached h.reached hw
  have hsize := (World.step_kept h.reached.accounted h.reached.padded hw).blockSize
  have hnames := World.step_names h.reached.accounted hw
  obtain ⟨hits, σ', heq, hm⟩ := matchBlocks_spec
    (SchedulableSequence.new tokens 0 s.world.pool.blockSize salt).allSequenceHashes h.reached.accounted
  simp only [World.step, BlockPool.probePrefix, heq] at hw
  refine h.quiet hreach hsize hnames hwritten htier (by rw [← Except.ok.inj hw]; exact h.requests) ?_
  rw [← Except.ok.inj hw]
  refine World.forall_some_concat h.probes ?_
  intro x hx
  have hmem := List.mem_map_of_mem (f := ImmutableBlock.seqHash) hx
  rw [hm.hashes] at hmem
  exact (List.takeWhile_sublist _).subset hmem

/-- **A step.** Every fit operation keeps the invariant. -/
theorem step_sound [CollisionFree H] [Inhabited H] {n : ℕ} {s s' : KvMemory H} {o : Op} (h : Sound n s)
    (hfit : s.Fit o) (hs : s.step o = .ok s') : Sound n s' := by
  obtain ⟨-, hw, hwritten, htier⟩ := KvMemory.step_ok hs
  have hreach := World.step_reached h.reached hw
  have hsize := (World.step_kept h.reached.accounted h.reached.padded hw).blockSize
  have hnames := World.step_names h.reached.accounted hw
  have hquiet := @Sound.quiet H _ _ _ n s s' h hreach hsize
  cases o with
  | newRequest ts m salt =>
    refine hquiet hnames hwritten htier ?_ (by rw [← Except.ok.inj hw]; exact h.probes)
    rw [← Except.ok.inj hw]
    refine World.forall_some_concat h.requests ⟨rfl, ⟨(Nat.zero_mul _).le, Nat.zero_le _⟩, ?_⟩
    exact fun _ => live_new ts m salt h.reached.named.size_pos s.written
  | tryAdmit i k =>
    simp only [World.step] at hw
    split at hw
    · exact hquiet hnames hwritten htier (by rw [← Except.ok.inj hw]; exact h.requests)
        (by rw [← Except.ok.inj hw]; exact h.probes)
    · rename_i e he
      refine hquiet hnames hwritten htier ?_ (by rw [← Except.ok.inj hw]; exact h.probes)
      rw [← Except.ok.inj hw]
      refine World.forall_some_set h.requests ?_
      intro a ha
      obtain rfl := Option.some.inj ha
      have hseq : (e.tryAdmit k s.world.pool).2.1.seq = e.seq := by
        unfold EntitledSeq.tryAdmit
        split_ifs <;> rfl
      exact (h.requests e (World.mem_of_slot (World.request_slot he))).of_seq hseq
  | call i c => exact step_call_sound h hfit hs
  | dropRequest i =>
    simp only [World.step] at hw
    split at hw
    · exact hquiet hnames hwritten htier (by rw [← Except.ok.inj hw]; exact h.requests)
        (by rw [← Except.ok.inj hw]; exact h.probes)
    · refine hquiet hnames hwritten htier ?_ (by rw [← Except.ok.inj hw]; exact h.probes)
      rw [← Except.ok.inj hw]
      exact World.forall_some_set h.requests fun a ha => by cases ha
  | probe ts salt => exact step_probe_sound h hs
  | includeFinalBlock i =>
    simp only [World.step] at hw
    split at hw
    · exact hquiet hnames hwritten htier (by rw [← Except.ok.inj hw]; exact h.requests)
        (by rw [← Except.ok.inj hw]; exact h.probes)
    · rename_i pr hpr
      refine hquiet hnames hwritten htier (by rw [← Except.ok.inj hw]; exact h.requests) ?_
      rw [← Except.ok.inj hw]
      refine World.forall_some_set h.probes ?_
      intro a ha
      obtain rfl := Option.some.inj ha
      exact h.probes pr (World.mem_of_slot (World.probe_slot hpr))
  | truncateHeld i k =>
    simp only [World.step] at hw
    split at hw
    · exact hquiet hnames hwritten htier (by rw [← Except.ok.inj hw]; exact h.requests)
        (by rw [← Except.ok.inj hw]; exact h.probes)
    · rename_i pr hpr
      refine hquiet hnames hwritten htier (by rw [← Except.ok.inj hw]; exact h.requests) ?_
      rw [← Except.ok.inj hw]
      refine World.forall_some_set h.probes ?_
      intro a ha
      obtain rfl := Option.some.inj ha
      exact fun x hx => h.probes pr (World.mem_of_slot (World.probe_slot hpr)) x (List.mem_of_mem_take hx)
  | dropProbe i =>
    simp only [World.step] at hw
    split at hw
    · exact hquiet hnames hwritten htier (by rw [← Except.ok.inj hw]; exact h.requests)
        (by rw [← Except.ok.inj hw]; exact h.probes)
    · refine hquiet hnames hwritten htier (by rw [← Except.ok.inj hw]; exact h.requests) ?_
      rw [← Except.ok.inj hw]
      exact World.forall_some_set h.probes fun a ha => by cases ha
  | reserve k => exact step_reserve_sound h hs
  | commit i j => exact step_commit_sound h hs
  | guardAssigned i => exact step_guard_sound h hs
  | dropReservation i | dropGuards i | finishDrop i =>
    simp only [World.step] at hw
    split at hw <;>
      exact hquiet hnames hwritten htier (by rw [← Except.ok.inj hw]; exact h.requests)
        (by rw [← Except.ok.inj hw]; exact h.probes)

/-! ## Runs -/

/-- a fresh pool has one name, the padding block's -/
theorem new_names [Inhabited H] {blockSize numBlocks : ℕ} {w : World H} (h : World.new blockSize numBlocks = .ok w)
    {b : BlockId} {k : H} (hname : w.pool.store.named b = some k) : k = default := by
  unfold World.new BlockPool.new at h
  by_cases h2 : numBlocks < 2
  · simp [h2] at h
  by_cases hb : ¬ (0 < blockSize ∧ blockSize &&& (blockSize - 1) = 0 ∧ blockSize ≤ 1024)
  · simp only [h2, if_false, hb] at h
    simp at h
  simp only [h2, if_false, hb] at h
  have hav : (BlockStore.new numBlocks false : BlockStore H).available = numBlocks := by
    simp [BlockStore.available, BlockStore.new]
  obtain ⟨ids, σ, heq, hlen, hinv, -, -⟩ := allocateBlocks_spec (new_inv (H := H) numBlocks false) (n := 1) (by omega)
  obtain ⟨c, rfl⟩ := List.length_eq_one_iff.1 hlen
  rw [heq] at h
  simp only at h
  rw [ofMutable_cons, add_assoc] at hinv
  have hstaged := stage_inv (default : H) hinv
  obtain ⟨x, σ', hreg, -⟩ := registerBlock_spec hstaged
  rw [hreg] at h
  simp only [Except.ok.injEq] at h
  subst h
  have hnames := ((allocateBlocks_names heq).trans (stage_names σ c default)).trans
    (registerBlock_names_store hstaged hreg)
  rcases hnames b k hname with hold | hnew
  · cases hold
  · simp only [List.nil_append, List.mem_singleton, Prod.mk.injEq] at hnew
    exact hnew.2

theorem new_sound [Inhabited H] {blockSize numBlocks : ℕ} {w₀ : World H} (hk : ∀ k : H, World.IsBlockHash k → k ≠ default)
    (hn : World.new blockSize numBlocks = .ok w₀) : Sound numBlocks (.new w₀) := by
  have hf := World.new_fresh hn
  obtain ⟨hrequests, hprobes, -, -⟩ := hf.empty
  refine ⟨⟨hf.accounted, hf.padded, hf.named, hf.paddingId, hf.paddingHash, hf.total⟩, ?_, ?_, ?_, ?_⟩
  · intro e he
    simp [KvMemory.new, hrequests] at he
  · intro b k hname hclean
    obtain ⟨salt, ts, heq, -⟩ := hclean
    exact absurd (new_names hn hname) (hk k ⟨salt, _, ts, heq⟩)
  · intro k rows hrows
    cases hrows
  · intro pr hpr
    simp [KvMemory.new, hprobes] at hpr

/-- what is held under a name without padding tokens is written -/
theorem Sound.matchedWritten [CollisionFree H] [Inhabited H] {n : ℕ} {s : KvMemory H} (h : Sound n s) :
    s.MatchedWritten := by
  refine ⟨?_, ?_⟩
  · intro e he hclean x hx
    obtain ⟨j, hj⟩ := request_mem he
    obtain ⟨F, hinv⟩ := h.reached.accounted.request hj
    obtain ⟨i, hi, hget⟩ := List.mem_iff_getElem.1 hx
    rw [List.length_take] at hi
    rw [List.getElem_take] at hget
    have hmem : x ∈ e.seq.assigned := List.mem_of_mem_take hx
    have hname : x.seqHash = e.seq.sequenceHash i :=
      assigned_name (h.reached.named.requests e he) (List.getElem?_eq_some_iff.2 ⟨by omega, hget⟩)
    refine h.store x.blockId x.seqHash (named_of_shared hinv (by simp [holdings, guards, hmem])) ?_
    rw [← (h.requests e he).size, hname, clean_sequenceHash]
    obtain ⟨hm, hp⟩ := (h.requests e he).matched
    have hend : (i + 1) * e.seq.blockSize ≤ e.seq.numInputTokens :=
      (Nat.mul_le_mul_right _ (by omega)).trans (hm.trans hp)
    exact fun hpad => hclean ((List.take_prefix_take_left hend).subset hpad)
  · intro pr hpr tokens salt hclean heq x hx
    obtain ⟨i, hi⟩ : ∃ i, s.world.probe? i = some pr := by
      obtain ⟨i, hi, hget⟩ := List.mem_iff_getElem.1 hpr
      exact ⟨i, by simp [World.probe?, hi, hget]⟩
    obtain ⟨F, hF, -⟩ := World.holdings_probe hi
    have hinv := h.reached.accounted
    unfold World.Accounted at hinv
    rw [hF] at hinv
    refine h.store x.blockId x.seqHash (named_of_shared hinv (by simp [Holdings.ofImmutable, hx])) ?_
    have hmem := h.probes pr hpr x hx
    rw [heq, allSequenceHashes, List.mem_map] at hmem
    obtain ⟨k, -, hseq⟩ := hmem
    rw [← hseq]
    exact ⟨_, _, rfl, fun hpad => hclean (List.mem_of_mem_take hpad)⟩

/-- **Matched pages are written.** In every fit run, every block that a prompt without padding tokens matched, or that
a resolve over such tokens holds, has all its rows, in every state reached. -/
theorem rows_written [Inhabited H] [CollisionFree H] (blockSize numBlocks : ℕ) (w₀ : World H) (ops : List Op)
    (s : KvMemory H) (hk : ∀ k : H, World.IsBlockHash k → k ≠ default) (hn : World.new blockSize numBlocks = .ok w₀)
    (hfit : StepsMeet KvMemory.step KvMemory.Fit (.new w₀) ops) (hr : run KvMemory.step (.new w₀) ops = .ok s) :
    s.MatchedWritten := by
  have hsound := run_invariant (I := fun _ s => Sound numBlocks s) (.new w₀) (new_sound hk hn)
    (fun _ _ _ _ h ho hs => step_sound h ho hs) ops s hfit hr
  exact hsound.matchedWritten

/-- a prompt of five and its anchor, padded; the next turn begins with them -/
def nextTurn : List Op :=
  [.newRequest [1, 2, 3, 4, 5] 1 0, .call 0 .matchAndAddPrefix, .call 0 (.schedulePrefill 5),
    .call 0 (.applyPrefill (some 6)), .call 0 (.padTailBlock PAD_TOKEN_ID), .guardAssigned 0, .dropRequest 0,
    .newRequest [1, 2, 3, 4, 5, 6, 7, 8, 9] 1 0, .call 1 .matchAndAddPrefix]

/-- it matches the page of the prompt, and not the padded one -/
theorem rows_written_next_turn : ∃ (w₀ : World (List ℕ)) (s : KvMemory (List ℕ)), World.new 4 6 = .ok w₀ ∧
    run KvMemory.step (.new w₀) nextTurn = .ok s ∧ (s.world.request? 1).map (·.seq.prefixMatchedBlocks) = some 1 ∧
    s.MatchedWritten := by
  refine ⟨_, _, rfl, rfl, rfl, rows_written 4 6 _ nextTurn _ ?_ rfl ?_ rfl⟩
  · rintro k ⟨salt, size, tokens, rfl⟩ h
    cases h
  · decide

end Pegainfer.KvStore
