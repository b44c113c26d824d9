/-
Registered implies computed: does a registered block ever cover a token position whose KV does not exist yet?

A request's owner issues calls on its sequence while other requests, probes and drops move the store (`environment`).
Registration goes by token completeness: the whole prompt is in the sequence from the start, and a speculative step
appends its tokens before it registers. `kvPosition` goes by the chunk, or by the accepted tokens.
- `registered_computed`: in every run whose applied steps are `Aligned`, the registered blocks end at or before
  `kvPosition`, in every state reached.
- `Effect.unaligned`: the first applied step that is not aligned breaks it.
- `chunk_registers_ahead`: a prompt of two blocks of four, prefilled by a first chunk of five.
-/
import Mathlib.Tactic
import Pegainfer.Lib.Machine
import Pegainfer.Kvbm.Positions

set_option linter.unusedSectionVars false

namespace Pegainfer.Kvbm.SchedulableSequence

open Pegainfer.Lib

variable {H : Type} [DecidableEq H] [BlockHash H]

/-! ## Runs of one sequence -/

inductive Op (H : Type)
  | call (c : Call)
  | environment (σ : BlockStore H)

/-- the sequence and the store it shares -/
def step (s : SchedulableSequence H × BlockStore H) : Op H → Except String (SchedulableSequence H × BlockStore H)
  | .call c => (s.1.call c s.2).map Prod.snd
  | .environment σ => .ok (s.1, σ)

theorem step_call_ok {s s' : SchedulableSequence H × BlockStore H} {c : Call} (h : step s (.call c) = .ok s') :
    ∃ r, Effect s.1 c r s'.1 := by
  simp only [step] at h
  cases hc : s.1.call c s.2 with
  | error e => rw [hc] at h; cases h
  | ok y =>
    obtain ⟨r, q', σ'⟩ := y
    rw [hc] at h
    obtain rfl : (q', σ') = s' := Except.ok.inj h
    exact ⟨r, call_effect hc⟩

/-- matching, scheduling, applying and reverting: no padding, no anchor adoption, no release -/
def Call.steps : Call → Bool
  | .padTailBlock _ | .adoptExternalPrefillAnchor | .release => false
  | _ => true

attribute [grind =] Call.steps

/-- a chunk that does not finish the prompt ends on a block boundary or in the prompt's last, partial block; an applied
speculative span does not end on a block boundary -/
def aligned (s : SchedulableSequence H × BlockStore H) : Op H → Bool
  | .call (.applyPrefill none) =>
    match s.1.state with
    | .prefillScheduled n _ =>
      (s.1.prefillPosition + n) % s.1.blockSize == 0 ||
        s.1.numInputTokens / s.1.blockSize == (s.1.prefillPosition + n) / s.1.blockSize
    | _ => true
  | .call (.applySpeculative accepted) =>
    match s.1.state with
    | .speculativeScheduled n _ =>
      decide (n < accepted.length) || (s.1.totalTokens + accepted.length) % s.1.blockSize != 0
    | _ => true
  | .call c => c.steps
  | .environment _ => true

attribute [grind =] aligned

def Aligned (s : SchedulableSequence H × BlockStore H) (o : Op H) : Prop := aligned s o = true

instance (s : SchedulableSequence H × BlockStore H) (o : Op H) : Decidable (Aligned s o) :=
  inferInstanceAs (Decidable (aligned s o = true))

/-! ## Registered implies computed -/

/-- every registered block covers computed positions only -/
def RegisteredComputed (q : SchedulableSequence H) : Prop := q.assigned.length * q.blockSize ≤ q.kvPosition

/-- a sequence without blocks is fresh, or complete and shorter than a block -/
def EmptyFresh (q : SchedulableSequence H) : Prop :=
  q.assigned.length + q.unassigned.length ≤ q.drawnNow →
    q.prefillPosition = 0 ∨ (q.maxOutputTokens ≤ q.generatedTokens ∧ q.totalTokens < q.blockSize)

/-- what an aligned run keeps -/
structure RunInv (cap : ℕ) (q : SchedulableSequence H) : Prop where
  positions : Positions cap q
  provisioned : q.Provisioned
  unpadded : q.totalTokens = q.numInputTokens + q.generatedTokens
  emptyFresh : q.EmptyFresh
  computed : q.RegisteredComputed

theorem runInv_new (tokens : List Token) (maxOutputTokens : ℕ) {blockSize : ℕ} (saltHash : SaltHash)
    (hb : 0 < blockSize) :
    RunInv (tokens.length + maxOutputTokens)
      (new tokens maxOutputTokens blockSize saltHash : SchedulableSequence H) where
  positions := positions_new tokens maxOutputTokens saltHash hb
  provisioned := .of_idle rfl
  unpadded := rfl
  emptyFresh _ := Or.inl rfl
  computed := by simp [RegisteredComputed, new]

/-- a match that takes blocks is on a fresh sequence -/
theorem RunInv.match_fresh {cap : ℕ} {q : SchedulableSequence H} (h : RunInv cap q) (he : q.residentBlocks = 0)
    (hle : 0 < q.completeSequenceBlocks) : q.prefillPosition = 0 := by
  unfold residentBlocks at he
  rcases h.emptyFresh (by omega) with h0 | ⟨-, hlt⟩
  · exact h0
  · rw [completeSequenceBlocks, Nat.div_eq_of_lt hlt] at hle
    exact absurd hle (lt_irrefl 0)

theorem Effect.emptyFresh {cap : ℕ} {q q' : SchedulableSequence H} {c : Call} {r : CallResult}
    (he : Effect q c r q') (hc : c.steps = true) (h : RunInv cap q) : q'.EmptyFresh := by
  have hb := h.positions.base.size_pos
  have hnil := h.positions.base.staged_nil
  have hold := h.emptyFresh
  cases he with
  | refused => exact hold
  | unmatched => exact hold
  | matched xs hs he hne =>
    intro hz
    have := List.length_pos_of_ne_nil hne
    simp only [withMatched, drawnNow, drawnBlocks, hs, Option.getD_none] at hz
    omega
  | prefillScheduled n ids hs =>
    intro hz
    simp only [EmptyFresh, drawn, drawnNow, drawnBlocks, hs, Option.getD_none, Option.getD_some, List.length_append,
      totalTokens] at hz hold ⊢
    exact hold (by omega)
  | prefillApplied n b t xs hs ht hf hg hx =>
    intro hz
    have hres := resident_withRegistered hnil hx
    have hprov := h.provisioned.prefill n b hs
    have hcover := le_divCeil_mul (q.prefillPosition + n) hb
    simp only [appended, drawnNow, drawnBlocks, Option.getD_none] at hz hres
    left
    have hzero : divCeil (q.prefillPosition + n) q.blockSize = 0 := by omega
    rw [hzero, Nat.zero_mul] at hcover
    simpa using hcover
  | decodeScheduled ids hs =>
    intro hz
    simp only [EmptyFresh, drawn, drawnNow, drawnBlocks, hs, Option.getD_none, Option.getD_some, List.length_append,
      totalTokens] at hz hold ⊢
    exact hold (by omega)
  | decodeApplied b t xs hs hg hx =>
    intro hz
    have hres := resident_withRegistered hnil hx
    have hprov := h.provisioned.decode b hs
    simp only [appended, drawnNow, drawnBlocks, Option.getD_none] at hz hres
    omega
  | speculativeScheduled n ids hs =>
    intro hz
    simp only [EmptyFresh, drawn, drawnNow, drawnBlocks, hs, Option.getD_none, Option.getD_some, List.length_append,
      totalTokens] at hz hold ⊢
    exact hold (by omega)
  | speculativeApplied n b ts xs hs hn hg hx =>
    intro hz
    right
    obtain ⟨hgen, -⟩ := h.positions.inSpeculative n b hs
    have hprov := h.provisioned.speculative n b hs
    have hcover := le_divCeil_mul (q.totalTokens + n) hb
    have hpos : 0 < divCeil (q.totalTokens + n) q.blockSize := by
      rcases Nat.eq_zero_or_pos (divCeil (q.totalTokens + n) q.blockSize) with h0 | h0
      · rw [h0, Nat.zero_mul] at hcover
        have := hgen.dangling
        omega
      · exact h0
    obtain ⟨ha, hu⟩ := length_withRegistered (q := q.appended ts) hnil hx
    simp only [keepUnassigned, drawnNow, drawnBlocks, Option.getD_none, List.length_take, ha, hu] at hz
    simp only [appended] at hz
    have hblocks : (q.appended ts).completeSequenceBlocks = 0 := by
      simp only [appended] at ⊢
      omega
    have hlt : (q.appended ts).totalTokens < q.blockSize := by
      rcases Nat.lt_or_ge (q.appended ts).totalTokens q.blockSize with hlt | hge
      · exact hlt
      · have : 0 < (q.appended ts).totalTokens / q.blockSize := Nat.div_pos hge hb
        unfold completeSequenceBlocks at hblocks
        simp only [appended] at hblocks this
        omega
    refine ⟨?_, hlt⟩
    by_contra hinc
    simp only [appended, keepUnassigned, withRegistered] at hinc
    simp only [isComplete, hinc, decide_false, Bool.false_eq_true, if_false] at hz
    omega
  | reverted n hs =>
    intro hz
    have hdn : q.drawnNow = n := by simp [drawnNow, hs]
    have hle := h.positions.drawn_le
    simp only [keepUnassigned, drawnNow, drawnBlocks, Option.getD_none, List.length_take] at hz
    exact hold (by omega)
  | unpadded pad => simp [Call.steps] at hc
  | padded pad => simp [Call.steps] at hc
  | adopted => simp [Call.steps] at hc
  | released => simp [Call.steps] at hc

/-- blocks registered by a chunk that ends at `newPosition`: those the prompt completes and the chunk drew -/
theorem RunInv.prefill_registered {cap : ℕ} {q : SchedulableSequence H} (h : RunInv cap q) {n b : ℕ}
    {xs : List (ImmutableBlock H)} (hs : q.state = .prefillScheduled n b) (hx : q.Registers xs) :
    (q.withRegistered xs).assigned.length =
      min (q.numInputTokens / q.blockSize) (divCeil (q.prefillPosition + n) q.blockSize) := by
  obtain ⟨hlt, hle, hheld⟩ := h.positions.inPrefill n b hs
  obtain ⟨-, hgen, -⟩ := h.positions.prefilling hlt
  have hprov := h.provisioned.prefill n b hs
  have ha := h.positions.base.assigned_le
  have htok : q.completeSequenceBlocks = q.numInputTokens / q.blockSize := by
    rw [completeSequenceBlocks, h.unpadded, hgen, Nat.add_zero]
  obtain ⟨hreg, -⟩ := length_withRegistered h.positions.base.staged_nil hx
  omega

/-- blocks registered by a speculative step: all that the sequence completes with its tokens -/
theorem RunInv.speculative_registered {cap : ℕ} {q : SchedulableSequence H} (h : RunInv cap q) {n b : ℕ}
    {ts : List Token} {xs : List (ImmutableBlock H)} (hs : q.state = .speculativeScheduled n b) (hn : ts.length ≤ n)
    (hx : (q.appended ts).Registers xs) :
    ((q.appended ts).withRegistered xs).assigned.length = (q.totalTokens + ts.length) / q.blockSize := by
  have hb := h.positions.base.size_pos
  have hprov := h.provisioned.speculative n b hs
  have ha : q.assigned.length ≤ (q.totalTokens + ts.length) / q.blockSize :=
    h.positions.base.assigned_le.trans (Nat.div_le_div_right (Nat.le_add_right _ _))
  have hcov : (q.totalTokens + ts.length) / q.blockSize ≤ divCeil (q.totalTokens + n) q.blockSize :=
    (div_le_divCeil _ hb).trans (divCeil_mono hb (by omega))
  obtain ⟨hreg, -⟩ := length_withRegistered (q := q.appended ts) h.positions.base.staged_nil hx
  have hcomp : (q.appended ts).completeSequenceBlocks = (q.totalTokens + ts.length) / q.blockSize := by
    simp [completeSequenceBlocks, totalTokens, appended]
  rw [hcomp] at hreg
  simp only [appended] at hreg ⊢
  omega

theorem Effect.computed {cap : ℕ} {q q' : SchedulableSequence H} {σ : BlockStore H} {c : Call} {r : CallResult}
    (he : Effect q c r q') (hc : Aligned (q, σ) (.call c)) (h : RunInv cap q) : q'.RegisteredComputed := by
  have hb := h.positions.base.size_pos
  have hold := h.computed
  cases he with
  | matched xs hs he hne hmax hle =>
    have hfresh := h.match_fresh he (lt_of_lt_of_le (List.length_pos_of_ne_nil hne) hle)
    simp [RegisteredComputed, withMatched, hfresh]
  | prefillApplied n b t xs hs ht hf hg hx =>
    have hreg := h.prefill_registered hs hx
    have hor : (q.prefillPosition + n) % q.blockSize = 0 ∨
        q.numInputTokens / q.blockSize = (q.prefillPosition + n) / q.blockSize := by
      cases t with
      | none => simpa [Aligned, aligned, hs] using hc
      | some tok =>
        have hfin := ht (by simp)
        obtain ⟨-, hle, -⟩ := h.positions.inPrefill n b hs
        rw [le_antisymm hfin hle]
        exact Or.inr rfl
    have hend : (q.withRegistered xs).assigned.length ≤ (q.prefillPosition + n) / q.blockSize := by
      rcases hor with h0 | h0
      · rw [hreg, divCeil_eq_div hb h0]
        exact min_le_right _ _
      · rw [hreg, ← h0]
        exact min_le_left _ _
    exact (Nat.le_div_iff_mul_le hb).1 hend
  | decodeApplied b t xs hs hg hx =>
    obtain ⟨-, -, hd⟩ := h.positions.inDecode b hs
    have hle := (h.positions.base.registered hx).assigned_le
    have hend := (Nat.le_div_iff_mul_le hb).1 hle
    simp only [RegisteredComputed, appended] at hend ⊢
    simp only [withRegistered, totalTokens] at hend hd ⊢
    omega
  | speculativeApplied n b ts xs hs hn hg hx =>
    obtain ⟨⟨-, -, hd⟩, -⟩ := h.positions.inSpeculative n b hs
    have hreg := h.speculative_registered hs hn hx
    have hlt : ((q.appended ts).withRegistered xs).assigned.length * q.blockSize < q.totalTokens + ts.length := by
      have hmod := Nat.div_add_mod (q.totalTokens + ts.length) q.blockSize
      have hne : (q.totalTokens + ts.length) % q.blockSize ≠ 0 := by
        simpa [Aligned, aligned, hs, not_lt.2 hn] using hc
      rw [hreg, Nat.mul_comm]
      omega
    simp only [RegisteredComputed, keepUnassigned]
    simp only [withRegistered, appended] at hlt ⊢
    omega
  | padded pad => simp [Aligned, aligned, Call.steps] at hc
  | adopted => simp [Aligned, aligned, Call.steps] at hc
  | released => simp [Aligned, aligned, Call.steps] at hc
  | _ => exact hold

theorem aligned_steps {s : SchedulableSequence H × BlockStore H} {c : Call} (h : Aligned s (.call c)) :
    c.steps = true := by
  cases c with
  | padTailBlock pad => exact h
  | adoptExternalPrefillAnchor => exact h
  | release => exact h
  | _ => rfl

theorem step_runInv {cap : ℕ} {s s' : SchedulableSequence H × BlockStore H} {o : Op H} (h : RunInv cap s.1)
    (ho : Aligned s o) (hs : step s o = .ok s') : RunInv cap s'.1 := by
  cases o with
  | environment σ =>
    simp only [step, Except.ok.injEq] at hs
    rw [← hs]
    exact h
  | call c =>
    obtain ⟨r, he⟩ := step_call_ok hs
    have hc := aligned_steps ho
    have hpad : ∀ pad, c ≠ .padTailBlock pad := by
      rintro pad rfl
      simp [Call.steps] at hc
    have hpos := he.positions (fun _ hres hle => h.match_fresh hres hle) h.positions
    exact ⟨hpos, he.provisioned h.positions.base h.provisioned, he.unpadded_tokens hpad h.unpadded,
      he.emptyFresh hc h, he.computed ho h⟩

/-- **Registered implies computed.** In every run whose applied steps are aligned, every registered block covers
computed positions only, in every state reached, whatever the other holders of the store do. -/
theorem registered_computed (tokens : List Token) (maxOutputTokens blockSize : ℕ) (saltHash : SaltHash)
    (hb : 0 < blockSize) (σ : BlockStore H) (ops : List (Op H)) (s : SchedulableSequence H × BlockStore H)
    (hP : StepsMeet step Aligned (new tokens maxOutputTokens blockSize saltHash, σ) ops)
    (hr : run step (new tokens maxOutputTokens blockSize saltHash, σ) ops = .ok s) :
    s.1.assigned.length * s.1.blockSize ≤ s.1.kvPosition := by
  have hinv := run_invariant (P := Aligned)
    (I := fun (_ : List (Op H)) (s : SchedulableSequence H × BlockStore H) =>
      RunInv (tokens.length + maxOutputTokens) s.1)
    (new tokens maxOutputTokens blockSize saltHash, σ) (runInv_new tokens maxOutputTokens saltHash hb)
    (fun _ _ _ _ h ho hs => step_runInv h ho hs) ops s hP hr
  exact hinv.computed

/-- **Exactness.** An unaligned chunk or speculative span that is applied in an aligned run registers a block ahead of
`kvPosition`. -/
theorem Effect.unaligned {cap : ℕ} {q q' : SchedulableSequence H} {σ : BlockStore H} {c : Call}
    (he : Effect q c .done q') (hsteps : c.steps = true) (hc : ¬ Aligned (q, σ) (.call c)) (h : RunInv cap q) :
    ¬ q'.RegisteredComputed := by
  have hb := h.positions.base.size_pos
  cases he with
  | refused c r hr => exact absurd rfl hr
  | prefillApplied n b t xs hs ht hf hg hx =>
    cases t with
    | some tok => exact absurd rfl hc
    | none =>
      have hreg := h.prefill_registered hs hx
      obtain ⟨-, hle, -⟩ := h.positions.inPrefill n b hs
      simp only [Aligned, aligned, hs, Bool.or_eq_true, beq_iff_eq, not_or] at hc
      obtain ⟨hmod, hdiv⟩ := hc
      -- the chunk ends inside a block that the prompt completes
      have hlt : (q.prefillPosition + n) / q.blockSize < q.numInputTokens / q.blockSize :=
        lt_of_le_of_ne (Nat.div_le_div_right hle) (Ne.symm hdiv)
      have hceil : (q.prefillPosition + n) / q.blockSize < divCeil (q.prefillPosition + n) q.blockSize := by
        by_contra hge
        have h1 := (divCeil_le_iff hb).1 (not_lt.1 hge)
        have h2 := Nat.div_add_mod (q.prefillPosition + n) q.blockSize
        rw [Nat.mul_comm] at h2
        omega
      intro hcomp
      have hend : (q.withRegistered xs).assigned.length ≤ (q.prefillPosition + n) / q.blockSize :=
        (Nat.le_div_iff_mul_le hb).2 hcomp
      omega
  | speculativeApplied n b ts xs hs hn hg hx =>
    obtain ⟨⟨-, -, hd⟩, -⟩ := h.positions.inSpeculative n b hs
    have hreg := h.speculative_registered hs hn hx
    have hmod : (q.totalTokens + ts.length) % q.blockSize = 0 := by
      simpa [Aligned, aligned, hs, not_lt.2 hn] using hc
    intro hcomp
    have hall : ((q.appended ts).withRegistered xs).assigned.length * q.blockSize = q.totalTokens + ts.length := by
      rw [hreg, Nat.div_mul_cancel (Nat.dvd_of_mod_eq_zero hmod)]
    simp only [RegisteredComputed, keepUnassigned] at hcomp
    simp only [withRegistered, appended] at hcomp hall
    omega
  | padded pad => simp [Call.steps] at hsteps
  | unpadded pad => simp [Call.steps] at hsteps
  | adopted => simp [Call.steps] at hsteps
  | released => simp [Call.steps] at hsteps
  | _ => exact absurd rfl hc

/-- a prompt of ten in blocks of four by chunks of four and six, then a decode and a speculative step -/
theorem registered_computed_chunks :
    ∃ s, run step (new [1, 2, 3, 4, 5, 6, 7, 8, 9, 10] 6 4 0, (BlockStore.new 8 false : BlockStore (List ℕ)))
        [.call .matchAndAddPrefix, .call (.schedulePrefill 4), .call (.applyPrefill none), .call (.schedulePrefill 6),
          .call (.applyPrefill (some 11)), .call .scheduleDecode, .call (.applyDecode 12),
          .call (.scheduleSpeculative 3), .call (.applySpeculative [13, 14])] = .ok s ∧
      s.1.assigned.length = 3 ∧ s.1.kvPosition = 13 ∧ s.1.assigned.length * s.1.blockSize ≤ s.1.kvPosition :=
  ⟨_, rfl, rfl, rfl, registered_computed [1, 2, 3, 4, 5, 6, 7, 8, 9, 10] 6 4 0 (by decide) (BlockStore.new 8 false)
    [.call .matchAndAddPrefix, .call (.schedulePrefill 4), .call (.applyPrefill none), .call (.schedulePrefill 6),
      .call (.applyPrefill (some 11)), .call .scheduleDecode, .call (.applyDecode 12),
      .call (.scheduleSpeculative 3), .call (.applySpeculative [13, 14])] _ (by decide) rfl⟩

/-- the prompt is eight tokens, the first chunk five: both blocks are registered with the KV of five tokens -/
theorem chunk_registers_ahead :
    ∃ s, run step (new [1, 2, 3, 4, 5, 6, 7, 8] 4 4 0, (BlockStore.new 8 false : BlockStore (List ℕ)))
        [.call (.schedulePrefill 5), .call (.applyPrefill none)] = .ok s ∧
      s.1.kvPosition = 5 ∧ s.1.assigned.length = 2 ∧ ¬ s.1.assigned.length * s.1.blockSize ≤ s.1.kvPosition :=
  ⟨_, rfl, rfl, rfl, by decide⟩

end Pegainfer.Kvbm.SchedulableSequence
