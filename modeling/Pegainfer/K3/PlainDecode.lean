/-
Plain decode: one token a slot and step, the reference that speculative rounds are held to.

Every row of the bucket runs, at the executor's parity; a slot outside the batch is padding, and its state is scrapped.
- `decodeInner`, `greedyReplay`: one step, and a slot fed a prompt and then its own answers.
- `decodeInner_ends`: each slot of the batch is fed its token and answered.
- `greedyReplay_ends`: a replay answers the prompt and goes on as plain decode.
-/
import Mathlib.Tactic
import Pegainfer.K3.SpecRounds

namespace Pegainfer.K3

open Pegainfer.Lib K3PagedKv

variable {ρ ω κ : Type}

/-! ## Model -/

section Model

variable [Inhabited κ] (T : K3Target ρ ω κ)

namespace K3Executor

/-- one row of a decode step: it reads one parity and writes the other -/
def runDecodeRow (parity : Bool) (row : ℕ) (e : K3Executor ρ ω κ) : K3Executor ρ ω κ :=
  let w := runRow T (e.staged row) (e.kv.table row) row ⟨(e.recurrent parity row, e.conv parity row), e.kv, e.sampled⟩
  { e with
    recurrent := setRow e.recurrent (!parity) row w.state.1
    conv := setRow e.conv (!parity) row w.state.2
    kv := w.kv
    sampled := w.sampled }

/-- the slabs change places -/
def flipParity (e : K3Executor ρ ω κ) : K3Executor ρ ω κ := { e with parity := !e.parity }

def advancePosition (slot : ℕ) (e : K3Executor ρ ω κ) : K3Executor ρ ω κ :=
  { e with positions := Function.update e.positions slot (e.positions slot + 1) }

end K3Executor

/-- a slot's row is its own index in the batch -/
def stageDecode (entry : DecodeSlot) : Faulty (K3Executor ρ ω κ) Unit := do
  let e ← Faulty.get
  let position := e.positions entry.slot
  Faulty.ensure (position < e.maxCtx) s!"K3 slot {entry.slot} reached its {e.maxCtx} token context"
  stageSpan entry.slot entry.slot position [entry.lastToken]

/-- the rows up to the highest slot of a batch -/
def decodeRows (batch : List DecodeSlot) : ℕ := batch.foldr (fun entry rows => max (entry.slot + 1) rows) 0

/-- one decode step: each slot's token -/
def decodeInner (batch : List DecodeSlot) : Faulty (K3Executor ρ ω κ) (List UInt32) := do
  let e ← Faulty.get
  if batch.isEmpty && !e.expertParallel then pure []
  else
    enterStep
    let rows := decodeRows batch
    Faulty.ensure (rows ≤ e.maxBatch) s!"K3 decode reached slot {rows - 1} above the {e.maxBatch} configured slots"
    let bucket ← Faulty.lift (k3BatchBucket (max rows 1))
    Faulty.modify (K3Executor.padRows e.maxBatch)
    Faulty.each stageDecode batch
    Faulty.operate "K3 token feed failed"
    Faulty.operate "K3 decode step failed"
    Faulty.each (fun row => Faulty.modify (K3Executor.runDecodeRow T e.parity row)) (List.range bucket)
    Faulty.modify K3Executor.flipParity
    Faulty.each (fun entry => Faulty.modify (K3Executor.advancePosition entry.slot)) batch
    Faulty.operate "K3 sampled-token readback failed"
    let e ← Faulty.get
    pure (batch.map fun entry => e.sampled entry.slot)

/-- what is fed is the prompt's token as long as it lasts, then the token sampled last -/
def replaySteps (slot : ℕ) (prompt : List UInt32) : (steps : ℕ) → (sampled : List UInt32) →
    Faulty (K3Executor ρ ω κ) (List UInt32)
  | 0, sampled => pure sampled
  | steps + 1, sampled => do
    let lastToken := prompt.getD sampled.length (sampled.getLastD 0)
    let step ← decodeInner T [⟨slot, lastToken⟩]
    replaySteps slot prompt steps (sampled ++ step.take 1)

/-- greedy continuation of one slot, straight through the decode path -/
def greedyReplay [Inhabited ρ] [Inhabited ω] (slot : ℕ) (prompt : List UInt32) (steps : ℕ) :
    Faulty (K3Executor ρ ω κ) (List UInt32) := do
  let e ← Faulty.get
  Faulty.ensure (slot < e.maxBatch) s!"K3 slot {slot} is out of range"
  Faulty.ensure (prompt ≠ []) "K3 replay needs at least one token"
  Faulty.operate "Failed to set CUDA device"
  resetRow slot
  replaySteps T slot prompt (prompt.length + steps) []

end Model

/-! ## One row -/

variable {T : K3Target ρ ω κ} {e e' e₀ e₁ : K3Executor ρ ω κ} {batch : List DecodeSlot} {slot row : ℕ} {parity : Bool}
  {now : ℕ → (ρ × ω) × List κ}

/-- a slot in the context `now`, between plain steps -/
structure Plain (e : K3Executor ρ ω κ) (slot : ℕ) (now : (ρ × ω) × List κ) : Prop where
  recurrent : e.recurrent e.parity slot = now.1.1
  conv : e.conv e.parity slot = now.1.2
  position : e.positions slot = now.2.length
  cached : e.kv.Cached slot now.2

/-- what one row's run leaves as it is -/
structure RowRan (row : ℕ) (e e' : K3Executor ρ ω κ) : Prop where
  owned : e'.kv.Owned
  table : e'.kv.table = e.kv.table
  recurrent : ∀ parity other, other ≠ row → e'.recurrent parity other = e.recurrent parity other
  conv : ∀ parity other, other ≠ row → e'.conv parity other = e.conv parity other
  reads : ∀ other, other ≠ row → ∀ position, e'.kv.read other position = e.kv.read other position
  sampled : ∀ other, other ≠ row → e'.sampled other = e.sampled other
  rest : e' = { e with recurrent := e'.recurrent, conv := e'.conv, kv := e'.kv, sampled := e'.sampled }

section Row

variable [Inhabited κ]

theorem runDecodeRow_padding (howned : e.kv.Owned) (hrow : (e.staged row).kvRow = none) :
    RowRan row e (e.runDecodeRow T parity row) := by
  have hkv : (runRow T (e.staged row) (e.kv.table row) row
      ⟨(e.recurrent parity row, e.conv parity row), e.kv, e.sampled⟩).kv = e.kv := by
    unfold runRow
    rw [hrow]
  have hkv' : (e.runDecodeRow T parity row).kv = e.kv := hkv
  exact ⟨hkv' ▸ howned, by rw [hkv'], fun _ _ hne => setRow_other (.inr hne), fun _ _ hne => setRow_other (.inr hne),
    fun _ _ _ => by rw [hkv'], fun _ hne => Function.update_of_ne hne _ _, rfl⟩

/-- a live row feeds its slot one token -/
theorem runDecodeRow_fed {now : (ρ × ω) × List κ} {token : UInt32} (howned : e.kv.Owned)
    (hstate : (e.recurrent parity slot, e.conv parity slot) = now.1) (hcached : e.kv.Cached slot now.2)
    (hstaged : SpanStaged e.staged e.kv slot slot now.2.length [token]) :
    RowRan slot e (e.runDecodeRow T parity slot) ∧
      (e.runDecodeRow T parity slot).recurrent (!parity) slot = (T.decoder.feed now token).1.1 ∧
      (e.runDecodeRow T parity slot).conv (!parity) slot = (T.decoder.feed now token).1.2 ∧
      (e.runDecodeRow T parity slot).kv.Cached slot (T.decoder.feed now token).2 ∧
      (e.runDecodeRow T parity slot).sampled slot = T.decoder.next now token := by
  have htable : TableStaged e.kv.table e.kv slot slot 1 := fun r hle hlt => by
    obtain rfl : r = slot := by omega
    rfl
  obtain ⟨hend, hlaid, hwrote, hfed, hsampled⟩ := runRows_span [token] now slot
    ⟨(e.recurrent parity slot, e.conv parity slot), e.kv, e.sampled⟩ hstate howned hstaged htable hcached
  refine ⟨⟨hwrote.owned, hwrote.table, fun _ _ hne => setRow_other (.inr hne), fun _ _ hne => setRow_other (.inr hne),
    hwrote.reads, fun other hne => hsampled other ?_, rfl⟩, ?_, ?_, hfed, hlaid.1⟩
  · change other < slot ∨ slot + 1 ≤ other
    omega
  · exact setRow_self.trans (congrArg Prod.fst hend)
  · exact setRow_self.trans (congrArg Prod.snd hend)

end Row

/-! ## One step -/

theorem stageDecode_ends [Inhabited κ] {entry : DecodeSlot} {position : ℕ} (hposition : e₁.positions entry.slot = position) :
    Faulty.Ends (fun e => e = e₁) (stageDecode entry)
      (fun _ e => Fed entry.slot entry.slot (entry.slot + 1) e₁ e ∧
        SpanStaged e.staged e.kv entry.slot entry.slot position [entry.lastToken])
      (Fed entry.slot entry.slot (entry.slot + 1) e₁) := by
  refine .from_get (.from_ensure (fun _ => ?_) fun _ => .refl)
  rw [hposition]
  exact stageSpan_ends entry.slot [entry.lastToken] entry.slot position e₁

/-- staging feeds the rows of a batch's slots and maps their pages -/
structure RowsFed (slots : List ℕ) (e₀ e : K3Executor ρ ω κ) : Prop where
  owned : e.kv.Owned
  staged : ∀ row, row ∉ slots → e.staged row = e₀.staged row
  rest : e = { e₀ with kv := e.kv, staged := e.staged, verifyTable := e.verifyTable }

theorem stageDecode_apart [Inhabited κ] (hnodup : (batch.map DecodeSlot.slot).Nodup)
    (hpositions : ∀ entry ∈ batch, e₀.positions entry.slot = (now entry.slot).2.length) :
    Faulty.Ends.Apart (RowsFed (batch.map DecodeSlot.slot) e₀)
      (fun entry e => e.kv.Cached entry.slot (now entry.slot).2)
      (fun entry _ e => e.kv.Cached entry.slot (now entry.slot).2 ∧
        SpanStaged e.staged e.kv entry.slot entry.slot (now entry.slot).2.length [entry.lastToken])
      (fun _ => True) batch stageDecode := by
  intro entry hin e₁ hframe hcached
  have hposition : e₁.positions entry.slot = (now entry.slot).2.length :=
    (congrFun (congrArg K3Executor.positions hframe.rest) entry.slot).trans (hpositions entry hin)
  refine (stageDecode_ends hposition).weaken (fun _ h => h) (fun _ e h => ?_) fun _ _ => trivial
  obtain ⟨hfed, hstaged⟩ := h
  have hreads := hfed.reads hframe.owned
  refine ⟨⟨hfed.owned hframe.owned, fun row hrow => ?_, ?_⟩, ⟨hcached.mono (hreads entry.slot), hstaged⟩,
    fun other hother hne => ⟨fun h => h.mono (hreads other.slot), fun _ h => ⟨h.1.mono (hreads other.slot), ?_⟩⟩⟩
  · have hne : row ≠ entry.slot := fun heq => hrow (heq ▸ List.mem_map_of_mem hin)
    exact (hfed.staged row (by omega)).trans (hframe.staged row hrow)
  · have hrest := hfed.rest
    rw [hframe.rest] at hrest
    exact hrest
  · have hslots : other.slot ≠ entry.slot := fun heq => hne (List.inj_on_of_nodup_map hnodup hother hin heq)
    refine h.2.congr (fun pageSlot page hentry => ?_) fun r hle hlt => hfed.staged r ?_
    · rwa [hfed.tables other.slot hslots]
    · rw [List.length_singleton] at hlt
      omega

/-- the rows of a bucket have run -/
structure BucketRan (e₀ e : K3Executor ρ ω κ) : Prop where
  owned : e.kv.Owned
  table : e.kv.table = e₀.kv.table
  rest : e = { e₀ with recurrent := e.recurrent, conv := e.conv, kv := e.kv, sampled := e.sampled }

/-- a slot's row before it runs, and once it ran -/
structure RowDue (e : K3Executor ρ ω κ) (parity : Bool) (slot : ℕ) (now : (ρ × ω) × List κ) : Prop where
  state : (e.recurrent parity slot, e.conv parity slot) = now.1
  cached : e.kv.Cached slot now.2

structure RowDone (T : K3Target ρ ω κ) (e : K3Executor ρ ω κ) (parity : Bool) (slot : ℕ) (now : (ρ × ω) × List κ)
    (token : UInt32) : Prop where
  recurrent : e.recurrent (!parity) slot = (T.decoder.feed now token).1.1
  conv : e.conv (!parity) slot = (T.decoder.feed now token).1.2
  cached : e.kv.Cached slot (T.decoder.feed now token).2
  sampled : e.sampled slot = T.decoder.next now token

theorem RowDue.of_ran {now : (ρ × ω) × List κ} (h : RowDue e parity slot now) (hran : RowRan row e e')
    (hne : slot ≠ row) : RowDue e' parity slot now :=
  ⟨by rw [hran.recurrent _ _ hne, hran.conv _ _ hne, h.state],
    h.cached.mono fun position _ hread => (hran.reads slot hne position).trans hread⟩

theorem RowDone.of_ran {now : (ρ × ω) × List κ} {token : UInt32} (h : RowDone T e parity slot now token)
    (hran : RowRan row e e') (hne : slot ≠ row) : RowDone T e' parity slot now token :=
  ⟨by rw [hran.recurrent _ _ hne, h.recurrent], by rw [hran.conv _ _ hne, h.conv],
    h.cached.mono fun position _ hread => (hran.reads slot hne position).trans hread,
    by rw [hran.sampled _ hne, h.sampled]⟩

theorem runDecodeRow_apart [Inhabited κ] {bucket : ℕ} (hnodup : (batch.map DecodeSlot.slot).Nodup)
    (hstaged : ∀ entry ∈ batch,
      SpanStaged e₀.staged e₀.kv entry.slot entry.slot (now entry.slot).2.length [entry.lastToken])
    (hpadding : ∀ row < bucket, row ∉ batch.map DecodeSlot.slot → (e₀.staged row).kvRow = none) :
    Faulty.Ends.Apart (BucketRan e₀)
      (fun row e => ∀ entry ∈ batch, entry.slot = row → RowDue e parity row (now row))
      (fun row _ e => ∀ entry ∈ batch, entry.slot = row → RowDone T e parity row (now row) entry.lastToken)
      (fun _ => True) (List.range bucket) fun row => Faulty.modify (K3Executor.runDecodeRow T parity row) := by
  intro row hin e₁ hframe hdue
  have hsame : e₁.staged = e₀.staged := by rw [hframe.rest]
  have hrun : RowRan row e₁ (e₁.runDecodeRow T parity row) ∧ ∀ entry ∈ batch, entry.slot = row →
      RowDone T (e₁.runDecodeRow T parity row) parity row (now row) entry.lastToken := by
    by_cases hrow : row ∈ batch.map DecodeSlot.slot
    · obtain ⟨entry, hentry, rfl⟩ := List.mem_map.1 hrow
      have hstate := (hdue entry hentry rfl).state
      have hspan : SpanStaged e₁.staged e₁.kv entry.slot entry.slot (now entry.slot).2.length [entry.lastToken] := by
        rw [hsame]
        exact (hstaged entry hentry).of_table hframe.table
      obtain ⟨hran, hrecurrent, hconv, hcached, hsampled⟩ :=
        runDecodeRow_fed hframe.owned hstate (hdue entry hentry rfl).cached hspan
      refine ⟨hran, fun other hother hslot => ?_⟩
      obtain rfl : other = entry := List.inj_on_of_nodup_map hnodup hother hentry hslot
      exact ⟨hrecurrent, hconv, hcached, hsampled⟩
    · have hnone : (e₁.staged row).kvRow = none := by
        rw [hsame]
        exact hpadding row (List.mem_range.1 hin) hrow
      exact ⟨runDecodeRow_padding hframe.owned hnone, fun entry hentry hslot =>
        absurd (hslot ▸ List.mem_map_of_mem hentry) hrow⟩
  obtain ⟨hran, hdone⟩ := hrun
  refine .modify ?_
  rintro e rfl
  refine ⟨⟨hran.owned, hran.table.trans hframe.table, ?_⟩, hdone, fun other _ hne => ⟨fun h entry hentry hslot => ?_,
    fun _ h entry hentry hslot => ?_⟩⟩
  · have hrest := hran.rest
    rw [hframe.rest] at hrest ⊢
    exact hrest
  · exact (h entry hentry hslot).of_ran hran hne
  · exact (h entry hentry hslot).of_ran hran hne

theorem slot_lt_decodeRows {entry : DecodeSlot} (hin : entry ∈ batch) : entry.slot < decodeRows batch := by
  induction batch with
  | nil => cases hin
  | cons first batch ih =>
    rw [decodeRows, List.foldr_cons]
    rcases List.mem_cons.1 hin with rfl | hin
    · exact lt_max_of_lt_left (Nat.lt_succ_self _)
    · exact lt_max_of_lt_right (ih hin)

theorem k3BatchBucket_ok {rows bucket : ℕ} (h : k3BatchBucket rows = .ok bucket) :
    SmallestCover k3BatchBuckets rows bucket := by
  unfold k3BatchBucket at h
  split_ifs at h
  rcases hfind : covering k3BatchBuckets rows with _ | found
  · rw [hfind] at h
    cases h
  · rw [hfind] at h
    obtain rfl := Except.ok.inj h
    exact smallestCover_of_covering (by decide) hfind

/-- the positions of a batch's slots go up by one -/
theorem advance_ends (hnodup : (batch.map DecodeSlot.slot).Nodup) :
    Faulty.Ends (fun e => e = e₁)
      (Faulty.each (fun entry : DecodeSlot => Faulty.modify (K3Executor.advancePosition entry.slot)) batch)
      (fun _ e => e = { e₁ with positions := e.positions } ∧
        ∀ entry ∈ batch, e.positions entry.slot = e₁.positions entry.slot + 1) (fun _ => True) := by
  have happ : Faulty.Ends.Apart (fun e => e = { e₁ with positions := e.positions })
      (fun entry e => e.positions entry.slot = e₁.positions entry.slot)
      (fun entry _ e => e.positions entry.slot = e₁.positions entry.slot + 1) (fun _ => True) batch
      fun entry : DecodeSlot => Faulty.modify (K3Executor.advancePosition entry.slot) := by
    intro entry hin e₂ hframe hposition
    refine .modify ?_
    rintro e rfl
    refine ⟨?_, ?_, fun other hother hne => ?_⟩
    · unfold K3Executor.advancePosition
      rw [hframe]
    · exact (Function.update_self _ _ _).trans (congrArg (· + 1) hposition)
    · have hslots : other.slot ≠ entry.slot := fun heq => hne (List.inj_on_of_nodup_map hnodup hother hin heq)
      have hkept : (e.advancePosition entry.slot).positions other.slot = e.positions other.slot :=
        Function.update_of_ne hslots _ _
      exact ⟨fun h => hkept.trans h, fun _ h => hkept.trans h⟩
  exact Faulty.Ends.each_apart (hnodup.of_map _) happ e₁ rfl fun _ _ => rfl

/-- **A decode step feeds each slot of its batch one token.** -/
theorem decodeInner_ends [Inhabited κ] (hbuckets : e₀.maxBatch ∈ k3BatchBuckets) (howned : e₀.kv.Owned)
    (hnodup : (batch.map DecodeSlot.slot).Nodup) (hplain : ∀ entry ∈ batch, Plain e₀ entry.slot (now entry.slot)) :
    Faulty.Ends (fun e => e = e₀) (decodeInner T batch)
      (fun answers e => e.maxBatch = e₀.maxBatch ∧ e.kv.Owned ∧
        answers = batch.map (fun entry => T.decoder.next (now entry.slot) entry.lastToken) ∧
        ∀ entry ∈ batch, Plain e entry.slot (T.decoder.feed (now entry.slot) entry.lastToken)) (fun _ => True) := by
  have hdistinct : batch.Nodup := hnodup.of_map _
  refine .from_get ?_
  by_cases hidle : (batch.isEmpty && !e₀.expertParallel) = true
  · rw [if_pos hidle]
    obtain rfl : batch = [] := List.isEmpty_iff.1 (Bool.and_eq_true_iff.1 hidle).1
    exact .from_pure ⟨rfl, howned, rfl, fun _ hin => absurd hin List.not_mem_nil⟩
  rw [if_neg hidle]
  refine .from_operate (.from_ensure (fun hrows => .from_lift (fun bucket hbucket => .from_modify ?_) trivial)
    fun _ => trivial) trivial
  have hcover := k3BatchBucket_ok hbucket
  have hpos : 1 ≤ e₀.maxBatch := by
    have hall : ∀ bucket ∈ k3BatchBuckets, 1 ≤ bucket := by decide
    exact hall _ hbuckets
  have hle : bucket ≤ e₀.maxBatch := hcover.least _ hbuckets (max_le hrows hpos)
  -- staging
  have hstart : RowsFed (batch.map DecodeSlot.slot) (e₀.padRows e₀.maxBatch) (e₀.padRows e₀.maxBatch) :=
    ⟨howned, fun _ _ => rfl, rfl⟩
  have hstanding : ∀ entry ∈ batch, (e₀.padRows e₀.maxBatch).positions entry.slot = (now entry.slot).2.length :=
    fun entry hin => (hplain entry hin).position
  refine (Faulty.Ends.each_apart hdistinct (stageDecode_apart hnodup hstanding) _ hstart
    fun entry hin => (hplain entry hin).cached).from_bind ?_
  rintro - e₁ ⟨hfed, hrowsStaged⟩
  refine .from_operate (.from_operate ?_ trivial) trivial
  -- the rows of the bucket
  have hpadding : ∀ row < bucket, row ∉ batch.map DecodeSlot.slot → (e₁.staged row).kvRow = none := by
    intro row hlt hrow
    rw [hfed.staged row hrow]
    exact congrArg K3Row.kvRow (if_pos (hlt.trans_le hle))
  have hkept : e₁.recurrent = e₀.recurrent ∧ e₁.conv = e₀.conv ∧ e₁.positions = e₀.positions ∧
      e₁.parity = e₀.parity ∧ e₁.maxBatch = e₀.maxBatch := by
    rw [hfed.rest]
    exact ⟨rfl, rfl, rfl, rfl, rfl⟩
  obtain ⟨hrecurrent, hconv, hpositions, hparity, hmaxBatch⟩ := hkept
  have hdue : ∀ row ∈ List.range bucket, ∀ entry ∈ batch, entry.slot = row →
      RowDue e₁ e₀.parity row (now row) := by
    rintro row - entry hentry rfl
    refine ⟨?_, (hrowsStaged entry hentry).1⟩
    rw [hrecurrent, hconv, (hplain entry hentry).recurrent, (hplain entry hentry).conv]
  refine (Faulty.Ends.each_apart List.nodup_range (runDecodeRow_apart hnodup (fun entry hin => (hrowsStaged entry hin).2)
    hpadding) e₁ ⟨hfed.owned, rfl, rfl⟩ hdue).from_bind ?_
  rintro - e₂ ⟨hran, hdone⟩
  -- the slabs change places and the positions advance
  refine .from_modify ((advance_ends hnodup).from_bind ?_)
  rintro - e₃ ⟨hadvanced, hposition⟩
  refine .from_operate (.from_get (.from_pure ?_)) trivial
  have hslot : ∀ entry ∈ batch, entry.slot ∈ List.range bucket := fun entry hin =>
    List.mem_range.2 ((slot_lt_decodeRows hin).trans_le ((le_max_left _ _).trans hcover.covers))
  refine ⟨?_, ?_, List.map_congr_left fun entry hin => ?_, fun entry hin => ?_⟩
  · rw [hadvanced]
    exact (congrArg K3Executor.maxBatch hran.rest).trans hmaxBatch
  · rw [hadvanced]
    exact hran.owned
  · rw [hadvanced]
    exact (hdone _ (hslot entry hin) entry hin rfl).sampled
  · have hrow := hdone _ (hslot entry hin) entry hin rfl
    have hside : e₃.parity = !e₀.parity := by
      rw [hadvanced]
      change (!e₂.parity) = !e₀.parity
      rw [congrArg K3Executor.parity hran.rest]
      exact congrArg not hparity
    refine ⟨?_, ?_, ?_, ?_⟩
    · rw [hside, hadvanced]
      exact hrow.recurrent
    · rw [hside, hadvanced]
      exact hrow.conv
    · rw [hposition entry hin]
      have hbefore : e₂.positions entry.slot = (now entry.slot).2.length := by
        rw [congrArg K3Executor.positions hran.rest]
        exact (congrFun hpositions entry.slot).trans (hplain entry hin).position
      have hfeed : (T.decoder.feed (now entry.slot) entry.lastToken).2.length = (now entry.slot).2.length + 1 :=
        List.length_append
      rw [hfeed]
      exact congrArg (· + 1) hbefore
    · rw [hadvanced]
      exact hrow.cached

/-! ## Replay -/

section Replay

variable [Inhabited κ] {prompt : List UInt32} {ctx : (ρ × ω) × List κ}

theorem decodeOne_ends {token : UInt32} (hbuckets : e₁.maxBatch ∈ k3BatchBuckets) (howned : e₁.kv.Owned)
    (hplain : Plain e₁ slot ctx) : Faulty.Ends (fun e => e = e₁) (decodeInner T [⟨slot, token⟩])
      (fun answers e => e.maxBatch ∈ k3BatchBuckets ∧ e.kv.Owned ∧ answers = [T.decoder.next ctx token] ∧
        Plain e slot (T.decoder.feed ctx token)) (fun _ => True) := by
  obtain ⟨now, rfl⟩ : ∃ now : ℕ → (ρ × ω) × List κ, now slot = ctx := ⟨fun _ => ctx, rfl⟩
  have hbatch : ∀ entry ∈ [DecodeSlot.mk slot token], Plain e₁ entry.slot (now entry.slot) := by
    intro entry hin
    rw [List.mem_singleton.1 hin]
    exact hplain
  have hnodup : ([DecodeSlot.mk slot token].map DecodeSlot.slot).Nodup := List.nodup_singleton slot
  refine (decodeInner_ends hbuckets howned hnodup hbatch).weaken (fun _ h => h)
    (fun answers e h => ?_) fun _ h => h
  obtain ⟨hmaxBatch, howned', hanswers, hplain'⟩ := h
  exact ⟨hmaxBatch ▸ hbuckets, howned', hanswers, hplain' _ (List.mem_singleton_self _)⟩

/-- past its prompt a replay is plain decode -/
theorem replaySteps_greedy (steps : ℕ) : ∀ {sampled : List UInt32} {ctx : (ρ × ω) × List κ} {e₁ : K3Executor ρ ω κ},
    prompt.length ≤ sampled.length → e₁.maxBatch ∈ k3BatchBuckets → e₁.kv.Owned → Plain e₁ slot ctx →
      Faulty.Ends (fun e => e = e₁) (replaySteps T slot prompt steps sampled)
        (fun out _ => out = sampled ++ T.decoder.greedy ctx (sampled.getLastD 0) steps) (fun _ => True) := by
  induction steps with
  | zero => exact fun _ _ _ _ => .from_pure (List.append_nil _).symm
  | succ steps ih =>
    intro sampled ctx e₁ hlength hbuckets howned hplain
    have htoken : prompt.getD sampled.length (sampled.getLastD 0) = sampled.getLastD 0 := by
      rw [List.getD_eq_getElem?_getD, List.getElem?_eq_none hlength]
      rfl
    rw [replaySteps, htoken]
    refine (decodeOne_ends hbuckets howned hplain).from_bind ?_
    rintro step e₂ ⟨hbuckets₂, howned₂, rfl, hplain₂⟩
    have hlonger : prompt.length ≤ (sampled ++ [T.decoder.next ctx (sampled.getLastD 0)]).length := by
      rw [List.length_append]
      exact hlength.trans (Nat.le_add_right _ _)
    refine (ih hlonger hbuckets₂ howned₂ hplain₂).weaken (fun _ h => h) (fun out _ h => ?_) fun _ h => h
    rw [h, List.append_assoc, List.getLastD_concat]
    rfl

/-- what is left of a prompt is fed token by token -/
theorem replaySteps_prompt (steps : ℕ) (rest : List UInt32) : ∀ {fed sampled : List UInt32}
    {ctx : (ρ × ω) × List κ} {e₁ : K3Executor ρ ω κ}, fed ++ rest = prompt → fed.length = sampled.length →
      e₁.maxBatch ∈ k3BatchBuckets → e₁.kv.Owned → Plain e₁ slot ctx →
        Faulty.Ends (fun e => e = e₁) (replaySteps T slot prompt (rest.length + steps) sampled)
          (fun out _ => out = sampled ++ T.decoder.answers ctx rest ++ T.decoder.greedy (T.decoder.feedAll ctx rest)
            ((sampled ++ T.decoder.answers ctx rest).getLastD 0) steps) (fun _ => True) := by
  induction rest with
  | nil =>
    intro fed sampled ctx e₁ hprompt hlength hbuckets howned hplain
    rw [List.append_nil] at hprompt
    have hdone : prompt.length ≤ sampled.length := by rw [← hprompt, hlength]
    rw [List.length_nil, Nat.zero_add, Decoder.answers, List.append_nil]
    exact replaySteps_greedy steps hdone hbuckets howned hplain
  | cons token rest ih =>
    intro fed sampled ctx e₁ hprompt hlength hbuckets howned hplain
    have htoken : prompt.getD sampled.length (sampled.getLastD 0) = token := by
      rw [← hprompt, List.getD_eq_getElem?_getD, List.getElem?_append_right hlength.le, hlength, Nat.sub_self]
      rfl
    rw [List.length_cons, Nat.add_right_comm, replaySteps, htoken]
    refine (decodeOne_ends hbuckets howned hplain).from_bind ?_
    rintro step e₂ ⟨hbuckets₂, howned₂, rfl, hplain₂⟩
    have hprompt₂ : (fed ++ [token]) ++ rest = prompt := (List.append_assoc _ _ _).trans hprompt
    have hlength₂ : (fed ++ [token]).length = (sampled ++ [T.decoder.next ctx token]).length := by
      rw [List.length_append, List.length_append, hlength]
      rfl
    refine (ih hprompt₂ hlength₂ hbuckets₂ howned₂ hplain₂).weaken (fun _ h => h) (fun out _ h => ?_) fun _ h => h
    have hanswers : sampled ++ [T.decoder.next ctx token] ++ T.decoder.answers (T.decoder.feed ctx token) rest =
        sampled ++ T.decoder.answers ctx (token :: rest) := List.append_assoc _ _ _
    rw [h, hanswers]
    rfl

variable [Inhabited ρ] [Inhabited ω]

/-- some parities of a slot are zeroed -/
structure Zeroed (slot : ℕ) (zeroed : List Bool) (e e' : K3Executor ρ ω κ) : Prop where
  maxBatch : e'.maxBatch = e.maxBatch
  kv : e'.kv = e.kv
  state : ∀ parity ∈ zeroed, e'.recurrent parity slot = default ∧ e'.conv parity slot = default

omit [Inhabited κ] in
theorem Zeroed.step {zeroed : List Bool} (h : Zeroed slot zeroed e e') :
    Zeroed slot (zeroed ++ [parity]) e (e'.zeroState slot parity) := by
  refine ⟨h.maxBatch, h.kv, fun other hother => ?_⟩
  by_cases heq : other = parity
  · subst heq
    exact ⟨setRow_self, setRow_self⟩
  · have hbefore : other ∈ zeroed := (List.mem_append.1 hother).resolve_right fun h => heq (List.mem_singleton.1 h)
    obtain ⟨hrecurrent, hconv⟩ := h.state other hbefore
    exact ⟨(setRow_other (.inl heq)).trans hrecurrent, (setRow_other (.inl heq)).trans hconv⟩

omit [Inhabited κ] in
/-- a slot that was reset stands before its first token -/
theorem resetRow_plain (howned : e₁.kv.Owned) : Faulty.Ends (fun e => e = e₁) (resetRow slot)
    (fun _ e => e.maxBatch = e₁.maxBatch ∧ e.kv.Owned ∧ Plain e slot ((default, default), [])) (fun _ => True) := by
  refine .from_get (.from_ensure (fun _ => ?_) fun _ => trivial)
  have hzeroed : Faulty.Ends (fun e => e = e₁) (Faulty.each (fun parity => Faulty.operate "zero a K3 state row" >>=
      fun _ => Faulty.modify (K3Executor.zeroState slot parity)) [false, true])
      (fun _ => Zeroed slot [false, true] e₁) (fun _ => True) := by
    refine (Faulty.Ends.each (I := fun zeroed => Zeroed slot zeroed e₁) _ fun zeroed parity _ _ => .of_each
      fun e₂ h₂ => .from_operate (.modify ?_) trivial).weaken (fun e he => ?_) (fun _ _ h => h) fun _ h => h
    · rintro e rfl
      exact h₂.step
    · exact ⟨he ▸ rfl, he ▸ rfl, fun _ hin => absurd hin List.not_mem_nil⟩
  refine hzeroed.from_bind ?_
  rintro - e₂ ⟨hmaxBatch, hkv, hzero⟩
  refine .from_operate (.modify ?_) trivial
  rintro e rfl
  have hparity := hzero e.parity (by cases e.parity <;> decide)
  refine ⟨hmaxBatch, releaseRow_owned (hkv ▸ howned), hparity.1, hparity.2, Function.update_self _ _ _, ?_⟩
  intro position latent hlatent
  cases hlatent

/-- **A replay is plain decode**: it answers the prompt token by token and goes on from there. -/
theorem greedyReplay_ends (hbuckets : e₁.maxBatch ∈ k3BatchBuckets) (howned : e₁.kv.Owned) (steps : ℕ) :
    Faulty.Ends (fun e => e = e₁) (greedyReplay T slot prompt steps)
      (fun sampled _ => sampled = T.decoder.answers ((default, default), []) prompt ++
        T.decoder.greedy (T.decoder.feedAll ((default, default), []) prompt)
          ((T.decoder.answers ((default, default), []) prompt).getLastD 0) steps) (fun _ => True) := by
  refine .from_get (.from_ensure (fun _ => .from_ensure (fun _ => .from_operate ?_ trivial) fun _ => trivial)
    fun _ => trivial)
  refine (resetRow_plain howned).from_bind ?_
  rintro - e₂ ⟨hmaxBatch, howned₂, hplain⟩
  have hreset : ([] : List UInt32).length = ([] : List UInt32).length := rfl
  exact replaySteps_prompt steps prompt (List.nil_append prompt) hreset (hmaxBatch ▸ hbuckets) howned₂ hplain

end Replay

end Pegainfer.K3
