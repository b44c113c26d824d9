/-
Everything a call can do to a sequence.

`Call` lists the operations a request's owner issues on its sequence, `call` dispatches them, and `Effect` says, for
every call, what it checked and what it did to the sequence, whatever the store did. Each property of a sequence is
then one case per effect.
- `call_effect`: a call that does not panic has one of the listed effects.
-/
import Mathlib.Tactic
import Pegainfer.Kvbm.Sequence

set_option linter.unusedSectionVars false

namespace Pegainfer.Kvbm

/-! ## Rounding up -/

theorem divCeil_le_iff {a b c : ℕ} (hb : 0 < b) : divCeil a b ≤ c ↔ a ≤ c * b := by
  rw [divCeil, ← Nat.lt_succ_iff, Nat.div_lt_iff_lt_mul hb, Nat.succ_mul]
  omega

theorem le_divCeil_mul (a : ℕ) {b : ℕ} (hb : 0 < b) : a ≤ divCeil a b * b := (divCeil_le_iff hb).1 le_rfl

theorem divCeil_mono {a a' b : ℕ} (hb : 0 < b) (h : a ≤ a') : divCeil a b ≤ divCeil a' b :=
  (divCeil_le_iff hb).2 (h.trans (le_divCeil_mul a' hb))

theorem div_le_divCeil (a : ℕ) {b : ℕ} (hb : 0 < b) : a / b ≤ divCeil a b := by
  refine (Nat.div_le_iff_le_mul_add_pred hb).2 ?_
  have := le_divCeil_mul a hb
  rw [Nat.mul_comm] at this
  omega

theorem divCeil_mul (c : ℕ) {b : ℕ} (hb : 0 < b) : divCeil (c * b) b = c := by
  apply le_antisymm
  · exact (divCeil_le_iff hb).2 le_rfl
  · exact Nat.le_of_mul_le_mul_right (le_divCeil_mul (c * b) hb) hb

/-- a block past the complete ones starts one token later -/
theorem div_succ_le_divCeil {a b : ℕ} (hb : 0 < b) : a / b + 1 ≤ divCeil (a + 1) b := by
  by_contra h
  have h' : divCeil (a + 1) b ≤ a / b := by omega
  have := (divCeil_le_iff hb).1 h'
  have := Nat.div_mul_le_self a b
  omega

theorem divCeil_eq_div {a b : ℕ} (hb : 0 < b) (h : a % b = 0) : divCeil a b = a / b := by
  conv_lhs => rw [← Nat.div_add_mod a b, h, Nat.add_zero, Nat.mul_comm]
  exact divCeil_mul _ hb

namespace SchedulableSequence

variable {H : Type} [DecidableEq H] [BlockHash H]

/-! ## Calls -/

inductive Call
  | matchAndAddPrefix
  | schedulePrefill (numTokens : ℕ)
  | applyPrefill (token : Option Token)
  | scheduleDecode
  | applyDecode (token : Token)
  | scheduleSpeculative (numDraftTokens : ℕ)
  | applySpeculative (accepted : List Token)
  | revertSchedule
  | padTailBlock (pad : Token)
  | adoptExternalPrefillAnchor
  | release
deriving DecidableEq, Repr

/-- what the caller gets back -/
inductive CallResult
  | done
  | scheduleError (e : ScheduleError)
  | applyError (e : ApplyError)
deriving DecidableEq, Repr

def CallResult.ofSchedule {α : Type} : Except ScheduleError α → CallResult
  | .ok _ => .done
  | .error e => .scheduleError e

def CallResult.ofApply {α : Type} : Except ApplyError α → CallResult
  | .ok _ => .done
  | .error e => .applyError e

def call (q : SchedulableSequence H) (c : Call) (σ : BlockStore H) :
    Except String (CallResult × SchedulableSequence H × BlockStore H) :=
  match c with
  | .matchAndAddPrefix => (q.matchAndAddPrefix σ).map fun r => (.ofSchedule r.1, r.2)
  | .schedulePrefill n => (q.schedulePrefill n σ).map fun r => (.ofSchedule r.1, r.2)
  | .applyPrefill t => (q.applyPrefill t σ).map fun r => (.ofApply r.1, r.2)
  | .scheduleDecode => (q.scheduleDecode σ).map fun r => (.ofSchedule r.1, r.2)
  | .applyDecode t => (q.applyDecode t σ).map fun r => (.ofApply r.1, r.2)
  | .scheduleSpeculative n => (q.scheduleSpeculative n σ).map fun r => (.ofSchedule r.1, r.2)
  | .applySpeculative ts => (q.applySpeculative ts σ).map fun r => (.ofApply r.1, r.2)
  | .revertSchedule => .ok (.ofApply (q.revertSchedule σ).1, (q.revertSchedule σ).2)
  | .padTailBlock pad => (q.padTailBlock pad σ).map fun r => (.ofApply r.1, r.2)
  | .adoptExternalPrefillAnchor =>
    .ok (.ofApply q.adoptExternalPrefillAnchor.1, q.adoptExternalPrefillAnchor.2, σ)
  | .release => .ok (.ofApply (q.release σ).1, (q.release σ).2)

attribute [grind =] call

/-! ## The pieces -/

theorem allocateAtomic_length {σ σ' : BlockStore H} {n : ℕ} {ids : List BlockId} {ev : List H}
    (h : σ.allocateAtomic n = .ok (some (ids, ev, σ'))) : ids.length = n := by
  unfold BlockStore.allocateAtomic at h
  by_cases h0 : n = 0
  · simp only [h0, if_true, Except.ok.injEq, Option.some.injEq, Prod.mk.injEq] at h
    simp [← h.1, h0]
  by_cases h1 : σ.available < n
  · simp [h0, h1] at h
  · simp only [h0, h1, if_false] at h
    split_ifs at h
    simp only [Except.ok.injEq, Option.some.injEq, Prod.mk.injEq] at h
    rw [← h.1]
    simp only [BlockStore.available, not_lt] at h1
    simp only [List.length_append, List.length_map, List.length_take]
    omega

theorem allocateBlocks_length {σ σ' : BlockStore H} {n : ℕ} {ids : List BlockId}
    (h : σ.allocateBlocks n = .ok (some (ids, σ'))) : ids.length = n := by
  unfold BlockStore.allocateBlocks at h
  split at h
  · cases h
  · cases h
  · rename_i ids' ev σ'' heq
    simp only [Except.ok.injEq, Option.some.injEq, Prod.mk.injEq] at h
    rw [← h.1]
    exact allocateAtomic_length heq

/-- the sequence once `ids` are drawn for a scheduled step -/
def drawn (q : SchedulableSequence H) (ids : List BlockId) (next : SequenceState) : SchedulableSequence H :=
  { q with unassigned := q.unassigned ++ ids, state := next }

theorem drawInto_ok {q q' : SchedulableSequence H} {n : ℕ} {next : SequenceState} {σ σ' : BlockStore H}
    {r : Except ScheduleError Unit} (h : q.drawInto n next σ = .ok (r, q', σ')) :
    (r = .error (.allocationFailed n) ∧ q' = q) ∨
    ∃ ids, ids.length = n ∧ r = .ok () ∧ q' = q.drawn ids next := by
  unfold drawInto allocateBlocks at h
  split_ifs at h with h0
  · right
    simp only [Except.ok.injEq, Prod.mk.injEq] at h
    exact ⟨[], h0.symm, h.1.symm, by simp [← h.2.1, drawn]⟩
  · cases ha : σ.allocateBlocks n with
    | error e => simp [ha] at h
    | ok o =>
      cases o with
      | none =>
        simp only [ha, Except.ok.injEq, Prod.mk.injEq] at h
        exact Or.inl ⟨h.1.symm, h.2.1.symm⟩
      | some p =>
        obtain ⟨ids, τ⟩ := p
        simp only [ha] at h
        split_ifs at h with hv
        · simp only [Except.ok.injEq, Prod.mk.injEq] at h
          exact Or.inr ⟨ids, allocateBlocks_length ha, h.1.symm, h.2.1.symm⟩
        · simp only [Except.ok.injEq, Prod.mk.injEq] at h
          exact Or.inl ⟨h.1.symm, h.2.1.symm⟩

theorem registerBlock_names {σ σ' : BlockStore H} {b : BlockId} {k : H} {x : ImmutableBlock H}
    (h : σ.registerBlock b k = .ok (x, σ')) : x.blockId = b ∧ x.seqHash = k := by
  unfold BlockStore.registerBlock at h
  split at h
  · cases h
  · simp only [Except.ok.injEq, Prod.mk.injEq] at h
    simp [← h.1]
  · split_ifs at h
    simp only [Except.ok.injEq, Prod.mk.injEq] at h
    simp [← h.1]

theorem registerAll_names {σ σ' : BlockStore H} {cs : List (BlockId × H)} {xs : List (ImmutableBlock H)}
    (h : σ.registerAll cs = .ok (xs, σ')) : xs.map (fun x => (x.blockId, x.seqHash)) = cs := by
  induction cs generalizing σ σ' xs with
  | nil =>
    simp only [BlockStore.registerAll, Except.ok.injEq, Prod.mk.injEq] at h
    simp [← h.1]
  | cons c cs ih =>
    obtain ⟨b, k⟩ := c
    simp only [BlockStore.registerAll] at h
    split at h
    · cases h
    · rename_i x τ hx
      split at h
      · cases h
      · rename_i ys τ' hys
        simp only [Except.ok.injEq, Prod.mk.injEq] at h
        obtain ⟨hb, hk⟩ := registerBlock_names hx
        simp [← h.1, ih hys, hb, hk]

/-- the blocks `complete_and_register_pending` registers, in sequence order -/
def Registers (q : SchedulableSequence H) (xs : List (ImmutableBlock H)) : Prop :=
  xs.map (fun x => (x.blockId, x.seqHash)) = q.staged ++ q.pendingPairs

/-- the sequence once `xs` are registered -/
def withRegistered (q : SchedulableSequence H) (xs : List (ImmutableBlock H)) : SchedulableSequence H :=
  { q with
    assigned := q.assigned ++ xs
    staged := []
    unassigned := q.unassigned.drop q.pendingPairs.length }

theorem completeAndRegisterPending_ok {q q' : SchedulableSequence H} {σ σ' : BlockStore H}
    (h : q.completeAndRegisterPending σ = .ok (q', σ')) : ∃ xs, q.Registers xs ∧ q' = q.withRegistered xs := by
  unfold completeAndRegisterPending registerStaged stagePending at h
  split at h
  · cases h
  · rename_i xs τ hxs
    simp only [Except.ok.injEq, Prod.mk.injEq] at h
    exact ⟨xs, registerAll_names hxs, h.1.symm⟩

/-- the sequence once the generated tokens `ts` are appended -/
def appended (q : SchedulableSequence H) (ts : List Token) : SchedulableSequence H :=
  { q with tokens := q.tokens ++ ts, generatedTokens := q.generatedTokens + ts.length }

theorem appendToken_ok {q q' : SchedulableSequence H} {t : Token} {c : Option ℕ}
    (h : q.appendToken t = .ok (c, q')) :
    q.generatedTokens < q.maxOutputTokens ∧ q' = q.appended [t] := by
  unfold appendToken at h
  split_ifs at h with hlt
  all_goals
    simp only [Except.ok.injEq, Prod.mk.injEq] at h
    exact ⟨hlt, h.2.symm⟩

theorem appendTokens_ok {q q' : SchedulableSequence H} {ts : List Token} {c : Bool}
    (h : q.appendTokens ts = .ok (c, q')) :
    (ts ≠ [] → q.generatedTokens + ts.length ≤ q.maxOutputTokens) ∧ q' = q.appended ts := by
  induction ts generalizing q q' c with
  | nil =>
    simp only [appendTokens, Except.ok.injEq, Prod.mk.injEq] at h
    simp [← h.2, appended]
  | cons t ts ih =>
    simp only [appendTokens] at h
    split at h
    · cases h
    · rename_i crossed q₁ hq₁
      split at h
      · cases h
      · rename_i completed q₂ hq₂
        simp only [Except.ok.injEq, Prod.mk.injEq] at h
        obtain ⟨hlt, rfl⟩ := appendToken_ok hq₁
        obtain ⟨hle, heq⟩ := ih hq₂
        refine ⟨?_, ?_⟩
        · intro _
          simp only [List.length_cons]
          by_cases hts : ts = []
          · subst hts
            simpa using hlt
          · have := hle hts
            simp only [appended, List.length_singleton] at this
            omega
        · rw [← h.2, heq]
          simp [appended, Nat.add_assoc, Nat.add_comm 1]

theorem requireGeneration_ok {q : SchedulableSequence H} (h : q.requireGeneration = .ok ()) :
    q.state = .idle ∧ q.numInputTokens ≤ q.prefillPosition ∧ q.generatedTokens < q.maxOutputTokens ∧
      q.totalTokens = q.kvPosition + 1 := by
  unfold requireGeneration at h
  split_ifs at h with h1 h2 h3 h4
  have hidle : q.state = .idle := by simpa using h1
  have hpre : q.numInputTokens ≤ q.prefillPosition := by simpa [isPrefillComplete] using h2
  have hgen : q.generatedTokens < q.maxOutputTokens := by simpa [isComplete] using h3
  have htail : q.tailTokens = 1 := by simpa using h4
  unfold tailTokens at htail
  exact ⟨hidle, hpre, hgen, by omega⟩

/-! ## Effects -/

/-- blocks drawn by the scheduled step -/
def drawnBlocks (q : SchedulableSequence H) : Option ℕ :=
  match q.state with
  | .idle => none
  | .prefillScheduled _ n | .decodeScheduled n | .speculativeScheduled _ n => some n

attribute [grind =] drawnBlocks

/-- the sequence once the leading blocks `xs` are matched -/
def withMatched (q : SchedulableSequence H) (xs : List (ImmutableBlock H)) : SchedulableSequence H :=
  { q with
    assigned := xs
    prefixMatchedBlocks := q.prefixMatchedBlocks + xs.length
    prefillPosition := q.prefillPosition + xs.length * q.blockSize
    kvPosition := q.prefillPosition + xs.length * q.blockSize }

/-- the sequence with its first `n` unassigned blocks only -/
def keepUnassigned (q : SchedulableSequence H) (n : ℕ) : SchedulableSequence H :=
  { q with unassigned := q.unassigned.take n }

/-- the sequence without its blocks -/
def cleared (q : SchedulableSequence H) : SchedulableSequence H :=
  { q with assigned := [], staged := [], unassigned := [] }

/-- the preconditions of a decode or speculative step -/
structure Generates (q : SchedulableSequence H) : Prop where
  prefilled : q.numInputTokens ≤ q.prefillPosition
  incomplete : q.generatedTokens < q.maxOutputTokens
  dangling : q.totalTokens = q.kvPosition + 1

/-- what call `c` checked, what it answered and what it did to the sequence -/
inductive Effect (q : SchedulableSequence H) : Call → CallResult → SchedulableSequence H → Prop
  | refused (c : Call) (r : CallResult) (hr : r ≠ .done) : Effect q c r q
  | unmatched (hs : q.state = .idle) (he : q.residentBlocks = 0) : Effect q .matchAndAddPrefix .done q
  | matched (xs : List (ImmutableBlock H)) (hs : q.state = .idle) (he : q.residentBlocks = 0) (hne : xs ≠ [])
      (hmax : xs.length ≤ q.maxMatchedBlocks) (hle : xs.length ≤ q.completeSequenceBlocks)
      (hx : xs.map ImmutableBlock.seqHash = q.allSequenceHashes.take xs.length) :
      Effect q .matchAndAddPrefix .done (q.withMatched xs)
  | prefillScheduled (n : ℕ) (ids : List BlockId) (hs : q.state = .idle) (hp : q.prefillPosition < q.numInputTokens)
      (hn : q.prefillPosition + n ≤ q.numInputTokens)
      (hids : ids.length = divCeil (q.prefillPosition + n) q.blockSize - q.residentBlocks) :
      Effect q (.schedulePrefill n) .done (q.drawn ids (.prefillScheduled n ids.length))
  | prefillApplied (n b : ℕ) (t : Option Token) (xs : List (ImmutableBlock H))
      (hs : q.state = .prefillScheduled n b) (ht : t ≠ none → q.numInputTokens ≤ q.prefillPosition + n)
      (hf : q.numInputTokens ≤ q.prefillPosition + n → t = none → q.maxOutputTokens = 0)
      (hg : t ≠ none → q.generatedTokens < q.maxOutputTokens) (hx : q.Registers xs) :
      Effect q (.applyPrefill t) .done
        { (q.withRegistered xs).appended t.toList with
          prefillPosition := q.prefillPosition + n, kvPosition := q.prefillPosition + n, state := .idle }
  | decodeScheduled (ids : List BlockId) (hs : q.state = .idle) (hq : q.Generates)
      (hids : ids.length =
        (q.completeSequenceBlocks - (q.assigned.length + q.staged.length) + 1) - q.unassigned.length) :
      Effect q .scheduleDecode .done (q.drawn ids (.decodeScheduled ids.length))
  | decodeApplied (b : ℕ) (t : Token) (xs : List (ImmutableBlock H)) (hs : q.state = .decodeScheduled b)
      (hg : q.generatedTokens < q.maxOutputTokens) (hx : q.Registers xs) :
      Effect q (.applyDecode t) .done
        { (q.withRegistered xs).appended [t] with kvPosition := q.kvPosition + 1, state := .idle }
  | speculativeScheduled (n : ℕ) (ids : List BlockId) (hs : q.state = .idle) (hq : q.Generates)
      (hids : ids.length = divCeil (q.totalTokens + min n q.remainingTokens) q.blockSize - q.residentBlocks) :
      Effect q (.scheduleSpeculative n) .done
        (q.drawn ids (.speculativeScheduled (min n q.remainingTokens) ids.length))
  | speculativeApplied (n b : ℕ) (ts : List Token) (xs : List (ImmutableBlock H))
      (hs : q.state = .speculativeScheduled n b) (hn : ts.length ≤ n)
      (hg : ts ≠ [] → q.generatedTokens + ts.length ≤ q.maxOutputTokens) (hx : (q.appended ts).Registers xs) :
      Effect q (.applySpeculative ts) .done
        { ((q.appended ts).withRegistered xs).keepUnassigned (if (q.appended ts).isComplete then 0 else 1) with
          kvPosition := q.kvPosition + ts.length, state := .idle }
  | reverted (n : ℕ) (hs : q.drawnBlocks = some n) :
      Effect q .revertSchedule .done { q.keepUnassigned (q.unassigned.length - n) with state := .idle }
  | unpadded (pad : Token) (hs : q.state = .idle) : Effect q (.padTailBlock pad) .done q
  | padded (pad : Token) (xs : List (ImmutableBlock H)) (hs : q.state = .idle)
      (hk : q.kvPosition % q.blockSize ≠ 0)
      (hx : { q with tokens := q.tokens ++ List.replicate q.padCount pad }.Registers xs) :
      Effect q (.padTailBlock pad) .done
        ({ q with tokens := q.tokens ++ List.replicate q.padCount pad }.withRegistered xs)
  | adopted (hs : q.state = .idle) (hk : q.prefillPosition = q.kvPosition)
      (hp : q.prefillPosition + 1 = q.numInputTokens) (ht : q.tailTokens = 1)
      (hg : q.generatedTokens < q.maxOutputTokens) :
      Effect q .adoptExternalPrefillAnchor .done
        { q with numInputTokens := q.numInputTokens - 1, generatedTokens := q.generatedTokens + 1 }
  | released (hs : q.state = .idle) : Effect q .release .done q.cleared

/-! ## A call has one of these effects -/

theorem matchAndAddPrefix_effect {q q' : SchedulableSequence H} {σ σ' : BlockStore H} {r : Except ScheduleError ℕ}
    (h : q.matchAndAddPrefix σ = .ok (r, q', σ')) : Effect q .matchAndAddPrefix (.ofSchedule r) q' := by
  unfold matchAndAddPrefix at h
  split_ifs at h with hs he
  · simp only [Except.ok.injEq, Prod.mk.injEq] at h
    rw [← h.1, ← h.2.1]
    exact .refused _ _ (by simp [CallResult.ofSchedule])
  · have hs : q.state = .idle := by simpa using hs
    have he : q.residentBlocks = 0 := by simpa using he
    split at h
    · cases h
    · rename_i hits σ₁ hm
      simp only at h
      split_ifs at h with h1 h2 h3
      · simp only [Except.ok.injEq, Prod.mk.injEq] at h
        rw [← h.1, ← h.2.1]
        exact .unmatched hs he
      · simp only [Except.ok.injEq, Prod.mk.injEq] at h
        rw [← h.1, ← h.2.1]
        exact .matched (hits.take q.maxMatchedBlocks) hs he h1 (List.length_take_le _ _) (not_lt.1 h2) h3.1

theorem schedulePrefill_effect {q q' : SchedulableSequence H} {n : ℕ} {σ σ' : BlockStore H}
    {r : Except ScheduleError Unit} (h : q.schedulePrefill n σ = .ok (r, q', σ')) :
    Effect q (.schedulePrefill n) (.ofSchedule r) q' := by
  unfold schedulePrefill at h
  simp only at h
  split_ifs at h with hs hp hn
  · simp only [Except.ok.injEq, Prod.mk.injEq] at h
    rw [← h.1, ← h.2.1]
    exact .refused _ _ (by simp [CallResult.ofSchedule])
  · simp only [Except.ok.injEq, Prod.mk.injEq] at h
    rw [← h.1, ← h.2.1]
    exact .refused _ _ (by simp [CallResult.ofSchedule])
  · simp only [Except.ok.injEq, Prod.mk.injEq] at h
    rw [← h.1, ← h.2.1]
    exact .refused _ _ (by simp [CallResult.ofSchedule])
  · have hs : q.state = .idle := by simpa using hs
    have hp : q.prefillPosition < q.numInputTokens := by simpa [isPrefillComplete] using hp
    rcases drawInto_ok h with ⟨rfl, rfl⟩ | ⟨ids, hids, rfl, rfl⟩
    · exact .refused _ _ (by simp [CallResult.ofSchedule])
    · rw [← hids]
      exact .prefillScheduled n ids hs hp (not_lt.1 hn) hids

theorem applyPrefill_effect {q q' : SchedulableSequence H} {t : Option Token} {σ σ' : BlockStore H}
    {r : Except ApplyError Unit} (h : q.applyPrefill t σ = .ok (r, q', σ')) :
    Effect q (.applyPrefill t) (.ofApply r) q' := by
  unfold applyPrefill at h
  split at h
  · rename_i n b hs
    simp only at h
    split_ifs at h with h1 h2
    · simp only [Except.ok.injEq, Prod.mk.injEq] at h
      rw [← h.1, ← h.2.1]
      exact .refused _ _ (by simp [CallResult.ofApply])
    · simp only [Except.ok.injEq, Prod.mk.injEq] at h
      rw [← h.1, ← h.2.1]
      exact .refused _ _ (by simp [CallResult.ofApply])
    · split at h
      · cases h
      · rename_i q₁ σ₁ hreg
        split at h
        · cases h
        · rename_i c q₃ happ
          simp only [Except.ok.injEq, Prod.mk.injEq] at h
          rw [← h.1, ← h.2.1]
          obtain ⟨xs, hx, rfl⟩ := completeAndRegisterPending_ok hreg
          obtain ⟨hg, rfl⟩ := appendTokens_ok happ
          refine .prefillApplied n b t xs hs ?_ ?_ ?_ hx
          · intro ht
            simpa [Option.isSome_iff_ne_none, ht] using h1
          · intro hle ht
            simpa [hle, ht] using h2
          · intro ht
            obtain ⟨tok, rfl⟩ := Option.ne_none_iff_exists'.1 ht
            have := hg (by simp)
            simp only [withRegistered, Option.toList_some, List.length_singleton] at this
            omega
  · simp only [Except.ok.injEq, Prod.mk.injEq] at h
    rw [← h.1, ← h.2.1]
    exact .refused _ _ (by simp [CallResult.ofApply])

theorem scheduleDecode_effect {q q' : SchedulableSequence H} {σ σ' : BlockStore H} {r : Except ScheduleError Unit}
    (h : q.scheduleDecode σ = .ok (r, q', σ')) : Effect q .scheduleDecode (.ofSchedule r) q' := by
  unfold scheduleDecode at h
  split at h
  · simp only [Except.ok.injEq, Prod.mk.injEq] at h
    rw [← h.1, ← h.2.1]
    exact .refused _ _ (by simp [CallResult.ofSchedule])
  · rename_i hreq
    obtain ⟨hs, hp, hg, hd⟩ := requireGeneration_ok hreq
    simp only at h
    rcases drawInto_ok h with ⟨rfl, rfl⟩ | ⟨ids, hids, rfl, rfl⟩
    · exact .refused _ _ (by simp [CallResult.ofSchedule])
    · rw [← hids]
      exact .decodeScheduled ids hs ⟨hp, hg, hd⟩ hids

theorem applyDecode_effect {q q' : SchedulableSequence H} {t : Token} {σ σ' : BlockStore H}
    {r : Except ApplyError DecodeOutcome} (h : q.applyDecode t σ = .ok (r, q', σ')) :
    Effect q (.applyDecode t) (.ofApply r) q' := by
  unfold applyDecode at h
  split at h
  · rename_i b hs
    split at h
    · cases h
    · rename_i q₁ σ₁ hreg
      split at h
      · cases h
      · rename_i c q₂ happ
        simp only [Except.ok.injEq, Prod.mk.injEq] at h
        rw [← h.1, ← h.2.1]
        obtain ⟨xs, hx, rfl⟩ := completeAndRegisterPending_ok hreg
        obtain ⟨hg, rfl⟩ := appendToken_ok happ
        exact .decodeApplied b t xs hs hg hx
  · simp only [Except.ok.injEq, Prod.mk.injEq] at h
    rw [← h.1, ← h.2.1]
    exact .refused _ _ (by simp [CallResult.ofApply])

theorem scheduleSpeculative_effect {q q' : SchedulableSequence H} {n : ℕ} {σ σ' : BlockStore H}
    {r : Except ScheduleError Unit} (h : q.scheduleSpeculative n σ = .ok (r, q', σ')) :
    Effect q (.scheduleSpeculative n) (.ofSchedule r) q' := by
  unfold scheduleSpeculative at h
  split at h
  · simp only [Except.ok.injEq, Prod.mk.injEq] at h
    rw [← h.1, ← h.2.1]
    exact .refused _ _ (by simp [CallResult.ofSchedule])
  · rename_i hreq
    obtain ⟨hs, hp, hg, hd⟩ := requireGeneration_ok hreq
    simp only at h
    rcases drawInto_ok h with ⟨rfl, rfl⟩ | ⟨ids, hids, rfl, rfl⟩
    · exact .refused _ _ (by simp [CallResult.ofSchedule])
    · rw [← hids]
      exact .speculativeScheduled n ids hs ⟨hp, hg, hd⟩ hids

theorem applySpeculative_effect {q q' : SchedulableSequence H} {ts : List Token} {σ σ' : BlockStore H}
    {r : Except ApplyError DecodeOutcome} (h : q.applySpeculative ts σ = .ok (r, q', σ')) :
    Effect q (.applySpeculative ts) (.ofApply r) q' := by
  unfold applySpeculative at h
  split at h
  · rename_i n b hs
    split_ifs at h with hn
    · simp only [Except.ok.injEq, Prod.mk.injEq] at h
      rw [← h.1, ← h.2.1]
      exact .refused _ _ (by simp [CallResult.ofApply])
    · split at h
      · cases h
      · rename_i c q₁ happ
        split at h
        · cases h
        · rename_i q₂ σ₂ hreg
          simp only [Except.ok.injEq, Prod.mk.injEq] at h
          rw [← h.1, ← h.2.1]
          obtain ⟨hg, rfl⟩ := appendTokens_ok happ
          obtain ⟨xs, hx, rfl⟩ := completeAndRegisterPending_ok hreg
          have hkeep : ∀ (u : List BlockId) (k : ℕ), u.take (u.length - (u.length - k)) = u.take k := by
            intro u k
            rw [List.take_eq_take_iff]
            omega
          have heff := Effect.speculativeApplied n b ts xs hs (not_lt.1 hn) hg hx
          simp only [keepUnassigned, withRegistered, isComplete] at heff
          simp only [lifoDropExcessUnassigned, lifoPopUnassigned, hkeep, withRegistered, isComplete,
            CallResult.ofApply]
          exact heff
  · simp only [Except.ok.injEq, Prod.mk.injEq] at h
    rw [← h.1, ← h.2.1]
    exact .refused _ _ (by simp [CallResult.ofApply])

theorem revertSchedule_effect (q : SchedulableSequence H) (σ : BlockStore H) :
    Effect q .revertSchedule (.ofApply (q.revertSchedule σ).1) (q.revertSchedule σ).2.1 := by
  cases hs : q.state with
  | idle =>
    simp only [revertSchedule, hs]
    exact .refused _ _ (by simp [CallResult.ofApply])
  | prefillScheduled n b =>
    simp only [revertSchedule, hs, lifoPopUnassigned, CallResult.ofApply]
    exact .reverted b (by simp [drawnBlocks, hs])
  | decodeScheduled b =>
    simp only [revertSchedule, hs, lifoPopUnassigned, CallResult.ofApply]
    exact .reverted b (by simp [drawnBlocks, hs])
  | speculativeScheduled n b =>
    simp only [revertSchedule, hs, lifoPopUnassigned, CallResult.ofApply]
    exact .reverted b (by simp [drawnBlocks, hs])

theorem padTailBlock_effect {q q' : SchedulableSequence H} {pad : Token} {σ σ' : BlockStore H}
    {r : Except ApplyError ℕ} (h : q.padTailBlock pad σ = .ok (r, q', σ')) :
    Effect q (.padTailBlock pad) (.ofApply r) q' := by
  unfold padTailBlock at h
  split_ifs at h with hs hk
  · simp only [Except.ok.injEq, Prod.mk.injEq] at h
    rw [← h.1, ← h.2.1]
    exact .refused _ _ (by simp [CallResult.ofApply])
  · simp only [Except.ok.injEq, Prod.mk.injEq] at h
    rw [← h.1, ← h.2.1]
    exact .unpadded pad (by simpa using hs)
  · split at h
    · cases h
    · rename_i q₁ σ₁ hreg
      simp only [Except.ok.injEq, Prod.mk.injEq] at h
      rw [← h.1, ← h.2.1]
      obtain ⟨xs, hx, rfl⟩ := completeAndRegisterPending_ok hreg
      exact .padded pad xs (by simpa using hs) hk hx

theorem adoptExternalPrefillAnchor_effect (q : SchedulableSequence H) :
    Effect q .adoptExternalPrefillAnchor (.ofApply q.adoptExternalPrefillAnchor.1) q.adoptExternalPrefillAnchor.2 := by
  unfold adoptExternalPrefillAnchor
  split_ifs with hs hv
  · exact .refused _ _ (by simp [CallResult.ofApply])
  · obtain ⟨hk, hp, ht, hg⟩ := hv
    exact .adopted (by simpa using hs) hk hp ht (by simpa [remainingTokens] using hg)
  · exact .refused _ _ (by simp [CallResult.ofApply])

theorem release_effect (q : SchedulableSequence H) (σ : BlockStore H) :
    Effect q .release (.ofApply (q.release σ).1) (q.release σ).2.1 := by
  unfold release
  split_ifs with hs
  · exact .refused _ _ (by simp [CallResult.ofApply])
  · exact .released (by simpa using hs)

theorem map_ok {α : Type} {x : Except String (α × SchedulableSequence H × BlockStore H)} {f : α → CallResult}
    {r : CallResult} {q' : SchedulableSequence H} {σ' : BlockStore H}
    (h : (x.map fun y => (f y.1, y.2)) = .ok (r, q', σ')) : ∃ e, x = .ok (e, q', σ') ∧ r = f e := by
  cases x with
  | error e => cases h
  | ok y =>
    obtain ⟨e, q₁, σ₁⟩ := y
    simp only [Except.map, Except.ok.injEq, Prod.mk.injEq] at h
    obtain ⟨rfl, rfl, rfl⟩ := h
    exact ⟨e, rfl, rfl⟩

/-- **Effects.** Whatever the store did, a call that does not panic has one of the listed effects. -/
theorem call_effect {q q' : SchedulableSequence H} {c : Call} {σ σ' : BlockStore H} {r : CallResult}
    (h : q.call c σ = .ok (r, q', σ')) : Effect q c r q' := by
  cases c with
  | matchAndAddPrefix =>
    obtain ⟨_, hx, rfl⟩ := map_ok h
    exact matchAndAddPrefix_effect hx
  | schedulePrefill n =>
    obtain ⟨_, hx, rfl⟩ := map_ok h
    exact schedulePrefill_effect hx
  | applyPrefill t =>
    obtain ⟨_, hx, rfl⟩ := map_ok h
    exact applyPrefill_effect hx
  | scheduleDecode =>
    obtain ⟨_, hx, rfl⟩ := map_ok h
    exact scheduleDecode_effect hx
  | applyDecode t =>
    obtain ⟨_, hx, rfl⟩ := map_ok h
    exact applyDecode_effect hx
  | scheduleSpeculative n =>
    obtain ⟨_, hx, rfl⟩ := map_ok h
    exact scheduleSpeculative_effect hx
  | applySpeculative ts =>
    obtain ⟨_, hx, rfl⟩ := map_ok h
    exact applySpeculative_effect hx
  | revertSchedule =>
    simp only [call, Except.ok.injEq, Prod.mk.injEq] at h
    have hq : (q.revertSchedule σ).2.1 = q' := by rw [h.2]
    rw [← h.1, ← hq]
    exact revertSchedule_effect q σ
  | padTailBlock pad =>
    obtain ⟨_, hx, rfl⟩ := map_ok h
    exact padTailBlock_effect hx
  | adoptExternalPrefillAnchor =>
    simp only [call, Except.ok.injEq, Prod.mk.injEq] at h
    rw [← h.1, ← h.2.1]
    exact adoptExternalPrefillAnchor_effect q
  | release =>
    simp only [call, Except.ok.injEq, Prod.mk.injEq] at h
    have hq : (q.release σ).2.1 = q' := by rw [h.2]
    rw [← h.1, ← hq]
    exact release_effect q σ

theorem Effect.blockSize {q q' : SchedulableSequence H} {c : Call} {r : CallResult} (he : Effect q c r q') :
    q'.blockSize = q.blockSize := by
  cases he <;> rfl

end SchedulableSequence

end Pegainfer.Kvbm
