/-
What every call keeps about a sequence.

- `Effect.base`: the registered blocks are the leading complete blocks of the token sequence, under their own hashes,
  and no block stays staged between calls.
- `Effect.positions`: the two positions, the token counts and the blocks held stay in step. In particular a request
  never holds more blocks than `divCeil cap blockSize`, where `cap` is the prompt length plus the output budget. Prefix
  matching is only for a fresh sequence.
- `Effect.unpadded_tokens`: without padding, the tokens are the input and the generated ones.
- `Effect.provisioned`: a scheduled step holds every block it may write.
-/
import Mathlib.Tactic
import Pegainfer.Kvbm.Calls

set_option linter.unusedSectionVars false

namespace Pegainfer.Kvbm.SchedulableSequence

variable {H : Type} [DecidableEq H] [BlockHash H]

/-! ## Hashes and registration -/

@[simp] theorem length_allSequenceHashes (q : SchedulableSequence H) :
    q.allSequenceHashes.length = q.completeSequenceBlocks := by
  simp [allSequenceHashes]

/-- the tokens behind a complete block never change, so its hash does not either -/
theorem allSequenceHashes_extend (q : SchedulableSequence H) (ts : List Token) (hb : 0 < q.blockSize) :
    { q with tokens := q.tokens ++ ts }.allSequenceHashes.take q.completeSequenceBlocks = q.allSequenceHashes := by
  have hle : q.completeSequenceBlocks ≤ { q with tokens := q.tokens ++ ts }.completeSequenceBlocks := by
    simp only [completeSequenceBlocks, totalTokens, List.length_append]
    exact Nat.div_le_div_right (Nat.le_add_right _ _)
  unfold allSequenceHashes
  rw [← List.map_take, List.take_range, min_eq_left hle]
  refine List.map_congr_left ?_
  intro i hi
  have hi : i < q.totalTokens / q.blockSize := by simpa [completeSequenceBlocks] using hi
  have hend : (i + 1) * q.blockSize ≤ q.tokens.length := (Nat.le_div_iff_mul_le hb).1 hi
  simp only [sequenceHash]
  rw [List.take_append_of_le_length hend]

theorem length_pendingPairs (q : SchedulableSequence H) :
    q.pendingPairs.length =
      min q.unassigned.length (q.completeSequenceBlocks - (q.assigned.length + q.staged.length)) := by
  simp [pendingPairs]

theorem Registers.length_eq {q : SchedulableSequence H} {xs : List (ImmutableBlock H)} (h : q.Registers xs) :
    xs.length = q.staged.length + q.pendingPairs.length := by
  have := congrArg List.length h
  simpa using this

theorem map_snd_zip_eq_take {α β : Type} (l : List α) (m : List β) : (l.zip m).map Prod.snd = m.take (l.zip m).length := by
  induction l generalizing m with
  | nil => simp
  | cons a l ih =>
    cases m with
    | nil => simp
    | cons b m => simpa using ih m

theorem Registers.map_seqHash {q : SchedulableSequence H} {xs : List (ImmutableBlock H)} (h : q.Registers xs)
    (hs : q.staged = []) :
    xs.map ImmutableBlock.seqHash = (q.allSequenceHashes.drop q.assigned.length).take xs.length := by
  have hlen := h.length_eq
  have hmap : xs.map ImmutableBlock.seqHash = q.pendingPairs.map Prod.snd := by
    have := congrArg (List.map Prod.snd) h
    simpa [hs, Function.comp_def] using this
  rw [hs, List.length_nil, Nat.zero_add] at hlen
  rw [hmap, hlen, pendingPairs, map_snd_zip_eq_take, hs, List.length_nil, Nat.add_zero]

/-! ## The base invariant -/

/-- the registered blocks are the leading complete blocks, nothing stays staged -/
structure Base (q : SchedulableSequence H) : Prop where
  size_pos : 0 < q.blockSize
  staged_nil : q.staged = []
  hashes : q.assigned.map ImmutableBlock.seqHash = q.allSequenceHashes.take q.assigned.length

theorem Base.assigned_le {q : SchedulableSequence H} (h : q.Base) : q.assigned.length ≤ q.completeSequenceBlocks := by
  have := congrArg List.length h.hashes
  simp only [List.length_map, List.length_take, length_allSequenceHashes] at this
  omega

theorem base_new (tokens : List Token) (maxOutputTokens : ℕ) {blockSize : ℕ} (saltHash : SaltHash)
    (hb : 0 < blockSize) : (new tokens maxOutputTokens blockSize saltHash : SchedulableSequence H).Base :=
  ⟨hb, rfl, by simp [new]⟩

theorem Base.extend {q : SchedulableSequence H} (h : q.Base) (ts : List Token) :
    Base { q with tokens := q.tokens ++ ts } := by
  refine ⟨h.size_pos, h.staged_nil, ?_⟩
  have hle := h.assigned_le
  rw [h.hashes, ← allSequenceHashes_extend q ts h.size_pos, List.take_take, min_eq_left hle]

theorem Base.registered {q : SchedulableSequence H} (h : q.Base) {xs : List (ImmutableBlock H)}
    (hx : q.Registers xs) : (q.withRegistered xs).Base := by
  refine ⟨h.size_pos, rfl, ?_⟩
  have hhash : (q.withRegistered xs).allSequenceHashes = q.allSequenceHashes := rfl
  simp only [withRegistered] at hhash ⊢
  rw [hhash, List.map_append, h.hashes, hx.map_seqHash h.staged_nil, List.length_append, List.take_add]

/-- the hashes depend on the tokens, the block size and the salt -/
theorem allSequenceHashes_congr {q q' : SchedulableSequence H} (hb : q'.blockSize = q.blockSize)
    (ht : q'.tokens = q.tokens) (hsalt : q'.saltHash = q.saltHash) : q'.allSequenceHashes = q.allSequenceHashes := by
  have hseq : q'.sequenceHash = q.sequenceHash := by
    funext i
    simp only [sequenceHash, hb, ht, hsalt]
  simp only [allSequenceHashes, completeSequenceBlocks, totalTokens, hb, ht, hseq]

/-- a sequence that agrees on the tokens and the registered blocks -/
theorem Base.congr {q q' : SchedulableSequence H} (h : q.Base) (hb : q'.blockSize = q.blockSize)
    (ht : q'.tokens = q.tokens) (hsalt : q'.saltHash = q.saltHash) (ha : q'.assigned = q.assigned)
    (hs : q'.staged = q.staged) : q'.Base := by
  have hall := allSequenceHashes_congr hb ht hsalt
  exact ⟨by rw [hb]; exact h.size_pos, by rw [hs]; exact h.staged_nil, by rw [hall, ha]; exact h.hashes⟩

/-- **Registered prefix.** Every call keeps the registered blocks the leading complete blocks of the sequence. -/
theorem Effect.base {q q' : SchedulableSequence H} {c : Call} {r : CallResult} (he : Effect q c r q') (h : q.Base) :
    q'.Base := by
  cases he with
  | refused => exact h
  | unmatched => exact h
  | matched xs hs he hne hmax hle hx => exact ⟨h.size_pos, h.staged_nil, hx⟩
  | prefillScheduled n ids => exact h.congr rfl rfl rfl rfl rfl
  | prefillApplied n b t xs hs ht hf hg hx =>
    exact ((h.registered hx).extend t.toList).congr rfl rfl rfl rfl rfl
  | decodeScheduled ids => exact h.congr rfl rfl rfl rfl rfl
  | decodeApplied b t xs hs hg hx => exact ((h.registered hx).extend [t]).congr rfl rfl rfl rfl rfl
  | speculativeScheduled n ids => exact h.congr rfl rfl rfl rfl rfl
  | speculativeApplied n b ts xs hs hn hg hx =>
    have happ : (q.appended ts).Base := (h.extend ts).congr rfl rfl rfl rfl rfl
    exact (happ.registered hx).congr rfl rfl rfl rfl rfl
  | reverted n => exact h.congr rfl rfl rfl rfl rfl
  | unpadded => exact h
  | padded pad xs hs hk hx => exact (h.extend _).registered hx
  | adopted => exact h.congr rfl rfl rfl rfl rfl
  | released => exact ⟨h.size_pos, rfl, by simp [cleared]⟩

/-! ## Lengths after an effect -/

theorem length_withRegistered {q : SchedulableSequence H} {xs : List (ImmutableBlock H)} (hs : q.staged = [])
    (hx : q.Registers xs) :
    (q.withRegistered xs).assigned.length =
        q.assigned.length + min q.unassigned.length (q.completeSequenceBlocks - q.assigned.length) ∧
      (q.withRegistered xs).unassigned.length =
        q.unassigned.length - min q.unassigned.length (q.completeSequenceBlocks - q.assigned.length) := by
  have hlen := hx.length_eq
  have hpend := q.length_pendingPairs
  rw [hs] at hlen hpend
  simp only [List.length_nil, Nat.add_zero, Nat.zero_add] at hlen hpend
  simp only [withRegistered, List.length_append, List.length_drop]
  omega

/-- registering moves blocks from the unassigned to the assigned ones -/
theorem resident_withRegistered {q : SchedulableSequence H} {xs : List (ImmutableBlock H)} (hs : q.staged = [])
    (hx : q.Registers xs) :
    (q.withRegistered xs).assigned.length + (q.withRegistered xs).unassigned.length =
      q.assigned.length + q.unassigned.length := by
  obtain ⟨ha, hu⟩ := length_withRegistered hs hx
  omega

/-! ## The positions -/

/-- blocks the scheduled step drew -/
def drawnNow (q : SchedulableSequence H) : ℕ := q.drawnBlocks.getD 0

/-- positions, token counts and blocks held, for a request of `cap` tokens in all -/
structure Positions (cap : ℕ) (q : SchedulableSequence H) : Prop where
  base : q.Base
  prefill_le : q.prefillPosition ≤ q.numInputTokens
  tokens_ge : q.numInputTokens + q.generatedTokens ≤ q.totalTokens
  generated_le : q.generatedTokens ≤ q.maxOutputTokens
  capacity : q.numInputTokens + q.maxOutputTokens ≤ cap
  prefilling : q.prefillPosition < q.numInputTokens → q.kvPosition = q.prefillPosition ∧ q.generatedTokens = 0 ∧
    q.assigned.length + q.unassigned.length ≤ divCeil q.prefillPosition q.blockSize + q.drawnNow
  generating : q.prefillPosition = q.numInputTokens →
    (1 ≤ q.generatedTokens ∧ q.kvPosition + 1 = q.numInputTokens + q.generatedTokens) ∨
    (q.generatedTokens = 0 ∧ q.kvPosition = q.numInputTokens ∧ (q.maxOutputTokens = 0 ∨ q.totalTokens = 0))
  resident_le : q.assigned.length + q.unassigned.length ≤ divCeil cap q.blockSize
  drawn_le : q.drawnNow ≤ q.unassigned.length
  inPrefill : ∀ n b, q.state = .prefillScheduled n b → q.prefillPosition < q.numInputTokens ∧
    q.prefillPosition + n ≤ q.numInputTokens ∧
    q.assigned.length + q.unassigned.length ≤ divCeil (q.prefillPosition + n) q.blockSize
  inDecode : ∀ b, q.state = .decodeScheduled b → q.Generates
  inSpeculative : ∀ n b, q.state = .speculativeScheduled n b → q.Generates ∧ n ≤ q.remainingTokens

theorem positions_new (tokens : List Token) (maxOutputTokens : ℕ) {blockSize : ℕ} (saltHash : SaltHash)
    (hb : 0 < blockSize) :
    Positions (tokens.length + maxOutputTokens)
      (new tokens maxOutputTokens blockSize saltHash : SchedulableSequence H) where
  base := base_new tokens maxOutputTokens saltHash hb
  prefill_le := Nat.zero_le _
  tokens_ge := le_rfl
  generated_le := Nat.zero_le _
  capacity := le_rfl
  prefilling _ := ⟨rfl, rfl, Nat.zero_le _⟩
  generating h := Or.inr ⟨rfl, h, Or.inr h.symm⟩
  resident_le := Nat.zero_le _
  drawn_le := Nat.zero_le _
  inPrefill _ _ h := by cases h
  inDecode _ h := by cases h
  inSpeculative _ _ h := by cases h

/-- once generating, the tokens are the input and the generated ones, one of them without KV -/
theorem Positions.generates {cap : ℕ} {q : SchedulableSequence H} (h : Positions cap q) (hg : q.Generates) :
    q.prefillPosition = q.numInputTokens ∧ 1 ≤ q.generatedTokens ∧
      q.totalTokens = q.numInputTokens + q.generatedTokens := by
  have hp := le_antisymm h.prefill_le hg.prefilled
  have hd := hg.dangling
  have hi := hg.incomplete
  rcases h.generating hp with ⟨h1, h2⟩ | ⟨h1, h2, h3 | h3⟩ <;> omega

theorem Positions.matched {cap : ℕ} {q : SchedulableSequence H} (h : Positions cap q) (hpos : q.prefillPosition = 0)
    {xs : List (ImmutableBlock H)} (hs : q.state = .idle) (he : q.residentBlocks = 0) (hne : xs ≠ [])
    (hmax : xs.length ≤ q.maxMatchedBlocks) (hbase : (q.withMatched xs).Base) : Positions cap (q.withMatched xs) := by
  have hb := h.base.size_pos
  have hlen : 0 < xs.length := List.length_pos_of_ne_nil hne
  have hmul : xs.length * q.blockSize ≤ q.numInputTokens - 1 := (Nat.le_div_iff_mul_le hb).1 hmax
  have hpp : 0 < xs.length * q.blockSize := Nat.mul_pos hlen hb
  have hlt : q.prefillPosition < q.numInputTokens := by omega
  obtain ⟨hkv, hgen, -⟩ := h.prefilling hlt
  have hu : q.unassigned.length = 0 := by unfold residentBlocks at he; omega
  have hcap := h.capacity
  have hceil : xs.length ≤ divCeil cap q.blockSize := by
    rw [← divCeil_mul xs.length hb]
    exact divCeil_mono hb (by omega)
  refine ⟨hbase, ?_, h.tokens_ge, h.generated_le, h.capacity, ?_, ?_, ?_, ?_, ?_, ?_, ?_⟩
  · simp only [withMatched]; omega
  · intro _
    refine ⟨rfl, hgen, ?_⟩
    simp only [withMatched, hu, hpos, Nat.zero_add, Nat.add_zero, divCeil_mul xs.length hb]
    exact Nat.le_add_right _ _
  · intro heq
    simp only [withMatched] at heq
    omega
  · simp only [withMatched, hu, Nat.add_zero]; exact hceil
  · simp [drawnNow, drawnBlocks, withMatched, hs]
  · intro n b hst; simp [withMatched, hs] at hst
  · intro b hst; simp [withMatched, hs] at hst
  · intro n b hst; simp [withMatched, hs] at hst

theorem Positions.prefillScheduled {cap : ℕ} {q : SchedulableSequence H} (h : Positions cap q) {n : ℕ}
    {ids : List BlockId} (hs : q.state = .idle) (hp : q.prefillPosition < q.numInputTokens)
    (hn : q.prefillPosition + n ≤ q.numInputTokens)
    (hids : ids.length = divCeil (q.prefillPosition + n) q.blockSize - q.residentBlocks)
    (hbase : (q.drawn ids (.prefillScheduled n ids.length)).Base) :
    Positions cap (q.drawn ids (.prefillScheduled n ids.length)) := by
  have hb := h.base.size_pos
  have hstaged : q.staged.length = 0 := by rw [h.base.staged_nil]; rfl
  obtain ⟨hkv, hgen, hheld⟩ := h.prefilling hp
  have hzero : q.drawnNow = 0 := by simp [drawnNow, drawnBlocks, hs]
  have hmono : divCeil q.prefillPosition q.blockSize ≤ divCeil (q.prefillPosition + n) q.blockSize :=
    divCeil_mono hb (Nat.le_add_right _ _)
  have hcap := h.capacity
  have hlife : divCeil (q.prefillPosition + n) q.blockSize ≤ divCeil cap q.blockSize := divCeil_mono hb (by omega)
  have hres := h.resident_le
  unfold residentBlocks at hids
  have hdn : (q.drawn ids (.prefillScheduled n ids.length)).drawnNow = ids.length := rfl
  refine ⟨hbase, h.prefill_le, h.tokens_ge, h.generated_le, h.capacity, ?_, ?_, ?_, ?_, ?_, ?_, ?_⟩
  · intro _
    refine ⟨hkv, hgen, ?_⟩
    rw [hdn]
    simp only [drawn, List.length_append]
    omega
  · intro heq
    simp only [drawn] at heq
    omega
  · simp only [drawn, List.length_append]; omega
  · rw [hdn]; simp [drawn]
  · intro m b hst
    simp only [drawn, SequenceState.prefillScheduled.injEq] at hst
    obtain ⟨rfl, rfl⟩ := hst
    simp only [drawn, List.length_append]
    exact ⟨hp, hn, by omega⟩
  · intro b hst; simp [drawn] at hst
  · intro m b hst; simp [drawn] at hst

/-- a decode or speculative step enters its scheduled state holding no more than the request's lifetime -/
theorem Positions.generationScheduled {cap : ℕ} {q : SchedulableSequence H} (h : Positions cap q)
    (hg : q.Generates) {ids : List BlockId} {next : SequenceState}
    (hdn : (q.drawn ids next).drawnNow = ids.length)
    (hle : q.assigned.length + (q.unassigned.length + ids.length) ≤ divCeil cap q.blockSize)
    (hp : ∀ n b, next ≠ .prefillScheduled n b)
    (hsp : ∀ n b, next = .speculativeScheduled n b → n ≤ q.remainingTokens) :
    Positions cap (q.drawn ids next) := by
  obtain ⟨heq, hgen, htot⟩ := h.generates hg
  refine ⟨h.base.congr rfl rfl rfl rfl rfl, h.prefill_le, h.tokens_ge, h.generated_le, h.capacity, ?_, h.generating,
    ?_, ?_, ?_, ?_, ?_⟩
  · intro hlt
    simp only [drawn] at hlt
    omega
  · simp only [drawn, List.length_append]; exact hle
  · rw [hdn]; simp [drawn]
  · intro n b hst; exact absurd hst (hp n b)
  · intro b _; exact ⟨hg.prefilled, hg.incomplete, hg.dangling⟩
  · intro n b hst; exact ⟨⟨hg.prefilled, hg.incomplete, hg.dangling⟩, hsp n b hst⟩

theorem Positions.prefillApplied {cap : ℕ} {q : SchedulableSequence H} (h : Positions cap q) {n b : ℕ}
    {t : Option Token} {xs : List (ImmutableBlock H)} (hs : q.state = .prefillScheduled n b)
    (ht : t ≠ none → q.numInputTokens ≤ q.prefillPosition + n)
    (hf : q.numInputTokens ≤ q.prefillPosition + n → t = none → q.maxOutputTokens = 0)
    (hg : t ≠ none → q.generatedTokens < q.maxOutputTokens) (hx : q.Registers xs) {q' : SchedulableSequence H}
    (hq' : q' = { (q.withRegistered xs).appended t.toList with
      prefillPosition := q.prefillPosition + n, kvPosition := q.prefillPosition + n, state := .idle })
    (hbase : q'.Base) : Positions cap q' := by
  obtain ⟨hlt, hle, hheld⟩ := h.inPrefill n b hs
  obtain ⟨hkv, hgen, -⟩ := h.prefilling hlt
  have hres := resident_withRegistered h.base.staged_nil hx
  have hlife := h.resident_le
  have htok := h.tokens_ge
  have hcap := h.capacity
  have hlen : t.toList.length = 0 ∧ t = none ∨ t.toList.length = 1 ∧ t ≠ none := by
    cases t with
    | none => exact Or.inl ⟨rfl, rfl⟩
    | some x => exact Or.inr ⟨rfl, by simp⟩
  have hgle := h.generated_le
  have htot : q'.totalTokens = q.totalTokens + t.toList.length := by
    rw [hq']
    simp [totalTokens, appended, withRegistered]
  have hra : q'.assigned.length + q'.unassigned.length = q.assigned.length + q.unassigned.length := by
    rw [hq']; exact hres
  have hpp : q'.prefillPosition = q.prefillPosition + n := by rw [hq']
  have hin : q'.numInputTokens = q.numInputTokens := by rw [hq']; rfl
  have hg' : q'.generatedTokens = q.generatedTokens + t.toList.length := by rw [hq']; rfl
  have hmax : q'.maxOutputTokens = q.maxOutputTokens := by rw [hq']; rfl
  have hkv' : q'.kvPosition = q.prefillPosition + n := by rw [hq']
  have hbs : q'.blockSize = q.blockSize := by rw [hq']; rfl
  have hst : q'.state = .idle := by rw [hq']
  have hdn : q'.drawnNow = 0 := by simp [drawnNow, drawnBlocks, hst]
  refine ⟨hbase, by omega, by omega, ?_, by omega, ?_, ?_, by rw [hra, hbs]; exact hlife, by omega, ?_, ?_, ?_⟩
  · rw [hg', hmax]
    rcases hlen with ⟨h0, -⟩ | ⟨h1, hne⟩
    · omega
    · have := hg hne
      omega
  · intro hlt'
    rcases hlen with ⟨h0, -⟩ | ⟨h1, hne⟩
    · refine ⟨by omega, by omega, ?_⟩
      rw [hra, hpp, hbs, hdn]
      exact hheld
    · have := ht hne
      omega
  · intro heq
    rcases hlen with ⟨h0, hnone⟩ | ⟨h1, hne⟩
    · exact Or.inr ⟨by omega, by omega, Or.inl (by rw [hmax]; exact hf (by omega) hnone)⟩
    · exact Or.inl ⟨by omega, by omega⟩
  · intro m c hc; rw [hst] at hc; cases hc
  · intro c hc; rw [hst] at hc; cases hc
  · intro m c hc; rw [hst] at hc; cases hc

/-- a decode or speculative step applied: `k` more tokens, all but the last with KV -/
theorem Positions.generationApplied {cap : ℕ} {q q' : SchedulableSequence H} (h : Positions cap q)
    (hg : q.Generates) {k : ℕ} (hk : k ≤ q.remainingTokens) (hbase : q'.Base)
    (hpp : q'.prefillPosition = q.prefillPosition) (hin : q'.numInputTokens = q.numInputTokens)
    (hmax : q'.maxOutputTokens = q.maxOutputTokens) (hbs : q'.blockSize = q.blockSize)
    (htot : q'.totalTokens = q.totalTokens + k) (hgen : q'.generatedTokens = q.generatedTokens + k)
    (hkv : q'.kvPosition = q.kvPosition + k) (hst : q'.state = .idle)
    (hres : q'.assigned.length + q'.unassigned.length ≤ q.assigned.length + q.unassigned.length) :
    Positions cap q' := by
  obtain ⟨heq, hone, htok⟩ := h.generates hg
  have hd := hg.dangling
  have hdn : q'.drawnNow = 0 := by simp [drawnNow, drawnBlocks, hst]
  have hlife := h.resident_le
  have hcap := h.capacity
  have hgle := h.generated_le
  unfold remainingTokens at hk
  refine ⟨hbase, by omega, by omega, by omega, by omega, by omega, ?_, by rw [hbs]; omega, by omega, ?_, ?_, ?_⟩
  · intro _; exact Or.inl ⟨by omega, by omega⟩
  · intro m c hc; rw [hst] at hc; cases hc
  · intro c hc; rw [hst] at hc; cases hc
  · intro m c hc; rw [hst] at hc; cases hc

theorem Positions.reverted {cap : ℕ} {q : SchedulableSequence H} (h : Positions cap q) {n : ℕ}
    (hs : q.drawnBlocks = some n) :
    Positions cap { q.keepUnassigned (q.unassigned.length - n) with state := .idle } := by
  have hdn : q.drawnNow = n := by simp [drawnNow, hs]
  have hle := h.drawn_le
  have hlife := h.resident_le
  have hlen : (q.unassigned.take (q.unassigned.length - n)).length = q.unassigned.length - n := by simp
  refine ⟨h.base.congr rfl rfl rfl rfl rfl, h.prefill_le, h.tokens_ge, h.generated_le, h.capacity, ?_, h.generating,
    ?_, Nat.zero_le _, ?_, ?_, ?_⟩
  · intro hlt
    obtain ⟨hkv, hgen, hheld⟩ := h.prefilling hlt
    refine ⟨hkv, hgen, ?_⟩
    simp only [keepUnassigned, hlen, drawnNow, drawnBlocks, Option.getD_none]
    omega
  · simp only [keepUnassigned, hlen]; omega
  · intro m c hc; cases hc
  · intro c hc; cases hc
  · intro m c hc; cases hc

theorem Positions.padded {cap : ℕ} {q : SchedulableSequence H} (h : Positions cap q) {pad : Token}
    {xs : List (ImmutableBlock H)} (hs : q.state = .idle) (hk : q.kvPosition % q.blockSize ≠ 0)
    (hx : { q with tokens := q.tokens ++ List.replicate q.padCount pad }.Registers xs)
    (hbase : ({ q with tokens := q.tokens ++ List.replicate q.padCount pad }.withRegistered xs).Base) :
    Positions cap ({ q with tokens := q.tokens ++ List.replicate q.padCount pad }.withRegistered xs) := by
  have hres := resident_withRegistered (q := { q with tokens := q.tokens ++ List.replicate q.padCount pad })
    h.base.staged_nil hx
  have hlife := h.resident_le
  have htok := h.tokens_ge
  have hdn : ({ q with tokens := q.tokens ++ List.replicate q.padCount pad }.withRegistered xs).drawnNow = 0 := by
    simp [drawnNow, drawnBlocks, withRegistered, hs]
  have hq0 : q.drawnNow = 0 := by simp [drawnNow, drawnBlocks, hs]
  refine ⟨hbase, h.prefill_le, ?_, h.generated_le, h.capacity, ?_, ?_, ?_, by omega, ?_, ?_, ?_⟩
  · simp only [totalTokens] at htok
    simp only [withRegistered, totalTokens, List.length_append]
    omega
  · intro hlt
    obtain ⟨hkv, hgen, hheld⟩ := h.prefilling hlt
    refine ⟨hkv, hgen, ?_⟩
    rw [hres, hdn, ← hq0]
    exact hheld
  · intro heq
    rcases h.generating heq with h1 | ⟨h1, h2, h3 | h3⟩
    · exact Or.inl h1
    · exact Or.inr ⟨h1, h2, Or.inl h3⟩
    · -- an empty sequence has its KV position on a boundary
      exfalso
      apply hk
      have : q.kvPosition = 0 := by omega
      rw [this, Nat.zero_mod]
  · rw [hres]; exact hlife
  · intro m c hc; simp [withRegistered, hs] at hc
  · intro c hc; simp [withRegistered, hs] at hc
  · intro m c hc; simp [withRegistered, hs] at hc

theorem Positions.adopted {cap : ℕ} {q : SchedulableSequence H} (h : Positions cap q) (hs : q.state = .idle)
    (hk : q.prefillPosition = q.kvPosition) (hp : q.prefillPosition + 1 = q.numInputTokens)
    (hg : q.generatedTokens < q.maxOutputTokens) :
    Positions cap { q with numInputTokens := q.numInputTokens - 1, generatedTokens := q.generatedTokens + 1 } := by
  obtain ⟨hkv, hgen, -⟩ := h.prefilling (by omega)
  have htok := h.tokens_ge
  have hcap := h.capacity
  refine ⟨h.base.congr rfl rfl rfl rfl rfl, ?_, ?_, ?_, ?_, ?_, ?_, h.resident_le, h.drawn_le, ?_, ?_, ?_⟩
  · simp only; omega
  · simp only [totalTokens] at htok ⊢; omega
  · simp only; omega
  · simp only; omega
  · intro hlt; simp only at hlt; omega
  · intro _; left; simp only; omega
  · intro m c hc; simp [hs] at hc
  · intro c hc; simp [hs] at hc
  · intro m c hc; simp [hs] at hc

theorem Positions.released {cap : ℕ} {q : SchedulableSequence H} (h : Positions cap q) (hs : q.state = .idle)
    (hbase : q.cleared.Base) : Positions cap q.cleared := by
  refine ⟨hbase, h.prefill_le, h.tokens_ge, h.generated_le, h.capacity, ?_, h.generating, Nat.zero_le _, ?_, ?_, ?_,
    ?_⟩
  · intro hlt
    obtain ⟨hkv, hgen, -⟩ := h.prefilling hlt
    exact ⟨hkv, hgen, Nat.zero_le _⟩
  · simp [drawnNow, drawnBlocks, cleared, hs]
  · intro m c hc; simp [cleared, hs] at hc
  · intro c hc; simp [cleared, hs] at hc
  · intro m c hc; simp [cleared, hs] at hc

/-- **Positions.** Every call keeps positions, token counts and blocks in step; a prefix match that takes blocks is for
a fresh sequence. -/
theorem Effect.positions {cap : ℕ} {q q' : SchedulableSequence H} {c : Call} {r : CallResult}
    (he : Effect q c r q')
    (hm : c = .matchAndAddPrefix → q.residentBlocks = 0 → 0 < q.completeSequenceBlocks → q.prefillPosition = 0)
    (h : Positions cap q) : Positions cap q' := by
  have hbase := he.base h.base
  have hb := h.base.size_pos
  have hstaged : q.staged.length = 0 := by rw [h.base.staged_nil]; rfl
  have hcap := h.capacity
  cases he with
  | refused => exact h
  | unmatched => exact h
  | matched xs hs he hne hmax hle hx =>
    have hfresh := hm rfl he (lt_of_lt_of_le (List.length_pos_of_ne_nil hne) hle)
    exact h.matched hfresh hs he hne hmax hbase
  | prefillScheduled n ids hs hp hn hids => exact h.prefillScheduled hs hp hn hids hbase
  | prefillApplied n b t xs hs ht hf hg hx => exact h.prefillApplied hs ht hf hg hx rfl hbase
  | decodeScheduled ids hs hg hids =>
    obtain ⟨heq, hgen, htot⟩ := h.generates hg
    have hone : q.completeSequenceBlocks + 1 ≤ divCeil cap q.blockSize := by
      refine le_trans (div_succ_le_divCeil hb) (divCeil_mono hb ?_)
      have := hg.incomplete
      omega
    have ha := h.base.assigned_le
    have hlife := h.resident_le
    refine h.generationScheduled hg rfl ?_ (by simp) (by simp)
    omega
  | decodeApplied b t xs hs hg hx =>
    have hgen := h.inDecode b hs
    refine h.generationApplied (k := 1) hgen ?_ hbase rfl rfl rfl rfl ?_ rfl rfl rfl ?_
    · unfold remainingTokens; omega
    · simp [totalTokens, appended, withRegistered]
    · exact le_of_eq (resident_withRegistered h.base.staged_nil hx)
  | speculativeScheduled n ids hs hg hids =>
    obtain ⟨heq, hgen, htot⟩ := h.generates hg
    have hspan : divCeil (q.totalTokens + min n q.remainingTokens) q.blockSize ≤ divCeil cap q.blockSize := by
      refine divCeil_mono hb ?_
      unfold remainingTokens
      have := h.generated_le
      omega
    have hlife := h.resident_le
    unfold residentBlocks at hids
    refine h.generationScheduled hg rfl ?_ (by simp) ?_
    · omega
    · intro m b hst
      simp only [SequenceState.speculativeScheduled.injEq] at hst
      rw [← hst.1]
      exact min_le_right _ _
  | speculativeApplied n b ts xs hs hn hg hx =>
    obtain ⟨hgen, hrem⟩ := h.inSpeculative n b hs
    have hres := resident_withRegistered (q := q.appended ts) h.base.staged_nil hx
    refine h.generationApplied (k := ts.length) hgen (hn.trans hrem) hbase rfl rfl rfl rfl ?_ rfl rfl rfl ?_
    · simp [totalTokens, appended, withRegistered, keepUnassigned]
    · simp only [keepUnassigned, List.length_take]
      simp only [appended] at hres ⊢
      omega
  | reverted n hs => exact h.reverted hs
  | unpadded => exact h
  | padded pad xs hs hk hx => exact h.padded hs hk hx hbase
  | adopted hs hk hp ht hg => exact h.adopted hs hk hp hg
  | released hs => exact h.released hs hbase

/-- without padding, the tokens are the input and the generated ones -/
theorem Effect.unpadded_tokens {q q' : SchedulableSequence H} {c : Call} {r : CallResult} (he : Effect q c r q')
    (hc : ∀ pad, c ≠ .padTailBlock pad) (h : q.totalTokens = q.numInputTokens + q.generatedTokens) :
    q'.totalTokens = q'.numInputTokens + q'.generatedTokens := by
  cases he with
  | padded pad => exact absurd rfl (hc pad)
  | adopted hs hk hp ht hg =>
    simp only [totalTokens] at h ⊢
    omega
  | prefillApplied n b t xs =>
    simp only [totalTokens, appended, withRegistered, List.length_append] at h ⊢
    omega
  | decodeApplied b t xs =>
    simp only [totalTokens, appended, withRegistered, List.length_append] at h ⊢
    omega
  | speculativeApplied n b ts xs =>
    simp only [totalTokens, appended, withRegistered, keepUnassigned, List.length_append] at h ⊢
    omega
  | _ => exact h

/-! ## What a scheduled step holds -/

/-- a scheduled step holds every block it may write -/
structure Provisioned (q : SchedulableSequence H) : Prop where
  prefill : ∀ n b, q.state = .prefillScheduled n b →
    divCeil (q.prefillPosition + n) q.blockSize ≤ q.assigned.length + q.unassigned.length
  decode : ∀ b, q.state = .decodeScheduled b →
    q.completeSequenceBlocks + 1 ≤ q.assigned.length + q.unassigned.length
  speculative : ∀ n b, q.state = .speculativeScheduled n b →
    divCeil (q.totalTokens + n) q.blockSize ≤ q.assigned.length + q.unassigned.length

theorem Provisioned.of_idle {q : SchedulableSequence H} (h : q.state = .idle) : q.Provisioned := by
  refine ⟨?_, ?_, ?_⟩
  · intro n b hs; rw [h] at hs; cases hs
  · intro b hs; rw [h] at hs; cases hs
  · intro n b hs; rw [h] at hs; cases hs

theorem Effect.provisioned {q q' : SchedulableSequence H} {c : Call} {r : CallResult} (he : Effect q c r q')
    (hb : q.Base) (h : q.Provisioned) : q'.Provisioned := by
  have hstaged : q.staged.length = 0 := by rw [hb.staged_nil]; rfl
  have ha := hb.assigned_le
  cases he with
  | refused => exact h
  | unmatched => exact h
  | matched xs hs => exact .of_idle hs
  | prefillScheduled n ids hs hp hn hids =>
    unfold residentBlocks at hids
    refine ⟨?_, ?_, ?_⟩
    · intro m b hst
      simp only [drawn, SequenceState.prefillScheduled.injEq] at hst
      obtain ⟨rfl, -⟩ := hst
      simp only [drawn, List.length_append]
      omega
    · intro b hst; simp [drawn] at hst
    · intro m b hst; simp [drawn] at hst
  | prefillApplied => exact .of_idle rfl
  | decodeScheduled ids hs hq hids =>
    refine ⟨?_, ?_, ?_⟩
    · intro m b hst; simp [drawn] at hst
    · intro b hst
      simp only [drawn, List.length_append, completeSequenceBlocks, totalTokens] at hids ha ⊢
      omega
    · intro m b hst; simp [drawn] at hst
  | decodeApplied => exact .of_idle rfl
  | speculativeScheduled n ids hs hq hids =>
    unfold residentBlocks at hids
    refine ⟨?_, ?_, ?_⟩
    · intro m b hst; simp [drawn] at hst
    · intro b hst; simp [drawn] at hst
    · intro m b hst
      simp only [drawn, SequenceState.speculativeScheduled.injEq] at hst
      obtain ⟨rfl, -⟩ := hst
      simp only [drawn, List.length_append, totalTokens] at hids ⊢
      omega
  | speculativeApplied => exact .of_idle rfl
  | reverted => exact .of_idle rfl
  | unpadded => exact h
  | padded pad xs hs => exact .of_idle hs
  | adopted hs => exact .of_idle hs
  | released hs => exact .of_idle hs

end Pegainfer.Kvbm.SchedulableSequence
