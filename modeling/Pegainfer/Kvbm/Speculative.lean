/-
Speculative application against iterated decode.

From a reached state, one speculative step that accepts `ts` and `ts.length` decode rounds with the same tokens append
the same tokens and move the same positions. They register differently: a decode round registers before it appends, so
it never registers a block that its own token completes, while the speculative step appends first.
- `decodeSteps_spec`, `speculativeStep_spec`: what each path leaves.
- `speculative_eq_decode_iff`: the two paths agree, and the speculative one holds what the next decode needs, exactly
  when the accepted run does not end on a block boundary.
- `speculative_registers_tail`: the run ends on the boundary.
-/
import Mathlib.Tactic
import Pegainfer.Lib.Machine
import Pegainfer.Kvbm.Computed

set_option linter.unusedSectionVars false

namespace Pegainfer.Kvbm.SchedulableSequence

open Pegainfer.Lib

variable {H : Type} [DecidableEq H] [BlockHash H]

/-! ## The two paths -/

/-- the state after a call that is carried out -/
def perform (s : SchedulableSequence H × BlockStore H) (c : Call) : Option (SchedulableSequence H × BlockStore H) :=
  match s.1.call c s.2 with
  | .ok (.done, s') => some s'
  | _ => none

/-- `schedule_speculative(n)`, then `apply_speculative(accepted)` -/
def speculativeStep (s : SchedulableSequence H × BlockStore H) (n : ℕ) (accepted : List Token) :
    Option (SchedulableSequence H × BlockStore H) :=
  (perform s (.scheduleSpeculative n)).bind fun s' => perform s' (.applySpeculative accepted)

/-- a `schedule_decode`/`apply_decode` round for each token -/
def decodeSteps (s : SchedulableSequence H × BlockStore H) : List Token → Option (SchedulableSequence H × BlockStore H)
  | [] => some s
  | t :: ts =>
    (perform s .scheduleDecode).bind fun s₁ => (perform s₁ (.applyDecode t)).bind fun s₂ => decodeSteps s₂ ts

/-- the writable blocks the next `schedule_decode` needs -/
def decodeNeed (q : SchedulableSequence H) : ℕ :=
  if q.isComplete then 0 else q.completeSequenceBlocks - (q.assigned.length + q.staged.length) + 1

theorem perform_effect {s s' : SchedulableSequence H × BlockStore H} {c : Call} (h : perform s c = some s') :
    Effect s.1 c .done s'.1 := by
  unfold perform at h
  split at h
  · rename_i s₁ heq
    obtain rfl : s₁ = s' := Option.some.inj h
    obtain ⟨q', σ'⟩ := s₁
    exact call_effect heq
  · cases h

/-! ## What reached states have -/

/-- a reached state: the registered prefix, and a scheduled step holds its blocks -/
structure Reached (q : SchedulableSequence H) : Prop where
  base : q.Base
  provisioned : q.Provisioned

theorem step_reached {s s' : SchedulableSequence H × BlockStore H} {o : Op H} (h : Reached s.1)
    (hs : step s o = .ok s') : Reached s'.1 := by
  cases o with
  | environment σ =>
    simp only [step, Except.ok.injEq] at hs
    rw [← hs]
    exact h
  | call c =>
    obtain ⟨r, he⟩ := step_call_ok hs
    exact ⟨he.base h.base, he.provisioned h.base h.provisioned⟩

theorem run_reached (tokens : List Token) (maxOutputTokens blockSize : ℕ) (saltHash : SaltHash) (hb : 0 < blockSize)
    (σ : BlockStore H) (ops : List (Op H)) (s : SchedulableSequence H × BlockStore H)
    (hr : run step (new tokens maxOutputTokens blockSize saltHash, σ) ops = .ok s) : Reached s.1 :=
  run_invariant (P := fun _ _ => True)
    (I := fun (_ : List (Op H)) (s : SchedulableSequence H × BlockStore H) => Reached s.1)
    (new tokens maxOutputTokens blockSize saltHash, σ)
    ⟨base_new tokens maxOutputTokens saltHash hb, .of_idle rfl⟩
    (fun _ _ _ _ h _ hs => step_reached h hs) ops s (stepsMeet_true _ _) hr

/-! ## What each path leaves -/

/-- the tokens, counts and positions after `ts` are generated from `q` -/
structure Generated (q : SchedulableSequence H) (ts : List Token) (q' : SchedulableSequence H) : Prop where
  tokens : q'.tokens = q.tokens ++ ts
  kv : q'.kvPosition = q.kvPosition + ts.length
  generated : q'.generatedTokens = q.generatedTokens + ts.length
  size : q'.blockSize = q.blockSize
  salt : q'.saltHash = q.saltHash
  max : q'.maxOutputTokens = q.maxOutputTokens
  base : q'.Base

theorem Generated.total {q q' : SchedulableSequence H} {ts : List Token} (h : Generated q ts q') :
    q'.totalTokens = q.totalTokens + ts.length := by
  simp [totalTokens, h.tokens]

theorem Generated.trans {q q₁ q₂ : SchedulableSequence H} {ts us : List Token} (h₁ : Generated q ts q₁)
    (h₂ : Generated q₁ us q₂) : Generated q (ts ++ us) q₂ where
  tokens := by rw [h₂.tokens, h₁.tokens, List.append_assoc]
  kv := by rw [h₂.kv, h₁.kv, List.length_append, Nat.add_assoc]
  generated := by rw [h₂.generated, h₁.generated, List.length_append, Nat.add_assoc]
  size := by rw [h₂.size, h₁.size]
  salt := by rw [h₂.salt, h₁.salt]
  max := by rw [h₂.max, h₁.max]
  base := h₂.base

/-- one decode round registers what the sequence completed before its token -/
theorem decodeRound_spec {s s₁ s₂ : SchedulableSequence H × BlockStore H} {t : Token} (h : s.1.Base)
    (h₁ : perform s .scheduleDecode = some s₁) (h₂ : perform s₁ (.applyDecode t) = some s₂) :
    Generated s.1 [t] s₂.1 ∧ s₂.1.assigned.length = s.1.totalTokens / s.1.blockSize := by
  obtain ⟨q, σ⟩ := s
  obtain ⟨q₁, σ₁⟩ := s₁
  obtain ⟨q₂, σ₂⟩ := s₂
  have he₁ := perform_effect h₁
  have he₂ := perform_effect h₂
  have hb₁ := he₁.base h
  have hb₂ := he₂.base hb₁
  have hprov := he₁.provisioned h
  simp only at he₁ he₂ h hb₁ hb₂ hprov ⊢
  cases he₁ with
  | refused c r hr => exact absurd rfl hr
  | decodeScheduled ids hs hq hids =>
    cases he₂ with
    | refused c r hr => exact absurd rfl hr
    | decodeApplied b _ xs hs₂ hg hx =>
      have hcov := (hprov (.of_idle hs)).decode ids.length rfl
      have hle := hb₁.assigned_le
      obtain ⟨hlen, -⟩ := length_withRegistered (q := q.drawn ids (.decodeScheduled ids.length)) hb₁.staged_nil hx
      refine ⟨⟨rfl, rfl, rfl, rfl, rfl, rfl, hb₂⟩, ?_⟩
      simp only [appended]
      rw [hlen]
      have htot : (q.drawn ids (.decodeScheduled ids.length)).completeSequenceBlocks =
          q.totalTokens / q.blockSize := rfl
      rw [htot] at hcov hle ⊢
      omega

/-- **Decode path.** After the rounds, all blocks completed before the last token are registered. -/
theorem decodeSteps_spec (ts : List Token) {s s' : SchedulableSequence H × BlockStore H} (h : s.1.Base)
    (hne : ts ≠ []) (hd : decodeSteps s ts = some s') :
    Generated s.1 ts s'.1 ∧ s'.1.assigned.length = (s.1.totalTokens + ts.length - 1) / s.1.blockSize := by
  induction ts generalizing s with
  | nil => exact absurd rfl hne
  | cons t ts ih =>
    simp only [decodeSteps, Option.bind_eq_some_iff] at hd
    obtain ⟨s₁, h₁, s₂, h₂, hd⟩ := hd
    obtain ⟨hgen, hlen⟩ := decodeRound_spec h h₁ h₂
    by_cases hts : ts = []
    · subst hts
      obtain rfl : s₂ = s' := Option.some.inj hd
      exact ⟨hgen, by rw [hlen]; simp⟩
    · obtain ⟨hgen', hlen'⟩ := ih hgen.base hts hd
      refine ⟨hgen.trans hgen', ?_⟩
      rw [hlen', hgen.total, hgen.size, List.length_singleton, List.length_cons]
      congr 1
      omega

/-- **Speculative path.** After the step, all blocks completed with its tokens are registered. -/
theorem speculativeStep_spec {s s' : SchedulableSequence H × BlockStore H} {n : ℕ} {ts : List Token} (h : s.1.Base)
    (hs : speculativeStep s n ts = some s') :
    Generated s.1 ts s'.1 ∧ s'.1.assigned.length = (s.1.totalTokens + ts.length) / s.1.blockSize ∧
      ((s.1.totalTokens + ts.length) % s.1.blockSize ≠ 0 → s'.1.isComplete = false → s'.1.unassigned.length = 1) := by
  simp only [speculativeStep, Option.bind_eq_some_iff] at hs
  obtain ⟨s₁, h₁, h₂⟩ := hs
  obtain ⟨q, σ⟩ := s
  obtain ⟨q₁, σ₁⟩ := s₁
  obtain ⟨q₂, σ₂⟩ := s'
  have he₁ := perform_effect h₁
  have he₂ := perform_effect h₂
  have hb₁ := he₁.base h
  have hb₂ := he₂.base hb₁
  have hprov := he₁.provisioned h
  simp only at he₁ he₂ h hb₁ hb₂ hprov ⊢
  cases he₁ with
  | refused c r hr => exact absurd rfl hr
  | speculativeScheduled _ ids hst hq hids =>
    cases he₂ with
    | refused c r hr => exact absurd rfl hr
    | speculativeApplied m b _ xs hst₂ hn hg hx =>
      set d := q.drawn ids (.speculativeScheduled (min n q.remainingTokens) ids.length) with hd
      have hm : m = min n q.remainingTokens := by
        simp only [hd, drawn, SequenceState.speculativeScheduled.injEq] at hst₂
        exact hst₂.1.symm
      have hcov := (hprov (.of_idle hst)).speculative (min n q.remainingTokens) ids.length rfl
      have hpos : 0 < q.blockSize := h.size_pos
      have htot : d.totalTokens = q.totalTokens := rfl
      have hsize : d.blockSize = q.blockSize := rfl
      have hcomp : (d.appended ts).completeSequenceBlocks = (q.totalTokens + ts.length) / q.blockSize := by
        simp [completeSequenceBlocks, totalTokens, appended, hd, drawn]
      have hle : d.assigned.length ≤ (q.totalTokens + ts.length) / q.blockSize :=
        hb₁.assigned_le.trans (Nat.div_le_div_right (Nat.le_add_right _ _))
      have hceil : divCeil (q.totalTokens + ts.length) q.blockSize ≤
          divCeil (q.totalTokens + min n q.remainingTokens) q.blockSize := divCeil_mono hpos (by omega)
      have hdiv := div_le_divCeil (q.totalTokens + ts.length) hpos
      obtain ⟨hlen, hun⟩ := length_withRegistered (q := d.appended ts) hb₁.staged_nil hx
      rw [htot, hsize] at hcov
      rw [hcomp] at hlen hun
      simp only [appended] at hlen hun
      refine ⟨⟨rfl, rfl, rfl, rfl, rfl, rfl, hb₂⟩, ?_, ?_⟩
      · simp only [keepUnassigned, appended]
        rw [hlen]
        omega
      · intro hmod hinc
        have hlt : (q.totalTokens + ts.length) / q.blockSize < divCeil (q.totalTokens + ts.length) q.blockSize := by
          by_contra hge
          have h1 := (divCeil_le_iff hpos).1 (not_lt.1 hge)
          have h2 := Nat.div_add_mod (q.totalTokens + ts.length) q.blockSize
          rw [Nat.mul_comm] at h2
          omega
        have hinc' : (d.appended ts).isComplete = false := hinc
        simp only [keepUnassigned, List.length_take]
        rw [hinc']
        simp only [appended, Bool.false_eq_true, if_false]
        rw [hun]
        omega

/-! ## The comparison -/

/-- both paths leave the same tokens, so the registered hashes agree exactly when their numbers do -/
theorem Generated.hashes_iff {q q₂ q₃ : SchedulableSequence H} {ts : List Token} (h₂ : Generated q ts q₂)
    (h₃ : Generated q ts q₃) :
    q₂.assigned.map ImmutableBlock.seqHash = q₃.assigned.map ImmutableBlock.seqHash ↔
      q₂.assigned.length = q₃.assigned.length := by
  have htok : q₂.tokens = q₃.tokens := by rw [h₂.tokens, h₃.tokens]
  have hsize : q₂.blockSize = q₃.blockSize := by rw [h₂.size, h₃.size]
  have hsalt : q₂.saltHash = q₃.saltHash := by rw [h₂.salt, h₃.salt]
  have hall : q₂.allSequenceHashes = q₃.allSequenceHashes := by
    have hseq : q₂.sequenceHash = q₃.sequenceHash := by
      funext i
      simp only [sequenceHash, htok, hsize, hsalt]
    simp only [allSequenceHashes, completeSequenceBlocks, totalTokens, htok, hsize, hseq]
  constructor
  · intro heq
    simpa using congrArg List.length heq
  · intro heq
    rw [h₂.base.hashes, h₃.base.hashes, hall, heq]

/-- the block a run ends in -/
theorem div_pred_eq_iff {a b : ℕ} (hb : 0 < b) (ha : 0 < a) : (a - 1) / b = a / b ↔ a % b ≠ 0 := by
  have h1 := Nat.div_add_mod a b
  constructor
  · intro heq hmod
    have h2 := Nat.mul_div_le (a - 1) b
    have h3 := Nat.lt_mul_div_succ (a - 1) hb
    rw [heq] at h2 h3
    omega
  · intro hmod
    apply Nat.div_eq_of_lt_le
    · rw [Nat.mul_comm]; omega
    · have h3 := Nat.lt_mul_div_succ a hb
      rw [Nat.mul_comm] at h3
      omega

/-- **Speculative against decode.** From a reached state, when both paths are carried out they leave the same tokens,
`kvPosition`, generated count and registered hashes, and the speculative path holds the writable blocks the next decode
needs, exactly when the accepted run does not end on a block boundary. -/
theorem speculative_eq_decode_iff (tokens : List Token) (maxOutputTokens blockSize : ℕ) (saltHash : SaltHash)
    (hb : 0 < blockSize) (σ : BlockStore H) (ops : List (Op H)) (s : SchedulableSequence H × BlockStore H)
    (hr : run step (new tokens maxOutputTokens blockSize saltHash, σ) ops = .ok s)
    (n : ℕ) (accepted : List Token) (hone : 1 ≤ accepted.length) (s₂ s₃ : SchedulableSequence H × BlockStore H)
    (hS : speculativeStep s n accepted = some s₂) (hD : decodeSteps s accepted = some s₃) :
    (s₂.1.tokens = s₃.1.tokens ∧ s₂.1.kvPosition = s₃.1.kvPosition ∧
      s₂.1.generatedTokens = s₃.1.generatedTokens ∧
      s₂.1.assigned.map ImmutableBlock.seqHash = s₃.1.assigned.map ImmutableBlock.seqHash ∧
      s₂.1.decodeNeed ≤ s₂.1.unassigned.length) ↔
    (s.1.totalTokens + accepted.length) % s.1.blockSize ≠ 0 := by
  have hbase := (run_reached tokens maxOutputTokens blockSize saltHash hb σ ops s hr).base
  have hpos := hbase.size_pos
  have hne : accepted ≠ [] := List.ne_nil_of_length_pos hone
  obtain ⟨g₂, len₂, gen₂⟩ := speculativeStep_spec hbase hS
  obtain ⟨g₃, len₃⟩ := decodeSteps_spec accepted hbase hne hD
  have hlens : s₂.1.assigned.length = s₃.1.assigned.length ↔
      (s.1.totalTokens + accepted.length) % s.1.blockSize ≠ 0 := by
    rw [len₂, len₃, ← div_pred_eq_iff hpos (by omega)]
    exact eq_comm
  constructor
  · rintro ⟨-, -, -, hhash, -⟩
    exact hlens.1 ((g₂.hashes_iff g₃).1 hhash)
  · intro hmod
    refine ⟨by rw [g₂.tokens, g₃.tokens], by rw [g₂.kv, g₃.kv], by rw [g₂.generated, g₃.generated],
      (g₂.hashes_iff g₃).2 (hlens.2 hmod), ?_⟩
    unfold decodeNeed
    split_ifs with hcomp
    · exact Nat.zero_le _
    · have hun := gen₂ hmod (by simpa using hcomp)
      have hall : s₂.1.completeSequenceBlocks = s₂.1.assigned.length := by
        rw [len₂, completeSequenceBlocks, g₂.total, g₂.size]
      omega

/-- a prompt of five in blocks of four, prefilled: six tokens, the KV of five -/
def prefilledFive : SchedulableSequence (List ℕ) × BlockStore (List ℕ) :=
  match run step (new [1, 2, 3, 4, 5] 8 4 0, (BlockStore.new 8 false : BlockStore (List ℕ)))
    [.call (.schedulePrefill 5), .call (.applyPrefill (some 6))] with
  | .ok s => s
  | .error _ => (new [1, 2, 3, 4, 5] 8 4 0, BlockStore.new 8 false)

/-- one token of two drafted is accepted: seven tokens, both paths agree -/
theorem speculative_eq_decode_inside :
    ∃ s₂ s₃, speculativeStep prefilledFive 2 [7] = some s₂ ∧ decodeSteps prefilledFive [7] = some s₃ ∧
      s₂.1.tokens = [1, 2, 3, 4, 5, 6, 7] ∧
      (s₂.1.tokens = s₃.1.tokens ∧ s₂.1.kvPosition = s₃.1.kvPosition ∧
        s₂.1.generatedTokens = s₃.1.generatedTokens ∧
        s₂.1.assigned.map ImmutableBlock.seqHash = s₃.1.assigned.map ImmutableBlock.seqHash ∧
        s₂.1.decodeNeed ≤ s₂.1.unassigned.length) :=
  ⟨_, _, rfl, rfl, rfl, (speculative_eq_decode_iff [1, 2, 3, 4, 5] 8 4 0 (by decide) (BlockStore.new 8 false)
    [.call (.schedulePrefill 5), .call (.applyPrefill (some 6))] prefilledFive rfl 2 [7] (by decide) _ _ rfl rfl).2
    (by decide)⟩

/-- both drafted tokens are accepted and complete the second block: the speculative path registers it, with the KV of
seven of its eight tokens, the decode path does not, and no block is left for the next decode -/
theorem speculative_registers_tail :
    ∃ s₂ s₃, speculativeStep prefilledFive 2 [7, 8] = some s₂ ∧ decodeSteps prefilledFive [7, 8] = some s₃ ∧
      s₂.1.kvPosition = 7 ∧
      s₂.1.assigned.map ImmutableBlock.seqHash = [[0, 1, 2, 3, 4], [0, 1, 2, 3, 4, 5, 6, 7, 8]] ∧
      s₃.1.assigned.map ImmutableBlock.seqHash = [[0, 1, 2, 3, 4]] ∧
      ¬ s₂.1.decodeNeed ≤ s₂.1.unassigned.length :=
  ⟨_, _, rfl, rfl, rfl, rfl, rfl, by decide⟩

end Pegainfer.Kvbm.SchedulableSequence
