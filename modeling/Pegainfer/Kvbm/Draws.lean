/-
How many blocks a call draws.

- `draws`: the blocks a schedule call asks the store for.
- `call_resident`: no call but a prefix match leaves more blocks with the sequence than it had and drew.
- `schedule_cases`: a schedule call is refused, draws, or fails for lack of blocks, and nothing else.
- `Positions.draws_le`: the draws of a request stay within its lifetime.
- `match_resident`: a prefix match takes the leading registered blocks, up to the cap.
-/
import Mathlib.Tactic
import Pegainfer.Kvbm.CallStore

set_option linter.unusedSectionVars false

namespace Pegainfer.Kvbm.SchedulableSequence

variable {H : Type} [DecidableEq H] [BlockHash H]

/-- the blocks a schedule call that passes its checks asks the store for -/
def draws (q : SchedulableSequence H) : Call → ℕ
  | .schedulePrefill n =>
    if q.state = .idle ∧ ¬ q.isPrefillComplete ∧ q.prefillPosition + n ≤ q.numInputTokens then
      divCeil (q.prefillPosition + n) q.blockSize - q.residentBlocks
    else 0
  | .scheduleDecode =>
    if q.requireGeneration = .ok () then
      (q.completeSequenceBlocks - (q.assigned.length + q.staged.length) + 1) - q.unassigned.length
    else 0
  | .scheduleSpeculative n =>
    if q.requireGeneration = .ok () then
      divCeil (q.totalTokens + min n q.remainingTokens) q.blockSize - q.residentBlocks
    else 0
  | _ => 0

/-- the three calls that draw -/
def Call.isSchedule : Call → Bool
  | .schedulePrefill _ | .scheduleDecode | .scheduleSpeculative _ => true
  | _ => false

attribute [grind =] Call.isSchedule

theorem draws_eq_zero {q : SchedulableSequence H} {c : Call} (hc : c.isSchedule = false) : q.draws c = 0 := by
  cases c <;> simp_all [draws, Call.isSchedule]

theorem resident_drawn (q : SchedulableSequence H) (ids : List BlockId) (next : SequenceState) :
    (q.drawn ids next).residentBlocks = q.residentBlocks + ids.length := by
  simp only [drawn, residentBlocks, List.length_append]
  omega

theorem requireGeneration_error {q : SchedulableSequence H} {e : ScheduleError} (h : q.requireGeneration = .error e) :
    ∀ n, e ≠ .allocationFailed n := by
  unfold requireGeneration at h
  split_ifs at h <;> (obtain rfl := Except.error.inj h; simp)

/-- what a schedule call comes down to -/
theorem schedule_eq {q : SchedulableSequence H} {c : Call} (hc : c.isSchedule = true) :
    (∃ e, (∀ n, e ≠ .allocationFailed n) ∧ q.draws c = 0 ∧ ∀ σ, q.call c σ = .ok (.scheduleError e, q, σ)) ∨
      ∃ next, (∀ σ, q.call c σ = (q.drawInto (q.draws c) next σ).map fun r => (.ofSchedule r.1, r.2)) ∧
        ∀ ids, ids.length = q.draws c → Effect q c .done (q.drawn ids next) := by
  cases c with
  | schedulePrefill n =>
    by_cases hs : q.state = .idle
    · by_cases hp : q.isPrefillComplete = true
      · exact Or.inl ⟨.prefillComplete, by simp, by simp [draws, hp],
          by simp [call, schedulePrefill, hs, hp, Except.map, CallResult.ofSchedule]⟩
      · by_cases hn : q.prefillPosition + n ≤ q.numInputTokens
        · have hd : q.draws (.schedulePrefill n) = divCeil (q.prefillPosition + n) q.blockSize - q.residentBlocks := by
            simp [draws, hs, hp, hn]
          refine Or.inr ⟨.prefillScheduled n (q.draws (.schedulePrefill n)), ?_, ?_⟩
          · intro σ
            simp [call, schedulePrefill, hs, hp, not_lt.2 hn, hd]
          · intro ids hids
            have hpos : q.prefillPosition < q.numInputTokens := by simpa [isPrefillComplete] using hp
            rw [← hids]
            exact .prefillScheduled n ids hs hpos hn (hids.trans hd)
        · refine Or.inl ⟨.prefillOverrun q.prefillPosition n q.numInputTokens, by simp, by simp [draws, hn], ?_⟩
          simp [call, schedulePrefill, hs, hp, not_le.1 hn, Except.map, CallResult.ofSchedule]
    · exact Or.inl ⟨.notIdle q.state, by simp, by simp [draws, hs],
        by simp [call, schedulePrefill, hs, Except.map, CallResult.ofSchedule]⟩
  | scheduleDecode =>
    cases hreq : q.requireGeneration with
    | error e =>
      exact Or.inl ⟨e, requireGeneration_error hreq, by simp [draws, hreq],
        by simp [call, scheduleDecode, hreq, Except.map, CallResult.ofSchedule]⟩
    | ok u =>
      obtain ⟨hs, hp, hg, hd⟩ := requireGeneration_ok hreq
      refine Or.inr ⟨.decodeScheduled (q.draws .scheduleDecode), ?_, ?_⟩
      · intro σ
        simp [call, scheduleDecode, hreq, draws]
      · intro ids hids
        rw [← hids]
        exact .decodeScheduled ids hs ⟨hp, hg, hd⟩ (by simp [hids, draws, hreq])
  | scheduleSpeculative n =>
    cases hreq : q.requireGeneration with
    | error e =>
      exact Or.inl ⟨e, requireGeneration_error hreq, by simp [draws, hreq],
        by simp [call, scheduleSpeculative, hreq, Except.map, CallResult.ofSchedule]⟩
    | ok u =>
      obtain ⟨hs, hp, hg, hd⟩ := requireGeneration_ok hreq
      refine Or.inr ⟨.speculativeScheduled (min n q.remainingTokens) (q.draws (.scheduleSpeculative n)), ?_, ?_⟩
      · intro σ
        simp [call, scheduleSpeculative, hreq, draws]
      · intro ids hids
        rw [← hids]
        exact .speculativeScheduled n ids hs ⟨hp, hg, hd⟩ (by simp [hids, draws, hreq])
  | _ => simp [Call.isSchedule] at hc

/-- **Schedule calls.** From an account they never panic: they are refused, draw what they ask for, or find too few
blocks. -/
theorem schedule_cases {q : SchedulableSequence H} {σ : BlockStore H} {F : Holdings H} {c : Call}
    (h : Inv σ (q.holdings + F)) (hc : c.isSchedule = true) :
    (∃ e, (∀ n, e ≠ .allocationFailed n) ∧ q.call c σ = .ok (.scheduleError e, q, σ)) ∨
      (σ.available < q.draws c ∧ q.call c σ = .ok (.scheduleError (.allocationFailed (q.draws c)), q, σ)) ∨
      q.draws c ≤ σ.available ∧ ∃ q' σ', q.call c σ = .ok (.done, q', σ') := by
  rcases schedule_eq (q := q) hc with ⟨e, he, -, hcall⟩ | ⟨next, hcall, -⟩
  · exact Or.inl ⟨e, he, hcall σ⟩
  · rcases drawInto_spec h (q.draws c) next with ⟨hlt, heq⟩ | ⟨ids, σ', hle, heq, -⟩
    · exact Or.inr (Or.inl ⟨hlt, by simp [hcall, heq, Except.map, CallResult.ofSchedule]⟩)
    · exact Or.inr (Or.inr ⟨hle, q.drawn ids next, σ', by simp [hcall, heq, Except.map, CallResult.ofSchedule]⟩)

/-- the draws of a request stay within its lifetime -/
theorem Positions.draws_le {cap : ℕ} {q : SchedulableSequence H} (h : Positions cap q) (c : Call) :
    q.residentBlocks + q.draws c ≤ divCeil cap q.blockSize := by
  have hst : q.staged.length = 0 := by rw [h.base.staged_nil]; rfl
  have hle := h.resident_le
  cases hc : c.isSchedule with
  | false =>
    rw [draws_eq_zero hc]
    simp only [residentBlocks]
    omega
  | true =>
    rcases schedule_eq (q := q) hc with ⟨e, -, hzero, -⟩ | ⟨next, -, heff⟩
    · rw [hzero]
      simp only [residentBlocks]
      omega
    · have hpos := (heff (List.replicate (q.draws c) 0) (List.length_replicate ..)).positions ?_ h
      · have hres := hpos.resident_le
        have hst' : (q.drawn (List.replicate (q.draws c) 0) next).staged.length = 0 := hst
        have hlen := resident_drawn q (List.replicate (q.draws c) 0) next
        simp only [List.length_replicate] at hlen
        have hbs : (q.drawn (List.replicate (q.draws c) 0) next).blockSize = q.blockSize := rfl
        rw [hbs] at hres
        simp only [residentBlocks] at hlen ⊢
        omega
      · rintro rfl
        simp [Call.isSchedule] at hc

/-- apart from a prefix match, a call leaves at most the blocks it found and drew -/
theorem call_resident {q q' : SchedulableSequence H} {c : Call} {σ σ' : BlockStore H} {r : CallResult}
    (h : q.call c σ = .ok (r, q', σ')) (hb : q.Base) (hm : c ≠ .matchAndAddPrefix) :
    q'.residentBlocks ≤ q.residentBlocks + q.draws c := by
  cases hc : c.isSchedule with
  | true =>
    rcases schedule_eq (q := q) hc with ⟨e, -, -, hcall⟩ | ⟨next, hcall, -⟩
    · rw [hcall] at h
      obtain ⟨-, rfl, -⟩ : _ ∧ q = q' ∧ _ := by simpa using h
      omega
    · rw [hcall] at h
      obtain ⟨e, hd, -⟩ := map_ok h
      rcases drawInto_ok hd with ⟨-, rfl⟩ | ⟨ids, hids, -, rfl⟩
      · omega
      · rw [resident_drawn, hids]
  | false =>
    have hst : q.staged.length = 0 := by rw [hb.staged_nil]; rfl
    rw [draws_eq_zero hc]
    cases call_effect h with
    | refused => exact le_rfl
    | unmatched => exact absurd rfl hm
    | matched => exact absurd rfl hm
    | prefillScheduled => simp [Call.isSchedule] at hc
    | decodeScheduled => simp [Call.isSchedule] at hc
    | speculativeScheduled => simp [Call.isSchedule] at hc
    | prefillApplied n b t xs hs ht hf hg hx =>
      have := resident_withRegistered hb.staged_nil hx
      simp only [residentBlocks, appended, withRegistered, List.length_nil] at this ⊢
      omega
    | decodeApplied b t xs hs hg hx =>
      have := resident_withRegistered hb.staged_nil hx
      simp only [residentBlocks, appended, withRegistered, List.length_nil] at this ⊢
      omega
    | speculativeApplied n b ts xs hs hn hg hx =>
      have := resident_withRegistered (q := q.appended ts) hb.staged_nil hx
      simp only [residentBlocks, keepUnassigned, appended, withRegistered, List.length_take, List.length_nil] at this ⊢
      omega
    | reverted n hs =>
      simp only [residentBlocks, keepUnassigned, List.length_take]
      omega
    | unpadded => exact le_rfl
    | padded pad xs hs hk hx =>
      have := resident_withRegistered
        (q := { q with tokens := q.tokens ++ List.replicate q.padCount pad }) hb.staged_nil hx
      simp only [residentBlocks, withRegistered, List.length_nil] at this ⊢
      omega
    | adopted => exact le_rfl
    | released => simp [residentBlocks, cleared]

/-- the blocks a prefix match takes -/
def prefixHit (q : SchedulableSequence H) (σ : BlockStore H) : ℕ :=
  min (q.allSequenceHashes.takeWhile σ.isRegistered).length q.maxMatchedBlocks

theorem match_resident {q q' : SchedulableSequence H} {σ σ' : BlockStore H} {F : Holdings H}
    (h : Inv σ (q.holdings + F)) (hc : q.call .matchAndAddPrefix σ = .ok (.done, q', σ')) :
    q.residentBlocks = 0 ∧ q'.residentBlocks = q.prefixHit σ := by
  obtain ⟨r, hx, hr⟩ := map_ok hc
  unfold matchAndAddPrefix at hx
  split_ifs at hx with hs he
  · simp only [Except.ok.injEq, Prod.mk.injEq] at hx
    rw [← hx.1] at hr
    cases hr
  · have he : q.residentBlocks = 0 := by simpa using he
    obtain ⟨hits, σ₁, heq, hm⟩ := matchBlocks_spec q.allSequenceHashes h
    have hlen : (hits.take q.maxMatchedBlocks).length = q.prefixHit σ := by
      rw [List.length_take, prefixHit, ← hm.hashes, List.length_map, min_comm]
    rw [heq] at hx
    simp only at hx
    split_ifs at hx with h1 h2 h3
    · simp only [Except.ok.injEq, Prod.mk.injEq] at hx
      rw [← hx.2.1, ← hlen, h1]
      exact ⟨he, he⟩
    · simp only [Except.ok.injEq, Prod.mk.injEq] at hx
      rw [← hx.2.1, ← hlen]
      refine ⟨he, ?_⟩
      simp only [residentBlocks] at he ⊢
      omega

theorem match_refused {q q' : SchedulableSequence H} {σ σ' : BlockStore H} {r : CallResult}
    (hc : q.call .matchAndAddPrefix σ = .ok (r, q', σ')) : r = .done ↔ q.state = .idle := by
  obtain ⟨r, hx, rfl⟩ := map_ok hc
  unfold matchAndAddPrefix at hx
  split_ifs at hx with hs he
  · simp only [Except.ok.injEq, Prod.mk.injEq] at hx
    simp [← hx.1, CallResult.ofSchedule, hs]
  · have hs : q.state = .idle := by simpa using hs
    split at hx
    · cases hx
    · simp only at hx
      split_ifs at hx <;>
        (simp only [Except.ok.injEq, Prod.mk.injEq] at hx; simp [← hx.1, CallResult.ofSchedule, hs])

end Pegainfer.Kvbm.SchedulableSequence
