/-
The entitlement counter is exact.

Each admitted request is owed what its lifetime leaves to draw. The pool's counter is settled by differences, one per
operation; the sum of what is owed never differs from it.
- `entitled_exact`: the counter is that sum, in every reached state; nobody is owed less than nothing; with nobody
  admitted it is zero. A prefix match is made on a fresh request, as `match_and_add_prefix` asks of its callers.
-/
import Mathlib.Tactic
import Pegainfer.KvStore.Partition

set_option linter.unusedSectionVars false

namespace Pegainfer.KvStore

open Pegainfer.Kvbm Pegainfer.Lib

variable {H : Type} [DecidableEq H] [BlockHash H]

/-- what an admitted request has yet to draw -/
def owed : Option (EntitledSeq H) → ℤ
  | none => 0
  | some e => if e.admitted then e.remaining else 0

/-! ## Settlement by differences -/

namespace EntitledSeq

theorem owed_withDraw {e e' : EntitledSeq H} {c : SchedulableSequence.Call} {p p' : BlockPool H}
    {r : SchedulableSequence.CallResult} (h : e.withDraw c p = .ok (r, e', p')) :
    p'.entitled = p.entitled + (owed (some e') - owed (some e)) := by
  obtain ⟨-, hadm, hlife, -, -, hent⟩ := World.withDraw_ok h
  rw [hent]
  cases ha : e.admitted with
  | false => simp [owed, hadm, ha]
  | true =>
    simp only [owed, hadm, ha, if_true, remaining, hlife]
    ring

theorem owed_retire (e : EntitledSeq H) (p : BlockPool H) :
    (e.retire p).2.entitled = p.entitled - owed (some e) ∧ owed (some (e.retire p).1) = 0 := by
  unfold retire
  cases ha : e.admitted with
  | false => simp [owed, ha]
  | true => simp [owed, ha]

theorem owed_request {e e' : EntitledSeq H} {c : SchedulableSequence.Call} {p p' : BlockPool H}
    {r : SchedulableSequence.CallResult} (h : e.request c p = .ok (r, e', p')) :
    p'.entitled = p.entitled + (owed (some e') - owed (some e)) := by
  cases c with
  | release =>
    simp only [request] at h
    obtain ⟨hent, hzero⟩ := owed_retire e p
    have hdraw := owed_withDraw h
    rw [hent, hzero] at hdraw
    rw [hdraw]
    ring
  | _ =>
    simp only [request] at h
    exact owed_withDraw h

theorem owed_tryAdmit (e : EntitledSeq H) (n : ℕ) (p : BlockPool H) :
    (e.tryAdmit n p).2.2.entitled = p.entitled + (owed (some (e.tryAdmit n p).2.1) - owed (some e)) := by
  unfold tryAdmit
  split_ifs with ha hshort
  · simp
  · simp
  · simp [owed, ha, remaining, resident]

end EntitledSeq

namespace World

/-- the counter is the sum of what is owed -/
def Settled (w : World H) : Prop := w.pool.entitled = (w.requests.map owed).sum

theorem settled_set {w : World H} {i : ℕ} {e : EntitledSeq H} (h : w.Settled) (he : w.request? i = some e)
    {o : Option (EntitledSeq H)} {p : BlockPool H} (hp : p.entitled = w.pool.entitled + (owed o - owed (some e))) :
    (w.setRequest i o p).Settled := by
  obtain ⟨rest, hsum, hset⟩ := sum_map_set owed (request_slot he)
  unfold Settled at h ⊢
  simp only [setRequest, hset]
  rw [hp, h, hsum]
  ring

theorem settled_of_eq {w w' : World H} (h : w.Settled) (hr : w'.requests = w.requests)
    (hp : w'.pool.entitled = w.pool.entitled) : w'.Settled := by
  unfold Settled at h ⊢
  rw [hr, hp, h]

theorem step_settled {w w' : World H} {o : Op} (h : w.Settled) (hs : w.step o = .ok w') : w'.Settled := by
  cases o with
  | newRequest ts m salt =>
    obtain rfl := Except.ok.inj hs
    unfold Settled at h ⊢
    rw [sum_map_concat, h]
    simp [owed, BlockPool.newRequest]
  | tryAdmit i n =>
    simp only [step] at hs
    split at hs
    · exact Except.ok.inj hs ▸ h
    · rename_i e he
      obtain rfl := Except.ok.inj hs
      exact settled_set h he (e.owed_tryAdmit n w.pool)
  | call i c =>
    simp only [step] at hs
    split at hs
    · exact Except.ok.inj hs ▸ h
    · rename_i e he
      split at hs
      · cases hs
      · rename_i r e' p hreq
        obtain rfl := Except.ok.inj hs
        exact settled_set h he (EntitledSeq.owed_request hreq)
  | dropRequest i =>
    simp only [step] at hs
    split at hs
    · exact Except.ok.inj hs ▸ h
    · rename_i e he
      obtain rfl := Except.ok.inj hs
      refine settled_set h he ?_
      rw [EntitledSeq.drop, (e.owed_retire w.pool).1]
      simp [owed, sub_eq_add_neg]
  | probe ts salt =>
    simp only [step] at hs
    split at hs
    · cases hs
    · rename_i pr p hp
      obtain rfl := Except.ok.inj hs
      unfold BlockPool.probePrefix at hp
      simp only at hp
      split at hp
      · cases hp
      · obtain ⟨rfl, rfl⟩ := Prod.mk.inj (Except.ok.inj hp)
        exact h
  | reserve n =>
    simp only [step] at hs
    split at hs
    · cases hs
    · exact Except.ok.inj hs ▸ h
    · rename_i ids p hres
      obtain rfl := Except.ok.inj hs
      exact settled_of_eq h rfl (reserveLoadedBlocks_ok hres).2.2.2.2
  | commit i j =>
    simp only [step] at hs
    split at hs
    · split at hs
      · cases hs
      · rename_i pr' p hc
        obtain rfl := Except.ok.inj hs
        unfold BlockPool.commitLoadedBlocks at hc
        split at hc
        · cases hc
        · obtain ⟨rfl, rfl⟩ := Prod.mk.inj (Except.ok.inj hc)
          exact h
    · exact Except.ok.inj hs ▸ h
  | _ =>
    simp only [step] at hs
    split at hs <;> exact Except.ok.inj hs ▸ h

/-! ## Nobody holds more than their lifetime -/

/-- the request's positions fit the lifetime frozen at its construction -/
def InLifetime (e : EntitledSeq H) : Prop :=
  ∃ cap, e.seq.Positions cap ∧ e.lifetimeBlocks = divCeil cap e.seq.blockSize

theorem InLifetime.remaining_nonneg {e : EntitledSeq H} (h : InLifetime e) : 0 ≤ e.remaining := by
  obtain ⟨cap, hpos, hlife⟩ := h
  have hle := hpos.resident_le
  have hst : e.seq.staged.length = 0 := by rw [hpos.base.staged_nil]; rfl
  simp only [EntitledSeq.remaining, EntitledSeq.resident, SchedulableSequence.residentBlocks, hlife]
  omega

/-- `match_and_add_prefix` is called on a fresh request -/
def MatchesFresh (w : World H) : Op → Prop
  | .call i c => c = .matchAndAddPrefix → ∀ e ∈ w.request? i, e.seq.prefillPosition = 0
  | _ => True

instance (w : World H) (o : Op) : Decidable (w.MatchesFresh o) := by
  cases o <;> unfold MatchesFresh <;> infer_instance

theorem InLifetime.request {w : World H} {i : ℕ} {e e' : EntitledSeq H} {c : SchedulableSequence.Call}
    {p : BlockPool H} {r : SchedulableSequence.CallResult} (h : InLifetime e) (he : w.request? i = some e)
    (hm : w.MatchesFresh (.call i c)) (hreq : e.request c w.pool = .ok (r, e', p)) : InLifetime e' := by
  obtain ⟨cap, hpos, hlife⟩ := h
  obtain ⟨hc, hlife', -, -⟩ := request_ok hreq
  have heff := SchedulableSequence.call_effect hc
  refine ⟨cap, heff.positions ?_ hpos, ?_⟩
  · rintro rfl - -
    exact hm rfl e he
  · rw [hlife', hlife, heff.blockSize]

theorem InLifetime.of_seq {e e' : EntitledSeq H} (h : InLifetime e) (hs : e'.seq = e.seq)
    (hl : e'.lifetimeBlocks = e.lifetimeBlocks) : InLifetime e' := by
  obtain ⟨cap, hpos, hlife⟩ := h
  exact ⟨cap, hs ▸ hpos, by rw [hl, hlife, hs]⟩

theorem tryAdmit_seq (e : EntitledSeq H) (n : ℕ) (p : BlockPool H) :
    (e.tryAdmit n p).2.1.seq = e.seq ∧ (e.tryAdmit n p).2.1.lifetimeBlocks = e.lifetimeBlocks := by
  unfold EntitledSeq.tryAdmit
  split_ifs <;> exact ⟨rfl, rfl⟩

theorem step_inLifetime {w w' : World H} {o : Op} (hsize : 0 < w.pool.blockSize)
    (h : ∀ e, some e ∈ w.requests → InLifetime e) (hm : w.MatchesFresh o) (hs : w.step o = .ok w') :
    ∀ e, some e ∈ w'.requests → InLifetime e := by
  cases o with
  | newRequest ts m salt =>
    obtain rfl := Except.ok.inj hs
    exact forall_some_concat h ⟨_, SchedulableSequence.positions_new ts m salt hsize, rfl⟩
  | tryAdmit i n =>
    simp only [step] at hs
    split at hs
    · exact Except.ok.inj hs ▸ h
    · rename_i e he
      obtain rfl := Except.ok.inj hs
      refine forall_some_set h ?_
      rintro _ ⟨⟩
      obtain ⟨hseq, hlife⟩ := tryAdmit_seq e n w.pool
      exact (h e (mem_of_slot (request_slot he))).of_seq hseq hlife
  | call i c =>
    simp only [step] at hs
    split at hs
    · exact Except.ok.inj hs ▸ h
    · rename_i e he
      split at hs
      · cases hs
      · rename_i r e' p hreq
        obtain rfl := Except.ok.inj hs
        refine forall_some_set h ?_
        rintro _ ⟨⟩
        exact (h e (mem_of_slot (request_slot he))).request he hm hreq
  | dropRequest i =>
    simp only [step] at hs
    split at hs
    · exact Except.ok.inj hs ▸ h
    · obtain rfl := Except.ok.inj hs
      exact forall_some_set h (fun e he => by cases he)
  | probe ts salt =>
    simp only [step] at hs
    split at hs
    · cases hs
    · exact Except.ok.inj hs ▸ h
  | reserve n =>
    simp only [step] at hs
    split at hs
    · cases hs
    · exact Except.ok.inj hs ▸ h
    · exact Except.ok.inj hs ▸ h
  | commit i j =>
    simp only [step] at hs
    split at hs
    · split at hs
      · cases hs
      · exact Except.ok.inj hs ▸ h
    · exact Except.ok.inj hs ▸ h
  | _ =>
    simp only [step] at hs
    split at hs <;> exact Except.ok.inj hs ▸ h

/-! ## Main result -/

/-- the account of the guards, the counter and every request's lifetime -/
structure Entitled [Inhabited H] (w : World H) (numBlocks : ℕ) : Prop where
  reached : w.Reached numBlocks
  settled : w.Settled
  inLifetime : ∀ e, some e ∈ w.requests → InLifetime e

theorem step_entitled [Inhabited H] {w w' : World H} {n : ℕ} {o : Op} (h : w.Entitled n) (hm : w.MatchesFresh o)
    (hs : w.step o = .ok w') : w'.Entitled n :=
  ⟨step_reached h.reached hs, step_settled h.settled hs,
    step_inLifetime h.reached.named.size_pos h.inLifetime hm hs⟩

theorem new_entitled [Inhabited H] {blockSize numBlocks : ℕ} {w : World H}
    (hn : World.new blockSize numBlocks = .ok w) : w.Entitled numBlocks := by
  have hf := new_fresh hn
  refine ⟨run_reached hn (run_nil w), ?_, ?_⟩
  · unfold Settled
    rw [hf.entitled, hf.empty.1]
    rfl
  · rw [hf.empty.1]
    intro e he
    cases he

/-- with nobody admitted nothing is owed -/
theorem owed_eq_zero {l : List (Option (EntitledSeq H))} (h : ∀ e, some e ∈ l → e.admitted = false) :
    (l.map owed).sum = 0 := by
  refine List.sum_eq_zero ?_
  intro x hx
  obtain ⟨_ | e, he, rfl⟩ := List.mem_map.1 hx
  · rfl
  · simp [owed, h e he]

/-- **Entitlement.** In every reached state the counter is the sum over the admitted requests of lifetime less resident
blocks, no summand is negative, and it is zero once all of them are released or dropped. -/
theorem entitled_exact [Inhabited H] (blockSize numBlocks : ℕ) (w₀ w : World H) (ops : List Op)
    (hn : World.new blockSize numBlocks = .ok w₀) (hm : StepsMeet step MatchesFresh w₀ ops)
    (hr : run step w₀ ops = .ok w) :
    w.pool.entitled =
        (w.requests.map fun
          | some e => if e.admitted then (e.lifetimeBlocks : ℤ) - e.seq.residentBlocks else 0
          | none => 0).sum ∧
      (∀ e, some e ∈ w.requests → e.admitted → e.seq.residentBlocks ≤ e.lifetimeBlocks) ∧
      ((∀ e, some e ∈ w.requests → e.admitted = false) → w.pool.entitled = 0) := by
  have h := run_invariant (I := fun _ w => w.Entitled numBlocks) w₀ (new_entitled hn)
    (fun _ _ _ _ h hm hs => step_entitled h hm hs) ops w hm hr
  refine ⟨?_, ?_, ?_⟩
  · rw [h.settled]
    congr 1
    refine List.map_congr_left ?_
    rintro (_ | e) -
    · rfl
    · rfl
  · intro e he _
    have := (h.inLifetime e he).remaining_nonneg
    simp only [EntitledSeq.remaining, EntitledSeq.resident] at this
    omega
  · intro hnone
    rw [h.settled]
    exact owed_eq_zero hnone

/-- an admitted request drafts two tokens past its prompt and keeps one of them -/
theorem entitled_exact_speculative :
    ∃ w₀ w : World (List ℕ), World.new 2 8 = .ok w₀ ∧
      run step w₀ [.newRequest [1, 2, 3] 5 0, .tryAdmit 0 0, .call 0 .matchAndAddPrefix, .call 0 (.schedulePrefill 3),
        .call 0 (.applyPrefill (some 4)), .call 0 (.scheduleSpeculative 3), .call 0 (.applySpeculative [5])] = .ok w ∧
      w.pool.entitled = 1 ∧
      (∀ e, some e ∈ w.requests → e.admitted → e.seq.residentBlocks ≤ e.lifetimeBlocks) :=
  ⟨_, _, rfl, rfl, rfl, (entitled_exact 2 8 _ _ [.newRequest [1, 2, 3] 5 0, .tryAdmit 0 0, .call 0 .matchAndAddPrefix,
    .call 0 (.schedulePrefill 3), .call 0 (.applyPrefill (some 4)), .call 0 (.scheduleSpeculative 3),
    .call 0 (.applySpeculative [5])] rfl (by decide) rfl).2.1⟩

end World

end Pegainfer.KvStore
