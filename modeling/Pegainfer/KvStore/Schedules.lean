/-
Schedules are atomic.

A schedule call draws the blocks of its step, or is refused; `revert_schedule` gives the drawn blocks back, last drawn
first. An admitted request settles both against the pool's counter.
- `Effect.scheduled`: a schedule that is carried out only appends what it drew and moves the state on.
- `revertSchedule_drawn`: a revert takes off the blocks that were drawn, and no other.
- `schedule_atomic`: in every reached state a schedule call answers, leaves everything as it was when it is refused,
  and is undone by a revert when it is not.
-/
import Mathlib.Tactic
import Pegainfer.Kvbm.Draws
import Pegainfer.KvStore.Entitlement

set_option linter.unusedSectionVars false

namespace Pegainfer.Kvbm.SchedulableSequence

variable {H : Type} [DecidableEq H] [BlockHash H]

/-- what a schedule that is carried out does to the sequence -/
theorem Effect.scheduled {q q' : SchedulableSequence H} {c : Call} (he : Effect q c .done q')
    (hc : c.isSchedule = true) :
    q.state = .idle ∧ ∃ ids next, q' = q.drawn ids next ∧ (q.drawn ids next).drawnBlocks = some ids.length := by
  cases he with
  | refused _ _ hr => exact absurd rfl hr
  | prefillScheduled n ids hs => exact ⟨hs, ids, _, rfl, rfl⟩
  | decodeScheduled ids hs => exact ⟨hs, ids, _, rfl, rfl⟩
  | speculativeScheduled n ids hs => exact ⟨hs, ids, _, rfl, rfl⟩
  | _ => cases hc

theorem revertSchedule_of_drawn {q : SchedulableSequence H} {n : ℕ} (h : q.drawnBlocks = some n) (σ : BlockStore H) :
    q.revertSchedule σ =
      (.ok (), { (q.lifoPopUnassigned n σ).1 with state := .idle }, (q.lifoPopUnassigned n σ).2) := by
  unfold drawnBlocks at h
  unfold revertSchedule
  cases hs : q.state with
  | idle =>
    rw [hs] at h
    cases h
  | prefillScheduled m b =>
    rw [hs] at h
    cases h
    rfl
  | decodeScheduled b =>
    rw [hs] at h
    cases h
    rfl
  | speculativeScheduled m b =>
    rw [hs] at h
    cases h
    rfl

/-- a revert takes off the blocks that were drawn, last drawn first, and no other -/
theorem revertSchedule_drawn {q : SchedulableSequence H} (hs : q.state = .idle) {ids : List BlockId}
    {next : SequenceState} (hd : (q.drawn ids next).drawnBlocks = some ids.length) (σ : BlockStore H) :
    (q.drawn ids next).revertSchedule σ = (.ok (), q, σ.dropMutables ids.reverse) := by
  have hkeep : (q.drawn ids next).unassigned.length - ids.length = q.unassigned.length := by simp [drawn]
  rw [revertSchedule_of_drawn hd]
  unfold lifoPopUnassigned
  simp only [hkeep]
  simp only [drawn, List.take_left', List.drop_left', ← hs]

theorem CallSpec.schedule_available {q q' : SchedulableSequence H} {σ σ' : BlockStore H} {F : Holdings H} {c : Call}
    (h : CallSpec q q' σ σ' F c .done) (hc : c.isSchedule = true) :
    σ'.available + q'.residentBlocks = σ.available + q.residentBlocks := by
  have hsettles := h.settles rfl
  have hnone : σ.revived [] = 0 := rfl
  cases c with
  | schedulePrefill n => simpa only [Settles, registers, hnone, Nat.add_zero] using hsettles
  | scheduleDecode => simpa only [Settles, registers, hnone, Nat.add_zero] using hsettles
  | scheduleSpeculative n => simpa only [Settles, registers, hnone, Nat.add_zero] using hsettles
  | _ => cases hc

end Pegainfer.Kvbm.SchedulableSequence

namespace Pegainfer.KvStore

open Pegainfer.Kvbm Pegainfer.Kvbm.SchedulableSequence Pegainfer.Lib

variable {H : Type} [DecidableEq H] [BlockHash H]

namespace EntitledSeq

/-- a sequence call that ends where it began settles nothing -/
theorem withDraw_same {e : EntitledSeq H} {c : Call} {p : BlockPool H} {r : CallResult} {σ' : BlockStore H}
    (h : e.seq.call c p.store = .ok (r, e.seq, σ')) : e.withDraw c p = .ok (r, e, { p with store := σ' }) := by
  unfold withDraw
  rw [h]
  simp

theorem request_schedule {c : Call} (hc : c.isSchedule = true) (e : EntitledSeq H) (p : BlockPool H) :
    e.request c p = e.withDraw c p := by
  cases c with
  | release => cases hc
  | _ => rfl

end EntitledSeq

namespace World

/-- **Schedules are atomic.** In every reached state a schedule call on a request answers. Refused, it leaves the
request and the pool as they were; carried out, it is undone by a revert: the request is the one before the call, and
as many blocks are available and entitled as before it. -/
theorem schedule_atomic [Inhabited H] (blockSize numBlocks : ℕ) (w₀ w : World H) (ops : List Op)
    (hn : World.new blockSize numBlocks = .ok w₀) (hr : run step w₀ ops = .ok w) {i : ℕ} {e : EntitledSeq H}
    (he : w.request? i = some e) {c : Call} (hc : c.isSchedule = true) :
    ∃ r e' p, e.request c w.pool = .ok (r, e', p) ∧
      (r ≠ .done → e' = e ∧ p = w.pool) ∧
      (r = .done → ∃ p', e'.request .revertSchedule p = .ok (.done, e, p') ∧
        p'.store.available = w.pool.store.available ∧ p'.entitled = w.pool.entitled) := by
  obtain ⟨F, hF, -⟩ := holdings_request he
  have hinv := (run_reached hn hr).accounted
  unfold Accounted at hinv
  rw [hF] at hinv
  have hrefused : ∀ {r : CallResult}, r ≠ .done → e.seq.call c w.pool.store = .ok (r, e.seq, w.pool.store) →
      ∃ r e' p, e.request c w.pool = .ok (r, e', p) ∧ (r ≠ .done → e' = e ∧ p = w.pool) ∧
        (r = .done → ∃ p', e'.request .revertSchedule p = .ok (.done, e, p') ∧
          p'.store.available = w.pool.store.available ∧ p'.entitled = w.pool.entitled) := by
    intro r hne hcall
    refine ⟨r, e, w.pool, ?_, fun _ => ⟨rfl, rfl⟩, fun hdone => absurd hdone hne⟩
    rw [EntitledSeq.request_schedule hc]
    exact EntitledSeq.withDraw_same hcall
  rcases schedule_cases hinv hc with ⟨err, -, hcall⟩ | ⟨-, hcall⟩ | ⟨-, q', σ', hcall⟩
  · apply hrefused _ hcall
    nofun
  · apply hrefused _ hcall
    nofun
  · obtain ⟨hidle, ids, next, rfl, hdrawn⟩ := (call_effect hcall).scheduled hc
    have hspec := call_spec hinv hcall
    have hdraw := hspec.schedule_available hc
    have hrevert : (e.seq.drawn ids next).call .revertSchedule σ' = .ok (.done, e.seq, σ'.dropMutables ids.reverse) := by
      simp only [call, revertSchedule_drawn hidle hdrawn]
      rfl
    have hback := (call_spec hspec.inv hrevert).settles rfl
    set e' : EntitledSeq H := { e with seq := e.seq.drawn ids next } with he'
    have hdrew : e.request c w.pool = .ok (.done, e', { w.pool with
        store := σ'
        entitled := if e.admitted then w.pool.entitled + (e.resident - e'.resident) else w.pool.entitled }) := by
      rw [EntitledSeq.request_schedule hc]
      unfold EntitledSeq.withDraw
      rw [hcall]
    refine ⟨.done, e', _, hdrew, fun hne => absurd rfl hne, fun _ => ⟨{ w.pool with
      store := σ'.dropMutables ids.reverse }, ?_, ?_, rfl⟩⟩
    · have hentitled : (if e.admitted then (if e.admitted then w.pool.entitled + (e.resident - e'.resident)
          else w.pool.entitled) + (e'.resident - e.resident)
          else if e.admitted then w.pool.entitled + (e.resident - e'.resident) else w.pool.entitled) =
          w.pool.entitled := by
        split_ifs
        · omega
        · rfl
      have hrevert' : e'.seq.call .revertSchedule σ' = .ok (.done, e.seq, σ'.dropMutables ids.reverse) := hrevert
      simp only [EntitledSeq.request, EntitledSeq.withDraw, hrevert']
      exact congrArg (fun entitled => Except.ok (CallResult.done, e, { w.pool with
        store := σ'.dropMutables ids.reverse, entitled := entitled })) hentitled
    · have hnone : σ'.revived ((e.seq.drawn ids next).registers .revertSchedule) = 0 := rfl
      simp only [Settles, hnone] at hback
      dsimp only
      omega

/-- one block is left, and another request's draw took the rest: a chunk of two tokens is drawn and reverted -/
def tightOps : List Op :=
  [.newRequest [1, 2, 3] 1 0, .tryAdmit 0 0, .newRequest [4, 5, 6] 1 0, .call 1 (.schedulePrefill 3)]

theorem schedule_atomic_tight :
    ∃ (w₀ w : World (List ℕ)) (e : EntitledSeq (List ℕ)), World.new 2 4 = .ok w₀ ∧ run step w₀ tightOps = .ok w ∧
      w.request? 0 = some e ∧ w.pool.store.available = 1 ∧ w.pool.entitled = 2 ∧
      ∃ r e' p, e.request (.schedulePrefill 2) w.pool = .ok (r, e', p) ∧ (r ≠ .done → e' = e ∧ p = w.pool) ∧
        (r = .done → ∃ p', e'.request .revertSchedule p = .ok (.done, e, p') ∧
          p'.store.available = w.pool.store.available ∧ p'.entitled = w.pool.entitled) :=
  ⟨_, _, _, rfl, rfl, rfl, rfl, rfl,
    @schedule_atomic _ _ _ _ 2 4 _ _ tightOps rfl rfl 0 _ rfl (.schedulePrefill 2) rfl⟩

end World

end Pegainfer.KvStore
