/-
Chunked prefill: how a step's token budget is cut into windows.

`plan_prefill_chunks` shares a budget over the front of the queue, `prefill_step_chunk` shortens a share to a stop of
the request (its history stop, a snapshot boundary), and unfinished requests return to the front.
- `takePrefillChunks_planned`: what one step schedules.
- `prefilling_reaches`: over repeated steps a request stops at its history stop and at its prompt's end.
-/
import Mathlib.Tactic
import Pegainfer.Lib.Ranking

namespace Pegainfer.Qwen35

open Pegainfer.Lib

/-! ## Model -/

/-- what prefilling reads of a request -/
structure QueuedRequest (α : Type) where
  id : ℕ
  promptTokens : List α
  historyTokens : Option ℕ
deriving DecidableEq, Repr

structure PrefillingRequest35 (α : Type) where
  req : QueuedRequest α
  cursor : ℕ
  stepChunk : ℕ
deriving DecidableEq, Repr

variable {α : Type}

namespace QueuedRequest

variable (req : QueuedRequest α)

def promptLen : ℕ := req.promptTokens.length

end QueuedRequest

namespace PrefillingRequest35

variable (p : PrefillingRequest35 α)

def remaining : ℕ := p.req.promptLen - p.cursor

/-- the prompt cursor after the scheduled chunk -/
def stop : ℕ := p.cursor + p.stepChunk

/-- what scheduling leaves as it is -/
def place : QueuedRequest α × ℕ := (p.req, p.cursor)

end PrefillingRequest35

/-- last stride boundary at or below `historyTokens` (the prompt length without one) -/
def historyStop (promptLen : ℕ) (historyTokens : Option ℕ) (stride : ℕ) : ℕ :=
  (historyTokens.elim promptLen fun h => min h promptLen) / stride * stride

/-- the stride is asserted to be positive -/
def prefillStepChunk (cursor chunk promptLen : ℕ) (historyTokens : Option ℕ) (snapshotStride : Option ℕ+) : ℕ :=
  match snapshotStride with
  | none => chunk
  | some stride =>
    let stop := cursor + chunk
    let lastStop := historyStop promptLen historyTokens stride
    if cursor < lastStop ∧ lastStop < stop then lastStop - cursor
    else if stop = promptLen then chunk
    else
      -- a share that cannot reach the next boundary runs unaligned
      let aligned := stop / stride * stride
      if cursor < aligned then aligned - cursor else chunk

def planPrefillChunks : List ℕ → ℕ → List ℕ
  | [], _ => []
  | rem :: remaining, left =>
    if left = 0 ∨ rem = 0 then []
    else if min rem left < rem then [min rem left]
    else min rem left :: planPrefillChunks remaining (left - min rem left)

/-- a planned chunk, shortened to the request's stops -/
def schedule (snapshotStride : Option ℕ+) (p : PrefillingRequest35 α) (chunk : ℕ) : PrefillingRequest35 α :=
  { p with stepChunk := prefillStepChunk p.cursor chunk p.req.promptLen p.req.historyTokens snapshotStride }

/-- the step's requests and the queue behind them -/
def takePrefillChunks (prefilling : List (PrefillingRequest35 α)) (prefillBudget : ℕ) (snapshotStride : Option ℕ+) :
    List (PrefillingRequest35 α) × List (PrefillingRequest35 α) :=
  let chunks := planPrefillChunks (prefilling.map PrefillingRequest35.remaining) prefillBudget
  (List.zipWith (schedule snapshotStride) (prefilling.take chunks.length) chunks, prefilling.drop chunks.length)

structure ScheduledChunk (α : Type) where
  reqs : List (QueuedRequest α)
  /-- prompt cursor after this step's chunk -/
  ends : List ℕ
  /-- this step's token slice per request -/
  windows : List (List α)
deriving DecidableEq, Repr

def ScheduledChunk.ofScheduled (scheduled : List (PrefillingRequest35 α)) : ScheduledChunk α where
  reqs := scheduled.map PrefillingRequest35.req
  ends := scheduled.map PrefillingRequest35.stop
  windows := scheduled.map fun p => (p.req.promptTokens.take p.stop).drop p.cursor

/-- the requests that reached their prompt's end, and the queue with the unfinished ones back at its front -/
def promoteOrRequeue (aborted : ℕ → Bool) (prefilling : List (PrefillingRequest35 α)) (chunk : ScheduledChunk α) :
    List (QueuedRequest α × ℕ) × List (PrefillingRequest35 α) :=
  let kept := (chunk.reqs.zip chunk.ends).filter fun e => !aborted e.1.id
  let stillPrefilling := (kept.filter fun e => e.2 < e.1.promptLen).map fun e => ⟨e.1, e.2, 0⟩
  (kept.filter fun e => !decide (e.2 < e.1.promptLen), stillPrefilling ++ prefilling)

/-! ## One window -/

variable {stride : ℕ+} {cursor chunk promptLen budget target : ℕ} {historyTokens : Option ℕ} {aborted : ℕ → Bool}
  {queue scheduled rest : List (PrefillingRequest35 α)} {p q : PrefillingRequest35 α} {req : QueuedRequest α}

theorem historyStop_le : historyStop promptLen historyTokens stride ≤ promptLen := by
  refine (Nat.div_mul_le_self _ _).trans ?_
  cases historyTokens with
  | none => exact le_refl _
  | some h => exact min_le_right _ _

theorem dvd_historyStop : (stride : ℕ) ∣ historyStop promptLen historyTokens stride := Nat.dvd_mul_left _ _

/-- a boundary that a number reaches is reached by the number rounded down -/
theorem le_rounded {stride b x : ℕ} (hdvd : stride ∣ b) (hle : b ≤ x) : b ≤ x / stride * stride := by
  calc b = b / stride * stride := (Nat.div_mul_cancel hdvd).symm
    _ ≤ x / stride * stride := Nat.mul_le_mul_right _ (Nat.div_le_div_right hle)

/-- what a share of `chunk` tokens becomes -/
structure Shortened (stride promptLen : ℕ) (historyTokens : Option ℕ) (cursor chunk window : ℕ) : Prop where
  positive : 0 < window
  share : window ≤ chunk
  history : cursor < historyStop promptLen historyTokens stride →
    cursor + window ≤ historyStop promptLen historyTokens stride
  aligned : cursor + window < promptLen → ∀ b, stride ∣ b → cursor < b → b ≤ cursor + chunk → stride ∣ cursor + window

theorem prefillStepChunk_shortened (hchunk : 0 < chunk) :
    Shortened stride promptLen historyTokens cursor chunk
      (prefillStepChunk cursor chunk promptLen historyTokens (some stride)) := by
  have hrounded : (cursor + chunk) / stride * stride ≤ cursor + chunk := Nat.div_mul_le_self _ _
  unfold prefillStepChunk
  dsimp only
  split_ifs with hstop hend haligned
  · obtain ⟨hlt, hcut⟩ := hstop
    have hsum : cursor + (historyStop promptLen historyTokens stride - cursor) =
        historyStop promptLen historyTokens stride := Nat.add_sub_cancel' hlt.le
    refine ⟨by omega, by omega, fun _ => hsum.le, fun _ b _ _ _ => ?_⟩
    rw [hsum]
    exact dvd_historyStop
  · exact ⟨hchunk, le_refl _, fun hlt => not_lt.1 fun hcut => hstop ⟨hlt, hcut⟩, fun hlt => absurd hend hlt.ne⟩
  · have hsum : cursor + ((cursor + chunk) / stride * stride - cursor) = (cursor + chunk) / stride * stride :=
      Nat.add_sub_cancel' haligned.le
    refine ⟨by omega, by omega, fun hlt => ?_, fun _ b _ _ _ => ?_⟩
    · rw [hsum]
      exact hrounded.trans (not_lt.1 fun hcut => hstop ⟨hlt, hcut⟩)
    · rw [hsum]
      exact Nat.dvd_mul_left _ _
  · refine ⟨hchunk, le_refl _, fun hlt => not_lt.1 fun hcut => hstop ⟨hlt, hcut⟩, fun _ b hdvd hlt hle => ?_⟩
    exact absurd (hlt.trans_le (le_rounded hdvd hle)) haligned

/-! ## One step -/

/-- a request that is shortened within `chunk` tokens -/
def Cut (stride : ℕ+) (chunk : ℕ) (p : PrefillingRequest35 α) : Prop :=
  Shortened stride p.req.promptLen p.req.historyTokens p.cursor chunk p.stepChunk

/-- what `take_prefill_chunks` does to a queue -/
inductive Scheduled (stride : ℕ+) : ℕ → List (PrefillingRequest35 α) → List (PrefillingRequest35 α) →
    List (PrefillingRequest35 α) → Prop
  | stop (queue : List (PrefillingRequest35 α)) (budget : ℕ) (h : budget = 0 ∨ queue = []) :
      Scheduled stride budget queue [] queue
  | last (p : PrefillingRequest35 α) (queue : List (PrefillingRequest35 α)) (budget : ℕ) (hpos : 0 < budget)
      (hlt : budget < p.remaining) : Scheduled stride budget (p :: queue) [schedule (some stride) p budget] queue
  | next (p : PrefillingRequest35 α) (queue scheduled rest : List (PrefillingRequest35 α)) (budget : ℕ)
      (hle : p.remaining ≤ budget) (h : Scheduled stride (budget - p.remaining) queue scheduled rest) :
      Scheduled stride budget (p :: queue) (schedule (some stride) p p.remaining :: scheduled) rest

/-- every request of the queue has tokens left -/
def Waiting (queue : List (PrefillingRequest35 α)) : Prop := ∀ p ∈ queue, p.cursor < p.req.promptLen

theorem Waiting.remaining_pos (h : Waiting queue) (hin : p ∈ queue) : 0 < p.remaining := Nat.sub_pos_of_lt (h p hin)

theorem takePrefillChunks_scheduled (queue : List (PrefillingRequest35 α)) :
    ∀ budget, Waiting queue → Scheduled stride budget queue (takePrefillChunks queue budget (some stride)).1
      (takePrefillChunks queue budget (some stride)).2 := by
  induction queue with
  | nil => exact fun budget _ => .stop [] budget (.inr rfl)
  | cons p queue ih =>
    intro budget hwaiting
    have hrem : 0 < p.remaining := hwaiting.remaining_pos List.mem_cons_self
    have hchunks : planPrefillChunks ((p :: queue).map PrefillingRequest35.remaining) budget =
        if budget = 0 ∨ p.remaining = 0 then []
        else if min p.remaining budget < p.remaining then [min p.remaining budget]
        else min p.remaining budget ::
          planPrefillChunks (queue.map PrefillingRequest35.remaining) (budget - min p.remaining budget) := rfl
    unfold takePrefillChunks
    dsimp only
    rcases Nat.eq_zero_or_pos budget with rfl | hpos
    · rw [hchunks, if_pos (.inl rfl)]
      exact .stop _ 0 (.inl rfl)
    · rw [if_neg (by omega)] at hchunks
      rcases lt_or_ge budget p.remaining with hlt | hle
      · rw [min_eq_right hlt.le, if_pos hlt] at hchunks
        rw [hchunks]
        exact .last p queue budget hpos hlt
      · rw [min_eq_left hle, if_neg (lt_irrefl _)] at hchunks
        rw [hchunks]
        exact .next p queue _ _ budget hle (ih _ fun q hin => hwaiting q (List.mem_cons_of_mem _ hin))

namespace Scheduled

theorem front (h : Scheduled stride budget queue scheduled rest) :
    scheduled.map PrefillingRequest35.place = (queue.take scheduled.length).map PrefillingRequest35.place ∧
      rest = queue.drop scheduled.length := by
  induction h with
  | stop => exact ⟨rfl, rfl⟩
  | last => exact ⟨rfl, rfl⟩
  | next p queue scheduled rest budget hle h ih => exact ⟨congrArg (p.place :: ·) ih.1, ih.2⟩

/-- each request has a share: what the budget leaves after the prompts of the requests ahead of it -/
theorem cut (h : Scheduled stride budget queue scheduled rest) (hwaiting : Waiting queue) :
    ∀ i p, scheduled[i]? = some p → ∃ chunk, Cut stride chunk p ∧
      chunk = min p.remaining (budget - ((queue.take i).map PrefillingRequest35.remaining).sum) := by
  induction h with
  | stop => exact fun i p hp => absurd hp (by simp)
  | last p queue budget hpos hlt =>
    intro i q hq
    rcases i with _ | i
    · obtain rfl := Option.some.inj hq
      exact ⟨budget, prefillStepChunk_shortened hpos, (min_eq_right hlt.le).symm⟩
    · exact absurd hq (by simp)
  | next p queue scheduled rest budget hle h ih =>
    intro i q hq
    rcases i with _ | i
    · obtain rfl := Option.some.inj hq
      exact ⟨p.remaining, prefillStepChunk_shortened (hwaiting.remaining_pos List.mem_cons_self),
        (min_eq_left hle).symm⟩
    · obtain ⟨chunk, hcut, hchunk⟩ := ih (fun q hin => hwaiting q (List.mem_cons_of_mem _ hin)) i q hq
      refine ⟨chunk, hcut, ?_⟩
      rw [hchunk, List.take_succ_cons, List.map_cons, List.sum_cons, Nat.sub_add_eq]

theorem sum_le (h : Scheduled stride budget queue scheduled rest) (hwaiting : Waiting queue) :
    (scheduled.map PrefillingRequest35.stepChunk).sum ≤ budget := by
  induction h with
  | stop => exact Nat.zero_le _
  | last p queue budget hpos hlt =>
    rw [List.map_singleton, List.sum_singleton]
    exact (prefillStepChunk_shortened hpos).share
  | next p queue scheduled rest budget hle h ih =>
    have hshare : (schedule (some stride) p p.remaining).stepChunk ≤ p.remaining :=
      (prefillStepChunk_shortened (hwaiting.remaining_pos List.mem_cons_self)).share
    rw [List.map_cons, List.sum_cons]
    calc _ ≤ p.remaining + (budget - p.remaining) :=
          Nat.add_le_add hshare (ih fun q hin => hwaiting q (List.mem_cons_of_mem _ hin))
      _ = budget := Nat.add_sub_cancel' hle

theorem ne_nil (h : Scheduled stride budget queue scheduled rest) (hbudget : 0 < budget) (hqueue : queue ≠ []) :
    scheduled ≠ [] := by
  cases h with
  | stop _ _ h =>
    rcases h with hzero | hnil
    · exact absurd hzero hbudget.ne'
    · exact absurd hnil hqueue
  | last => exact List.cons_ne_nil _ _
  | next => exact List.cons_ne_nil _ _

/-- a window is not empty and ends within the prompt -/
theorem window (h : Scheduled stride budget queue scheduled rest) (hwaiting : Waiting queue) (hin : p ∈ scheduled) :
    p.cursor < p.stop ∧ p.stop ≤ p.req.promptLen ∧
      (p.cursor < historyStop p.req.promptLen p.req.historyTokens stride →
        p.stop ≤ historyStop p.req.promptLen p.req.historyTokens stride) := by
  obtain ⟨i, hi⟩ := List.mem_iff_getElem?.1 hin
  obtain ⟨chunk, hcut, hchunk⟩ := h.cut hwaiting i p hi
  have hle : p.stepChunk ≤ p.remaining := hcut.share.trans (hchunk ▸ min_le_left _ _)
  have hpos := hcut.positive
  unfold PrefillingRequest35.remaining at hle
  unfold PrefillingRequest35.stop
  exact ⟨by omega, by omega, hcut.history⟩

end Scheduled

/-- **What one step schedules.** -/
structure Planned (stride : ℕ+) (budget : ℕ) (queue scheduled rest : List (PrefillingRequest35 α)) : Prop where
  /-- the requests at the front, in order, with nothing but their windows set -/
  front : scheduled.map PrefillingRequest35.place = (queue.take scheduled.length).map PrefillingRequest35.place
  behind : rest = queue.drop scheduled.length
  budgeted : (scheduled.map PrefillingRequest35.stepChunk).sum ≤ budget
  head : queue ≠ [] → scheduled ≠ []
  positive : ∀ p ∈ scheduled, 0 < p.stepChunk
  withinPrompt : ∀ p ∈ scheduled, p.stop ≤ p.req.promptLen
  history : ∀ p ∈ scheduled, p.cursor < historyStop p.req.promptLen p.req.historyTokens stride →
    p.stop ≤ historyStop p.req.promptLen p.req.historyTokens stride
  /-- a boundary within the request's share, what the prompts ahead of it leave of the budget -/
  aligned : ∀ i p, scheduled[i]? = some p → p.stop < p.req.promptLen →
    ∀ b, (stride : ℕ) ∣ b → p.cursor < b → b ≤ p.req.promptLen →
      ((queue.take i).map PrefillingRequest35.remaining).sum + (b - p.cursor) ≤ budget → (stride : ℕ) ∣ p.stop

theorem takePrefillChunks_planned (hwaiting : Waiting queue) (hbudget : 0 < budget) :
    Planned stride budget queue (takePrefillChunks queue budget (some stride)).1
      (takePrefillChunks queue budget (some stride)).2 := by
  have h : Scheduled stride budget queue _ _ := takePrefillChunks_scheduled queue budget hwaiting
  generalize takePrefillChunks queue budget (some stride) = taken at h ⊢
  refine ⟨h.front.1, h.front.2, h.sum_le hwaiting, h.ne_nil hbudget, fun p hin => ?_,
    fun p hin => (h.window hwaiting hin).2.1, fun p hin => (h.window hwaiting hin).2.2, ?_⟩
  · obtain ⟨hlt, -⟩ := h.window hwaiting hin
    exact Nat.lt_of_add_lt_add_left hlt
  · intro i p hi hstop b hdvd hlt hle hreach
    obtain ⟨chunk, hcut, hchunk⟩ := h.cut hwaiting i p hi
    refine hcut.aligned hstop b hdvd hlt ?_
    rw [hchunk, PrefillingRequest35.remaining]
    omega

/-- the token slices are as long as the windows -/
theorem Planned.windows_length (h : Planned stride budget queue scheduled rest) :
    (ScheduledChunk.ofScheduled scheduled).windows.map List.length = scheduled.map PrefillingRequest35.stepChunk := by
  unfold ScheduledChunk.ofScheduled
  rw [List.map_map]
  refine List.map_congr_left fun p hin => ?_
  have hwithin : p.stop ≤ p.req.promptTokens.length := h.withinPrompt p hin
  change ((p.req.promptTokens.take p.stop).drop p.cursor).length = p.stepChunk
  rw [List.length_drop, List.length_take, min_eq_left hwithin, PrefillingRequest35.stop, Nat.add_sub_cancel_left]

/-! ## Repeated steps -/

inductive PrefillEvent (α : Type)
  /-- a request admitted with a restored prefix -/
  | admitRequest (req : QueuedRequest α) (cachedTokens : ℕ)
  /-- the requests the ledger reports as aborted leave the queue -/
  | prune (aborted : ℕ → Bool)
  | step (budget : ℕ) (aborted : ℕ → Bool)

structure PrefillState (α : Type) where
  prefilling : List (PrefillingRequest35 α)
  /-- the requests whose prompt is through, with their last cursor -/
  completed : List (QueuedRequest α × ℕ)

/-- the prefill queue's share of one scheduler tick -/
def PrefillState.advance (snapshotStride : Option ℕ+) (s : PrefillState α) : PrefillEvent α → PrefillState α
  | .admitRequest req cachedTokens => { s with prefilling := s.prefilling ++ [⟨req, cachedTokens, 0⟩] }
  | .prune aborted => { s with prefilling := s.prefilling.filter fun p => !aborted p.req.id }
  | .step budget aborted =>
    let taken := takePrefillChunks s.prefilling budget snapshotStride
    let settled := promoteOrRequeue aborted taken.2 (.ofScheduled taken.1)
    ⟨settled.2, s.completed ++ settled.1⟩

/-- what becomes of a scheduled request that is not done -/
def requeue (aborted : ℕ → Bool) (p : PrefillingRequest35 α) : Option (PrefillingRequest35 α) :=
  if aborted p.req.id then none else if p.stop < p.req.promptLen then some ⟨p.req, p.stop, 0⟩ else none

theorem promoteOrRequeue_queue (scheduled rest : List (PrefillingRequest35 α)) :
    (promoteOrRequeue aborted rest (.ofScheduled scheduled)).2 = scheduled.filterMap (requeue aborted) ++ rest := by
  unfold promoteOrRequeue ScheduledChunk.ofScheduled
  dsimp only
  congr 1
  induction scheduled with
  | nil => rfl
  | cons p scheduled ih =>
    rw [List.map_cons, List.map_cons, List.zip_cons_cons, List.filterMap_cons, requeue, ← ih]
    by_cases haborted : aborted p.req.id = true
    · simp [haborted]
    · by_cases hlt : p.stop < p.req.promptLen
      · simp [haborted, hlt]
      · simp [haborted, hlt]

theorem mem_completed (hin : p ∈ scheduled) (haborted : aborted p.req.id = false) (hstop : p.stop = p.req.promptLen) :
    (p.req, p.req.promptLen) ∈ (promoteOrRequeue aborted rest (.ofScheduled scheduled)).1 := by
  unfold promoteOrRequeue ScheduledChunk.ofScheduled
  dsimp only
  have hzip : (p.req, p.req.promptLen) ∈ (scheduled.map PrefillingRequest35.req).zip
      (scheduled.map PrefillingRequest35.stop) := by
    rw [List.zip_map', List.mem_map]
    exact ⟨p, hin, by rw [hstop]⟩
  exact List.mem_filter.2 ⟨List.mem_filter.2 ⟨hzip, by rw [haborted]; rfl⟩, by simp⟩

theorem remaining_mk {stepChunk : ℕ} :
    (⟨req, cursor, stepChunk⟩ : PrefillingRequest35 α).remaining = req.promptLen - cursor := rfl

/-- the tokens a queue still has to forward -/
def work (queue : List (PrefillingRequest35 α)) : ℕ := (queue.map PrefillingRequest35.remaining).sum

@[simp] theorem work_nil : work ([] : List (PrefillingRequest35 α)) = 0 := rfl

@[simp] theorem work_cons : work (p :: queue) = p.remaining + work queue := rfl

@[simp] theorem work_append : work (queue ++ rest) = work queue + work rest := by
  rw [work, List.map_append, List.sum_append, work, work]

theorem work_congr (h : queue.map PrefillingRequest35.place = rest.map PrefillingRequest35.place) :
    work queue = work rest := by
  have hmap : ∀ l : List (PrefillingRequest35 α), l.map PrefillingRequest35.remaining =
      (l.map PrefillingRequest35.place).map fun e => e.1.promptLen - e.2 := by
    intro l
    rw [List.map_map]
    rfl
  rw [work, work, hmap, hmap, h]

/-- every scheduled request takes work off the queue, whether it returns or not -/
theorem work_requeue (aborted : ℕ → Bool)
    (hwindow : ∀ p ∈ scheduled, p.cursor < p.stop ∧ p.stop ≤ p.req.promptLen) :
    work (scheduled.filterMap (requeue aborted)) + scheduled.length ≤ work scheduled := by
  induction scheduled with
  | nil => exact le_refl _
  | cons p scheduled ih =>
    have hrest := ih fun q hin => hwindow q (List.mem_cons_of_mem _ hin)
    obtain ⟨hlt, hle⟩ := hwindow p List.mem_cons_self
    rw [List.filterMap_cons, work_cons, List.length_cons]
    have hrem : p.remaining = p.req.promptLen - p.cursor := rfl
    by_cases haborted : aborted p.req.id = true
    · rw [requeue, if_pos haborted]
      dsimp only
      omega
    · by_cases hstop : p.stop < p.req.promptLen
      · rw [requeue, if_neg haborted, if_pos hstop]
        dsimp only
        rw [work_cons, remaining_mk]
        omega
      · rw [requeue, if_neg haborted, if_neg hstop]
        dsimp only
        omega

theorem work_filter_le (keep : PrefillingRequest35 α → Bool) : work (queue.filter keep) ≤ work queue :=
  (List.filter_sublist.map PrefillingRequest35.remaining).sum_le_sum fun _ _ => Nat.zero_le _

/-- a place no window of a request goes past -/
def Barrier (stride : ℕ+) (req : QueuedRequest α) (target : ℕ) : Prop :=
  target = req.promptLen ∨ target = historyStop req.promptLen req.historyTokens stride

/-- a request before a target, and the work up to it -/
def Pending (req : QueuedRequest α) (target n : ℕ) (s : PrefillState α) : Prop :=
  Waiting s.prefilling ∧ ∃ ahead p behind, s.prefilling = ahead ++ p :: behind ∧ p.req = req ∧ p.cursor < target ∧
    work ahead + p.remaining = n

/-- a request's cursor stands at a place -/
def StandsAt (req : QueuedRequest α) (target : ℕ) (s : PrefillState α) : Prop :=
  (∃ p ∈ s.prefilling, p.req = req ∧ p.cursor = target) ∨ (req, target) ∈ s.completed

theorem Barrier.le (h : Barrier stride req target) : target ≤ req.promptLen := by
  rcases h with rfl | rfl
  · exact le_refl _
  · exact historyStop_le

theorem Scheduled.stop_le_barrier (h : Scheduled stride budget queue scheduled rest) (hwaiting : Waiting queue)
    (hin : p ∈ scheduled) (hbarrier : Barrier stride p.req target) (hlt : p.cursor < target) : p.stop ≤ target := by
  obtain ⟨-, hprompt, hhistory⟩ := h.window hwaiting hin
  rcases hbarrier with rfl | rfl
  · exact hprompt
  · exact hhistory hlt

theorem Scheduled.waiting (h : Scheduled stride budget queue scheduled rest) (hwaiting : Waiting queue)
    (aborted : ℕ → Bool) :
    Waiting (scheduled.filterMap (requeue aborted) ++ rest) := by
  intro p hin
  rcases List.mem_append.1 hin with hin | hin
  · obtain ⟨q, -, hq⟩ := List.mem_filterMap.1 hin
    unfold requeue at hq
    split_ifs at hq with haborted hlt
    obtain rfl := Option.some.inj hq
    exact hlt
  · rw [h.front.2] at hin
    exact hwaiting p (List.mem_of_mem_drop hin)

/-- the requests scheduled ahead of a place stand for as many requests of the queue -/
theorem Scheduled.work_take (h : Scheduled stride budget queue scheduled rest) {i : ℕ} (hi : i ≤ scheduled.length) :
    work (scheduled.take i) = work (queue.take i) := by
  apply work_congr
  rw [List.map_take, h.front.1, ← List.map_take, List.take_take, min_eq_left hi]

/-- a step that does not get as far as a request -/
theorem Scheduled.pending_behind {ahead behind : List (PrefillingRequest35 α)}
    (h : Scheduled stride budget (ahead ++ p :: behind) scheduled rest) (hwaiting : Waiting (ahead ++ p :: behind))
    (aborted : ℕ → Bool) (hfar : scheduled.length ≤ ahead.length) :
    ∃ ahead', scheduled.filterMap (requeue aborted) ++ rest = ahead' ++ p :: behind ∧
      work ahead' + scheduled.length ≤ work ahead := by
  refine ⟨scheduled.filterMap (requeue aborted) ++ ahead.drop scheduled.length, ?_, ?_⟩
  · rw [h.front.2, List.drop_append_of_le_length hfar, List.append_assoc]
  · have hcut := work_requeue aborted fun q hin =>
      ⟨(h.window hwaiting hin).1, (h.window hwaiting hin).2.1⟩
    have htake := h.work_take le_rfl
    rw [List.take_length, List.take_append_of_le_length hfar] at htake
    have hsplit : work (ahead.take scheduled.length) + work (ahead.drop scheduled.length) = work ahead := by
      rw [← work_append, List.take_append_drop]
    rw [work_append]
    omega

/-- a step that schedules a request -/
theorem Scheduled.split {ahead behind : List (PrefillingRequest35 α)}
    (h : Scheduled stride budget (ahead ++ p :: behind) scheduled rest) (hnear : ahead.length < scheduled.length) :
    ∃ q before after, scheduled = before ++ q :: after ∧ q.place = p.place ∧ work before = work ahead := by
  have hplaces : (scheduled.map PrefillingRequest35.place)[ahead.length]? = some p.place := by
    rw [h.front.1, List.getElem?_map, List.getElem?_take_of_lt hnear,
      List.getElem?_append_right (le_refl _), Nat.sub_self]
    rfl
  rw [List.getElem?_map] at hplaces
  obtain ⟨q, hq, hplace⟩ := Option.map_eq_some_iff.1 hplaces
  refine ⟨q, scheduled.take ahead.length, scheduled.drop (ahead.length + 1), ?_, hplace, ?_⟩
  · obtain ⟨hlt, rfl⟩ := List.getElem?_eq_some_iff.1 hq
    rw [← List.drop_eq_getElem_cons hlt, List.take_append_drop]
  · rw [h.work_take hnear.le, List.take_append_of_le_length (le_refl _), List.take_length]

/-- what one step does to a request before a target -/
theorem pending_step (budget : ℕ) (hbarrier : Barrier stride req target) (haborted : aborted req.id = false) {n : ℕ}
    {s : PrefillState α} (hpending : Pending req target n s) :
    StandsAt req target (s.advance (some stride) (.step budget aborted)) ∨
      ∃ m, Pending req target m (s.advance (some stride) (.step budget aborted)) ∧ m ≤ n ∧ (0 < budget → m < n) := by
  obtain ⟨hwaiting, ahead, p, behind, hqueue, rfl, hlt, rfl⟩ := hpending
  have h : Scheduled stride budget s.prefilling _ _ := takePrefillChunks_scheduled s.prefilling budget hwaiting
  have hwaiting' := h.waiting hwaiting aborted
  have hnext : (s.advance (some stride) (.step budget aborted)).prefilling =
      (takePrefillChunks s.prefilling budget (some stride)).1.filterMap (requeue aborted) ++
        (takePrefillChunks s.prefilling budget (some stride)).2 := promoteOrRequeue_queue _ _
  have hdone : (s.advance (some stride) (.step budget aborted)).completed = s.completed ++
      (promoteOrRequeue aborted (takePrefillChunks s.prefilling budget (some stride)).2
        (.ofScheduled (takePrefillChunks s.prefilling budget (some stride)).1)).1 := rfl
  generalize s.advance (some stride) (.step budget aborted) = next at hnext hdone ⊢
  generalize takePrefillChunks s.prefilling budget (some stride) = taken at h hwaiting' hnext hdone
  rw [hqueue] at h hwaiting
  rcases le_or_gt taken.1.length ahead.length with hfar | hnear
  · obtain ⟨ahead', hsplit, hwork⟩ := h.pending_behind hwaiting aborted hfar
    refine .inr ⟨_, ⟨hnext ▸ hwaiting', ahead', p, behind, hnext.trans hsplit, rfl, hlt, rfl⟩, by omega, ?_⟩
    intro hbudget
    have hpos : 0 < taken.1.length := List.length_pos_iff.2 (h.ne_nil hbudget (by simp))
    omega
  · obtain ⟨q, before, after, hscheduled, hplace, hbefore⟩ := h.split hnear
    have hreq : q.req = p.req := congrArg Prod.fst hplace
    have hcursor : q.cursor = p.cursor := congrArg Prod.snd hplace
    have hin : q ∈ taken.1 := hscheduled ▸ List.mem_append_right _ List.mem_cons_self
    obtain ⟨hforward, hprompt, -⟩ := h.window hwaiting hin
    have hstop : q.stop ≤ target := h.stop_le_barrier hwaiting hin (hreq ▸ hbarrier) (hcursor ▸ hlt)
    have hkept : ¬ aborted q.req.id = true := by rw [hreq, haborted]; exact Bool.false_ne_true
    have hsplit : q.stop < q.req.promptLen →
        next.prefilling = before.filterMap (requeue aborted) ++
          ⟨q.req, q.stop, 0⟩ :: (after.filterMap (requeue aborted) ++ taken.2) := by
      intro hunfinished
      have hrequeue : requeue aborted q = some ⟨q.req, q.stop, 0⟩ := by rw [requeue, if_neg hkept, if_pos hunfinished]
      rw [hnext, hscheduled, List.filterMap_append, List.filterMap_cons_some hrequeue, List.append_assoc,
        List.cons_append]
    rcases hstop.lt_or_eq with hshort | hreached
    · have hunfinished : q.stop < q.req.promptLen := hshort.trans_le (hreq ▸ hbarrier.le)
      have hwindow : ∀ r ∈ before, r.cursor < r.stop ∧ r.stop ≤ r.req.promptLen := by
        intro r hr
        obtain ⟨hlt', hle, -⟩ := h.window hwaiting (hscheduled ▸ List.mem_append_left _ hr)
        exact ⟨hlt', hle⟩
      have hwork := work_requeue aborted hwindow
      have hrem : (⟨q.req, q.stop, 0⟩ : PrefillingRequest35 α).remaining < p.remaining := by
        rw [remaining_mk, PrefillingRequest35.remaining, ← hreq, ← hcursor]
        omega
      exact .inr ⟨_, ⟨hnext ▸ hwaiting', _, _, _, hsplit hunfinished, hreq, hshort, rfl⟩, by omega, fun _ => by omega⟩
    · refine .inl ?_
      rcases hprompt.lt_or_eq with hunfinished | hfinished
      · refine .inl ⟨⟨q.req, q.stop, 0⟩, ?_, hreq, hreached⟩
        rw [hsplit hunfinished]
        exact List.mem_append_right _ List.mem_cons_self
      · have hmem : (q.req, q.req.promptLen) ∈ (promoteOrRequeue aborted taken.2 (.ofScheduled taken.1)).1 :=
          mem_completed hin (Bool.not_eq_true _ ▸ hkept) hfinished
        rw [← hfinished, hreached, hreq] at hmem
        exact .inr (hdone ▸ List.mem_append_right _ hmem)

/-- an event admits requests with tokens left, and does not find `req` aborted -/
def PrefillEvent.Spares (req : QueuedRequest α) : PrefillEvent α → Prop
  | .admitRequest admitted cachedTokens => cachedTokens < admitted.promptLen
  | .prune aborted => aborted req.id = false
  | .step _ aborted => aborted req.id = false

/-- a step with a budget; a policy may also hold prefill back for a tick -/
def PrefillEvent.productive : PrefillEvent α → Bool
  | .admitRequest _ _ => false
  | .prune _ => false
  | .step budget _ => decide (0 < budget)

variable {s : PrefillState α} {event : PrefillEvent α} {events : List (PrefillEvent α)}

theorem advance_waiting (h : Waiting s.prefilling) (hspares : event.Spares req) :
    Waiting (s.advance (some stride) event).prefilling := by
  cases event with
  | admitRequest admitted cachedTokens =>
    intro p hin
    rcases List.mem_append.1 hin with hin | hin
    · exact h p hin
    · obtain rfl := List.mem_singleton.1 hin
      exact hspares
  | prune aborted => exact fun p hin => h p (List.mem_filter.1 hin).1
  | step budget aborted =>
    have hscheduled : Scheduled stride budget s.prefilling _ _ := takePrefillChunks_scheduled s.prefilling budget h
    have hwaiting := hscheduled.waiting h aborted
    rwa [← promoteOrRequeue_queue] at hwaiting

theorem completed_advance : s.completed ⊆ (s.advance (some stride) event).completed := by
  cases event with
  | admitRequest => exact List.Subset.refl _
  | prune => exact List.Subset.refl _
  | step => exact List.subset_append_left _ _

theorem foldl_waiting (hspares : ∀ event ∈ events, event.Spares req) : ∀ s : PrefillState α, Waiting s.prefilling →
    Waiting (events.foldl (PrefillState.advance (some stride)) s).prefilling := by
  induction events with
  | nil => exact fun s h => h
  | cons event events ih =>
    exact fun s h => ih (fun e hin => hspares e (List.mem_cons_of_mem _ hin)) _
      (advance_waiting h (hspares event List.mem_cons_self))

theorem completed_foldl : ∀ s : PrefillState α,
    s.completed ⊆ (events.foldl (PrefillState.advance (some stride)) s).completed := by
  induction events with
  | nil => exact fun s => List.Subset.refl _
  | cons event events ih => exact fun s => List.Subset.trans completed_advance (ih _)

theorem pending_ranked (hbarrier : Barrier stride req target) :
    Ranked (PrefillState.advance (some stride)) (PrefillEvent.Spares req) PrefillEvent.productive (Pending req target)
      (StandsAt req target) := by
  have hkeep : ∀ n (s : PrefillState α) event, event.Spares req → Pending req target n s →
      StandsAt req target (s.advance (some stride) event) ∨
        ∃ m, Pending req target m (s.advance (some stride) event) ∧ m ≤ n ∧ (event.productive = true → m < n) := by
    intro n s event hspares hpending
    cases event with
    | admitRequest admitted cachedTokens =>
      have hwaiting : Waiting (s.advance (some stride) (.admitRequest admitted cachedTokens)).prefilling :=
        advance_waiting hpending.1 hspares
      obtain ⟨-, ahead, p, behind, hqueue, hreq, hlt, hwork⟩ := hpending
      refine .inr ⟨n, ⟨hwaiting, ahead, p, behind ++ [⟨admitted, cachedTokens, 0⟩], ?_, hreq, hlt, hwork⟩, le_refl _,
        fun h => absurd h Bool.false_ne_true⟩
      change s.prefilling ++ _ = _
      rw [hqueue, List.append_assoc, List.cons_append]
    | prune aborted =>
      have hwaiting : Waiting (s.advance (some stride) (.prune aborted)).prefilling :=
        advance_waiting hpending.1 hspares
      obtain ⟨-, ahead, p, behind, hqueue, rfl, hlt, rfl⟩ := hpending
      refine .inr ⟨_, ⟨hwaiting, ahead.filter fun p => !aborted p.req.id, p,
        behind.filter fun p => !aborted p.req.id, ?_, rfl, hlt, rfl⟩, Nat.add_le_add_right (work_filter_le _) _,
        fun h => absurd h Bool.false_ne_true⟩
      change s.prefilling.filter _ = _
      have hspared : aborted p.req.id = false := hspares
      rw [hqueue, List.filter_append, List.filter_cons_of_pos (by rw [hspared]; rfl)]
    | step budget aborted =>
      rcases pending_step budget hbarrier hspares hpending with hat | ⟨m, hpending, hle, hlt⟩
      · exact .inl hat
      · exact .inr ⟨m, hpending, hle, fun h => hlt (of_decide_eq_true h)⟩
  refine ⟨fun s hpending => ?_, fun n s event hspares hpending => ?_, fun n s event hspares hprod hpending => ?_⟩
  · obtain ⟨hwaiting, ahead, p, behind, hqueue, -, -, hwork⟩ := hpending
    have hpos := hwaiting.remaining_pos (hqueue ▸ List.mem_append_right _ List.mem_cons_self)
    omega
  · rcases hkeep n s event hspares hpending with hat | ⟨m, hpending, hle, -⟩
    · exact .inl hat
    · exact .inr ⟨m, hle, hpending⟩
  · rcases hkeep n s event hspares hpending with hat | ⟨m, hpending, -, hlt⟩
    · exact .inl hat
    · exact .inr ⟨m, hlt hprod, hpending⟩

/-- **Over repeated steps a request stops at its history stop and at its prompt's end.** -/
theorem prefilling_reaches {ahead behind : List (PrefillingRequest35 α)} (hwaiting : Waiting s.prefilling)
    (hqueue : s.prefilling = ahead ++ p :: behind) (hspares : ∀ event ∈ events, event.Spares p.req)
    (hcount : work ahead + p.remaining ≤ events.countP PrefillEvent.productive) :
    (p.req, p.req.promptLen) ∈ (events.foldl (PrefillState.advance (some stride)) s).completed ∧
      (p.cursor < historyStop p.req.promptLen p.req.historyTokens stride →
        ∃ init, init <+: events ∧ StandsAt p.req (historyStop p.req.promptLen p.req.historyTokens stride)
          (init.foldl (PrefillState.advance (some stride)) s)) := by
  have hreach : ∀ target, Barrier stride p.req target → p.cursor < target →
      ∃ init, init <+: events ∧ StandsAt p.req target (init.foldl (PrefillState.advance (some stride)) s) :=
    fun target hbarrier hlt => (pending_ranked hbarrier).eventually events _ s hspares
      ⟨hwaiting, ahead, p, behind, hqueue, rfl, hlt, rfl⟩ hcount
  refine ⟨?_, fun hlt => hreach _ (.inr rfl) hlt⟩
  obtain ⟨init, ⟨later, rfl⟩, hat⟩ :=
    hreach _ (.inl rfl) (hwaiting p (hqueue ▸ List.mem_append_right _ List.mem_cons_self))
  rw [List.foldl_append]
  apply completed_foldl
  rcases hat with ⟨q, hin, hreq, hcursor⟩ | hdone
  · have hwaiting' : Waiting (init.foldl (PrefillState.advance (some stride)) s).prefilling :=
      foldl_waiting (fun e he => hspares e (List.mem_append_left _ he)) s hwaiting
    have hlt := hwaiting' q hin
    rw [hreq, hcursor] at hlt
    exact absurd hlt (lt_irrefl _)
  · exact hdone

/-- the run of a queue: every request of it reaches its prompt's end, by way of its history stop -/
def Drains (stride : ℕ+) (s : PrefillState α) : Prop :=
  ∀ ahead p behind events, s.prefilling = ahead ++ p :: behind →
    (∀ event ∈ events, PrefillEvent.Spares p.req event) →
    work ahead + p.remaining ≤ events.countP PrefillEvent.productive →
      (p.req, p.req.promptLen) ∈ (events.foldl (PrefillState.advance (some stride)) s).completed ∧
        (p.cursor < historyStop p.req.promptLen p.req.historyTokens stride →
          ∃ init, init <+: events ∧ StandsAt p.req (historyStop p.req.promptLen p.req.historyTokens stride)
            (init.foldl (PrefillState.advance (some stride)) s))

/-- **Prefill chunk planning.** A step with a budget plans a front of the queue within the budget, each request's window
ending at the stops within its share; repeated steps bring every request to its prompt's end. -/
theorem prefill_chunk_planning (stride : ℕ+) (s : PrefillState α) (hwaiting : Waiting s.prefilling) :
    (∀ budget, 0 < budget → Planned stride budget s.prefilling
        (takePrefillChunks s.prefilling budget (some stride)).1
        (takePrefillChunks s.prefilling budget (some stride)).2) ∧
      Drains stride s :=
  ⟨fun _ hbudget => takePrefillChunks_planned hwaiting hbudget,
    fun _ _ _ _ hqueue hspares hcount => prefilling_reaches hwaiting hqueue hspares hcount⟩

/-- a chat turn of ten tokens, seven of them history, and a request behind it -/
def chatTurn : PrefillState ℕ :=
  ⟨[⟨⟨0, [1, 2, 3, 4, 5, 6, 7, 8, 9, 10], some 7⟩, 0, 0⟩, ⟨⟨1, [1, 2, 3], none⟩, 1, 0⟩], []⟩

theorem prefill_chunk_planning_chatTurn :
    (∀ budget, 0 < budget → Planned 4 budget chatTurn.prefilling
        (takePrefillChunks chatTurn.prefilling budget (some 4)).1
        (takePrefillChunks chatTurn.prefilling budget (some 4)).2) ∧
      Drains 4 chatTurn :=
  prefill_chunk_planning 4 chatTurn (by unfold Waiting chatTurn; decide)

/-- a prompt of `n` equal tokens -/
def samePrompt (id n : ℕ) : QueuedRequest ℕ := ⟨id, List.replicate n 1, none⟩

theorem promptLen_samePrompt (id n : ℕ) : (samePrompt id n).promptLen = n := List.length_replicate

/-- a prompt of 900 tokens ahead of a long one restored up to its first boundary -/
def longBehindShort : List (PrefillingRequest35 ℕ) := [⟨samePrompt 0 900, 0, 0⟩, ⟨samePrompt 1 4160, 256, 0⟩]

/-- the first window is cut from 900 tokens to 768, but the second request's share is still 124 tokens -/
theorem take_longBehindShort : (takePrefillChunks longBehindShort 1024 (some 256)).1 =
    [⟨samePrompt 0 900, 0, 768⟩, ⟨samePrompt 1 4160, 256, 124⟩] := by
  have hremaining : longBehindShort.map PrefillingRequest35.remaining = [900, 3904] := by
    rw [longBehindShort, List.map_cons, List.map_singleton, remaining_mk, remaining_mk, promptLen_samePrompt,
      promptLen_samePrompt]
  have hchunks : planPrefillChunks [900, 3904] 1024 = [900, 124] := by decide
  have hcut : prefillStepChunk 0 900 900 none (some 256) = 768 := by decide
  have hshare : prefillStepChunk 256 124 4160 none (some 256) = 124 := by decide
  have hfirst : schedule (some 256) ⟨samePrompt 0 900, 0, 0⟩ 900 = ⟨samePrompt 0 900, 0, 768⟩ := by
    rw [schedule, promptLen_samePrompt, samePrompt, hcut]
  have hsecond : schedule (some 256) ⟨samePrompt 1 4160, 256, 0⟩ 124 = ⟨samePrompt 1 4160, 256, 124⟩ := by
    rw [schedule, promptLen_samePrompt, samePrompt, hshare]
  rw [takePrefillChunks, hremaining, hchunks]
  change [schedule (some 256) _ 900, schedule (some 256) _ 124] = _
  rw [hfirst, hsecond]

/-- the budget the first window leaves unused would reach the second request's next boundary -/
theorem prefill_share_unaligned :
    ¬ ∀ (stride : ℕ+) (queue : List (PrefillingRequest35 ℕ)) (budget : ℕ), Waiting queue → 0 < budget →
      ∀ i p, (takePrefillChunks queue budget (some stride)).1[i]? = some p → p.stop < p.req.promptLen →
        ∀ b, (stride : ℕ) ∣ b → p.cursor < b → b ≤ p.req.promptLen →
          (((takePrefillChunks queue budget (some stride)).1.take i).map PrefillingRequest35.stepChunk).sum +
            (b - p.cursor) ≤ budget → (stride : ℕ) ∣ p.stop := by
  intro h
  have hwaiting : Waiting longBehindShort := by
    intro p hin
    rcases List.mem_cons.1 hin with rfl | hin
    · rw [promptLen_samePrompt]
      decide
    · obtain rfl := List.mem_singleton.1 hin
      rw [promptLen_samePrompt]
      decide
  have hsecond : (takePrefillChunks longBehindShort 1024 (some 256)).1[1]? = some ⟨samePrompt 1 4160, 256, 124⟩ := by
    rw [take_longBehindShort]
    rfl
  have hfits : (((takePrefillChunks longBehindShort 1024 (some 256)).1.take 1).map
      PrefillingRequest35.stepChunk).sum + (512 - (⟨samePrompt 1 4160, 256, 124⟩ : PrefillingRequest35 ℕ).cursor) ≤
        1024 := by
    rw [take_longBehindShort]
    decide
  have hunfinished : 256 + 124 < (samePrompt 1 4160).promptLen := by
    rw [promptLen_samePrompt]
    decide
  have hwithin : 512 ≤ (samePrompt 1 4160).promptLen := by
    rw [promptLen_samePrompt]
    decide
  have haligned : 256 ∣ 256 + 124 :=
    h 256 longBehindShort 1024 hwaiting (by decide) 1 _ hsecond hunfinished 512 (by decide) (by decide) hwithin hfits
  exact absurd haligned (by decide)

end Pegainfer.Qwen35
