/-
How far one request's prefill has come, followed through the queues of the scheduler and the calls on its executor.

The scheduler keeps a request's prefill position in its queues, the executor keeps the KV behind it. `stage e (some p)`
says that the executor can go on with the request from position `p`, `stage e none` that nothing more is asked of it.
- `Stages`: what every call on the executor does to the stages of one request.
- `Tracked`: the request is in one place, and a queue that holds it holds it at the stage of the executor.
- `step_tracked`: one step of the scheduler keeps that, under request-local chunking.
- `run_tracked`: so does a run that submits the request at most once.
-/
import Mathlib.Tactic
import Pegainfer.Qwen3.Chunks
import Pegainfer.Qwen3.Names

set_option linter.unusedSectionVars false

namespace Pegainfer.Qwen3

open Pegainfer.Frontend
open Pegainfer.Lib
open ModelExecutor

variable {E : Type} [ModelExecutor E] {i : RequestId} {r : Request} {maxPrefillTokens : ℕ}
  {stage : E → Option ℕ → Prop}

/-! ## One request in a queue -/

/-- how often the request is in a queue -/
def tally (i : RequestId) (queue : List PendingRequest) : ℕ := (ids queue).count i

/-- what is asked of the request, wherever it is in the queue -/
def On (i : RequestId) (P : PendingRequest → Prop) (queue : List PendingRequest) : Prop :=
  ∀ req ∈ queue, req.requestId = i → P req

@[simp] theorem tally_nil : tally i [] = 0 := rfl

@[simp] theorem tally_append (a b : List PendingRequest) : tally i (a ++ b) = tally i a + tally i b := by
  rw [tally, ids_append, Multiset.count_add]
  rfl

theorem tally_cons (req : PendingRequest) (queue : List PendingRequest) :
    tally i (req :: queue) = tally i queue + if req.requestId = i then 1 else 0 := by
  rw [tally, ids_cons, Multiset.count_cons, tally]
  by_cases hid : req.requestId = i
  · rw [if_pos hid, if_pos hid.symm]
  · rw [if_neg hid, if_neg (Ne.symm hid)]

theorem activeIds_count_concat (active : List ActiveRequestState) (req : ActiveRequestState) :
    (activeIds (active ++ [req])).count i = (activeIds active).count i + if req.requestId = i then 1 else 0 := by
  rw [activeIds_concat, Multiset.count_cons]
  by_cases hid : req.requestId = i
  · rw [if_pos hid, if_pos hid.symm]
  · rw [if_neg hid, if_neg (Ne.symm hid)]

theorem tally_pos {req : PendingRequest} {queue : List PendingRequest} (h : req ∈ queue) (hi : req.requestId = i) :
    1 ≤ tally i queue := by
  rw [tally, Multiset.one_le_count_iff_mem]
  exact List.mem_map.2 ⟨req, h, hi⟩

theorem tally_sum {a b c : List PendingRequest} (h : ids a + ids b = ids c) : tally i a + tally i b = tally i c := by
  have := congrArg (Multiset.count i) h
  rwa [Multiset.count_add] at this

namespace On

variable {P Q : PendingRequest → Prop} {a b : List PendingRequest}

theorem nil : On i P [] := fun _ hmem => absurd hmem List.not_mem_nil

theorem of_tally (h : tally i a = 0) : On i P a := by
  intro req hreq hi
  have := tally_pos hreq hi
  omega

theorem subset (h : On i P b) (hs : a ⊆ b) : On i P a := fun req hreq => h req (hs hreq)

theorem imp (h : On i P a) (hPQ : ∀ req, P req → Q req) : On i Q a := fun req hreq hi => hPQ req (h req hreq hi)

theorem append (ha : On i P a) (hb : On i P b) : On i P (a ++ b) := by
  intro req hreq
  rcases List.mem_append.1 hreq with hreq | hreq
  · exact ha req hreq
  · exact hb req hreq

theorem cons {req : PendingRequest} (hreq : req.requestId = i → P req) (ha : On i P a) : On i P (req :: a) := by
  intro x hx
  rcases List.mem_cons.1 hx with rfl | hx
  · exact hreq
  · exact ha x hx

end On

/-- the kept rows are some of the rows -/
theorem swapRemoveAll_subperm {α : Type} (is : List ℕ) (l kept : List α) (h : swapRemoveAll l is = .ok kept) :
    kept.Subperm l := by
  induction is generalizing l with
  | nil =>
    cases h
    exact List.Subperm.refl _
  | cons i is ih =>
    simp only [swapRemoveAll] at h
    split_ifs at h with hi
    refine (ih _ h).trans ?_
    exact ((List.sublist_cons_self _ _).subperm).trans
      (swapRemove_perm l i l[i] (List.getElem?_eq_getElem hi)).symm.subperm

/-! ## What calls do to a request's stage -/

/-- the request's own, at the stage of the executor -/
def Staged (r : Request) (stage : E → Option ℕ → Prop) (e : E) (req : PendingRequest) : Prop :=
  req.Of r ∧ stage e (some req.prefillPos)

/-- admitted: a scored prompt fits the prefill bound -/
def Admissible (r : Request) (maxPrefillTokens : ℕ) : Prop :=
  r.promptLogprobs.isSome → r.promptTokens.length ≤ maxPrefillTokens

/-- a prefill item of the request goes on from the request's stage, with the chunk due there -/
structure Due (r : Request) (maxPrefillTokens : ℕ) (stage : E → Option ℕ → Prop) (e : E) (item : PrefillStepItem) :
    Prop where
  of : item.Of r
  admissible : Admissible r maxPrefillTokens
  at_stage : ∃ p, stage e (some p) ∧
    (r.promptLogprobs = none → item.chunkBudget = min (r.promptTokens.length - p) maxPrefillTokens)

/-- a call that touches the request ends its stage, any other keeps it -/
structure Touches (i : RequestId) (stage : E → Option ℕ → Prop) (touched : List RequestId) (e e' : E) : Prop where
  rest : stage e none → stage e' none
  other : i ∉ touched → ∀ o, stage e o → stage e' o

/-- where an answered prefill leaves its request -/
def Advances (i : RequestId) (stage : E → Option ℕ → Prop) (e' : E) (results : List PrefillRequestResult) : Prop :=
  ∀ res ∈ results, res.requestId = i → res.completed = false → stage e' (some res.prefillPos)

/-- what every call does to the stages of the request -/
structure Stages (i : RequestId) (r : Request) (maxPrefillTokens : ℕ) (stage : E → Option ℕ → Prop) : Prop where
  rest : ∀ {e : E} {o}, stage e o → stage e none
  serial : ∀ e : E, hasDecodeOverlap e = false
  drop : ∀ (e : E) id, Touches i stage [id] e (dropRequest e id)
  begun : ∀ (e : E) id prompt lora floor o, stage e o → stage (beginKvPrefetch e id prompt lora floor).2 o
  drained : ∀ (e : E) floor o, stage e o → stage (drainReadyPrefetch e floor).2 o
  waited : ∀ (e : E) floor o, stage e o → stage (waitReadyPrefetch e floor).2 o
  control : ∀ (e : E) command o, stage e o → stage (handleLora e command) o
  draft : ∀ (e : E) items, Touches i stage (items.map (·.requestId)) e (executeSpeculativeDraft e items).2
  verify : ∀ (e : E) items gated, Touches i stage (items.map (·.requestId)) e (executeSpeculativeVerify e items gated).2
  decode : ∀ (e : E) items, Touches i stage (items.map (·.requestId)) e (executeDecode e items).2
  prefill : ∀ (e : E) items, (items.map (·.requestId)).count i ≤ 1 →
    (∀ item ∈ items, item.requestId = i → Due r maxPrefillTokens stage e item) →
    Touches i stage (items.map (·.requestId)) e (executePrefill e items).2 ∧
      ∀ results, (executePrefill e items).1 = .ok results → Advances i stage (executePrefill e items).2 results
  unified : ∀ (e : E) items decodes, (items.map (·.requestId)).count i + (decodes.map (·.requestId)).count i ≤ 1 →
    (∀ item ∈ items, item.requestId = i → Due r maxPrefillTokens stage e item) →
    Touches i stage (items.map (·.requestId) ++ decodes.map (·.requestId)) e (executeUnified e items decodes).2 ∧
      ∀ result, (executeUnified e items decodes).1 = .ok result →
        Advances i stage (executeUnified e items decodes).2 result.prefillRequests

theorem Touches.trans {touched touched' : List RequestId} {e e' e'' : E} (h : Touches i stage touched e e')
    (h' : Touches i stage touched' e' e'') : Touches i stage (touched ++ touched') e e'' := by
  refine ⟨fun hr => h'.rest (h.rest hr), fun hi o ho => ?_⟩
  rw [List.mem_append, not_or] at hi
  exact h'.other hi.2 o (h.other hi.1 o ho)

theorem Staged.carry {e e' : E} {req : PendingRequest} (h : Staged r stage e req)
    (hs : stage e (some req.prefillPos) → stage e' (some req.prefillPos)) : Staged r stage e' req := ⟨h.1, hs h.2⟩

/-! ## The scheduler -/

namespace Qwen3Scheduler

/-- places of the request in the queues -/
def placesOf (i : RequestId) (s : Qwen3Scheduler E) : ℕ :=
  tally i s.deferred + tally i s.loading + tally i s.postControlDeferred + tally i s.prefilling +
    (activeIds s.active).count i

/-- the request has at most one place: in a queue, among `held` (not submitted yet), or elsewhere (`out` times) -/
structure Tracked (i : RequestId) (r : Request) (maxPrefillTokens : ℕ) (stage : E → Option ℕ → Prop)
    (held : List PendingRequest) (out : ℕ) (s : Qwen3Scheduler E) : Prop where
  once : s.placesOf i + tally i held + out ≤ 1
  held : On i (Staged r stage s.executor) held
  deferred : On i (Staged r stage s.executor) s.deferred
  loading : On i (Staged r stage s.executor) s.loading
  post : On i (Staged r stage s.executor) s.postControlDeferred
  prefilling : On i (Staged r stage s.executor) s.prefilling
  admitted : On i (fun _ => Admissible r maxPrefillTokens) s.prefilling
  rest : stage s.executor none
  inflight : s.inflightPrefillPending = none
  chunking : s.maxPrefillTokens = maxPrefillTokens ∧ s.requestLocal = true

variable {s s' : Qwen3Scheduler E} {l l' : RequestLedger} {held : List PendingRequest} {out : ℕ}

namespace Tracked

theorem less (h : s.Tracked i r maxPrefillTokens stage held out) {out' : ℕ} (hle : out' ≤ out) :
    s.Tracked i r maxPrefillTokens stage held out' :=
  { h with once := by have := h.once; omega }

/-- a call moves the executor; one that touches the request leaves it to no queue -/
theorem moved (h : s.Tracked i r maxPrefillTokens stage held out) {e : E} {touched : List RequestId}
    (ht : Touches i stage touched s.executor e) (hi : i ∈ touched → 1 ≤ out + (activeIds s.active).count i) :
    Tracked i r maxPrefillTokens stage held out { s with executor := e } := by
  have honce := h.once
  unfold placesOf at honce
  by_cases hmem : i ∈ touched
  · have := hi hmem
    exact ⟨h.once, On.of_tally (by omega), On.of_tally (a := s.deferred) (by omega),
      On.of_tally (a := s.loading) (by omega), On.of_tally (a := s.postControlDeferred) (by omega),
      On.of_tally (a := s.prefilling) (by omega), h.admitted, ht.rest h.rest, h.inflight, h.chunking⟩
  · have hcarry : ∀ req, Staged r stage s.executor req → Staged r stage e req := fun req hreq =>
      hreq.carry (ht.other hmem _)
    exact ⟨h.once, h.held.imp hcarry, h.deferred.imp hcarry, h.loading.imp hcarry, h.post.imp hcarry,
      h.prefilling.imp hcarry, h.admitted, ht.rest h.rest, h.inflight, h.chunking⟩

/-- a call that keeps every stage -/
theorem kept (h : s.Tracked i r maxPrefillTokens stage held out) {e : E}
    (hk : ∀ o, stage s.executor o → stage e o) :
    Tracked i r maxPrefillTokens stage held out { s with executor := e } := by
  have ht : Touches i stage [] s.executor e := ⟨hk none, fun _ => hk⟩
  exact h.moved ht nofun

theorem drop (hp : Stages i r maxPrefillTokens stage) (h : s.Tracked i r maxPrefillTokens stage held out)
    (id : RequestId) (hi : id = i → 1 ≤ out + (activeIds s.active).count i) :
    (s.dropRequest id).Tracked i r maxPrefillTokens stage held out :=
  h.moved (hp.drop s.executor id) fun hmem => hi (List.mem_singleton.1 hmem).symm

end Tracked

/-! ## Retirement, failure, rejection, admission -/

theorem retireAll_tracked (hp : Stages i r maxPrefillTokens stage) (reqs : List PendingRequest)
    (s s' : Qwen3Scheduler E) (l l' : RequestLedger) (hs : s.Tracked i r maxPrefillTokens stage held out)
    (hi : On i (fun _ => 1 ≤ out) reqs) (h : s.retireAll l reqs = .ok (s', l')) :
    s'.Tracked i r maxPrefillTokens stage held out := by
  induction reqs generalizing s l with
  | nil =>
    cases h
    exact hs
  | cons req reqs ih =>
    obtain ⟨⟨s₁, l₁⟩, h₁, h⟩ := bind_ok h
    obtain ⟨rfl, -⟩ := retireAborted_ok h₁
    apply ih _ _ _ (hi.subset (List.subset_cons_self _ _)) h
    apply hs.drop hp
    intro hid
    have := hi req List.mem_cons_self hid
    omega

theorem on_out {reqs : List PendingRequest} : On i (fun _ => 1 ≤ tally i reqs) reqs :=
  fun _ hreq hid => tally_pos hreq hid

theorem retireAbortedWaiting_tracked (hp : Stages i r maxPrefillTokens stage)
    (hs : s.Tracked i r maxPrefillTokens stage held 0) (h : s.retireAbortedWaiting l = .ok (s', l')) :
    s'.Tracked i r maxPrefillTokens stage held 0 := by
  obtain ⟨q₁, hq₁, h⟩ := bind_ok h
  obtain ⟨⟨s₁, l₁⟩, h₁, h⟩ := bind_ok h
  obtain ⟨q₂, hq₂, h⟩ := bind_ok h
  obtain ⟨⟨s₂, l₂⟩, h₂, h⟩ := bind_ok h
  obtain ⟨q₃, hq₃, h₃⟩ := bind_ok h
  have hs₁ : s₁.Tracked i r maxPrefillTokens stage held (tally i q₁.1) := by
    apply retireAll_tracked hp _ _ _ _ _ _ on_out h₁
    have hsum := tally_sum (i := i) (splitAborted_ids _ _ _ hq₁)
    have honce := hs.once
    refine { hs with once := ?_, deferred := hs.deferred.subset (splitAborted_subset_both _ _ hq₁).2 }
    unfold placesOf at honce ⊢
    dsimp only at honce ⊢
    omega
  have hs₂ : s₂.Tracked i r maxPrefillTokens stage held (tally i q₂.1) := by
    apply retireAll_tracked hp _ _ _ _ _ _ on_out h₂
    have hsum := tally_sum (i := i) (splitAborted_ids _ _ _ hq₂)
    have honce := hs₁.once
    refine { hs₁ with once := ?_, post := hs₁.post.subset (splitAborted_subset_both _ _ hq₂).2 }
    unfold placesOf at honce ⊢
    dsimp only at honce hsum ⊢
    omega
  suffices hs₃ : s'.Tracked i r maxPrefillTokens stage held (tally i q₃.1) from hs₃.less (Nat.zero_le _)
  apply retireAll_tracked hp _ _ _ _ _ _ on_out h₃
  have hsum := tally_sum (i := i) (splitAborted_ids _ _ _ hq₃)
  have honce := hs₂.once
  have hsub := (splitAborted_subset_both _ _ hq₃).2
  refine { hs₂ with
    once := ?_, prefilling := hs₂.prefilling.subset hsub, admitted := hs₂.admitted.subset hsub }
  unfold placesOf at honce ⊢
  dsimp only at honce hsum ⊢
  omega

theorem rejectAll_tracked (hp : Stages i r maxPrefillTokens stage) (rejected : List (PendingRequest × RejectReason))
    (s s' : Qwen3Scheduler E) (l l' : RequestLedger) (hs : s.Tracked i r maxPrefillTokens stage held out)
    (hi : On i (fun _ => 1 ≤ out) (rejected.map Prod.fst)) (h : s.rejectAll l rejected = .ok (s', l')) :
    s'.Tracked i r maxPrefillTokens stage held out := by
  induction rejected generalizing s l with
  | nil =>
    cases h
    exact hs
  | cons x rejected ih =>
    obtain ⟨⟨s₁, l₁⟩, h₁, h⟩ := bind_ok h
    obtain ⟨m, -, h₁⟩ := bind_ok h₁
    cases h₁
    apply ih _ _ _ (hi.subset (List.subset_cons_self _ _)) h
    apply hs.drop hp
    intro hid
    have := hi x.1 List.mem_cons_self hid
    omega

theorem failTouchedRequests_tracked (hp : Stages i r maxPrefillTokens stage) (message : String)
    (targets : List RequestId) (s s' : Qwen3Scheduler E) (l l' : RequestLedger)
    (hs : s.Tracked i r maxPrefillTokens stage held out)
    (hi : i ∈ targets → 1 ≤ out + (activeIds s.active).count i)
    (h : s.failTouchedRequests l message targets = .ok (s', l')) : s'.Tracked i r maxPrefillTokens stage held out := by
  induction targets generalizing s l with
  | nil =>
    cases h
    have honce := hs.once
    refine { hs with once := ?_ }
    unfold placesOf at honce ⊢
    simp only [activeIds_nil, Multiset.count_zero]
    omega
  | cons id targets ih =>
    have hdrop := hs.drop hp id fun hid => hi (by rw [hid]; exact List.mem_cons_self)
    unfold failTouchedRequests at h
    dsimp only at h
    split_ifs at h
    · obtain ⟨m, -, h⟩ := bind_ok h
      exact ih _ _ hdrop (fun hmem => hi (List.mem_cons_of_mem _ hmem)) h
    · obtain ⟨m, -, h⟩ := bind_ok h
      exact ih _ _ hdrop (fun hmem => hi (List.mem_cons_of_mem _ hmem)) h

/-- admitted requests come from outside the queues and go to `prefilling`, or are retired -/
theorem admitAll_tracked (hp : Stages i r maxPrefillTokens stage) (clock : RequestId → Instant)
    (pending : List PendingRequest) (s s' : Qwen3Scheduler E) (l l' : RequestLedger)
    (hs : s.Tracked i r maxPrefillTokens stage held (tally i pending))
    (hq : On i (Staged r stage s.executor) pending) (ha : On i (fun _ => Admissible r maxPrefillTokens) pending)
    (h : s.admitAll l clock pending = .ok (s', l')) : s'.Tracked i r maxPrefillTokens stage held 0 := by
  induction pending generalizing s l with
  | nil =>
    cases h
    exact hs
  | cons req pending ih =>
    obtain ⟨⟨s₁, l₁⟩, h₁, h⟩ := bind_ok h
    obtain ⟨aborted, -, h₁⟩ := bind_ok h₁
    have hrest : pending ⊆ req :: pending := List.subset_cons_self _ _
    have honce := hs.once
    rw [tally_cons] at honce
    cases aborted with
    | true =>
      obtain ⟨rfl, -⟩ := retireAborted_ok h₁
      have hdrop := hs.drop hp req.requestId fun hid => by
        rw [tally_cons, if_pos hid]
        omega
      apply ih _ _ _ _ (ha.subset hrest) h
      · apply hdrop.less
        rw [tally_cons]
        omega
      · by_cases hid : req.requestId = i
        · rw [if_pos hid] at honce
          exact On.of_tally (by omega)
        · intro x hx hxi
          refine (hq x (hrest hx) hxi).carry ((hp.drop s.executor req.requestId).other ?_ _)
          rw [List.mem_singleton]
          exact fun heq => hid heq.symm
    | false =>
      obtain ⟨l₂, -, h₁⟩ := bind_ok h₁
      cases h₁
      refine ih { s with prefilling := s.prefilling ++ [req] } l₁ ?_ (hq.subset hrest) (ha.subset hrest) h
      refine { hs with
        once := ?_
        prefilling := hs.prefilling.append (On.cons (hq req List.mem_cons_self) On.nil)
        admitted := hs.admitted.append (On.cons (ha req List.mem_cons_self) On.nil) }
      unfold placesOf at honce ⊢
      simp only [tally_append, tally_cons, tally_nil] at honce ⊢
      omega

/-! ## Effects -/

/-- what the loops of `applyEffects` put back is in no queue yet -/
structure Trailing (i : RequestId) (r : Request) (maxPrefillTokens : ℕ) (stage : E → Option ℕ → Prop)
    (held : List PendingRequest) (out : ℕ) (a : Applying E) : Prop where
  scheduler : a.scheduler.Tracked i r maxPrefillTokens stage held (out + tally i a.continued)
  continued : On i (Staged r stage a.scheduler.executor) a.continued
  admitted : On i (fun _ => Admissible r maxPrefillTokens) a.continued

/-- the request among the effects still to come -/
def tallyEffects (i : RequestId) (effects : List PendingEffect) : ℕ := (effects.map (·.requestId)).count i

/-- an effect that puts the request back does so at its stage -/
def PutsBack (i : RequestId) (r : Request) (maxPrefillTokens : ℕ) (stage : E → Option ℕ → Prop) (e : E)
    (effects : List PendingEffect) : Prop :=
  ∀ req, PendingEffect.continuePrefill req ∈ effects → req.requestId = i →
    Staged r stage e req ∧ Admissible r maxPrefillTokens

/-- the requests that effects put back -/
def putBack : List PendingEffect → List PendingRequest
  | [] => []
  | .continuePrefill req :: effects => req :: putBack effects
  | _ :: effects => putBack effects

theorem mem_putBack {req : PendingRequest} {effects : List PendingEffect} :
    req ∈ putBack effects ↔ PendingEffect.continuePrefill req ∈ effects := by
  induction effects with
  | nil => simp [putBack]
  | cons effect effects ih => cases effect <;> simp [putBack, ih]

theorem tally_putBack_le (effects : List PendingEffect) : tally i (putBack effects) ≤ tallyEffects i effects := by
  induction effects with
  | nil => exact le_refl _
  | cons effect effects ih =>
    unfold tallyEffects at ih ⊢
    rw [List.map_cons, List.count_cons]
    cases effect with
    | continuePrefill req =>
      rw [putBack, tally_cons]
      refine Nat.add_le_add ih ?_
      by_cases hid : req.requestId = i
      · simp [hid, PendingEffect.requestId]
      · rw [if_neg hid]
        exact Nat.zero_le _
    | emitAndFinish id token logprob reason cause => exact ih.trans (Nat.le_add_right _ _)
    | promote state token logprob => exact ih.trans (Nat.le_add_right _ _)

variable {a a' : Applying E}

namespace Trailing

theorem of_same (h : Trailing i r maxPrefillTokens stage held out a) (hs : a'.scheduler = a.scheduler)
    (hc : a'.continued = a.continued) : Trailing i r maxPrefillTokens stage held out a' :=
  ⟨by rw [hs, hc]; exact h.scheduler, by rw [hs, hc]; exact h.continued, by rw [hc]; exact h.admitted⟩

theorem drop (hp : Stages i r maxPrefillTokens stage) (h : Trailing i r maxPrefillTokens stage held out a)
    (id : RequestId) (hi : id = i → 1 ≤ out + (activeIds a.scheduler.active).count i) :
    Trailing i r maxPrefillTokens stage held out (a.drop id) := by
  refine ⟨h.scheduler.drop hp id fun hid => ?_, ?_, h.admitted⟩
  · have := hi hid
    omega
  · have honce := h.scheduler.once
    unfold placesOf at honce
    by_cases hid : id = i
    · have := hi hid
      exact On.of_tally (a := a.continued) (by omega)
    · refine h.continued.imp fun req hreq => hreq.carry ((hp.drop a.scheduler.executor id).other ?_ _)
      rw [List.mem_singleton]
      exact fun heq => hid heq.symm

/-- a decode effect that finds its row may drop it: the request, if it is this one, is in the decode batch -/
theorem position_count {id : RequestId} {index : ℕ} (h : a.position id = some index) (hid : id = i) :
    1 ≤ (activeIds a.scheduler.active).count i := by
  rw [Multiset.one_le_count_iff_mem]
  obtain ⟨hlt, hx, -⟩ := List.findIdx?_eq_some_iff_getElem.1 h
  exact List.mem_map.2 ⟨_, List.getElem_mem hlt, by simpa [hid] using hx⟩

theorem decodeFinish (hp : Stages i r maxPrefillTokens stage) {id : RequestId} {tokens : List TokenId}
    {logprobs : List (Option TokenLogprob)} {reason : FinishReason} {cause : Option StopCause}
    (ha : Trailing i r maxPrefillTokens stage held out a)
    (h : a.decodeFinish id tokens logprobs reason cause = .ok a') :
    Trailing i r maxPrefillTokens stage held out a' := by
  unfold Applying.decodeFinish at h
  split at h
  · cases h
    exact ha
  · rename_i index hindex
    obtain ⟨b, hb, h⟩ := bind_ok h
    cases h
    obtain ⟨hbs, hbc⟩ := Applying.closeOrFinish_same hb
    have hdrop := (ha.of_same hbs hbc).drop hp id fun hid => by
      have := position_count hindex hid
      rw [hbs]
      omega
    exact ⟨hdrop.scheduler, hdrop.continued, hdrop.admitted⟩

theorem decodeContinue (hp : Stages i r maxPrefillTokens stage) {id : RequestId} {tokens : List TokenId}
    {logprobs : List (Option TokenLogprob)} {n : ℕ} (ha : Trailing i r maxPrefillTokens stage held out a)
    (h : a.decodeContinue id tokens logprobs n = .ok a') : Trailing i r maxPrefillTokens stage held out a' := by
  unfold Applying.decodeContinue at h
  split at h
  · cases h
    exact ha
  · rename_i index hindex
    obtain ⟨aborted, -, h⟩ := bind_ok h
    cases aborted with
    | true =>
      obtain ⟨⟨s₁, l₁⟩, h₁, h⟩ := bind_ok h
      cases h
      obtain ⟨rfl, -⟩ := retireAborted_ok h₁
      have hdrop := ha.drop hp id fun hid => by
        have := position_count hindex hid
        omega
      exact ⟨hdrop.scheduler, hdrop.continued, hdrop.admitted⟩
    | false =>
      obtain ⟨l₁, -, h⟩ := bind_ok h
      split at h
      · cases h
        refine ⟨{ ha.scheduler with once := ?_ }, ha.continued, ha.admitted⟩
        have honce := ha.scheduler.once
        unfold placesOf at honce ⊢
        dsimp only at honce ⊢
        rw [activeIds, map_modify_requestId]
        · exact honce
        · exact fun _ => rfl
      · cases h
        exact ⟨ha.scheduler, ha.continued, ha.admitted⟩

theorem applyDecode (hp : Stages i r maxPrefillTokens stage) {effect : DecodeEffect}
    (ha : Trailing i r maxPrefillTokens stage held out a) (h : a.applyDecode effect = .ok a') :
    Trailing i r maxPrefillTokens stage held out a' := by
  cases effect with
  | finish id token logprob reason cause => exact ha.decodeFinish hp h
  | continueOne id token logprob n => exact ha.decodeContinue hp h
  | continueMany id tokens n => exact ha.decodeContinue hp h
  | finishMany id tokens reason cause => exact ha.decodeFinish hp h

theorem removeRetired (ha : Trailing i r maxPrefillTokens stage held out a) (h : a.removeRetired = .ok a') :
    Trailing i r maxPrefillTokens stage held out a' := by
  obtain ⟨active, hactive, h⟩ := bind_ok h
  cases h
  refine ⟨{ ha.scheduler with once := ?_ }, ha.continued, ha.admitted⟩
  have honce := ha.scheduler.once
  have hle : (activeIds active).count i ≤ (activeIds a.scheduler.active).count i := by
    obtain ⟨rows, hperm, hsub⟩ := swapRemoveAll_subperm _ _ _ hactive
    rw [activeIds, activeIds, Multiset.coe_count, Multiset.coe_count, ← (hperm.map _).count_eq]
    exact (hsub.map _).count_le i
  unfold placesOf at honce ⊢
  dsimp only at honce ⊢
  omega

/-- one prefill effect: its request leaves the effects to come for a queue, or is dropped -/
theorem applyPending (hp : Stages i r maxPrefillTokens stage) {effect : PendingEffect}
    (ha : Trailing i r maxPrefillTokens stage held (out + if effect.requestId = i then 1 else 0) a)
    (hb : PutsBack i r maxPrefillTokens stage a.scheduler.executor [effect])
    (h : a.applyPending effect = .ok a') :
    Trailing i r maxPrefillTokens stage held out a' ∧
      Touches i stage [effect.requestId] a.scheduler.executor a'.scheduler.executor := by
  have hless : ∀ {b : Applying E}, Trailing i r maxPrefillTokens stage held
      (out + if effect.requestId = i then 1 else 0) b → Trailing i r maxPrefillTokens stage held out b :=
    fun hb => ⟨hb.scheduler.less (by omega), hb.continued, hb.admitted⟩
  have hdrop := ha.drop hp effect.requestId fun hid => by rw [if_pos hid]; omega
  cases effect with
  | continuePrefill req =>
    obtain ⟨aborted, -, h⟩ := bind_ok h
    cases aborted with
    | true =>
      obtain ⟨⟨s₁, l₁⟩, h₁, h⟩ := bind_ok h
      cases h
      obtain ⟨rfl, -⟩ := retireAborted_ok h₁
      obtain ⟨h₁, h₂, h₃⟩ := hless hdrop
      exact ⟨⟨h₁, h₂, h₃⟩, hp.drop _ _⟩
    | false =>
      cases h
      refine ⟨⟨?_, ?_, ?_⟩, ⟨id, fun _ _ ho => ho⟩⟩
      · have hs := ha.scheduler
        refine { hs with once := ?_ }
        have honce := hs.once
        simp only [tally_append, tally_cons, tally_nil]
        by_cases hid : req.requestId = i
        · rw [if_pos (show (PendingEffect.continuePrefill req).requestId = i from hid)] at honce
          rw [if_pos hid]
          omega
        · rw [if_neg hid]
          omega
      · exact ha.continued.append (On.cons (fun hid => (hb req List.mem_cons_self hid).1) On.nil)
      · exact ha.admitted.append (On.cons (fun hid => (hb req List.mem_cons_self hid).2) On.nil)
  | emitAndFinish id token logprob reason cause =>
    obtain ⟨b, hb, h⟩ := bind_ok h
    cases h
    obtain ⟨hbs, hbc⟩ := Applying.closeOrFinish_same hb
    refine ⟨(hless hdrop).of_same ?_ hbc, ?_⟩
    · simp only [Applying.drop, PendingEffect.requestId, hbs]
    · simp only [Applying.drop, Qwen3Scheduler.dropRequest, hbs]
      exact hp.drop _ _
  | promote state token logprob =>
    obtain ⟨aborted, -, h⟩ := bind_ok h
    cases aborted with
    | true =>
      obtain ⟨⟨s₁, l₁⟩, h₁, h⟩ := bind_ok h
      cases h
      obtain ⟨rfl, -⟩ := retireAborted_ok h₁
      obtain ⟨h₁, h₂, h₃⟩ := hless hdrop
      exact ⟨⟨h₁, h₂, h₃⟩, hp.drop _ _⟩
    | false =>
      obtain ⟨l₁, -, h⟩ := bind_ok h
      cases h
      refine ⟨⟨?_, ha.continued, ha.admitted⟩, ⟨id, fun _ _ ho => ho⟩⟩
      have hs := ha.scheduler
      refine { hs with once := ?_ }
      have honce := hs.once
      unfold placesOf at honce ⊢
      simp only [activeIds_count_concat]
      by_cases hid : state.requestId = i
      · rw [if_pos (show (PendingEffect.promote state token logprob).requestId = i from hid)] at honce
        rw [if_pos hid]
        omega
      · rw [if_neg hid]
        omega

end Trailing

theorem PutsBack.touched {e e' : E} {id : RequestId} {effects : List PendingEffect}
    (h : PutsBack i r maxPrefillTokens stage e effects) (ht : Touches i stage [id] e e')
    (hid : id = i → tallyEffects i effects = 0) : PutsBack i r maxPrefillTokens stage e' effects := by
  intro req hreq hi
  obtain ⟨hstaged, hadm⟩ := h req hreq hi
  refine ⟨hstaged.carry (ht.other ?_ _), hadm⟩
  rw [List.mem_singleton]
  rintro rfl
  have hzero := hid rfl
  rw [tallyEffects, List.count_eq_zero] at hzero
  exact hzero (List.mem_map.2 ⟨_, hreq, hi⟩)

/-- the pending loop; each effect's request is closed, promoted or put back -/
theorem pending_fold_tracked (hp : Stages i r maxPrefillTokens stage) (effects : List PendingEffect)
    (a a' : Applying E) (ha : Trailing i r maxPrefillTokens stage held (tallyEffects i effects) a)
    (hb : PutsBack i r maxPrefillTokens stage a.scheduler.executor effects)
    (h : effects.foldlM Applying.applyPending a = .ok a') : Trailing i r maxPrefillTokens stage held 0 a' := by
  induction effects generalizing a with
  | nil =>
    cases h
    exact ha
  | cons effect effects ih =>
    rw [List.foldlM_cons] at h
    obtain ⟨m, hm, h⟩ := bind_ok h
    have hcount : tallyEffects i (effect :: effects) =
        tallyEffects i effects + if effect.requestId = i then 1 else 0 := by
      simp only [tallyEffects, List.map_cons, List.count_cons, beq_iff_eq]
    have honce := ha.scheduler.once
    rw [hcount] at ha honce
    obtain ⟨hm₁, ht⟩ := ha.applyPending hp (fun req hreq hi => by
      rw [List.mem_singleton] at hreq
      exact hb req (hreq ▸ List.mem_cons_self) hi) hm
    refine ih m hm₁ (PutsBack.touched ?_ ht fun hid => ?_) h
    · exact fun req hreq => hb req (List.mem_cons_of_mem _ hreq)
    · rw [if_pos hid] at honce
      omega

theorem applyEffects_tracked (hp : Stages i r maxPrefillTokens stage) {effects : StepEffects}
    (hs : s.Tracked i r maxPrefillTokens stage held (tallyEffects i effects.pending))
    (hb : PutsBack i r maxPrefillTokens stage s.executor effects.pending)
    (h : s.applyEffects l effects = .ok (s', l')) : s'.Tracked i r maxPrefillTokens stage held 0 := by
  unfold applyEffects at h
  obtain ⟨l₁, -, h⟩ := bind_ok h
  obtain ⟨l₂, -, h⟩ := bind_ok h
  obtain ⟨a₁, h₁, h⟩ := bind_ok h
  obtain ⟨a₂, h₂, h⟩ := bind_ok h
  obtain ⟨a₃, h₃, h⟩ := bind_ok h
  obtain ⟨l₃, -, h⟩ := bind_ok h
  cases h
  -- while the decode effects run, the requests to put back are held aside
  set back := putBack effects.pending with hback
  have hle : tally i back ≤ tallyEffects i effects.pending := tally_putBack_le _
  have hstart : Trailing i r maxPrefillTokens stage (held ++ back) (tallyEffects i effects.pending - tally i back)
      ⟨{ s with
        prefixCacheQueries := s.prefixCacheQueries + effects.prefixQueries
        prefixCacheHits := s.prefixCacheHits + effects.prefixHits }, l₂, [], [], []⟩ := by
    refine ⟨⟨?_, ?_, hs.deferred, hs.loading, hs.post, hs.prefilling, hs.admitted, hs.rest, hs.inflight, hs.chunking⟩,
      On.nil, On.nil⟩
    · have honce := hs.once
      unfold placesOf at honce ⊢
      simp only [tally_append, tally_nil]
      omega
    · exact hs.held.append fun req hreq hi => (hb req (mem_putBack.1 hreq) hi).1
  have h₂' : Trailing i r maxPrefillTokens stage (held ++ back) (tallyEffects i effects.pending - tally i back) a₂ :=
    (foldlM_keeps _ (fun _ _ _ _ ha hstep => ha.applyDecode hp hstep) _ _ hstart h₁).removeRetired h₂
  have h₂'' : Trailing i r maxPrefillTokens stage held (tallyEffects i effects.pending) a₂ := by
    refine ⟨{ h₂'.scheduler with once := ?_, held := ?_ }, h₂'.continued, h₂'.admitted⟩
    · have honce := h₂'.scheduler.once
      rw [tally_append] at honce
      omega
    · exact h₂'.scheduler.held.subset (List.subset_append_left _ _)
  have h₃' := pending_fold_tracked hp effects.pending a₂ a₃ h₂'' (fun req hreq hi =>
    ⟨h₂'.scheduler.held req (List.mem_append_right _ (mem_putBack.2 hreq)) hi, (hb req hreq hi).2⟩) h₃
  have hs₃ := h₃'.scheduler
  have honce := hs₃.once
  refine { hs₃ with
    once := ?_
    prefilling := h₃'.continued.append hs₃.prefilling
    admitted := h₃'.admitted.append hs₃.admitted }
  unfold placesOf at honce ⊢
  simp only [tally_append]
  omega

/-! ## Resolution -/

theorem putBack_outcome {e : E} {req back : PendingRequest} {result : PrefillRequestResult}
    (h : PendingEffect.continuePrefill back = resolvePrefillOutcome e req result) :
    back = { req with prefillPos := result.prefillPos } ∧ result.completed = false := by
  unfold resolvePrefillOutcome at h
  split_ifs at h with hdone hone
  · exact ⟨PendingEffect.continuePrefill.inj h, by simpa using hdone⟩
  · split at h
    · cases h
    · cases h
  · split at h
    · cases h
    · cases h

theorem resolvePrefillOutputs_putsBack {e e' : E} (pending : List PendingRequest) (results : List PrefillRequestResult)
    (effects : StepEffects) (hof : On i (fun req => req.Of r ∧ Admissible r maxPrefillTokens) pending)
    (hadv : Advances i stage e' results) (h : resolvePrefillOutputs e pending results = .ok effects) :
    PutsBack i r maxPrefillTokens stage e' effects.pending ∧ tallyEffects i effects.pending ≤ tally i pending := by
  induction pending generalizing results effects with
  | nil =>
    cases h
    exact ⟨fun _ hmem => absurd hmem List.not_mem_nil, le_refl _⟩
  | cons req pending ih =>
    cases results with
    | nil =>
      cases h
      exact ⟨fun _ hmem => absurd hmem List.not_mem_nil, Nat.zero_le _⟩
    | cons result results =>
      simp only [resolvePrefillOutputs] at h
      split_ifs at h with hid
      obtain ⟨rest, hrest, h⟩ := bind_ok h
      cases h
      obtain ⟨hback, hcount⟩ := ih results rest (hof.subset (List.subset_cons_self _ _))
        (fun res hres => hadv res (List.mem_cons_of_mem _ hres)) hrest
      refine ⟨fun back hmem hi => ?_, ?_⟩
      · rcases List.mem_append.1 hmem with hmem | hmem
        · obtain ⟨rfl, hdone⟩ := putBack_outcome (List.mem_singleton.1 hmem)
          obtain ⟨⟨lora, prompt, maxTokens, logprobs, promptLogprobs⟩, hadm⟩ := hof req List.mem_cons_self hi
          have hstage := hadv result List.mem_cons_self (hid ▸ hi) hdone
          exact ⟨⟨⟨lora, prompt, maxTokens, logprobs, promptLogprobs⟩, hstage⟩, hadm⟩
        · exact hback back hmem hi
      · rw [tally_cons]
        unfold tallyEffects at hcount ⊢
        simp only [StepEffects.append, resolvePrefillOutput, List.map_append, List.map_cons, List.map_nil,
          List.count_append, resolvePrefillOutcome_id, List.count_singleton, beq_iff_eq]
        omega

/-- the prefill answers of the artifacts -/
def prefillAnswers : ExecutionArtifacts → List PrefillRequestResult
  | .prefill _ results => results
  | .unified _ result => result.prefillRequests
  | _ => []

theorem resolveStep_putsBack {e e' : E} {active : List ActiveRequestState} {artifacts : ExecutionArtifacts}
    {effects : StepEffects}
    (hof : On i (fun req => req.Of r ∧ Admissible r maxPrefillTokens) (prefilled artifacts))
    (hadv : Advances i stage e' (prefillAnswers artifacts)) (h : resolveStep e active artifacts = .ok effects) :
    PutsBack i r maxPrefillTokens stage e' effects.pending ∧
      tallyEffects i effects.pending ≤ tally i (prefilled artifacts) := by
  cases artifacts with
  | prefill pending results => exact resolvePrefillOutputs_putsBack pending results effects hof hadv h
  | decode results =>
    obtain ⟨d, -, h⟩ := bind_ok h
    cases h
    exact ⟨fun _ hmem => absurd hmem List.not_mem_nil, le_refl _⟩
  | speculativeDecode results =>
    obtain ⟨d, -, h⟩ := bind_ok h
    cases h
    exact ⟨fun _ hmem => absurd hmem List.not_mem_nil, le_refl _⟩
  | unified pending result =>
    obtain ⟨p, hpre, h⟩ := bind_ok h
    obtain ⟨d, -, h⟩ := bind_ok h
    cases h
    exact resolvePrefillOutputs_putsBack pending result.prefillRequests p hof hadv hpre

/-! ## The parts of a step -/

theorem promoteReady_on {P : PendingRequest → Prop} (ready : List RequestId) (deferred loading : List PendingRequest)
    (hd : On i P deferred) (hl : On i P loading) :
    On i P (promoteReady deferred loading ready).1 ∧ On i P (promoteReady deferred loading ready).2 := by
  induction ready generalizing deferred loading with
  | nil => exact ⟨hd, hl⟩
  | cons id ready ih =>
    simp only [promoteReady]
    split
    · rename_i p hfind
      apply ih
      · exact On.cons (hl p (List.mem_of_find?_eq_some hfind)) hd
      · exact hl.subset List.eraseP_subset
    · exact ih deferred loading hd hl

theorem offerPrefetch_stage (hp : Stages i r maxPrefillTokens stage) (floor : ℕ) (deferred : List PendingRequest)
    (e : E) (o : Option ℕ) (he : stage e o) : stage (offerPrefetch e floor deferred).2.2 o := by
  induction deferred generalizing e with
  | nil => exact he
  | cons req deferred ih =>
    simp only [offerPrefetch]
    split_ifs
    · exact ih _ (hp.begun e _ _ _ floor o he)
    · exact ih _ (hp.begun e _ _ _ floor o he)
    · exact ih _ he

/-- an offer marks a request and leaves it at its stage -/
theorem offerPrefetch_on (hp : Stages i r maxPrefillTokens stage) (floor : ℕ) (deferred : List PendingRequest) (e : E)
    (hd : On i (Staged r stage e) deferred) :
    On i (Staged r stage (offerPrefetch e floor deferred).2.2) (offerPrefetch e floor deferred).1 ∧
      On i (Staged r stage (offerPrefetch e floor deferred).2.2) (offerPrefetch e floor deferred).2.1 := by
  induction deferred generalizing e with
  | nil => exact ⟨On.nil, On.nil⟩
  | cons req deferred ih =>
    have hrest := hd.subset (List.subset_cons_self req deferred)
    have hreq := hd req List.mem_cons_self
    simp only [offerPrefetch]
    split_ifs with hfresh hbegun
    · have hkeep := hp.begun e req.requestId req.promptTokens req.loraAdapter floor
      obtain ⟨h₁, h₂⟩ := ih _ (hrest.imp fun x hx => hx.carry (hkeep _))
      refine ⟨h₁, On.cons (fun hi => ?_) h₂⟩
      obtain ⟨⟨lora, prompt, maxTokens, logprobs, promptLogprobs⟩, hs⟩ := hreq hi
      exact ⟨⟨lora, prompt, maxTokens, logprobs, promptLogprobs⟩,
        offerPrefetch_stage hp floor deferred _ _ (hkeep _ hs)⟩
    · have hkeep := hp.begun e req.requestId req.promptTokens req.loraAdapter floor
      obtain ⟨h₁, h₂⟩ := ih _ (hrest.imp fun x hx => hx.carry (hkeep _))
      refine ⟨On.cons (fun hi => ?_) h₁, h₂⟩
      obtain ⟨⟨lora, prompt, maxTokens, logprobs, promptLogprobs⟩, hs⟩ := hreq hi
      exact ⟨⟨lora, prompt, maxTokens, logprobs, promptLogprobs⟩,
        offerPrefetch_stage hp floor deferred _ _ (hkeep _ hs)⟩
    · obtain ⟨h₁, h₂⟩ := ih _ hrest
      refine ⟨On.cons (fun hi => ?_) h₁, h₂⟩
      exact (hreq hi).carry (offerPrefetch_stage hp floor deferred _ _)

/-- settled requests move back to the front of `deferred` -/
theorem promoteReady_tracked (ready : List RequestId) (hs : s.Tracked i r maxPrefillTokens stage held out) :
    Tracked i r maxPrefillTokens stage held out { s with
      deferred := (promoteReady s.deferred s.loading ready).1
      loading := (promoteReady s.deferred s.loading ready).2 } := by
  obtain ⟨hd, hl⟩ := promoteReady_on ready _ _ hs.deferred hs.loading
  have hsum := congrArg (Multiset.count i) (promoteReady_ids ready s.deferred s.loading)
  rw [Multiset.count_add, Multiset.count_add] at hsum
  have honce := hs.once
  refine { hs with once := ?_, deferred := hd, loading := hl }
  unfold placesOf tally at honce ⊢
  dsimp only
  omega

theorem prefetch_tracked (hp : Stages i r maxPrefillTokens stage) (hs : s.Tracked i r maxPrefillTokens stage held out) :
    s.prefetch.Tracked i r maxPrefillTokens stage held out := by
  unfold prefetch
  generalize admittedFutureBlocks s.executor s.active s.prefilling s.inflightPrefills = floor
  have h₁ := promoteReady_tracked (drainReadyPrefetch s.executor floor).1
    (hs.kept (hp.drained s.executor floor))
  dsimp only
  split_ifs
  · obtain ⟨hk, hparked⟩ := offerPrefetch_on hp floor _ _ h₁.deferred
    have hstage := fun o => offerPrefetch_stage (o := o) hp floor
      (promoteReady s.deferred s.loading (drainReadyPrefetch s.executor floor).1).1 (drainReadyPrefetch s.executor floor).2
    have h₂ := h₁.kept hstage
    have hsum := tally_sum (i := i) (offerPrefetch_ids floor
      (promoteReady s.deferred s.loading (drainReadyPrefetch s.executor floor).1).1 (drainReadyPrefetch s.executor floor).2)
    have honce := h₂.once
    refine { h₂ with once := ?_, deferred := hk, loading := h₂.loading.append hparked }
    unfold placesOf at honce ⊢
    simp only [tally_append]
    dsimp only at honce
    omega
  · exact h₁

theorem applyControl_tracked (hp : Stages i r maxPrefillTokens stage)
    (hs : s.Tracked i r maxPrefillTokens stage held out) : s.applyControl.Tracked i r maxPrefillTokens stage held out := by
  unfold applyControl
  split_ifs
  · have hcontrol : ∀ (commands : List LoraControl) (e : E) (o : Option ℕ), stage e o →
        stage (commands.foldl handleLora e) o := by
      intro commands
      induction commands with
      | nil => exact fun _ _ h => h
      | cons command commands ih => exact fun e o h => ih _ _ (hp.control e command o h)
    have h₁ := hs.kept (hcontrol s.pendingControl s.executor)
    have honce := h₁.once
    refine { h₁ with once := ?_, deferred := h₁.deferred.append h₁.post, post := On.nil }
    unfold placesOf at honce ⊢
    dsimp only at honce ⊢
    rw [tally_append, tally_nil]
    omega
  · exact hs

theorem blockOnLoading_tracked (hp : Stages i r maxPrefillTokens stage)
    (hs : s.Tracked i r maxPrefillTokens stage held out) :
    s.blockOnLoading.Tracked i r maxPrefillTokens stage held out := by
  unfold blockOnLoading
  split_ifs
  · exact hs
  · exact promoteReady_tracked _ (hs.kept (hp.waited s.executor _))

/-- what admission lets through fits the prefill bound -/
theorem admitLoop_admissible (limits : AdmissionLimits) (credit : RequestId → ℕ) (deferred : List PendingRequest)
    (budget slots : ℕ) :
    ∀ req ∈ (admitLoop limits credit budget slots deferred).pending,
      req.promptLogprobs.isSome → req.promptTokens.length ≤ limits.maxPrefillTokens := by
  induction deferred generalizing budget slots with
  | nil => exact fun _ hmem => absurd hmem List.not_mem_nil
  | cons req deferred ih =>
    simp only [admitLoop]
    split_ifs with hcontext hbound
    · exact ih _ _
    · exact ih _ _
    · exact ih _ _
    · intro x hx
      rcases List.mem_cons.1 hx with rfl | hx
      · intro hscored
        simp only [promptLogprobsExceedsPrefillBound, hscored, Bool.true_and, decide_eq_true_eq] at hbound
        omega
      · exact ih _ _ x hx
    · exact ih _ _

/-- the verdicts of admission are on the requests given to it -/
theorem admission_verdicts (s : Qwen3Scheduler E) (deferred : List PendingRequest) :
    tally i (s.admission deferred).pending + tally i (s.admission deferred).deferred +
        tally i ((s.admission deferred).rejected.map Prod.fst) = tally i deferred ∧
      (s.admission deferred).pending ⊆ deferred ∧ (s.admission deferred).deferred ⊆ deferred ∧
      ∀ req ∈ (s.admission deferred).pending,
        req.promptLogprobs.isSome → req.promptTokens.length ≤ s.maxPrefillTokens := by
  unfold Qwen3Scheduler.admission admitDeferredRequests
  refine ⟨?_, (admitLoop_subset _ _ _ _ _).1, (admitLoop_subset _ _ _ _ _).2, admitLoop_admissible _ _ _ _ _⟩
  have := congrArg (Multiset.count i) (admitLoop_ids ⟨blockSize s.executor, maxRequestBlocks s.executor,
    maxContextTokens s.executor, s.maxPrefillTokens⟩ (prefetchedBlocks s.executor) deferred
    (availableBlocks s.executor - activeFutureBlocks s.active (blockSize s.executor) -
      prefillingFutureBlocks s.prefilling s.inflightPrefills (blockSize s.executor) (prefetchedBlocks s.executor))
    (maxDecodeBatchSize s.executor - s.active.length - s.prefilling.length - s.inflightPrefills.length))
  rwa [Multiset.count_add, Multiset.count_add] at this

theorem admitQueued_tracked (hp : Stages i r maxPrefillTokens stage) {clock : RequestId → Instant}
    (hs : s.Tracked i r maxPrefillTokens stage held 0) (h : s.admitQueued l clock = .ok (s', l')) :
    s'.Tracked i r maxPrefillTokens stage held 0 := by
  unfold admitQueued at h
  obtain ⟨⟨s₁, l₁⟩, h₁, h⟩ := bind_ok h
  obtain ⟨⟨s₂, l₂⟩, h₂, h⟩ := bind_ok h
  dsimp only at h₁ h₂ h
  set lora := rejectUnknownLoraRequests s.deferred s.executor with hlora
  have hloraSum : tally i lora.1 + tally i lora.2 = tally i s.deferred :=
    tally_sum (rejectUnknownLoraRequests_ids s.deferred s.executor)
  -- the requests still to be judged are held aside while the others are refused
  have hs₁ : s₁.Tracked i r maxPrefillTokens stage (held ++ lora.1) (tally i lora.2) := by
    apply rejectAll_tracked hp _ _ _ _ _ _ _ h₁
    · have honce := hs.once
      refine { hs with
        once := ?_
        held := hs.held.append (hs.deferred.subset (rejectUnknownLoraRequests_subset _ _))
        deferred := On.nil }
      unfold placesOf at honce ⊢
      dsimp only at honce ⊢
      rw [tally_append, tally_nil]
      omega
    · rw [List.map_map]
      exact fun req hreq hi => tally_pos (by simpa using hreq) hi
  obtain ⟨e₁, he₁⟩ := rejectAll_executor _ _ _ _ _ h₁
  obtain ⟨hverdicts, hpending, hdeferred, hadm⟩ := admission_verdicts (i := i) s₁ lora.1
  set outcome := s₁.admission lora.1 with houtcome
  have hnone : s₁.deferred = [] := by rw [he₁]
  have hjudged := hs₁.held.subset (List.subset_append_right held lora.1)
  have hs₂ : s₂.Tracked i r maxPrefillTokens stage (held ++ (outcome.pending ++ outcome.deferred))
      (tally i (outcome.rejected.map Prod.fst)) := by
    apply rejectAll_tracked hp _ _ _ _ _ _ _ h₂
    · have honce := hs₁.once
      refine { hs₁ with
        once := ?_
        held := (hs₁.held.subset (List.subset_append_left _ _)).append
          ((hjudged.subset hpending).append (hjudged.subset hdeferred)) }
      rw [tally_append] at honce ⊢
      rw [tally_append]
      omega
    · rw [List.map_map]
      refine fun req hreq hi => tally_pos ?_ hi
      simpa using hreq
  obtain ⟨e₂, he₂⟩ := rejectAll_executor _ _ _ _ _ h₂
  have hnone₂ : s₂.deferred = [] := by rw [he₂, hnone]
  have hput := hs₂.held.subset (List.subset_append_right held _)
  refine admitAll_tracked hp clock outcome.pending { s₂ with deferred := outcome.deferred } s' l₂ l' ?_
    (hput.subset (List.subset_append_left _ _)) ?_ h
  · have honce := hs₂.once
    refine { hs₂ with
      once := ?_
      held := hs₂.held.subset (List.subset_append_left _ _)
      deferred := hput.subset (List.subset_append_right _ _) }
    unfold placesOf at honce ⊢
    rw [tally_append, tally_append, hnone₂, tally_nil] at honce
    dsimp only
    omega
  · intro req hreq hi hscored
    have hof := hput.subset (List.subset_append_left _ _) req hreq hi
    rw [← hof.1.promptLogprobs] at hscored
    rw [← hof.1.prompt, ← hs₁.chunking.1]
    exact hadm req hreq hscored

/-! ## Chunks and plans -/

/-- a request taken for the step, with the chunk due to it -/
def TakenFrom (r : Request) (maxPrefillTokens : ℕ) (stage : E → Option ℕ → Prop) (e : E) (req : PendingRequest) :
    Prop :=
  Staged r stage e req ∧ Admissible r maxPrefillTokens ∧
    (r.promptLogprobs = none → req.stepChunk = min (r.promptTokens.length - req.prefillPos) maxPrefillTokens)

theorem selectChunks_taken {e : E} {requestLocal : Bool} (hl : requestLocal = true) (queue : List PendingRequest)
    (budget : ℕ) (hs : On i (Staged r stage e) queue) (ha : On i (fun _ => Admissible r maxPrefillTokens) queue) :
    On i (TakenFrom r maxPrefillTokens stage e) (selectChunks maxPrefillTokens requestLocal budget queue).1 ∧
      (selectChunks maxPrefillTokens requestLocal budget queue).2 ⊆ queue := by
  subst hl
  induction queue generalizing budget with
  | nil => exact ⟨On.nil, List.Subset.refl _⟩
  | cons req queue ih =>
    have hsub := List.subset_cons_self req queue
    simp only [selectChunks]
    split_ifs with hb
    · exact ⟨On.nil, List.Subset.refl _⟩
    · split
      · obtain ⟨h₁, h₂⟩ := ih budget (hs.subset hsub) (ha.subset hsub)
        exact ⟨h₁, List.cons_subset_cons req h₂⟩
      · rename_i chunk hchunk
        obtain ⟨h₁, h₂⟩ := ih (budget - chunk) (hs.subset hsub) (ha.subset hsub)
        refine ⟨On.cons (fun hi => ?_) h₁, fun x hx => List.mem_cons_of_mem _ (h₂ hx)⟩
        obtain ⟨⟨lora, prompt, maxTokens, logprobs, promptLogprobs⟩, hstage⟩ := hs req List.mem_cons_self hi
        refine ⟨⟨⟨lora, prompt, maxTokens, logprobs, promptLogprobs⟩, hstage⟩, ha req List.mem_cons_self hi, ?_⟩
        intro hunscored
        rw [prefillChunk_local hchunk, promptLogprobs, hunscored, ← prompt]
        rfl

/-- a plan is about to run: what it takes is in no queue -/
structure Planning (i : RequestId) (r : Request) (maxPrefillTokens : ℕ) (stage : E → Option ℕ → Prop)
    (held : List PendingRequest) (plan : Option ExecutionPlan) (s : Qwen3Scheduler E) : Prop where
  scheduler : s.Tracked i r maxPrefillTokens stage held (tally i (taken plan))
  taken : On i (TakenFrom r maxPrefillTokens stage s.executor) (taken plan)

theorem nextPlan_tracked (hs : s.Tracked i r maxPrefillTokens stage held 0) :
    Planning i r maxPrefillTokens stage held s.nextPlan.2 s.nextPlan.1 := by
  unfold nextPlan
  split_ifs with hinflight
  · rw [hs.inflight] at hinflight
    cases hinflight
  · obtain ⟨rfl, hlocal⟩ := hs.chunking
    obtain ⟨h₁, h₂⟩ := selectChunks_taken hlocal s.prefilling s.maxPrefillTokens hs.prefilling hs.admitted
    have hsum := tally_sum (i := i) (takePrefillChunks_ids s.prefilling s.maxPrefillTokens s.requestLocal)
    refine ⟨?_, ?_⟩
    · rw [runtimePlanAt_taken]
      have honce := hs.once
      refine { hs with once := ?_, prefilling := hs.prefilling.subset h₂, admitted := hs.admitted.subset h₂ }
      unfold placesOf at honce ⊢
      dsimp only
      omega
    · rw [runtimePlanAt_taken]
      exact h₁.subset fun x hx => (List.mem_insertionSort _).1 hx

/-! ## Execution -/

theorem TakenFrom.due {e : E} {req : PendingRequest} (h : TakenFrom r maxPrefillTokens stage e req) :
    Due r maxPrefillTokens stage e (buildPrefillItem req) := by
  obtain ⟨⟨⟨lora, prompt, maxTokens, logprobs, promptLogprobs⟩, hstage⟩, hadm, hchunk⟩ := h
  exact ⟨⟨lora, prompt, maxTokens, logprobs, promptLogprobs⟩, hadm, req.prefillPos, hstage, hchunk⟩

theorem prefillItems_ids (pending : List PendingRequest) :
    ((pending.map buildPrefillItem).map (·.requestId)).count i = tally i pending := by
  rw [List.map_map]
  exact (Multiset.coe_count ..).symm

theorem prefillItems_due {e : E} {pending : List PendingRequest}
    (h : On i (TakenFrom r maxPrefillTokens stage e) pending) :
    ∀ item ∈ pending.map buildPrefillItem, item.requestId = i → Due r maxPrefillTokens stage e item := by
  intro item hitem hi
  obtain ⟨req, hreq, rfl⟩ := List.mem_map.1 hitem
  exact (h req hreq hi).due

theorem Advances.sorted {e : E} {results : List PrefillRequestResult} (h : Advances i stage e results) :
    Advances i stage e (results.insertionSort fun a b => a.requestId ≤ b.requestId) :=
  fun res hres => h res ((List.mem_insertionSort _).1 hres)

/-- verification is of rows in the decode batch -/
theorem buildSpeculativeVerifyItems_active {active : List ActiveRequestState} (drafts : List DraftRequestResult)
    (items : List VerifyStepItem) (h : buildSpeculativeVerifyItems active drafts = .ok items) :
    ∀ id ∈ items.map (·.requestId), id ∈ active.map (·.requestId) := by
  induction drafts generalizing items with
  | nil =>
    cases h
    exact nofun
  | cons draft drafts ih =>
    simp only [buildSpeculativeVerifyItems] at h
    split at h
    · cases h
    · rename_i req hreq
      obtain ⟨rest, hrest, h⟩ := bind_ok h
      cases h
      intro id hid
      rcases List.mem_cons.1 hid with rfl | hid
      · exact List.mem_map.2 ⟨req, List.mem_of_find?_eq_some hreq, by simpa using List.find?_some hreq⟩
      · exact ih rest hrest id hid

/-- **A plan runs.** It touches what it took and the decode batch, and an answered prefill is at its next stage. -/
theorem executePlan_tracked (hp : Stages i r maxPrefillTokens stage) {plan : ExecutionPlan} {e' : E}
    {res : Except StepError ExecutionArtifacts} (hs : Planning i r maxPrefillTokens stage held (some plan) s)
    (h : executePlan s.executor s.active plan = .ok (res, e')) :
    Touches i stage ((taken (some plan)).map (·.requestId) ++ s.active.map (·.requestId)) s.executor e' ∧
      ∀ artifacts, res = .ok artifacts → Advances i stage e' (prefillAnswers artifacts) := by
  have honce := hs.scheduler.once
  unfold placesOf at honce
  have hactive : (s.active.map (·.requestId)).count i = (activeIds s.active).count i := (Multiset.coe_count ..).symm
  -- a call on some of the decode batch
  have hsome : ∀ {touched : List RequestId} {e : E}, touched ⊆ s.active.map (·.requestId) →
      Touches i stage touched s.executor e →
      Touches i stage ((taken (some plan)).map (·.requestId) ++ s.active.map (·.requestId)) s.executor e := by
    intro touched e hsub ht
    refine ⟨ht.rest, fun hi => ht.other fun hmem => hi ?_⟩
    exact List.mem_append_right _ (hsub hmem)
  cases plan with
  | prefill pending =>
    simp only [executePlan, Except.ok.injEq, Prod.mk.injEq] at h
    obtain ⟨rfl, rfl⟩ := h
    have hcount := prefillItems_ids (i := i) pending
    simp only [taken] at honce
    obtain ⟨ht, hadv⟩ := hp.prefill s.executor (pending.map buildPrefillItem) (by omega) (prefillItems_due hs.taken)
    rw [List.map_map] at ht
    refine ⟨⟨ht.rest, fun hi => ht.other fun hmem => hi (List.mem_append_left _ hmem)⟩, fun artifacts hart => ?_⟩
    cases hx : (executePrefill s.executor (pending.map buildPrefillItem)).1 with
    | error err =>
      rw [hx] at hart
      cases hart
    | ok results =>
      rw [hx] at hart
      cases hart
      exact Advances.sorted (hadv results hx)
  | unified pending =>
    simp only [executePlan, Except.ok.injEq, Prod.mk.injEq] at h
    obtain ⟨rfl, rfl⟩ := h
    have hcount := prefillItems_ids (i := i) pending
    have hdecodes : ((s.active.map buildDecodeItem).map (·.requestId)).count i = (activeIds s.active).count i := by
      rw [List.map_map]
      exact hactive
    simp only [taken] at honce
    obtain ⟨ht, hadv⟩ := hp.unified s.executor (pending.map buildPrefillItem) (s.active.map buildDecodeItem) (by omega)
      (prefillItems_due hs.taken)
    rw [List.map_map, List.map_map] at ht
    refine ⟨ht, fun artifacts hart => ?_⟩
    cases hx : (executeUnified s.executor (pending.map buildPrefillItem) (s.active.map buildDecodeItem)).1 with
    | error err =>
      rw [hx] at hart
      cases hart
    | ok result =>
      rw [hx] at hart
      cases hart
      exact Advances.sorted (hadv result hx)
  | decode =>
    simp only [executePlan, Except.ok.injEq, Prod.mk.injEq] at h
    obtain ⟨rfl, rfl⟩ := h
    refine ⟨hsome ?_ (hp.decode s.executor (s.active.map buildDecodeItem)), fun artifacts hart => ?_⟩
    · rw [List.map_map]
      exact List.Subset.refl _
    · cases hx : (executeDecode s.executor (s.active.map buildDecodeItem)).1 with
      | error err =>
        rw [hx] at hart
        cases hart
      | ok results =>
        rw [hx] at hart
        cases hart
        exact fun _ hx => by cases hx
  | gatedSpeculativeDecode =>
    simp only [executePlan, Except.ok.injEq, Prod.mk.injEq] at h
    obtain ⟨rfl, rfl⟩ := h
    refine ⟨hsome ?_ (hp.verify s.executor (s.active.map buildGatedVerifyItem) true), fun artifacts hart => ?_⟩
    · rw [List.map_map]
      exact List.Subset.refl _
    · cases hx : (executeSpeculativeVerify s.executor (s.active.map buildGatedVerifyItem) true).1 with
      | error err =>
        rw [hx] at hart
        cases hart
      | ok results =>
        rw [hx] at hart
        cases hart
        exact fun _ hx => by cases hx
  | speculativeDecode =>
    simp only [executePlan] at h
    have hdraft := hp.draft s.executor (s.active.map buildSpeculativeDraftItem)
    rw [List.map_map] at hdraft
    split at h
    · cases h
      exact ⟨hsome (List.Subset.refl _) hdraft, fun _ hart => (by cases hart)⟩
    · obtain ⟨items, hitems, h⟩ := bind_ok h
      simp only [Except.ok.injEq, Prod.mk.injEq] at h
      obtain ⟨hart, rfl⟩ := h
      refine ⟨hsome ?_ (hdraft.trans (hp.verify _ items false)), fun artifacts h => ?_⟩
      · intro id hid
        rcases List.mem_append.1 hid with hid | hid
        · exact hid
        · exact buildSpeculativeVerifyItems_active _ _ hitems id hid
      · subst h
        generalize (executeSpeculativeVerify
          (executeSpeculativeDraft s.executor (s.active.map buildSpeculativeDraftItem)).2 items false).1 = v at hart
        cases v with
        | error err => cases hart
        | ok results =>
          cases hart
          exact fun _ hx => by cases hx

theorem execute_tracked (hp : Stages i r maxPrefillTokens stage) {plan : ExecutionPlan} {u : Except StepError Unit}
    (hs : Planning i r maxPrefillTokens stage held (some plan) s) (h : s.execute l plan = .ok (u, s', l'))
    (hu : u = .ok ()) : s'.Tracked i r maxPrefillTokens stage held 0 := by
  unfold execute at h
  obtain ⟨⟨res, e'⟩, hran, h⟩ := bind_ok h
  obtain ⟨ht, hadv⟩ := executePlan_tracked hp hs hran
  have hplace : i ∈ (taken (some plan)).map (·.requestId) ++ s.active.map (·.requestId) →
      1 ≤ tally i (taken (some plan)) + (activeIds s.active).count i := by
    intro hi
    rcases List.mem_append.1 hi with hi | hi
    · have : 1 ≤ tally i (taken (some plan)) := Multiset.one_le_count_iff_mem.2 hi
      omega
    · have : 1 ≤ (activeIds s.active).count i := Multiset.one_le_count_iff_mem.2 hi
      omega
  have hs₁ := hs.scheduler.moved ht hplace
  dsimp only at h
  cases res with
  | error err =>
    simp only [absorbStepFailure] at h
    split_ifs at h
    · cases h
      cases hu
    · obtain ⟨⟨s₁, l₁⟩, h₁, h⟩ := bind_ok h
      cases h
      refine (failTouchedRequests_tracked hp _ _ _ _ _ _ hs₁ (fun hi => hplace ?_) h₁).less (Nat.zero_le _)
      cases plan with
      | prefill pending => exact List.mem_append_left _ hi
      | unified pending =>
        rw [List.mem_append]
        exact (List.mem_append.1 hi).symm
      | decode => exact List.mem_append_right _ hi
      | speculativeDecode => exact List.mem_append_right _ hi
      | gatedSpeculativeDecode => exact List.mem_append_right _ hi
  | ok artifacts =>
    obtain ⟨effects, heffects, h⟩ := bind_ok h
    obtain ⟨⟨s₁, l₁⟩, h₁, h⟩ := bind_ok h
    have hof : On i (fun req => req.Of r ∧ Admissible r maxPrefillTokens) (prefilled artifacts) := by
      rw [executePlan_prefilled hran]
      exact hs.taken.imp fun req hreq => ⟨hreq.1.1, hreq.2.1⟩
    obtain ⟨hback, hcount⟩ := resolveStep_putsBack hof (hadv artifacts rfl) heffects
    rw [executePlan_prefilled hran] at hcount
    have hs₂ := applyEffects_tracked hp (hs₁.less hcount) hback h₁
    dsimp only at h
    split at h
    · rename_i pending hpending
      -- nothing is left in flight without overlap
      cases plan with
      | unified pending =>
        simp only [hp.serial, Bool.false_and, if_neg Bool.false_ne_true] at hpending
        cases hpending
      | _ => cases hpending
    · cases h
      exact hs₂

/-! ## Steps -/

theorem pollInflight_tracked (hs : s.Tracked i r maxPrefillTokens stage held out)
    (h : s.pollInflight l = .ok (s', l')) : s'.Tracked i r maxPrefillTokens stage held out := by
  unfold pollInflight at h
  rw [hs.inflight] at h
  cases h
  exact hs

theorem prepare_tracked (hp : Stages i r maxPrefillTokens stage) {arrivals : Arrivals} {plan : Option ExecutionPlan}
    (hs : s.Tracked i r maxPrefillTokens stage held 0) (h : s.prepare l arrivals = .ok (s', l', plan)) :
    Planning i r maxPrefillTokens stage held plan s' := by
  obtain ⟨⟨s₁, l₁⟩, h₁, h⟩ := bind_ok h
  obtain ⟨⟨s₂, l₂⟩, h₂, h⟩ := bind_ok h
  have hpull : s.pullControl.Tracked i r maxPrefillTokens stage held 0 := { hs with }
  have hs₂ := retireAbortedWaiting_tracked hp (pollInflight_tracked hpull h₁) h₂
  have hs₃ := applyControl_tracked hp (prefetch_tracked hp hs₂)
  dsimp only at h
  split_ifs at h with hidle
  · cases h
    exact ⟨blockOnLoading_tracked hp hs₃, On.nil⟩
  · obtain ⟨⟨s₄, l₄⟩, h₄, h⟩ := bind_ok h
    cases h
    exact nextPlan_tracked (admitQueued_tracked hp hs₃ h₄)

/-- **One step.** The request stays in one place, at the stage of the executor. -/
theorem step_tracked (hp : Stages i r maxPrefillTokens stage) {arrivals : Arrivals}
    (hs : s.Tracked i r maxPrefillTokens stage held 0) (h : s.step l arrivals = .ok (.ok (), s', l')) :
    s'.Tracked i r maxPrefillTokens stage held 0 := by
  obtain ⟨⟨s₁, l₁, plan⟩, h₁, h⟩ := bind_ok h
  have hs₁ := prepare_tracked hp hs h₁
  cases plan with
  | none =>
    cases h
    exact hs₁.scheduler
  | some p => exact execute_tracked hp hs₁ h rfl

theorem submit_tracked (hs : s.Tracked i r maxPrefillTokens stage held 0) {id : RequestId} {request : Request}
    {held' : List PendingRequest} (hsub : held' ⊆ held)
    (hcount : tally i held' + tally i [PendingRequest.fromRequest id request] ≤ tally i held)
    (hnew : On i (Staged r stage s.executor) [PendingRequest.fromRequest id request]) :
    (s.submit id request).Tracked i r maxPrefillTokens stage held' 0 := by
  have honce := hs.once
  unfold submit
  dsimp only
  split_ifs
  · refine { hs with once := ?_, held := hs.held.subset hsub, deferred := hs.deferred.append hnew }
    unfold placesOf at honce ⊢
    dsimp only
    rw [tally_append]
    omega
  · refine { hs with once := ?_, held := hs.held.subset hsub, post := hs.post.append hnew }
    unfold placesOf at honce ⊢
    dsimp only
    rw [tally_append]
    omega

end Qwen3Scheduler

/-! ## Runs -/

namespace Engine

/-- the request is tracked while the scheduler is up -/
def Tracked (i : RequestId) (r : Request) (maxPrefillTokens : ℕ) (stage : E → Option ℕ → Prop)
    (held : List PendingRequest) (g : Engine E) : Prop :=
  ∀ s, g.scheduler = some s → s.Tracked i r maxPrefillTokens stage held 0

/-- the requests of this id that a run is still to submit -/
def coming (i : RequestId) (ops : List EngineOp) : List PendingRequest :=
  ((submitted ops).filter fun p => p.1 = i).map fun p => PendingRequest.fromRequest p.1 p.2

theorem tally_coming (requests : List (RequestId × Request)) :
    tally i ((requests.filter fun p => p.1 = i).map fun p => PendingRequest.fromRequest p.1 p.2) =
      (requests.map Prod.fst).count i := by
  induction requests with
  | nil => rfl
  | cons p requests ih =>
    by_cases hp : p.1 = i
    · rw [List.filter_cons_of_pos (by simpa using hp), List.map_cons, List.map_cons, tally_cons, ih,
        if_pos (show (PendingRequest.fromRequest p.1 p.2).requestId = i from hp), List.count_cons, if_pos (by simpa using hp)]
    · rw [List.filter_cons_of_neg (by simpa using hp), ih, List.map_cons, List.count_cons,
        if_neg (by simpa using hp), Nat.add_zero]

theorem step_tracked (hp : Stages i r maxPrefillTokens stage) {g g' : Engine E} {op : EngineOp} {ops : List EngineOp}
    (hg : g.Tracked i r maxPrefillTokens stage (coming i (op :: ops))) (h : g.step op = .ok g') :
    g'.Tracked i r maxPrefillTokens stage (coming i ops) := by
  intro s' hs'
  cases op with
  | submit id aborted queuedAt request =>
    simp only [step] at h
    split at h
    · rename_i hnone
      cases h
      rw [hnone] at hs'
      cases hs'
    · rename_i s hs
      obtain ⟨l₁, -, h⟩ := bind_ok h
      cases h
      cases hs'
      by_cases hid : id = i
      · have hcoming : coming i (.submit id aborted queuedAt request :: ops) =
            PendingRequest.fromRequest id request :: coming i ops := by
          simp [coming, submitted, hid]
        have hk := hg s hs
        rw [hcoming] at hk
        refine Qwen3Scheduler.submit_tracked hk (List.subset_cons_self _ _) ?_ ?_
        · rw [tally_cons, tally_cons, tally_nil]
          omega
        · exact hk.held.subset (by simp)
      · have hcoming : coming i (.submit id aborted queuedAt request :: ops) = coming i ops := by
          simp [coming, submitted, hid]
        have hk := hg s hs
        rw [hcoming] at hk
        refine Qwen3Scheduler.submit_tracked hk (List.Subset.refl _) ?_ ?_
        · rw [tally_cons, tally_nil, if_neg (show ¬(PendingRequest.fromRequest id request).requestId = i from hid)]
          exact Nat.le_refl _
        · exact On.cons (fun hi => absurd hi hid) On.nil
  | abort id =>
    cases h
    exact hg s' hs'
  | control command =>
    cases h
    obtain ⟨s, hs, rfl⟩ := Option.map_eq_some_iff.1 hs'
    exact { hg s hs with }
  | iterate arrivals metricsChanged =>
    simp only [step] at h
    split at h
    · rename_i hnone
      cases h
      rw [hnone] at hs'
      cases hs'
    · rename_i s hs
      obtain ⟨⟨u, s₁, l₁⟩, h₁, h⟩ := bind_ok h
      cases u with
      | ok u =>
        cases h
        cases hs'
        exact Qwen3Scheduler.step_tracked hp (hg s hs) h₁
      | error err =>
        obtain ⟨l₂, -, h⟩ := bind_ok h
        cases h
        cases hs'

/-- **Runs.** A request submitted at most once is tracked in every state the run reaches. -/
theorem run_tracked (hp : Stages i r maxPrefillTokens stage) (ops : List EngineOp) :
    ∀ {g g' : Engine E}, g.Tracked i r maxPrefillTokens stage (coming i ops) → run Engine.step g ops = .ok g' →
      g'.Tracked i r maxPrefillTokens stage [] := by
  induction ops with
  | nil =>
    intro g g' hg h
    cases h
    exact hg
  | cons op ops ih =>
    intro g g' hg h
    obtain ⟨m, hm, h⟩ := (run_cons_ok g g' op ops).1 h
    exact ih (step_tracked hp hg hm) h

/-- a new engine tracks every request that its executor can start on -/
theorem new_tracked {e : E} (specMaxBatch : ℕ) (ops : List EngineOp)
    (hids : ((submitted ops).map Prod.fst).Nodup) (hr : ∀ p ∈ submitted ops, p.1 = i → p.2 = r)
    (hfresh : stage e (some 0)) (hrest : stage e none) :
    (Engine.new (Qwen3Scheduler.new e maxPrefillTokens true specMaxBatch)).Tracked i r maxPrefillTokens stage
      (coming i ops) := by
  intro s hs
  cases hs
  refine ⟨?_, ?_, On.nil, On.nil, On.nil, On.nil, On.nil, hrest, rfl, rfl, rfl⟩
  · have hcount := tally_coming (i := i) (submitted ops)
    have hle := List.nodup_iff_count_le_one.1 hids i
    change 0 + tally i (coming i ops) + 0 ≤ 1
    unfold coming
    omega
  · intro req hreq hi
    obtain ⟨p, hp, rfl⟩ := List.mem_map.1 hreq
    obtain ⟨hmem, hpi⟩ := List.mem_filter.1 hp
    obtain rfl := hr p hmem (by simpa using hpi)
    exact ⟨⟨rfl, rfl, rfl, rfl, rfl⟩, hfresh⟩

end Engine

end Pegainfer.Qwen3
