/-
Collecting the responses of a step: rank 0's value once every peer has acknowledged.

The primary and the peers still awaited are watched together; a selection receives from any one of them. A closed channel
and an error of rank 0 end the wait at once, a peer's error as soon as rank 0 has responded.
- `turn`: one selection. `awaitStepResponses`: the selections of a list, in their order.
- `Seen`: what the selections so far say of the ranks.
- `await_order_independent`: whatever the order, the wait succeeds exactly when rank 0 answered with a value and every
  peer acknowledged, with that value, after a response from each rank; no order waits for more than that.
-/
import Mathlib.Tactic

namespace Pegainfer.Qwen3

variable {α : Type}

/-- what a worker returns for a step; the results carry their payloads -/
inductive WorkerStepOutcome (α : Type)
  | ack
  | prefill (result : α)
  | decode (result : α)
  | unified (result : α)
  | splitDecodeReady (decode : α)
  | speculativeVerify (result : α)
  | speculativeDraft (result : α)
deriving DecidableEq, Repr

namespace WorkerStepOutcome

def kind : WorkerStepOutcome α → String
  | .ack => "ack"
  | .prefill _ => "prefill"
  | .decode _ => "decode"
  | .unified _ => "unified"
  | .splitDecodeReady _ => "split_decode_ready"
  | .speculativeVerify _ => "speculative_verify"
  | .speculativeDraft _ => "speculative_draft"

end WorkerStepOutcome

/-- what receiving from a rank's channel gives -/
inductive StepResponse (α : Type)
  | ok (outcome : WorkerStepOutcome α)
  | error (message : String)
  | closed
deriving DecidableEq, Repr

/-- the wait in progress; peers count from 0 -/
structure AwaitState (α : Type) where
  primaryOutcome : Option (WorkerStepOutcome α)
  waiting : List ℕ
  peerError : Option String
deriving DecidableEq, Repr

/-- how the wait ends: the step's outcome, or a rank that is gone -/
inductive Awaited (α : Type)
  | outcome (r : Except String (WorkerStepOutcome α))
  | rankLost (rank : ℕ)
deriving DecidableEq, Repr

/-- a wait after some selections; `misselected` when a selection named no registered operation -/
inductive AwaitProgress (α : Type)
  | returned (r : Awaited α)
  | waiting (s : AwaitState α)
  | misselected
deriving DecidableEq, Repr

namespace AwaitState

def start (peers : ℕ) : AwaitState α := ⟨none, List.range peers, none⟩

/-- the loop's condition has failed: everything has been received -/
def finished (s : AwaitState α) : Option (Awaited α) :=
  match s.primaryOutcome, s.waiting with
  | some outcome, [] => some (.outcome (.ok outcome))
  | _, _ => none

/-- a peer's error ends the wait once rank 0 has responded -/
def raise (s : AwaitState α) : AwaitProgress α :=
  match s.primaryOutcome, s.peerError with
  | some _, some error => .returned (.outcome (.error error))
  | _, _ => .waiting s

def recvPrimary (s : AwaitState α) (response : StepResponse α) : AwaitProgress α :=
  match response with
  | .ok outcome => { s with primaryOutcome := some outcome }.raise
  | .error error => .returned (.outcome (.error error))
  | .closed => .returned (.rankLost 0)

/-- the first peer error is kept -/
def recvPeer (opName : String) (s : AwaitState α) (slot peer : ℕ) (response : StepResponse α) : AwaitProgress α :=
  let s := { s with waiting := s.waiting.eraseIdx slot }
  match response with
  | .ok .ack => s.raise
  | .ok other =>
    { s with
      peerError := some (s.peerError.getD
        ("tensor-parallel " ++ opName ++ " worker returned unexpected payload: " ++ other.kind)) }.raise
  | .error error => { s with peerError := some (s.peerError.getD error) }.raise
  | .closed => .returned (.rankLost (peer + 1))

/-- one selection: the operations are rank 0's, while awaited, and the waiting peers' in their order -/
def turn (opName : String) (responses : ℕ → StepResponse α) (s : AwaitState α) (index : ℕ) : AwaitProgress α :=
  let primaryOps := if s.primaryOutcome.isNone then 1 else 0
  if index < primaryOps then s.recvPrimary (responses 0)
  else
    match s.waiting[index - primaryOps]? with
    | none => .misselected
    | some peer => s.recvPeer opName (index - primaryOps) peer (responses (peer + 1))

/-- rank `i` responds with `responses i`; `order` are the operations selected, one a turn -/
def await (opName : String) (responses : ℕ → StepResponse α) : AwaitState α → List ℕ → AwaitProgress α
  | s, [] => (s.finished.map .returned).getD (.waiting s)
  | s, index :: order =>
    match s.finished with
    | some r => .returned r
    | none =>
      match s.turn opName responses index with
      | .waiting s => s.await opName responses order
      | ended => ended

end AwaitState

def awaitStepResponses (opName : String) (responses : ℕ → StepResponse α) (peers : ℕ) (order : List ℕ) :
    AwaitProgress α :=
  (AwaitState.start peers).await opName responses order

/-! ## What has been seen -/

/-- every rank has answered well: rank 0 with this value, each peer with an acknowledgement -/
def AllAnswered (responses : ℕ → StepResponse α) (peers : ℕ) (outcome : WorkerStepOutcome α) : Prop :=
  responses 0 = .ok outcome ∧ ∀ peer < peers, responses (peer + 1) = .ok .ack

/-- some rank has not answered well -/
def SomeFailed (responses : ℕ → StepResponse α) (peers : ℕ) : Prop :=
  (∀ outcome, responses 0 ≠ .ok outcome) ∨ ∃ peer < peers, responses (peer + 1) ≠ .ok .ack

theorem SomeFailed.not_allAnswered {responses : ℕ → StepResponse α} {peers : ℕ} (h : SomeFailed responses peers)
    (outcome : WorkerStepOutcome α) : ¬ AllAnswered responses peers outcome := by
  rintro ⟨hprimary, hpeers⟩
  rcases h with h | ⟨peer, hlt, hpeer⟩
  · exact h outcome hprimary
  · exact hpeer (hpeers peer hlt)

/-- what the wait knows: rank 0's value, and of the peers received that they acknowledged or that one did not -/
structure Seen (responses : ℕ → StepResponse α) (peers : ℕ) (s : AwaitState α) : Prop where
  primary : ∀ outcome, s.primaryOutcome = some outcome → responses 0 = .ok outcome
  waiting : ∀ peer ∈ s.waiting, peer < peers
  received : s.peerError = none → ∀ peer < peers, peer ∉ s.waiting → responses (peer + 1) = .ok .ack
  failed : s.peerError.isSome = true → ∃ peer < peers, responses (peer + 1) ≠ .ok .ack
  /-- the wait would have ended -/
  quiet : s.primaryOutcome.isSome = true → s.peerError = none

/-- the responses still to receive -/
def AwaitState.left (s : AwaitState α) : ℕ := s.waiting.length + if s.primaryOutcome.isNone then 1 else 0

/-- how one selection may come out -/
def Turned (responses : ℕ → StepResponse α) (peers : ℕ) (s : AwaitState α) : AwaitProgress α → Prop
  | .returned (.outcome (.ok _)) => False
  | .returned _ => SomeFailed responses peers
  | .waiting s' => Seen responses peers s' ∧ s'.left + 1 = s.left
  | .misselected => True

theorem seen_start (responses : ℕ → StepResponse α) (peers : ℕ) : Seen responses peers (AwaitState.start peers) where
  primary := nofun
  waiting _ h := List.mem_range.1 h
  received _ _ hlt hnot := absurd (List.mem_range.2 hlt) hnot
  failed := nofun
  quiet := nofun

/-- the check after a receive: the facts hold but the last one, which it establishes -/
theorem turned_raise {responses : ℕ → StepResponse α} {peers : ℕ} {s s' : AwaitState α}
    (hprimary : ∀ outcome, s'.primaryOutcome = some outcome → responses 0 = .ok outcome)
    (hwaiting : ∀ peer ∈ s'.waiting, peer < peers)
    (hreceived : s'.peerError = none → ∀ peer < peers, peer ∉ s'.waiting → responses (peer + 1) = .ok .ack)
    (hfailed : s'.peerError.isSome = true → ∃ peer < peers, responses (peer + 1) ≠ .ok .ack)
    (hleft : s'.left + 1 = s.left) : Turned responses peers s s'.raise := by
  unfold AwaitState.raise
  split
  · rename_i herror
    exact Or.inr (hfailed (by rw [herror]; rfl))
  · rename_i hgo
    refine ⟨⟨hprimary, hwaiting, hreceived, hfailed, fun hp => ?_⟩, hleft⟩
    obtain ⟨outcome, houtcome⟩ := Option.isSome_iff_exists.1 hp
    cases herror : s'.peerError with
    | none => rfl
    | some error => exact absurd herror (hgo outcome error houtcome)

/-- the peer at `slot` is received, the others stay -/
theorem mem_of_not_mem_eraseIdx {l : List ℕ} {slot peer x : ℕ} (hslot : l[slot]? = some peer)
    (hx : x ∉ l.eraseIdx slot) : x = peer ∨ x ∉ l := by
  by_contra hne
  push Not at hne
  obtain ⟨i, hi, rfl⟩ := List.mem_iff_getElem.1 hne.2
  apply hx
  rw [List.mem_eraseIdx_iff_getElem]
  refine ⟨i, hi, fun his => hne.1 ?_, rfl⟩
  subst his
  rw [List.getElem?_eq_getElem hi, Option.some.injEq] at hslot
  exact hslot

theorem left_eraseIdx {s : AwaitState α} {slot peer : ℕ} (hslot : s.waiting[slot]? = some peer)
    (error : Option String) :
    ({ s with waiting := s.waiting.eraseIdx slot, peerError := error } : AwaitState α).left + 1 = s.left := by
  have hlt : slot < s.waiting.length := (List.getElem?_eq_some_iff.1 hslot).1
  simp only [AwaitState.left, List.length_eraseIdx, hlt, if_true]
  omega

/-- **One selection.** It never succeeds by itself; it ends the wait only when some rank has failed. -/
theorem turn_turned {responses : ℕ → StepResponse α} {peers : ℕ} {s : AwaitState α} (h : Seen responses peers s)
    (opName : String) (index : ℕ) : Turned responses peers s (s.turn opName responses index) := by
  unfold AwaitState.turn
  dsimp only
  generalize hops : (if s.primaryOutcome.isNone then 1 else 0) = primaryOps
  split_ifs with hindex
  · -- rank 0, still awaited
    have hnone : s.primaryOutcome = none := by
      by_contra hsome
      rw [← hops, if_neg (by simpa using hsome)] at hindex
      omega
    unfold AwaitState.recvPrimary
    split
    · rename_i outcome hresponse
      apply turned_raise
      · rintro o ho
        cases ho
        exact hresponse
      · exact h.waiting
      · exact h.received
      · exact h.failed
      · simp [AwaitState.left, hnone]
    · rename_i error hresponse
      exact Or.inl fun o ho => by rw [hresponse] at ho; cases ho
    · rename_i hresponse
      exact Or.inl fun o ho => by rw [hresponse] at ho; cases ho
  · cases hslot : s.waiting[index - primaryOps]? with
    | none => trivial
    | some peer =>
      have hmem : peer ∈ s.waiting := List.mem_of_getElem? hslot
      have hlt := h.waiting peer hmem
      have hstay : ∀ x ∈ s.waiting.eraseIdx (index - primaryOps), x < peers := fun x hx =>
        h.waiting x (List.mem_of_mem_eraseIdx hx)
      -- a response other than an acknowledgement
      have hbad : ∀ error, responses (peer + 1) ≠ .ok .ack → Turned responses peers s
          ({ s with waiting := s.waiting.eraseIdx (index - primaryOps), peerError := some error } :
            AwaitState α).raise := by
        intro error hresponse
        apply turned_raise
        · exact h.primary
        · exact hstay
        · exact fun hnone => absurd hnone (Option.some_ne_none error)
        · exact fun _ => ⟨peer, hlt, hresponse⟩
        · exact left_eraseIdx hslot _
      dsimp only
      unfold AwaitState.recvPeer
      dsimp only
      split
      · rename_i hresponse
        apply turned_raise
        · exact h.primary
        · exact hstay
        · intro herror x hx hnot
          rcases mem_of_not_mem_eraseIdx hslot hnot with rfl | hnot
          · exact hresponse
          · exact h.received herror x hx hnot
        · exact h.failed
        · exact left_eraseIdx hslot _
      · rename_i other hother hresponse
        apply hbad
        intro hack
        rw [hresponse, StepResponse.ok.injEq] at hack
        exact hother hack
      · rename_i error hresponse
        apply hbad
        rw [hresponse]
        exact nofun
      · rename_i hresponse
        exact Or.inr ⟨peer, hlt, by rw [hresponse]; exact nofun⟩

/-- when the loop ends by its condition, every rank has answered well -/
theorem finished_allAnswered {responses : ℕ → StepResponse α} {peers : ℕ} {s : AwaitState α}
    (h : Seen responses peers s) {r : Awaited α} (hr : s.finished = some r) :
    ∃ outcome, r = .outcome (.ok outcome) ∧ AllAnswered responses peers outcome ∧ s.left = 0 := by
  unfold AwaitState.finished at hr
  split at hr
  · rename_i outcome hprimary hwaiting
    cases hr
    have hquiet := h.quiet (by rw [hprimary]; rfl)
    refine ⟨outcome, rfl, ⟨h.primary outcome hprimary, fun peer hlt => ?_⟩, ?_⟩
    · apply h.received hquiet peer hlt
      rw [hwaiting]
      exact List.not_mem_nil
    · simp [AwaitState.left, hprimary, hwaiting]
  · cases hr

theorem finished_of_left {s : AwaitState α} (h : s.left = 0) : s.finished ≠ none := by
  unfold AwaitState.left at h
  cases hp : s.primaryOutcome with
  | none => simp [hp] at h
  | some outcome =>
    have hw : s.waiting = [] := by simpa [hp] using h
    simp [AwaitState.finished, hp, hw]

/-! ## Every order -/

/-- what a wait over `order`, from a state that has `left` responses to receive, may come to -/
def Ended (responses : ℕ → StepResponse α) (peers left : ℕ) (order : List ℕ) : AwaitProgress α → Prop
  | .returned (.outcome (.ok outcome)) => AllAnswered responses peers outcome ∧ left ≤ order.length
  | .returned _ => SomeFailed responses peers
  | .waiting _ => order.length < left
  | .misselected => True

theorem await_ended {responses : ℕ → StepResponse α} {peers : ℕ} (opName : String) (order : List ℕ) :
    ∀ {s : AwaitState α}, Seen responses peers s →
      Ended responses peers s.left order (s.await opName responses order) := by
  induction order with
  | nil =>
    intro s h
    simp only [AwaitState.await]
    cases hf : s.finished with
    | some r =>
      obtain ⟨outcome, rfl, hall, hleft⟩ := finished_allAnswered h hf
      exact ⟨hall, by rw [hleft]; exact Nat.zero_le _⟩
    | none =>
      have hpos : s.left ≠ 0 := fun hzero => finished_of_left hzero hf
      exact Nat.pos_of_ne_zero hpos
  | cons index order ih =>
    intro s h
    simp only [AwaitState.await]
    cases hf : s.finished with
    | some r =>
      obtain ⟨outcome, rfl, hall, hleft⟩ := finished_allAnswered h hf
      exact ⟨hall, by rw [hleft]; exact Nat.zero_le _⟩
    | none =>
      have hturn := turn_turned h opName index
      dsimp only
      cases ht : s.turn opName responses index with
      | misselected => trivial
      | returned r =>
        rw [ht] at hturn
        rcases r with (error | outcome) | rank
        · exact hturn
        · exact hturn.elim
        · exact hturn
      | waiting s' =>
        rw [ht] at hturn
        obtain ⟨hseen, hleft⟩ := hturn
        have hrest := ih hseen
        dsimp only
        generalize s'.await opName responses order = p at hrest
        rcases p with ((error | outcome) | rank) | s'' | _
        · exact hrest
        · exact ⟨hrest.1, by rw [← hleft]; exact Nat.succ_le_succ hrest.2⟩
        · exact hrest
        · change order.length + 1 < s.left
          rw [← hleft]
          exact Nat.succ_lt_succ hrest
        · trivial

theorem left_start (peers : ℕ) : (AwaitState.start peers : AwaitState α).left = peers + 1 := by
  simp [AwaitState.left, AwaitState.start]

/-- **The order of the responses does not matter.** Take any number of peers, any responses and any order of selections
that returns. It returns a step outcome of value `outcome` exactly when rank 0 responded with it and every peer
acknowledged, and then only after a response from every rank; in every other case it returns an error or a lost rank. So
any two orders that return agree on whether the wait succeeds and on its value. No order of as many selections as there
are ranks still waits. -/
theorem await_order_independent (opName : String) (responses : ℕ → StepResponse α) (peers : ℕ) :
    (∀ order r, awaitStepResponses opName responses peers order = .returned r →
      (∀ outcome, r = .outcome (.ok outcome) ↔ AllAnswered responses peers outcome) ∧
        ∀ outcome, r = .outcome (.ok outcome) → peers + 1 ≤ order.length) ∧
    (∀ order order' r r', awaitStepResponses opName responses peers order = .returned r →
      awaitStepResponses opName responses peers order' = .returned r' →
        ∀ outcome, r = .outcome (.ok outcome) ↔ r' = .outcome (.ok outcome)) ∧
    ∀ order s, peers + 1 ≤ order.length → awaitStepResponses opName responses peers order ≠ .waiting s := by
  have hended : ∀ order, Ended responses peers (peers + 1) order (awaitStepResponses opName responses peers order) := by
    intro order
    have h := await_ended opName order (seen_start responses peers)
    rwa [left_start] at h
  have hvalue : ∀ order r, awaitStepResponses opName responses peers order = .returned r →
      ∀ outcome, r = .outcome (.ok outcome) ↔ AllAnswered responses peers outcome := by
    intro order r hr outcome
    have h := hended order
    rw [hr] at h
    rcases r with (error | value) | rank
    · exact ⟨nofun, fun hall => absurd hall (h.not_allAnswered outcome)⟩
    · constructor
      · rintro ⟨⟩
        exact h.1
      · intro hall
        have hsame := h.1.1.symm.trans hall.1
        rw [StepResponse.ok.injEq] at hsame
        rw [hsame]
    · exact ⟨nofun, fun hall => absurd hall (h.not_allAnswered outcome)⟩
  refine ⟨fun order r hr => ⟨hvalue order r hr, ?_⟩, fun order order' r r' hr hr' outcome => ?_,
    fun order s hlen hwait => ?_⟩
  · rintro outcome rfl
    have h := hended order
    rw [hr] at h
    exact h.2
  · exact (hvalue order r hr outcome).trans (hvalue order' r' hr' outcome).symm
  · have h := hended order
    rw [hwait] at h
    exact absurd h (Nat.not_lt.2 hlen)

/-- rank 0 first or last of three: the same value -/
theorem await_order_independent_two_peers :
    let responses : ℕ → StepResponse ℕ := fun rank => if rank = 0 then .ok (.decode 7) else .ok .ack
    awaitStepResponses "decode" responses 2 [0, 0, 0] = .returned (.outcome (.ok (.decode 7))) ∧
      awaitStepResponses "decode" responses 2 [2, 1, 0] = .returned (.outcome (.ok (.decode 7))) ∧
      AllAnswered responses 2 (.decode 7) := by
  refine ⟨by decide, by decide, ?_⟩
  exact ((await_order_independent "decode" _ 2).1 [2, 1, 0] _ rfl).1 (.decode 7) |>.1 rfl

end Pegainfer.Qwen3
