/-
The ledger over a run of the TP8 scheduler.

- `Stage`: the running requests and a rest `W` make up the ledger.
- `prefillRequest_spec`, `decodeAdmissionMicrobatch_spec`, `prefillAll_spec`: the prefill turns admitted requests into
  running ones or ends them.
- `intake_spec`: admission reserves no more than the pool has.
- `decodeStep_spec`: a decode step keeps the stage.
- `wave_ledger`: every run is carried out and keeps the ledger.
-/
import Mathlib.Tactic
import Pegainfer.KimiK2.Wave

set_option linter.unusedSectionVars false

namespace Pegainfer.KimiK2.KimiK2Scheduler

open Pegainfer.Kvbm Pegainfer.Kvbm.SchedulableSequence Pegainfer.KvCache Pegainfer.Lib

variable {H : Type} [DecidableEq H] [BlockHash H] {stops : List Token} {submitted : List GenerateRequest}
  {pool : BlockPool H} {out : Outbox} {W : Share H} {ex : ForwardExecutor} {s : KimiK2Scheduler H} {req : GenerateRequest}

def activeShare (active : List (ActiveKimiRequest H)) : Share H := (active.map (·.state.share)).sum

def admittedShares (bs : ℕ) (reqs : List GenerateRequest) : Share H := (reqs.map (admittedShare bs)).sum

def pendingShares (reqs : List GenerateRequest) : Share H := (reqs.map pendingShare).sum

/-- the checks an admitted request has passed -/
def Admissible (req : GenerateRequest) : Prop := 1 ≤ req.maxTokens ∧ req.promptTokens ≠ []

/-- the running requests and the rest `W` make up the ledger -/
structure Stage (stops : List Token) (s : KimiK2Scheduler H) (W : Share H) : Prop where
  size : 0 < s.pool.blockSize
  live : ∀ a ∈ s.active, Live s.pool.blockSize a.state
  ledger : Ledger stops s.submitted s.pool s.out (activeShare s.active + W)

/-- what the prefill and decode functions leave alone -/
structure SameQueue (s s' : KimiK2Scheduler H) : Prop where
  pending : s'.pending = s.pending
  submitted : s'.submitted = s.submitted
  pool : SamePool s.pool s'.pool

theorem SameQueue.refl (s : KimiK2Scheduler H) : SameQueue s s := ⟨rfl, rfl, .refl _⟩

theorem SameQueue.trans {s₁ s₂ s₃ : KimiK2Scheduler H} (h : SameQueue s₁ s₂) (h' : SameQueue s₂ s₃) : SameQueue s₁ s₃ :=
  ⟨h'.pending.trans h.pending, h'.submitted.trans h.submitted, h.pool.trans h'.pool⟩

/-- the stage after a change that keeps the queue -/
theorem Stage.next {s' : KimiK2Scheduler H} {W' : Share H} (h : Stage stops s W) (hq : SameQueue s s')
    (hlive : ∀ a ∈ s'.active, a ∈ s.active ∨ Live s.pool.blockSize a.state)
    (hl : Ledger stops s.submitted s'.pool s'.out (activeShare s'.active + W')) : Stage stops s' W' := by
  refine ⟨?_, ?_, by rw [hq.submitted]; exact hl⟩
  · rw [hq.pool.blockSize]
    exact h.size
  · intro a ha
    rw [hq.pool.blockSize]
    rcases hlive a ha with ha | ha
    · exact h.live a ha
    · exact ha

@[simp] theorem activeShare_nil : activeShare ([] : List (ActiveKimiRequest H)) = 0 := rfl

@[simp] theorem activeShare_cons (a : ActiveKimiRequest H) (active : List (ActiveKimiRequest H)) :
    activeShare (a :: active) = a.state.share + activeShare active := rfl

theorem activeShare_append (as bs : List (ActiveKimiRequest H)) :
    activeShare (as ++ bs) = activeShare as + activeShare bs := by
  rw [activeShare, List.map_append, List.sum_append]
  rfl

/-- the request a settled first token leaves -/
theorem activeShare_option (o : Option (RequestState H)) (slot size : ℕ) :
    activeShare (o.map fun state => (⟨state, slot, size⟩ : ActiveKimiRequest H)).toList = slotShare o := by
  cases o with
  | none => rfl
  | some state => exact add_zero _

theorem mem_optionActive {o : Option (RequestState H)} {slot size : ℕ} {a : ActiveKimiRequest H}
    (h : a ∈ (o.map fun state => (⟨state, slot, size⟩ : ActiveKimiRequest H)).toList) : o = some a.state := by
  cases o with
  | none => simp at h
  | some state =>
    obtain rfl : a = ⟨state, slot, size⟩ := by simpa using h
    rfl

theorem admittedShares_cons (bs : ℕ) (req : GenerateRequest) (reqs : List GenerateRequest) :
    (admittedShares bs (req :: reqs) : Share H) = admittedShare bs req + admittedShares bs reqs := rfl

theorem admittedShares_append (bs : ℕ) (rs qs : List GenerateRequest) :
    (admittedShares bs (rs ++ qs) : Share H) = admittedShares bs rs + admittedShares bs qs := by
  rw [admittedShares, List.map_append, List.sum_append]
  rfl

theorem pendingShares_append (rs qs : List GenerateRequest) :
    (pendingShares (rs ++ qs) : Share H) = pendingShares rs + pendingShares qs := by
  rw [pendingShares, List.map_append, List.sum_append]
  rfl

/-! ## Prefill -/

/-- **One prefill.** -/
theorem prefillRequest_spec [PositionalHash H] (ex : ForwardExecutor) (slot size : ℕ)
    (h : Stage stops s (admittedShare s.pool.blockSize req + W)) (hreq : Admissible req) :
    ∃ s', prefillRequest ex stops req slot size s = .ok s' ∧ Stage stops s' W ∧ SameQueue s s' := by
  have hled : Ledger stops s.submitted s.pool s.out
      (admittedShare s.pool.blockSize req + (activeShare s.active + W)) := by
    rw [add_left_comm]
    exact h.ledger
  unfold prefillRequest
  rcases scheduleRequestKv_spec hled h.size hreq.2 with ⟨kv, pool', heq, hl, hsame, hpre⟩ | ⟨pool', out', heq, hl, hsame, -⟩
  · simp only [heq]
    cases ex.forwardPrefill s.calls.length with
    | none =>
      obtain ⟨hl', hs', -⟩ := failKv_spec (n := 0) (m := .promptForward slot) hl (Or.inl ⟨rfl, rfl⟩) (fun _ => rfl)
      exact ⟨_, rfl, h.next ⟨rfl, rfl, hsame.trans hs'⟩ (fun a ha => Or.inl ha) hl', rfl, rfl, hsame.trans hs'⟩
    | some token =>
      rw [← hsame.blockSize] at hpre
      obtain ⟨o, pool'', out'', heq', hl', hs', -, hlive⟩ := settleFirst_spec .prefillBookkeeping token hl hpre hreq.1
      simp only [heq']
      refine ⟨_, rfl, h.next ⟨rfl, rfl, hsame.trans hs'⟩ ?_ ?_, rfl, rfl, hsame.trans hs'⟩
      · intro a ha
        rcases List.mem_append.1 ha with ha | ha
        · exact Or.inl ha
        · have := (hlive a.state (mem_optionActive ha)).1
          rw [hsame.blockSize] at this
          exact Or.inr this
      · rw [activeShare_append, activeShare_option, add_comm (activeShare s.active), add_assoc]
        exact hl'
  · simp only [heq]
    exact ⟨_, rfl, h.next ⟨rfl, rfl, hsame⟩ (fun a ha => Or.inl ha) hl, rfl, rfl, hsame⟩

def groupShare (rows : List (GroupRow H)) : Share H := (rows.map fun r => kvShare r.req .admitted r.kv).sum

/-- a scheduled row of an admission -/
def RowReady (bs : ℕ) (r : GroupRow H) : Prop :=
  Prefilling bs r.req.promptTokens.length r.req.maxTokens r.kv ∧ 1 ≤ r.req.maxTokens

theorem scheduleGroup_spec [PositionalHash H] (group : List (ℕ × GenerateRequest)) :
    ∀ {pool : BlockPool H} {out : Outbox} {W : Share H},
      Ledger stops submitted pool out (admittedShares pool.blockSize (group.map Prod.snd) + W) → 0 < pool.blockSize →
      (∀ g ∈ group, Admissible g.2) →
      ∃ rows pool' out', scheduleGroup group pool out = .ok (rows, pool', out') ∧
        Ledger stops submitted pool' out' (groupShare rows + W) ∧ SamePool pool pool' ∧
        ∀ r ∈ rows, RowReady pool.blockSize r := by
  induction group with
  | nil =>
    intro pool out W h _ _
    exact ⟨[], pool, out, rfl, h, .refl _, by simp⟩
  | cons g group ih =>
    obtain ⟨slot, req⟩ := g
    intro pool out W h hb hadm
    rw [List.map_cons, admittedShares_cons, add_assoc] at h
    obtain ⟨hmax, hp⟩ := hadm (slot, req) (by simp)
    have hrest : ∀ g ∈ group, Admissible g.2 := fun g hg => hadm g (by simp [hg])
    unfold scheduleGroup
    rcases scheduleRequestKv_spec h hb hp with ⟨kv, pool₁, heq, hl, hsame, hpre⟩ | ⟨pool₁, out₁, heq, hl, hsame, -⟩
    · rw [add_left_comm, ← hsame.blockSize] at hl
      obtain ⟨rows, pool₂, out₂, heq₂, hl₂, hsame₂, hrows⟩ := ih hl (by rw [hsame.blockSize]; exact hb) hrest
      simp only [heq, heq₂]
      refine ⟨_, pool₂, out₂, rfl, ?_, hsame.trans hsame₂, ?_⟩
      · rw [add_left_comm] at hl₂
        rw [groupShare, List.map_cons, List.sum_cons, add_assoc]
        exact hl₂
      · intro r hr
        rcases List.mem_cons.1 hr with rfl | hr
        · exact ⟨hpre, hmax⟩
        · have := hrows r hr
          rwa [hsame.blockSize] at this
    · rw [← hsame.blockSize] at hl
      obtain ⟨rows, pool₂, out₂, heq₂, hl₂, hsame₂, hrows⟩ := ih hl (by rw [hsame.blockSize]; exact hb) hrest
      simp only [heq, heq₂]
      refine ⟨_, pool₂, out₂, rfl, hl₂, hsame.trans hsame₂, ?_⟩
      intro r hr
      have := hrows r hr
      rwa [hsame.blockSize] at this

theorem failGroup_spec {m : Failure} (hm : m.isAccounting = false) (rows : List (GroupRow H)) :
    ∀ {pool : BlockPool H} {out : Outbox}, Ledger stops submitted pool out (groupShare rows + W) →
      Ledger stops submitted (failGroup m rows pool out).1 (failGroup m rows pool out).2 W ∧
        SamePool pool (failGroup m rows pool out).1 := by
  induction rows with
  | nil =>
    intro pool out h
    rw [groupShare, List.map_nil, List.sum_nil, zero_add] at h
    exact ⟨h, .refl _⟩
  | cons row rows ih =>
    intro pool out h
    rw [groupShare, List.map_cons, List.sum_cons, add_assoc] at h
    obtain ⟨hl, hs, -⟩ := failKv_spec (n := 0) (m := m) h (Or.inl ⟨rfl, rfl⟩) (fun _ => hm)
    obtain ⟨hl', hs'⟩ := ih hl
    exact ⟨hl', hs.trans hs'⟩

theorem settleGroup_spec (size : ℕ) (report : ℕ → Token) (rows : List (GroupRow H)) :
    ∀ (i : ℕ) {pool : BlockPool H} {out : Outbox} {W : Share H}, Ledger stops submitted pool out (groupShare rows + W) →
      (∀ r ∈ rows, RowReady pool.blockSize r) →
      ∃ active pool' out', settleGroup stops size report i rows pool out = .ok (active, pool', out') ∧
        Ledger stops submitted pool' out' (activeShare active + W) ∧ SamePool pool pool' ∧
        ∀ a ∈ active, Live pool.blockSize a.state := by
  induction rows with
  | nil =>
    intro i pool out W h _
    exact ⟨[], pool, out, rfl, h, .refl _, by simp⟩
  | cons row rows ih =>
    intro i pool out W h hrows
    rw [groupShare, List.map_cons, List.sum_cons, add_assoc] at h
    obtain ⟨hpre, hmax⟩ := hrows row (by simp)
    obtain ⟨o, pool₁, out₁, heq, hl, hsame, -, hlive⟩ :=
      settleFirst_spec .admissionBookkeeping (report i) h hpre hmax
    rw [add_left_comm] at hl
    obtain ⟨active, pool₂, out₂, heq₂, hl₂, hsame₂, hact⟩ := ih (i + 1) hl (by
      intro r hr
      rw [hsame.blockSize]
      exact hrows r (by simp [hr]))
    unfold settleGroup
    simp only [heq, heq₂]
    refine ⟨_, pool₂, out₂, rfl, ?_, hsame.trans hsame₂, ?_⟩
    · rw [add_left_comm] at hl₂
      rw [activeShare_append, activeShare_option, add_assoc]
      exact hl₂
    · intro a ha
      rcases List.mem_append.1 ha with ha | ha
      · exact (hlive a.state (mem_optionActive ha)).1
      · have := hact a ha
        rwa [hsame.blockSize] at this

/-- **Decode admission.** -/
theorem decodeAdmissionMicrobatch_spec [PositionalHash H] (ex : ForwardExecutor) (size : ℕ) {group : List (ℕ × GenerateRequest)}
    (h : Stage stops s (admittedShares s.pool.blockSize (group.map Prod.snd) + W))
    (hadm : ∀ g ∈ group, Admissible g.2) :
    ∃ s', decodeAdmissionMicrobatch ex stops group size s = .ok s' ∧ Stage stops s' W ∧ SameQueue s s' := by
  have hled := h.ledger
  rw [add_left_comm] at hled
  obtain ⟨rows, pool₁, out₁, heq, hl, hsame, hrows⟩ := scheduleGroup_spec group hled h.size hadm
  unfold decodeAdmissionMicrobatch
  cases rows with
  | nil =>
    rw [groupShare, List.map_nil, List.sum_nil, zero_add] at hl
    simp only [heq]
    exact ⟨_, rfl, h.next ⟨rfl, rfl, hsame⟩ (fun a ha => Or.inl ha) hl, rfl, rfl, hsame⟩
  | cons row rows =>
    simp only [heq]
    cases ex.forwardDecodeBatch s.calls.length with
    | none =>
      obtain ⟨hl', hs'⟩ := failGroup_spec (m := .admissionForward) rfl _ hl
      exact ⟨_, rfl, h.next ⟨rfl, rfl, hsame.trans hs'⟩ (fun a ha => Or.inl ha) hl', rfl, rfl, hsame.trans hs'⟩
    | some report =>
      obtain ⟨active, pool₂, out₂, heq₂, hl₂, hsame₂, hact⟩ := settleGroup_spec size report _ 0 hl (by
        intro r hr
        rw [hsame.blockSize]
        exact hrows r hr)
      simp only [heq₂]
      refine ⟨_, rfl, h.next ⟨rfl, rfl, hsame.trans hsame₂⟩ ?_ ?_, rfl, rfl, hsame.trans hsame₂⟩
      · intro a ha
        rcases List.mem_append.1 ha with ha | ha
        · exact Or.inl ha
        · have := hact a ha
          rw [hsame.blockSize] at this
          exact Or.inr this
      · rw [activeShare_append, add_comm (activeShare s.active), add_assoc]
        exact hl₂

/-- **The prefill loop.** Every admitted request runs or has ended. -/
theorem prefillAll_spec [PositionalHash H] (size : ℕ) (reqs : List GenerateRequest) :
    ∀ (slot : ℕ) (admissions : List (ℕ × GenerateRequest)) {s : KimiK2Scheduler H},
      Stage stops s (admittedShares s.pool.blockSize (admissions.map Prod.snd) +
        (admittedShares s.pool.blockSize reqs + W)) →
      (∀ g ∈ admissions, Admissible g.2) → (∀ req ∈ reqs, Admissible req) →
      ∃ s', prefillAll ex stops size slot reqs admissions s = .ok s' ∧ Stage stops s' W ∧ SameQueue s s' := by
  have hflush : ∀ {s : KimiK2Scheduler H} {V : Share H} (admissions : List (ℕ × GenerateRequest)),
      Stage stops s (admittedShares s.pool.blockSize (admissions.map Prod.snd) + V) →
      (∀ g ∈ admissions, Admissible g.2) →
      ∃ s', (if admissions = [] then .ok s else decodeAdmissionMicrobatch ex stops admissions size s) = .ok s' ∧
        Stage stops s' V ∧ SameQueue s s' := by
    intro s V admissions h hadm
    split_ifs with hnil
    · rw [hnil, List.map_nil, admittedShares, List.map_nil, List.sum_nil, zero_add] at h
      exact ⟨s, rfl, h, .refl s⟩
    · exact decodeAdmissionMicrobatch_spec ex size h hadm
  induction reqs with
  | nil =>
    intro slot admissions s h hadm _
    rw [admittedShares, admittedShares, List.map_nil, List.sum_nil, zero_add] at h
    exact hflush admissions h hadm
  | cons req reqs ih =>
    intro slot admissions s h hadm hreqs
    have hreq : Admissible req := hreqs req (by simp)
    have hrest : ∀ r ∈ reqs, Admissible r := fun r hr => hreqs r (by simp [hr])
    have hmore : Stage stops s (admittedShares s.pool.blockSize ((admissions ++ [(slot, req)]).map Prod.snd) +
        (admittedShares s.pool.blockSize reqs + W)) := by
      have hone : (admittedShares s.pool.blockSize [req] : Share H) = admittedShare s.pool.blockSize req := add_zero _
      rw [List.map_append, admittedShares_append, add_assoc, List.map_singleton, hone]
      rwa [admittedShares_cons, add_assoc] at h
    have hadm' : ∀ g ∈ admissions ++ [(slot, req)], Admissible g.2 := by
      intro g hg
      rcases List.mem_append.1 hg with hg | hg
      · exact hadm g hg
      · obtain rfl := List.mem_singleton.1 hg
        exact hreq
    unfold prefillAll
    by_cases hone : req.promptTokens.length = 1
    · simp only [hone, if_true]
      by_cases hfull : (admissions ++ [(slot, req)]).length = kimiDecodeAdmissionMicrobatch
      · obtain ⟨s₁, heq, hst, hq⟩ := decodeAdmissionMicrobatch_spec ex size hmore hadm'
        rw [← hq.pool.blockSize] at hst
        obtain ⟨s₂, heq₂, hst₂, hq₂⟩ := ih (slot + 1) [] (s := s₁) (by simpa [admittedShares] using hst) (by simp) hrest
        simp only [hfull, if_true, heq]
        exact ⟨s₂, heq₂, hst₂, hq.trans hq₂⟩
      · simp only [hfull, if_false]
        exact ih (slot + 1) _ hmore hadm' hrest
    · obtain ⟨s₁, heq, hst, hq⟩ := hflush admissions h hadm
      rw [← hq.pool.blockSize, admittedShares_cons, add_assoc] at hst
      obtain ⟨s₂, heq₂, hst₂, hq₂⟩ := prefillRequest_spec ex slot size hst hreq
      rw [← hq₂.pool.blockSize] at hst₂
      obtain ⟨s₃, heq₃, hst₃, hq₃⟩ := ih (slot + 1) [] (s := s₂) (by simpa [admittedShares] using hst₂) (by simp) hrest
      simp only [hone, if_false, heq, heq₂]
      exact ⟨s₃, heq₃, hst₃, (hq.trans hq₂).trans hq₃⟩

/-! ## Admission -/

/-- the blocks the admitted requests are promised -/
def promised (bs : ℕ) (reqs : List GenerateRequest) : ℕ := (reqs.map (requestLifetimeBlocks · bs)).sum

theorem admittedShares_eq (bs : ℕ) (reqs : List GenerateRequest) :
    (admittedShares bs reqs : Share H) = (0, promised bs reqs, ↑(reqs.map fun r => (r, Phase.admitted))) := by
  induction reqs with
  | nil => rfl
  | cons req reqs ih =>
    rw [admittedShares_cons, ih, admittedShare]
    simp [promised]

theorem pendingShares_eq (reqs : List GenerateRequest) :
    (pendingShares reqs : Share H) = (0, 0, ↑(reqs.map fun r => (r, Phase.pending))) := by
  induction reqs with
  | nil => rfl
  | cons req reqs ih =>
    have hcons : (pendingShares (req :: reqs) : Share H) = pendingShare req + pendingShares reqs := rfl
    rw [hcons, ih, pendingShare]
    simp

/-- the bag of an admission loop -/
def intakeBag (i : Intake) (rest : List GenerateRequest) (V : Multiset (GenerateRequest × Phase)) :
    Multiset (GenerateRequest × Phase) :=
  ↑(i.deferred.map fun r => (r, Phase.pending)) + ↑(i.prefillReqs.map fun r => (r, Phase.admitted)) +
    (↑(rest.map fun r => (r, Phase.pending)) + V)

/-- what the admission loop keeps -/
structure IntakeInv (stops : List Token) (submitted : List GenerateRequest) (bs available start : ℕ) (i : Intake)
    (rest : List GenerateRequest) (V : Multiset (GenerateRequest × Phase)) : Prop where
  book : Book stops i.out submitted (intakeBag i rest V)
  budget : i.budget + promised bs i.prefillReqs = available
  admissible : ∀ req ∈ i.prefillReqs, Admissible req
  revivals : i.out.revivals = start
  clean : start = 0 → Clean i.out

theorem intakeRequest_spec {bs maxBlocks available revivals : ℕ} {i : Intake} {rest : List GenerateRequest}
    {V : Multiset (GenerateRequest × Phase)} (h : IntakeInv stops submitted bs available revivals i (req :: rest) V) :
    IntakeInv stops submitted bs available revivals (intakeRequest bs maxBlocks i req) rest V := by
  set B := ↑(i.deferred.map fun r => (r, Phase.pending)) + ↑(i.prefillReqs.map fun r => (r, Phase.admitted)) +
    (↑(rest.map fun r => (r, Phase.pending)) + V) with hB
  have hcons : intakeBag i (req :: rest) V = (req, Phase.pending) ::ₘ B := by
    simp only [intakeBag, hB, List.map_cons, ← Multiset.cons_coe, Multiset.cons_add, Multiset.add_cons]
  have hbook := h.book
  rw [hcons] at hbook
  -- a request that leaves here has its whole stream
  have hleave : ∀ out', Book stops out' submitted B → Frame i.out out' req.tokenTx → out'.revivals = i.out.revivals →
      (Clean i.out → Clean out') → IntakeInv stops submitted bs available revivals { i with out := out' } rest V := by
    intro out' hb _ hr hc
    exact ⟨hb, h.budget, h.admissible, hr.trans h.revivals, fun h0 => hc (h.clean h0)⟩
  unfold intakeRequest
  rcases preflight_spec hbook with ⟨heq, hmax, hprompt⟩ | ⟨out', heq, hr, hb, hf, hc⟩
  · simp only [heq]
    cases tp8RowRefusal (rowOptions req) with
    | some message =>
      obtain ⟨hb, hf, hc⟩ := terminate_spec (e := .rejected message req.promptTokens.length 0) hbook rfl rfl
      exact hleave _ hb hf rfl hc
    | none =>
      cases validateKvCapacity req bs maxBlocks none with
      | some message =>
        obtain ⟨hb, hf, hc⟩ := terminate_spec (e := .rejected message req.promptTokens.length 0) hbook rfl rfl
        exact hleave _ hb hf rfl hc
      | none =>
        simp only
        split_ifs with hlt
        · refine ⟨?_, h.budget, h.admissible, h.revivals, h.clean⟩
          have hbag : intakeBag { i with deferred := i.deferred ++ [req] } rest V = (req, Phase.pending) ::ₘ B := by
            simp only [intakeBag, hB, List.map_append, List.map_singleton, ← Multiset.coe_add,
              Multiset.coe_singleton, ← Multiset.singleton_add]
            abel
          rw [hbag]
          exact hbook
        · obtain ⟨hb, hf, hc⟩ := sendScheduled_spec hbook
          refine ⟨?_, ?_, ?_, h.revivals, fun h0 => hc (h.clean h0)⟩
          · have hbag : intakeBag { i with
                budget := i.budget - requestLifetimeBlocks req bs
                prefillReqs := i.prefillReqs ++ [req]
                out := sendScheduled req i.out } rest V = (req, Phase.admitted) ::ₘ B := by
              simp only [intakeBag, hB, List.map_append, List.map_singleton, ← Multiset.coe_add,
                Multiset.coe_singleton, ← Multiset.singleton_add]
              abel
            rw [hbag]
            exact hb
          · have := h.budget
            simp only [promised, List.map_append, List.map_singleton, List.sum_append, List.sum_singleton] at this ⊢
            omega
          · intro r hr
            rcases List.mem_append.1 hr with hr | hr
            · exact h.admissible r hr
            · obtain rfl := List.mem_singleton.1 hr
              exact ⟨hmax, hprompt⟩
  · simp only [heq]
    exact hleave out' hb hf hr hc

theorem intake_spec (maxBlocks : ℕ) {bs available start : ℕ} {V : Multiset (GenerateRequest × Phase)}
    (batch : List GenerateRequest) : ∀ {i : Intake}, IntakeInv stops submitted bs available start i batch V →
      IntakeInv stops submitted bs available start (batch.foldl (intakeRequest bs maxBlocks) i) [] V := by
  induction batch with
  | nil => exact fun h => h
  | cons req rest ih => exact fun h => ih (intakeRequest_spec h)

/-- the errors of an arena that could not be allocated end the admitted requests -/
theorem failPrefillReqs_spec {m : Failure} (hm : m.isAccounting = false)
    {V : Multiset (GenerateRequest × Phase)} (reqs : List GenerateRequest) :
    ∀ {out : Outbox}, Book stops out submitted (↑(reqs.map fun r => (r, Phase.admitted)) + V) →
      Book stops (failPrefillReqs m reqs out) submitted V ∧
        (failPrefillReqs m reqs out).revivals = out.revivals ∧
        (Clean out → Clean (failPrefillReqs m reqs out)) := by
  induction reqs with
  | nil =>
    intro out h
    rw [List.map_nil, Multiset.coe_nil, zero_add] at h
    exact ⟨h, rfl, fun hc => hc⟩
  | cons req reqs ih =>
    intro out h
    rw [List.map_cons, ← Multiset.cons_coe, Multiset.cons_add] at h
    have hp := (h.phase (req, .admitted) (Multiset.mem_cons_self _ _)).2
    have hf := frame_send out req.tokenTx (.error m req.promptTokens.length 0)
    obtain ⟨h1, h2, h3⟩ := ih (h.close hf (hp.ends_admitted rfl))
    exact ⟨h1, h2, fun hc => h3 (hc.send _ hm)⟩

/-! ## The decode loop -/

theorem scheduleActive_spec (active : List (ActiveKimiRequest H)) :
    ∀ {pool : BlockPool H} {W : Share H}, Ledger stops submitted pool out (activeShare active + W) →
      (∀ a ∈ active, Live pool.blockSize a.state) →
      ∃ active' err pool', scheduleActive active pool = .ok (active', err, pool') ∧
        Ledger stops submitted pool' out (activeShare active' + W) ∧ SamePool pool pool' ∧
        (err ≠ none → out.revivals ≠ 0) ∧ (err = none → ∀ a ∈ active', Stepping pool.blockSize a.state) := by
  induction active with
  | nil =>
    intro pool W h _
    exact ⟨[], none, pool, rfl, h, .refl _, by simp, by simp⟩
  | cons a active ih =>
    intro pool W h hlive
    rw [activeShare_cons, add_assoc] at h
    unfold scheduleActive
    rcases scheduleDecode_spec h (hlive a (by simp)) with ⟨kv, pool₁, heq, hl, hsame, hst⟩ | ⟨n, heq, hrev⟩
    · rw [add_left_comm] at hl
      obtain ⟨active', err, pool₂, heq₂, hl₂, hsame₂, herr, hok⟩ := ih hl (by
        intro b hb
        rw [hsame.blockSize]
        exact hlive b (by simp [hb]))
      simp only [heq, heq₂]
      refine ⟨_, err, pool₂, rfl, ?_, hsame.trans hsame₂, herr, ?_⟩
      · rw [add_left_comm] at hl₂
        rw [activeShare_cons, add_assoc]
        exact hl₂
      · intro hnone b hb
        rcases List.mem_cons.1 hb with rfl | hb
        · exact hst
        · have := hok hnone b hb
          rwa [hsame.blockSize] at this
    · simp only [heq]
      refine ⟨_, _, pool, rfl, ?_, .refl _, fun _ => hrev, by simp⟩
      rw [activeShare_cons, add_assoc]
      exact h

theorem failActive_spec {m : Failure} (active : List (ActiveKimiRequest H)) :
    ∀ {pool : BlockPool H} {out : Outbox}, Ledger stops submitted pool out (activeShare active + W) →
      (out.revivals = 0 → m.isAccounting = false) →
      Ledger stops submitted (failActive m active pool out).1 (failActive m active pool out).2 W ∧
        SamePool pool (failActive m active pool out).1 := by
  induction active with
  | nil =>
    intro pool out h _
    rw [activeShare_nil, zero_add] at h
    exact ⟨h, .refl _⟩
  | cons a active ih =>
    intro pool out h hm
    rw [activeShare_cons, add_assoc] at h
    obtain ⟨hl, hs, hf⟩ := failKv_spec (m := m) h (Or.inr rfl) hm
    obtain ⟨hl', hs'⟩ := ih hl fun h0 => hm (Nat.le_zero.1 (h0 ▸ hf.revivals))
    exact ⟨hl', hs.trans hs'⟩

/-- rows after their reports: a retired one holds its blocks, the others run -/
def rowsShare (rows : List (ActiveKimiRequest H × Bool)) : Share H :=
  (rows.map fun r => doneShare (!r.2) r.1.state).sum

theorem settleActive_spec (report : ℕ → Token) (active : List (ActiveKimiRequest H)) :
    ∀ (i : ℕ) {pool : BlockPool H} {out : Outbox} {W : Share H},
      Ledger stops submitted pool out (activeShare active + W) → (∀ a ∈ active, Stepping pool.blockSize a.state) →
      ∃ rows pool' out', settleActive stops report i active pool out = .ok (rows, pool', out') ∧
        Ledger stops submitted pool' out' (rowsShare rows + W) ∧ SamePool pool pool' ∧
        ∀ r ∈ rows, r.2 = false → Live pool.blockSize r.1.state := by
  induction active with
  | nil =>
    intro i pool out W h _
    exact ⟨[], pool, out, rfl, h, .refl _, by simp⟩
  | cons a active ih =>
    intro i pool out W h hstep
    rw [activeShare_cons, add_assoc] at h
    obtain ⟨more, state, pool₁, out₁, heq, hl, hsame, -, -, -, hmore⟩ :=
      settleDecode_spec (report i) h (hstep a (by simp))
    rw [add_left_comm] at hl
    obtain ⟨rows, pool₂, out₂, heq₂, hl₂, hsame₂, hrows⟩ := ih (i + 1) hl (by
      intro b hb
      rw [hsame.blockSize]
      exact hstep b (by simp [hb]))
    unfold settleActive
    simp only [heq, heq₂]
    refine ⟨_, pool₂, out₂, rfl, ?_, hsame.trans hsame₂, ?_⟩
    · rw [add_left_comm] at hl₂
      rw [rowsShare, List.map_cons, List.sum_cons, add_assoc]
      rw [Bool.not_not]
      exact hl₂
    · intro r hr hfalse
      rcases List.mem_cons.1 hr with rfl | hr
      · exact (hmore (by simpa using hfalse)).1
      · have := hrows r hr hfalse
        rwa [hsame.blockSize] at this

/-- the retired rows give their blocks back -/
theorem dropAll_spec (rows : List (ActiveKimiRequest H × Bool)) :
    ∀ {pool : BlockPool H},
      Ledger stops submitted pool out ((rows.map fun r => guardShare r.1.state.kv.holdings).sum + W) →
      Ledger stops submitted (rows.foldl (fun pool r => pool.dropKv r.1.state.kv) pool) out W ∧
        SamePool pool (rows.foldl (fun pool r => pool.dropKv r.1.state.kv) pool) := by
  induction rows with
  | nil =>
    intro pool h
    rw [List.map_nil, List.sum_nil, zero_add] at h
    exact ⟨h, .refl _⟩
  | cons r rows ih =>
    intro pool h
    rw [List.map_cons, List.sum_cons, add_assoc] at h
    obtain ⟨hl, hs⟩ := h.release
    obtain ⟨hl', hs'⟩ := ih hl
    exact ⟨hl', hs.trans hs'⟩

/-- the rows by whether they retire -/
theorem rowsShare_split (rows : List (ActiveKimiRequest H × Bool)) :
    rowsShare rows = ((rows.filter Prod.snd).reverse.map fun r => guardShare r.1.state.kv.holdings).sum +
      activeShare ((removeWhere Prod.snd rows).map Prod.fst) := by
  have hperm := List.filter_append_perm Prod.snd rows
  have hkept := removeWhere_perm Prod.snd rows
  calc rowsShare rows
      = ((rows.filter Prod.snd ++ rows.filter fun r => !r.2).map fun r => doneShare (!r.2) r.1.state).sum :=
        ((hperm.map _).sum_eq).symm
    _ = ((rows.filter Prod.snd).map fun r => doneShare (!r.2) r.1.state).sum +
          ((rows.filter fun r => !r.2).map fun r => doneShare (!r.2) r.1.state).sum := by
        rw [List.map_append, List.sum_append]
    _ = ((rows.filter Prod.snd).reverse.map fun r => guardShare r.1.state.kv.holdings).sum +
          ((removeWhere Prod.snd rows).map fun r => r.1.state.share).sum := by
        congr 1
        · rw [((List.reverse_perm (rows.filter Prod.snd)).map _).sum_eq]
          refine congrArg List.sum (List.map_congr_left fun r hr => ?_)
          have hr2 : r.2 = true := (List.mem_filter.1 hr).2
          simp [doneShare, hr2]
        · rw [(hkept.map fun r => r.1.state.share).sum_eq]
          refine congrArg List.sum (List.map_congr_left fun r hr => ?_)
          have hr2 : r.2 = false := by simpa using (List.mem_filter.1 hr).2
          simp [doneShare, hr2]
    _ = _ := by
        rw [activeShare, List.map_map]
        rfl

/-- **A decode step.** -/
theorem decodeStep_spec (h : Stage stops s W) :
    ∃ s', decodeStep ex stops s = .ok s' ∧ Stage stops s' W ∧ SameQueue s s' := by
  obtain ⟨active', err, pool₁, heq, hl, hsame, herr, hok⟩ := scheduleActive_spec s.active h.ledger h.live
  unfold decodeStep
  cases err with
  | some r =>
    obtain ⟨hl', hs'⟩ := failActive_spec (m := .decodeAccounting r) active' hl
      (fun h0 => absurd h0 (herr (by simp)))
    simp only [heq]
    refine ⟨_, rfl, h.next ⟨rfl, rfl, hsame.trans hs'⟩ (by simp) ?_, rfl, rfl, hsame.trans hs'⟩
    rw [activeShare_nil, zero_add]
    exact hl'
  | none =>
    simp only [heq]
    cases ex.forwardDecodeBatch s.calls.length with
    | none =>
      obtain ⟨hl', hs'⟩ := failActive_spec (m := .decodeForward) active' hl (fun _ => rfl)
      refine ⟨_, rfl, h.next ⟨rfl, rfl, hsame.trans hs'⟩ (by simp) ?_, rfl, rfl, hsame.trans hs'⟩
      rw [activeShare_nil, zero_add]
      exact hl'
    | some report =>
      obtain ⟨rows, pool₂, out₂, heq₂, hl₂, hsame₂, hrows⟩ := settleActive_spec report active' 0 hl (by
        intro a ha
        rw [hsame.blockSize]
        exact hok rfl a ha)
      rw [rowsShare_split, add_assoc] at hl₂
      obtain ⟨hl₃, hsame₃⟩ := dropAll_spec _ hl₂
      have hall := (hsame.trans hsame₂).trans hsame₃
      simp only [heq₂]
      refine ⟨_, rfl, h.next ⟨rfl, rfl, hall⟩ ?_ hl₃, rfl, rfl, hall⟩
      intro a ha
      obtain ⟨r, hr, rfl⟩ := List.mem_map.1 ha
      have hmem := List.mem_filter.1 ((removeWhere_perm Prod.snd rows).mem_iff.1 hr)
      have := hrows r hmem.1 (by simpa using hmem.2)
      rw [hsame.blockSize] at this
      exact Or.inr this

/-! ## Runs -/

/-- the state of the scheduler between two turns; `guards` is the padding block's -/
def Inv (stops : List Token) (guards : Holdings H) (s : KimiK2Scheduler H) : Prop :=
  Stage stops s (pendingShares s.pending + guardShare guards)

theorem startWave_spec [PositionalHash H] {guards : Holdings H} (h : Inv stops guards s) (hidle : s.active = []) :
    ∃ s', startWave ex stops s = .ok s' ∧ Inv stops guards s' := by
  have hled := h.ledger
  rw [hidle, activeShare_nil, zero_add] at hled
  set batch := s.pending.take kimiRunnerMaxBatch with hbatch
  set i₀ : Intake := ⟨s.pool.availableBlocks, [], [], s.out⟩ with hi₀
  set rest := s.pending.drop kimiRunnerMaxBatch with hrest
  set V : Multiset (GenerateRequest × Phase) := ↑(rest.map fun r => (r, Phase.pending)) with hV
  have hinit : IntakeInv stops s.submitted s.pool.blockSize s.pool.availableBlocks s.out.revivals i₀ batch V := by
    refine ⟨?_, rfl, by simp [hi₀], rfl, fun h0 => hled.clean h0⟩
    have hb := hled.book
    have hsplit : batch ++ rest = s.pending := List.take_append_drop _ _
    rw [guardShare, ← hsplit, pendingShares_eq] at hb
    simpa [intakeBag, hV, hi₀] using hb
  have hint := intake_spec s.pool.maxRequestBlocks batch hinit
  set i := batch.foldl (intakeRequest s.pool.blockSize s.pool.maxRequestBlocks) i₀ with hi
  have hacc : Account s.pool guards := by
    have := hled.account
    rw [guardShare, pendingShares_eq] at this
    simpa using this
  unfold startWave
  simp only [← hbatch, ← hrest, ← hi₀, ← hi]
  have hstage : Stage stops { s with pending := i.deferred ++ rest, out := i.out }
      (admittedShares s.pool.blockSize i.prefillReqs + (pendingShares (i.deferred ++ rest) + guardShare guards)) := by
    refine ⟨h.size, by simp [hidle], ?_, fun h0 => ?_, ?_, ?_⟩
    · simpa [hidle, admittedShares_eq, pendingShares_eq, guardShare] using hacc
    · have := hint.budget
      simp only [hidle, activeShare_nil, admittedShares_eq, pendingShares_eq, guardShare, Prod.snd_add, Prod.fst_add,
        zero_add, add_zero]
      omega
    · have hb := hint.book
      simp only [intakeBag, List.map_nil, Multiset.coe_nil, zero_add, hV] at hb
      simp only [hidle, activeShare_nil, admittedShares_eq, pendingShares_eq, guardShare, Prod.snd_add,
        zero_add, add_zero, List.map_append, ← Multiset.coe_add]
      convert hb using 1
      abel
    · intro h0
      have := hint.revivals
      exact hint.clean (by rw [← this]; exact h0)
  by_cases hnil : i.prefillReqs = []
  · simp only [hnil, if_true]
    rw [hnil, show (admittedShares s.pool.blockSize [] : Share H) = 0 from rfl, zero_add] at hstage
    exact ⟨_, rfl, hstage⟩
  · simp only [hnil, if_false]
    split_ifs with hready
    · obtain ⟨s', heq, hst, hq⟩ := prefillAll_spec i.prefillReqs.length i.prefillReqs 0 []
        (s := { s with pending := i.deferred ++ rest, out := i.out, calls := s.calls ++ [_] })
        (W := pendingShares (i.deferred ++ rest) + guardShare guards) (by
          have h' : Stage stops { s with
              pending := i.deferred ++ rest
              out := i.out
              calls := s.calls ++ [.ensureDecodeBatch i.prefillReqs.length] }
              (admittedShares s.pool.blockSize i.prefillReqs +
                (pendingShares (i.deferred ++ rest) + guardShare guards)) := ⟨hstage.size, hstage.live, hstage.ledger⟩
          simpa [admittedShares] using h') (by simp) hint.admissible
      refine ⟨s', heq, ?_⟩
      unfold Inv
      rw [hq.pending]
      exact hst
    · have hb := hint.book
      have hbag : intakeBag i [] V = ↑(i.prefillReqs.map fun r => (r, Phase.admitted)) +
          (↑(i.deferred.map fun r => (r, Phase.pending)) + V) := by
        simp only [intakeBag, List.map_nil, Multiset.coe_nil, zero_add]
        abel
      rw [hbag] at hb
      obtain ⟨hbook, hrev, hclean⟩ := failPrefillReqs_spec (m := .arenaAllocation i.prefillReqs.length) rfl _ hb
      refine ⟨_, rfl, ⟨h.size, by simp [hidle], ?_, fun _ => ?_, ?_, fun h0 => ?_⟩⟩
      · simpa [hidle, pendingShares_eq, guardShare] using hacc
      · simp [hidle, pendingShares_eq, guardShare]
      · simpa [hidle, pendingShares_eq, guardShare, hV] using hbook
      · rw [hrev, hint.revivals] at h0
        exact hclean (hint.clean h0)

theorem step_inv [PositionalHash H] {guards : Holdings H} (h : Inv stops guards s) (o : Op) :
    ∃ s', step ex stops s o = .ok s' ∧ Inv stops guards s' := by
  cases o with
  | submit req =>
    have hl := h.ledger.submit { req with tokenTx := s.submitted.length } rfl
    refine ⟨_, rfl, ⟨h.size, h.live, ?_⟩⟩
    have hone : (pendingShares [{ req with tokenTx := s.submitted.length }] : Share H) =
        pendingShare { req with tokenTx := s.submitted.length } := add_zero _
    rw [pendingShares_append, hone]
    convert hl using 1
    abel
  | turn =>
    unfold step
    split_ifs with hidle
    · exact startWave_spec h hidle
    · obtain ⟨s', heq, hst, hq⟩ := decodeStep_spec h
      refine ⟨s', heq, ?_⟩
      unfold Inv
      rw [hq.pending]
      exact hst

theorem new_inv [Inhabited H] {bs numBlocks : ℕ} {padding : ImmutableBlock H} (limit : ℕ → Option ℕ)
    (h : BlockPool.new bs numBlocks = .ok (pool, padding)) :
    Inv stops (Holdings.ofImmutable [padding]) (KimiK2Scheduler.new pool limit) := by
  have hf := new_fresh h
  refine ⟨?_, by simp [KimiK2Scheduler.new], ?_⟩
  · show 0 < pool.blockSize
    rw [hf.size]
    exact hf.positive
  · refine ⟨?_, fun _ => Nat.zero_le _, ?_, fun _ i e he => by simp [KimiK2Scheduler.new, Outbox.new] at he⟩
    · simpa [KimiK2Scheduler.new, pendingShares, guardShare] using hf.account
    · exact Book.nil ⟨limit, fun _ => [], fun _ => [], 0⟩

/-- **Runs.** Every run is carried out and keeps the ledger. -/
theorem wave_ledger [PositionalHash H] [Inhabited H] {bs numBlocks : ℕ} {padding : ImmutableBlock H}
    (limit : ℕ → Option ℕ) (h : BlockPool.new bs numBlocks = .ok (pool, padding)) (ops : List Op) :
    ∃ s, run (step ex stops) (KimiK2Scheduler.new pool limit) ops = .ok s ∧
      Inv stops (Holdings.ofImmutable [padding]) s :=
  run_total (P := fun _ _ => True) (fun _ o hs _ => step_inv hs o) ops _ (new_inv limit h) (stepsMeet_true _ ops)

end Pegainfer.KimiK2.KimiK2Scheduler
