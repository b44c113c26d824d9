/-
What the coordinator's operations on one rank do to its ledger and to its log.

- `DpRank.share`: what the requests in the slots contribute to the accounts.
- `dueReports`: the reports that go to requests, read off the commands sent.
- `scheduleSlots_spec`: scheduling the active slots gives one row for each request that stays, at its KV position.
- `processReports_spec`: the reports of a command go to the requests of its rows, in row order.
-/
import Mathlib.Tactic
import Pegainfer.KimiK2.Dp

set_option linter.unusedSectionVars false

namespace Pegainfer.KimiK2

open Pegainfer.Kvbm Pegainfer.Kvbm.SchedulableSequence Pegainfer.KvCache Pegainfer.Lib

variable {H : Type} [DecidableEq H] [BlockHash H]

/-! ## The log -/

def RowOwner.tokenTx : RowOwner → Option ℕ
  | .padding => none
  | .active i | .admission i => some i

/-- the request behind each row of a command -/
def StepCommand.owners : StepCommand → List (Option ℕ)
  | .decode rows _ _ => rows.map (·.owner.tokenTx)
  | .prefill _ _ _ _ _ _ _ _ owner => [owner]

/-- the reports of command `k` from row `row` on that go to requests -/
def dueFrom (token : ℕ → Token) (k : ℕ) : ℕ → List (Option ℕ) → List AppliedReport
  | _, [] => []
  | row, none :: owners => dueFrom token k (row + 1) owners
  | row, some i :: owners => ⟨k, row, i, token row⟩ :: dueFrom token k (row + 1) owners

/-- the reports of the commands from number `k` on that go to requests -/
def dueReports (report : ReportOracle) (r : ℕ) : ℕ → List SentCommand → List AppliedReport
  | _, [] => []
  | k, c :: cs => dueFrom (report r k) k 0 c.command.owners ++ dueReports report r (k + 1) cs

theorem dueReports_append (report : ReportOracle) (r : ℕ) (c : SentCommand) (cs : List SentCommand) :
    ∀ k, dueReports report r k (cs ++ [c]) =
      dueReports report r k cs ++ dueFrom (report r (k + cs.length)) (k + cs.length) 0 c.command.owners := by
  induction cs with
  | nil =>
    intro k
    simp [dueReports]
  | cons d cs ih =>
    intro k
    rw [List.cons_append, dueReports, ih (k + 1), dueReports, List.append_assoc, List.length_cons,
      Nat.add_right_comm, Nat.add_assoc k]

namespace DpRank

variable {stops : List Token} {submitted : List GenerateRequest} {out out' : Outbox} {V : Share H}
  {rk rk' : DpRank H} {bs : ℕ}

/-! ## The slots' share -/

/-- what the requests in the slots contribute -/
def share (rk : DpRank H) : Share H := ∑ i ∈ Finset.range maxBatchPerDp, slotShare (rk.slots i)

/-- the share of the slots other than `i` -/
def others (rk : DpRank H) (i : ℕ) : Share H := ∑ j ∈ (Finset.range maxBatchPerDp).erase i, slotShare (rk.slots j)

theorem share_eq (rk : DpRank H) {i : ℕ} (hi : i < maxBatchPerDp) : rk.share = slotShare (rk.slots i) + rk.others i :=
  (Finset.add_sum_erase _ _ (Finset.mem_range.2 hi)).symm

theorem share_setSlot (rk : DpRank H) {i : ℕ} (hi : i < maxBatchPerDp) (o : Option (RequestState H)) (p : BlockPool H) :
    (rk.setSlot i o p).share = slotShare o + rk.others i := by
  rw [share_eq _ hi]
  congr 1
  · simp [setSlot]
  · refine Finset.sum_congr rfl fun j hj => ?_
    simp [setSlot, Function.update_of_ne (Finset.ne_of_mem_erase hj)]

@[simp] theorem setSlot_self (rk : DpRank H) (i : ℕ) (o : Option (RequestState H)) (p : BlockPool H) :
    (rk.setSlot i o p).slots i = o := Function.update_self _ _ _

theorem setSlot_of_ne (rk : DpRank H) {i j : ℕ} (h : j ≠ i) (o : Option (RequestState H)) (p : BlockPool H) :
    (rk.setSlot i o p).slots j = rk.slots j := Function.update_of_ne h _ _

/-- the rank after operations that send nothing: its ledger, and what they leave alone -/
structure After (stops : List Token) (submitted : List GenerateRequest) (V : Share H) (rk : DpRank H) (out : Outbox)
    (rk' : DpRank H) (out' : Outbox) : Prop where
  ledger : Ledger stops submitted rk'.pool out' (rk'.share + V)
  pool : SamePool rk.pool rk'.pool
  revivals : out.revivals ≤ out'.revivals
  sent : rk'.sent = rk.sent
  received : rk'.received = rk.received

theorem After.trans {V' : Share H} {rk'' : DpRank H} {out'' : Outbox} (h : After stops submitted V rk out rk' out')
    (h' : After stops submitted V' rk' out' rk'' out'') : After stops submitted V' rk out rk'' out'' :=
  ⟨h'.ledger, h.pool.trans h'.pool, h.revivals.trans h'.revivals, h'.sent.trans h.sent, h'.received.trans h.received⟩

/-! ## Scheduling the active slots -/

/-- a row of a decode command, for the request in its slot -/
structure InputFor (rk : DpRank H) (x : DecodeInput) : Prop where
  state : ∃ st, rk.slots x.slot = some st ∧ st.tokenTx = x.owner
  position : x.appendPosition = x.kvPosition

/-- one slot: its request is scheduled, or failed and gone -/
theorem scheduleSlot_spec {i : ℕ} {st : RequestState H} (hi : i < maxBatchPerDp) (hst : rk.slots i = some st)
    (h : Ledger stops submitted rk.pool out (rk.share + V)) (hlive : Live rk.pool.blockSize st) :
    (∃ kv pool', rk.pool.call st.kv .scheduleDecode = .ok (.done, kv, pool') ∧
      After stops submitted V rk out (rk.setSlot i (some { st with kv := kv }) pool') out ∧
      Stepping rk.pool.blockSize { st with kv := kv } ∧ st.promptLen + st.completionTokens - 1 = kv.kvPosition) ∨
    ∃ r, rk.pool.call st.kv .scheduleDecode = .ok (r, st.kv, rk.pool) ∧ r ≠ .done ∧
      After stops submitted V rk out
        (rk.setSlot i none (failKv st.req (.decodeAccounting r) st.completionTokens rk.pool st.kv out).1)
        (failKv st.req (.decodeAccounting r) st.completionTokens rk.pool st.kv out).2 := by
  have hl : Ledger stops submitted rk.pool out (st.share + (rk.others i + V)) := by
    rw [share_eq rk hi, hst, add_assoc] at h
    exact h
  rcases scheduleDecode_spec hl hlive with ⟨kv, pool', heq, hl', hs, hstep⟩ | ⟨n, heq, hrev⟩
  · refine Or.inl ⟨kv, pool', heq, ⟨?_, hs, le_rfl, rfl, rfl⟩, hstep, ?_⟩
    · rw [share_setSlot rk hi, add_assoc]
      exact hl'
    · have := hstep.decoding.kvPosition
      simp only [RequestState.promptLen] at this ⊢
      omega
  · refine Or.inr ⟨_, heq, nofun, ?_⟩
    obtain ⟨hl', hs, hf⟩ := failKv_spec
      (m := .decodeAccounting (.scheduleError (.allocationFailed n))) hl (Or.inr rfl) (fun h0 => absurd h0 hrev)
    refine ⟨?_, hs, hf.revivals, rfl, rfl⟩
    rw [share_setSlot rk hi, slotShare, zero_add]
    exact hl'

/-- **Scheduling.** One row for each request that stays, in slot order, at the request's KV position. -/
theorem scheduleSlots_spec (slots : List ℕ) : ∀ {rk : DpRank H} {out : Outbox},
    Ledger stops submitted rk.pool out (rk.share + V) → rk.pool.blockSize = bs → slots.Nodup →
    (∀ i ∈ slots, i < maxBatchPerDp) → (∀ i ∈ slots, ∀ st, rk.slots i = some st → Live bs st) →
    ∃ inputs rk' out', scheduleSlots slots rk out = .ok (inputs, rk', out') ∧
      After stops submitted V rk out rk' out' ∧ rk'.applied = rk.applied ∧
      (∀ i ∉ slots, rk'.slots i = rk.slots i) ∧ (∀ i, rk.slots i = none → rk'.slots i = none) ∧
      (∀ i ∈ slots, ∀ st, rk'.slots i = some st → Stepping bs st) ∧
      inputs.map DecodeInput.slot = slots.filter (fun i => (rk'.slots i).isSome) ∧ ∀ x ∈ inputs, InputFor rk' x := by
  induction slots with
  | nil =>
    intro rk out h _ _ _ _
    exact ⟨[], rk, out, rfl, ⟨h, .refl _, le_rfl, rfl, rfl⟩, rfl, fun _ _ => rfl, fun _ hi => hi, by simp, rfl, by simp⟩
  | cons i slots ih =>
    intro rk out h hbs hnd hlt hlive
    obtain ⟨hi, hnd⟩ := List.nodup_cons.1 hnd
    have hi8 : i < maxBatchPerDp := hlt i (by simp)
    have hlt' : ∀ j ∈ slots, j < maxBatchPerDp := fun j hj => hlt j (by simp [hj])
    -- the slots behind `i` are as they were
    have hrest : ∀ (o : Option (RequestState H)) (p : BlockPool H), ∀ j ∈ slots, ∀ st,
        (rk.setSlot i o p).slots j = some st → Live bs st := by
      intro o p j hj st hst
      have hji : j ≠ i := fun hji => hi (hji ▸ hj)
      rw [setSlot_of_ne rk hji] at hst
      exact hlive j (by simp [hj]) st hst
    rw [scheduleSlots]
    cases hst : rk.slots i with
    | none =>
      obtain ⟨inputs, rk', out', heq, haf, happ, hsame, hnone, hstep, hmap, hin⟩ := ih h hbs hnd hlt'
        (fun j hj => hlive j (by simp [hj]))
      have hi' : rk'.slots i = none := hnone i hst
      refine ⟨inputs, rk', out', heq, haf, happ, fun j hj => hsame j fun hm => hj (by simp [hm]), hnone, ?_, ?_, hin⟩
      · intro j hj st hjs
        rcases List.mem_cons.1 hj with rfl | hj
        · rw [hi'] at hjs
          cases hjs
        · exact hstep j hj st hjs
      · rw [hmap, List.filter_cons, hi']
        rfl
    | some st =>
      have hlv : Live rk.pool.blockSize st := by
        rw [hbs]
        exact hlive i (by simp) st hst
      rcases scheduleSlot_spec hi8 hst h hlv with ⟨kv, pool₁, hcall, haf₁, hstep₁, hpos⟩ | ⟨r, hcall, hr, haf₁⟩
      · set rk₁ := rk.setSlot i (some { st with kv := kv }) pool₁ with hrk₁
        obtain ⟨inputs, rk', out', heq, haf, happ, hsame, hnone, hstep, hmap, hin⟩ := ih haf₁.ledger
          (haf₁.pool.blockSize.trans hbs) hnd hlt' (hrest _ _)
        have hi' : rk'.slots i = some { st with kv := kv } := by
          rw [hsame i hi, hrk₁, setSlot_self]
        simp only [hcall, ← hrk₁, heq]
        refine ⟨_, rk', out', rfl, haf₁.trans haf, happ, ?_, ?_, ?_, ?_, ?_⟩
        · intro j hj
          rw [List.mem_cons, not_or] at hj
          rw [hsame j hj.2, hrk₁, setSlot_of_ne rk hj.1]
        · intro j hj
          refine hnone j ?_
          rw [hrk₁, setSlot_of_ne rk (fun hji => by rw [hji, hst] at hj; cases hj)]
          exact hj
        · intro j hj s hjs
          rcases List.mem_cons.1 hj with rfl | hj
          · rw [hi'] at hjs
            obtain rfl := Option.some.inj hjs
            rw [hbs] at hstep₁
            exact hstep₁
          · exact hstep j hj s hjs
        · rw [List.map_cons, hmap, List.filter_cons, hi']
          rfl
        · intro x hx
          rcases List.mem_cons.1 hx with rfl | hx
          · exact ⟨⟨_, hi', rfl⟩, hpos⟩
          · exact hin x hx
      · set f := failKv st.req (.decodeAccounting r) st.completionTokens rk.pool st.kv out with hf
        set rk₁ := rk.setSlot i none f.1 with hrk₁
        obtain ⟨inputs, rk', out', heq, haf, happ, hsame, hnone, hstep, hmap, hin⟩ := ih haf₁.ledger
          (haf₁.pool.blockSize.trans hbs) hnd hlt' (hrest _ _)
        have hi' : rk'.slots i = none := by
          rw [hsame i hi, hrk₁, setSlot_self]
        refine ⟨inputs, rk', out', ?_, haf₁.trans haf, happ, ?_, ?_, ?_, ?_, hin⟩
        · cases r with
          | done => exact absurd rfl hr
          | _ => simpa only [hcall, ← hf, ← hrk₁] using heq
        · intro j hj
          rw [List.mem_cons, not_or] at hj
          rw [hsame j hj.2, hrk₁, setSlot_of_ne rk hj.1]
        · intro j hj
          by_cases hji : j = i
          · rw [hji]
            exact hi'
          · refine hnone j ?_
            rw [hrk₁, setSlot_of_ne rk hji]
            exact hj
        · intro j hj s hjs
          rcases List.mem_cons.1 hj with rfl | hj
          · rw [hi'] at hjs
            cases hjs
          · exact hstep j hj s hjs
        · rw [hmap, List.filter_cons, hi']
          rfl

/-! ## Handing out reports -/

/-- a report is due to the target: its request's step is scheduled, or it is an admission for a free slot -/
def Due (bs : ℕ) (rk : DpRank H) : ReportTarget H → Prop
  | .slot i => i < maxBatchPerDp ∧ ∃ st, rk.slots i = some st ∧ Stepping bs st
  | .admission a => a.slot < maxBatchPerDp ∧ rk.slots a.slot = none ∧
      Prefilling bs a.req.promptTokens.length a.req.maxTokens a.kv ∧ 1 ≤ a.req.maxTokens

def ReportTarget.place : ReportTarget H → ℕ
  | .slot i => i
  | .admission a => a.slot

def ReportTarget.share : ReportTarget H → Share H
  | .slot _ => 0
  | .admission a => kvShare a.req .admitted a.kv

/-- whose report it is -/
def ReportTarget.owner (rk : DpRank H) : ReportTarget H → ℕ
  | .slot i => ((rk.slots i).map RequestState.tokenTx).getD 0
  | .admission a => a.req.tokenTx

/-- a target depends on its own slot only -/
theorem Due.congr {t : ReportTarget H} (h : Due bs rk t) (heq : rk'.slots t.place = rk.slots t.place) : Due bs rk' t := by
  cases t with
  | slot i => exact ⟨h.1, by rw [show rk'.slots i = rk.slots i from heq]; exact h.2⟩
  | admission a => exact ⟨h.1, (show rk'.slots a.slot = rk.slots a.slot from heq).trans h.2.1, h.2.2⟩

theorem ReportTarget.owner_congr {t : ReportTarget H} (heq : rk'.slots t.place = rk.slots t.place) :
    t.owner rk' = t.owner rk := by
  cases t with
  | slot i => rw [owner, owner, show rk'.slots i = rk.slots i from heq]
  | admission a => rfl

/-- the report of one row -/
def settleTarget (stops : List Token) (k row : ℕ) (token : Token) (rk : DpRank H) (out : Outbox) :
    ReportTarget H → Except String (DpRank H × Outbox)
  | .slot slot => rk.processDecodeReport stops k row slot token out
  | .admission a => rk.installDecodeAdmissionResult stops k row a token out

/-- the first token of a request: it takes the slot, or it is gone -/
theorem installFirst_spec {req : GenerateRequest} {kv : RequestKv H} {slot : ℕ} (broken : CallResult → Failure)
    (k row : ℕ) (token : Token) (hslot : slot < maxBatchPerDp) (hnone : rk.slots slot = none)
    (h : Ledger stops submitted rk.pool out (rk.share + (kvShare req .admitted kv + V)))
    (hpre : Prefilling rk.pool.blockSize req.promptTokens.length req.maxTokens kv) (hmax : 1 ≤ req.maxTokens) :
    ∃ rk' out', rk.installFirst stops broken k row slot req kv token out = .ok (rk', out') ∧
      After stops submitted V rk out rk' out' ∧ rk'.applied = rk.applied ++ [⟨k, row, req.tokenTx, token⟩] ∧
      (∀ j ≠ slot, rk'.slots j = rk.slots j) ∧ ∀ st, rk'.slots slot = some st → Live rk.pool.blockSize st := by
  rw [add_left_comm] at h
  obtain ⟨o, pool', out', heq, hl, hs, hf, hlive⟩ := settleFirst_spec broken token h hpre hmax
  have hother : rk.share = rk.others slot := by
    rw [share_eq rk hslot, hnone, slotShare, zero_add]
  unfold installFirst
  cases o with
  | none =>
    simp only [heq]
    refine ⟨_, _, rfl, ⟨?_, hs, hf.revivals, rfl, rfl⟩, rfl, fun _ _ => rfl, ?_⟩
    · rw [slotShare, zero_add] at hl
      exact hl
    · intro st hst
      cases hnone.symm.trans hst
  | some state =>
    simp only [heq]
    refine ⟨_, _, rfl, ⟨?_, hs, hf.revivals, rfl, rfl⟩, rfl, fun j hj => setSlot_of_ne rk hj (some state) pool', ?_⟩
    · show Ledger stops submitted pool' out' ((rk.setSlot slot (some state) pool').share + V)
      rw [share_setSlot rk hslot, add_assoc, ← hother]
      exact hl
    · intro st hst
      exact (hlive st ((setSlot_self rk slot (some state) pool').symm.trans hst)).1

/-- **One report.** It goes to the request of its row. -/
theorem settleTarget_spec {t : ReportTarget H} (k row : ℕ) (token : Token)
    (h : Ledger stops submitted rk.pool out (rk.share + (t.share + V))) (hdue : Due rk.pool.blockSize rk t) :
    ∃ rk' out', settleTarget stops k row token rk out t = .ok (rk', out') ∧ After stops submitted V rk out rk' out' ∧
      rk'.applied = rk.applied ++ [⟨k, row, t.owner rk, token⟩] ∧ (∀ j ≠ t.place, rk'.slots j = rk.slots j) ∧
      ∀ st, rk'.slots t.place = some st → Live rk.pool.blockSize st := by
  cases t with
  | slot i =>
    obtain ⟨hi, st, hst, hstep⟩ := hdue
    have hl : Ledger stops submitted rk.pool out (st.share + (rk.others i + V)) := by
      rw [ReportTarget.share, zero_add, share_eq rk hi, hst, add_assoc] at h
      exact h
    obtain ⟨more, st', pool', out', heq, hl', hs, hf, -, -, hmore⟩ := settleDecode_spec token hl hstep
    have howner : ReportTarget.owner rk (.slot i) = st.tokenTx := by
      simp [ReportTarget.owner, hst]
    simp only [settleTarget, processDecodeReport, hst, howner]
    cases more with
    | true =>
      simp only [heq]
      refine ⟨_, _, rfl, ⟨?_, hs, hf.revivals, rfl, rfl⟩, rfl, fun j hj => setSlot_of_ne rk hj (some st') pool', ?_⟩
      · show Ledger stops submitted pool' out' ((rk.setSlot i (some st') pool').share + V)
        rw [share_setSlot rk hi, add_assoc]
        exact hl'
      · intro s hs'
        obtain rfl := Option.some.inj ((setSlot_self rk i (some st') pool').symm.trans hs')
        exact (hmore rfl).1
    | false =>
      simp only [heq]
      obtain ⟨hl'', hs''⟩ := Ledger.release hl'
      refine ⟨_, _, rfl, ⟨?_, hs.trans hs'', hf.revivals, rfl, rfl⟩, rfl,
        fun j hj => setSlot_of_ne rk hj none (pool'.dropKv st'.kv), ?_⟩
      · show Ledger stops submitted (pool'.dropKv st'.kv) out' ((rk.setSlot i none (pool'.dropKv st'.kv)).share + V)
        rw [share_setSlot rk hi, slotShare, zero_add]
        exact hl''
      · intro s hs'
        cases (setSlot_self rk i none (pool'.dropKv st'.kv)).symm.trans hs'
  | admission a =>
    obtain ⟨hi, hnone, hpre, hmax⟩ := hdue
    exact installFirst_spec .admissionBookkeeping k row token hi hnone h hpre hmax

theorem processReports_cons (k row : ℕ) (t : ReportTarget H) (token : Token) (ts : List (ReportTarget H × Token))
    (rk : DpRank H) (out : Outbox) :
    processReports stops k row ((t, token) :: ts) rk out =
      match settleTarget stops k row token rk out t with
      | .error e => .error e
      | .ok (rk, out) => processReports stops k (row + 1) ts rk out := by
  cases t <;> rfl

/-- **Reports.** Those of a command go to the requests of its rows, in row order; no other slot changes. -/
theorem processReports_spec (token : ℕ → Token) (k : ℕ) (ts : List (ReportTarget H)) :
    ∀ (row : ℕ) (rk : DpRank H) {out : Outbox},
    Ledger stops submitted rk.pool out (rk.share + ((ts.map ReportTarget.share).sum + V)) → rk.pool.blockSize = bs →
    (ts.map ReportTarget.place).Nodup → (∀ t ∈ ts, Due bs rk t) →
    ∃ rk' out', processReports stops k row (ts.zip ((List.range' row ts.length).map token)) rk out = .ok (rk', out') ∧
      After stops submitted V rk out rk' out' ∧
      rk'.applied = rk.applied ++ dueFrom token k row (ts.map fun t => some (t.owner rk)) ∧
      (∀ i ∉ ts.map ReportTarget.place, rk'.slots i = rk.slots i) ∧
      ∀ i ∈ ts.map ReportTarget.place, ∀ st, rk'.slots i = some st → Live bs st := by
  induction ts with
  | nil =>
    intro row rk out h _ _ _
    rw [List.map_nil, List.sum_nil, zero_add] at h
    exact ⟨rk, out, rfl, ⟨h, .refl _, le_rfl, rfl, rfl⟩, by simp [dueFrom], fun _ _ => rfl, by simp⟩
  | cons t ts ih =>
    intro row rk out h hbs hnd hdue
    rw [List.map_cons, List.nodup_cons] at hnd
    obtain ⟨ht, hnd⟩ := hnd
    rw [List.map_cons, List.sum_cons, add_assoc] at h
    obtain ⟨rk₁, out₁, heq₁, haf₁, happ₁, hsame₁, hlive₁⟩ := settleTarget_spec k row (token row) h
      (by rw [hbs]; exact hdue t (by simp))
    have hplace : ∀ u ∈ ts, rk₁.slots u.place = rk.slots u.place := by
      intro u hu
      refine hsame₁ _ fun heq => ht ?_
      rw [← heq]
      exact List.mem_map_of_mem hu
    obtain ⟨rk', out', heq, haf, happ, hsame, hlive⟩ := ih (row + 1) rk₁ haf₁.ledger (haf₁.pool.blockSize.trans hbs) hnd
      (fun u hu => (hdue u (by simp [hu])).congr (hplace u hu))
    refine ⟨rk', out', ?_, haf₁.trans haf, ?_, ?_, ?_⟩
    · rw [List.length_cons, List.range'_succ, List.map_cons, List.zip_cons_cons, processReports_cons, heq₁]
      exact heq
    · have howner : (ts.map fun u => some (u.owner rk₁)) = ts.map fun u => some (u.owner rk) :=
        List.map_congr_left fun u hu => by rw [ReportTarget.owner_congr (hplace u hu)]
      rw [happ, happ₁, howner, List.append_assoc]
      rfl
    · intro i hi
      rw [List.map_cons, List.mem_cons, not_or] at hi
      rw [hsame i hi.2, hsame₁ i hi.1]
    · intro i hi st hst
      by_cases hmem : i ∈ ts.map ReportTarget.place
      · exact hlive i hmem st hst
      · rw [hsame i hmem] at hst
        rw [List.map_cons, List.mem_cons] at hi
        rcases hi with rfl | hi
        · rw [hbs] at hlive₁
          exact hlive₁ st hst
        · exact absurd hi hmem

/-! ## Commands -/

/-- no block hashes to the padding block's hash -/
def PaddingDistinct (H : Type) [BlockHash H] [Inhabited H] : Prop :=
  ∀ (salt : SaltHash) (bs : ℕ) (ts : List Token), (BlockHash.blockHash salt bs ts : H) ≠ default

/-- a row names its owner's slot and position; a padding row names the padding page and a free slot -/
def RowOk (pad : BlockId) (occupied : List ℕ) (row : CommandRow) : Prop :=
  match row.owner with
  | .padding => row.slot ∉ occupied ∧ row.pages = [pad]
  | .active _ => row.slot ∈ occupied ∧ row.position = row.kvPosition
  | .admission _ => row.slot ∉ occupied ∧ row.position = row.kvPosition

/-- the arena holds the rows, each in a slot of its own; a prefill goes to a free slot, a padding one to the padding page -/
def CommandOk (pad : BlockId) (occupied : List ℕ) : StepCommand → Prop
  | .decode rows size _ => size = maxBatchPerDp ∧ rows.length ≤ size ∧ (rows.map CommandRow.slot).Nodup ∧
      ∀ row ∈ rows, RowOk pad occupied row
  | .prefill _ slot _ _ _ pages _ _ owner => slot < maxBatchPerDp ∧ slot ∉ occupied ∧ (owner = none → pages = [pad])

/-- the commands sent to a rank: their kinds, and what they name -/
structure Sent (H : Type) [BlockHash H] [Inhabited H] (pad : BlockId) (kinds : List StepKind)
    (sent : List SentCommand) : Prop where
  kinds : sent.map (fun c => c.command.kind) = kinds
  named : ∀ c ∈ sent, CommandOk pad c.occupied c.command
  padding : PaddingDistinct H → ∀ c ∈ sent, pad ∉ c.heldPages

theorem Sent.append [Inhabited H] {pad : BlockId} {kinds : List StepKind} {sent : List SentCommand} {c : SentCommand}
    (h : Sent H pad kinds sent) (hc : CommandOk pad c.occupied c.command)
    (hp : PaddingDistinct H → pad ∉ c.heldPages) : Sent H pad (kinds ++ [c.command.kind]) (sent ++ [c]) := by
  refine ⟨by rw [List.map_append, h.kinds]; rfl, ?_, ?_⟩
  · intro d hd
    rcases List.mem_append.1 hd with hd | hd
    · exact h.named d hd
    · rw [List.mem_singleton.1 hd]
      exact hc
  · intro hdist d hd
    rcases List.mem_append.1 hd with hd | hd
    · exact h.padding hdist d hd
    · rw [List.mem_singleton.1 hd]
      exact hp hdist

theorem mem_activeSlots {i : ℕ} : i ∈ rk.activeSlots ↔ i < maxBatchPerDp ∧ (rk.slots i).isSome = true := by
  simp [activeSlots]

/-- the padding block is in no request's pages -/
theorem padding_not_mem_heldPages [Inhabited H] {padding : ImmutableBlock H}
    (h : Ledger stops submitted rk.pool out (rk.share + (guardShare (.ofImmutable [padding]) + V)))
    (hbase : ∀ i st, rk.slots i = some st → st.kv.Base) (hpad : padding.seqHash = default) (hdist : PaddingDistinct H) :
    padding.blockId ∉ rk.heldPages := by
  intro hmem
  obtain ⟨i, hi, hp⟩ := List.mem_flatMap.1 hmem
  obtain ⟨hi8, hsome⟩ := mem_activeSlots.1 hi
  obtain ⟨st, hst⟩ := Option.isSome_iff_exists.1 hsome
  have hacc := h.account
  rw [share_eq rk hi8, hst, add_assoc, add_left_comm (rk.others i)] at hacc
  rw [hst] at hp
  exact padding_not_held hacc (hbase i st hst) hpad hdist hp

/-! ## Between steps, and awaiting a result -/

/-- a rank between two steps -/
structure Idle [Inhabited H] (bs : ℕ) (pad : BlockId) (report : ReportOracle) (kinds : List StepKind) (r : ℕ)
    (rk : DpRank H) : Prop where
  size : rk.pool.blockSize = bs
  page : rk.pool.paddingBlockId = pad
  live : ∀ i st, rk.slots i = some st → i < maxBatchPerDp ∧ Live bs st
  sent : Sent H pad kinds rk.sent
  received : rk.received = rk.sent.length
  applied : rk.applied = dueReports report r 0 rk.sent

/-- the command for the rows of a decode step -/
def rowsCommand (rows : List (DecodeBatchRow H)) (page : BlockId) : StepCommand :=
  if rows.isEmpty then buildPaddingDecodeCommand page else buildDecodeCommandFromRows rows page

/-- a rank whose last command, for `rows`, has no result yet -/
structure Awaiting [Inhabited H] (bs : ℕ) (pad : BlockId) (report : ReportOracle) (kinds : List StepKind) (r : ℕ)
    (rows : List (DecodeBatchRow H)) (rk : DpRank H) : Prop where
  size : rk.pool.blockSize = bs
  page : rk.pool.paddingBlockId = pad
  sent : Sent H pad (kinds ++ [.decode]) rk.sent
  last : ∃ past c, rk.sent = past ++ [c] ∧ c.command = rowsCommand rows pad ∧ rk.received = past.length ∧
    rk.applied = dueReports report r 0 past
  due : ∀ t ∈ rows.map DecodeBatchRow.target, Due bs rk t
  nodup : ((rows.map DecodeBatchRow.target).map ReportTarget.place).Nodup
  owners : (rows.map fun x => x.toCommandRow.owner.tokenTx) =
    (rows.map DecodeBatchRow.target).map fun t => some (t.owner rk)
  occupied : ∀ i st, rk.slots i = some st → i ∈ (rows.map DecodeBatchRow.target).map ReportTarget.place

/-- admissions waiting for the next decode step -/
structure Queued (bs : ℕ) (rk : DpRank H) (queue : List (DecodeAdmission H)) : Prop where
  nodup : (queue.map DecodeAdmission.slot).Nodup
  due : ∀ a ∈ queue, Due bs rk (.admission a) ∧ a.kv.kvPosition = 0

theorem Queued.nil (bs : ℕ) (rk : DpRank H) : Queued bs rk [] := ⟨by simp, by simp⟩

def queueShare (queue : List (DecodeAdmission H)) : Share H := (queue.map fun a => kvShare a.req .admitted a.kv).sum

section Dispatch

variable [Inhabited H] {pad : BlockId} {report : ReportOracle} {kinds : List StepKind} {r : ℕ}
  {queue : List (DecodeAdmission H)} {inputs : List DecodeInput}

/-- the rows of a decode step -/
def stepRows (inputs : List DecodeInput) (queue : List (DecodeAdmission H)) : List (DecodeBatchRow H) :=
  inputs.map DecodeBatchRow.active ++ queue.map DecodeBatchRow.admission

theorem places_stepRows (inputs : List DecodeInput) (queue : List (DecodeAdmission H)) :
    ((stepRows inputs queue).map DecodeBatchRow.target).map ReportTarget.place =
      inputs.map DecodeInput.slot ++ queue.map DecodeAdmission.slot := by
  simp only [stepRows, List.map_append, List.map_map]
  rfl

theorem slots_stepRows (inputs : List DecodeInput) (queue : List (DecodeAdmission H)) :
    ((stepRows inputs queue).map DecodeBatchRow.toCommandRow).map CommandRow.slot =
      inputs.map DecodeInput.slot ++ queue.map DecodeAdmission.slot := by
  simp only [stepRows, List.map_append, List.map_map]
  rfl

theorem shares_stepRows (inputs : List DecodeInput) (queue : List (DecodeAdmission H)) :
    (((stepRows inputs queue).map DecodeBatchRow.target).map ReportTarget.share).sum = queueShare queue := by
  have hzero : (inputs.map fun _ => (0 : Share H)).sum = 0 := by simp
  simp only [stepRows, List.map_append, List.map_map, List.sum_append]
  exact (congrArg (· + queueShare queue) hzero).trans (zero_add _)

/-- the slots of a step's rows are distinct, so the arena holds them -/
theorem placed (hq : Queued bs rk queue) (hmap : inputs.map DecodeInput.slot = rk.activeSlots) :
    (inputs.map DecodeInput.slot ++ queue.map DecodeAdmission.slot).Nodup ∧
      (stepRows inputs queue).length ≤ maxBatchPerDp := by
  have hnd : (inputs.map DecodeInput.slot ++ queue.map DecodeAdmission.slot).Nodup := by
    rw [hmap]
    refine List.Nodup.append (List.nodup_range.filter _) hq.nodup ?_
    intro i hi hi'
    obtain ⟨a, ha, rfl⟩ := List.mem_map.1 hi'
    have hnone := (hq.due a ha).1.2.1
    rw [mem_activeSlots, hnone] at hi
    simp at hi
  have hsub : inputs.map DecodeInput.slot ++ queue.map DecodeAdmission.slot ⊆ List.range maxBatchPerDp := by
    intro i hi
    rw [List.mem_range]
    rcases List.mem_append.1 hi with hi | hi
    · rw [hmap] at hi
      exact (mem_activeSlots.1 hi).1
    · obtain ⟨a, ha, rfl⟩ := List.mem_map.1 hi
      exact (hq.due a ha).1.1
  refine ⟨hnd, ?_⟩
  have hlen := (List.subperm_of_subset hnd hsub).length_le
  simpa [stepRows] using hlen

theorem rowsCommand_ok (hq : Queued bs rk queue) (hmap : inputs.map DecodeInput.slot = rk.activeSlots)
    (hin : ∀ x ∈ inputs, InputFor rk x) :
    CommandOk pad rk.activeSlots (rowsCommand (stepRows inputs queue) pad) := by
  obtain ⟨hnd, hlen⟩ := placed hq hmap
  unfold rowsCommand
  split_ifs with hempty
  · -- a padding row goes to slot 0, and no slot is occupied
    have hnil : inputs = [] := by
      have := List.isEmpty_iff.1 hempty
      simp only [stepRows, List.append_eq_nil_iff, List.map_eq_nil_iff] at this
      exact this.1
    rw [hnil, List.map_nil] at hmap
    refine ⟨rfl, by simp [maxBatchPerDp], by simp, ?_⟩
    intro row hrow
    obtain rfl := List.mem_singleton.1 hrow
    exact ⟨by rw [← hmap]; simp, rfl⟩
  · refine ⟨rfl, by simpa using hlen, by rw [slots_stepRows]; exact hnd, ?_⟩
    intro row hrow
    obtain ⟨x, hx, rfl⟩ := List.mem_map.1 hrow
    rcases List.mem_append.1 hx with hx | hx
    · obtain ⟨i, hi, rfl⟩ := List.mem_map.1 hx
      refine ⟨?_, (hin i hi).position⟩
      rw [← hmap]
      exact List.mem_map_of_mem hi
    · obtain ⟨a, ha, rfl⟩ := List.mem_map.1 hx
      obtain ⟨hdue, hkv⟩ := hq.due a ha
      refine ⟨?_, hkv.symm⟩
      intro hmem
      have hmem : a.slot ∈ rk.activeSlots := hmem
      rw [mem_activeSlots, hdue.2.1] at hmem
      simp at hmem

/-- **Dispatch.** The active requests are scheduled and the command for them and the queue is sent. -/
theorem dispatch_spec {padding : ImmutableBlock H} (h : Idle bs padding.blockId report kinds r rk)
    (hq : Queued bs rk queue) (hpad : padding.seqHash = default)
    (hl : Ledger stops submitted rk.pool out
      (rk.share + (queueShare queue + (guardShare (.ofImmutable [padding]) + V)))) :
    ∃ inputs rk₁ out₁, rk.scheduleActiveDecodeInputs out = .ok (inputs, rk₁, out₁) ∧
      After stops submitted (queueShare queue + (guardShare (.ofImmutable [padding]) + V)) rk out rk₁ out₁ ∧
      (stepRows inputs queue).length ≤ maxBatchPerDp ∧ inputs.map DecodeInput.slot = rk₁.activeSlots ∧
      Awaiting bs padding.blockId report kinds r (stepRows inputs queue)
        (rk₁.sendStepCommand (rowsCommand (stepRows inputs queue) padding.blockId)) := by
  obtain ⟨inputs, rk₁, out₁, heq, haf, happ, hsame, hnone, hstep, hmap, hin⟩ :=
    scheduleSlots_spec (List.range maxBatchPerDp) hl h.size List.nodup_range (fun i hi => List.mem_range.1 hi)
      (fun i _ st hst => (h.live i st hst).2)
  have hq₁ : Queued bs rk₁ queue := by
    refine ⟨hq.nodup, fun a ha => ?_⟩
    obtain ⟨⟨h1, h2, h3⟩, h4⟩ := hq.due a ha
    exact ⟨⟨h1, hnone _ h2, h3⟩, h4⟩
  have hocc : ∀ i st, rk₁.slots i = some st → i < maxBatchPerDp ∧ Stepping bs st := by
    intro i st hst
    by_cases hi : i < maxBatchPerDp
    · exact ⟨hi, hstep i (List.mem_range.2 hi) st hst⟩
    · rw [hsame i (by rw [List.mem_range]; exact hi)] at hst
      exact absurd (h.live i st hst).1 hi
  have hnot : PaddingDistinct H → padding.blockId ∉ rk₁.heldPages := by
    have hled := haf.ledger
    rw [add_left_comm (queueShare queue)] at hled
    exact padding_not_mem_heldPages hled (fun i st hst => (hocc i st hst).2.decoding.positions.base) hpad
  refine ⟨inputs, rk₁, out₁, heq, haf, (placed hq₁ hmap).2, hmap, ?_⟩
  have hkind : (rowsCommand (stepRows inputs queue) padding.blockId).kind = .decode := by
    unfold rowsCommand
    split_ifs <;> rfl
  refine ⟨haf.pool.blockSize.trans h.size, haf.pool.paddingBlockId.trans h.page, ?_, ?_, ?_, ?_, ?_, ?_⟩
  · have hsent := h.sent.append (c := ⟨rowsCommand (stepRows inputs queue) padding.blockId, rk₁.activeSlots, rk₁.heldPages⟩)
      (rowsCommand_ok hq₁ hmap hin) hnot
    rw [hkind, ← haf.sent] at hsent
    exact hsent
  · exact ⟨rk₁.sent, _, rfl, rfl, by rw [haf.sent]; exact haf.received.trans h.received,
      by rw [haf.sent]; exact happ.trans h.applied⟩
  · intro t ht
    obtain ⟨x, hx, rfl⟩ := List.mem_map.1 ht
    rcases List.mem_append.1 hx with hx | hx
    · obtain ⟨i, hi, rfl⟩ := List.mem_map.1 hx
      obtain ⟨st, hst, -⟩ := (hin i hi).state
      exact ⟨(hocc _ st hst).1, st, hst, (hocc _ st hst).2⟩
    · obtain ⟨a, ha, rfl⟩ := List.mem_map.1 hx
      exact (hq₁.due a ha).1
  · rw [places_stepRows]
    exact (placed hq₁ hmap).1
  · rw [List.map_map]
    refine List.map_congr_left fun x hx => ?_
    rcases List.mem_append.1 hx with hx | hx
    · obtain ⟨i, hi, rfl⟩ := List.mem_map.1 hx
      obtain ⟨st, hst, howner⟩ := (hin i hi).state
      have hst' : (rk₁.sendStepCommand (rowsCommand (stepRows inputs queue) padding.blockId)).slots i.slot = some st := hst
      simp [DecodeBatchRow.toCommandRow, RowOwner.tokenTx, DecodeBatchRow.target, ReportTarget.owner, hst', howner]
    · obtain ⟨a, -, rfl⟩ := List.mem_map.1 hx
      rfl
  · intro i st hst
    have hst' : rk₁.slots i = some st := hst
    rw [places_stepRows, List.mem_append, hmap]
    exact Or.inl (mem_activeSlots.2 ⟨(hocc i st hst').1, by rw [hst']; rfl⟩)

/-- **Collection.** The result is there, and its reports go to the requests of the rows. -/
theorem collect_spec {rows : List (DecodeBatchRow H)} (h : Awaiting bs pad report kinds r rows rk)
    (hl : Ledger stops submitted rk.pool out
      (rk.share + (((rows.map DecodeBatchRow.target).map ReportTarget.share).sum + V))) :
    ∃ k reports rk₁ rk' out', rk.recv report r = .ok (k, .decode reports, rk₁) ∧ rk₁.activeSlots = rk.activeSlots ∧
      processReports stops k 0 ((rows.map DecodeBatchRow.target).zip reports) rk₁ out = .ok (rk', out') ∧
      Ledger stops submitted rk'.pool out' (rk'.share + V) ∧ out.revivals ≤ out'.revivals ∧
      Idle bs pad report (kinds ++ [.decode]) r rk' := by
  obtain ⟨past, c, hsent, hc, hrec, happ⟩ := h.last
  set ts := rows.map DecodeBatchRow.target with hts
  have hget : rk.sent[rk.received]? = some c := by
    rw [hsent, hrec]
    simp
  set rk₁ : DpRank H := { rk with received := rk.received + 1 } with hrk₁
  obtain ⟨rk', out', heq, haf, happ', hsame, hlive⟩ := processReports_spec (report r rk.received) rk.received ts 0
    rk₁ hl h.size h.nodup (fun t ht => (h.due t ht).congr rfl)
  -- a padding command has a report that goes nowhere
  have hresult : ∃ reports, rankForward report r rk.received c.command = .decode reports ∧
      ts.zip reports = ts.zip ((List.range' 0 ts.length).map (report r rk.received)) ∧
      dueFrom (report r rk.received) rk.received 0 c.command.owners =
        dueFrom (report r rk.received) rk.received 0 (ts.map fun t => some (t.owner rk₁)) := by
    rw [hc]
    unfold rowsCommand
    split_ifs with hempty
    · have hnil : ts = [] := by rw [hts, List.isEmpty_iff.1 hempty, List.map_nil]
      exact ⟨_, rfl, by simp [hnil], by simp [hnil, buildPaddingDecodeCommand, StepCommand.owners, dueFrom, RowOwner.tokenTx]⟩
    · refine ⟨_, rfl, ?_, ?_⟩
      · rw [hts, List.length_map, List.length_map, List.range_eq_range']
      · have howner : (ts.map fun t => some (t.owner rk₁)) = ts.map fun t => some (t.owner rk) :=
          List.map_congr_left fun t _ => by rw [ReportTarget.owner_congr (show rk₁.slots t.place = rk.slots t.place from rfl)]
        rw [howner, ← h.owners]
        simp only [buildDecodeCommandFromRows, StepCommand.owners, List.map_map]
        rfl
  obtain ⟨reports, hfwd, hzip, hdue⟩ := hresult
  refine ⟨rk.received, reports, rk₁, rk', out', by simp only [recv, hget, hfwd, ← hrk₁], rfl, by rw [hzip]; exact heq,
    haf.ledger, haf.revivals, ?_⟩
  have hsent' : rk'.sent = past ++ [c] := haf.sent.trans hsent
  refine ⟨haf.pool.blockSize.trans h.size, haf.pool.paddingBlockId.trans h.page, ?_, ?_, ?_, ?_⟩
  · intro i st hst
    by_cases hi : i ∈ ts.map ReportTarget.place
    · refine ⟨?_, hlive i hi st hst⟩
      obtain ⟨t, ht, rfl⟩ := List.mem_map.1 hi
      have := h.due t ht
      cases t with
      | slot i => exact this.1
      | admission a => exact this.1
    · rw [hsame i hi] at hst
      exact absurd (h.occupied i st hst) hi
  · rw [haf.sent]
    exact h.sent
  · rw [haf.received, hsent', hrk₁]
    simp [hrec]
  · rw [happ', hsent', dueReports_append, ← hdue, ← happ, Nat.zero_add, ← hrec]

/-- the pool of an idle rank moves -/
theorem Idle.withPool {pad : BlockId} {pool : BlockPool H} (h : Idle bs pad report kinds r rk)
    (hs : SamePool rk.pool pool) : Idle bs pad report kinds r { rk with pool := pool } :=
  ⟨hs.blockSize.trans h.size, hs.paddingBlockId.trans h.page, h.live, h.sent, h.received, h.applied⟩

/-- a rank that was sent a prefill command and gave its result -/
theorem Idle.after_prefill {pad : BlockId} {c : StepCommand} {o : Option ℕ} {rk' : DpRank H}
    (h : Idle bs pad report kinds r rk) (hkind : c.kind = .prefill) (howner : c.owners = [o])
    (hok : CommandOk pad rk.activeSlots c) (hnot : PaddingDistinct H → pad ∉ rk.heldPages)
    (hpool : SamePool rk.pool rk'.pool) (hsent : rk'.sent = rk.sent ++ [⟨c, rk.activeSlots, rk.heldPages⟩])
    (hrec : rk'.received = rk.received + 1)
    (happ : rk'.applied = rk.applied ++ dueFrom (report r rk.received) rk.received 0 [o])
    (hlive : ∀ i st, rk'.slots i = some st → i < maxBatchPerDp ∧ Live bs st) :
    Idle bs pad report (kinds ++ [.prefill]) r rk' := by
  refine ⟨hpool.blockSize.trans h.size, hpool.paddingBlockId.trans h.page, hlive, ?_, ?_, ?_⟩
  · have hs := h.sent.append (c := ⟨c, rk.activeSlots, rk.heldPages⟩) hok hnot
    rw [hsent, ← hkind]
    exact hs
  · rw [hrec, h.received, hsent, List.length_append, List.length_singleton]
  · rw [happ, hsent, dueReports_append, ← h.applied, Nat.zero_add, ← h.received, howner]

end Dispatch

end DpRank

end Pegainfer.KimiK2
