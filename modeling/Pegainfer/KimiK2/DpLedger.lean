/-
The ledgers of all ranks over a run of the DP coordinator.

- `Shared`: every rank's pool accounts for what the rank has, and one book covers the requests of all ranks.
- `lockStep_spec`: a step of all ranks, from what one rank's send and collection do.
- `Ready`: the coordinator between two steps, with admissions queued.
- `admitRequest_spec`, `queueAdmission_spec`, `prefillNow_spec`: the three ways a request leaves the queue.
- `dp_ledger`: every run is carried out and ends ready.
-/
import Mathlib.Tactic
import Pegainfer.KimiK2.DpRank

set_option linter.unusedSectionVars false

namespace Pegainfer.KimiK2.DpCoordinator

open Pegainfer.Kvbm Pegainfer.Kvbm.SchedulableSequence Pegainfer.KvCache Pegainfer.Lib DpRank

variable {H : Type} [DecidableEq H] [BlockHash H] {stops : List Token} {submitted : List GenerateRequest}
  {out out' : Outbox} {n r : ℕ} {ranks : ℕ → DpRank H} {X X' : ℕ → Share H}
  {rest rest' : Multiset (GenerateRequest × Phase)}

/-! ## One book for all ranks -/

/-- the requests of the ranks -/
def rankBag (n : ℕ) (ranks : ℕ → DpRank H) (X : ℕ → Share H) : Multiset (GenerateRequest × Phase) :=
  ∑ r ∈ Finset.range n, ((ranks r).share + X r).2.2

/-- `X r` is what rank `r` has besides its slots, `rest` the requests of no rank -/
structure Shared (stops : List Token) (submitted : List GenerateRequest) (n : ℕ) (ranks : ℕ → DpRank H) (out : Outbox)
    (X : ℕ → Share H) (rest : Multiset (GenerateRequest × Phase)) : Prop where
  account : ∀ r < n, Account (ranks r).pool ((ranks r).share + X r).1
  room : out.revivals = 0 → ∀ r < n, ((ranks r).share + X r).2.1 ≤ (ranks r).pool.availableBlocks
  book : Book stops out submitted (rankBag n ranks X + rest)
  clean : out.revivals = 0 → Clean out

/-- the requests that are not rank `r`'s -/
def elsewhere (n : ℕ) (ranks : ℕ → DpRank H) (X : ℕ → Share H) (r : ℕ) (rest : Multiset (GenerateRequest × Phase)) :
    Share H := (0, 0, ∑ j ∈ (Finset.range n).erase r, ((ranks j).share + X j).2.2 + rest)

theorem rankBag_eq (hr : r < n) (ranks : ℕ → DpRank H) (X : ℕ → Share H) (rest : Multiset (GenerateRequest × Phase)) :
    rankBag n ranks X + rest = ((ranks r).share + (X r + elsewhere n ranks X r rest)).2.2 := by
  rw [rankBag, ← Finset.add_sum_erase _ _ (Finset.mem_range.2 hr), add_assoc, ← add_assoc (ranks r).share, Prod.snd_add,
    Prod.snd_add]
  rfl

/-- the ledger of one rank -/
theorem Shared.focus (h : Shared stops submitted n ranks out X rest) (hr : r < n) :
    Ledger stops submitted (ranks r).pool out ((ranks r).share + (X r + elsewhere n ranks X r rest)) := by
  refine ⟨?_, ?_, ?_, h.clean⟩
  · have := h.account r hr
    rwa [← add_assoc, Prod.fst_add, elsewhere, add_zero]
  · intro h0
    have := h.room h0 r hr
    rwa [← add_assoc, Prod.snd_add, Prod.fst_add, elsewhere, add_zero]
  · rw [← rankBag_eq hr]
    exact h.book

/-- one rank's ledger moves, the others stay -/
theorem Shared.put (h : Shared stops submitted n ranks out X rest) (hr : r < n) {rk : DpRank H}
    (hX : ∀ j ≠ r, X' j = X j) (hrev : out.revivals ≤ out'.revivals)
    (hl : Ledger stops submitted rk.pool out' (rk.share + (X' r + elsewhere n ranks X r rest'))) :
    Shared stops submitted n (Function.update ranks r rk) out' X' rest' := by
  have helse : elsewhere n (Function.update ranks r rk) X' r rest' = elsewhere n ranks X r rest' := by
    unfold elsewhere
    congr 3
    refine Finset.sum_congr rfl fun j hj => ?_
    rw [Function.update_of_ne (Finset.ne_of_mem_erase hj), hX j (Finset.ne_of_mem_erase hj)]
  refine ⟨?_, ?_, ?_, hl.clean⟩
  · intro j hj
    by_cases hjr : j = r
    · subst hjr
      have := hl.account
      rw [← add_assoc, Prod.fst_add, elsewhere, add_zero] at this
      rwa [Function.update_self]
    · rw [Function.update_of_ne hjr, hX j hjr]
      exact h.account j hj
  · intro h0 j hj
    by_cases hjr : j = r
    · subst hjr
      have := hl.room h0
      rw [← add_assoc, Prod.snd_add, Prod.fst_add, elsewhere, add_zero] at this
      rwa [Function.update_self]
    · rw [Function.update_of_ne hjr, hX j hjr]
      exact h.room (Nat.le_zero.1 (h0 ▸ hrev)) j hj
  · rw [rankBag_eq hr, helse, Function.update_self]
    exact hl.book

theorem Shared.congr (h : Shared stops submitted n ranks out X rest) (hX : ∀ r < n, X' r = X r) :
    Shared stops submitted n ranks out X' rest := by
  refine ⟨?_, ?_, ?_, h.clean⟩
  · intro r hr
    rw [hX r hr]
    exact h.account r hr
  · intro h0 r hr
    rw [hX r hr]
    exact h.room h0 r hr
  · have hbag : rankBag n ranks X' = rankBag n ranks X :=
      Finset.sum_congr rfl fun r hr => by rw [hX r (Finset.mem_range.1 hr)]
    rw [hbag]
    exact h.book

/-- events of requests of no rank -/
theorem Shared.events (h : Shared stops submitted n ranks out X rest) (hrev : out'.revivals = out.revivals)
    (hbook : Book stops out' submitted (rankBag n ranks X + rest')) (hclean : Clean out → Clean out') :
    Shared stops submitted n ranks out' X rest' :=
  ⟨h.account, fun h0 => h.room (hrev ▸ h0), hbook, fun h0 => hclean (h.clean (hrev ▸ h0))⟩

theorem Shared.book_cons {req : GenerateRequest} {ph : Phase}
    (h : Shared stops submitted n ranks out X ((req, ph) ::ₘ rest)) :
    Book stops out submitted ((req, ph) ::ₘ (rankBag n ranks X + rest)) := by
  have := h.book
  rwa [Multiset.add_cons] at this

/-! ## Lock-step -/

/-- what a step of the ranks leaves alone -/
structure SameFrame (s s' : DpCoordinator H) : Prop where
  dpWorld : s'.dpWorld = s.dpWorld
  pendingReqs : s'.pendingReqs = s.pendingReqs
  submitted : s'.submitted = s.submitted

theorem SameFrame.refl (s : DpCoordinator H) : SameFrame s s := ⟨rfl, rfl, rfl⟩

theorem SameFrame.trans {s₁ s₂ s₃ : DpCoordinator H} (h : SameFrame s₁ s₂) (h' : SameFrame s₂ s₃) : SameFrame s₁ s₃ :=
  ⟨h'.dpWorld.trans h.dpWorld, h'.pendingReqs.trans h.pendingReqs, h'.submitted.trans h.submitted⟩

section LockStep

variable {α : Type} {report : ReportOracle} {send : ℕ → DpRank H → Outbox → Except String (α × DpRank H × Outbox)}
  {collect : ℕ → α → ℕ → StepResult → DpRank H → Outbox → Except String (DpRank H × Outbox)} {s : DpCoordinator H}
  {A C : ℕ → DpRank H → Prop} {B : ℕ → α → DpRank H → Prop}

/-- a send takes a rank from `A` to `B` and keeps its ledger -/
def Sends (stops : List Token) (submitted : List GenerateRequest) (n : ℕ) (X : ℕ → Share H)
    (send : ℕ → DpRank H → Outbox → Except String (α × DpRank H × Outbox)) (A : ℕ → DpRank H → Prop)
    (B : ℕ → α → DpRank H → Prop) : Prop :=
  ∀ r < n, ∀ rk out W, A r rk → Ledger stops submitted rk.pool out (rk.share + (X r + W)) →
    ∃ a rk' out', send r rk out = .ok (a, rk', out') ∧ B r a rk' ∧
      Ledger stops submitted rk'.pool out' (rk'.share + (X r + W)) ∧ out.revivals ≤ out'.revivals

/-- taking a rank's result takes it from `B` to `C` and its ledger from `X` to `X'` -/
def Collects (stops : List Token) (submitted : List GenerateRequest) (n : ℕ) (X X' : ℕ → Share H) (report : ReportOracle)
    (collect : ℕ → α → ℕ → StepResult → DpRank H → Outbox → Except String (DpRank H × Outbox))
    (B : ℕ → α → DpRank H → Prop) (C : ℕ → DpRank H → Prop) : Prop :=
  ∀ r < n, ∀ a rk out W, B r a rk → Ledger stops submitted rk.pool out (rk.share + (X r + W)) →
    ∃ k result rk₁ rk' out', rk.recv report r = .ok (k, result, rk₁) ∧ collect r a k result rk₁ out = .ok (rk', out') ∧
      C r rk' ∧ Ledger stops submitted rk'.pool out' (rk'.share + (X' r + W)) ∧ out.revivals ≤ out'.revivals

/-- **Lock-step.** Where a send takes a rank from `A` to `B` and its collection from `B` to `C`, a step takes all ranks
from `A` to `C`. -/
theorem lockStep_spec (nothing : α) (hsend : Sends stops s.submitted s.dpWorld X send A B)
    (hcollect : Collects stops s.submitted s.dpWorld X X' report collect B C)
    (h : Shared stops s.submitted s.dpWorld s.ranks s.out X rest) (hA : ∀ r < s.dpWorld, A r (s.ranks r)) :
    ∃ s', lockStep report send collect nothing s = .ok s' ∧
      Shared stops s.submitted s.dpWorld s'.ranks s'.out X' rest ∧ (∀ r < s.dpWorld, C r (s'.ranks r)) ∧
      SameFrame s s' := by
  have hlt : ∀ r ∈ List.range s.dpWorld, r < s.dpWorld := fun r hr => List.mem_range.1 hr
  -- phase one: the ranks still ahead are in `A`, the others in `B`
  obtain ⟨⟨s₁, kept⟩, heq₁, -, -, hf₁, hsh₁, -, hB⟩ := run_remaining (sendRank send)
    (I := fun ahead (x : DpCoordinator H × (ℕ → α)) => ahead.Nodup ∧ (∀ r ∈ ahead, r < s.dpWorld) ∧ SameFrame s x.1 ∧
      Shared stops s.submitted s.dpWorld x.1.ranks x.1.out X rest ∧ (∀ r ∈ ahead, A r (x.1.ranks r)) ∧
      ∀ r < s.dpWorld, r ∉ ahead → B r (x.2 r) (x.1.ranks r))
    (by
      rintro r ahead ⟨s₁, kept⟩ ⟨hnd, hlt, hf, hsh, hA, hB⟩
      obtain ⟨hnot, hnd⟩ := List.nodup_cons.1 hnd
      have hr : r < s.dpWorld := hlt r (by simp)
      obtain ⟨a, rk', out', heq, hb, hl, hrev⟩ := hsend r hr _ _ _ (hA r (by simp)) (hsh.focus hr)
      refine ⟨(s₁.setRank r rk' out', Function.update kept r a), by simp only [sendRank, heq], hnd,
        fun j hj => hlt j (by simp [hj]), hf.trans ⟨rfl, rfl, rfl⟩, hsh.put hr (fun _ _ => rfl) hrev hl, ?_, ?_⟩
      · intro j hj
        have hjr : j ≠ r := fun heq => hnot (heq ▸ hj)
        simp only [setRank, Function.update_of_ne hjr]
        exact hA j (by simp [hj])
      · intro j hj hja
        by_cases hjr : j = r
        · subst hjr
          simpa only [setRank, Function.update_self] using hb
        · simp only [setRank, Function.update_of_ne hjr]
          exact hB j hj (by simp [hjr, hja]))
    (List.range s.dpWorld) (s, fun _ => nothing)
    ⟨List.nodup_range, hlt, .refl s, h, fun r hr => hA r (hlt r hr), fun r hr hn => absurd (List.mem_range.2 hr) hn⟩
  -- phase two: the ranks still ahead are in `B`, the others in `C`
  obtain ⟨s₂, heq₂, -, -, hf₂, hsh₂, -, hC⟩ := run_remaining (collectRank report collect kept)
    (I := fun ahead (x : DpCoordinator H) => ahead.Nodup ∧ (∀ r ∈ ahead, r < s.dpWorld) ∧ SameFrame s x ∧
      Shared stops s.submitted s.dpWorld x.ranks x.out (fun r => if r ∈ ahead then X r else X' r) rest ∧
      (∀ r ∈ ahead, B r (kept r) (x.ranks r)) ∧ ∀ r < s.dpWorld, r ∉ ahead → C r (x.ranks r))
    (by
      rintro r ahead x ⟨hnd, hlt, hf, hsh, hB, hC⟩
      obtain ⟨hnot, hnd⟩ := List.nodup_cons.1 hnd
      have hr : r < s.dpWorld := hlt r (by simp)
      have hfocus := hsh.focus hr
      simp only [List.mem_cons_self, if_true] at hfocus
      obtain ⟨k, result, rk₁, rk', out', hrecv, heq, hc, hl, hrev⟩ := hcollect r hr _ _ _ _ (hB r (by simp)) hfocus
      refine ⟨x.setRank r rk' out', by simp only [collectRank, hrecv, heq], hnd, fun j hj => hlt j (by simp [hj]),
        hf.trans ⟨rfl, rfl, rfl⟩, hsh.put hr ?_ hrev (by simp only [hnot, if_false]; exact hl), ?_, ?_⟩
      · intro j hjr
        simp [hjr]
      · intro j hj
        have hjr : j ≠ r := fun heq => hnot (heq ▸ hj)
        simp only [setRank, Function.update_of_ne hjr]
        exact hB j (by simp [hj])
      · intro j hj hja
        by_cases hjr : j = r
        · subst hjr
          simpa only [setRank, Function.update_self] using hc
        · simp only [setRank, Function.update_of_ne hjr]
          exact hC j hj (by simp [hjr, hja]))
    (List.range s.dpWorld) s₁
    ⟨List.nodup_range, hlt, hf₁, hsh₁.congr fun r hr => if_pos (List.mem_range.2 hr),
      fun r hr => hB r (hlt r hr) (by simp), fun r hr hn => absurd (List.mem_range.2 hr) hn⟩
  refine ⟨s₂, ?_, hsh₂.congr fun r _ => (if_neg (by simp)).symm, fun r hr => hC r hr (by simp), hf₂⟩
  unfold lockStep
  simp only [heq₁]
  exact heq₂

end LockStep

/-! ## The coordinator between two steps -/

/-- what a rank has besides its slots: its queued admissions and the padding block's leaked reference -/
def besides (padding : ImmutableBlock H) (queue : ℕ → List (DecodeAdmission H)) (r : ℕ) : Share H :=
  queueShare (queue r) + guardShare (.ofImmutable [padding])

def noQueue (_ : ℕ) : List (DecodeAdmission H) := []

/-- every rank idle and sent the same kinds of steps, `queue` admitted for the next decode step -/
structure Ready [Inhabited H] (stops : List Token) (bs : ℕ) (padding : ImmutableBlock H) (report : ReportOracle)
    (kinds : List StepKind) (queue : ℕ → List (DecodeAdmission H)) (rest : Multiset (GenerateRequest × Phase))
    (s : DpCoordinator H) : Prop where
  shared : Shared stops s.submitted s.dpWorld s.ranks s.out (besides padding queue) rest
  idle : ∀ r < s.dpWorld, Idle bs padding.blockId report kinds r (s.ranks r)
  queued : ∀ r < s.dpWorld, Queued bs (s.ranks r) (queue r)

section Steps

variable [Inhabited H] {bs : ℕ} {padding : ImmutableBlock H} {report : ReportOracle} {kinds : List StepKind}
  {queue : ℕ → List (DecodeAdmission H)} {s : DpCoordinator H}

/-- the coordinator after a step that leaves every rank idle -/
theorem Ready.of_step {s' : DpCoordinator H} {kinds' : List StepKind} (hf : SameFrame s s')
    (hsh : Shared stops s.submitted s.dpWorld s'.ranks s'.out (besides padding noQueue) rest)
    (hidle : ∀ r < s.dpWorld, Idle bs padding.blockId report kinds' r (s'.ranks r)) :
    Ready stops bs padding report kinds' noQueue rest s' := by
  refine ⟨?_, ?_, fun r _ => Queued.nil bs _⟩
  · rw [hf.submitted, hf.dpWorld]
    exact hsh
  · rw [hf.dpWorld]
    exact hidle

/-- **Decode admissions.** The active requests and the queue take one decode step. -/
theorem synchronizedDecodeAdmissions_spec (hpad : padding.seqHash = default)
    (h : Ready stops bs padding report kinds queue rest s) :
    ∃ s', s.synchronizedDecodeAdmissions stops report queue = .ok s' ∧
      Ready stops bs padding report (kinds ++ [.decode]) noQueue rest s' ∧ SameFrame s s' := by
  have hsend : Sends stops s.submitted s.dpWorld (besides padding queue) (sendDecodeAdmission queue)
      (fun r rk => Idle bs padding.blockId report kinds r rk ∧ Queued bs rk (queue r))
      (fun r rows rk => Awaiting bs padding.blockId report kinds r rows rk ∧
        ((rows.map DecodeBatchRow.target).map ReportTarget.share).sum = queueShare (queue r)) := by
    rintro r - rk out W ⟨hidle, hq⟩ hl
    rw [besides, add_assoc] at hl
    obtain ⟨inputs, rk₁, out₁, hsch, haf, hlen, -, haw⟩ := dispatch_spec hidle hq hpad hl
    have hpage : rk₁.pool.paddingBlockId = padding.blockId := haf.pool.paddingBlockId.trans hidle.page
    refine ⟨stepRows inputs (queue r), _, out₁, ?_, ⟨haw, shares_stepRows _ _⟩, ?_, haf.revivals⟩
    · have hlen' : ¬ maxBatchPerDp <
          (inputs.map DecodeBatchRow.active ++ (queue r).map DecodeBatchRow.admission).length := not_lt.2 hlen
      simp only [sendDecodeAdmission, hsch, hlen', if_false, hpage]
      rfl
    · rw [besides, add_assoc]
      exact haf.ledger
  have hcollect : Collects stops s.submitted s.dpWorld (besides padding queue) (besides padding noQueue) report
      (collectDecodeAdmission stops)
      (fun r rows rk => Awaiting bs padding.blockId report kinds r rows rk ∧
        ((rows.map DecodeBatchRow.target).map ReportTarget.share).sum = queueShare (queue r))
      (fun r rk => Idle bs padding.blockId report (kinds ++ [.decode]) r rk) := by
    rintro r - rows rk out W ⟨haw, hsum⟩ hl
    rw [besides, ← hsum, add_assoc] at hl
    obtain ⟨k, reports, rk₁, rk', out', hrecv, -, heq, hl', hrev, hidle⟩ := collect_spec haw hl
    refine ⟨k, .decode reports, rk₁, rk', out', hrecv, heq, hidle, ?_, hrev⟩
    rw [besides, noQueue, queueShare, List.map_nil, List.sum_nil, zero_add]
    exact hl'
  obtain ⟨s', heq, hsh, hC, hf⟩ := lockStep_spec [] hsend hcollect h.shared (fun r hr => ⟨h.idle r hr, h.queued r hr⟩)
  exact ⟨s', heq, .of_step hf hsh hC, hf⟩

/-- **A decode step.** -/
theorem synchronizedDecodeStep_spec (hpad : padding.seqHash = default)
    (h : Ready stops bs padding report kinds noQueue rest s) :
    ∃ s', s.synchronizedDecodeStep stops report = .ok s' ∧
      Ready stops bs padding report (kinds ++ [.decode]) noQueue rest s' ∧ SameFrame s s' := by
  have hsend : Sends stops s.submitted s.dpWorld (besides padding noQueue) sendDecode
      (fun r rk => Idle bs padding.blockId report kinds r rk)
      (fun r _ rk => ∃ rows : List (DecodeBatchRow H), Awaiting bs padding.blockId report kinds r rows rk ∧
        rows.map DecodeBatchRow.target = rk.activeSlots.map ReportTarget.slot ∧
        ((rows.map DecodeBatchRow.target).map ReportTarget.share).sum = queueShare []) := by
    rintro r - rk out W hidle hl
    rw [besides, add_assoc] at hl
    obtain ⟨inputs, rk₁, out₁, hsch, haf, -, hmap, haw⟩ := dispatch_spec hidle (Queued.nil bs rk) hpad hl
    have hpage : rk₁.pool.paddingBlockId = padding.blockId := haf.pool.paddingBlockId.trans hidle.page
    have hrows : (stepRows inputs [] : List (DecodeBatchRow H)) = inputs.map DecodeBatchRow.active := List.append_nil _
    refine ⟨(), _, out₁, ?_, ⟨stepRows inputs [], haw, ?_, shares_stepRows _ _⟩, ?_, haf.revivals⟩
    · simp only [sendDecode, buildDecodeCommand, hsch, hpage, rowsCommand, hrows, List.isEmpty_map,
        buildDecodeCommandFromInputs, buildDecodeCommandFromRows, List.map_map]
      rfl
    · show _ = rk₁.activeSlots.map ReportTarget.slot
      rw [hrows, ← hmap, List.map_map, List.map_map]
      rfl
    · rw [besides, add_assoc]
      exact haf.ledger
  have hcollect : Collects stops s.submitted s.dpWorld (besides padding noQueue) (besides padding noQueue) report
      (collectDecode stops)
      (fun r _ rk => ∃ rows : List (DecodeBatchRow H), Awaiting bs padding.blockId report kinds r rows rk ∧
        rows.map DecodeBatchRow.target = rk.activeSlots.map ReportTarget.slot ∧
        ((rows.map DecodeBatchRow.target).map ReportTarget.share).sum = queueShare [])
      (fun r rk => Idle bs padding.blockId report (kinds ++ [.decode]) r rk) := by
    rintro r - - rk out W ⟨rows, haw, htargets, hsum⟩ hl
    rw [besides, noQueue, ← hsum, add_assoc] at hl
    obtain ⟨k, reports, rk₁, rk', out', hrecv, hact, heq, hl', hrev, hidle⟩ := collect_spec haw hl
    refine ⟨k, .decode reports, rk₁, rk', out', hrecv, ?_, hidle, ?_, hrev⟩
    · rw [htargets, ← hact] at heq
      exact heq
    · rw [besides, noQueue, queueShare, List.map_nil, List.sum_nil, zero_add]
      exact hl'
  obtain ⟨s', heq, hsh, hC, hf⟩ := lockStep_spec () hsend hcollect h.shared h.idle
  exact ⟨s', heq, .of_step hf hsh hC, hf⟩

/-- **Flushing.** The queue is taken, if there is one. -/
theorem flushDecodeAdmissions_spec (hpad : padding.seqHash = default)
    (h : Ready stops bs padding report kinds queue rest s) :
    ∃ kinds' s', s.flushDecodeAdmissions stops report queue = .ok s' ∧
      Ready stops bs padding report kinds' noQueue rest s' ∧ SameFrame s s' := by
  unfold flushDecodeAdmissions
  split_ifs with hall
  · have hnil : ∀ r < s.dpWorld, queue r = [] := by
      intro r hr
      exact List.isEmpty_iff.1 (List.all_eq_true.1 hall r (List.mem_range.2 hr))
    refine ⟨kinds, s, rfl, ⟨h.shared.congr ?_, h.idle, fun r _ => Queued.nil bs _⟩, .refl s⟩
    intro r hr
    rw [besides, besides, hnil r hr, noQueue]
  · obtain ⟨s', heq, hr, hf⟩ := synchronizedDecodeAdmissions_spec hpad h
    exact ⟨_, s', heq, hr, hf⟩

end Steps

/-! ## The budget -/

section Budget

variable {bs : ℕ} {rk : DpRank H} {s : DpCoordinator H} {req : GenerateRequest}

theorem remainingBlocks_le_futureBlocks {st : RequestState H} (h : Live bs st) :
    remainingBlocks st.kv ≤ st.futureBlocks bs := by
  have hpos := h.settled.positive
  have hkv := h.settled.kvPosition
  have hcov := h.settled.covered
  have hwritten : st.promptLen + (st.completionTokens - 1) = st.kv.kvPosition := by omega
  rw [remainingBlocks, h.settled.lifetime, RequestState.futureBlocks, hwritten]
  omega

/-- what the active requests are owed is within their future blocks -/
theorem owed_le_future (h : ∀ i st, rk.slots i = some st → Live bs st) :
    rk.share.2.1 ≤ (rk.activeSlots.map fun i => ((rk.slots i).map (·.futureBlocks bs)).getD 0).sum := by
  have hlist : ∀ slots : List ℕ, (slots.map fun i => slotShare (rk.slots i)).sum.2.1 ≤
      ((slots.filter fun i => (rk.slots i).isSome).map fun i => ((rk.slots i).map (·.futureBlocks bs)).getD 0).sum := by
    intro slots
    induction slots with
    | nil => simp
    | cons i slots ih =>
      rw [List.map_cons, List.sum_cons, Prod.snd_add, Prod.fst_add, List.filter_cons]
      cases hst : rk.slots i with
      | none =>
        simp only [slotShare, Prod.snd_zero, Prod.fst_zero, zero_add, Option.isSome_none, Bool.false_eq_true, if_false]
        exact ih
      | some st =>
        have hle := remainingBlocks_le_futureBlocks (h i st hst)
        simp only [Option.isSome_some, if_true, List.map_cons, List.sum_cons, hst, Option.map_some, Option.getD_some]
        exact Nat.add_le_add hle ih
  exact hlist (List.range maxBatchPerDp)

/-- **Budget.** What the budget promises is there on top of what the active requests are owed. -/
theorem room_of_budget (reserved : ℕ) {r needed : ℕ} (h : ∀ i st, (s.ranks r).slots i = some st → Live bs st)
    (hbs : (s.ranks r).pool.blockSize = bs) (hpos : 1 ≤ needed) (hle : needed ≤ s.rankKvBudget r - reserved) :
    needed + ((s.ranks r).share.2.1 + reserved) ≤ (s.ranks r).pool.availableBlocks := by
  have hfuture := owed_le_future h
  rw [rankKvBudget, hbs] at hle
  omega

end Budget

/-! ## Admitting to a rank -/

section Admission

variable [Inhabited H] {bs : ℕ} {padding : ImmutableBlock H} {report : ReportOracle} {kinds : List StepKind}
  {queue : ℕ → List (DecodeAdmission H)} {s : DpCoordinator H} {req : GenerateRequest} {rk : DpRank H}

/-- a pending request is admitted to a rank that has room for its lifetime -/
theorem Shared.admitted (h : Shared stops submitted n ranks out X ((req, .pending) ::ₘ rest)) (hr : r < n)
    (hroom : requestLifetimeBlocks req bs + ((ranks r).share + X r).2.1 ≤ (ranks r).pool.availableBlocks) :
    Ledger stops submitted (ranks r).pool (sendScheduled req out)
      (admittedShare bs req + ((ranks r).share + (X r + elsewhere n ranks X r rest))) := by
  obtain ⟨hb, -, hc⟩ := sendScheduled_spec h.book_cons
  refine ⟨?_, fun _ => ?_, ?_, fun h0 => hc (h.clean h0)⟩
  · have := h.account r hr
    rwa [← add_assoc (ranks r).share, admittedShare, Prod.fst_add, Prod.fst_add, elsewhere, add_zero, zero_add]
  · rw [← add_assoc (ranks r).share, admittedShare, Prod.snd_add, Prod.fst_add, Prod.snd_add _ (elsewhere _ _ _ _ _),
      Prod.fst_add, elsewhere, add_zero]
    exact hroom
  · rw [admittedShare, Prod.snd_add, Prod.snd_add, ← rankBag_eq hr, Multiset.singleton_add]
    exact hb

/-- **Scheduling an admission.** With its lifetime reserved its page is scheduled; it is failed otherwise. -/
theorem scheduleAdmission_spec {S : Share H} {pool : BlockPool H}
    (h : Ledger stops submitted pool out (admittedShare pool.blockSize req + S)) (hb : 0 < pool.blockSize)
    (hone : req.promptTokens.length = 1) :
    (∃ kv pool', pool.call (pool.newRequest req.promptTokens req.maxTokens 0) (.schedulePrefill 1) =
        .ok (.done, kv, pool') ∧ Ledger stops submitted pool' out (kvShare req .admitted kv + S) ∧ SamePool pool pool' ∧
      Prefilling pool.blockSize req.promptTokens.length req.maxTokens kv) ∨
    ∃ res kv, pool.call (pool.newRequest req.promptTokens req.maxTokens 0) (.schedulePrefill 1) = .ok (res, kv, pool) ∧
      res ≠ .done ∧ out.revivals ≠ 0 ∧ Ledger stops submitted pool out (kvShare req .admitted kv + S) := by
  have hp : req.promptTokens ≠ [] := by
    intro hnil
    simp [hnil] at hone
  set kv : RequestKv H := pool.newRequest req.promptTokens req.maxTokens 0 with hkv
  have hwait : Waiting pool.blockSize req.promptTokens.length req.maxTokens kv := new_waiting _ _ _ hb hp
  have hled : Ledger stops submitted pool out (kvShare req .admitted kv + S) := by
    refine .of_kv ?_ ?_ ?_ h.clean
    · have := h.account
      rwa [admittedShare, Prod.fst_add] at this
    · intro h0
      have hheld : max (divCeil (req.promptTokens.length + req.maxTokens) pool.blockSize) 1 + S.2.1 ≤
          pool.availableBlocks := h.room h0
      have hlife := le_max_left (divCeil (req.promptTokens.length + req.maxTokens) pool.blockSize) 1
      rw [remainingBlocks, hwait.lifetime]
      omega
    · have := h.book
      rwa [admittedShare, Prod.snd_add, Prod.snd_add, Multiset.singleton_add] at this
  have hn : req.promptTokens.length - kv.prefillPosition = 1 := by rw [hone]; rfl
  rcases schedulePrefill_cases hled.account_kv hwait with ⟨kv', pool', heq, hacc, hsame, hpre, -, hroom⟩ | ⟨m, heq, hav⟩
  · rw [hn] at heq
    exact Or.inl ⟨kv', pool', heq, .of_kv hacc (fun h0 => hroom _ (hled.room_kv h0)) hled.book_cons h.clean, hsame, hpre⟩
  · rw [hn] at heq
    refine Or.inr ⟨_, kv, heq, fun hdone => (by cases hdone), fun h0 => ?_, hled⟩
    have := hled.room_kv h0
    omega

def pendingBag (reqs : List GenerateRequest) : Multiset (GenerateRequest × Phase) := ↑(reqs.map fun q => (q, Phase.pending))

theorem pendingBag_append_cons (qs rs : List GenerateRequest) (req : GenerateRequest) :
    pendingBag (qs ++ req :: rs) = (req, Phase.pending) ::ₘ pendingBag (qs ++ rs) := by
  simp only [pendingBag, List.map_append, List.map_cons, Multiset.cons_coe, Multiset.coe_eq_coe]
  exact List.perm_middle

/-- the slots promised to queued admissions and those still free are distinct -/
structure SlotsFree (rk : DpRank H) (queue : List (DecodeAdmission H)) (free : List ℕ) : Prop where
  nodup : free.Nodup
  free : ∀ i ∈ free, i < maxBatchPerDp ∧ rk.slots i = none ∧ i ∉ queue.map DecodeAdmission.slot

/-- the admission loop with the requests `ahead` still to come -/
structure RoundInv (stops : List Token) (bs : ℕ) (padding : ImmutableBlock H) (report : ReportOracle)
    (ahead : List GenerateRequest) (s : DpCoordinator H) (rd : Round H) : Prop where
  ready : ∃ kinds, Ready stops bs padding report kinds rd.decodeAdmissions (pendingBag (rd.stillPending ++ ahead)) s
  slots : ∀ r < s.dpWorld, SlotsFree (s.ranks r) (rd.decodeAdmissions r) (rd.reservedFreeSlots r)
  reserved : ∀ r < s.dpWorld, (queueShare (rd.decodeAdmissions r)).2.1 ≤ rd.roundReserved r

/-- a request that waits for the next round -/
theorem RoundInv.wait {ahead : List GenerateRequest} {rd : Round H}
    (h : RoundInv stops bs padding report (req :: ahead) s rd) :
    RoundInv stops bs padding report ahead s { rd with stillPending := rd.stillPending ++ [req] } := by
  obtain ⟨kinds, hready⟩ := h.ready
  refine ⟨⟨kinds, ?_⟩, h.slots, h.reserved⟩
  simpa using hready

theorem maxByKey_mem {key : ℕ → ℕ} : ∀ {rs : List ℕ} {r : ℕ}, maxByKey key rs = some r → r ∈ rs := by
  intro rs
  induction rs with
  | nil =>
    intro r h
    cases h
  | cons a rs ih =>
    intro r h
    rw [maxByKey] at h
    cases hrec : maxByKey key rs with
    | none =>
      rw [hrec] at h
      simp [Option.some.inj h]
    | some b =>
      simp only [hrec] at h
      split_ifs at h with hle
      · exact List.mem_cons_of_mem _ (ih (hrec.trans h))
      · simp [Option.some.inj h]

theorem admissionRank_spec {rd : Round H} {needed : ℕ} (h : s.admissionRank rd needed = some r) :
    r < s.dpWorld ∧ rd.reservedFreeSlots r ≠ [] ∧ needed ≤ s.rankKvBudget r - rd.roundReserved r := by
  have hmem := maxByKey_mem h
  simp only [List.mem_filter, List.mem_range, Bool.and_eq_true, Bool.not_eq_true', List.isEmpty_eq_false_iff,
    decide_eq_true_eq] at hmem
  exact ⟨hmem.1, hmem.2.1, hmem.2.2⟩

theorem one_le_requestLifetimeBlocks (req : GenerateRequest) (bs : ℕ) : 1 ≤ requestLifetimeBlocks req bs :=
  le_max_right _ _

theorem queueShare_append (q : List (DecodeAdmission H)) (a : DecodeAdmission H) :
    queueShare (q ++ [a]) = kvShare a.req .admitted a.kv + queueShare q := by
  rw [queueShare, List.map_append, List.sum_append, List.map_singleton, List.sum_singleton, add_comm]
  rfl

/-- the coordinator after one idle rank's pool and queue moved -/
theorem Ready.put {queue' : ℕ → List (DecodeAdmission H)} {pool : BlockPool H} (h : Ready stops bs padding report kinds queue rest s)
    (hr : r < s.dpWorld) (hs : SamePool (s.ranks r).pool pool) (hrev : s.out.revivals ≤ out.revivals)
    (hq : ∀ j ≠ r, queue' j = queue j) (hqueued : Queued bs (s.ranks r) (queue' r))
    (hl : Ledger stops s.submitted pool out ((s.ranks r).share +
      (besides padding queue' r + elsewhere s.dpWorld s.ranks (besides padding queue) r rest'))) :
    Ready stops bs padding report kinds queue' rest' (s.setRank r { s.ranks r with pool := pool } out) := by
  refine ⟨h.shared.put hr (fun j hj => by rw [besides, besides, hq j hj]) hrev hl, ?_, ?_⟩
  · intro j hj
    by_cases hjr : j = r
    · subst hjr
      simp only [setRank, Function.update_self]
      exact (h.idle j hj).withPool hs
    · simp only [setRank, Function.update_of_ne hjr]
      exact h.idle j hj
  · intro j hj
    by_cases hjr : j = r
    · subst hjr
      simp only [setRank, Function.update_self]
      exact ⟨hqueued.nodup, fun a ha => ⟨(hqueued.due a ha).1.congr rfl, (hqueued.due a ha).2⟩⟩
    · simp only [setRank, Function.update_of_ne hjr, hq j hjr]
      exact h.queued j hj

theorem besides_owed (padding : ImmutableBlock H) (queue : ℕ → List (DecodeAdmission H)) (r : ℕ) :
    (besides padding queue r).2.1 = (queueShare (queue r)).2.1 := by
  rw [besides, Prod.snd_add, Prod.fst_add, guardShare, add_zero]

/-- the free slots behind the one taken -/
theorem SlotsFree.tail {rk : DpRank H} {q : List (DecodeAdmission H)} {slot : ℕ} {free : List ℕ}
    (h : SlotsFree rk q (slot :: free)) : SlotsFree rk q free :=
  ⟨(List.nodup_cons.1 h.nodup).2, fun i hi => h.free i (by simp [hi])⟩

/-- the loop's slots and reserves after a change at one rank -/
theorem RoundInv.at_rank {ahead : List GenerateRequest} {rd rd' : Round H} {pool : BlockPool H}
    (h : RoundInv stops bs padding report (req :: ahead) s rd)
    (hready : ∃ kinds, Ready stops bs padding report kinds rd'.decodeAdmissions (pendingBag (rd'.stillPending ++ ahead))
      (s.setRank r { s.ranks r with pool := pool } out))
    (hother : ∀ j ≠ r, rd'.decodeAdmissions j = rd.decodeAdmissions j ∧ rd'.reservedFreeSlots j = rd.reservedFreeSlots j ∧
      rd'.roundReserved j = rd.roundReserved j)
    (hslots : SlotsFree (s.ranks r) (rd'.decodeAdmissions r) (rd'.reservedFreeSlots r))
    (hres : (queueShare (rd'.decodeAdmissions r)).2.1 ≤ rd'.roundReserved r) :
    RoundInv stops bs padding report ahead (s.setRank r { s.ranks r with pool := pool } out) rd' := by
  refine ⟨hready, ?_, ?_⟩
  · intro j hj
    by_cases hjr : j = r
    · subst hjr
      simp only [setRank, Function.update_self]
      exact ⟨hslots.nodup, hslots.free⟩
    · obtain ⟨h1, h2, -⟩ := hother j hjr
      simp only [setRank, Function.update_of_ne hjr, h1, h2]
      exact h.slots j hj
  · intro j hj
    by_cases hjr : j = r
    · subst hjr
      exact hres
    · obtain ⟨h1, -, h3⟩ := hother j hjr
      simp only [h1, h3]
      exact h.reserved j hj

/-- **Queueing.** A one-token prompt is queued in a free slot of a rank with room for it, or waits. -/
theorem queueAdmission_spec {ahead : List GenerateRequest} {rd : Round H} (hpos : 0 < bs)
    (h : RoundInv stops bs padding report (req :: ahead) s rd) (hone : req.promptTokens.length = 1)
    (hmax : 1 ≤ req.maxTokens) :
    ∃ s' rd', s.queueAdmission req (requestLifetimeBlocks req bs) rd = .ok (s', rd') ∧
      RoundInv stops bs padding report ahead s' rd' ∧ SameFrame s s' := by
  unfold queueAdmission
  cases hrank : s.admissionRank rd (requestLifetimeBlocks req bs) with
  | none => exact ⟨_, _, rfl, h.wait, .refl s⟩
  | some r =>
    obtain ⟨hr, hne, hneed⟩ := admissionRank_spec hrank
    obtain ⟨kinds, hready⟩ := h.ready
    rw [pendingBag_append_cons] at hready
    have hidle := hready.idle r hr
    have hfree := h.slots r hr
    have hres := h.reserved r hr
    cases hlist : rd.reservedFreeSlots r with
    | nil => exact absurd hlist hne
    | cons slot free =>
      rw [hlist] at hfree
      obtain ⟨hslot8, hslot, hslotq⟩ := hfree.free slot (by simp)
      have hbudget := room_of_budget _ (fun i st hst => (hidle.live i st hst).2) hidle.size
        (one_le_requestLifetimeBlocks req bs) hneed
      have hroom : requestLifetimeBlocks req bs + ((s.ranks r).share + besides padding rd.decodeAdmissions r).2.1 ≤
          (s.ranks r).pool.availableBlocks := by
        rw [Prod.snd_add, Prod.fst_add, besides_owed]
        omega
      have hadm := hready.shared.admitted hr hroom
      rw [← hidle.size] at hadm
      have hrev : s.out.revivals ≤ (sendScheduled req s.out).revivals := le_rfl
      rcases scheduleAdmission_spec hadm (by rw [hidle.size]; exact hpos) hone with
        ⟨kv, pool', heq, hl, hs, hpre⟩ | ⟨res, kv, heq, hnd, hrv, hl⟩
      · rw [hidle.size] at hpre
        have hsingle : kv.kvPosition = 0 ∧ remainingBlocks kv + 1 ≤ divCeil (1 + req.maxTokens) bs :=
          Prefilling.single (hone ▸ hpre)
        simp only [hlist, heq]
        refine ⟨_, _, rfl, ?_, ⟨rfl, rfl, rfl⟩⟩
        refine h.at_rank ⟨kinds, hready.put hr hs hrev (fun j hj => Function.update_of_ne hj _ _) ?_ ?_⟩ ?_ ?_ ?_
        · have hq := hready.queued r hr
          dsimp only
          rw [Function.update_self]
          refine ⟨?_, ?_⟩
          · rw [List.map_append, List.map_singleton]
            exact hq.nodup.append (List.nodup_singleton _) (by simpa using hslotq)
          · intro a ha
            rcases List.mem_append.1 ha with ha | ha
            · exact hq.due a ha
            · rw [List.mem_singleton.1 ha]
              exact ⟨⟨hslot8, hslot, hpre, hmax⟩, hsingle.1⟩
        · rw [besides]
          dsimp only
          rw [Function.update_self, queueShare_append]
          convert hl using 1
          rw [besides]
          abel
        · intro j hj
          simp only [Function.update_of_ne hj]
          exact ⟨trivial, trivial, trivial⟩
        · simp only [Function.update_self]
          refine ⟨hfree.tail.nodup, fun i hi => ?_⟩
          obtain ⟨h1, h2, h3⟩ := hfree.tail.free i hi
          refine ⟨h1, h2, ?_⟩
          rw [List.map_append, List.mem_append, List.map_singleton, List.mem_singleton, not_or]
          refine ⟨h3, ?_⟩
          rintro rfl
          exact (List.nodup_cons.1 hfree.nodup).1 hi
        · simp only [Function.update_self]
          rw [queueShare_append, Prod.snd_add, Prod.fst_add]
          have hlife : divCeil (1 + req.maxTokens) bs ≤ requestLifetimeBlocks req bs := by
            rw [requestLifetimeBlocks, hone]
            exact le_max_left _ _
          have h2 := hsingle.2
          show remainingBlocks kv + _ ≤ _
          omega
      · obtain ⟨hl', hs', hf⟩ := failKv_spec (n := 0) (m := .admissionAccounting res) hl (Or.inl ⟨rfl, rfl⟩)
          (fun h0 => absurd h0 hrv)
        set f := failKv req (.admissionAccounting res) 0 (s.ranks r).pool kv (sendScheduled req s.out) with hfdef
        refine ⟨s.setRank r { s.ranks r with pool := f.1 } f.2,
          { rd with reservedFreeSlots := Function.update rd.reservedFreeSlots r free }, ?_, ?_, ⟨rfl, rfl, rfl⟩⟩
        · cases res with
          | done => exact absurd rfl hnd
          | _ => simp only [hlist, heq, ← hfdef]
        · refine h.at_rank ⟨kinds, hready.put hr hs' hf.revivals (fun _ _ => rfl) (hready.queued r hr) hl'⟩ ?_ ?_ hres
          · intro j hj
            simp only [Function.update_of_ne hj]
            exact ⟨trivial, trivial, trivial⟩
          · simp only [Function.update_self]
            exact hfree.tail

end Admission

/-! ## Prefill -/

section Prefill

variable [Inhabited H] {bs : ℕ} {padding : ImmutableBlock H} {report : ReportOracle} {kinds : List StepKind}
  {queue : ℕ → List (DecodeAdmission H)} {s : DpCoordinator H} {req : GenerateRequest} {rk : DpRank H}

theorem Shared.of_same {ranks' : ℕ → DpRank H} (h : Shared stops submitted n ranks out X rest)
    (hsame : ∀ r < n, (ranks' r).pool = (ranks r).pool ∧ (ranks' r).slots = (ranks r).slots) :
    Shared stops submitted n ranks' out X rest := by
  have hshare : ∀ r < n, (ranks' r).share = (ranks r).share := by
    intro r hr
    rw [DpRank.share, DpRank.share, (hsame r hr).2]
  refine ⟨?_, ?_, ?_, h.clean⟩
  · intro r hr
    rw [(hsame r hr).1, hshare r hr]
    exact h.account r hr
  · intro h0 r hr
    rw [(hsame r hr).1, hshare r hr]
    exact h.room h0 r hr
  · have hbag : rankBag n ranks' X = rankBag n ranks X :=
      Finset.sum_congr rfl fun r hr => by rw [hshare r (Finset.mem_range.1 hr)]
    rw [hbag]
    exact h.book

/-- what the fold of `synchronizedPrefill` does, from rank `k` on -/
theorem prefillFold (f : ℕ → ℕ → BlockId → StepCommand) (slots : List ℕ) : ∀ (k : ℕ) (s : DpCoordinator H),
    let s' := (slots.zipIdx k).foldl (fun s x =>
      s.setRank x.2 ((s.ranks x.2).sendStepCommand (f x.2 x.1 (s.ranks x.2).pool.paddingBlockId)) s.out) s
    SameFrame s s' ∧ s'.out = s.out ∧
      (∀ i slot, slots[i]? = some slot →
        s'.ranks (k + i) = (s.ranks (k + i)).sendStepCommand (f (k + i) slot (s.ranks (k + i)).pool.paddingBlockId)) ∧
      ∀ r < k, s'.ranks r = s.ranks r := by
  induction slots with
  | nil =>
    intro k s
    exact ⟨.refl s, rfl, by simp, fun _ _ => rfl⟩
  | cons slot slots ih =>
    intro k s
    simp only [List.zipIdx_cons, List.foldl_cons]
    set s₁ := s.setRank k ((s.ranks k).sendStepCommand (f k slot (s.ranks k).pool.paddingBlockId)) s.out with hs₁
    obtain ⟨hf, hout, hranks, hlow⟩ := ih (k + 1) s₁
    have hframe : SameFrame s s₁ := ⟨rfl, rfl, rfl⟩
    refine ⟨hframe.trans hf, hout, ?_, ?_⟩
    · intro i slot' hi
      cases i with
      | zero =>
        rw [List.getElem?_cons_zero, Option.some.injEq] at hi
        subst hi
        simp only [Nat.add_zero]
        rw [hlow k (Nat.lt_succ_self k)]
        simp [hs₁, setRank]
      | succ i =>
        rw [List.getElem?_cons_succ] at hi
        have hne : k + 1 + i ≠ k := by omega
        have hstep := hranks i slot' hi
        simp only [hs₁, setRank, Function.update_of_ne hne] at hstep
        rw [← Nat.add_assoc, Nat.add_right_comm]
        exact hstep
    · intro r hr
      rw [hlow r (by omega)]
      simp [hs₁, setRank, Function.update_of_ne (show r ≠ k by omega)]

/-- **Prefill commands.** Every rank is sent one. -/
theorem synchronizedPrefill_spec (owner : ℕ) (req : GenerateRequest) (cached : ℕ) (pages : List BlockId) {slots : List ℕ}
    (hlen : slots.length = s.dpWorld) :
    SameFrame s (s.synchronizedPrefill owner slots req cached pages) ∧
      (s.synchronizedPrefill owner slots req cached pages).out = s.out ∧
      ∀ r slot, slots[r]? = some slot → (s.synchronizedPrefill owner slots req cached pages).ranks r =
        (s.ranks r).sendStepCommand (prefillCommand owner req cached pages r slot (s.ranks r).pool.paddingBlockId) := by
  obtain ⟨hf, hout, hranks, -⟩ := prefillFold (prefillCommand owner req cached pages) slots 0 s
  have htake : slots.zipIdx.take s.dpWorld = slots.zipIdx := List.take_of_length_le (by simp [hlen])
  unfold synchronizedPrefill
  rw [htake]
  refine ⟨hf, hout, ?_⟩
  intro r slot hr
  have := hranks r slot hr
  rwa [Nat.zero_add] at this

/-- a rank that owes the result of its last command -/
theorem recv_of_last (report : ReportOracle) {past : List SentCommand} {c : SentCommand} (hsent : rk.sent = past ++ [c])
    (hrec : rk.received = past.length) (r : ℕ) :
    rk.recv report r = .ok (rk.received, rankForward report r rk.received c.command,
      { rk with received := rk.received + 1 }) := by
  have hget : rk.sent[rk.received]? = some c := by
    rw [hsent, hrec]
    simp
  simp only [recv, hget]

/-- **Padding results.** Those of the ranks in `ahead` are taken. -/
theorem recvPadding_spec (report : ReportOracle) (ahead : List ℕ) : ∀ (s : DpCoordinator H), ahead.Nodup →
    (∀ r ∈ ahead, ∃ past c, (s.ranks r).sent = past ++ [c] ∧ (s.ranks r).received = past.length ∧
      c.command.kind = .prefill) →
    ∃ s', run (recvPadding report) s ahead = .ok s' ∧ SameFrame s s' ∧ s'.out = s.out ∧
      (∀ r ∈ ahead, s'.ranks r = { s.ranks r with received := (s.ranks r).received + 1 }) ∧
      ∀ r ∉ ahead, s'.ranks r = s.ranks r := by
  induction ahead with
  | nil =>
    intro s _ _
    exact ⟨s, rfl, .refl s, rfl, by simp, fun _ _ => rfl⟩
  | cons r ahead ih =>
    intro s hnd hlast
    obtain ⟨hr, hnd⟩ := List.nodup_cons.1 hnd
    obtain ⟨past, c, hsent, hrec, hkind⟩ := hlast r (by simp)
    set s₁ := s.setRank r { s.ranks r with received := (s.ranks r).received + 1 } s.out with hs₁
    have hstep : recvPadding report s r = .ok s₁ := by
      unfold recvPadding recvPrefill
      rw [recv_of_last report hsent hrec]
      cases hc : c.command with
      | decode rows size page =>
        rw [hc] at hkind
        cases hkind
      | prefill => rfl
    have hother : ∀ j ≠ r, s₁.ranks j = s.ranks j := fun j hj => by simp [hs₁, setRank, Function.update_of_ne hj]
    have hne : ∀ j ∈ ahead, j ≠ r := fun j hj heq => hr (heq ▸ hj)
    obtain ⟨s', heq, hf, hout, hin, hnot⟩ := ih s₁ hnd (by
      intro j hj
      rw [hother j (hne j hj)]
      exact hlast j (by simp [hj]))
    have hframe : SameFrame s s₁ := ⟨rfl, rfl, rfl⟩
    refine ⟨s', (run_cons_ok _ _ _ _).2 ⟨s₁, hstep, heq⟩, hframe.trans hf, hout, ?_, ?_⟩
    · intro j hj
      rcases List.mem_cons.1 hj with rfl | hj
      · rw [hnot j hr]
        simp [hs₁, setRank]
      · rw [hin j hj, hother j (hne j hj)]
    · intro j hj
      rw [List.mem_cons, not_or] at hj
      rw [hnot j hj.2, hother j hj.1]

theorem prefillCommand_owners (req : GenerateRequest) (owner cached j slot : ℕ) (pages : List BlockId) (page : BlockId) :
    (prefillCommand owner req cached pages j slot page).kind = .prefill ∧
      (prefillCommand owner req cached pages j slot page).owners = [if j = owner then some req.tokenTx else none] := by
  unfold prefillCommand
  split_ifs <;> exact ⟨rfl, rfl⟩

theorem prefillCommand_ok {owner cached j slot : ℕ} {pages : List BlockId} {page : BlockId} {occupied : List ℕ}
    (hslot : slot < maxBatchPerDp) (hfree : slot ∉ occupied) :
    CommandOk page occupied (prefillCommand owner req cached pages j slot page) := by
  unfold prefillCommand
  split_ifs
  · exact ⟨hslot, hfree, nofun⟩
  · exact ⟨hslot, hfree, fun _ => rfl⟩

/-- the slots a prefill is sent to: one free slot of each rank -/
structure PrefillSlots (s : DpCoordinator H) (owner slot : ℕ) (slots : List ℕ) : Prop where
  length : slots.length = s.dpWorld
  owner : slots[owner]? = some slot
  free : ∀ r i, slots[r]? = some i → i < maxBatchPerDp ∧ (s.ranks r).slots i = none

/-- **The exchange.** Every rank is sent a prefill command for a free slot and its result is taken, the owner's first. -/
theorem exchange_spec (req : GenerateRequest) (cached : ℕ) (pages : List BlockId) {owner slot : ℕ} {slots : List ℕ}
    (howner : owner < s.dpWorld)
    (hidle : ∀ j < s.dpWorld, Idle bs padding.blockId report kinds j (s.ranks j)) (hslots : PrefillSlots s owner slot slots) :
    ∃ s₁ s₂, (s.synchronizedPrefill owner slots req cached pages).recvPrefill report owner =
        .ok ((s.ranks owner).received, report owner (s.ranks owner).received 0, s₁) ∧
      run (recvPadding report) s₁ ((List.range s₁.dpWorld).filter fun r => decide (r ≠ owner)) = .ok s₂ ∧
      SameFrame s s₂ ∧ s₂.out = s.out ∧
      ∀ j < s.dpWorld, ∃ i, i < maxBatchPerDp ∧ (s.ranks j).slots i = none ∧
        s₂.ranks j = { (s.ranks j).sendStepCommand (prefillCommand owner req cached pages j i padding.blockId) with
          received := (s.ranks j).received + 1 } := by
  obtain ⟨hf, hout, hranks⟩ := synchronizedPrefill_spec owner req cached pages hslots.length
  set s₀ := s.synchronizedPrefill owner slots req cached pages
  have hsent : ∀ j < s.dpWorld, ∃ i, i < maxBatchPerDp ∧ (s.ranks j).slots i = none ∧
      s₀.ranks j = (s.ranks j).sendStepCommand (prefillCommand owner req cached pages j i padding.blockId) := by
    intro j hj
    obtain ⟨i, hi⟩ : ∃ i, slots[j]? = some i := by
      rw [← hslots.length] at hj
      exact ⟨_, List.getElem?_eq_getElem hj⟩
    obtain ⟨hi8, hfree⟩ := hslots.free j i hi
    exact ⟨i, hi8, hfree, by rw [hranks j i hi, (hidle j hj).page]⟩
  -- the owner's result
  set s₁ := s₀.setRank owner { s₀.ranks owner with received := (s₀.ranks owner).received + 1 } s₀.out with hs₁
  have hfirst : s₀.recvPrefill report owner =
      .ok ((s.ranks owner).received, report owner (s.ranks owner).received 0, s₁) := by
    obtain ⟨i, -, -, hr⟩ := hsent owner howner
    set c := prefillCommand owner req cached pages owner i padding.blockId with hc
    have hfwd : rankForward report owner (s.ranks owner).received c = .prefill (report owner (s.ranks owner).received 0) := by
      simp [hc, prefillCommand, rankForward]
    have hlast : (s₀.ranks owner).sent = (s.ranks owner).sent ++
        [⟨c, (s.ranks owner).activeSlots, (s.ranks owner).heldPages⟩] := by rw [hr]; rfl
    have hrcv : (s₀.ranks owner).received = (s.ranks owner).received := by rw [hr]; rfl
    have hrec := recv_of_last report hlast (hrcv.trans (hidle owner howner).received) owner
    unfold recvPrefill
    rw [hrec, hrcv, hfwd, hs₁, hrcv]
  have hother : ∀ j ≠ owner, s₁.ranks j = s₀.ranks j := fun j hj => by simp [hs₁, setRank, Function.update_of_ne hj]
  have hdp : s₁.dpWorld = s.dpWorld := hf.dpWorld
  obtain ⟨s₂, heq, hf₂, hout₂, hin, hnot⟩ := recvPadding_spec report
    ((List.range s₁.dpWorld).filter fun r => decide (r ≠ owner)) s₁ (List.nodup_range.filter _) (by
      intro j hj
      simp only [List.mem_filter, List.mem_range, hdp, decide_eq_true_eq] at hj
      obtain ⟨i, -, -, hr⟩ := hsent j hj.1
      rw [hother j hj.2, hr]
      exact ⟨_, _, rfl, (hidle j hj.1).received, (prefillCommand_owners req owner cached j i pages _).1⟩)
  have hframe : SameFrame s s₁ := ⟨hf.dpWorld, hf.pendingReqs, hf.submitted⟩
  refine ⟨s₁, s₂, hfirst, heq, hframe.trans hf₂, hout₂.trans hout, ?_⟩
  intro j hj
  obtain ⟨i, hi8, hfree, hr⟩ := hsent j hj
  refine ⟨i, hi8, hfree, ?_⟩
  by_cases hjo : j = owner
  · subst hjo
    rw [hnot j (by simp)]
    simp only [hs₁, setRank, Function.update_self, hr]
    rfl
  · rw [hin j (by simp [hdp, hj, hjo]), hother j hjo, hr]
    rfl

/-- **The prefill step.** Every rank takes one step; the owner's request, scheduled and counted at its rank, runs or has
ended. -/
theorem prefillStep_spec (cached : ℕ) (pages : List BlockId) {owner slot : ℕ} {slots : List ℕ} {kv : RequestKv H}
    (hpad : padding.seqHash = default) (howner : owner < s.dpWorld)
    (hsh : Shared stops s.submitted s.dpWorld s.ranks s.out (Function.update (besides padding noQueue) owner
      (kvShare req .admitted kv + besides padding noQueue owner)) rest)
    (hidle : ∀ j < s.dpWorld, Idle bs padding.blockId report kinds j (s.ranks j)) (hslots : PrefillSlots s owner slot slots)
    (hpre : Prefilling bs req.promptTokens.length req.maxTokens kv) (hmax : 1 ≤ req.maxTokens) :
    ∃ k token s₁ s₂ rk out, (s.synchronizedPrefill owner slots req cached pages).recvPrefill report owner =
        .ok (k, token, s₁) ∧
      run (recvPadding report) s₁ ((List.range s₁.dpWorld).filter fun r => decide (r ≠ owner)) = .ok s₂ ∧
      (s₂.ranks owner).installFirst stops .prefillBookkeeping k 0 slot req kv token s₂.out = .ok (rk, out) ∧
      Ready stops bs padding report (kinds ++ [.prefill]) noQueue rest (s₂.setRank owner rk out) ∧ SameFrame s s₂ := by
  set X := Function.update (besides padding noQueue) owner (kvShare req .admitted kv + besides padding noQueue owner)
    with hX
  obtain ⟨s₁, s₂, hfirst, hrest, hf, hout, hranks⟩ := exchange_spec req cached pages howner hidle
    hslots
  have hnot : ∀ j < s.dpWorld, PaddingDistinct H → padding.blockId ∉ (s.ranks j).heldPages := by
    intro j hj
    have hguard : ∃ Y, X j = guardShare (.ofImmutable [padding]) + Y := by
      by_cases hjo : j = owner
      · subst hjo
        exact ⟨kvShare req .admitted kv + queueShare [], by rw [hX, Function.update_self, besides, noQueue]; abel⟩
      · exact ⟨queueShare [], by rw [hX, Function.update_of_ne hjo, besides, noQueue, add_comm]⟩
    obtain ⟨Y, hY⟩ := hguard
    have hfocus := hsh.focus hj
    rw [hY, add_assoc] at hfocus
    exact padding_not_mem_heldPages hfocus
      (fun i st hst => ((hidle j hj).live i st hst).2.settled.positions.base) hpad
  -- the exchange leaves the ledgers alone
  have hsh₂ : Shared stops s.submitted s.dpWorld s₂.ranks s₂.out X rest := by
    rw [hout]
    refine hsh.of_same fun j hj => ?_
    obtain ⟨i, -, -, hr⟩ := hranks j hj
    rw [hr]
    exact ⟨rfl, rfl⟩
  have hslot := hslots.free owner slot hslots.owner
  obtain ⟨i, hi8, hfree, hr⟩ := hranks owner howner
  have hslot₂ : (s₂.ranks owner).slots slot = none := by
    rw [hr]
    exact hslot.2
  have hl : Ledger stops s.submitted (s₂.ranks owner).pool s₂.out ((s₂.ranks owner).share + (kvShare req .admitted kv +
      (besides padding noQueue owner + elsewhere s.dpWorld s₂.ranks X owner rest))) := by
    have := hsh₂.focus howner
    rwa [hX, Function.update_self, add_assoc] at this
  have hsize : (s₂.ranks owner).pool.blockSize = bs := by
    rw [hr]
    exact (hidle owner howner).size
  obtain ⟨rk, out, heq, haf, happ, hsame, hlive⟩ := installFirst_spec .prefillBookkeeping (s.ranks owner).received 0
    (report owner (s.ranks owner).received 0) hslot.1 hslot₂ hl (by rw [hsize]; exact hpre) hmax
  refine ⟨_, _, s₁, s₂, rk, out, hfirst, hrest, heq, ?_, hf⟩
  have hframe : SameFrame s (s₂.setRank owner rk out) := ⟨hf.dpWorld, hf.pendingReqs, hf.submitted⟩
  refine .of_step hframe (hsh₂.put howner (fun j hj => ?_) haf.revivals haf.ledger) ?_
  · rw [hX, Function.update_of_ne hj]
  · intro j hj
    by_cases hjo : j = owner
    · subst hjo
      simp only [setRank, Function.update_self]
      obtain ⟨hkind, howners⟩ := prefillCommand_owners req j cached j i pages padding.blockId
      refine (hidle j hj).after_prefill hkind howners
        (prefillCommand_ok hi8 fun hmem => ?_) (hnot j hj) ?_ ?_ ?_ ?_ ?_
      · rw [mem_activeSlots, hfree] at hmem
        simp at hmem
      · have hpool := haf.pool
        rwa [hr] at hpool
      · rw [haf.sent, hr]
        rfl
      · rw [haf.received, hr]
      · rw [happ, hr, if_pos rfl]
        rfl
      · intro i' st hst
        by_cases hi' : i' = slot
        · subst hi'
          rw [hsize] at hlive
          exact ⟨hslot.1, hlive st hst⟩
        · rw [hsame i' hi', hr] at hst
          exact (hidle j hj).live i' st hst
    · simp only [setRank, Function.update_of_ne hjo]
      obtain ⟨i', hi8', hfree', hr'⟩ := hranks j hj
      obtain ⟨hkind, howners⟩ := prefillCommand_owners req owner cached j i' pages padding.blockId
      refine (hidle j hj).after_prefill hkind howners
        (prefillCommand_ok hi8' fun hmem => ?_) (hnot j hj) ?_ ?_ ?_ ?_ ?_
      · rw [mem_activeSlots, hfree'] at hmem
        simp at hmem
      · rw [hr']
        exact .refl _
      · rw [hr']
        rfl
      · rw [hr']
      · rw [hr', if_neg hjo]
        exact (List.append_nil _).symm
      · rw [hr']
        exact (hidle j hj).live

/-- **Admission by prefill.** With room for its lifetime at the owner, the request runs or has ended. -/
theorem admitRequest_spec [PositionalHash H] {owner slot : ℕ} {slots : List ℕ} (hpos : 0 < bs)
    (hpad : padding.seqHash = default)
    (h : Ready stops bs padding report kinds noQueue ((req, .pending) ::ₘ rest) s) (howner : owner < s.dpWorld)
    (hslots : PrefillSlots s owner slot slots) (hbudget : requestLifetimeBlocks req bs ≤ s.rankKvBudget owner)
    (hmax : 1 ≤ req.maxTokens) (hp : req.promptTokens ≠ []) :
    ∃ kinds' s', s.admitRequest stops report owner slot slots req = .ok s' ∧
      Ready stops bs padding report kinds' noQueue rest s' ∧ SameFrame s s' := by
  have hidle := h.idle owner howner
  have hroom : requestLifetimeBlocks req bs + ((s.ranks owner).share + besides padding noQueue owner).2.1 ≤
      (s.ranks owner).pool.availableBlocks := by
    have := room_of_budget 0 (fun i st hst => (hidle.live i st hst).2) hidle.size
      (one_le_requestLifetimeBlocks req bs) hbudget
    rw [Prod.snd_add, Prod.fst_add, besides_owed]
    exact this
  have hadm := h.shared.admitted howner hroom
  rw [← hidle.size] at hadm
  unfold admitRequest
  rcases scheduleRequestKv_spec hadm (by rw [hidle.size]; exact hpos) hp with
    ⟨kv, pool', heq, hl, hs, hpre⟩ | ⟨pool', out', heq, hl, hs, hf⟩
  · rw [hidle.size] at hpre
    set s₁ := s.setRank owner { s.ranks owner with pool := pool' } (sendScheduled req s.out) with hs₁
    have hranks₁ : ∀ j < s.dpWorld, Idle bs padding.blockId report kinds j (s₁.ranks j) ∧
        (s₁.ranks j).slots = (s.ranks j).slots := by
      intro j hj
      by_cases hjo : j = owner
      · subst hjo
        simp only [hs₁, setRank, Function.update_self]
        exact ⟨(h.idle j hj).withPool hs, trivial⟩
      · simp only [hs₁, setRank, Function.update_of_ne hjo]
        exact ⟨h.idle j hj, trivial⟩
    have hsh₁ : Shared stops s₁.submitted s₁.dpWorld s₁.ranks s₁.out (Function.update (besides padding noQueue) owner
        (kvShare req .admitted kv + besides padding noQueue owner)) rest := by
      refine h.shared.put howner (fun j hj => Function.update_of_ne hj _ _) le_rfl ?_
      rw [Function.update_self, add_assoc, add_left_comm]
      exact hl
    have hslots₁ : PrefillSlots s₁ owner slot slots := by
      refine ⟨hslots.length, hslots.owner, fun r i hi => ?_⟩
      have hr : r < s.dpWorld := by
        rw [← hslots.length]
        exact (List.getElem?_eq_some_iff.1 hi).1
      rw [(hranks₁ r hr).2]
      exact hslots.free r i hi
    obtain ⟨k, token, s₂, s₃, rk, out, h1, h2, h3, hready, hf⟩ := prefillStep_spec (s := s₁)
      kv.prefillPosition (stepPageIndices kv (req.promptTokens.length - kv.prefillPosition)) hpad howner hsh₁ (fun j hj => (hranks₁ j hj).1) hslots₁ hpre hmax
    refine ⟨_, s₃.setRank owner rk out, ?_, hready, ⟨hf.dpWorld, hf.pendingReqs, hf.submitted⟩⟩
    simp only [heq, ← hs₁, h1, h2, h3]
  · simp only [heq]
    have hrev : s.out.revivals ≤ out'.revivals := hf.revivals
    exact ⟨kinds, _, rfl, h.put howner hs hrev (fun _ _ => rfl) (Queued.nil bs _) hl, ⟨rfl, rfl, rfl⟩⟩

end Prefill

/-! ## Rounds -/

section Rounds

variable [Inhabited H] {bs : ℕ} {padding : ImmutableBlock H} {report : ReportOracle} {kinds : List StepKind}
  {s : DpCoordinator H} {req : GenerateRequest} {ahead : List GenerateRequest} {rd : Round H}

theorem mapM_some {α β : Type} {f : α → Option β} : ∀ {xs : List α} {ys : List β}, xs.mapM f = some ys →
    ys.length = xs.length ∧ ∀ (i : ℕ) (x : α) (y : β), xs[i]? = some x → ys[i]? = some y → f x = some y := by
  intro xs
  induction xs with
  | nil =>
    intro ys h
    cases h
    exact ⟨rfl, by simp⟩
  | cons a xs ih =>
    intro ys h
    rw [List.mapM_cons] at h
    cases ha : f a with
    | none =>
      rw [ha] at h
      cases h
    | some b =>
      cases hrec : xs.mapM f with
      | none =>
        rw [ha, hrec] at h
        cases h
      | some bs =>
        rw [ha, hrec] at h
        cases h
        obtain ⟨hlen, hget⟩ := ih hrec
        refine ⟨by simp [hlen], ?_⟩
        intro i x y hx hy
        cases i with
        | zero =>
          simp only [List.getElem?_cons_zero, Option.some.injEq] at hx hy
          rw [← hx, ← hy]
          exact ha
        | succ i =>
          rw [List.getElem?_cons_succ] at hx hy
          exact hget i x y hx hy

theorem findFreeSlot_some {rk : DpRank H} {i : ℕ} (h : rk.findFreeSlot = some i) :
    i < maxBatchPerDp ∧ rk.slots i = none := by
  have hmem := List.mem_of_find?_eq_some h
  have hp := List.find?_some h
  exact ⟨List.mem_range.1 hmem, by simpa using hp⟩

theorem prefillSlotsFor_spec {owner slot : ℕ} {slots : List ℕ} (howner : owner < s.dpWorld)
    (hfree : (s.ranks owner).findFreeSlot = some slot) (h : s.prefillSlotsFor owner slot = some slots) :
    PrefillSlots s owner slot slots := by
  obtain ⟨hlen, hget⟩ := mapM_some h
  rw [List.length_range] at hlen
  have hat : ∀ r i, slots[r]? = some i → (if r = owner then some slot else (s.ranks r).findFreeSlot) = some i := by
    intro r i hi
    have hr : r < s.dpWorld := by
      rw [← hlen]
      exact (List.getElem?_eq_some_iff.1 hi).1
    exact hget r r i (by rw [List.getElem?_range hr]) hi
  refine ⟨hlen, ?_, ?_⟩
  · obtain ⟨i, hi⟩ : ∃ i, slots[owner]? = some i := ⟨_, List.getElem?_eq_getElem (hlen.symm ▸ howner)⟩
    have := hat owner i hi
    rw [if_pos rfl] at this
    rw [hi, this]
  · intro r i hi
    have hri := hat r i hi
    split_ifs at hri with hr
    · subst hr
      exact findFreeSlot_some (hfree.trans hri)
    · exact findFreeSlot_some hri

/-- a round starts, or goes on, with nothing queued -/
theorem RoundInv.start (stillPending : List GenerateRequest)
    (h : Ready stops bs padding report kinds noQueue (pendingBag (stillPending ++ ahead)) s) :
    RoundInv stops bs padding report ahead s ⟨stillPending, fun _ => [], s.freeSlotLists, fun _ => 0⟩ := by
  refine ⟨⟨kinds, h⟩, ?_, fun r _ => le_rfl⟩
  intro r _
  refine ⟨List.nodup_range.filter _, ?_⟩
  intro i hi
  simp only [freeSlotLists, freeSlots, List.mem_filter, List.mem_range, Option.isNone_iff_eq_none] at hi
  exact ⟨hi.1, hi.2, by simp⟩

theorem pickRank_lt (h : s.pickRank = some r) : r < s.dpWorld := by
  have := maxByKey_mem h
  simp only [List.mem_filter, List.mem_range] at this
  exact this.1

/-- **Prefilling.** The queue is flushed first; then the request is prefilled at a rank with room for it, or waits. -/
theorem prefillNow_spec [PositionalHash H] (hpos : 0 < bs) (hpad : padding.seqHash = default)
    (h : RoundInv stops bs padding report (req :: ahead) s rd) (hmax : 1 ≤ req.maxTokens) (hp : req.promptTokens ≠ []) :
    ∃ s' rd', s.prefillNow stops report req (requestLifetimeBlocks req bs) rd = .ok (s', rd') ∧
      RoundInv stops bs padding report ahead s' rd' ∧ SameFrame s s' := by
  obtain ⟨kinds, hready⟩ := h.ready
  obtain ⟨kinds₁, s₁, hflush, hready₁, hf₁⟩ := flushDecodeAdmissions_spec hpad hready
  have hwait := (RoundInv.start rd.stillPending hready₁).wait
  unfold prefillNow
  simp only [hflush]
  cases hpick : s₁.pickRank with
  | none => exact ⟨_, _, rfl, hwait, hf₁⟩
  | some r =>
    have hr := pickRank_lt hpick
    simp only
    split_ifs with hbudget
    · exact ⟨_, _, rfl, hwait, hf₁⟩
    · cases hslot : (s₁.ranks r).findFreeSlot with
      | none => exact ⟨_, _, rfl, hwait, hf₁⟩
      | some slot =>
        cases hslots : s₁.prefillSlotsFor r slot with
        | none => exact ⟨_, _, by simp only [hslots], hwait, hf₁⟩
        | some slots =>
          rw [pendingBag_append_cons] at hready₁
          obtain ⟨kinds₂, s₂, hadm, hready₂, hf₂⟩ := admitRequest_spec hpos hpad hready₁ hr
            (prefillSlotsFor_spec hr hslot hslots) (not_lt.1 hbudget) hmax hp
          simp only [hslots, hadm]
          exact ⟨_, _, rfl, RoundInv.start rd.stillPending hready₂, hf₁.trans hf₂⟩

/-- a request that leaves the loop with its whole stream -/
theorem RoundInv.leave (h : RoundInv stops bs padding report (req :: ahead) s rd)
    (hevents : ∀ bag, Book stops s.out s.submitted ((req, .pending) ::ₘ bag) → Book stops out s.submitted bag)
    (hrev : out.revivals = s.out.revivals) (hclean : Clean s.out → Clean out) :
    RoundInv stops bs padding report ahead { s with out := out } rd := by
  obtain ⟨kinds, hready⟩ := h.ready
  rw [pendingBag_append_cons] at hready
  refine ⟨⟨kinds, ⟨?_, hready.idle, hready.queued⟩⟩, h.slots, h.reserved⟩
  exact hready.shared.events hrev (hevents _ hready.shared.book_cons) hclean

/-- **One request of the round.** -/
theorem admitPending_spec [PositionalHash H] (hpos : 0 < bs) (hpad : padding.seqHash = default) (hworld : 0 < s.dpWorld)
    (h : RoundInv stops bs padding report (req :: ahead) s rd) :
    ∃ s' rd', admitPending stops report (s, rd) req = .ok (s', rd') ∧ RoundInv stops bs padding report ahead s' rd' ∧
      SameFrame s s' := by
  obtain ⟨kinds, hready⟩ := h.ready
  have hsize := (hready.idle 0 hworld).size
  have hcons := hready
  rw [pendingBag_append_cons] at hcons
  unfold admitPending
  rcases preflight_spec hcons.shared.book_cons with ⟨hpf, hmax, hp⟩ | ⟨out', hpf, hrev, -, -, hclean⟩
  · simp only [hpf, hworld.ne', if_false, hsize]
    cases hvalid : validateKvCapacity req bs (s.ranks 0).pool.maxRequestBlocks (some deepepMaxDispatchTokens) with
    | some message =>
      simp only
      refine ⟨_, rd, rfl, h.leave (fun bag hb => (terminate_spec hb rfl rfl).1) rfl ?_, ⟨rfl, rfl, rfl⟩⟩
      exact (terminate_spec (e := .rejected message req.promptTokens.length 0) hcons.shared.book_cons rfl rfl).2.2
    | none =>
      simp only
      split_ifs with hone
      · exact queueAdmission_spec hpos h hone hmax
      · exact prefillNow_spec hpos hpad h hmax hp
  · simp only [hpf]
    refine ⟨_, rd, rfl, h.leave (fun bag hb => ?_) hrev hclean, ⟨rfl, rfl, rfl⟩⟩
    rcases preflight_spec hb with ⟨hpf', -, -⟩ | ⟨out'', hpf', -, hb', -, -⟩
    · rw [hpf] at hpf'
      cases hpf'
    · rw [hpf] at hpf'
      cases hpf'
      exact hb'

/-- **A round.** Every pending request is admitted, has ended or still waits. -/
theorem admitPendingRequests_spec [PositionalHash H] (hpos : 0 < bs) (hpad : padding.seqHash = default)
    (hworld : 0 < s.dpWorld)
    (h : Ready stops bs padding report kinds noQueue (pendingBag s.pendingReqs) s) :
    ∃ kinds' s', s.admitPendingRequests stops report = .ok s' ∧
      Ready stops bs padding report kinds' noQueue (pendingBag s'.pendingReqs) s' ∧ s'.dpWorld = s.dpWorld ∧
      s'.submitted = s.submitted := by
  have hstart := RoundInv.start (s := { s with pendingReqs := [] }) []
    ⟨h.shared, h.idle, h.queued⟩
  obtain ⟨⟨s₁, rd⟩, hrun, hinv, hdp, hsub⟩ := run_remaining (admitPending stops report)
    (I := fun ahead (x : DpCoordinator H × Round H) => RoundInv stops bs padding report ahead x.1 x.2 ∧
      x.1.dpWorld = s.dpWorld ∧ x.1.submitted = s.submitted)
    (by
      rintro req ahead ⟨s₁, rd⟩ ⟨hinv, hdp, hsub⟩
      obtain ⟨s₂, rd₂, heq, hinv₂, hf⟩ := admitPending_spec hpos hpad (by rw [hdp]; exact hworld) hinv
      exact ⟨(s₂, rd₂), heq, hinv₂, hf.dpWorld.trans hdp, hf.submitted.trans hsub⟩)
    s.pendingReqs ({ s with pendingReqs := [] }, ⟨[], fun _ => [], s.freeSlotLists, fun _ => 0⟩) ⟨hstart, rfl, rfl⟩
  obtain ⟨kinds₁, hready⟩ := hinv.ready
  rw [List.append_nil] at hready
  obtain ⟨kinds₂, s₂, hflush, hready₂, hf⟩ := flushDecodeAdmissions_spec hpad hready
  refine ⟨kinds₂, { s₂ with pendingReqs := rd.stillPending }, ?_, ⟨hready₂.shared, hready₂.idle, hready₂.queued⟩,
    hf.dpWorld.trans hdp, hf.submitted.trans hsub⟩
  unfold admitPendingRequests
  simp only [hrun, hflush]

/-! ## Runs -/

/-- what holds between two turns of the coordinator's loop -/
structure Inv (stops : List Token) (bs : ℕ) (padding : ImmutableBlock H) (report : ReportOracle) (n : ℕ)
    (s : DpCoordinator H) : Prop where
  world : s.dpWorld = n
  ready : ∃ kinds, Ready stops bs padding report kinds noQueue (pendingBag s.pendingReqs) s

theorem step_inv [PositionalHash H] (hpos : 0 < bs) (hpad : padding.seqHash = default) (hn : 0 < n)
    (h : Inv stops bs padding report n s) (o : Op) :
    ∃ s', step stops report s o = .ok s' ∧ Inv stops bs padding report n s' := by
  obtain ⟨kinds, hready⟩ := h.ready
  cases o with
  | submit req =>
    refine ⟨_, rfl, h.world, kinds, ⟨?_, hready.idle, hready.queued⟩⟩
    have hsh := hready.shared
    refine ⟨hsh.account, hsh.room, ?_, hsh.clean⟩
    have hbook := hsh.book.submit { req with tokenTx := s.submitted.length } rfl
    rw [← Multiset.add_cons] at hbook
    simp only
    rw [pendingBag_append_cons, List.append_nil]
    exact hbook
  | turn =>
    obtain ⟨kinds₁, s₁, hadm, hready₁, hdp, hsub⟩ := admitPendingRequests_spec hpos hpad (by rw [h.world]; exact hn) hready
    unfold step
    simp only [hadm]
    split_ifs with hactive
    · obtain ⟨s₂, heq, hready₂, hf⟩ := synchronizedDecodeStep_spec hpad hready₁
      rw [← hf.pendingReqs] at hready₂
      exact ⟨s₂, heq, hf.dpWorld.trans (hdp.trans h.world), _, hready₂⟩
    · exact ⟨s₁, rfl, hdp.trans h.world, kinds₁, hready₁⟩

theorem new_inv {numBlocks : ℕ} {pool : BlockPool H} (limit : ℕ → Option ℕ) (n : ℕ)
    (h : BlockPool.new bs numBlocks = .ok (pool, padding)) :
    Inv stops bs padding report n (DpCoordinator.new (List.replicate n pool) limit) := by
  have hf := new_fresh h
  have hrank : ∀ r < n, (DpCoordinator.new (List.replicate n pool) limit).ranks r = ⟨fun _ => none, pool, [], 0, []⟩ := by
    intro r hr
    simp [DpCoordinator.new, hr]
  have hshare : ∀ r < n, ((DpCoordinator.new (List.replicate n pool) limit).ranks r).share = 0 := by
    intro r hr
    rw [hrank r hr]
    exact Finset.sum_eq_zero fun i _ => rfl
  have hX : ∀ r, besides padding noQueue r = guardShare (.ofImmutable [padding]) := fun r => zero_add _
  have hdp : (DpCoordinator.new (List.replicate n pool) limit).dpWorld = n := List.length_replicate
  refine ⟨hdp, [], ⟨?_, ?_, fun r _ => Queued.nil bs _⟩⟩
  · rw [hdp]
    refine ⟨?_, ?_, ?_, fun _ i e he => by simp [DpCoordinator.new, Outbox.new] at he⟩
    · intro r hr
      rw [hshare r hr, hX, zero_add, hrank r hr]
      exact hf.account
    · intro _ r hr
      rw [hshare r hr, hX, zero_add]
      exact Nat.zero_le _
    · have hbag : rankBag n (DpCoordinator.new (List.replicate n pool) limit).ranks (besides padding noQueue) = 0 := by
        refine Finset.sum_eq_zero fun r hr => ?_
        rw [hshare r (Finset.mem_range.1 hr), hX]
        rfl
      rw [hbag, zero_add]
      exact Book.nil ⟨limit, fun _ => [], fun _ => [], 0⟩
  · rw [hdp]
    intro r hr
    rw [hrank r hr]
    have hempty : ∀ (i : ℕ) (st : RequestState H), (none : Option (RequestState H)) = some st → i < maxBatchPerDp ∧ Live bs st :=
      fun _ st hst => absurd hst.symm (Option.some_ne_none st)
    exact ⟨hf.size, hf.paddingId.symm, hempty, ⟨rfl, by simp, by simp⟩, rfl, rfl⟩

/-- **Runs.** Every run is carried out and ends with the ledgers kept and every rank idle. -/
theorem dp_ledger [PositionalHash H] (stops : List Token) (report : ReportOracle) {numBlocks : ℕ} {pool : BlockPool H}
    (limit : ℕ → Option ℕ) (hn : 0 < n)
    (h : BlockPool.new bs numBlocks = .ok (pool, padding)) (ops : List Op) :
    ∃ s, run (step stops report) (DpCoordinator.new (List.replicate n pool) limit) ops = .ok s ∧
      Inv stops bs padding report n s :=
  run_total (P := fun _ _ => True) (fun _ o hs _ => step_inv (new_fresh h).positive (new_fresh h).paddingHash hn hs o) ops _
    (new_inv limit n h) (stepsMeet_true _ ops)

end Rounds

/-! ## Lock-step over a run -/

/-- a rank's side of a run: the kinds of its steps, one result for each command, each report at the request of its row,
and commands that name free slots for what is not running and no page of a request for padding -/
structure InStep (report : ReportOracle) (kinds : List StepKind) (r : ℕ) (rk : DpRank H) : Prop where
  kinds : rk.sent.map (fun c => c.command.kind) = kinds
  received : rk.received = rk.sent.length
  applied : rk.applied = dueReports report r 0 rk.sent
  named : ∀ c ∈ rk.sent, CommandOk rk.pool.paddingBlockId c.occupied c.command
  padding : ∀ c ∈ rk.sent, rk.pool.paddingBlockId ∉ c.heldPages

/-- **Lock-step.** In every run every rank is sent the same kinds of steps and answers each command once, and each report
is applied to the request whose row it is. -/
theorem dp_lock_step [PositionalHash H] [Inhabited H] {bs numBlocks : ℕ} {pool : BlockPool H}
    {padding : ImmutableBlock H} (h : BlockPool.new bs numBlocks = .ok (pool, padding)) (hdist : PaddingDistinct H)
    (hn : 0 < n) (stops : List Token) (report : ReportOracle) (limit : ℕ → Option ℕ) (ops : List Op) :
    ∃ s, run (step stops report) (DpCoordinator.new (List.replicate n pool) limit) ops = .ok s ∧
      ∃ kinds, ∀ r < n, InStep report kinds r (s.ranks r) := by
  obtain ⟨s, hrun, hinv⟩ := dp_ledger stops report limit hn h ops
  obtain ⟨kinds, hready⟩ := hinv.ready
  refine ⟨s, hrun, kinds, ?_⟩
  intro r hr
  have hidle := hready.idle r (by rw [hinv.world]; exact hr)
  refine ⟨hidle.sent.kinds, hidle.received, hidle.applied, ?_, ?_⟩
  · rw [hidle.page]
    exact hidle.sent.named
  · rw [hidle.page]
    exact hidle.sent.padding hdist

theorem paddingDistinct_list : PaddingDistinct (List ℕ) := nofun

/-- two ranks: a one-token prompt admitted through a decode step, then a longer prompt prefilled beside it -/
theorem dp_lock_step_two_ranks : ∃ (pool : BlockPool (List ℕ)) (padding : ImmutableBlock (List ℕ)),
    BlockPool.new 2 4 = .ok (pool, padding) ∧
      ∃ s, run (step [] fun _ k _ => k) (DpCoordinator.new (List.replicate 2 pool) fun _ => none)
        [.submit ⟨0, [1], ⟨.finite 0, -1, .finite 1, false⟩, 3, none, none⟩,
          .submit ⟨0, [1, 2], ⟨.finite 0, -1, .finite 1, false⟩, 2, none, none⟩, .turn] = .ok s ∧
      ∃ kinds, ∀ r < 2, InStep (fun _ k _ => k) kinds r (s.ranks r) := by
  obtain ⟨pool, padding, h⟩ : ∃ (pool : BlockPool (List ℕ)) (padding : ImmutableBlock (List ℕ)),
      BlockPool.new 2 4 = .ok (pool, padding) := ⟨_, _, rfl⟩
  exact ⟨pool, padding, h, dp_lock_step h paddingDistinct_list (by decide) _ _ _ _⟩

end Pegainfer.KimiK2.DpCoordinator
