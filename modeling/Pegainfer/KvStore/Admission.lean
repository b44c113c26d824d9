/-
Draws of admitted requests, and what the gate does not guard.

`try_admit` promises a request its lifetime: what is available, with the blocks the caller credits for a prefix it holds,
covers all that is owed. `Admissions` is the pool with the credits that are not matched yet, `slack` what is left over.
A draw of an admitted request moves availability and the counter together. Other operations take available blocks
without looking at the counter: a probe or a prefix match that pins inactive blocks, a registration that revives the
inactive primary of its hash, the draw of a request that was never admitted.
- `Room`: such an operation fits in the slack; credits are matched before they are drawn over.
- `step_covered`: an operation with room keeps the promises covered.
- `admitted_draw_succeeds`: in every run whose operations have room, no draw of an admitted request lacks blocks.
- `probe_starves_draw`: a probe without room makes one fail.
-/
import Mathlib.Tactic
import Pegainfer.Kvbm.Draws
import Pegainfer.KvStore.Entitlement

set_option linter.unusedSectionVars false

namespace Pegainfer.KvStore

open Pegainfer.Kvbm Pegainfer.Lib

variable {H : Type} [DecidableEq H] [BlockHash H]

/-- the pool, and by request the blocks credited at its admission and not matched yet -/
structure Admissions (H : Type) where
  world : World H
  credits : List ℕ

namespace Admissions

def credit (s : Admissions H) (i : ℕ) : ℕ := s.credits.getD i 0

/-- the credits after an operation of request `i` -/
def creditAfter (e : EntitledSeq H) (c : SchedulableSequence.Call) (credit : ℕ) : ℕ :=
  match c with
  | .matchAndAddPrefix => if e.seq.state = .idle then 0 else credit
  | .release => 0
  | _ => credit

def creditsAfter (s : Admissions H) : Op → List ℕ
  | .newRequest _ _ _ => s.credits ++ [0]
  | .tryAdmit i n =>
    match s.world.request? i with
    | none => s.credits
    | some e => if e.admitted = false ∧ (e.tryAdmit n s.world.pool).1 then s.credits.set i n else s.credits
  | .call i c =>
    match s.world.request? i with
    | none => s.credits
    | some e => s.credits.set i (creditAfter e c (s.credit i))
  | .dropRequest i => if (s.world.request? i).isSome then s.credits.set i 0 else s.credits
  | _ => s.credits

/-- the world's step, with the credits beside it -/
def step (s : Admissions H) (o : Op) : Except String (Admissions H) :=
  match s.world.step o with
  | .error e => .error e
  | .ok w => .ok ⟨w, s.creditsAfter o⟩

/-- what is available beyond all that is owed -/
def slack (s : Admissions H) : ℤ :=
  s.world.pool.store.available + (s.credits.map fun c : ℕ => (c : ℤ)).sum - s.world.pool.entitled

/-! ## Room -/

/-- the blocks a call takes from availability that the counter does not hear of -/
def outside (e : EntitledSeq H) (c : SchedulableSequence.Call) (σ : BlockStore H) : ℕ :=
  σ.revived (e.seq.registers c) + if e.admitted then 0 else e.seq.draws c

/-- a call of request `i` has room -/
def CallRoom (s : Admissions H) (i : ℕ) (e : EntitledSeq H) (c : SchedulableSequence.Call) : Prop :=
  match c with
  | .matchAndAddPrefix =>
    e.seq.prefillPosition = 0 ∧
      (e.seq.state = .idle →
        (s.world.pool.store.pinned e.seq.allSequenceHashes : ℤ) +
          (if e.admitted then s.credit i - (e.seq.prefixHit s.world.pool.store : ℤ) else 0) ≤ s.slack)
  | c =>
    (e.admitted → (e.seq.draws c + s.credit i : ℤ) ≤ e.remaining) ∧
      (e.seq.draws c ≤ s.world.pool.store.available → (outside e c s.world.pool.store : ℤ) ≤ s.slack)

/-- the operation takes no more than the slack, and credits what the request can still hold -/
def Room (s : Admissions H) : Op → Prop
  | .tryAdmit i n => ∀ e ∈ s.world.request? i, (n : ℤ) ≤ e.remaining
  | .call i c => ∀ e ∈ s.world.request? i, s.CallRoom i e c
  | .probe tokens salt =>
    (s.world.pool.store.pinned
      (SchedulableSequence.new tokens 0 s.world.pool.blockSize salt).allSequenceHashes : ℤ) ≤ s.slack
  | .commit i j => ∀ pr ∈ s.world.probe? i, ∀ ids ∈ s.world.reservation? j,
    (s.world.pool.store.revived ((pr.seqHashes.drop pr.gpuHit).take ids.length) : ℤ) ≤ s.slack
  | _ => True

instance (s : Admissions H) (i : ℕ) (e : EntitledSeq H) (c : SchedulableSequence.Call) :
    Decidable (s.CallRoom i e c) := by
  cases c <;> unfold CallRoom <;> infer_instance

instance (s : Admissions H) (o : Op) : Decidable (s.Room o) :=
  match o with
  | .tryAdmit i n => inferInstanceAs (Decidable (∀ e ∈ s.world.request? i, (n : ℤ) ≤ e.remaining))
  | .call i c => inferInstanceAs (Decidable (∀ e ∈ s.world.request? i, s.CallRoom i e c))
  | .probe tokens salt =>
    inferInstanceAs (Decidable ((s.world.pool.store.pinned
      (SchedulableSequence.new tokens 0 s.world.pool.blockSize salt).allSequenceHashes : ℤ) ≤ s.slack))
  | .commit i j =>
    inferInstanceAs (Decidable (∀ pr ∈ s.world.probe? i, ∀ ids ∈ s.world.reservation? j,
      (s.world.pool.store.revived ((pr.seqHashes.drop pr.gpuHit).take ids.length) : ℤ) ≤ s.slack))
  | .newRequest _ _ _ | .dropRequest _ | .includeFinalBlock _ | .truncateHeld _ _ | .dropProbe _ | .reserve _
  | .dropReservation _ | .guardAssigned _ | .dropGuards _ | .finishDrop _ => inferInstanceAs (Decidable True)

theorem step_ok {s s' : Admissions H} {o : Op} (h : s.step o = .ok s') :
    s.world.step o = .ok s'.world ∧ s'.credits = s.creditsAfter o := by
  unfold step at h
  split at h
  · cases h
  · rename_i w hw
    obtain rfl := Except.ok.inj h
    exact ⟨hw, rfl⟩

theorem Room.matchesFresh {s : Admissions H} {o : Op} (h : s.Room o) : s.world.MatchesFresh o := by
  cases o with
  | call i c =>
    rintro rfl e he
    exact (h e he).1
  | _ => trivial

/-! ## Covered promises -/

/-- each credit is still owed to its request, and what is owed is available or credited -/
structure Covered [Inhabited H] (s : Admissions H) (numBlocks : ℕ) : Prop where
  entitled : s.world.Entitled numBlocks
  credit_le : List.Forall₂ (fun (c : ℕ) o => (c : ℤ) ≤ owed o) s.credits s.world.requests
  slack_nonneg : 0 ≤ s.slack

theorem forall₂_concat {α β : Type} {R : α → β → Prop} {l : List α} {l' : List β} {a : α} {b : β}
    (h : List.Forall₂ R l l') (hab : R a b) : List.Forall₂ R (l ++ [a]) (l' ++ [b]) :=
  List.rel_append h (.cons hab .nil)

theorem forall₂_set {α β : Type} {R : α → β → Prop} {l : List α} {l' : List β} {a : α} {b : β} (i : ℕ)
    (h : List.Forall₂ R l l') (hab : R a b) : List.Forall₂ R (l.set i a) (l'.set i b) := by
  induction h generalizing i with
  | nil => exact .nil
  | cons hx h ih =>
    cases i with
    | zero => exact .cons hab h
    | succ i => exact .cons hx (ih i)

/-- one request's share of what is owed beyond its credit -/
theorem owed_sub_le {l : List ℕ} {l' : List (Option (EntitledSeq H))}
    (h : List.Forall₂ (fun (c : ℕ) o => (c : ℤ) ≤ owed o) l l') {i : ℕ} {o : Option (EntitledSeq H)}
    (ho : l'[i]? = some o) :
    ((l.getD i 0 : ℕ) : ℤ) ≤ owed o ∧
      owed o - ((l.getD i 0 : ℕ) : ℤ) ≤ (l'.map owed).sum - (l.map fun c : ℕ => (c : ℤ)).sum := by
  induction h generalizing i with
  | nil => simp at ho
  | @cons c o' l l' hx h ih =>
    have hrest : (l.map fun c : ℕ => (c : ℤ)).sum ≤ (l'.map owed).sum := by
      clear ih ho
      induction h with
      | nil => simp
      | cons hy _ ih =>
        simp only [List.map_cons, List.sum_cons]
        omega
    cases i with
    | zero =>
      obtain rfl : o' = o := by simpa using ho
      refine ⟨by simpa using hx, ?_⟩
      simp only [List.getD_cons_zero, List.map_cons, List.sum_cons]
      omega
    | succ i =>
      obtain ⟨h1, h2⟩ := ih (i := i) (by simpa using ho)
      refine ⟨by simpa using h1, ?_⟩
      simp only [List.getD_cons_succ, List.map_cons, List.sum_cons]
      omega

theorem Covered.credits_slot [Inhabited H] {s : Admissions H} {n i : ℕ} (h : s.Covered n) {e : EntitledSeq H}
    (he : s.world.request? i = some e) : s.credits[i]? = some (s.credit i) := by
  have hlen := h.credit_le.length_eq
  have hlt := (List.getElem?_eq_some_iff.1 (World.request_slot he)).1
  have hi : i < s.credits.length := by omega
  simp [credit, List.getD_eq_getElem?_getD, hi]

/-- **The promise.** An admitted request's remainder, less a credit it did not match yet, is available. -/
theorem Covered.available [Inhabited H] {s : Admissions H} {n i : ℕ} (h : s.Covered n) {e : EntitledSeq H}
    (he : s.world.request? i = some e) (ha : e.admitted = true) :
    e.remaining - s.credit i ≤ s.world.pool.store.available := by
  obtain ⟨-, hsub⟩ := owed_sub_le h.credit_le (World.request_slot he)
  have hslack := h.slack_nonneg
  have hset := h.entitled.settled
  unfold World.Settled at hset
  unfold slack at hslack
  simp only [owed, ha, if_true] at hsub
  unfold credit
  omega

/-! ## Availability, operation by operation -/

theorem available_dropImmutables (xs : List (ImmutableBlock H)) (σ : BlockStore H) :
    (σ.dropImmutables xs).available = σ.available := by
  induction xs generalizing σ with
  | nil => rfl
  | cons x xs ih => exact (ih (σ.dropImmutable x.ptr)).trans rfl

theorem available_dropMutables (bs : List BlockId) (σ : BlockStore H) :
    (σ.dropMutables bs).available = σ.available + bs.length := by
  induction bs generalizing σ with
  | nil => rfl
  | cons b bs ih =>
    have heq : σ.dropMutables (b :: bs) = (σ.resetSlot b).dropMutables bs := rfl
    rw [heq, ih, available_resetSlot, List.length_cons]
    omega

theorem available_cloneAll (xs : List (ImmutableBlock H)) (σ : BlockStore H) :
    (xs.foldl (fun σ x => σ.clone x.ptr) σ).available = σ.available := by
  induction xs generalizing σ with
  | nil => rfl
  | cons x xs ih => exact (ih (σ.clone x.ptr)).trans rfl

/-- operations that leave the requests and the counter alone and return blocks, if anything -/
theorem step_available {w w' : World H} {o : Op} (h : w.Accounted) (hs : w.step o = .ok w')
    (ho : (∃ i, o = .includeFinalBlock i) ∨ (∃ i n, o = .truncateHeld i n) ∨ (∃ i, o = .dropProbe i) ∨
      (∃ i, o = .dropReservation i) ∨ (∃ i, o = .guardAssigned i) ∨ (∃ i, o = .dropGuards i) ∨
      ∃ ptr, o = .finishDrop ptr) :
    w'.requests = w.requests ∧ w'.pool.entitled = w.pool.entitled ∧
      w.pool.store.available ≤ w'.pool.store.available := by
  rcases ho with ⟨i, rfl⟩ | ⟨i, n, rfl⟩ | ⟨i, rfl⟩ | ⟨i, rfl⟩ | ⟨i, rfl⟩ | ⟨i, rfl⟩ | ⟨ptr, rfl⟩ <;>
    simp only [World.step] at hs <;> split at hs <;> obtain rfl := Except.ok.inj hs
  all_goals refine ⟨rfl, rfl, ?_⟩
  all_goals try exact le_rfl
  · exact (available_dropImmutables _ _).ge
  · exact (available_dropImmutables _ _).ge
  · rw [available_dropMutables]
    exact Nat.le_add_right _ _
  · exact (available_cloneAll _ _).ge
  · exact (available_dropImmutables _ _).ge
  · rename_i x hx
    have hzero : w.pool.store.strong x.ptr = 0 := by
      have := List.find?_some hx
      simp only [Bool.decide_and, Bool.and_eq_true, decide_eq_true_eq] at this
      exact this.2
    exact (dropInner_spec h (List.mem_of_find?_eq_some hx) hzero).2

/-! ## Every operation with room keeps the promises covered -/

/-- one request and its credit change -/
theorem Covered.set [Inhabited H] {s s' : Admissions H} {n i c : ℕ} (h : s.Covered n) {e : EntitledSeq H}
    (he : s.world.request? i = some e) {o : Option (EntitledSeq H)} (hent : s'.world.Entitled n)
    (hreq : s'.world.requests = s.world.requests.set i o) (hcr : s'.credits = s.credits.set i c)
    (hle : (c : ℤ) ≤ owed o)
    (hp : s'.world.pool.entitled = s.world.pool.entitled + (owed o - owed (some e)))
    (hs : (owed o - owed (some e)) + s.credit i + s.world.pool.store.available ≤
      s.slack + c + s'.world.pool.store.available) : s'.Covered n := by
  refine ⟨hent, ?_, ?_⟩
  · rw [hcr, hreq]
    exact forall₂_set i h.credit_le hle
  · obtain ⟨rest, hsum, hset⟩ := sum_map_set (fun c : ℕ => (c : ℤ)) (h.credits_slot he)
    unfold slack at hs ⊢
    rw [hcr, hset, hp]
    rw [hsum] at hs
    omega

/-- nothing of the requests changes -/
theorem Covered.keep [Inhabited H] {s s' : Admissions H} {n : ℕ} (h : s.Covered n) (hent : s'.world.Entitled n)
    (hreq : s'.world.requests = s.world.requests) (hcr : s'.credits = s.credits)
    (hp : s'.world.pool.entitled = s.world.pool.entitled)
    (hs : (s.world.pool.store.available : ℤ) ≤ s.slack + s'.world.pool.store.available) : s'.Covered n := by
  refine ⟨hent, ?_, ?_⟩
  · rw [hcr, hreq]
    exact h.credit_le
  · unfold slack at hs ⊢
    rw [hcr, hp]
    omega

theorem credits_nonneg (s : Admissions H) : 0 ≤ (s.credits.map fun c : ℕ => (c : ℤ)).sum := by
  refine List.sum_nonneg ?_
  intro x hx
  obtain ⟨c, -, rfl⟩ := List.mem_map.1 hx
  exact Int.natCast_nonneg c

theorem Covered.tryAdmit [Inhabited H] {s s' : Admissions H} {n i m : ℕ} (h : s.Covered n)
    (hent : s'.world.Entitled n) (hroom : s.Room (.tryAdmit i m)) (hs : s.step (.tryAdmit i m) = .ok s') :
    s'.Covered n := by
  obtain ⟨hw, hcr⟩ := step_ok hs
  have hslack := h.slack_nonneg
  simp only [World.step] at hw
  simp only [creditsAfter] at hcr
  split at hw
  · rename_i hnone
    obtain hw := Except.ok.inj hw
    rw [hnone] at hcr
    simp only at hcr
    refine h.keep hent ?_ hcr ?_ ?_ <;> rw [← hw]
    omega
  · rename_i e he
    have hw := Except.ok.inj hw
    have hn := hroom e he
    have hent' := e.owed_tryAdmit m s.world.pool
    rw [he] at hcr
    simp only at hcr
    by_cases hnew : e.admitted = false ∧ (e.tryAdmit m s.world.pool).1 = true
    · rw [if_pos hnew] at hcr
      have hshort : ¬ (s.world.pool.store.available + m < s.world.pool.entitled.toNat + e.remaining.toNat) := by
        intro hlt
        simp [EntitledSeq.tryAdmit, hnew.1, hlt] at hnew
      have heq : e.tryAdmit m s.world.pool = (true, { e with admitted := true },
          { s.world.pool with entitled := s.world.pool.entitled + e.remaining }) := by
        simp [EntitledSeq.tryAdmit, hnew.1, hshort]
      rw [heq] at hw hent'
      simp only at hw
      have howed : owed (some { e with admitted := true }) = e.remaining := by
        simp [owed, EntitledSeq.remaining, EntitledSeq.resident]
      have hzero : owed (some e) = 0 := by simp [owed, hnew.1]
      refine h.set he hent (by rw [← hw]; rfl) hcr (by rw [howed]; exact hn) (by rw [← hw]; exact hent') ?_
      have hcredit := (owed_sub_le h.credit_le (World.request_slot he)).1
      have hsum := credits_nonneg s
      rw [← hw, howed, hzero]
      rw [hzero] at hcredit
      simp only [World.setRequest]
      unfold slack
      unfold credit
      omega
    · rw [if_neg hnew] at hcr
      have heq : (e.tryAdmit m s.world.pool).2 = (e, s.world.pool) := by
        unfold EntitledSeq.tryAdmit at hnew ⊢
        split_ifs at hnew ⊢ with ha hlt
        · rfl
        · rfl
        · exact absurd ⟨by simpa using ha, rfl⟩ hnew
      rw [heq] at hw
      refine h.keep hent ?_ hcr (by rw [← hw]; rfl) (by rw [← hw]; exact (by simpa [World.setRequest] using hslack))
      obtain ⟨hi, hget⟩ := List.getElem?_eq_some_iff.1 (World.request_slot he)
      rw [← hw, World.setRequest, ← hget]
      exact List.set_getElem_self hi

theorem owed_nonneg {o : Option (EntitledSeq H)} (h : ∀ e, o = some e → World.InLifetime e) : 0 ≤ owed o := by
  rcases o with _ | e
  · exact le_rfl
  · have := (h e rfl).remaining_nonneg
    simp only [owed]
    split_ifs
    · exact this
    · exact le_rfl

/-- a call of request `i`: what the account says about it -/
theorem Covered.call_spec [Inhabited H] {s : Admissions H} {n i : ℕ} (h : s.Covered n) {e e' : EntitledSeq H}
    {c : SchedulableSequence.Call} {p : BlockPool H} {r : SchedulableSequence.CallResult}
    (he : s.world.request? i = some e) (hreq : e.request c s.world.pool = .ok (r, e', p)) :
    ∃ F, Inv s.world.pool.store (e.seq.holdings + F) ∧
      SchedulableSequence.CallSpec e.seq e'.seq s.world.pool.store p.store F c r := by
  obtain ⟨F, hF, -⟩ := World.holdings_request he
  have hacc := h.entitled.reached.accounted
  unfold World.Accounted at hacc
  rw [hF] at hacc
  exact ⟨F, hacc, SchedulableSequence.call_spec hacc (World.request_ok hreq).1⟩

theorem Covered.matched [Inhabited H] {s s' : Admissions H} {n i : ℕ} (h : s.Covered n) {e e' : EntitledSeq H}
    {p : BlockPool H} {r : SchedulableSequence.CallResult} (he : s.world.request? i = some e)
    (hroom : s.CallRoom i e .matchAndAddPrefix) (hreq : e.request .matchAndAddPrefix s.world.pool = .ok (r, e', p))
    (hent : s'.world.Entitled n) (hw : s'.world = s.world.setRequest i (some e') p)
    (hcr : s'.credits = s.credits.set i (creditAfter e .matchAndAddPrefix (s.credit i))) : s'.Covered n := by
  obtain ⟨F, hinv, hspec⟩ := h.call_spec he hreq
  have howed := EntitledSeq.owed_request hreq
  obtain ⟨hcall, hadm, hlife, -, -, -⟩ := World.withDraw_ok (c := .matchAndAddPrefix) hreq
  have hslack := h.slack_nonneg
  have hcredit := (owed_sub_le h.credit_le (World.request_slot he)).1
  have hnonneg : 0 ≤ owed (some e') := by
    refine owed_nonneg ?_
    rintro _ ⟨⟩
    refine hent.inLifetime e' ?_
    rw [hw]
    exact List.mem_set (List.getElem?_eq_some_iff.1 (World.request_slot he)).1 _
  by_cases hr : r = .done
  · subst hr
    have hidle := (SchedulableSequence.match_refused hcall).1 rfl
    obtain ⟨hres, hres'⟩ := SchedulableSequence.match_resident hinv hcall
    have hav := hspec.settles rfl
    have hpin := hroom.2 hidle
    simp only [SchedulableSequence.Settles] at hav
    simp only [creditAfter, hidle, if_true] at hcr
    refine h.set he hent (by rw [hw]; rfl) hcr (by simpa using hnonneg) (by rw [hw]; exact howed) ?_
    have hpool : s'.world.pool.store = p.store := by rw [hw]; rfl
    rw [hpool]
    cases ha : e.admitted with
    | false =>
      simp only [owed, hadm, ha, Bool.false_eq_true, if_false] at hcredit hpin ⊢
      unfold credit
      omega
    | true =>
      simp only [owed, hadm, ha, if_true, EntitledSeq.remaining, EntitledSeq.resident, hlife, hres, hres'] at hpin ⊢
      omega
  · obtain ⟨hseq, hstore⟩ := hspec.refused hr
    have hbusy : e.seq.state ≠ .idle := fun hidle => hr ((SchedulableSequence.match_refused hcall).2 hidle)
    have hsame : owed (some e') = owed (some e) := by
      simp only [owed, hadm, EntitledSeq.remaining, EntitledSeq.resident, hlife, hseq]
    simp only [creditAfter, hbusy, if_false] at hcr
    refine h.set he hent (by rw [hw]; rfl) hcr (by rw [hsame]; exact hcredit) (by rw [hw]; exact howed) ?_
    have hpool : s'.world.pool.store = p.store := by rw [hw]; rfl
    rw [hpool, hstore, hsame]
    omega

theorem Covered.released [Inhabited H] {s s' : Admissions H} {n i : ℕ} (h : s.Covered n) {e e' : EntitledSeq H}
    {p : BlockPool H} {r : SchedulableSequence.CallResult} (he : s.world.request? i = some e)
    (hreq : e.request .release s.world.pool = .ok (r, e', p))
    (hent : s'.world.Entitled n) (hw : s'.world = s.world.setRequest i (some e') p)
    (hcr : s'.credits = s.credits.set i 0) : s'.Covered n := by
  obtain ⟨F, hinv, hspec⟩ := h.call_spec he hreq
  have howed := EntitledSeq.owed_request hreq
  have hslack := h.slack_nonneg
  have hcredit := (owed_sub_le h.credit_le (World.request_slot he)).1
  have hav : s.world.pool.store.available ≤ p.store.available := by
    by_cases hr : r = .done
    · have := hspec.settles hr
      simp only [SchedulableSequence.Settles] at this
      omega
    · rw [(hspec.refused hr).2]
  have hzero : owed (some e') = 0 := by
    simp only [EntitledSeq.request] at hreq
    obtain ⟨-, hadm, -⟩ := World.withDraw_ok hreq
    have hret : (e.retire s.world.pool).1.admitted = false := by
      unfold EntitledSeq.retire
      cases ha : e.admitted <;> simp [ha]
    simp [owed, hadm, hret]
  have hpool : s'.world.pool.store = p.store := by rw [hw]; rfl
  refine h.set he hent (by rw [hw]; rfl) hcr (by rw [hzero]; exact le_rfl) (by rw [hw]; exact howed) ?_
  rw [hpool, hzero]
  unfold credit
  push_cast
  omega

/-- a request's draw that is carried out found its blocks -/
theorem draws_le_available {q q' : SchedulableSequence H} {σ σ' : BlockStore H} {F : Holdings H}
    {c : SchedulableSequence.Call} (h : Inv σ (q.holdings + F)) (hc : q.call c σ = .ok (.done, q', σ')) :
    q.draws c ≤ σ.available := by
  cases hsch : c.isSchedule with
  | false =>
    rw [SchedulableSequence.draws_eq_zero hsch]
    exact Nat.zero_le _
  | true =>
    rcases SchedulableSequence.schedule_cases h hsch with ⟨_, -, heq⟩ | ⟨-, heq⟩ | ⟨hle, -⟩
    · rw [heq] at hc
      cases hc
    · rw [heq] at hc
      cases hc
    · exact hle

theorem Covered.called [Inhabited H] {s s' : Admissions H} {n i : ℕ} (h : s.Covered n) {e e' : EntitledSeq H}
    {c : SchedulableSequence.Call} {p : BlockPool H} {r : SchedulableSequence.CallResult}
    (hm : c ≠ .matchAndAddPrefix) (hrel : c ≠ .release) (he : s.world.request? i = some e) (hroom : s.CallRoom i e c)
    (hreq : e.request c s.world.pool = .ok (r, e', p)) (hent : s'.world.Entitled n)
    (hw : s'.world = s.world.setRequest i (some e') p)
    (hcr : s'.credits = s.credits.set i (creditAfter e c (s.credit i))) : s'.Covered n := by
  obtain ⟨F, hinv, hspec⟩ := h.call_spec he hreq
  have howed := EntitledSeq.owed_request hreq
  have hslack := h.slack_nonneg
  have hcredit := (owed_sub_le h.credit_le (World.request_slot he)).1
  have hdraw : e.withDraw c s.world.pool = .ok (r, e', p) := by
    cases c with
    | release => exact absurd rfl hrel
    | _ => simpa only [EntitledSeq.request] using hreq
  obtain ⟨hcall, hadm, hlife, -, -, -⟩ := World.withDraw_ok hdraw
  have hkeep : creditAfter e c (s.credit i) = s.credit i := by
    cases c with
    | matchAndAddPrefix => exact absurd rfl hm
    | release => exact absurd rfl hrel
    | _ => rfl
  have hroom : (e.admitted → (e.seq.draws c + s.credit i : ℤ) ≤ e.remaining) ∧
      (e.seq.draws c ≤ s.world.pool.store.available → (outside e c s.world.pool.store : ℤ) ≤ s.slack) := by
    cases c with
    | matchAndAddPrefix => exact absurd rfl hm
    | _ => exact hroom
  rw [hkeep] at hcr
  have hpool : s'.world.pool.store = p.store := by rw [hw]; rfl
  by_cases hr : r = .done
  · subst hr
    have hav : p.store.available + e'.seq.residentBlocks + s.world.pool.store.revived (e.seq.registers c) =
        s.world.pool.store.available + e.seq.residentBlocks := by
      have := hspec.settles rfl
      cases c with
      | matchAndAddPrefix => exact absurd rfl hm
      | release => exact absurd rfl hrel
      | _ => exact this
    have hbase := h.entitled.reached.named.requests e (World.mem_of_slot (World.request_slot he))
    have hres := SchedulableSequence.call_resident hcall hbase hm
    have hout := hroom.2 (draws_le_available hinv hcall)
    unfold outside at hout
    cases ha : e.admitted with
    | false =>
      have hzero : owed (some e) = 0 := by simp [owed, ha]
      have hzero' : owed (some e') = 0 := by simp [owed, hadm, ha]
      rw [hzero] at hcredit
      simp only [ha, Bool.false_eq_true, if_false] at hout
      refine h.set he hent (by rw [hw]; rfl) hcr (by rw [hzero']; exact hcredit) (by rw [hw]; exact howed) ?_
      rw [hpool, hzero, hzero']
      push_cast at hout
      omega
    | true =>
      have hlow := hroom.1 ha
      have hdiff : owed (some e') - owed (some e) = (e.seq.residentBlocks : ℤ) - e'.seq.residentBlocks := by
        simp only [owed, hadm, ha, if_true, EntitledSeq.remaining, EntitledSeq.resident, hlife]
        ring
      have hrem : owed (some e) = e.remaining := by simp [owed, ha]
      simp only [ha, if_true] at hout
      refine h.set he hent (by rw [hw]; rfl) hcr (by omega) (by rw [hw]; exact howed) ?_
      rw [hpool, hdiff]
      omega
  · obtain ⟨hseq, hstore⟩ := hspec.refused hr
    have hsame : owed (some e') = owed (some e) := by
      simp only [owed, hadm, EntitledSeq.remaining, EntitledSeq.resident, hlife, hseq]
    refine h.set he hent (by rw [hw]; rfl) hcr (by rw [hsame]; exact hcredit) (by rw [hw]; exact howed) ?_
    rw [hpool, hstore, hsame]
    omega

/-- **Promises stay covered.** An operation with room leaves what is owed available or credited. -/
theorem step_covered [Inhabited H] {s s' : Admissions H} {n : ℕ} {o : Op} (h : s.Covered n) (hroom : s.Room o)
    (hs : s.step o = .ok s') : s'.Covered n := by
  obtain ⟨hw, hcr⟩ := step_ok hs
  have hent := World.step_entitled h.entitled hroom.matchesFresh hw
  have hslack := h.slack_nonneg
  have hacc := h.entitled.reached.accounted
  cases o with
  | newRequest ts m salt =>
    simp only [World.step, Except.ok.injEq] at hw
    refine ⟨hent, ?_, ?_⟩
    · rw [hcr, ← hw]
      exact forall₂_concat h.credit_le (by simp [owed, BlockPool.newRequest])
    · unfold slack at hslack ⊢
      rw [hcr, ← hw, creditsAfter, sum_map_concat]
      simpa using hslack
  | tryAdmit i m => exact h.tryAdmit hent hroom hs
  | call i c =>
    simp only [World.step] at hw
    simp only [creditsAfter] at hcr
    split at hw
    · rename_i hnone
      obtain hw := Except.ok.inj hw
      rw [hnone] at hcr
      refine h.keep hent ?_ hcr ?_ ?_ <;> rw [← hw]
      omega
    · rename_i e he
      rw [he] at hcr
      split at hw
      · cases hw
      · rename_i r e' p hreq
        have hw := (Except.ok.inj hw).symm
        by_cases hm : c = .matchAndAddPrefix
        · subst hm
          exact h.matched he (hroom e he) hreq hent hw hcr
        · by_cases hrel : c = .release
          · subst hrel
            exact h.released he hreq hent hw hcr
          · exact h.called hm hrel he (hroom e he) hreq hent hw hcr
  | dropRequest i =>
    simp only [World.step] at hw
    simp only [creditsAfter] at hcr
    split at hw
    · rename_i hnone
      have hw := Except.ok.inj hw
      rw [hnone] at hcr
      refine h.keep hent (by rw [← hw]) hcr (by rw [← hw]) ?_
      rw [← hw]
      omega
    · rename_i e he
      have hw := Except.ok.inj hw
      rw [he] at hcr
      obtain ⟨F, hF, -⟩ := World.holdings_request he
      unfold World.Accounted at hacc
      rw [hF] at hacc
      obtain ⟨-, -, hav⟩ := SchedulableSequence.clear_spec hacc
      have hcredit := (owed_sub_le h.credit_le (World.request_slot he)).1
      have hret : (e.retire s.world.pool).2.store = s.world.pool.store := by
        unfold EntitledSeq.retire
        split_ifs <;> rfl
      refine h.set he hent (o := none) (by rw [← hw]; rfl) hcr le_rfl ?_ ?_
      · rw [← hw]
        simp only [World.setRequest, EntitledSeq.drop, (e.owed_retire s.world.pool).1, owed]
        ring
      · rw [← hw]
        simp only [World.setRequest, EntitledSeq.drop, hret, hav, owed]
        unfold credit
        simp only [owed] at hcredit
        push_cast
        omega
  | probe ts salt =>
    have hpin : (_ : ℤ) ≤ s.slack := hroom
    obtain ⟨hits, σ', heq, hm⟩ := matchBlocks_spec
      (SchedulableSequence.new ts 0 s.world.pool.blockSize salt).allSequenceHashes hacc
    simp only [World.step, BlockPool.probePrefix, heq, Except.ok.injEq] at hw
    have hav := hm.available
    refine h.keep hent (by rw [← hw]) hcr (by rw [← hw]) ?_
    rw [← hw]
    simp only
    omega
  | reserve m =>
    simp only [World.step] at hw
    split at hw
    · cases hw
    · have hw := Except.ok.inj hw
      refine h.keep hent (by rw [← hw]) hcr (by rw [← hw]) ?_
      rw [← hw]
      omega
    · rename_i ids p hres
      have hw := Except.ok.inj hw
      obtain ⟨hle, halloc, -, -, hkeep⟩ := World.reserveLoadedBlocks_ok hres
      obtain ⟨ids', σ', heq, -, -, hav, -⟩ := allocateBlocks_spec hacc (n := m) (by omega)
      rw [heq] at halloc
      simp only [Except.ok.injEq, Option.some.injEq, Prod.mk.injEq] at halloc
      have hsum := credits_nonneg s
      refine h.keep hent (by rw [← hw]) hcr (by rw [← hw]; exact hkeep) ?_
      rw [← hw]
      simp only
      rw [← halloc.2]
      unfold slack
      omega
  | commit i j =>
    simp only [World.step] at hw
    split at hw
    · rename_i pr ids hpr hr
      have hrev := hroom pr hpr ids hr
      split at hw
      · cases hw
      · rename_i pr' p hcommit
        have hw := Except.ok.inj hw
        unfold BlockPool.commitLoadedBlocks at hcommit
        split at hcommit
        · cases hcommit
        · rename_i xs σ' hxs
          simp only [Except.ok.injEq, Prod.mk.injEq] at hcommit
          obtain ⟨F, hF, -⟩ := World.holdings_reservation hr
          unfold World.Accounted at hacc
          rw [hF] at hacc
          obtain ⟨-, -, -, -, hav⟩ := World.commitBlocks_spec ids hacc hxs
          refine h.keep hent (by rw [← hw]) hcr (by rw [← hw, ← hcommit.2]) ?_
          rw [← hw, ← hcommit.2]
          simp only
          omega
    · have hw := Except.ok.inj hw
      refine h.keep hent (by rw [← hw]) hcr (by rw [← hw]) ?_
      rw [← hw]
      omega
  | _ =>
    obtain ⟨hreq, hp, hav⟩ := step_available hacc hw (by simp)
    refine h.keep hent hreq hcr hp ?_
    omega

/-! ## Main result -/

theorem run_covered [Inhabited H] {blockSize numBlocks : ℕ} {w₀ : World H} {s : Admissions H} {ops : List Op}
    (hn : World.new blockSize numBlocks = .ok w₀) (hP : StepsMeet step Room ⟨w₀, []⟩ ops)
    (hr : run step ⟨w₀, []⟩ ops = .ok s) : s.Covered numBlocks := by
  refine run_invariant (I := fun _ s => s.Covered numBlocks) ⟨w₀, []⟩ ?_ ?_ ops s hP hr
  · have hf := World.new_fresh hn
    refine ⟨World.new_entitled hn, ?_, ?_⟩
    · rw [hf.empty.1]
      exact .nil
    · simp [slack, hf.entitled]
  · intro _ s o s' h hroom hs
    exact step_covered h hroom hs

/-- the condition asks nothing of a draw whose request has no credit to match -/
theorem Covered.room_draw [Inhabited H] {s : Admissions H} {n i : ℕ} (h : s.Covered n) {c : SchedulableSequence.Call}
    (hc : c.isSchedule = true) (hcredit : s.credit i = 0) (ha : ∀ e ∈ s.world.request? i, e.admitted = true) :
    s.Room (.call i c) := by
  intro e he
  have hslack := h.slack_nonneg
  obtain ⟨cap, hpos, hlife⟩ := h.entitled.inLifetime e (World.mem_of_slot (World.request_slot he))
  have hdraws := hpos.draws_le c
  have hout : outside e c s.world.pool.store = 0 := by
    cases c <;> simp_all [outside, SchedulableSequence.registers, SchedulableSequence.Call.isSchedule, BlockStore.revived]
  have hleft : (e.seq.draws c + s.credit i : ℤ) ≤ e.remaining := by
    simp only [EntitledSeq.remaining, EntitledSeq.resident, hlife, hcredit]
    omega
  cases c with
  | matchAndAddPrefix => simp [SchedulableSequence.Call.isSchedule] at hc
  | _ =>
    refine ⟨fun _ => hleft, fun _ => ?_⟩
    rw [hout]
    exact hslack

/-- **Admitted draws.** In every run whose operations have room, a schedule call of an admitted request is answered, and
not with a lack of blocks. -/
theorem admitted_draw_succeeds [Inhabited H] (blockSize numBlocks : ℕ) (w₀ : World H) (s : Admissions H)
    (ops : List Op) (hn : World.new blockSize numBlocks = .ok w₀) (hP : StepsMeet step Room ⟨w₀, []⟩ ops)
    (hr : run step ⟨w₀, []⟩ ops = .ok s) (i : ℕ) (e : EntitledSeq H) (c : SchedulableSequence.Call)
    (he : s.world.request? i = some e) (ha : e.admitted = true) (hc : c.isSchedule = true)
    (hroom : s.Room (.call i c)) :
    ∃ r e' p, e.request c s.world.pool = .ok (r, e', p) ∧ ∀ n, r ≠ .scheduleError (.allocationFailed n) := by
  have h := run_covered hn hP hr
  obtain ⟨F, hF, -⟩ := World.holdings_request he
  have hacc := h.entitled.reached.accounted
  unfold World.Accounted at hacc
  rw [hF] at hacc
  have hleft : (e.seq.draws c + s.credit i : ℤ) ≤ e.remaining := by
    cases c with
    | matchAndAddPrefix => simp [SchedulableSequence.Call.isSchedule] at hc
    | _ => exact (hroom e he).1 ha
  have hav := h.available he ha
  have hdraw : e.request c s.world.pool = e.withDraw c s.world.pool := by
    cases c with
    | release => simp [SchedulableSequence.Call.isSchedule] at hc
    | _ => rfl
  rw [hdraw]
  unfold EntitledSeq.withDraw
  rcases SchedulableSequence.schedule_cases hacc hc with ⟨x, hx, heq⟩ | ⟨hlt, -⟩ | ⟨-, q', σ', heq⟩
  · rw [heq]
    exact ⟨_, _, _, rfl, by simpa using hx⟩
  · omega
  · rw [heq]
    exact ⟨_, _, _, rfl, by simp⟩

/-- a request is admitted on the credit of the prefix its probe pins, and a loaded block is reserved beside it -/
theorem admitted_draw_credited :
    ∃ (w₀ : World (List ℕ)) (s : Admissions (List ℕ)) (e : EntitledSeq (List ℕ)), World.new 2 6 = .ok w₀ ∧
      run step ⟨w₀, []⟩ [.newRequest [1, 2, 3, 4, 5] 1 0, .call 0 (.schedulePrefill 5), .call 0 (.applyPrefill (some 6)),
        .dropRequest 0, .finishDrop 1, .finishDrop 2, .probe [1, 2, 3, 4, 7] 0, .newRequest [1, 2, 3, 4, 7] 3 0,
        .tryAdmit 1 2, .call 1 .matchAndAddPrefix, .dropProbe 0, .reserve 1] = .ok s ∧
      s.world.request? 1 = some e ∧ e.admitted = true ∧
      ∃ r e' p, e.request (.schedulePrefill 1) s.world.pool = .ok (r, e', p) ∧
        ∀ n, r ≠ .scheduleError (.allocationFailed n) :=
  ⟨_, _, _, rfl, rfl, rfl, rfl, admitted_draw_succeeds 2 6 _ _ [.newRequest [1, 2, 3, 4, 5] 1 0,
    .call 0 (.schedulePrefill 5), .call 0 (.applyPrefill (some 6)), .dropRequest 0, .finishDrop 1, .finishDrop 2,
    .probe [1, 2, 3, 4, 7] 0, .newRequest [1, 2, 3, 4, 7] 3 0, .tryAdmit 1 2, .call 1 .matchAndAddPrefix, .dropProbe 0,
    .reserve 1] rfl (by decide) rfl 1 _ (.schedulePrefill 1) rfl rfl rfl (by decide)⟩

/-- two blocks of a finished request are cached; a request is admitted to all four, then a probe pins the cached two -/
theorem probe_starves_draw :
    ∃ (w₀ w : World (List ℕ)) (e e' : EntitledSeq (List ℕ)) (p : BlockPool (List ℕ)), World.new 2 5 = .ok w₀ ∧
      run World.step w₀ [.newRequest [1, 2, 3, 4, 5] 1 0, .call 0 (.schedulePrefill 5),
        .call 0 (.applyPrefill (some 6)), .call 0 .release, .finishDrop 1, .finishDrop 2,
        .newRequest [7, 7, 7, 7, 7, 7, 7] 1 0, .tryAdmit 1 0, .probe [1, 2, 3, 4, 5] 0] = .ok w ∧
      w.request? 1 = some e ∧ e.admitted = true ∧ e.seq.residentBlocks + 4 ≤ e.lifetimeBlocks ∧
      e.request (.schedulePrefill 7) w.pool = .ok (.scheduleError (.allocationFailed 4), e', p) :=
  ⟨_, _, _, _, _, rfl, rfl, rfl, rfl, by decide, rfl⟩

end Admissions

end Pegainfer.KvStore
