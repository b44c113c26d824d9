/-
Everything a call can do to the store.

A sequence's guards are its `holdings`. From a store that accounts for them and for the guards `F` of everybody else,
a call leaves a store that accounts for the sequence's new guards and for the same `F`, and the blocks it takes from or
returns to availability are exactly the change of the blocks it holds, plus the inactive primaries it revives.
- `drawInto_spec`: a draw fails only when the store has too few blocks; the duplicate check never fires.
- `call_spec`: the guards, the inner blocks and the availability after a call.
-/
import Mathlib.Tactic
import Pegainfer.Kvbm.StoreSpec
import Pegainfer.Kvbm.Positions

set_option linter.unusedSectionVars false

namespace Pegainfer.Kvbm

variable {H : Type} [DecidableEq H]

open BlockStore

/-! ## Dropping, staging and registering many blocks -/

theorem ofMutable_cons (b : BlockId) (bs : List BlockId) :
    (Holdings.ofMutable (b :: bs) : Holdings H) = ({b}, 0, 0) + Holdings.ofMutable bs := by
  simp [Holdings.ofMutable]

theorem ofComplete_cons (c : BlockId × H) (cs : List (BlockId × H)) :
    (Holdings.ofComplete (c :: cs) : Holdings H) = (0, {c}, 0) + Holdings.ofComplete cs := by
  simp [Holdings.ofComplete]

theorem available_resetSlot (σ : BlockStore H) (b : BlockId) : (σ.resetSlot b).available = σ.available + 1 := by
  simp only [available, resetSlot, setSlot, List.length_append, List.length_singleton]
  omega

theorem dropMutables_spec (bs : List BlockId) {σ : BlockStore H} {g : Holdings H}
    (h : Inv σ (Holdings.ofMutable bs + g)) :
    Inv (σ.dropMutables bs) g ∧ (σ.dropMutables bs).available = σ.available + bs.length ∧
      Grows σ (σ.dropMutables bs) := by
  induction bs generalizing σ with
  | nil =>
    have hzero : (Holdings.ofMutable [] : Holdings H) = 0 := rfl
    rw [hzero, zero_add] at h
    exact ⟨h, rfl, .refl σ⟩
  | cons b bs ih =>
    rw [ofMutable_cons, add_assoc] at h
    obtain ⟨hinv, hav, hgr⟩ := ih (resetSlot_mutable_inv h)
    refine ⟨hinv, ?_, ?_⟩
    · have heq : σ.dropMutables (b :: bs) = (σ.resetSlot b).dropMutables bs := rfl
      rw [heq, hav, available_resetSlot, List.length_cons]
      omega
    · exact (⟨fun _ hy => hy, rfl⟩ : Grows σ (σ.resetSlot b)).trans hgr

theorem dropCompletes_spec (cs : List (BlockId × H)) {σ : BlockStore H} {g : Holdings H}
    (h : Inv σ (Holdings.ofComplete cs + g)) :
    Inv (σ.dropCompletes cs) g ∧ (σ.dropCompletes cs).available = σ.available + cs.length ∧
      Grows σ (σ.dropCompletes cs) := by
  induction cs generalizing σ with
  | nil =>
    have hzero : (Holdings.ofComplete [] : Holdings H) = 0 := rfl
    rw [hzero, zero_add] at h
    exact ⟨h, rfl, .refl σ⟩
  | cons c cs ih =>
    obtain ⟨b, k⟩ := c
    rw [ofComplete_cons, add_assoc] at h
    obtain ⟨hinv, hav, hgr⟩ := ih (resetSlot_staged_inv h)
    refine ⟨hinv, ?_, ?_⟩
    · have heq : σ.dropCompletes ((b, k) :: cs) = (σ.resetSlot b).dropCompletes cs := rfl
      rw [heq, hav, available_resetSlot, List.length_cons]
      omega
    · exact (⟨fun _ hy => hy, rfl⟩ : Grows σ (σ.resetSlot b)).trans hgr

theorem dropImmutables_spec (xs : List (ImmutableBlock H)) {σ : BlockStore H} {g : Holdings H}
    (h : Inv σ (Holdings.ofImmutable xs + g)) :
    Inv (σ.dropImmutables xs) g ∧ (σ.dropImmutables xs).available = σ.available ∧ Grows σ (σ.dropImmutables xs) := by
  induction xs generalizing σ with
  | nil =>
    have hzero : (Holdings.ofImmutable [] : Holdings H) = 0 := rfl
    rw [hzero, zero_add] at h
    exact ⟨h, rfl, .refl σ⟩
  | cons x xs ih =>
    rw [ofImmutable_cons, add_assoc] at h
    obtain ⟨hinv, hav, hgr⟩ := ih (dropImmutable_inv h)
    exact ⟨hinv, hav, (⟨fun _ hy => hy, rfl⟩ : Grows σ (σ.dropImmutable x.ptr)).trans hgr⟩

theorem stageAll_spec (cs : List (BlockId × H)) {σ : BlockStore H} {g : Holdings H}
    (h : Inv σ (Holdings.ofMutable (cs.map Prod.fst) + g)) :
    Inv (σ.stageAll cs) (Holdings.ofComplete cs + g) ∧ (σ.stageAll cs).available = σ.available ∧
      (σ.stageAll cs).inactive = σ.inactive ∧ Grows σ (σ.stageAll cs) := by
  induction cs generalizing σ g with
  | nil => exact ⟨h, rfl, rfl, .refl σ⟩
  | cons c cs ih =>
    obtain ⟨b, k⟩ := c
    rw [List.map_cons, ofMutable_cons, add_assoc] at h
    have hstage := stage_inv k h
    rw [add_left_comm] at hstage
    obtain ⟨hinv, hav, hin, hgr⟩ := ih hstage
    refine ⟨?_, hav, hin, (⟨fun _ hy => hy, rfl⟩ : Grows σ (σ.stage b k)).trans hgr⟩
    rw [ofComplete_cons, add_assoc, add_left_comm]
    exact hinv

/-- **Registering in order.** No panic; the inactive primaries of the hashes leave the available blocks. -/
theorem registerAll_spec (cs : List (BlockId × H)) {σ : BlockStore H} {g : Holdings H}
    (h : Inv σ (Holdings.ofComplete cs + g)) :
    ∃ xs σ', σ.registerAll cs = .ok (xs, σ') ∧ Inv σ' (Holdings.ofImmutable xs + g) ∧ Grows σ σ' ∧
      σ'.available + σ.revived (cs.map Prod.snd) = σ.available := by
  induction cs generalizing σ g with
  | nil => exact ⟨[], σ, rfl, h, .refl σ, rfl⟩
  | cons c cs ih =>
    obtain ⟨b, k⟩ := c
    rw [ofComplete_cons, add_assoc] at h
    obtain ⟨x, σ₁, heq, hreg⟩ := registerBlock_spec h
    have hnext := hreg.inv
    rw [add_left_comm] at hnext
    obtain ⟨xs, σ₂, heq₂, hinv, hgr, hav⟩ := ih hnext
    refine ⟨x :: xs, σ₂, by simp [registerAll, heq, heq₂], ?_, hreg.grows.trans hgr, ?_⟩
    · rw [ofImmutable_cons, add_assoc, add_left_comm]
      exact hinv
    · rw [List.map_cons, revived_cons (cs.map Prod.snd) hreg.inactive]
      have := hreg.available
      omega

namespace SchedulableSequence

variable [BlockHash H]

/-! ## A sequence's guards -/

/-- the guards in three lists -/
def guards (bs : List BlockId) (cs : List (BlockId × H)) (xs : List (ImmutableBlock H)) : Holdings H := (↑bs, ↑cs, ↑xs)

def holdings (q : SchedulableSequence H) : Holdings H := guards q.unassigned q.staged q.assigned

theorem mutable_add_guards (ids bs : List BlockId) (cs : List (BlockId × H)) (xs : List (ImmutableBlock H)) :
    Holdings.ofMutable ids + guards bs cs xs = guards (bs ++ ids) cs xs := by
  simp only [Holdings.ofMutable, guards, Prod.mk_add_mk, zero_add, ← Multiset.coe_add]
  rw [add_comm]

theorem complete_add_guards (ds : List (BlockId × H)) (bs : List BlockId) (cs : List (BlockId × H))
    (xs : List (ImmutableBlock H)) : Holdings.ofComplete ds + guards bs cs xs = guards bs (cs ++ ds) xs := by
  simp only [Holdings.ofComplete, guards, Prod.mk_add_mk, zero_add, ← Multiset.coe_add]
  rw [add_comm]

theorem immutable_add_guards (ys : List (ImmutableBlock H)) (bs : List BlockId) (cs : List (BlockId × H))
    (xs : List (ImmutableBlock H)) : Holdings.ofImmutable ys + guards bs cs xs = guards bs cs (xs ++ ys) := by
  simp only [Holdings.ofImmutable, guards, Prod.mk_add_mk, zero_add, ← Multiset.coe_add]
  rw [add_comm]

theorem guards_perm {bs bs' : List BlockId} (h : bs.Perm bs') (cs : List (BlockId × H))
    (xs : List (ImmutableBlock H)) : guards bs cs xs = guards bs' cs xs := by
  simp only [guards, Multiset.coe_eq_coe.2 h]

theorem holdings_drawn (q : SchedulableSequence H) (ids : List BlockId) (next : SequenceState) :
    (q.drawn ids next).holdings = Holdings.ofMutable ids + q.holdings := by
  rw [holdings, holdings, mutable_add_guards]
  rfl

/-- the hashes `complete_and_register_pending` registers -/
def pendingHashes (q : SchedulableSequence H) : List H := (q.staged ++ q.pendingPairs).map Prod.snd

theorem map_fst_pendingPairs (q : SchedulableSequence H) :
    q.pendingPairs.map Prod.fst = q.unassigned.take q.pendingPairs.length := by
  unfold pendingPairs
  generalize q.allSequenceHashes.drop (q.assigned.length + q.staged.length) = m
  induction q.unassigned generalizing m with
  | nil => simp
  | cons b bs ih =>
    cases m with
    | nil => simp
    | cons k ks => simpa using ih ks

theorem revived_congr {σ σ' : BlockStore H} (h : σ'.inactive = σ.inactive) (hs : List H) :
    σ'.revived hs = σ.revived hs := by
  have hfun : σ'.hasInactive = σ.hasInactive := by
    funext k
    simp only [hasInactive, h]
  simp only [revived, hfun]

/-- the pending blocks, staged behind the staged ones -/
theorem stagePending_spec {q : SchedulableSequence H} {σ : BlockStore H} {F : Holdings H}
    (h : Inv σ (q.holdings + F)) :
    Inv (σ.stageAll q.pendingPairs) (Holdings.ofComplete (q.staged ++ q.pendingPairs) +
        (guards (q.unassigned.drop q.pendingPairs.length) [] q.assigned + F)) ∧
      (σ.stageAll q.pendingPairs).available = σ.available ∧ (σ.stageAll q.pendingPairs).inactive = σ.inactive ∧
      Grows σ (σ.stageAll q.pendingPairs) := by
  set n := q.pendingPairs.length with hn
  have hsplit : q.holdings + F =
      Holdings.ofMutable (q.pendingPairs.map Prod.fst) + (guards (q.unassigned.drop n) q.staged q.assigned + F) := by
    rw [map_fst_pendingPairs, ← hn, ← add_assoc, mutable_add_guards]
    congr 1
    refine guards_perm ?_ _ _
    conv_lhs => rw [← List.take_append_drop n q.unassigned]
    exact List.perm_append_comm
  rw [hsplit] at h
  have hjoin : Holdings.ofComplete q.pendingPairs + (guards (q.unassigned.drop n) q.staged q.assigned + F) =
      Holdings.ofComplete (q.staged ++ q.pendingPairs) + (guards (q.unassigned.drop n) [] q.assigned + F) := by
    rw [← add_assoc, ← add_assoc, complete_add_guards, complete_add_guards, List.nil_append]
  rw [← hjoin]
  exact stageAll_spec q.pendingPairs h

/-- **Staging and registering.** The pending blocks become registered ones; it costs the primaries it revives. -/
theorem completeAndRegisterPending_spec {q : SchedulableSequence H} {σ : BlockStore H} {F : Holdings H}
    (h : Inv σ (q.holdings + F)) :
    ∃ q' σ', q.completeAndRegisterPending σ = .ok (q', σ') ∧ Inv σ' (q'.holdings + F) ∧ Grows σ σ' ∧
      σ'.available + σ.revived q.pendingHashes = σ.available ∧ q'.residentBlocks = q.residentBlocks := by
  obtain ⟨hinv, hav, hin, hgr⟩ := stagePending_spec h
  set n := q.pendingPairs.length with hn
  obtain ⟨xs, σ', heq, hinv', hgr', hav'⟩ := registerAll_spec _ hinv
  refine ⟨q.withRegistered xs, σ', ?_, ?_, hgr.trans hgr', ?_, ?_⟩
  · simp only [completeAndRegisterPending, registerStaged, stagePending, heq]
    rfl
  · have hfin : (q.withRegistered xs).holdings + F =
        Holdings.ofImmutable xs + (guards (q.unassigned.drop n) [] q.assigned + F) := by
      rw [← add_assoc, immutable_add_guards]
      rfl
    rw [hfin]
    exact hinv'
  · rw [← revived_congr hin, pendingHashes, hav', hav]
  · have hlen : xs.length = q.staged.length + n := by
      have := congrArg List.length (registerAll_names heq)
      simpa [hn] using this
    have hle : n ≤ q.unassigned.length := by
      rw [hn, length_pendingPairs]
      exact min_le_left _ _
    simp only [residentBlocks, withRegistered, List.length_append, List.length_nil, List.length_drop, hlen, ← hn]
    omega

/-! ## Drawing blocks -/

/-- a freshly allocated block is not one the sequence holds -/
theorem validateNoDuplicates_fresh {q : SchedulableSequence H} {σ : BlockStore H} {F : Holdings H}
    {ids : List BlockId} (h : Inv σ (Holdings.ofMutable ids + (q.holdings + F))) :
    q.validateNoDuplicates ids = true := by
  have hnd := h.slots.mutable_nodup
  simp only [holdings, guards, Holdings.ofMutable, Prod.fst_add] at hnd
  obtain ⟨hids, -, hdisj⟩ := Multiset.nodup_add.1 hnd
  have hnodup : ids.Nodup := by simpa using hids
  have hslot : ∀ b ∈ ids, σ.slots b = .mutable := by
    intro b hb
    refine (h.slots.mutable_iff b).1 ?_
    simp only [Holdings.ofMutable, Prod.fst_add, Multiset.mem_add, Multiset.mem_coe]
    exact Or.inl hb
  simp only [validateNoDuplicates, hnodup, decide_true, Bool.and_true, List.all_eq_true, Bool.not_eq_true']
  intro b hb
  by_contra hc
  simp only [contains, Bool.not_eq_false, Bool.or_eq_true, decide_eq_true_eq, List.mem_map] at hc
  rcases hc with (⟨x, hx, hxb⟩ | ⟨c, hc, hcb⟩) | hu
  · obtain ⟨p, hp⟩ := h.refs.shared_inner x (by simp [holdings, guards, Holdings.ofMutable, hx])
    have hpos : 0 < σ.strong x.ptr := by
      rw [h.refs.strong_eq]
      have : x.ptr ∈ ((Holdings.ofMutable ids + (q.holdings + F)).2.2.map ImmutableBlock.ptr) :=
        Multiset.mem_map_of_mem _ (by simp [holdings, guards, Holdings.ofMutable, hx])
      have := Multiset.count_pos.2 this
      omega
    have hreg := h.refs.slot_of_strong hp hpos
    simp only [hxb, hslot b hb] at hreg
    simp at hreg
  · obtain ⟨b', k⟩ := c
    have hst := (h.slots.staged_iff b' k).1 (by simp [holdings, guards, Holdings.ofMutable, hc])
    simp only at hcb
    rw [hcb, hslot b hb] at hst
    cases hst
  · refine Multiset.disjoint_left.1 hdisj (Multiset.mem_coe.2 hb) ?_
    exact Multiset.mem_add.2 (Or.inl (Multiset.mem_coe.2 hu))

/-- **Drawing.** A draw succeeds exactly when the store has the blocks. -/
theorem drawInto_spec {q : SchedulableSequence H} {σ : BlockStore H} {F : Holdings H} (h : Inv σ (q.holdings + F))
    (n : ℕ) (next : SequenceState) :
    (σ.available < n ∧ q.drawInto n next σ = .ok (.error (.allocationFailed n), q, σ)) ∨
    ∃ ids σ', n ≤ σ.available ∧ q.drawInto n next σ = .ok (.ok (), q.drawn ids next, σ') ∧
      Inv σ' ((q.drawn ids next).holdings + F) ∧ Grows σ σ' ∧
      σ'.available + (q.drawn ids next).residentBlocks = σ.available + q.residentBlocks := by
  by_cases hn : σ.available < n
  · left
    have h0 : n ≠ 0 := by omega
    exact ⟨hn, by simp [drawInto, allocateBlocks, h0, allocateBlocks_none hn]⟩
  · right
    obtain ⟨ids, σ', heq, hlen, hinv, hav, hgr⟩ := allocateBlocks_spec h (not_lt.1 hn)
    have hval := validateNoDuplicates_fresh hinv
    by_cases h0 : n = 0
    · subst h0
      have hnil : ids = [] := List.length_eq_zero_iff.1 hlen
      subst hnil
      refine ⟨[], σ, Nat.zero_le _, by simp [drawInto, allocateBlocks, drawn], ?_, .refl σ, ?_⟩
      · rw [holdings_drawn]
        have hzero : (Holdings.ofMutable [] : Holdings H) = 0 := rfl
        rwa [hzero, zero_add]
      · simp [residentBlocks, drawn]
    · refine ⟨ids, σ', not_lt.1 hn, by simp [drawInto, allocateBlocks, h0, heq, hval, drawn], ?_, hgr, ?_⟩
      · rw [holdings_drawn, add_assoc]
        exact hinv
      · simp only [residentBlocks, drawn, List.length_append, hlen]
        omega

/-- **Popping.** The popped blocks return to the store. -/
theorem lifoPopUnassigned_spec {q : SchedulableSequence H} {σ : BlockStore H} {F : Holdings H}
    (h : Inv σ (q.holdings + F)) (n : ℕ) :
    Inv (q.lifoPopUnassigned n σ).2 ((q.lifoPopUnassigned n σ).1.holdings + F) ∧
      Grows σ (q.lifoPopUnassigned n σ).2 ∧
      (q.lifoPopUnassigned n σ).2.available + (q.lifoPopUnassigned n σ).1.residentBlocks =
        σ.available + q.residentBlocks := by
  set keep := q.unassigned.length - n with hkeep
  have hsplit : q.holdings + F = Holdings.ofMutable (q.unassigned.drop keep).reverse +
      ((q.lifoPopUnassigned n σ).1.holdings + F) := by
    have hpop : (q.lifoPopUnassigned n σ).1.holdings = guards (q.unassigned.take keep) q.staged q.assigned := rfl
    rw [← add_assoc, hpop, mutable_add_guards]
    congr 1
    refine guards_perm ?_ _ _
    conv_lhs => rw [← List.take_append_drop keep q.unassigned]
    exact (List.reverse_perm _).symm.append_left _
  rw [hsplit] at h
  obtain ⟨hinv, hav, hgr⟩ := dropMutables_spec _ h
  refine ⟨hinv, hgr, ?_⟩
  have hstore : (q.lifoPopUnassigned n σ).2 = σ.dropMutables (q.unassigned.drop keep).reverse := rfl
  rw [hstore, hav]
  simp only [residentBlocks, lifoPopUnassigned, List.length_reverse, List.length_drop, List.length_take, ← hkeep]
  omega

/-! ## The calls -/

/-- the hashes a call registers when it is carried out -/
def registers (q : SchedulableSequence H) : Call → List H
  | .applyPrefill _ => q.pendingHashes
  | .applyDecode _ => q.pendingHashes
  | .applySpeculative ts => (q.appended ts).pendingHashes
  | .padTailBlock pad =>
    if q.kvPosition % q.blockSize = 0 then []
    else { q with tokens := q.tokens ++ List.replicate q.padCount pad }.pendingHashes
  | _ => []

/-- what a carried-out call does to availability -/
def Settles (q q' : SchedulableSequence H) (σ σ' : BlockStore H) : Call → Prop
  | .matchAndAddPrefix => σ'.available + σ.pinned q.allSequenceHashes = σ.available
  | .release => σ'.available = σ.available + (q.staged.length + q.unassigned.length)
  | c => σ'.available + q'.residentBlocks + σ.revived (q.registers c) = σ.available + q.residentBlocks

/-- a call on a sequence whose guards, with those of everybody else, are accounted for -/
structure CallSpec (q q' : SchedulableSequence H) (σ σ' : BlockStore H) (F : Holdings H) (c : Call) (r : CallResult) :
    Prop where
  inv : Inv σ' (q'.holdings + F)
  grows : Grows σ σ'
  refused : r ≠ .done → q' = q ∧ σ' = σ
  settles : r = .done → Settles q q' σ σ' c
  /-- a draw fails only when the store has fewer blocks than the step needs -/
  failed : ∀ n, r = .scheduleError (.allocationFailed n) →
    σ.available < n ∧ ∃ next, ∀ ids, ids.length = n → Effect q c .done (q.drawn ids next)

theorem CallSpec.refuse {q : SchedulableSequence H} {σ : BlockStore H} {F : Holdings H} {c : Call} {r : CallResult}
    (h : Inv σ (q.holdings + F)) (hr : r ≠ .done) (hf : ∀ n, r ≠ .scheduleError (.allocationFailed n)) :
    CallSpec q q σ σ F c r :=
  ⟨h, .refl σ, fun _ => ⟨rfl, rfl⟩, fun hd => absurd hd hr, fun n hn => absurd hn (hf n)⟩

/-- a drawing call that passed its checks -/
theorem drawInto_callSpec {q q' : SchedulableSequence H} {σ σ' : BlockStore H} {F : Holdings H} {c : Call} {n : ℕ}
    {next : SequenceState} {r : Except ScheduleError Unit} (h : Inv σ (q.holdings + F))
    (hd : q.drawInto n next σ = .ok (r, q', σ'))
    (hsettle : ∀ p p' τ τ', Settles (H := H) p p' τ τ' c ↔
      τ'.available + p'.residentBlocks = τ.available + p.residentBlocks)
    (heff : ∀ ids, ids.length = n → Effect q c .done (q.drawn ids next)) :
    CallSpec q q' σ σ' F c (.ofSchedule r) := by
  rcases drawInto_spec h n next with ⟨hlt, heq⟩ | ⟨ids, τ, hle, heq, hinv, hgr, hav⟩
  · rw [heq] at hd
    simp only [Except.ok.injEq, Prod.mk.injEq] at hd
    obtain ⟨rfl, rfl, rfl⟩ := hd
    refine ⟨h, .refl σ, fun _ => ⟨rfl, rfl⟩, fun hdone => (by cases hdone), ?_⟩
    intro m hm
    simp only [CallResult.ofSchedule, CallResult.scheduleError.injEq, ScheduleError.allocationFailed.injEq] at hm
    subst hm
    exact ⟨hlt, next, heff⟩
  · rw [heq] at hd
    simp only [Except.ok.injEq, Prod.mk.injEq] at hd
    obtain ⟨rfl, rfl, rfl⟩ := hd
    exact ⟨hinv, hgr, fun hr => absurd rfl hr, fun _ => (hsettle _ _ _ _).2 hav, fun m hm => by cases hm⟩

theorem matchAndAddPrefix_spec {q q' : SchedulableSequence H} {σ σ' : BlockStore H} {F : Holdings H}
    {r : Except ScheduleError ℕ} (h : Inv σ (q.holdings + F)) (hc : q.matchAndAddPrefix σ = .ok (r, q', σ')) :
    CallSpec q q' σ σ' F .matchAndAddPrefix (.ofSchedule r) := by
  unfold matchAndAddPrefix at hc
  split_ifs at hc with hs he
  · simp only [Except.ok.injEq, Prod.mk.injEq] at hc
    obtain ⟨rfl, rfl, rfl⟩ := hc
    exact .refuse h (by simp [CallResult.ofSchedule]) (by simp [CallResult.ofSchedule])
  · have he : q.residentBlocks = 0 := by simpa using he
    obtain ⟨hits, σ₁, heq, hm⟩ := matchBlocks_spec q.allSequenceHashes h
    rw [heq] at hc
    simp only at hc
    set kept := hits.take q.maxMatchedBlocks with hkept
    have hsplit : Holdings.ofImmutable hits + (q.holdings + F) =
        Holdings.ofImmutable (hits.drop q.maxMatchedBlocks) + (Holdings.ofImmutable kept + (q.holdings + F)) := by
      rw [← add_assoc (Holdings.ofImmutable (hits.drop q.maxMatchedBlocks))]
      congr 1
      simp only [Holdings.ofImmutable, Prod.mk_add_mk, add_zero, Multiset.coe_add]
      congr 2
      refine Multiset.coe_eq_coe.2 ?_
      conv_lhs => rw [← List.take_append_drop q.maxMatchedBlocks hits, ← hkept]
      exact List.perm_append_comm
    have hinv := hm.inv
    rw [hsplit] at hinv
    obtain ⟨hinv₂, hav₂, hgr₂⟩ := dropImmutables_spec _ hinv
    have hav : (σ₁.dropImmutables (hits.drop q.maxMatchedBlocks)).available + σ.pinned q.allSequenceHashes =
        σ.available := by
      rw [hav₂]
      exact hm.available
    split_ifs at hc with h1 h2 h3
    · simp only [Except.ok.injEq, Prod.mk.injEq] at hc
      obtain ⟨rfl, rfl, rfl⟩ := hc
      rw [h1] at hinv₂
      have hzero : (Holdings.ofImmutable [] : Holdings H) = 0 := rfl
      rw [hzero, zero_add] at hinv₂
      exact ⟨hinv₂, hm.grows.trans hgr₂, fun hr => absurd rfl hr, fun _ => hav, fun n hn => by cases hn⟩
    · simp only [Except.ok.injEq, Prod.mk.injEq] at hc
      obtain ⟨rfl, rfl, rfl⟩ := hc
      have hq : q.holdings = guards [] [] [] := by
        unfold residentBlocks at he
        have ha : q.assigned = [] := List.length_eq_zero_iff.1 (by omega)
        have hst : q.staged = [] := List.length_eq_zero_iff.1 (by omega)
        have hu : q.unassigned = [] := List.length_eq_zero_iff.1 (by omega)
        simp only [holdings, ha, hst, hu]
      refine ⟨?_, hm.grows.trans hgr₂, fun hr => absurd rfl hr, fun _ => hav, fun n hn => by cases hn⟩
      have hnew : (q.withMatched kept).holdings + F = Holdings.ofImmutable kept + (q.holdings + F) := by
        rw [← add_assoc, hq, immutable_add_guards, List.nil_append]
        unfold residentBlocks at he
        have hst : q.staged = [] := List.length_eq_zero_iff.1 (by omega)
        have hu : q.unassigned = [] := List.length_eq_zero_iff.1 (by omega)
        simp only [holdings, withMatched, hst, hu]
      have hfin : Inv (σ₁.dropImmutables (hits.drop q.maxMatchedBlocks)) ((q.withMatched kept).holdings + F) := by
        rw [hnew]
        exact hinv₂
      exact hfin

/-- an apply whose tokens do not change the guards -/
theorem registered_callSpec {p q q' : SchedulableSequence H} {σ σ' : BlockStore H} {F : Holdings H} {c : Call}
    {r : CallResult} (hr : r = .done) (hinv : Inv σ' (q'.holdings + F)) (hgr : Grows σ σ')
    (hav : σ'.available + σ.revived p.pendingHashes = σ.available) (hres : q'.residentBlocks = q.residentBlocks)
    (hsettle : Settles q q' σ σ' c ↔
      σ'.available + q'.residentBlocks + σ.revived p.pendingHashes = σ.available + q.residentBlocks) :
    CallSpec q q' σ σ' F c r := by
  subst hr
  refine ⟨hinv, hgr, fun h => absurd rfl h, fun _ => hsettle.2 (by omega), fun n hn => by cases hn⟩

theorem schedulePrefill_spec {q q' : SchedulableSequence H} {n : ℕ} {σ σ' : BlockStore H} {F : Holdings H}
    {r : Except ScheduleError Unit} (h : Inv σ (q.holdings + F)) (hc : q.schedulePrefill n σ = .ok (r, q', σ')) :
    CallSpec q q' σ σ' F (.schedulePrefill n) (.ofSchedule r) := by
  unfold schedulePrefill at hc
  simp only at hc
  split_ifs at hc with hs hp hn
  · simp only [Except.ok.injEq, Prod.mk.injEq] at hc
    obtain ⟨rfl, rfl, rfl⟩ := hc
    exact .refuse h (by simp [CallResult.ofSchedule]) (by simp [CallResult.ofSchedule])
  · simp only [Except.ok.injEq, Prod.mk.injEq] at hc
    obtain ⟨rfl, rfl, rfl⟩ := hc
    exact .refuse h (by simp [CallResult.ofSchedule]) (by simp [CallResult.ofSchedule])
  · simp only [Except.ok.injEq, Prod.mk.injEq] at hc
    obtain ⟨rfl, rfl, rfl⟩ := hc
    exact .refuse h (by simp [CallResult.ofSchedule]) (by simp [CallResult.ofSchedule])
  · refine drawInto_callSpec h hc (by simp [Settles, registers, revived]) ?_
    intro ids hids
    rw [← hids]
    exact .prefillScheduled n ids (by simpa using hs) (by simpa [isPrefillComplete] using hp) (not_lt.1 hn) hids

theorem scheduleDecode_spec {q q' : SchedulableSequence H} {σ σ' : BlockStore H} {F : Holdings H}
    {r : Except ScheduleError Unit} (h : Inv σ (q.holdings + F)) (hc : q.scheduleDecode σ = .ok (r, q', σ')) :
    CallSpec q q' σ σ' F .scheduleDecode (.ofSchedule r) := by
  unfold scheduleDecode at hc
  split at hc
  · rename_i e hreq
    simp only [Except.ok.injEq, Prod.mk.injEq] at hc
    obtain ⟨rfl, rfl, rfl⟩ := hc
    refine .refuse h (by simp [CallResult.ofSchedule]) ?_
    rintro n hn
    simp only [CallResult.ofSchedule, CallResult.scheduleError.injEq] at hn
    subst hn
    unfold requireGeneration at hreq
    split_ifs at hreq <;> cases hreq
  · rename_i hreq
    obtain ⟨hs, hp, hg, hd⟩ := requireGeneration_ok hreq
    simp only at hc
    refine drawInto_callSpec h hc (by simp [Settles, registers, revived]) ?_
    intro ids hids
    rw [← hids]
    exact .decodeScheduled ids hs ⟨hp, hg, hd⟩ hids

theorem scheduleSpeculative_spec {q q' : SchedulableSequence H} {n : ℕ} {σ σ' : BlockStore H} {F : Holdings H}
    {r : Except ScheduleError Unit} (h : Inv σ (q.holdings + F)) (hc : q.scheduleSpeculative n σ = .ok (r, q', σ')) :
    CallSpec q q' σ σ' F (.scheduleSpeculative n) (.ofSchedule r) := by
  unfold scheduleSpeculative at hc
  split at hc
  · rename_i e hreq
    simp only [Except.ok.injEq, Prod.mk.injEq] at hc
    obtain ⟨rfl, rfl, rfl⟩ := hc
    refine .refuse h (by simp [CallResult.ofSchedule]) ?_
    rintro m hm
    simp only [CallResult.ofSchedule, CallResult.scheduleError.injEq] at hm
    subst hm
    unfold requireGeneration at hreq
    split_ifs at hreq <;> cases hreq
  · rename_i hreq
    obtain ⟨hs, hp, hg, hd⟩ := requireGeneration_ok hreq
    simp only at hc
    refine drawInto_callSpec h hc (by simp [Settles, registers, revived]) ?_
    intro ids hids
    rw [← hids]
    exact .speculativeScheduled n ids hs ⟨hp, hg, hd⟩ hids

theorem applyPrefill_spec {q q' : SchedulableSequence H} {t : Option Token} {σ σ' : BlockStore H} {F : Holdings H}
    {r : Except ApplyError Unit} (h : Inv σ (q.holdings + F)) (hc : q.applyPrefill t σ = .ok (r, q', σ')) :
    CallSpec q q' σ σ' F (.applyPrefill t) (.ofApply r) := by
  unfold applyPrefill at hc
  split at hc
  · simp only at hc
    split_ifs at hc with h1 h2
    · simp only [Except.ok.injEq, Prod.mk.injEq] at hc
      obtain ⟨rfl, rfl, rfl⟩ := hc
      exact .refuse h (by simp [CallResult.ofApply]) (by simp [CallResult.ofApply])
    · simp only [Except.ok.injEq, Prod.mk.injEq] at hc
      obtain ⟨rfl, rfl, rfl⟩ := hc
      exact .refuse h (by simp [CallResult.ofApply]) (by simp [CallResult.ofApply])
    · obtain ⟨q₁, σ₁, heq, hinv, hgr, hav, hres⟩ := completeAndRegisterPending_spec h
      rw [heq] at hc
      simp only at hc
      split at hc
      · cases hc
      · rename_i crossed q₃ happ
        simp only [Except.ok.injEq, Prod.mk.injEq] at hc
        obtain ⟨rfl, rfl, rfl⟩ := hc
        obtain ⟨-, rfl⟩ := appendTokens_ok happ
        exact registered_callSpec rfl hinv hgr hav hres Iff.rfl
  · simp only [Except.ok.injEq, Prod.mk.injEq] at hc
    obtain ⟨rfl, rfl, rfl⟩ := hc
    exact .refuse h (by simp [CallResult.ofApply]) (by simp [CallResult.ofApply])

theorem applyDecode_spec {q q' : SchedulableSequence H} {t : Token} {σ σ' : BlockStore H} {F : Holdings H}
    {r : Except ApplyError DecodeOutcome} (h : Inv σ (q.holdings + F)) (hc : q.applyDecode t σ = .ok (r, q', σ')) :
    CallSpec q q' σ σ' F (.applyDecode t) (.ofApply r) := by
  unfold applyDecode at hc
  split at hc
  · obtain ⟨q₁, σ₁, heq, hinv, hgr, hav, hres⟩ := completeAndRegisterPending_spec h
    rw [heq] at hc
    simp only at hc
    split at hc
    · cases hc
    · rename_i crossed q₂ happ
      simp only [Except.ok.injEq, Prod.mk.injEq] at hc
      obtain ⟨rfl, rfl, rfl⟩ := hc
      obtain ⟨-, rfl⟩ := appendToken_ok happ
      exact registered_callSpec rfl hinv hgr hav hres Iff.rfl
  · simp only [Except.ok.injEq, Prod.mk.injEq] at hc
    obtain ⟨rfl, rfl, rfl⟩ := hc
    exact .refuse h (by simp [CallResult.ofApply]) (by simp [CallResult.ofApply])

theorem applySpeculative_spec {q q' : SchedulableSequence H} {ts : List Token} {σ σ' : BlockStore H}
    {F : Holdings H} {r : Except ApplyError DecodeOutcome} (h : Inv σ (q.holdings + F))
    (hc : q.applySpeculative ts σ = .ok (r, q', σ')) :
    CallSpec q q' σ σ' F (.applySpeculative ts) (.ofApply r) := by
  unfold applySpeculative at hc
  split at hc
  · split_ifs at hc with hn
    · simp only [Except.ok.injEq, Prod.mk.injEq] at hc
      obtain ⟨rfl, rfl, rfl⟩ := hc
      exact .refuse h (by simp [CallResult.ofApply]) (by simp [CallResult.ofApply])
    · split at hc
      · cases hc
      · rename_i completed q₁ happ
        obtain ⟨-, rfl⟩ := appendTokens_ok happ
        have h₁ : Inv σ ((q.appended ts).holdings + F) := h
        obtain ⟨q₂, σ₂, heq, hinv, hgr, hav, hres⟩ := completeAndRegisterPending_spec h₁
        rw [heq] at hc
        simp only [Except.ok.injEq, Prod.mk.injEq] at hc
        obtain ⟨rfl, rfl, rfl⟩ := hc
        set q₃ : SchedulableSequence H := { q₂ with kvPosition := q₂.kvPosition + ts.length } with hq₃
        have h₃ : Inv σ₂ (q₃.holdings + F) := hinv
        have hres₃ : q₃.residentBlocks = q.residentBlocks := hres
        obtain ⟨hinv₄, hgr₄, hav₄⟩ := lifoPopUnassigned_spec h₃
          (q₃.unassigned.length - if q₃.isComplete then 0 else 1)
        refine ⟨hinv₄, hgr.trans hgr₄, fun hr => absurd rfl hr, fun _ => ?_, fun n hn => by cases hn⟩
        rw [hres₃] at hav₄
        have hav' : (q₃.lifoDropExcessUnassigned σ₂).2.available + (q₃.lifoDropExcessUnassigned σ₂).1.residentBlocks +
            σ.revived (q.appended ts).pendingHashes = σ.available + q.residentBlocks := by
          simp only [lifoDropExcessUnassigned]
          omega
        exact hav'
  · simp only [Except.ok.injEq, Prod.mk.injEq] at hc
    obtain ⟨rfl, rfl, rfl⟩ := hc
    exact .refuse h (by simp [CallResult.ofApply]) (by simp [CallResult.ofApply])

theorem revertSchedule_spec {q : SchedulableSequence H} {σ : BlockStore H} {F : Holdings H}
    (h : Inv σ (q.holdings + F)) :
    CallSpec q (q.revertSchedule σ).2.1 σ (q.revertSchedule σ).2.2 F .revertSchedule
      (.ofApply (q.revertSchedule σ).1) := by
  have hpop : ∀ n, CallSpec q { (q.lifoPopUnassigned n σ).1 with state := .idle } σ (q.lifoPopUnassigned n σ).2 F
      .revertSchedule .done := by
    intro n
    obtain ⟨hinv, hgr, hav⟩ := lifoPopUnassigned_spec h n
    refine ⟨hinv, hgr, fun hr => absurd rfl hr, fun _ => ?_, fun m hm => by cases hm⟩
    simp only [Settles, registers, revived, List.filter_nil, List.dedup_nil, List.length_nil, Nat.add_zero]
    exact hav
  cases hs : q.state with
  | idle =>
    simp only [revertSchedule, hs]
    exact .refuse h (by simp [CallResult.ofApply]) (by simp [CallResult.ofApply])
  | prefillScheduled m n => simpa only [revertSchedule, hs, CallResult.ofApply] using hpop n
  | decodeScheduled n => simpa only [revertSchedule, hs, CallResult.ofApply] using hpop n
  | speculativeScheduled m n => simpa only [revertSchedule, hs, CallResult.ofApply] using hpop n

theorem padTailBlock_spec {q q' : SchedulableSequence H} {pad : Token} {σ σ' : BlockStore H} {F : Holdings H}
    {r : Except ApplyError ℕ} (h : Inv σ (q.holdings + F)) (hc : q.padTailBlock pad σ = .ok (r, q', σ')) :
    CallSpec q q' σ σ' F (.padTailBlock pad) (.ofApply r) := by
  unfold padTailBlock at hc
  split_ifs at hc with hs hk
  · simp only [Except.ok.injEq, Prod.mk.injEq] at hc
    obtain ⟨rfl, rfl, rfl⟩ := hc
    exact .refuse h (by simp [CallResult.ofApply]) (by simp [CallResult.ofApply])
  · simp only [Except.ok.injEq, Prod.mk.injEq] at hc
    obtain ⟨rfl, rfl, rfl⟩ := hc
    refine ⟨h, .refl _, fun hr => absurd rfl hr, fun _ => ?_, fun m hm => by cases hm⟩
    simp [Settles, registers, hk, revived]
  · have h₁ : Inv σ ({ q with tokens := q.tokens ++ List.replicate q.padCount pad }.holdings + F) := h
    obtain ⟨q₁, σ₁, heq, hinv, hgr, hav, hres⟩ := completeAndRegisterPending_spec h₁
    rw [heq] at hc
    simp only [Except.ok.injEq, Prod.mk.injEq] at hc
    obtain ⟨rfl, rfl, rfl⟩ := hc
    exact registered_callSpec rfl hinv hgr hav hres (by simp [Settles, registers, hk])

theorem adoptExternalPrefillAnchor_spec {q : SchedulableSequence H} {σ : BlockStore H} {F : Holdings H}
    (h : Inv σ (q.holdings + F)) :
    CallSpec q q.adoptExternalPrefillAnchor.2 σ σ F .adoptExternalPrefillAnchor
      (.ofApply q.adoptExternalPrefillAnchor.1) := by
  unfold adoptExternalPrefillAnchor
  split_ifs with hs hv
  · exact .refuse h (by simp [CallResult.ofApply]) (by simp [CallResult.ofApply])
  · refine ⟨h, .refl σ, fun hr => absurd rfl hr, fun _ => ?_, fun m hm => by cases hm⟩
    simp [Settles, registers, revived, residentBlocks]
  · exact .refuse h (by simp [CallResult.ofApply]) (by simp [CallResult.ofApply])

/-- **Clearing.** The exclusive blocks return at once; the shared ones when their last reference is dropped. -/
theorem clear_spec {q : SchedulableSequence H} {σ : BlockStore H} {F : Holdings H} (h : Inv σ (q.holdings + F)) :
    Inv (q.clear σ).2 F ∧ Grows σ (q.clear σ).2 ∧
      (q.clear σ).2.available = σ.available + (q.staged.length + q.unassigned.length) := by
  have hsplit : q.holdings + F =
      Holdings.ofImmutable q.assigned + (Holdings.ofComplete q.staged + (Holdings.ofMutable q.unassigned + F)) := by
    rw [← add_assoc (Holdings.ofComplete q.staged), ← add_assoc]
    congr 1
    simp [holdings, guards, Holdings.ofImmutable, Holdings.ofComplete, Holdings.ofMutable]
  rw [hsplit] at h
  obtain ⟨h₁, hav₁, hgr₁⟩ := dropImmutables_spec _ h
  obtain ⟨h₂, hav₂, hgr₂⟩ := dropCompletes_spec _ h₁
  obtain ⟨h₃, hav₃, hgr₃⟩ := dropMutables_spec _ h₂
  refine ⟨h₃, (hgr₁.trans hgr₂).trans hgr₃, ?_⟩
  simp only [clear]
  omega

theorem release_spec {q : SchedulableSequence H} {σ : BlockStore H} {F : Holdings H} (h : Inv σ (q.holdings + F)) :
    CallSpec q (q.release σ).2.1 σ (q.release σ).2.2 F .release (.ofApply (q.release σ).1) := by
  unfold release
  split_ifs with hs
  · exact .refuse h (by simp [CallResult.ofApply]) (by simp [CallResult.ofApply])
  · obtain ⟨hinv, hgr, hav⟩ := clear_spec h
    refine ⟨?_, hgr, fun hr => absurd rfl hr, fun _ => hav, fun m hm => by cases hm⟩
    have hzero : (q.clear σ).1.holdings = 0 := rfl
    rw [hzero, zero_add]
    exact hinv

/-- **Calls.** From a store that accounts for the sequence's guards and for `F`, a call that does not panic keeps the
account, and moves availability by what it draws, returns and revives. -/
theorem call_spec {q q' : SchedulableSequence H} {c : Call} {σ σ' : BlockStore H} {F : Holdings H} {r : CallResult}
    (h : Inv σ (q.holdings + F)) (hc : q.call c σ = .ok (r, q', σ')) : CallSpec q q' σ σ' F c r := by
  cases c with
  | matchAndAddPrefix =>
    obtain ⟨_, hx, rfl⟩ := map_ok hc
    exact matchAndAddPrefix_spec h hx
  | schedulePrefill n =>
    obtain ⟨_, hx, rfl⟩ := map_ok hc
    exact schedulePrefill_spec h hx
  | applyPrefill t =>
    obtain ⟨_, hx, rfl⟩ := map_ok hc
    exact applyPrefill_spec h hx
  | scheduleDecode =>
    obtain ⟨_, hx, rfl⟩ := map_ok hc
    exact scheduleDecode_spec h hx
  | applyDecode t =>
    obtain ⟨_, hx, rfl⟩ := map_ok hc
    exact applyDecode_spec h hx
  | scheduleSpeculative n =>
    obtain ⟨_, hx, rfl⟩ := map_ok hc
    exact scheduleSpeculative_spec h hx
  | applySpeculative ts =>
    obtain ⟨_, hx, rfl⟩ := map_ok hc
    exact applySpeculative_spec h hx
  | revertSchedule =>
    have hspec := revertSchedule_spec h
    simp only [call, Except.ok.injEq, Prod.mk.injEq] at hc
    obtain ⟨hr, hq⟩ := hc
    rw [hr, hq] at hspec
    exact hspec
  | padTailBlock pad =>
    obtain ⟨_, hx, rfl⟩ := map_ok hc
    exact padTailBlock_spec h hx
  | adoptExternalPrefillAnchor =>
    have hspec := adoptExternalPrefillAnchor_spec h
    simp only [call, Except.ok.injEq, Prod.mk.injEq] at hc
    obtain ⟨hr, hq, hσ⟩ := hc
    rw [hr, hq] at hspec
    rw [← hσ]
    exact hspec
  | release =>
    have hspec := release_spec h
    simp only [call, Except.ok.injEq, Prod.mk.injEq] at hc
    obtain ⟨hr, hq⟩ := hc
    rw [hr, hq] at hspec
    exact hspec

end SchedulableSequence

end Pegainfer.Kvbm
