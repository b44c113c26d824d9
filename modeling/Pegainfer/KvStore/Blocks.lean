/-
The account of all guards the pool has out.

`World.holdings` are the guards that exist: those of the requests, the probes, the reservations and the offload pins, and
the leaked one of the padding block.
- `step_kept`: every operation keeps the store's account of them, the padding block and the sizes.
- `step_named`: everything handed out is named by the hash of a token block.
- `new_fresh`: what a fresh pool starts from.
-/
import Mathlib.Tactic
import Pegainfer.Lib.Machine
import Pegainfer.Lib.Table
import Pegainfer.Kvbm.CallStore
import Pegainfer.KvStore.Pool

set_option linter.unusedSectionVars false

namespace Pegainfer.KvStore

open Pegainfer.Kvbm Pegainfer.Lib

variable {H : Type} [DecidableEq H] [BlockHash H]

/-! ## The pages of a request -/

section Pages

open Pegainfer.Kvbm.SchedulableSequence

theorem pageIndices_drawn (q : SchedulableSequence H) (ids : List BlockId) (next : SequenceState) :
    pageIndices (q.drawn ids next) = pageIndices q ++ ids := by
  simp [pageIndices, drawn]

/-- registering moves no page -/
theorem pageIndices_withRegistered {q : SchedulableSequence H} {xs : List (ImmutableBlock H)} (hx : q.Registers xs) :
    pageIndices (q.withRegistered xs) = pageIndices q := by
  have hids : xs.map ImmutableBlock.blockId = q.staged.map Prod.fst ++ q.unassigned.take q.pendingPairs.length := by
    have := congrArg (List.map Prod.fst) hx
    rw [List.map_append, map_fst_pendingPairs] at this
    simpa [Function.comp_def] using this
  simp only [pageIndices, withRegistered, List.map_append, hids, List.map_nil, List.append_nil, List.append_assoc,
    List.take_append_drop]

theorem length_pageIndices (q : SchedulableSequence H) : (pageIndices q).length = q.residentBlocks := by
  simp only [pageIndices, residentBlocks, List.length_append, List.length_map]

/-- fewer unassigned pages: a prefix of the pages -/
theorem pageIndices_keep (q : SchedulableSequence H) (n : ℕ) : pageIndices (q.keepUnassigned n) <+: pageIndices q := by
  simp only [pageIndices, keepUnassigned]
  exact (List.prefix_append_right_inj _).2 (List.take_prefix n q.unassigned)

/-- the `i`-th registered block has the `i`-th name -/
theorem assigned_name {q : SchedulableSequence H} (h : q.Base) {i : ℕ} {x : ImmutableBlock H}
    (hx : q.assigned[i]? = some x) : x.seqHash = q.sequenceHash i := by
  have hi := (List.getElem?_eq_some_iff.1 hx).1
  have hle := h.assigned_le
  have hhash := congrArg (·[i]?) h.hashes
  simp only [List.getElem?_map, hx, Option.map_some] at hhash
  rw [List.getElem?_take_of_lt hi, allSequenceHashes, List.getElem?_map,
    List.getElem?_range (lt_of_lt_of_le hi hle)] at hhash
  exact Option.some.inj hhash

/-- the name and page of a registered block -/
theorem assigned_page {q : SchedulableSequence H} (h : q.Base) {x : ImmutableBlock H} (hx : x ∈ q.assigned) :
    ∃ i, i < q.assigned.length ∧ (pageIndices q)[i]? = some x.blockId ∧ x.seqHash = q.sequenceHash i := by
  obtain ⟨i, hi, hget⟩ := List.mem_iff_getElem.1 hx
  refine ⟨i, hi, ?_, assigned_name h (by rw [List.getElem?_eq_getElem hi, hget])⟩
  rw [pageIndices, List.append_assoc, List.getElem?_append_left (by simpa using hi)]
  simp [hi, hget]

end Pages

/-! ## The guards that are out -/

def requestHoldings : Option (EntitledSeq H) → Holdings H
  | none => 0
  | some e => e.seq.holdings

def probeHoldings : Option (PrefixProbe H) → Holdings H
  | none => 0
  | some pr => Holdings.ofImmutable pr.held

def reservationHoldings : Option (List BlockId) → Holdings H
  | none => 0
  | some ids => Holdings.ofMutable ids

namespace World

/-- the guards handed out -/
def handedOut (w : World H) : Holdings H :=
  (w.requests.map requestHoldings).sum + (w.probes.map probeHoldings).sum +
    (w.reservations.map reservationHoldings).sum + (w.guards.map Holdings.ofImmutable).sum

/-- the guards handed out, and the leaked one of the padding block -/
def holdings (w : World H) : Holdings H := Holdings.ofImmutable [w.padding] + w.handedOut

/-- the store accounts for all guards that exist -/
def Accounted (w : World H) : Prop := Inv w.pool.store w.holdings

theorem request_slot {w : World H} {i : ℕ} {e : EntitledSeq H} (h : w.request? i = some e) :
    w.requests[i]? = some (some e) := by
  exact Option.join_eq_some_iff.1 h

theorem probe_slot {w : World H} {i : ℕ} {pr : PrefixProbe H} (h : w.probe? i = some pr) :
    w.probes[i]? = some (some pr) := by
  exact Option.join_eq_some_iff.1 h

theorem reservation_slot {w : World H} {i : ℕ} {ids : List BlockId} (h : w.reservation? i = some ids) :
    w.reservations[i]? = some (some ids) := by
  exact Option.join_eq_some_iff.1 h

/-- one request's guards, and everybody else's -/
theorem holdings_request {w : World H} {i : ℕ} {e : EntitledSeq H} (h : w.request? i = some e) :
    ∃ F, w.holdings = e.seq.holdings + F ∧
      ∀ e' p, (w.setRequest i e' p).holdings = requestHoldings e' + F := by
  obtain ⟨rest, hsum, hset⟩ := sum_map_set requestHoldings (request_slot h)
  refine ⟨Holdings.ofImmutable [w.padding] + (rest + (w.probes.map probeHoldings).sum +
    (w.reservations.map reservationHoldings).sum + (w.guards.map Holdings.ofImmutable).sum), ?_, ?_⟩
  · simp only [holdings, handedOut, hsum, requestHoldings]
    abel
  · intro e' p
    simp only [holdings, handedOut, setRequest, hset]
    abel

theorem holdings_probe {w : World H} {i : ℕ} {pr : PrefixProbe H} (h : w.probe? i = some pr) :
    ∃ F, w.holdings = Holdings.ofImmutable pr.held + F ∧
      ∀ pr' p, ({ w with pool := p, probes := w.probes.set i pr' } : World H).holdings = probeHoldings pr' + F := by
  obtain ⟨rest, hsum, hset⟩ := sum_map_set probeHoldings (probe_slot h)
  refine ⟨Holdings.ofImmutable [w.padding] + ((w.requests.map requestHoldings).sum + rest +
    (w.reservations.map reservationHoldings).sum + (w.guards.map Holdings.ofImmutable).sum), ?_, ?_⟩
  · simp only [holdings, handedOut, hsum, probeHoldings]
    abel
  · intro e' p
    simp only [holdings, handedOut, hset]
    abel

theorem holdings_reservation {w : World H} {i : ℕ} {ids : List BlockId} (h : w.reservation? i = some ids) :
    ∃ F, w.holdings = Holdings.ofMutable ids + F ∧
      ∀ r p, ({ w with pool := p, reservations := w.reservations.set i r } : World H).holdings =
        reservationHoldings r + F := by
  obtain ⟨rest, hsum, hset⟩ := sum_map_set (reservationHoldings (H := H)) (reservation_slot h)
  refine ⟨Holdings.ofImmutable [w.padding] + ((w.requests.map requestHoldings).sum + (w.probes.map probeHoldings).sum +
    rest + (w.guards.map Holdings.ofImmutable).sum), ?_, ?_⟩
  · simp only [holdings, handedOut, hsum, reservationHoldings]
    abel
  · intro e' p
    simp only [holdings, handedOut, hset]
    abel

/-! ## Single operations -/

theorem withDraw_ok {e e' : EntitledSeq H} {c : SchedulableSequence.Call} {p p' : BlockPool H}
    {r : SchedulableSequence.CallResult} (h : e.withDraw c p = .ok (r, e', p')) :
    e.seq.call c p.store = .ok (r, e'.seq, p'.store) ∧ e'.admitted = e.admitted ∧
      e'.lifetimeBlocks = e.lifetimeBlocks ∧ p'.blockSize = p.blockSize ∧ p'.paddingBlockId = p.paddingBlockId ∧
      p'.entitled = if e.admitted then p.entitled + (e.resident - e'.resident) else p.entitled := by
  unfold EntitledSeq.withDraw at h
  split at h
  · cases h
  · rename_i r' seq' σ' heq
    simp only [Except.ok.injEq, Prod.mk.injEq] at h
    obtain ⟨rfl, rfl, rfl⟩ := h
    exact ⟨heq, rfl, rfl, rfl, rfl, rfl⟩

/-- a request's method, with what it refunds first -/
theorem request_ok {e e' : EntitledSeq H} {c : SchedulableSequence.Call} {p p' : BlockPool H}
    {r : SchedulableSequence.CallResult} (h : e.request c p = .ok (r, e', p')) :
    e.seq.call c p.store = .ok (r, e'.seq, p'.store) ∧ e'.lifetimeBlocks = e.lifetimeBlocks ∧
      p'.blockSize = p.blockSize ∧ p'.paddingBlockId = p.paddingBlockId := by
  have hret : (e.retire p).1.seq = e.seq ∧ (e.retire p).2.store = p.store ∧
      (e.retire p).1.lifetimeBlocks = e.lifetimeBlocks ∧ (e.retire p).2.blockSize = p.blockSize ∧
      (e.retire p).2.paddingBlockId = p.paddingBlockId := by
    unfold EntitledSeq.retire
    split_ifs <;> exact ⟨rfl, rfl, rfl, rfl, rfl⟩
  cases c with
  | release =>
    simp only [EntitledSeq.request] at h
    obtain ⟨hc, -, hl, hb, hp, -⟩ := withDraw_ok h
    rw [hret.1, hret.2.1] at hc
    exact ⟨hc, hl.trans hret.2.2.1, hb.trans hret.2.2.2.1, hp.trans hret.2.2.2.2⟩
  | _ =>
    simp only [EntitledSeq.request] at h
    obtain ⟨hc, -, hl, hb, hp, -⟩ := withDraw_ok h
    exact ⟨hc, hl, hb, hp⟩

theorem commitBlocks_spec (bs : List BlockId) {ks : List H} {σ σ' : BlockStore H} {xs : List (ImmutableBlock H)}
    {g : Holdings H} (h : Inv σ (Holdings.ofMutable bs + g))
    (hc : BlockPool.commitBlocks σ bs ks = .ok (xs, σ')) :
    Inv σ' (Holdings.ofImmutable xs + g) ∧ Grows σ σ' ∧ xs.map ImmutableBlock.seqHash = ks.take bs.length ∧
      xs.length = bs.length ∧ σ'.available + σ.revived (ks.take bs.length) = σ.available := by
  induction bs generalizing ks σ xs g with
  | nil =>
    simp only [BlockPool.commitBlocks, Except.ok.injEq, Prod.mk.injEq] at hc
    obtain ⟨rfl, rfl⟩ := hc
    exact ⟨h, .refl σ, by simp, rfl, by simp [BlockStore.revived]⟩
  | cons b bs ih =>
    cases ks with
    | nil => simp [BlockPool.commitBlocks] at hc
    | cons k ks =>
      simp only [BlockPool.commitBlocks] at hc
      rw [ofMutable_cons, add_assoc] at h
      obtain ⟨x, σ₁, heq, hreg⟩ := registerBlock_spec (stage_inv k h)
      rw [heq] at hc
      simp only at hc
      split at hc
      · cases hc
      · rename_i ys σ₂ hys
        simp only [Except.ok.injEq, Prod.mk.injEq] at hc
        obtain ⟨rfl, rfl⟩ := hc
        have hnext := hreg.inv
        rw [add_left_comm] at hnext
        obtain ⟨hinv, hgr, hhash, hlen, hav⟩ := ih hnext hys
        refine ⟨?_, ?_, ?_, ?_, ?_⟩
        · rw [ofImmutable_cons, add_assoc, add_left_comm]
          exact hinv
        · exact (⟨fun _ hy => hy, rfl⟩ : Grows σ (σ.stage b k)).trans (hreg.grows.trans hgr)
        · rw [List.map_cons, hreg.hash, hhash, List.length_cons, List.take_succ_cons]
        · rw [List.length_cons, List.length_cons, hlen]
        · have hstage : ∀ l, (σ.stage b k).revived l = σ.revived l := SchedulableSequence.revived_congr rfl
          have hsplit := revived_cons (σ := σ.stage b k) (ks.take bs.length) hreg.inactive
          have h1 := hreg.available
          rw [List.length_cons, List.take_succ_cons, ← hstage]
          have h2 : (σ.stage b k).available = σ.available := rfl
          omega

/-- pins on blocks somebody holds -/
theorem cloneAll_spec (xs : List (ImmutableBlock H)) {σ : BlockStore H} {g : Holdings H} (h : Inv σ g)
    (hx : ∀ x ∈ xs, x ∈ g.2.2) :
    Inv (xs.foldl (fun σ x => σ.clone x.ptr) σ) (Holdings.ofImmutable xs + g) ∧
      Grows σ (xs.foldl (fun σ x => σ.clone x.ptr) σ) ∧
      (xs.foldl (fun σ x => σ.clone x.ptr) σ).available = σ.available := by
  induction xs generalizing σ g with
  | nil =>
    have hzero : (Holdings.ofImmutable [] : Holdings H) = 0 := rfl
    exact ⟨by rwa [hzero, zero_add], .refl σ, rfl⟩
  | cons x xs ih =>
    have hmem := hx x List.mem_cons_self
    obtain ⟨q, hq⟩ := h.refs.shared_inner x hmem
    have hpos : 0 < σ.strong x.ptr := by
      rw [h.refs.strong_eq]
      have := Multiset.count_pos.2 (Multiset.mem_map_of_mem ImmutableBlock.ptr hmem)
      omega
    obtain ⟨hinv, hgr, hav⟩ := ih (clone_inv h hq hpos) (by
      intro y hy
      simp only [Prod.snd_add, Multiset.mem_add]
      exact Or.inr (hx y (List.mem_cons_of_mem _ hy)))
    refine ⟨?_, (⟨fun _ hy => hy, rfl⟩ : Grows σ (σ.clone x.ptr)).trans hgr, hav⟩
    rw [ofImmutable_cons, add_assoc, add_left_comm]
    exact hinv

/-! ## Every operation keeps the account -/

/-- the padding block's inner object, kept by the leaked guard -/
def paddingInner (w : World H) : ImmutableBlockInner H := ⟨w.padding.ptr, w.padding.blockId, w.padding.seqHash, none⟩

/-- what one operation keeps of the store: the account, the padding block, the sizes -/
structure Kept (w w' : World H) : Prop where
  accounted : w'.Accounted
  padded : w'.paddingInner ∈ w'.pool.store.inners
  padding : w'.padding = w.padding
  paddingId : w'.pool.paddingBlockId = w.pool.paddingBlockId
  blockSize : w'.pool.blockSize = w.pool.blockSize
  total : w'.pool.store.totalBlocks = w.pool.store.totalBlocks

/-- an operation that only adds inner objects -/
theorem Kept.of_grows {w w' : World H} (hp : w.paddingInner ∈ w.pool.store.inners) (hacc : w'.Accounted)
    (hpad : w'.padding = w.padding) (hid : w'.pool.paddingBlockId = w.pool.paddingBlockId)
    (hsize : w'.pool.blockSize = w.pool.blockSize) (hgr : Grows w.pool.store w'.pool.store) : Kept w w' where
  accounted := hacc
  padded := by
    have := hgr.inners _ hp
    simpa only [paddingInner, hpad] using this
  padding := hpad
  paddingId := hid
  blockSize := hsize
  total := hgr.total

theorem step_kept_call {w w' : World H} {i : ℕ} {c : SchedulableSequence.Call} (h : w.Accounted)
    (hp : w.paddingInner ∈ w.pool.store.inners) (hs : w.step (.call i c) = .ok w') : Kept w w' := by
  simp only [step] at hs
  split at hs
  · obtain rfl := Except.ok.inj hs
    exact .of_grows hp h rfl rfl rfl (.refl _)
  · rename_i e he
    split at hs
    · cases hs
    · rename_i r e' p hreq
      obtain rfl := Except.ok.inj hs
      obtain ⟨hc, -, hsize, hid⟩ := request_ok hreq
      obtain ⟨F, hF, hset⟩ := holdings_request he
      unfold Accounted at h
      rw [hF] at h
      have hspec := SchedulableSequence.call_spec h hc
      refine .of_grows hp ?_ rfl hid hsize hspec.grows
      unfold Accounted
      rw [hset]
      exact hspec.inv

theorem step_kept_request {w w' : World H} {o : Op} (h : w.Accounted) (hp : w.paddingInner ∈ w.pool.store.inners)
    (ho : (∃ ts m s, o = .newRequest ts m s) ∨ (∃ i n, o = .tryAdmit i n) ∨ ∃ i, o = .dropRequest i)
    (hs : w.step o = .ok w') : Kept w w' := by
  rcases ho with ⟨ts, m, salt, rfl⟩ | ⟨i, n, rfl⟩ | ⟨i, rfl⟩
  · simp only [step, Except.ok.injEq] at hs
    subst hs
    refine .of_grows hp ?_ rfl rfl rfl (.refl _)
    have hzero : requestHoldings (some (w.pool.newRequest ts m salt)) = (0 : Holdings H) := rfl
    simp only [Accounted, holdings, handedOut, sum_map_concat, hzero, zero_add]
    exact h
  · simp only [step] at hs
    split at hs
    · obtain rfl := Except.ok.inj hs
      exact .of_grows hp h rfl rfl rfl (.refl _)
    · rename_i e he
      obtain rfl := Except.ok.inj hs
      have hadm : (e.tryAdmit n w.pool).2.1.seq = e.seq ∧ (e.tryAdmit n w.pool).2.2.store = w.pool.store ∧
          (e.tryAdmit n w.pool).2.2.blockSize = w.pool.blockSize ∧
          (e.tryAdmit n w.pool).2.2.paddingBlockId = w.pool.paddingBlockId := by
        unfold EntitledSeq.tryAdmit
        split_ifs <;> exact ⟨rfl, rfl, rfl, rfl⟩
      obtain ⟨F, hF, hset⟩ := holdings_request he
      refine .of_grows hp ?_ rfl hadm.2.2.2 hadm.2.2.1 ?_
      · unfold Accounted at h ⊢
        rw [hset, requestHoldings, hadm.1, ← hF]
        simp only [setRequest, hadm.2.1]
        exact h
      · simp only [setRequest, hadm.2.1]
        exact .refl _
  · simp only [step] at hs
    split at hs
    · obtain rfl := Except.ok.inj hs
      exact .of_grows hp h rfl rfl rfl (.refl _)
    · rename_i e he
      obtain rfl := Except.ok.inj hs
      have hret : (e.retire w.pool).2.store = w.pool.store ∧ (e.retire w.pool).2.blockSize = w.pool.blockSize ∧
          (e.retire w.pool).2.paddingBlockId = w.pool.paddingBlockId := by
        unfold EntitledSeq.retire
        split_ifs <;> exact ⟨rfl, rfl, rfl⟩
      obtain ⟨F, hF, hset⟩ := holdings_request he
      unfold Accounted at h
      rw [hF] at h
      obtain ⟨hinv, hgr, -⟩ := SchedulableSequence.clear_spec h
      refine .of_grows hp ?_ rfl hret.2.2 hret.2.1 ?_
      · unfold Accounted
        rw [hset, requestHoldings, zero_add]
        simp only [setRequest, EntitledSeq.drop, hret.1]
        exact hinv
      · simp only [setRequest, EntitledSeq.drop, hret.1]
        exact hgr

theorem ofImmutable_append (xs ys : List (ImmutableBlock H)) :
    (Holdings.ofImmutable (xs ++ ys) : Holdings H) = Holdings.ofImmutable xs + Holdings.ofImmutable ys := by
  simp [Holdings.ofImmutable]

theorem step_kept_probe {w w' : World H} {o : Op} (h : w.Accounted) (hp : w.paddingInner ∈ w.pool.store.inners)
    (ho : (∃ ts s, o = .probe ts s) ∨ (∃ i, o = .includeFinalBlock i) ∨ (∃ i n, o = .truncateHeld i n) ∨
      ∃ i, o = .dropProbe i)
    (hs : w.step o = .ok w') : Kept w w' := by
  rcases ho with ⟨ts, salt, rfl⟩ | ⟨i, rfl⟩ | ⟨i, n, rfl⟩ | ⟨i, rfl⟩
  · simp only [step, BlockPool.probePrefix] at hs
    obtain ⟨hits, σ', heq, hm⟩ := matchBlocks_spec
      (SchedulableSequence.new ts 0 w.pool.blockSize salt).allSequenceHashes h
    rw [heq] at hs
    simp only [Except.ok.injEq] at hs
    subst hs
    refine .of_grows hp ?_ rfl rfl rfl hm.grows
    have hsum : Holdings.ofImmutable [w.padding] + ((w.requests.map requestHoldings).sum +
        (Holdings.ofImmutable hits + (w.probes.map probeHoldings).sum) +
        (w.reservations.map reservationHoldings).sum + (w.guards.map Holdings.ofImmutable).sum) =
        Holdings.ofImmutable hits + w.holdings := by
      simp only [holdings, handedOut]
      abel
    simp only [Accounted, holdings, handedOut, sum_map_concat, probeHoldings]
    rw [hsum]
    exact hm.inv
  · simp only [step] at hs
    split at hs
    · obtain rfl := Except.ok.inj hs
      exact .of_grows hp h rfl rfl rfl (.refl _)
    · rename_i pr hpr
      obtain rfl := Except.ok.inj hs
      obtain ⟨F, hF, hset⟩ := holdings_probe hpr
      refine .of_grows hp ?_ rfl rfl rfl (.refl _)
      unfold Accounted at h ⊢
      rw [hset, probeHoldings, ← hF]
      exact h
  · simp only [step] at hs
    split at hs
    · obtain rfl := Except.ok.inj hs
      exact .of_grows hp h rfl rfl rfl (.refl _)
    · rename_i pr hpr
      obtain rfl := Except.ok.inj hs
      obtain ⟨F, hF, hset⟩ := holdings_probe hpr
      unfold Accounted at h
      rw [hF, ← List.take_append_drop n pr.held, ofImmutable_append,
        add_comm (Holdings.ofImmutable (pr.held.take n)), add_assoc] at h
      obtain ⟨hinv, -, hgr⟩ := dropImmutables_spec _ h
      refine .of_grows hp ?_ rfl rfl rfl hgr
      unfold Accounted
      rw [hset]
      exact hinv
  · simp only [step] at hs
    split at hs
    · obtain rfl := Except.ok.inj hs
      exact .of_grows hp h rfl rfl rfl (.refl _)
    · rename_i pr hpr
      obtain rfl := Except.ok.inj hs
      obtain ⟨F, hF, hset⟩ := holdings_probe hpr
      unfold Accounted at h
      rw [hF] at h
      obtain ⟨hinv, -, hgr⟩ := dropImmutables_spec _ h
      refine .of_grows hp ?_ rfl rfl rfl hgr
      unfold Accounted
      rw [hset, probeHoldings, zero_add]
      exact hinv

theorem reserveLoadedBlocks_ok {p p' : BlockPool H} {n : ℕ} {ids : List BlockId}
    (h : p.reserveLoadedBlocks n = .ok (some (ids, p'))) :
    n + p.entitled.toNat ≤ p.store.available ∧ p.store.allocateBlocks n = .ok (some (ids, p'.store)) ∧
      p'.blockSize = p.blockSize ∧ p'.paddingBlockId = p.paddingBlockId ∧ p'.entitled = p.entitled := by
  unfold BlockPool.reserveLoadedBlocks at h
  split_ifs at h with hlt
  · simp at h
  · split at h
    · cases h
    · simp at h
    · rename_i ids' σ heq
      simp only [Except.ok.injEq, Option.some.injEq, Prod.mk.injEq] at h
      obtain ⟨rfl, rfl⟩ := h
      exact ⟨not_lt.1 hlt, heq, rfl, rfl, rfl⟩

theorem step_kept_reservation {w w' : World H} {o : Op} (h : w.Accounted)
    (hp : w.paddingInner ∈ w.pool.store.inners)
    (ho : (∃ n, o = .reserve n) ∨ (∃ i, o = .dropReservation i) ∨ ∃ i j, o = .commit i j)
    (hs : w.step o = .ok w') : Kept w w' := by
  rcases ho with ⟨n, rfl⟩ | ⟨i, rfl⟩ | ⟨i, j, rfl⟩
  · simp only [step] at hs
    split at hs
    · cases hs
    · obtain rfl := Except.ok.inj hs
      exact .of_grows hp h rfl rfl rfl (.refl _)
    · rename_i ids p hres
      obtain rfl := Except.ok.inj hs
      obtain ⟨hle, halloc, hsize, hid, -⟩ := reserveLoadedBlocks_ok hres
      obtain ⟨ids', σ', heq, -, hinv, -, hgr⟩ := allocateBlocks_spec h (n := n) (by omega)
      rw [heq] at halloc
      simp only [Except.ok.injEq, Option.some.injEq, Prod.mk.injEq] at halloc
      obtain ⟨rfl, hσ⟩ := halloc
      rw [hσ] at hinv hgr
      refine .of_grows hp ?_ rfl hid hsize hgr
      have hsum : Holdings.ofImmutable [w.padding] + ((w.requests.map requestHoldings).sum +
          (w.probes.map probeHoldings).sum + (Holdings.ofMutable ids' + (w.reservations.map reservationHoldings).sum) +
          (w.guards.map Holdings.ofImmutable).sum) = Holdings.ofMutable ids' + w.holdings := by
        simp only [holdings, handedOut]
        abel
      simp only [Accounted, holdings, handedOut, sum_map_concat, reservationHoldings]
      rw [hsum]
      exact hinv
  · simp only [step] at hs
    split at hs
    · obtain rfl := Except.ok.inj hs
      exact .of_grows hp h rfl rfl rfl (.refl _)
    · rename_i ids hr
      obtain rfl := Except.ok.inj hs
      obtain ⟨F, hF, hset⟩ := holdings_reservation hr
      unfold Accounted at h
      rw [hF] at h
      obtain ⟨hinv, -, hgr⟩ := dropMutables_spec _ h
      refine .of_grows hp ?_ rfl rfl rfl hgr
      unfold Accounted
      rw [hset, reservationHoldings, zero_add]
      exact hinv
  · simp only [step] at hs
    split at hs
    · rename_i pr ids hpr hr
      split at hs
      · cases hs
      · rename_i pr' p hcommit
        obtain rfl := Except.ok.inj hs
        unfold BlockPool.commitLoadedBlocks at hcommit
        split at hcommit
        · cases hcommit
        · rename_i xs σ' hxs
          simp only [Except.ok.injEq, Prod.mk.injEq] at hcommit
          obtain ⟨rfl, rfl⟩ := hcommit
          -- first the reservation's slot empties, then the probe's grows
          obtain ⟨F, hF, hset⟩ := holdings_reservation hr
          unfold Accounted at h
          rw [hF] at h
          obtain ⟨hinv, hgr, -⟩ := commitBlocks_spec ids h hxs
          refine .of_grows hp ?_ rfl rfl rfl hgr
          have hempty := hset none { w.pool with store := σ' }
          rw [reservationHoldings, zero_add] at hempty
          obtain ⟨G, hG, hsetG⟩ := holdings_probe
            (w := { w with pool := { w.pool with store := σ' }, reservations := w.reservations.set j none })
            (i := i) hpr
          have hnew := hsetG (some { pr with held := pr.held ++ xs }) { w.pool with store := σ' }
          unfold Accounted
          rw [hnew, probeHoldings, ofImmutable_append, add_comm (Holdings.ofImmutable pr.held), add_assoc, ← hG,
            hempty]
          exact hinv
    · obtain rfl := Except.ok.inj hs
      exact .of_grows hp h rfl rfl rfl (.refl _)

theorem mem_holdings_request {w : World H} {i : ℕ} {e : EntitledSeq H} (h : w.request? i = some e)
    {x : ImmutableBlock H} (hx : x ∈ e.seq.assigned) : x ∈ w.holdings.2.2 := by
  obtain ⟨F, hF, -⟩ := holdings_request h
  rw [hF]
  simp only [SchedulableSequence.holdings, SchedulableSequence.guards, Prod.snd_add, Multiset.mem_add,
    Multiset.mem_coe]
  exact Or.inl hx

theorem step_kept_guards {w w' : World H} {o : Op} (h : w.Accounted) (hp : w.paddingInner ∈ w.pool.store.inners)
    (ho : (∃ i, o = .guardAssigned i) ∨ ∃ i, o = .dropGuards i) (hs : w.step o = .ok w') : Kept w w' := by
  rcases ho with ⟨i, rfl⟩ | ⟨i, rfl⟩
  · simp only [step] at hs
    split at hs
    · obtain rfl := Except.ok.inj hs
      exact .of_grows hp h rfl rfl rfl (.refl _)
    · rename_i e he
      obtain rfl := Except.ok.inj hs
      obtain ⟨hinv, hgr, -⟩ := cloneAll_spec e.seq.assigned h (fun x hx => mem_holdings_request he hx)
      refine .of_grows hp ?_ rfl rfl rfl hgr
      have hsum : Holdings.ofImmutable [w.padding] + ((w.requests.map requestHoldings).sum +
          (w.probes.map probeHoldings).sum + (w.reservations.map reservationHoldings).sum +
          (Holdings.ofImmutable e.seq.assigned + (w.guards.map Holdings.ofImmutable).sum)) =
          Holdings.ofImmutable e.seq.assigned + w.holdings := by
        simp only [holdings, handedOut]
        abel
      simp only [Accounted, holdings, handedOut, sum_map_concat]
      rw [hsum]
      exact hinv
  · simp only [step] at hs
    split at hs
    · obtain rfl := Except.ok.inj hs
      exact .of_grows hp h rfl rfl rfl (.refl _)
    · rename_i xs hxs
      obtain rfl := Except.ok.inj hs
      obtain ⟨rest, hsum, hset⟩ := sum_map_set (Holdings.ofImmutable (H := H)) hxs
      have hF : w.holdings = Holdings.ofImmutable xs + (Holdings.ofImmutable [w.padding] +
          ((w.requests.map requestHoldings).sum + (w.probes.map probeHoldings).sum +
            (w.reservations.map reservationHoldings).sum + rest)) := by
        simp only [holdings, handedOut, hsum]
        abel
      unfold Accounted at h
      rw [hF] at h
      obtain ⟨hinv, -, hgr⟩ := dropImmutables_spec _ h
      refine .of_grows hp ?_ rfl rfl rfl hgr
      have hzero : (Holdings.ofImmutable [] : Holdings H) = 0 := rfl
      simp only [Accounted, holdings, handedOut, hset, hzero, zero_add]
      exact hinv

/-- the padding block's object is referenced by the leaked guard -/
theorem strong_padding {w : World H} (h : w.Accounted) : 0 < w.pool.store.strong w.padding.ptr := by
  rw [h.refs.strong_eq]
  have hmem : w.padding ∈ w.holdings.2.2 := by simp [holdings, Holdings.ofImmutable]
  have := Multiset.count_pos.2 (Multiset.mem_map_of_mem ImmutableBlock.ptr hmem)
  omega

theorem step_kept_finishDrop {w w' : World H} {ptr : Ptr} (h : w.Accounted)
    (hp : w.paddingInner ∈ w.pool.store.inners) (hs : w.step (.finishDrop ptr) = .ok w') : Kept w w' := by
  simp only [step] at hs
  split at hs
  · obtain rfl := Except.ok.inj hs
    exact .of_grows hp h rfl rfl rfl (.refl _)
  · rename_i x hx
    obtain rfl := Except.ok.inj hs
    have hmem := List.mem_of_find?_eq_some hx
    have hzero : w.pool.store.strong x.ptr = 0 := by
      have := List.find?_some hx
      simp only [Bool.decide_and, Bool.and_eq_true, decide_eq_true_eq] at this
      exact this.2
    obtain ⟨hinners, htotal⟩ := dropInner_inners w.pool.store x
    refine ⟨(dropInner_spec h hmem hzero).1, ?_, rfl, rfl, rfl, htotal⟩
    have hne : w.paddingInner ≠ x := by
      rintro rfl
      have := strong_padding h
      simp only [paddingInner] at hzero
      omega
    rw [hinners]
    exact (List.mem_erase_of_ne hne).2 hp

/-- **Accounting.** Every operation keeps the store's account of all guards. -/
theorem step_kept {w w' : World H} {o : Op} (h : w.Accounted) (hp : w.paddingInner ∈ w.pool.store.inners)
    (hs : w.step o = .ok w') : Kept w w' := by
  cases o with
  | newRequest ts m salt => exact step_kept_request h hp (Or.inl ⟨ts, m, salt, rfl⟩) hs
  | tryAdmit i n => exact step_kept_request h hp (Or.inr (Or.inl ⟨i, n, rfl⟩)) hs
  | call i c => exact step_kept_call h hp hs
  | dropRequest i => exact step_kept_request h hp (Or.inr (Or.inr ⟨i, rfl⟩)) hs
  | probe ts salt => exact step_kept_probe h hp (Or.inl ⟨ts, salt, rfl⟩) hs
  | includeFinalBlock i => exact step_kept_probe h hp (Or.inr (Or.inl ⟨i, rfl⟩)) hs
  | truncateHeld i n => exact step_kept_probe h hp (Or.inr (Or.inr (Or.inl ⟨i, n, rfl⟩))) hs
  | dropProbe i => exact step_kept_probe h hp (Or.inr (Or.inr (Or.inr ⟨i, rfl⟩))) hs
  | reserve n => exact step_kept_reservation h hp (Or.inl ⟨n, rfl⟩) hs
  | dropReservation i => exact step_kept_reservation h hp (Or.inr (Or.inl ⟨i, rfl⟩)) hs
  | commit i j => exact step_kept_reservation h hp (Or.inr (Or.inr ⟨i, j, rfl⟩)) hs
  | guardAssigned i => exact step_kept_guards h hp (Or.inl ⟨i, rfl⟩) hs
  | dropGuards i => exact step_kept_guards h hp (Or.inr ⟨i, rfl⟩) hs
  | finishDrop ptr => exact step_kept_finishDrop h hp hs

/-! ## Hashes -/

/-- the hash of some token block -/
def IsBlockHash (k : H) : Prop := ∃ salt blockSize tokens, k = BlockHash.blockHash salt blockSize tokens

theorem isBlockHash_all {q : SchedulableSequence H} {k : H} (h : k ∈ q.allSequenceHashes) : IsBlockHash k := by
  simp only [SchedulableSequence.allSequenceHashes, List.mem_map] at h
  obtain ⟨i, -, rfl⟩ := h
  exact ⟨_, _, _, rfl⟩

theorem isBlockHash_assigned {q : SchedulableSequence H} (h : q.Base) {x : ImmutableBlock H} (hx : x ∈ q.assigned) :
    IsBlockHash x.seqHash := by
  have hmem := List.mem_map_of_mem (f := ImmutableBlock.seqHash) hx
  rw [h.hashes] at hmem
  exact isBlockHash_all (List.mem_of_mem_take hmem)

/-- everything handed out is named by the hash of a token block -/
structure Named (w : World H) : Prop where
  size_pos : 0 < w.pool.blockSize
  requests : ∀ e, some e ∈ w.requests → e.seq.Base
  probes : ∀ pr, some pr ∈ w.probes →
    (∀ k ∈ pr.seqHashes, IsBlockHash k) ∧ ∀ x ∈ pr.held, IsBlockHash x.seqHash
  guards : ∀ xs ∈ w.guards, ∀ x ∈ xs, IsBlockHash x.seqHash

theorem mem_of_slot {α : Type} {l : List (Option α)} {i : ℕ} {a : α} (h : l[i]? = some (some a)) : some a ∈ l :=
  List.mem_of_getElem? h

theorem forall_some_set {α : Type} {P : α → Prop} {l : List (Option α)} {i : ℕ} {o : Option α}
    (h : ∀ a, some a ∈ l → P a) (ho : ∀ a, o = some a → P a) : ∀ a, some a ∈ l.set i o → P a := by
  intro a ha
  rcases List.mem_or_eq_of_mem_set ha with ha | ha
  · exact h a ha
  · exact ho a ha.symm

theorem forall_some_concat {α : Type} {P : α → Prop} {l : List (Option α)} {b : α} (h : ∀ a, some a ∈ l → P a)
    (hb : P b) : ∀ a, some a ∈ l ++ [some b] → P a := by
  intro a ha
  rcases List.mem_append.1 ha with ha | ha
  · exact h a ha
  · simp only [List.mem_singleton, Option.some.injEq] at ha
    rw [ha]
    exact hb

theorem step_named {w w' : World H} {o : Op} (h : w.Accounted) (hn : w.Named) (hs : w.step o = .ok w') : w'.Named := by
  cases o with
  | newRequest ts m salt =>
    simp only [step, Except.ok.injEq] at hs
    subst hs
    exact { hn with
      requests := forall_some_concat hn.requests (SchedulableSequence.base_new ts m salt hn.size_pos) }
  | tryAdmit i n =>
    simp only [step] at hs
    split at hs
    · obtain rfl := Except.ok.inj hs
      exact hn
    · rename_i e he
      obtain rfl := Except.ok.inj hs
      have hadm : (e.tryAdmit n w.pool).2.1.seq = e.seq ∧
          (e.tryAdmit n w.pool).2.2.blockSize = w.pool.blockSize := by
        unfold EntitledSeq.tryAdmit
        split_ifs <;> exact ⟨rfl, rfl⟩
      refine ⟨?_, forall_some_set hn.requests ?_, hn.probes, hn.guards⟩
      · simp only [setRequest, hadm.2]
        exact hn.size_pos
      · intro e' he'
        obtain rfl := Option.some.inj he'
        rw [hadm.1]
        exact hn.requests e (mem_of_slot (request_slot he))
  | call i c =>
    simp only [step] at hs
    split at hs
    · obtain rfl := Except.ok.inj hs
      exact hn
    · rename_i e he
      split at hs
      · cases hs
      · rename_i r e' p hreq
        obtain rfl := Except.ok.inj hs
        obtain ⟨hc, -, hsize, -⟩ := request_ok hreq
        refine ⟨?_, forall_some_set hn.requests ?_, hn.probes, hn.guards⟩
        · simp only [setRequest, hsize]
          exact hn.size_pos
        · intro e₁ he₁
          obtain rfl := Option.some.inj he₁
          exact (SchedulableSequence.call_effect hc).base (hn.requests e (mem_of_slot (request_slot he)))
  | dropRequest i =>
    simp only [step] at hs
    split at hs
    · obtain rfl := Except.ok.inj hs
      exact hn
    · rename_i e he
      obtain rfl := Except.ok.inj hs
      have hret : (e.drop w.pool).blockSize = w.pool.blockSize := by
        unfold EntitledSeq.drop EntitledSeq.retire
        split_ifs <;> rfl
      refine ⟨?_, forall_some_set hn.requests (fun a ha => by cases ha), hn.probes, hn.guards⟩
      simp only [setRequest, hret]
      exact hn.size_pos
  | probe ts salt =>
    simp only [step, BlockPool.probePrefix] at hs
    obtain ⟨hits, σ', heq, hm⟩ := matchBlocks_spec
      (SchedulableSequence.new ts 0 w.pool.blockSize salt).allSequenceHashes h
    rw [heq] at hs
    simp only [Except.ok.injEq] at hs
    subst hs
    refine { hn with probes := forall_some_concat hn.probes ⟨fun k hk => isBlockHash_all hk, ?_⟩ }
    intro x hx
    have hmem := List.mem_map_of_mem (f := ImmutableBlock.seqHash) hx
    rw [hm.hashes] at hmem
    exact isBlockHash_all ((List.takeWhile_sublist _).subset hmem)
  | includeFinalBlock i =>
    simp only [step] at hs
    split at hs
    · obtain rfl := Except.ok.inj hs
      exact hn
    · rename_i pr hpr
      obtain rfl := Except.ok.inj hs
      refine { hn with probes := forall_some_set hn.probes ?_ }
      intro pr' hpr'
      obtain rfl := Option.some.inj hpr'
      exact hn.probes pr (mem_of_slot (probe_slot hpr))
  | truncateHeld i n =>
    simp only [step] at hs
    split at hs
    · obtain rfl := Except.ok.inj hs
      exact hn
    · rename_i pr hpr
      obtain rfl := Except.ok.inj hs
      refine { hn with probes := forall_some_set hn.probes ?_ }
      intro pr' hpr'
      obtain rfl := Option.some.inj hpr'
      obtain ⟨h1, h2⟩ := hn.probes pr (mem_of_slot (probe_slot hpr))
      exact ⟨h1, fun x hx => h2 x (List.mem_of_mem_take hx)⟩
  | dropProbe i =>
    simp only [step] at hs
    split at hs
    · obtain rfl := Except.ok.inj hs
      exact hn
    · obtain rfl := Except.ok.inj hs
      exact { hn with probes := forall_some_set hn.probes (fun a ha => by cases ha) }
  | reserve n =>
    simp only [step] at hs
    split at hs
    · cases hs
    · obtain rfl := Except.ok.inj hs
      exact hn
    · rename_i ids p hres
      obtain rfl := Except.ok.inj hs
      obtain ⟨-, -, hsize, -, -⟩ := reserveLoadedBlocks_ok hres
      refine { hn with size_pos := ?_ }
      simp only [hsize]
      exact hn.size_pos
  | dropReservation i =>
    simp only [step] at hs
    split at hs
    · obtain rfl := Except.ok.inj hs
      exact hn
    · obtain rfl := Except.ok.inj hs
      exact { hn with }
  | commit i j =>
    simp only [step] at hs
    split at hs
    · rename_i pr ids hpr hr
      split at hs
      · cases hs
      · rename_i pr' p hcommit
        obtain rfl := Except.ok.inj hs
        unfold BlockPool.commitLoadedBlocks at hcommit
        split at hcommit
        · cases hcommit
        · rename_i xs σ' hxs
          simp only [Except.ok.injEq, Prod.mk.injEq] at hcommit
          obtain ⟨rfl, rfl⟩ := hcommit
          obtain ⟨F, hF, -⟩ := holdings_reservation hr
          unfold Accounted at h
          rw [hF] at h
          obtain ⟨-, -, hhash, -, -⟩ := commitBlocks_spec ids h hxs
          obtain ⟨h1, h2⟩ := hn.probes pr (mem_of_slot (probe_slot hpr))
          refine { hn with probes := forall_some_set hn.probes ?_ }
          intro pr₁ hpr₁
          obtain rfl := Option.some.inj hpr₁
          refine ⟨h1, ?_⟩
          intro x hx
          rcases List.mem_append.1 hx with hx | hx
          · exact h2 x hx
          · have hmem := List.mem_map_of_mem (f := ImmutableBlock.seqHash) hx
            rw [hhash] at hmem
            exact h1 _ (List.mem_of_mem_drop (List.mem_of_mem_take hmem))
    · obtain rfl := Except.ok.inj hs
      exact hn
  | guardAssigned i =>
    simp only [step] at hs
    split at hs
    · obtain rfl := Except.ok.inj hs
      exact hn
    · rename_i e he
      obtain rfl := Except.ok.inj hs
      refine { hn with guards := ?_ }
      intro xs hxs x hx
      rcases List.mem_append.1 hxs with hxs | hxs
      · exact hn.guards xs hxs x hx
      · rw [List.mem_singleton.1 hxs] at hx
        exact isBlockHash_assigned (hn.requests e (mem_of_slot (request_slot he))) hx
  | dropGuards i =>
    simp only [step] at hs
    split at hs
    · obtain rfl := Except.ok.inj hs
      exact hn
    · obtain rfl := Except.ok.inj hs
      exact { hn with guards := forall_mem_set hn.guards (fun x hx => by cases hx) }
  | finishDrop ptr =>
    simp only [step] at hs
    split at hs
    · obtain rfl := Except.ok.inj hs
      exact hn
    · obtain rfl := Except.ok.inj hs
      exact { hn with }

/-! ## A fresh pool -/

/-- what `BlockPool::new` leaves: the padding block registered under the default hash, its guard leaked -/
structure Fresh [Inhabited H] (w : World H) (blockSize numBlocks : ℕ) : Prop where
  accounted : w.Accounted
  padded : w.paddingInner ∈ w.pool.store.inners
  named : w.Named
  paddingId : w.padding.blockId = w.pool.paddingBlockId
  paddingHash : w.padding.seqHash = default
  total : w.pool.store.totalBlocks = numBlocks
  available : w.pool.store.available + 1 = numBlocks
  entitled : w.pool.entitled = 0
  blockSize : w.pool.blockSize = blockSize
  empty : w.requests = [] ∧ w.probes = [] ∧ w.reservations = [] ∧ w.guards = []

theorem new_fresh [Inhabited H] {blockSize numBlocks : ℕ} {w : World H} (h : World.new blockSize numBlocks = .ok w) :
    Fresh w blockSize numBlocks := by
  unfold World.new BlockPool.new at h
  by_cases h2 : numBlocks < 2
  · simp [h2] at h
  by_cases hb : ¬ (0 < blockSize ∧ blockSize &&& (blockSize - 1) = 0 ∧ blockSize ≤ 1024)
  · simp only [h2, if_false, hb] at h
    simp at h
  simp only [h2, if_false, hb] at h
  have hinit := new_inv (H := H) numBlocks false
  have hav : (BlockStore.new numBlocks false : BlockStore H).available = numBlocks := by
    simp [BlockStore.available, BlockStore.new]
  obtain ⟨ids, σ, heq, hlen, hinv, hav₁, hgr₁⟩ := allocateBlocks_spec hinit (n := 1) (by omega)
  obtain ⟨b, rfl⟩ := List.length_eq_one_iff.1 hlen
  -- nothing is registered yet, so the padding block becomes a primary
  have hempty : σ.activeByHash default = none ∧ σ.inactive = [] := by
    have hn : ¬ (BlockStore.new numBlocks false : BlockStore H).available < 1 := by omega
    unfold BlockStore.allocateBlocks BlockStore.allocateAtomic at heq
    rw [if_neg one_ne_zero, if_neg hn] at heq
    simp only [BlockStore.new, List.take_nil, List.all_nil, if_true, Except.ok.injEq, Option.some.injEq,
      Prod.mk.injEq] at heq
    rw [← heq.2]
    exact ⟨rfl, List.drop_nil⟩
  have hreg : (σ.stage b default).registerBlock b default =
      .ok (⟨σ.nextPtr, b, default⟩, (σ.stage b default).newPrimary b default) := by
    simp [BlockStore.registerBlock, BlockStore.acquireForHash, BlockStore.resurrect, BlockStore.stage,
      BlockStore.setSlot, hempty.1, hempty.2]
  rw [heq] at h
  simp only [hreg, Except.ok.injEq] at h
  subst h
  rw [ofMutable_cons, add_assoc] at hinv
  obtain ⟨x, σ', hreg', hspec⟩ := registerBlock_spec (stage_inv (default : H) hinv)
  rw [hreg] at hreg'
  simp only [Except.ok.injEq, Prod.mk.injEq] at hreg'
  obtain ⟨rfl, rfl⟩ := hreg'
  have hzero : (Holdings.ofMutable [] + 0 : Holdings H) = 0 := rfl
  have hacc := hspec.inv
  rw [hzero, add_zero] at hacc
  refine ⟨?_, List.mem_cons_self, ⟨?_, ?_, ?_, ?_⟩, rfl, rfl, ?_, ?_, rfl, rfl, rfl, rfl, rfl, rfl⟩
  · have hsum : (⟨⟨(σ.stage b default).newPrimary b default, blockSize, b, 0⟩, ⟨σ.nextPtr, b, default⟩, [], [], [], []⟩ :
        World H).holdings = (0, 0, {⟨σ.nextPtr, b, default⟩}) := by
      simp [holdings, handedOut, Holdings.ofImmutable]
    unfold Accounted
    rw [hsum]
    exact hacc
  · have := not_not.1 hb
    exact this.1
  · intro e he; cases he
  · intro pr hpr; cases hpr
  · intro xs hxs; cases hxs
  · exact hspec.grows.total.trans hgr₁.total
  · have h1 := hspec.available
    have h2 : (σ.stage b default).available = σ.available := rfl
    have h3 : (σ.stage b default).resurrects (default : H) = 0 := by
      simp [BlockStore.resurrects, BlockStore.hasInactive, BlockStore.stage, BlockStore.setSlot, hempty.2]
    simp only
    omega

end World

end Pegainfer.KvStore
