/-
Leases, reservations and pins of `resolve_prefix`, in every order of settlements, deadlines and cancellations.

While a resolve runs a stretch of its body it holds a probe, a reservation and a lease in local variables: `Running`
says what it holds, and that everybody else's holdings are intact. Each action of a stretch moves one of them; at the
end of the stretch they are the holdings of the next phase.
- `RankInv`: probes and reservations are where their owners expect them, each lease is consumed or owned, once.
- `finish_inv`: whatever led there, the returned prefix pins what it credits.
- `resolve_linear`: the lease, reservation and credit statements for every run.
-/
import Mathlib.Tactic
import Pegainfer.KvStore.Partition
import Pegainfer.KvStore.Resolve

set_option linter.unusedSectionVars false

namespace Pegainfer.KvStore

open Pegainfer.Kvbm Pegainfer.Lib

variable {H : Type} [DecidableEq H] [BlockHash H]

/-! ## The chain of a request -/

namespace Resolve

/-- the hashes of the prompt's complete blocks -/
def chain (r : Resolve H) (blockSize : ℕ) : List H :=
  (SchedulableSequence.new r.promptTokens 0 blockSize r.saltHash).allSequenceHashes

/-- the cacheable cap in blocks -/
def cap (r : Resolve H) (blockSize : ℕ) : ℕ :=
  if r.fullPages then (r.chain blockSize).length else (r.promptTokens.length - 1) / blockSize

/-- a probe before any load: it holds the leading blocks that are on the GPU -/
structure Probed (r : Resolve H) (blockSize : ℕ) (pr : PrefixProbe H) : Prop where
  hashes : pr.seqHashes = r.chain blockSize
  cacheable : pr.cacheable = r.cap blockSize
  held : pr.held.map ImmutableBlock.seqHash = (r.chain blockSize).take pr.held.length
  gpuHit : pr.gpuHit = pr.held.length

theorem Probed.withPhase {r : Resolve H} {blockSize : ℕ} {pr : PrefixProbe H} (h : r.Probed blockSize pr)
    (phase : Phase H) : ({ r with phase := phase } : Resolve H).Probed blockSize pr :=
  ⟨h.hashes, h.cacheable, h.held, h.gpuHit⟩

/-- credit and pins of a returned prefix -/
structure Credited (r : Resolve H) (blockSize : ℕ) (p : KvPrefix H) : Prop where
  parity : p.hitTokens = blockSize * p.held.length
  leading : p.held.map ImmutableBlock.seqHash = (r.chain blockSize).take p.held.length
  capped : p.hitTokens ≤ blockSize * r.cap blockSize

/-- what a phase says of the request -/
def Sound (r : Resolve H) (blockSize : ℕ) : Prop :=
  match r.phase with
  | .fresh => True
  | .looping _ pr | .querying _ pr _ | .paused _ pr | .reserved _ pr _ _ _ | .loading _ pr _ _ => r.Probed blockSize pr
  | .returned p hold => r.Credited blockSize p ∧ ∀ h, hold = some h → h.2.held = p.held

theorem credited_none (r : Resolve H) (blockSize : ℕ) : r.Credited blockSize .none :=
  ⟨rfl, rfl, Nat.zero_le _⟩

end Resolve

namespace RankState

/-! ## Running a stretch -/

/-- the other resolves -/
def others (s : RankState H) (i : ℕ) : List (Resolve H) := s.resolves.eraseIdx i

/-- resolve `i` runs, holding `P`, `R` and `L` -/
structure Running [Inhabited H] (s : RankState H) (numBlocks i : ℕ) (r : Resolve H)
    (P : Multiset (ℕ × PrefixProbe H)) (R : Multiset (ℕ × List BlockId)) (L : Multiset ℕ) : Prop where
  slot : s.resolves[i]? = some r
  reached : s.world.Reached numBlocks
  probes : Holds s.world.probes (P + ((s.others i).map fun r => r.phase.probes).sum)
  reservations : Holds s.world.reservations
    (R + (((s.others i).map fun r => r.phase.reservations).sum + ↑(s.strayLoads.map fun ld => (ld.slot, ld.pages))))
  leases : (↑s.loads + ↑s.releases : Multiset ℕ) + (L + ((s.others i).map fun r => r.phase.leases).sum) =
    Multiset.range s.minted
  sound : ∀ r' ∈ s.resolves, r'.Sound s.world.pool.blockSize

/-- nobody runs -/
structure RankInv [Inhabited H] (s : RankState H) (numBlocks : ℕ) : Prop where
  reached : s.world.Reached numBlocks
  probes : Holds s.world.probes s.probes
  reservations : Holds s.world.reservations s.reservations
  leases : (↑s.loads + ↑s.releases : Multiset ℕ) + s.leases = Multiset.range s.minted
  sound : ∀ r ∈ s.resolves, r.Sound s.world.pool.blockSize

variable [Inhabited H] {s s' : RankState H} {n i : ℕ} {r : Resolve H}
  {P : Multiset (ℕ × PrefixProbe H)} {R : Multiset (ℕ × List BlockId)} {L : Multiset ℕ}

theorem RankInv.run (h : s.RankInv n) (hr : s.resolves[i]? = some r) :
    s.Running n i r r.phase.probes r.phase.reservations r.phase.leases := by
  refine ⟨hr, h.reached, ?_, ?_, ?_, h.sound⟩
  · have := h.probes
    unfold RankState.probes at this
    rw [(sum_map_eraseIdx _ hr).1] at this
    exact this
  · have := h.reservations
    unfold RankState.reservations at this
    rw [(sum_map_eraseIdx _ hr).1, add_assoc] at this
    exact this
  · have := h.leases
    unfold RankState.leases at this
    rw [(sum_map_eraseIdx _ hr).1] at this
    exact this

/-- **End of a stretch.** What the resolve holds is what its next phase owns. -/
theorem Running.rest (phase : Phase H) (h : s.Running n i r phase.probes phase.reservations phase.leases)
    (hs : ({ r with phase := phase } : Resolve H).Sound s.world.pool.blockSize) :
    (s.setPhase i r phase s.world).RankInv n := by
  refine ⟨h.reached, ?_, ?_, ?_, forall_mem_set h.sound hs⟩
  · simp only [setPhase, RankState.probes, (sum_map_eraseIdx _ h.slot).2]
    exact h.probes
  · simp only [setPhase, RankState.reservations, (sum_map_eraseIdx _ h.slot).2, add_assoc]
    exact h.reservations
  · simp only [setPhase, RankState.leases, (sum_map_eraseIdx _ h.slot).2]
    exact h.leases

/-! ## Leases -/

theorem coe_concat {α : Type} (l : List α) (a : α) : (↑(l ++ [a]) : Multiset α) = ↑l + {a} :=
  (Multiset.coe_add l [a]).symm

/-- a lease in hand is released -/
theorem Running.release {l : LeasedBlocks} (h : s.Running n i r P R {l.lease}) : (s.release l).Running n i r P R 0 := by
  refine { h with leases := Eq.trans ?_ h.leases }
  simp only [RankState.release, others, coe_concat, zero_add]
  abel

/-- a lease in hand is consumed by a load -/
theorem Running.load {l : LeasedBlocks} (h : s.Running n i r P R {l.lease}) :
    ({ s with loads := s.loads ++ [l.lease] } : RankState H).Running n i r P R 0 := by
  refine { h with leases := Eq.trans ?_ h.leases }
  simp only [others, coe_concat, zero_add]
  abel

/-- the tier mints a lease for the resolve that asked -/
theorem Running.mint (h : s.Running n i r P R 0) :
    ({ s with minted := s.minted + 1 } : RankState H).Running n i r P R {s.minted} := by
  refine { h with leases := ?_ }
  rw [Multiset.range_succ, ← Multiset.singleton_add, ← h.leases]
  simp only [others, zero_add]
  abel

/-! ## Reservations and probes -/

theorem Running.blockSize {w : World H} {o : Op} (h : s.Running n i r P R L) (hw : s.world.step o = .ok w) :
    w.pool.blockSize = s.world.pool.blockSize :=
  (World.step_kept h.reached.accounted h.reached.padded hw).blockSize

/-- one operation of the running resolve, with what it does to the two tables -/
theorem Running.move {w : World H} {o : Op} {P' : Multiset (ℕ × PrefixProbe H)} {R' : Multiset (ℕ × List BlockId)}
    (h : s.Running n i r P R L) (hw : s.world.step o = .ok w)
    (hp : Holds w.probes (P' + ((s.others i).map fun r => r.phase.probes).sum))
    (hr : Holds w.reservations (R' + (((s.others i).map fun r => r.phase.reservations).sum +
      ↑(s.strayLoads.map fun ld => (ld.slot, ld.pages))))) :
    ({ s with world := w } : RankState H).Running n i r P' R' L where
  slot := h.slot
  reached := World.step_reached h.reached hw
  probes := hp
  reservations := hr
  leases := h.leases
  sound := by
    simp only [h.blockSize hw]
    exact h.sound

theorem Running.dropReservation {w : World H} {j : ℕ} {pages : List BlockId} (h : s.Running n i r P {(j, pages)} L)
    (hw : s.world.step (.dropReservation j) = .ok w) :
    ({ s with world := w } : RankState H).Running n i r P 0 L := by
  have hres := h.reservations
  rw [Multiset.singleton_add] at hres
  have hget : s.world.reservation? j = some pages := Option.join_eq_some_iff.2 hres.get
  have hw' := hw
  simp only [World.step, hget, Except.ok.injEq] at hw'
  refine h.move hw ?_ ?_
  · rw [← hw']
    exact h.probes
  · rw [← hw', zero_add]
    exact hres.drop none

theorem Running.dropProbe {w : World H} {k : ℕ} {pr : PrefixProbe H} (h : s.Running n i r {(k, pr)} R L)
    (hw : s.world.step (.dropProbe k) = .ok w) : ({ s with world := w } : RankState H).Running n i r 0 R L := by
  have hpr := h.probes
  rw [Multiset.singleton_add] at hpr
  have hget : s.world.probe? k = some pr := Option.join_eq_some_iff.2 hpr.get
  have hw' := hw
  simp only [World.step, hget, Except.ok.injEq] at hw'
  refine h.move hw ?_ ?_
  · rw [← hw', zero_add]
    exact hpr.drop none
  · rw [← hw']
    exact h.reservations

theorem Running.truncateHeld {w : World H} {k m : ℕ} {pr : PrefixProbe H} (h : s.Running n i r {(k, pr)} R L)
    (hw : s.world.step (.truncateHeld k m) = .ok w) :
    ({ s with world := w } : RankState H).Running n i r {(k, { pr with held := pr.held.take m })} R L := by
  have hpr := h.probes
  rw [Multiset.singleton_add] at hpr
  have hget : s.world.probe? k = some pr := Option.join_eq_some_iff.2 hpr.get
  have hw' := hw
  simp only [World.step, hget, Except.ok.injEq] at hw'
  refine h.move hw ?_ ?_
  · rw [← hw', Multiset.singleton_add]
    exact hpr.change _
  · rw [← hw']
    exact h.reservations

theorem Running.includeFinalBlock {w : World H} {k : ℕ} {pr : PrefixProbe H} (h : s.Running n i r {(k, pr)} R L)
    (hw : s.world.step (.includeFinalBlock k) = .ok w) :
    ({ s with world := w } : RankState H).Running n i r {(k, { pr with cacheable := pr.seqHashes.length })} R L := by
  have hpr := h.probes
  rw [Multiset.singleton_add] at hpr
  have hget : s.world.probe? k = some pr := Option.join_eq_some_iff.2 hpr.get
  have hw' := hw
  simp only [World.step, hget, Except.ok.injEq] at hw'
  refine h.move hw ?_ ?_
  · rw [← hw', Multiset.singleton_add]
    exact hpr.change _
  · rw [← hw']
    exact h.reservations

/-- a fresh probe holds the leading blocks of the chain that are registered -/
theorem Running.probe {w : World H} (h : s.Running n i r 0 R L)
    (hw : s.world.step (.probe r.promptTokens r.saltHash) = .ok w) :
    ∃ pr : PrefixProbe H, ({ s with world := w } : RankState H).Running n i r {(s.world.probes.length, pr)} R L ∧
      pr.seqHashes = r.chain s.world.pool.blockSize ∧
      pr.cacheable = (r.promptTokens.length - 1) / s.world.pool.blockSize ∧
      pr.held.map ImmutableBlock.seqHash = (r.chain s.world.pool.blockSize).take pr.held.length ∧
      pr.gpuHit = pr.held.length := by
  obtain ⟨hits, σ', heq, hm⟩ := matchBlocks_spec (r.chain s.world.pool.blockSize) h.reached.accounted
  unfold Resolve.chain at heq
  have hw' := hw
  simp only [World.step, BlockPool.probePrefix, heq, Except.ok.injEq] at hw'
  refine ⟨⟨r.chain s.world.pool.blockSize, hits.length, (r.promptTokens.length - 1) / s.world.pool.blockSize, hits⟩,
    h.move hw ?_ ?_, rfl, rfl, ?_, rfl⟩
  · have hpr := h.probes
    rw [zero_add] at hpr
    rw [← hw', Multiset.singleton_add]
    exact hpr.take _
  · rw [← hw']
    exact h.reservations
  · have hlen := congrArg List.length hm.hashes
    rw [List.length_map] at hlen
    rw [hm.hashes]
    simp only
    rw [hlen]
    exact (List.prefix_iff_eq_take.1 (List.takeWhile_prefix _))

/-- the pool spares the destination blocks, or nothing changes -/
theorem Running.reserve {w : World H} {m : ℕ} (h : s.Running n i r P 0 L)
    (hw : s.world.step (.reserve m) = .ok w) :
    (w = s.world ∧ w.reservation? s.world.reservations.length = none) ∨
      ∃ pages, w.reservation? s.world.reservations.length = some pages ∧
        ({ s with world := w } : RankState H).Running n i r P {(s.world.reservations.length, pages)} L := by
  have hw' := hw
  simp only [World.step] at hw'
  split at hw'
  · cases hw'
  · left
    obtain rfl := Except.ok.inj hw'
    exact ⟨rfl, by simp [World.reservation?]⟩
  · rename_i ids p hres
    have hw' := Except.ok.inj hw'
    refine Or.inr ⟨ids, by simp [World.reservation?, ← hw'], h.move hw ?_ ?_⟩
    · rw [← hw']
      exact h.probes
    · have hr := h.reservations
      rw [zero_add] at hr
      rw [← hw', Multiset.singleton_add]
      exact hr.take _

/-- the loaded blocks continue the held ones along the chain -/
theorem Running.commit {w : World H} {k j : ℕ} {pr : PrefixProbe H} {pages : List BlockId}
    (h : s.Running n i r {(k, pr)} {(j, pages)} L) (hpr : r.Probed s.world.pool.blockSize pr)
    (hw : s.world.step (.commit k j) = .ok w) :
    ∃ pr' : PrefixProbe H, w.probe? k = some pr' ∧
      ({ s with world := w } : RankState H).Running n i r {(k, pr')} 0 L ∧ pr'.cacheable = pr.cacheable ∧
      pr'.held.map ImmutableBlock.seqHash = (r.chain s.world.pool.blockSize).take pr'.held.length := by
  have hp := h.probes
  have hr := h.reservations
  rw [Multiset.singleton_add] at hp hr
  have hgetp : s.world.probe? k = some pr := Option.join_eq_some_iff.2 hp.get
  have hgetr : s.world.reservation? j = some pages := Option.join_eq_some_iff.2 hr.get
  obtain ⟨F, hF, -⟩ := World.holdings_reservation hgetr
  have hacc := h.reached.accounted
  unfold World.Accounted at hacc
  rw [hF] at hacc
  have hw' := hw
  simp only [World.step, hgetp, hgetr, BlockPool.commitLoadedBlocks] at hw'
  split at hw'
  · cases hw'
  · rename_i pr' p hc
    have hw' := Except.ok.inj hw'
    split at hc
    · cases hc
    · rename_i xs σ' hxs
      simp only [Except.ok.injEq, Prod.mk.injEq] at hc
      obtain ⟨-, -, hhash, hlen, -⟩ := World.commitBlocks_spec pages hacc hxs
      have hget : w.probe? k = some pr' := by
        rw [← hw']
        exact Option.join_eq_some_iff.2 (hp.change pr').get
      refine ⟨pr', hget, h.move hw ?_ ?_, by rw [← hc.1], ?_⟩
      · rw [← hw', Multiset.singleton_add]
        exact hp.change _
      · rw [← hw', zero_add]
        exact hr.drop none
      · rw [← hc.1]
        simp only [List.map_append, List.length_append]
        rw [hhash, hpr.held, hpr.hashes, hpr.gpuHit, hlen, List.take_add]

/-! ## Returning -/

theorem Running.giveUp {k : ℕ} {pr : PrefixProbe H} (h : s.Running n i r {(k, pr)} 0 0)
    (hs : s.giveUp i r k = .ok s') : s'.RankInv n := by
  unfold RankState.giveUp at hs
  split at hs
  · cases hs
  · rename_i w hw
    obtain rfl := Except.ok.inj hs
    exact (h.dropProbe hw).rest (.returned .none none)
      ⟨Resolve.credited_none _ _, fun _ hh => by cases hh⟩

/-- **Credit and pins.** Whatever path led to the return, the hold pins what is credited. -/
theorem Running.finish {k : ℕ} {pr : PrefixProbe H} (h : s.Running n i r {(k, pr)} 0 0)
    (hcap : pr.cacheable = r.cap s.world.pool.blockSize)
    (hheld : pr.held.map ImmutableBlock.seqHash = (r.chain s.world.pool.blockSize).take pr.held.length)
    (hs : s.finish i r k pr = .ok s') : s'.RankInv n := by
  unfold RankState.finish at hs
  simp only at hs
  split_ifs at hs with hzero
  · exact h.giveUp hs
  · split at hs
    · cases hs
    · rename_i w hw
      obtain rfl := Except.ok.inj hs
      have hsize := h.blockSize hw
      refine (h.truncateHeld hw).rest (.returned ⟨_, _⟩ (some (k, _))) ⟨⟨?_, ?_, ?_⟩, ?_⟩
      · simp only [hsize, List.length_take]
        rw [min_eq_left (min_le_left _ _), Nat.mul_comm]
      · have hchain : ∀ ph : Phase H, ({ r with phase := ph } : Resolve H).chain w.pool.blockSize =
            r.chain s.world.pool.blockSize := by
          intro ph
          rw [hsize]
          rfl
        rw [hchain, List.map_take, hheld, List.take_take, List.length_take, min_eq_left (min_le_left _ _)]
      · simp only [hsize]
        rw [Nat.mul_comm]
        exact Nat.mul_le_mul_left _ ((min_le_right _ _).trans hcap.le)
      · rintro _ ⟨⟩
        rfl

theorem Running.finishProbed {k : ℕ} {pr : PrefixProbe H} (h : s.Running n i r {(k, pr)} 0 0)
    (hpr : r.Probed s.world.pool.blockSize pr) (hs : s.finish i r k pr = .ok s') : s'.RankInv n :=
  h.finish hpr.cacheable hpr.held hs

theorem Running.retry {k : ℕ} {pr : PrefixProbe H} {late : Bool} (h : s.Running n i r {(k, pr)} 0 0)
    (hpr : r.Probed s.world.pool.blockSize pr) (hs : s.retry i r k pr late = .ok s') : s'.RankInv n := by
  unfold RankState.retry at hs
  split_ifs at hs with hlate
  · exact h.finishProbed hpr hs
  · obtain rfl := Except.ok.inj hs
    exact h.rest (.paused k pr) (hpr.withPhase _)

/-! ## The stretches -/

theorem start_inv (h : s.Running n i r 0 0 0) (c : Bool) (hs : s.start i r c = .ok s') : s'.RankInv n := by
  cases c with
  | true =>
    simp only [RankState.start, if_true, Except.ok.injEq] at hs
    rw [← hs]
    exact h.rest (.returned .none none) ⟨Resolve.credited_none _ _, fun _ hh => by cases hh⟩
  | false =>
    simp only [RankState.start, Bool.false_eq_true, if_false] at hs
    split at hs
    · cases hs
    · rename_i w₁ hw₁
      obtain ⟨pr, hrun, hhash, hcap, hheld, hgpu⟩ := h.probe hw₁
      have hsize₁ := h.blockSize hw₁
      split at hs
      · cases hs
      · rename_i w₂ hw₂
        -- with or without the lifted cap, the probe is the chain's
        have hstep : ∃ pr', ({ s with world := w₂ } : RankState H).Running n i r {(s.world.probes.length, pr')} 0 0 ∧
            r.Probed w₂.pool.blockSize pr' := by
          by_cases hfull : r.fullPages = true
          · rw [if_pos hfull] at hw₂
            have hrun₂ := hrun.includeFinalBlock hw₂
            refine ⟨_, hrun₂, ?_⟩
            rw [hrun.blockSize hw₂, hsize₁]
            exact ⟨hhash, by simp [Resolve.cap, hfull, hhash], hheld, hgpu⟩
          · rw [if_neg hfull] at hw₂
            obtain rfl := Except.ok.inj hw₂
            refine ⟨pr, hrun, ?_⟩
            rw [hsize₁]
            exact ⟨hhash, by simp [Resolve.cap, hfull, hcap], hheld, hgpu⟩
        obtain ⟨pr', hrun', hpr'⟩ := hstep
        have hget : w₂.probe? s.world.probes.length = some pr' := by
          have := hrun'.probes
          rw [Multiset.singleton_add] at this
          exact Option.join_eq_some_iff.2 this.get
        rw [hget] at hs
        simp only at hs
        split_ifs at hs with htier
        · obtain rfl := Except.ok.inj hs
          exact hrun'.rest (.looping _ pr') (hpr'.withPhase _)
        · exact hrun'.finishProbed hpr' hs

theorem resumeQuery_inv {k : ℕ} {pr : PrefixProbe H} {late : Bool} {o : QueryOutcome}
    (h : s.Running n i r {(k, pr)} 0 (Phase.querying k pr (some o)).leases)
    (hpr : r.Probed s.world.pool.blockSize pr) (hs : s.resumeQuery i r k pr late o = .ok s') : s'.RankInv n := by
  cases o with
  | failed => exact h.finishProbed hpr hs
  | miss =>
    simp only [resumeQuery] at hs
    split_ifs at hs with hwait
    · exact h.retry hpr hs
    · exact h.finishProbed hpr hs
  | loading => exact h.retry hpr hs
  | hit l =>
    simp only [resumeQuery] at hs
    split at hs
    · cases hs
    · rename_i w hw
      rcases h.reserve hw with ⟨rfl, hnone⟩ | ⟨pages, hsome, hrun⟩
      · rw [hnone] at hs
        exact h.release.retry hpr hs
      · rw [hsome] at hs
        obtain rfl := Except.ok.inj hs
        refine hrun.rest (.reserved k pr l _ pages) (Resolve.Probed.withPhase ?_ _)
        rw [show ({ s with world := w } : RankState H).world.pool.blockSize = s.world.pool.blockSize from h.blockSize hw]
        exact hpr

theorem abandonQuery_run {k : ℕ} {pr : PrefixProbe H} {o : Option QueryOutcome}
    (h : s.Running n i r {(k, pr)} 0 (Phase.querying k pr o).leases) :
    (s.abandonQuery o).Running n i r {(k, pr)} 0 0 := by
  rcases o with _ | _ | _ | l | _
  · exact { h with }
  · exact h
  · exact h
  · exact h.release
  · exact h

/-- a load given up after it returned drops its pages -/
theorem abandonLoad_returned {ld : Load} {result : LoadResult} (hne : result ≠ .panicked)
    (hs : s.abandonLoad ld (some result) = .ok s') :
    ∃ w, s.world.step (.dropReservation ld.slot) = .ok w ∧ s' = { s with world := w } := by
  cases result with
  | panicked => exact absurd rfl hne
  | landed | failed =>
    simp only [RankState.abandonLoad] at hs
    cases hw : s.world.step (.dropReservation ld.slot) with
    | error e =>
      rw [hw] at hs
      cases hs
    | ok w =>
      rw [hw] at hs
      exact ⟨w, rfl, (Except.ok.inj hs).symm⟩

theorem abandonLoad_run {k : ℕ} {pr : PrefixProbe H} {ld : Load} {o : Option LoadResult}
    (h : s.Running n i r {(k, pr)} (Phase.loading k pr ld o).reservations 0) (hs : s.abandonLoad ld o = .ok s') :
    s'.Running n i r {(k, pr)} 0 0 ∧ s'.world.pool.blockSize = s.world.pool.blockSize := by
  have hdrop : ∀ result, o = some result → result ≠ .panicked →
      s'.Running n i r {(k, pr)} 0 0 ∧ s'.world.pool.blockSize = s.world.pool.blockSize := by
    rintro result rfl hne
    obtain ⟨w, hw, rfl⟩ := abandonLoad_returned hne hs
    simp only [Phase.reservations, Option.some.injEq, hne, if_false] at h
    exact ⟨h.dropReservation hw, h.blockSize hw⟩
  rcases o with _ | _ | _ | _
  · obtain rfl := Except.ok.inj hs
    refine ⟨{ h with reservations := ?_ }, rfl⟩
    have howns : (Phase.loading k pr ld none).reservations = {(ld.slot, ld.pages)} := rfl
    have hres := h.reservations
    rw [howns, add_comm, add_assoc] at hres
    simp only [others, List.map_append, List.map_singleton, coe_concat, zero_add]
    exact hres
  · exact hdrop .landed rfl (by decide)
  · exact hdrop .failed rfl (by decide)
  · obtain rfl := Except.ok.inj hs
    exact ⟨h, rfl⟩

theorem launch_inv {k j : ℕ} {pr : PrefixProbe H} {l : LeasedBlocks} {pages : List BlockId} {c : Bool}
    (h : s.Running n i r {(k, pr)} {(j, pages)} {l.lease}) (hpr : r.Probed s.world.pool.blockSize pr)
    (hs : s.launch i r k pr l j pages c = .ok s') : s'.RankInv n := by
  unfold RankState.launch at hs
  split at hs
  · split at hs
    · cases hs
    · rename_i w hw
      exact (h.dropReservation hw).release.giveUp hs
  · obtain rfl := Except.ok.inj hs
    exact h.load.rest (.loading k pr ⟨l.lease, j, pages⟩ none) (hpr.withPhase _)

theorem settleLoad_inv {k : ℕ} {pr : PrefixProbe H} {ld : Load} {result : LoadResult}
    (h : s.Running n i r {(k, pr)} {(ld.slot, ld.pages)} 0) (hpr : r.Probed s.world.pool.blockSize pr)
    (hs : s.settleLoad i r k pr ld result = .ok s') : s'.RankInv n := by
  cases result with
  | panicked =>
    simp only [RankState.settleLoad] at hs
    split at hs
    · cases hs
    · rename_i w hw
      obtain rfl := Except.ok.inj hs
      refine (h.dropReservation hw).rest (.loading k pr ld (some .panicked)) (Resolve.Probed.withPhase ?_ _)
      rw [show ({ s with world := w } : RankState H).world.pool.blockSize = s.world.pool.blockSize from h.blockSize hw]
      exact hpr
  | landed =>
    obtain rfl := Except.ok.inj hs
    exact h.rest (.loading k pr ld (some .landed)) (hpr.withPhase _)
  | failed =>
    obtain rfl := Except.ok.inj hs
    exact h.rest (.loading k pr ld (some .failed)) (hpr.withPhase _)

theorem resumeLoad_inv {k : ℕ} {pr : PrefixProbe H} {ld : Load} {result : LoadResult}
    (h : s.Running n i r {(k, pr)} (Phase.loading k pr ld (some result)).reservations 0)
    (hpr : r.Probed s.world.pool.blockSize pr) (hs : s.resumeLoad i r k pr ld result = .ok s') : s'.RankInv n := by
  cases result with
  | landed =>
    simp only [RankState.resumeLoad] at hs
    split at hs
    · cases hs
    · rename_i w hw
      obtain ⟨pr', hget, hrun, hcap, hheld⟩ := Running.commit h hpr hw
      have hsize := h.blockSize hw
      rw [hget] at hs
      refine hrun.finish ?_ ?_ hs
      · rw [hcap, hpr.cacheable]
        simp only [hsize]
      · simp only [hsize]
        exact hheld
  | failed =>
    simp only [RankState.resumeLoad] at hs
    split at hs
    · cases hs
    · rename_i w hw
      have hsize := h.blockSize hw
      refine (Running.dropReservation h hw).finishProbed ?_ hs
      simp only [hsize]
      exact hpr
  | panicked => exact h.finishProbed hpr hs

/-- **One step of a resolve.** -/
theorem resolveStep_inv {e : Event} (h : s.RankInv n) (hr : s.resolves[i]? = some r)
    (hs : s.resolveStep i r e = .ok s') : s'.RankInv n := by
  have hrun := h.run hr
  have hsound := h.sound r (List.mem_of_getElem? hr)
  obtain ⟨tokens, salt, fullPages, waitFull, phase⟩ := r
  cases e with
  | start c =>
    cases phase with
    | fresh => exact start_inv hrun c hs
    | _ => exact Except.ok.inj hs ▸ h
  | poll c =>
    cases phase with
    | looping k pr =>
      simp only [resolveStep, RankState.poll] at hs
      split_ifs at hs with hc
      · exact Running.giveUp hrun hs
      · obtain rfl := Except.ok.inj hs
        exact Running.rest (.querying k pr none) hrun (hsound.withPhase _)
    | _ => exact Except.ok.inj hs ▸ h
  | settleQuery a =>
    cases phase with
    | querying k pr o =>
      cases o with
      | none =>
        obtain rfl := Except.ok.inj hs
        cases a with
        | miss => exact Running.rest (.querying k pr (some .miss)) hrun (hsound.withPhase _)
        | loading => exact Running.rest (.querying k pr (some .loading)) hrun (hsound.withPhase _)
        | failed => exact Running.rest (.querying k pr (some .failed)) hrun (hsound.withPhase _)
        | hit m =>
          exact Running.rest (.querying k pr (some (.hit ⟨s.minted, m⟩))) (Running.mint hrun) (hsound.withPhase _)
      | some o => exact Except.ok.inj hs ▸ h
    | _ => exact Except.ok.inj hs ▸ h
  | resumeQuery late =>
    cases phase with
    | querying k pr o =>
      cases o with
      | none => exact Except.ok.inj hs ▸ h
      | some o => exact resumeQuery_inv hrun hsound hs
    | _ => exact Except.ok.inj hs ▸ h
  | timeoutQuery =>
    cases phase with
    | querying k pr o =>
      refine (abandonQuery_run hrun).finishProbed ?_ hs
      rcases o with _ | _ | _ | l | _ <;> exact hsound
    | _ => exact Except.ok.inj hs ▸ h
  | wake =>
    cases phase with
    | paused k pr =>
      obtain rfl := Except.ok.inj hs
      exact Running.rest (.looping k pr) hrun (hsound.withPhase _)
    | _ => exact Except.ok.inj hs ▸ h
  | launch c =>
    cases phase with
    | reserved k pr l j pages => exact launch_inv hrun hsound hs
    | _ => exact Except.ok.inj hs ▸ h
  | settleLoad result =>
    cases phase with
    | loading k pr ld o =>
      cases o with
      | none => exact settleLoad_inv hrun hsound hs
      | some o => exact Except.ok.inj hs ▸ h
    | _ => exact Except.ok.inj hs ▸ h
  | resumeLoad =>
    cases phase with
    | loading k pr ld o =>
      cases o with
      | none => exact Except.ok.inj hs ▸ h
      | some o => exact resumeLoad_inv hrun hsound hs
    | _ => exact Except.ok.inj hs ▸ h
  | timeoutLoad =>
    cases phase with
    | loading k pr ld o =>
      simp only [resolveStep] at hs
      split at hs
      · cases hs
      · rename_i s₁ hs₁
        obtain ⟨hrun₁, hsize⟩ := abandonLoad_run hrun hs₁
        refine hrun₁.finishProbed ?_ hs
        rw [hsize]
        exact hsound
    | _ => exact Except.ok.inj hs ▸ h
  | abort =>
    cases phase with
    | fresh =>
      obtain rfl := Except.ok.inj hs
      exact Running.rest (.returned .none none) hrun ⟨Resolve.credited_none _ _, fun _ hh => by cases hh⟩
    | querying k pr o => exact (abandonQuery_run hrun).giveUp hs
    | paused k pr => exact Running.giveUp hrun hs
    | loading k pr ld o =>
      simp only [resolveStep] at hs
      split at hs
      · cases hs
      · rename_i s₁ hs₁
        exact (abandonLoad_run hrun hs₁).1.giveUp hs
    | _ => exact Except.ok.inj hs ▸ h
  | dropPrefix =>
    cases phase with
    | returned p hold =>
      cases hold with
      | none => exact Except.ok.inj hs ▸ h
      | some hold =>
        obtain ⟨k, pr⟩ := hold
        simp only [resolveStep] at hs
        split at hs
        · cases hs
        · rename_i w hw
          obtain rfl := Except.ok.inj hs
          refine (Running.dropProbe hrun hw).rest (.returned p none) ⟨?_, fun _ hh => by cases hh⟩
          rw [show ({ s with world := w } : RankState H).world.pool.blockSize = s.world.pool.blockSize from
            hrun.blockSize hw]
          exact ⟨hsound.1.parity, hsound.1.leading, hsound.1.capped⟩
    | _ => exact Except.ok.inj hs ▸ h

/-! ## Everybody else -/

/-- an operation that names no held probe leaves the held ones alone, and likewise the reservations -/
theorem holds_foreign {w w' : World H} {o : Op} {mp : Multiset (ℕ × PrefixProbe H)}
    {mr : Multiset (ℕ × List BlockId)} (hp : Holds w.probes mp) (hr : Holds w.reservations mr)
    (hfp : ∀ k ∈ opProbes o, k ∉ mp.map Prod.fst) (hfr : ∀ j ∈ opReservations o, j ∉ mr.map Prod.fst)
    (hs : w.step o = .ok w') : Holds w'.probes mp ∧ Holds w'.reservations mr := by
  cases o with
  | newRequest ts m salt =>
    obtain rfl := Except.ok.inj hs
    exact ⟨hp, hr⟩
  | call i c =>
    simp only [World.step] at hs
    split at hs
    · exact Except.ok.inj hs ▸ ⟨hp, hr⟩
    · split at hs
      · cases hs
      · exact Except.ok.inj hs ▸ ⟨hp, hr⟩
  | probe ts salt =>
    simp only [World.step] at hs
    split at hs
    · cases hs
    · exact Except.ok.inj hs ▸ ⟨hp.concat _, hr⟩
  | includeFinalBlock k =>
    simp only [World.step] at hs
    split at hs
    · exact Except.ok.inj hs ▸ ⟨hp, hr⟩
    · exact Except.ok.inj hs ▸ ⟨hp.set_other (hfp k (by simp [opProbes])) _, hr⟩
  | truncateHeld k m =>
    simp only [World.step] at hs
    split at hs
    · exact Except.ok.inj hs ▸ ⟨hp, hr⟩
    · exact Except.ok.inj hs ▸ ⟨hp.set_other (hfp k (by simp [opProbes])) _, hr⟩
  | dropProbe k =>
    simp only [World.step] at hs
    split at hs
    · exact Except.ok.inj hs ▸ ⟨hp, hr⟩
    · exact Except.ok.inj hs ▸ ⟨hp.set_other (hfp k (by simp [opProbes])) _, hr⟩
  | reserve m =>
    simp only [World.step] at hs
    split at hs
    · cases hs
    · exact Except.ok.inj hs ▸ ⟨hp, hr⟩
    · exact Except.ok.inj hs ▸ ⟨hp, hr.concat _⟩
  | dropReservation j =>
    simp only [World.step] at hs
    split at hs
    · exact Except.ok.inj hs ▸ ⟨hp, hr⟩
    · exact Except.ok.inj hs ▸ ⟨hp, hr.set_other (hfr j (by simp [opReservations])) _⟩
  | commit k j =>
    simp only [World.step] at hs
    split at hs
    · split at hs
      · cases hs
      · exact Except.ok.inj hs ▸ ⟨hp.set_other (hfp k (by simp [opProbes])) _,
          hr.set_other (hfr j (by simp [opReservations])) _⟩
    · exact Except.ok.inj hs ▸ ⟨hp, hr⟩
  | _ =>
    simp only [World.step] at hs
    split at hs <;> exact Except.ok.inj hs ▸ ⟨hp, hr⟩

theorem pool_inv {o : Op} (h : s.RankInv n) (hs : s.step (.pool o) = .ok s') : s'.RankInv n := by
  simp only [step] at hs
  split_ifs at hs with hf
  · split at hs
    · cases hs
    · rename_i w hw
      obtain rfl := Except.ok.inj hs
      obtain ⟨hp, hr⟩ := holds_foreign h.probes h.reservations hf.1 hf.2 hw
      refine ⟨World.step_reached h.reached hw, hp, hr, h.leases, ?_⟩
      simp only [(World.step_kept h.reached.accounted h.reached.padded hw).blockSize]
      exact h.sound
  · exact Except.ok.inj hs ▸ h

theorem settleStrayQuery_inv (h : s.RankInv n) (a : TierQuery) : (s.settleStrayQuery a).RankInv n := by
  cases a with
  | hit m =>
    refine { h with leases := ?_ }
    have hl := h.leases
    simp only [settleStrayQuery, RankState.release, RankState.leases, coe_concat] at hl ⊢
    rw [Multiset.range_succ, ← Multiset.singleton_add, ← hl]
    abel
  | _ => exact { h with }

theorem settleStrayLoad_inv {m : ℕ} {ld : Load} (h : s.RankInv n) (hld : s.strayLoads[m]? = some ld)
    (hs : s.settleStrayLoad m ld = .ok s') : s'.RankInv n := by
  unfold RankState.settleStrayLoad at hs
  split at hs
  · cases hs
  · rename_i w hw
    obtain rfl := Except.ok.inj hs
    have hsplit : (↑(s.strayLoads.map fun ld => (ld.slot, ld.pages)) : Multiset (ℕ × List BlockId)) =
        {(ld.slot, ld.pages)} + ↑((s.strayLoads.eraseIdx m).map fun ld => (ld.slot, ld.pages)) := by
      obtain ⟨hm, hget⟩ := List.getElem?_eq_some_iff.1 hld
      have hperm := List.getElem_cons_eraseIdx_perm hm
      rw [hget] at hperm
      rw [Multiset.singleton_add, Multiset.cons_coe]
      exact Multiset.coe_eq_coe.2 (hperm.map _).symm
    have hres := h.reservations
    unfold RankState.reservations at hres
    rw [hsplit, add_left_comm, Multiset.singleton_add] at hres
    have hget : s.world.reservation? ld.slot = some ld.pages := Option.join_eq_some_iff.2 hres.get
    have hw' := hw
    simp only [World.step, hget, Except.ok.injEq] at hw'
    refine ⟨World.step_reached h.reached hw, ?_, ?_, h.leases, ?_⟩
    · rw [← hw']
      exact h.probes
    · rw [← hw']
      exact hres.drop none
    · simp only [(World.step_kept h.reached.accounted h.reached.padded hw).blockSize]
      exact h.sound

theorem step_inv {a : Act} (h : s.RankInv n) (hs : s.step a = .ok s') : s'.RankInv n := by
  cases a with
  | pool o => exact pool_inv h hs
  | resolve tokens salt fullPages waitForFullHit =>
    obtain rfl := Except.ok.inj hs
    refine ⟨h.reached, ?_, ?_, ?_, ?_⟩
    · simp only [RankState.probes, sum_map_concat, Phase.probes, zero_add]
      exact h.probes
    · simp only [RankState.reservations, sum_map_concat, Phase.reservations, zero_add]
      exact h.reservations
    · simp only [RankState.leases, sum_map_concat, Phase.leases, zero_add]
      exact h.leases
    · intro r hr
      rcases List.mem_append.1 hr with hr | hr
      · exact h.sound r hr
      · rw [List.mem_singleton.1 hr]
        trivial
  | settleStrayQuery a =>
    simp only [step, Except.ok.injEq] at hs
    rw [← hs]
    split_ifs
    · exact h
    · exact settleStrayQuery_inv h a
  | settleStrayLoad m =>
    simp only [step] at hs
    split at hs
    · exact Except.ok.inj hs ▸ h
    · rename_i ld hld
      exact settleStrayLoad_inv h hld hs
  | on i e =>
    simp only [step] at hs
    split at hs
    · exact Except.ok.inj hs ▸ h
    · rename_i r hr
      exact resolveStep_inv h hr hs

/-! ## Main result -/

theorem run_inv {blockSize : ℕ} {w₀ : World H} {tier : Bool} {acts : List Act}
    (hn : World.new blockSize n = .ok w₀) (hr : run step (init w₀ tier) acts = .ok s) : s.RankInv n := by
  refine run_invariant (I := fun _ s => s.RankInv n) (init w₀ tier) ?_ ?_ acts s (stepsMeet_true _ acts) hr
  · exact ⟨World.run_reached hn (run_nil w₀), .nil, .nil, rfl, fun r hr => by cases hr⟩
  · intro _ s a s' h _ hs
    exact step_inv h hs

/-- a load's destination blocks are in its reservation, out of the pool's lists -/
theorem RankInv.destination (h : s.RankInv n) {ld : Load} (hld : (ld.slot, ld.pages) ∈ s.reservations) :
    s.world.reservation? ld.slot = some ld.pages ∧
      ∀ b ∈ ld.pages, b ∉ s.world.pool.store.free ∧ b ∉ s.world.pool.store.inactive.map Prod.snd := by
  have hget : s.world.reservation? ld.slot = some ld.pages :=
    Option.join_eq_some_iff.2 (h.reservations.entry _ hld)
  refine ⟨hget, ?_⟩
  intro b hb
  have hacc := h.reached.accounted
  obtain ⟨F, hF, -⟩ := World.holdings_reservation hget
  have hmem : b ∈ s.world.holdings.1 := by
    rw [hF]
    exact Multiset.mem_add.2 (Or.inl hb)
  have hslot := (hacc.slots.mutable_iff b).1 hmem
  exact ⟨by simp [hacc.slots.free_iff, hslot], by simp [World.mem_inactive_iff hacc, hslot]⟩

theorem mem_reservations {ld : Load} (h : ld ∈ s.inFlight) : (ld.slot, ld.pages) ∈ s.reservations := by
  rcases List.mem_append.1 h with h | h
  · obtain ⟨r, hr, hld⟩ := List.mem_flatMap.1 h
    obtain ⟨i, hi⟩ := List.mem_iff_getElem?.1 hr
    have howns : (ld.slot, ld.pages) ∈ r.phase.reservations := by
      cases hph : r.phase with
      | loading k pr ld' o =>
        cases o with
        | none =>
          rw [hph] at hld
          obtain rfl := List.mem_singleton.1 hld
          exact Multiset.mem_singleton_self _
        | some o => simp [hph, Phase.inFlight] at hld
      | _ => simp [hph, Phase.inFlight] at hld
    unfold RankState.reservations
    rw [(sum_map_eraseIdx _ hi).1]
    exact Multiset.mem_add.2 (Or.inl (Multiset.mem_add.2 (Or.inl howns)))
  · exact Multiset.mem_add.2 (Or.inr (Multiset.mem_coe.2 (List.mem_map.2 ⟨ld, h, rfl⟩)))

theorem RankInv.lease_count (h : s.RankInv n) (lease : ℕ) :
    s.loads.count lease + s.releases.count lease + s.leases.count lease = if lease < s.minted then 1 else 0 := by
  have hcount := congrArg (Multiset.count lease) h.leases
  rw [Multiset.count_add, Multiset.count_add, Multiset.coe_count, Multiset.coe_count] at hcount
  rw [hcount]
  split_ifs with hlt
  · exact Multiset.count_eq_one_of_mem (Multiset.nodup_range _) (Multiset.mem_range.2 hlt)
  · exact Multiset.count_eq_zero_of_notMem (fun hmem => hlt (Multiset.mem_range.1 hmem))

theorem RankInv.returned (h : s.RankInv n) (hr : r ∈ s.resolves) {p : KvPrefix H} {hold : Option (ℕ × PrefixProbe H)}
    (hp : r.phase = .returned p hold) :
    r.Credited s.world.pool.blockSize p ∧
      ∀ k pr, hold = some (k, pr) → s.world.probe? k = some pr ∧ pr.held = p.held := by
  have hsound := h.sound r hr
  unfold Resolve.Sound at hsound
  rw [hp] at hsound
  refine ⟨hsound.1, ?_⟩
  rintro k pr rfl
  refine ⟨?_, hsound.2 _ rfl⟩
  obtain ⟨i, hi⟩ := List.mem_iff_getElem?.1 hr
  have hprobes := h.probes
  unfold RankState.probes at hprobes
  rw [(sum_map_eraseIdx _ hi).1, hp] at hprobes
  exact Option.join_eq_some_iff.2 (hprobes.entry (k, pr) (by simp [Phase.probes]))

/-- **Leases, reservations and credits.** In every reached state a lease is consumed once, by a load or a release, or
still in one resolve's hands, and consumed once nobody has it; the destination of a load that did not settle is held by
its reservation; and a returned prefix credits exactly the leading blocks of its chain that it pins, up to the cap. -/
theorem resolve_linear (blockSize numBlocks : ℕ) (w₀ : World H) (tier : Bool) (acts : List Act) (s : RankState H)
    (hn : World.new blockSize numBlocks = .ok w₀) (hr : run step (init w₀ tier) acts = .ok s) :
    (∀ lease, s.loads.count lease + s.releases.count lease + s.leases.count lease =
        if lease < s.minted then 1 else 0) ∧
      ((∀ r ∈ s.resolves, r.phase.leases = 0) →
        ∀ lease < s.minted, s.loads.count lease + s.releases.count lease = 1) ∧
      (∀ ld ∈ s.inFlight, s.world.reservation? ld.slot = some ld.pages ∧
        ∀ b ∈ ld.pages, b ∉ s.world.pool.store.free ∧ b ∉ s.world.pool.store.inactive.map Prod.snd) ∧
      ∀ r ∈ s.resolves, ∀ p hold, r.phase = .returned p hold →
        p.hitTokens = s.world.pool.blockSize * p.held.length ∧
        p.held.map ImmutableBlock.seqHash = (r.chain s.world.pool.blockSize).take p.held.length ∧
        p.hitTokens ≤ s.world.pool.blockSize * r.cap s.world.pool.blockSize ∧
        ∀ k pr, hold = some (k, pr) → s.world.probe? k = some pr ∧ pr.held = p.held := by
  have h := run_inv hn hr
  refine ⟨h.lease_count, ?_, fun ld hld => h.destination (mem_reservations hld), ?_⟩
  · intro hnone lease hlt
    have hcount := h.lease_count lease
    have hzero : s.leases = 0 := by
      refine List.sum_eq_zero ?_
      intro m hm
      obtain ⟨r, hr, rfl⟩ := List.mem_map.1 hm
      exact hnone r hr
    rw [hzero, Multiset.count_zero, if_pos hlt] at hcount
    exact hcount
  · intro r hr p hold hp
    obtain ⟨hcred, hpin⟩ := h.returned hr hp
    exact ⟨hcred.parity, hcred.leading, hcred.capped, hpin⟩

/-- one resolve loads two blocks past its empty GPU hit; another gives up its query at the deadline, and the late hit's
lease is released -/
theorem resolve_linear_late :
    ∃ (w₀ : World (List ℕ)) (s : RankState (List ℕ)), World.new 2 6 = .ok w₀ ∧
      run step (init w₀ true) [.resolve [1, 2, 3, 4, 5] 0 false false, .on 0 (.start false), .on 0 (.poll false),
        .on 0 (.settleQuery (.hit 2)), .on 0 (.resumeQuery false), .on 0 (.launch false),
        .resolve [1, 2, 6, 7, 8] 0 false true, .on 1 (.start false), .on 1 (.poll false), .on 1 .timeoutQuery,
        .on 0 (.settleLoad .landed), .on 0 .resumeLoad, .settleStrayQuery (.hit 1)] = .ok s ∧
      s.loads = [0] ∧ s.releases = [1] ∧ ∀ lease < s.minted, s.loads.count lease + s.releases.count lease = 1 :=
  ⟨_, _, rfl, rfl, rfl, rfl, (resolve_linear 2 6 _ true [.resolve [1, 2, 3, 4, 5] 0 false false, .on 0 (.start false),
    .on 0 (.poll false), .on 0 (.settleQuery (.hit 2)), .on 0 (.resumeQuery false), .on 0 (.launch false),
    .resolve [1, 2, 6, 7, 8] 0 false true, .on 1 (.start false), .on 1 (.poll false), .on 1 .timeoutQuery,
    .on 0 (.settleLoad .landed), .on 0 .resumeLoad, .settleStrayQuery (.hit 1)] _ rfl rfl).2.1 (by decide)⟩

end RankState

end Pegainfer.KvStore
