/-
From the scheduler's cumulative counters to the per-interval deltas on the wire.

A snapshot carries totals, a batch carries what was counted since the last one. An interval that counted no draft sends no
speculative stats, and a per-position vector goes out cut to the drafter's K.
- `SpecDecodeCounters`, `PrefixCacheCounters`: the totals; `observeDraft` is how the first of them move.
- `specDecodeDelta`, `prefixCacheDelta`, `StatsTracker.stats`: the deltas of one interval, and the baseline after it.
- `deltas_telescope`: over every run of snapshots in which drafting moves its counters by drafts, within K, the deltas of
  each counter sum to the last snapshot's total.
- `engine_advancing`: so does every engine, whose counters move by `observeDraft`.
- `undrafted_delta_lost`: counters that grow otherwise lose what grew.
-/
import Mathlib.Tactic

namespace Pegainfer.Frontend

/-! ## Snapshots -/

def maxSpecTokens : ℕ := 32

/-- cumulative speculative-decode counters; only the first `numSpecTokens` positions are meaningful -/
structure SpecDecodeCounters where
  numSpecTokens : ℕ
  numDrafts : ℕ
  numDraftTokens : ℕ
  numAcceptedTokens : ℕ
  numAcceptedTokensPerPos : Vector ℕ maxSpecTokens
deriving DecidableEq, Repr

/-- cumulative prefix-cache counters, in prompt tokens -/
structure PrefixCacheCounters where
  queries : ℕ
  hits : ℕ
  hostQueries : ℕ
  hostHits : ℕ
  externalUnspecifiedHits : ℕ
deriving DecidableEq, Repr

structure SchedulerMetrics where
  kvUsedBlocks : ℕ
  kvTotalBlocks : ℕ
  numRunningReqs : ℕ
  numWaitingReqs : ℕ
  /-- `none` with no draft model loaded -/
  specDecode : Option SpecDecodeCounters
  /-- `none` with no prefix cache -/
  prefixCache : Option PrefixCacheCounters
deriving DecidableEq, Repr

namespace SpecDecodeCounters

def default : SpecDecodeCounters := ⟨0, 0, 0, 0, Vector.replicate maxSpecTokens 0⟩

def new (numSpecTokens : ℕ) : Except ℕ SpecDecodeCounters :=
  if numSpecTokens > maxSpecTokens then .error numSpecTokens
  else .ok { default with numSpecTokens := numSpecTokens }

/-- one proposal verified -/
def observeDraft (c : SpecDecodeCounters) (numDraftTokens numAccepted : ℕ) : SpecDecodeCounters :=
  let tallied := min numAccepted c.numSpecTokens
  { c with
    numDrafts := c.numDrafts + 1
    numDraftTokens := c.numDraftTokens + numDraftTokens
    numAcceptedTokens := c.numAcceptedTokens + numAccepted
    numAcceptedTokensPerPos := c.numAcceptedTokensPerPos.mapIdx fun i n => if i < tallied then n + 1 else n }

end SpecDecodeCounters

def PrefixCacheCounters.default : PrefixCacheCounters := ⟨0, 0, 0, 0, 0⟩

/-! ## Deltas -/

structure SpecDecodingStats where
  numSpecTokens : ℕ
  numDrafts : ℕ
  numDraftTokens : ℕ
  numAcceptedTokens : ℕ
  numAcceptedTokensPerPos : List ℕ
deriving DecidableEq, Repr

structure PrefixCacheStats where
  queries : ℕ
  hits : ℕ
  /-- the hits' tiers, filled in for the connector only -/
  hostHits : ℕ
  externalUnspecifiedHits : ℕ
deriving DecidableEq, Repr

structure SchedulerStats where
  numRunningReqs : ℕ
  numWaitingReqs : ℕ
  /-- the ratio before it is rounded to a float -/
  kvCacheUsage : ℚ
  specDecodingStats : Option SpecDecodingStats
  prefixCacheStats : PrefixCacheStats
  connectorPrefixCacheStats : Option PrefixCacheStats
deriving DecidableEq, Repr

def schedulerStatsFrom (snapshot : SchedulerMetrics) : SchedulerStats where
  numRunningReqs := snapshot.numRunningReqs
  numWaitingReqs := snapshot.numWaitingReqs
  kvCacheUsage := if snapshot.kvTotalBlocks = 0 then 0 else snapshot.kvUsedBlocks / snapshot.kvTotalBlocks
  specDecodingStats := none
  prefixCacheStats := ⟨0, 0, 0, 0⟩
  connectorPrefixCacheStats := none

def specDecodeDelta (last cur : SpecDecodeCounters) : SpecDecodingStats where
  numSpecTokens := cur.numSpecTokens
  numDrafts := cur.numDrafts - last.numDrafts
  numDraftTokens := cur.numDraftTokens - last.numDraftTokens
  numAcceptedTokens := cur.numAcceptedTokens - last.numAcceptedTokens
  numAcceptedTokensPerPos :=
    (List.zipWith (fun curPos lastPos => curPos - lastPos) cur.numAcceptedTokensPerPos.toList
      last.numAcceptedTokensPerPos.toList).take cur.numSpecTokens

/-- a total below its baseline: the engine restarted, and the interval diffs from zero -/
def restarted (last cur : PrefixCacheCounters) : Bool :=
  decide (cur.queries < last.queries) || decide (cur.hits < last.hits) ||
    decide (cur.hostQueries < last.hostQueries) || decide (cur.hostHits < last.hostHits) ||
    decide (cur.externalUnspecifiedHits < last.externalUnspecifiedHits)

/-- (local stats, connector stats); the connector side is `none` for an interval without host activity -/
def prefixCacheDelta (last cur : PrefixCacheCounters) : PrefixCacheStats × Option PrefixCacheStats :=
  let base := if restarted last cur then PrefixCacheCounters.default else last
  let hits := cur.hits - base.hits
  let hostQueries := cur.hostQueries - base.hostQueries
  let hostHits := cur.hostHits - base.hostHits
  let unspecifiedHits := cur.externalUnspecifiedHits - base.externalUnspecifiedHits
  let externalHits := hostHits + unspecifiedHits
  (⟨cur.queries - base.queries, hits - externalHits, 0, 0⟩,
    if hostQueries > 0 ∨ externalHits > 0 then some ⟨hostQueries, externalHits, hostHits, unspecifiedHits⟩ else none)

/-- the baselines of the next interval -/
structure StatsTracker where
  specDecode : SpecDecodeCounters
  prefixCache : PrefixCacheCounters
deriving DecidableEq, Repr

namespace StatsTracker

def default : StatsTracker := ⟨SpecDecodeCounters.default, PrefixCacheCounters.default⟩

/-- `none` when nothing drafted -/
def specDecodeInterval (t : StatsTracker) (snapshot : SchedulerMetrics) : Option SpecDecodingStats × StatsTracker :=
  match snapshot.specDecode with
  | none => (none, { t with specDecode := SpecDecodeCounters.default })
  | some cur =>
    let delta := specDecodeDelta t.specDecode cur
    (if delta.numDrafts > 0 then some delta else none, { t with specDecode := cur })

def stats (t : StatsTracker) (snapshot : SchedulerMetrics) : SchedulerStats × StatsTracker :=
  let spec := t.specDecodeInterval snapshot
  let stats := { schedulerStatsFrom snapshot with specDecodingStats := spec.1 }
  match snapshot.prefixCache with
  | some cur =>
    let delta := prefixCacheDelta t.prefixCache cur
    ({ stats with prefixCacheStats := delta.1, connectorPrefixCacheStats := delta.2 },
      { spec.2 with prefixCache := cur })
  | none => (stats, { spec.2 with prefixCache := PrefixCacheCounters.default })

/-- the stats sent for a run of snapshots -/
def emitted : StatsTracker → List SchedulerMetrics → List SchedulerStats
  | _, [] => []
  | t, snapshot :: snapshots => (t.stats snapshot).1 :: (t.stats snapshot).2.emitted snapshots

end StatsTracker

/-! ## Counters and their deltas -/

/-- an absent counter stands at zero -/
def SchedulerMetrics.totals (snapshot : SchedulerMetrics) : StatsTracker :=
  ⟨snapshot.specDecode.getD SpecDecodeCounters.default, snapshot.prefixCache.getD PrefixCacheCounters.default⟩

/-- the totals of the last snapshot, `t` before any -/
def lastTotals (t : StatsTracker) (snapshots : List SchedulerMetrics) : StatsTracker :=
  (snapshots.getLast?.map SchedulerMetrics.totals).getD t

/-- a counter: its total, and the delta a batch carries for it -/
structure Counter where
  total : StatsTracker → ℕ
  delta : SchedulerStats → ℕ

namespace Counter

/-- a counter of the speculative stats, which a batch may lack -/
def spec (total : SpecDecodeCounters → ℕ) (delta : SpecDecodingStats → ℕ) : Counter :=
  ⟨fun t => total t.specDecode, fun stats => (stats.specDecodingStats.map delta).getD 0⟩

def localCache (total : PrefixCacheCounters → ℕ) (delta : PrefixCacheStats → ℕ) : Counter :=
  ⟨fun t => total t.prefixCache, fun stats => delta stats.prefixCacheStats⟩

/-- a counter of the connector stats, which a batch may lack -/
def connector (total : PrefixCacheCounters → ℕ) (delta : PrefixCacheStats → ℕ) : Counter :=
  ⟨fun t => total t.prefixCache, fun stats => (stats.connectorPrefixCacheStats.map delta).getD 0⟩

def drafts : Counter := spec SpecDecodeCounters.numDrafts SpecDecodingStats.numDrafts

def draftTokens : Counter := spec SpecDecodeCounters.numDraftTokens SpecDecodingStats.numDraftTokens

def acceptedTokens : Counter := spec SpecDecodeCounters.numAcceptedTokens SpecDecodingStats.numAcceptedTokens

/-- the acceptances of a draft position; a vector cut before it counts zero -/
def acceptedAt (pos : Fin maxSpecTokens) : Counter :=
  spec (fun c => c.numAcceptedTokensPerPos[pos]) fun stats => stats.numAcceptedTokensPerPos[pos.val]?.getD 0

def queries : Counter := localCache PrefixCacheCounters.queries PrefixCacheStats.queries

/-- the hits that are not the connector's -/
def localHits : Counter :=
  localCache (fun c => c.hits - (c.hostHits + c.externalUnspecifiedHits)) PrefixCacheStats.hits

def hostQueries : Counter := connector PrefixCacheCounters.hostQueries PrefixCacheStats.queries

def externalHits : Counter :=
  connector (fun c => c.hostHits + c.externalUnspecifiedHits) PrefixCacheStats.hits

def hostHits : Counter := connector PrefixCacheCounters.hostHits PrefixCacheStats.hostHits

def unspecifiedHits : Counter :=
  connector PrefixCacheCounters.externalUnspecifiedHits PrefixCacheStats.externalUnspecifiedHits

/-- every counter on the wire -/
def wire : List Counter :=
  [drafts, draftTokens, acceptedTokens] ++ List.ofFn acceptedAt ++
    [queries, localHits, hostQueries, externalHits, hostHits, unspecifiedHits]

end Counter

/-! ## Intervals -/

/-- no speculative counter falls -/
structure SpecDecodeCounters.Le (last cur : SpecDecodeCounters) : Prop where
  drafts : last.numDrafts ≤ cur.numDrafts
  draftTokens : last.numDraftTokens ≤ cur.numDraftTokens
  acceptedTokens : last.numAcceptedTokens ≤ cur.numAcceptedTokens
  acceptedAt : ∀ pos : Fin maxSpecTokens, last.numAcceptedTokensPerPos[pos] ≤ cur.numAcceptedTokensPerPos[pos]

/-- no prefix-cache counter falls, and the connector's hits are among the interval's hits -/
structure PrefixCacheCounters.Le (last cur : PrefixCacheCounters) : Prop where
  queries : last.queries ≤ cur.queries
  hits : last.hits ≤ cur.hits
  hostQueries : last.hostQueries ≤ cur.hostQueries
  hostHits : last.hostHits ≤ cur.hostHits
  unspecifiedHits : last.externalUnspecifiedHits ≤ cur.externalUnspecifiedHits
  external : (cur.hostHits - last.hostHits) + (cur.externalUnspecifiedHits - last.externalUnspecifiedHits) ≤
    cur.hits - last.hits

/-- speculative counters move by drafts, and only positions below K are accepted at -/
structure SpecDecodeCounters.ByDrafts (last cur : SpecDecodeCounters) : Prop where
  undrafted : cur.numDrafts = last.numDrafts → cur.numDraftTokens = last.numDraftTokens ∧
    cur.numAcceptedTokens = last.numAcceptedTokens ∧ cur.numAcceptedTokensPerPos = last.numAcceptedTokensPerPos
  within : ∀ pos : Fin maxSpecTokens, cur.numSpecTokens ≤ pos →
    cur.numAcceptedTokensPerPos[pos] = last.numAcceptedTokensPerPos[pos]

/-- a relation between consecutive totals of a run of snapshots, from `t` -/
def Along (R : StatsTracker → StatsTracker → Prop) : StatsTracker → List SchedulerMetrics → Prop
  | _, [] => True
  | t, snapshot :: snapshots => R t snapshot.totals ∧ Along R snapshot.totals snapshots

/-- component-wise non-decreasing totals, the connector's hits within the hits of each interval -/
def NonDecreasing (t t' : StatsTracker) : Prop :=
  t.specDecode.Le t'.specDecode ∧ t.prefixCache.Le t'.prefixCache

/-- non-decreasing, the speculative counters by drafts -/
def Advances (t t' : StatsTracker) : Prop := NonDecreasing t t' ∧ t.specDecode.ByDrafts t'.specDecode

theorem stats_totals (t : StatsTracker) (snapshot : SchedulerMetrics) : (t.stats snapshot).2 = snapshot.totals := by
  unfold StatsTracker.stats StatsTracker.specDecodeInterval SchedulerMetrics.totals
  cases snapshot.specDecode <;> cases snapshot.prefixCache <;> rfl

/-- the connector's hits are among all hits -/
def StatsTracker.Sound (t : StatsTracker) : Prop :=
  t.prefixCache.hostHits + t.prefixCache.externalUnspecifiedHits ≤ t.prefixCache.hits

theorem Advances.sound {t t' : StatsTracker} (h : Advances t t') (ht : t.Sound) : t'.Sound := by
  obtain ⟨⟨-, hle⟩, -⟩ := h
  have hsplit := hle.external
  have hhits := hle.hits
  unfold StatsTracker.Sound at ht ⊢
  omega

/-- one interval accounts for a counter -/
def Counter.Accounts (c : Counter) : Prop :=
  ∀ t snapshot, t.Sound → Advances t snapshot.totals →
    c.delta (t.stats snapshot).1 + c.total t = c.total snapshot.totals

/-- **Telescoping.** A counter that every interval accounts for sums to its last total. -/
theorem Counter.Accounts.telescopes {c : Counter} (hc : c.Accounts) (snapshots : List SchedulerMetrics) :
    ∀ t, t.Sound → Along Advances t snapshots →
      ((t.emitted snapshots).map c.delta).sum + c.total t = c.total (lastTotals t snapshots) := by
  induction snapshots with
  | nil => exact fun t _ _ => Nat.zero_add _
  | cons snapshot snapshots ih =>
    intro t ht h
    have hrest := ih snapshot.totals (h.1.sound ht) h.2
    have hlast : lastTotals t (snapshot :: snapshots) = lastTotals snapshot.totals snapshots := by
      unfold lastTotals
      cases snapshots with
      | nil => rfl
      | cons s ss =>
        rw [List.getLast?_cons_cons, List.getLast?_eq_some_getLast (List.cons_ne_nil s ss)]
        rfl
    rw [hlast, ← hrest, ← hc t snapshot ht h.1]
    simp only [StatsTracker.emitted, List.map_cons, List.sum_cons, stats_totals]
    omega

/-- an interval without a draft moved nothing, so the stats it does not send would be zero -/
theorem spec_accounts {total : SpecDecodeCounters → ℕ} {delta : SpecDecodingStats → ℕ}
    (hsome : ∀ last cur, last.Le cur → last.ByDrafts cur → delta (specDecodeDelta last cur) + total last = total cur)
    (hnone : ∀ last cur, last.Le cur → last.ByDrafts cur → cur.numDrafts = last.numDrafts → total cur = total last) :
    (Counter.spec total delta).Accounts := by
  rintro t snapshot - ⟨⟨hle, -⟩, hdrafts⟩
  have hspec : (t.stats snapshot).1.specDecodingStats = (t.specDecodeInterval snapshot).1 := by
    unfold StatsTracker.stats
    cases snapshot.prefixCache <;> rfl
  simp only [Counter.spec, hspec, StatsTracker.specDecodeInterval]
  cases hcur : snapshot.specDecode with
  | none =>
    -- the counters are gone: they stood at zero
    have htotal : snapshot.totals.specDecode = SpecDecodeCounters.default := by simp [SchedulerMetrics.totals, hcur]
    rw [htotal] at hle hdrafts ⊢
    have hzero : SpecDecodeCounters.default.numDrafts = t.specDecode.numDrafts :=
      (Nat.le_zero.1 hle.drafts).symm
    have hsame := hnone _ _ hle hdrafts hzero
    dsimp only [Option.map_none, Option.getD_none]
    omega
  | some cur =>
    have htotal : snapshot.totals.specDecode = cur := by simp [SchedulerMetrics.totals, hcur]
    rw [htotal] at hle hdrafts ⊢
    have hdelta := hsome _ _ hle hdrafts
    dsimp only
    split_ifs with hdraft
    · exact hdelta
    · have hstill : cur.numDrafts = t.specDecode.numDrafts := by
        have := hle.drafts
        simp only [specDecodeDelta] at hdraft
        omega
      have hsame := hnone _ _ hle hdrafts hstill
      dsimp only [Option.map_none, Option.getD_none]
      omega

/-- the deltas of an interval from a baseline that no total is below -/
theorem prefixCacheDelta_eq {last cur : PrefixCacheCounters} (h : last.Le cur) :
    prefixCacheDelta last cur =
      (⟨cur.queries - last.queries, cur.hits - last.hits -
          ((cur.hostHits - last.hostHits) + (cur.externalUnspecifiedHits - last.externalUnspecifiedHits)), 0, 0⟩,
        if cur.hostQueries - last.hostQueries > 0 ∨
            (cur.hostHits - last.hostHits) + (cur.externalUnspecifiedHits - last.externalUnspecifiedHits) > 0 then
          some ⟨cur.hostQueries - last.hostQueries,
            (cur.hostHits - last.hostHits) + (cur.externalUnspecifiedHits - last.externalUnspecifiedHits),
            cur.hostHits - last.hostHits, cur.externalUnspecifiedHits - last.externalUnspecifiedHits⟩
        else none) := by
  have hrestart : restarted last cur = false := by
    have := h.queries
    have := h.hits
    have := h.hostQueries
    have := h.hostHits
    have := h.unspecifiedHits
    simp only [restarted, Bool.or_eq_false_iff, decide_eq_false_iff_not]
    omega
  simp only [prefixCacheDelta, hrestart, Bool.false_eq_true, if_false]

/-- what an interval reports of the prefix cache, whether the snapshot carries one or not -/
theorem stats_prefixCache {t : StatsTracker} {snapshot : SchedulerMetrics}
    (h : t.prefixCache.Le snapshot.totals.prefixCache) :
    ((t.stats snapshot).1.prefixCacheStats, (t.stats snapshot).1.connectorPrefixCacheStats) =
      prefixCacheDelta t.prefixCache snapshot.totals.prefixCache := by
  cases hcur : snapshot.prefixCache with
  | some cur => simp [StatsTracker.stats, SchedulerMetrics.totals, hcur]
  | none =>
    have htotal : snapshot.totals.prefixCache = PrefixCacheCounters.default := by simp [SchedulerMetrics.totals, hcur]
    rw [htotal] at h ⊢
    rw [prefixCacheDelta_eq h]
    simp [StatsTracker.stats, schedulerStatsFrom, hcur, PrefixCacheCounters.default]

theorem localCache_accounts {total : PrefixCacheCounters → ℕ} {delta : PrefixCacheStats → ℕ}
    (h : ∀ last cur, last.hostHits + last.externalUnspecifiedHits ≤ last.hits → last.Le cur →
      delta (prefixCacheDelta last cur).1 + total last = total cur) :
    (Counter.localCache total delta).Accounts := by
  rintro t snapshot ht ⟨⟨-, hle⟩, -⟩
  have hstats := congrArg Prod.fst (stats_prefixCache hle)
  dsimp only at hstats
  simp only [Counter.localCache, hstats]
  exact h _ _ ht hle

theorem connector_accounts {total : PrefixCacheCounters → ℕ} {delta : PrefixCacheStats → ℕ}
    (h : ∀ last cur, last.Le cur → ((prefixCacheDelta last cur).2.map delta).getD 0 + total last = total cur) :
    (Counter.connector total delta).Accounts := by
  rintro t snapshot - ⟨⟨-, hle⟩, -⟩
  have hstats := congrArg Prod.snd (stats_prefixCache hle)
  dsimp only at hstats
  simp only [Counter.connector, hstats]
  exact h _ _ hle

/-- a position's delta survives the cut at K, or there is none -/
theorem acceptedAt_delta (last cur : SpecDecodeCounters) (pos : Fin maxSpecTokens) :
    (specDecodeDelta last cur).numAcceptedTokensPerPos[pos.val]?.getD 0 =
      if (pos : ℕ) < cur.numSpecTokens then
        cur.numAcceptedTokensPerPos[pos] - last.numAcceptedTokensPerPos[pos] else 0 := by
  simp only [specDecodeDelta, List.getElem?_take]
  split_ifs with hpos
  · simp [pos.isLt]
  · rfl

theorem wire_accounts : ∀ c ∈ Counter.wire, c.Accounts := by
  have hposition : ∀ pos, (Counter.acceptedAt pos).Accounts := by
    intro pos
    apply spec_accounts
    · intro last cur hle hdrafts
      rw [acceptedAt_delta]
      have hmono := hle.acceptedAt pos
      split_ifs with hpos
      · omega
      · rw [hdrafts.within pos (Nat.not_lt.1 hpos)]
        omega
    · intro last cur _ hdrafts hstill
      rw [(hdrafts.undrafted hstill).2.2]
  intro c hc
  simp only [Counter.wire, List.mem_append, List.mem_ofFn, List.mem_cons, List.not_mem_nil, or_false] at hc
  rcases hc with ((rfl | rfl | rfl) | ⟨pos, rfl⟩) | rfl | rfl | rfl | rfl | rfl | rfl
  · exact spec_accounts (fun last cur hle _ => Nat.sub_add_cancel hle.drafts) fun _ _ _ _ hstill => hstill
  · exact spec_accounts (fun last cur hle _ => Nat.sub_add_cancel hle.draftTokens)
      fun _ _ _ hdrafts hstill => (hdrafts.undrafted hstill).1
  · exact spec_accounts (fun last cur hle _ => Nat.sub_add_cancel hle.acceptedTokens)
      fun _ _ _ hdrafts hstill => (hdrafts.undrafted hstill).2.1
  · exact hposition pos
  · apply localCache_accounts
    intro last cur _ hle
    rw [prefixCacheDelta_eq hle]
    exact Nat.sub_add_cancel hle.queries
  · apply localCache_accounts
    intro last cur hsound hle
    rw [prefixCacheDelta_eq hle]
    have := hle.hits
    have := hle.hostHits
    have := hle.unspecifiedHits
    have := hle.external
    dsimp only
    omega
  all_goals
    apply connector_accounts
    intro last cur hle
    rw [prefixCacheDelta_eq hle]
    have := hle.hostQueries
    have := hle.hostHits
    have := hle.unspecifiedHits
    split_ifs <;> simp only [Option.map_some, Option.map_none, Option.getD_some, Option.getD_none] <;> omega

/-- **The deltas telescope.** Over every run of snapshots, however spaced, whose totals do not fall, whose connector hits
stay within the hits of each interval, and whose speculative counters move by drafts and within K, the deltas sent for
each counter sum to its total in the last snapshot. -/
theorem deltas_telescope (snapshots : List SchedulerMetrics) (h : Along Advances StatsTracker.default snapshots) :
    ∀ c ∈ Counter.wire, ((StatsTracker.default.emitted snapshots).map c.delta).sum =
      c.total (lastTotals StatsTracker.default snapshots) := by
  intro c hc
  have hzero : c.total StatsTracker.default = 0 := by
    simp only [Counter.wire, List.mem_append, List.mem_ofFn, List.mem_cons, List.not_mem_nil, or_false] at hc
    rcases hc with ((rfl | rfl | rfl) | ⟨pos, rfl⟩) | rfl | rfl | rfl | rfl | rfl | rfl
    case inl.inr => simp [Counter.acceptedAt, Counter.spec, StatsTracker.default, SpecDecodeCounters.default]
    all_goals rfl
  have hsum := (wire_accounts c hc).telescopes snapshots StatsTracker.default (Nat.zero_le _) h
  rwa [hzero, Nat.add_zero] at hsum

/-! ## An engine's snapshots -/

/-- the drafts verified between two snapshots -/
abbrev Drafts := List (ℕ × ℕ)

def SpecDecodeCounters.observeAll (c : SpecDecodeCounters) (drafts : Drafts) : SpecDecodeCounters :=
  drafts.foldl (fun c d => c.observeDraft d.1 d.2) c

theorem observeDraft_le (c : SpecDecodeCounters) (tokens accepted : ℕ) : c.Le (c.observeDraft tokens accepted) where
  drafts := Nat.le_succ _
  draftTokens := Nat.le_add_right _ _
  acceptedTokens := Nat.le_add_right _ _
  acceptedAt pos := by
    simp only [SpecDecodeCounters.observeDraft, Fin.getElem_fin, Vector.getElem_mapIdx]
    split_ifs <;> omega

theorem SpecDecodeCounters.Le.refl (c : SpecDecodeCounters) : c.Le c := ⟨le_rfl, le_rfl, le_rfl, fun _ => le_rfl⟩

theorem SpecDecodeCounters.Le.trans {a b c : SpecDecodeCounters} (h : a.Le b) (h' : b.Le c) : a.Le c :=
  ⟨h.drafts.trans h'.drafts, h.draftTokens.trans h'.draftTokens, h.acceptedTokens.trans h'.acceptedTokens,
    fun pos => (h.acceptedAt pos).trans (h'.acceptedAt pos)⟩

/-- what verified drafts do to the counters -/
theorem observeAll_moves (drafts : Drafts) : ∀ c : SpecDecodeCounters, c.Le (c.observeAll drafts) ∧
    (c.observeAll drafts).numSpecTokens = c.numSpecTokens ∧
    (c.observeAll drafts).numDrafts = c.numDrafts + drafts.length ∧
    ∀ pos : Fin maxSpecTokens, c.numSpecTokens ≤ pos →
      (c.observeAll drafts).numAcceptedTokensPerPos[pos] = c.numAcceptedTokensPerPos[pos] := by
  induction drafts with
  | nil => exact fun c => ⟨SpecDecodeCounters.Le.refl c, rfl, rfl, fun _ _ => rfl⟩
  | cons d drafts ih =>
    intro c
    obtain ⟨hle, hk, hcount, hpos⟩ := ih (c.observeDraft d.1 d.2)
    refine ⟨(observeDraft_le c d.1 d.2).trans hle, hk, ?_, fun pos hge => ?_⟩
    · rw [List.length_cons]
      exact hcount.trans (by simp only [SpecDecodeCounters.observeDraft]; omega)
    · refine (hpos pos hge).trans ?_
      simp only [SpecDecodeCounters.observeDraft, Fin.getElem_fin, Vector.getElem_mapIdx]
      rw [if_neg]
      omega

/-- the counters of an engine with a drafter advance from snapshot to snapshot -/
theorem observeAll_byDrafts (c : SpecDecodeCounters) (drafts : Drafts) : c.ByDrafts (c.observeAll drafts) where
  undrafted h := by
    obtain ⟨-, -, hcount, -⟩ := observeAll_moves drafts c
    have hnil : drafts = [] := List.length_eq_zero_iff.1 (by omega)
    rw [hnil]
    exact ⟨rfl, rfl, rfl⟩
  within pos h := by
    obtain ⟨-, hk, -, hpos⟩ := observeAll_moves drafts c
    rw [hk] at h
    exact hpos pos h

/-- an engine with a drafter: the drafts verified and the prefix-cache totals at each of its snapshots -/
def engineSnapshots (c : SpecDecodeCounters) : List (Drafts × PrefixCacheCounters) → List SchedulerMetrics
  | [] => []
  | (drafts, cache) :: rest =>
    ⟨0, 0, 0, 0, some (c.observeAll drafts), some cache⟩ :: engineSnapshots (c.observeAll drafts) rest

/-- the prefix-cache totals of consecutive snapshots do not fall -/
def CacheAlong : PrefixCacheCounters → List (Drafts × PrefixCacheCounters) → Prop
  | _, [] => True
  | last, (_, cache) :: rest => last.Le cache ∧ CacheAlong cache rest

theorem engine_along (rest : List (Drafts × PrefixCacheCounters)) : ∀ (c : SpecDecodeCounters)
    (cache : PrefixCacheCounters), CacheAlong cache rest → Along Advances ⟨c, cache⟩ (engineSnapshots c rest) := by
  induction rest with
  | nil => exact fun _ _ _ => trivial
  | cons d rest ih =>
    rintro c cache ⟨hle, hrest⟩
    exact ⟨⟨⟨(observeAll_moves d.1 c).1, hle⟩, observeAll_byDrafts c d.1⟩, ih _ _ hrest⟩

/-- **Every engine advances.** From counters that start at zero, the snapshots of an engine with a drafter of any K move
by drafts and within K. -/
theorem engine_advancing {numSpecTokens : ℕ} {c : SpecDecodeCounters} (hc : SpecDecodeCounters.new numSpecTokens = .ok c)
    (rest : List (Drafts × PrefixCacheCounters)) (h : CacheAlong PrefixCacheCounters.default rest) :
    Along Advances StatsTracker.default (engineSnapshots c rest) := by
  have hstart : c = { SpecDecodeCounters.default with numSpecTokens := numSpecTokens } := by
    unfold SpecDecodeCounters.new at hc
    split_ifs at hc
    cases hc
    rfl
  cases rest with
  | nil => trivial
  | cons d rest =>
    obtain ⟨hle, hrest⟩ := h
    have hmoves := (observeAll_moves d.1 c).1
    have hdrafts := observeAll_byDrafts c d.1
    rw [hstart] at hmoves hdrafts ⊢
    refine ⟨⟨⟨?_, hle⟩, ?_⟩, engine_along rest _ _ hrest⟩
    · exact ⟨hmoves.drafts, hmoves.draftTokens, hmoves.acceptedTokens, hmoves.acceptedAt⟩
    · exact ⟨hdrafts.undrafted, hdrafts.within⟩

/-- three intervals, the second without a draft; the last drafts twice -/
theorem deltas_telescope_three :
    ((StatsTracker.default.emitted (engineSnapshots ⟨2, 0, 0, 0, Vector.replicate 32 0⟩
        [([(2, 1)], ⟨10, 4, 6, 3, 1⟩), ([], ⟨10, 4, 6, 3, 1⟩), ([(2, 2), (2, 0)], ⟨30, 9, 8, 3, 2⟩)])).map
      Counter.draftTokens.delta).sum = 6 := by
  have h := deltas_telescope _ (engine_advancing (show SpecDecodeCounters.new 2 = .ok _ from rfl)
    [([(2, 1)], ⟨10, 4, 6, 3, 1⟩), ([], ⟨10, 4, 6, 3, 1⟩), ([(2, 2), (2, 0)], ⟨30, 9, 8, 3, 2⟩)]
    ⟨⟨by decide, by decide, by decide, by decide, by decide, by decide⟩,
      ⟨by decide, by decide, by decide, by decide, by decide, by decide⟩,
      ⟨by decide, by decide, by decide, by decide, by decide, by decide⟩, trivial⟩)
    Counter.draftTokens (by simp [Counter.wire])
  exact h

/-- a second draft token counted with no second draft: no total falls, and the token never goes out -/
theorem undrafted_delta_lost :
    let snapshot : ℕ → SchedulerMetrics := fun draftTokens =>
      ⟨0, 0, 0, 0, some ⟨2, 1, draftTokens, 0, Vector.replicate 32 0⟩, none⟩
    Along NonDecreasing StatsTracker.default [snapshot 1, snapshot 2] ∧
      ((StatsTracker.default.emitted [snapshot 1, snapshot 2]).map Counter.draftTokens.delta).sum = 1 ∧
      Counter.draftTokens.total (lastTotals StatsTracker.default [snapshot 1, snapshot 2]) = 2 := by
  refine ⟨⟨⟨⟨by decide, by decide, by decide, by decide⟩, ⟨le_rfl, le_rfl, le_rfl, le_rfl, le_rfl, le_rfl⟩⟩,
    ⟨⟨by decide, by decide, by decide, by decide⟩, ⟨le_rfl, le_rfl, le_rfl, le_rfl, le_rfl, le_rfl⟩⟩, trivial⟩,
    by decide, by decide⟩

end Pegainfer.Frontend
