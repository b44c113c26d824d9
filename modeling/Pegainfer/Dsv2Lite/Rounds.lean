/-
What one round of the mixed-request scheduler does, whichever way its rows are batched.

- `live`, `gone`: what is left of a row after its step, or the stream it leaves behind.
- `Advanced`: a decode path that handled `rows` kept the rows that live, in the order it was given them, closed the
  streams of the others and gave their slots back.
- `decodeRound_rowwise`: one row, one batch or one batch for each position, a round is each row's own step.
- `retireBad_same`: no row is ever retired for its cache position.
-/
import Mathlib.Tactic
import Pegainfer.Dsv2Lite.Scheduler

namespace Pegainfer.Dsv2Lite

open Pegainfer.Lib

variable {K : Type} {g : Generator K}

/-! ## One row's step -/

/-- the row's own step -/
def ActiveRequestState.advance (g : Generator K) (a : ActiveRequestState K) : Bool × ActiveRequestState K :=
  let out := g.rowStep a.lastToken a.nextDecodePosition a.cache
  { a with cache := out.2 }.emitTokenOrFinish out.1

def live (g : Generator K) (a : ActiveRequestState K) : Option (ActiveRequestState K) :=
  if (a.advance g).1 then none else some (a.advance g).2

def gone (g : Generator K) (a : ActiveRequestState K) : Option TokenSink :=
  if (a.advance g).1 then some (a.advance g).2.tokenTx else none

/-- a row between rounds: its first token is out, its last is not, and its cache is where it should be -/
structure RowOk (g : Generator K) (a : ActiveRequestState K) : Prop where
  prompt : 0 < a.promptLen
  started : 0 < a.generated
  unfinished : a.generated < a.maxTokens
  context : a.promptLen + a.maxTokens ≤ g.supportedContext
  cache : CacheAt g a.nextDecodePosition a.cache

namespace ActiveRequestState

variable {a : ActiveRequestState K}

/-- emitting a token changes neither the request nor its cache -/
theorem emit_same (a : ActiveRequestState K) (token : ℕ) :
    (a.emitTokenOrFinish token).2.cache = a.cache ∧ (a.emitTokenOrFinish token).2.promptLen = a.promptLen ∧
      (a.emitTokenOrFinish token).2.maxTokens = a.maxTokens := by
  unfold emitTokenOrFinish
  dsimp only
  split_ifs <;> exact ⟨rfl, rfl, rfl⟩

/-- a row that goes on has one more token, and not its last -/
theorem emit_live {token : ℕ} (h : (a.emitTokenOrFinish token).1 = false) :
    (a.emitTokenOrFinish token).2.generated = a.generated + 1 ∧ a.generated + 1 ≠ a.maxTokens := by
  unfold emitTokenOrFinish at h ⊢
  dsimp only at h ⊢
  split_ifs at h ⊢ with hstop hsent hlast
  exact ⟨rfl, hlast⟩

/-- emitting does not look at the cache -/
theorem emit_anon (a : ActiveRequestState K) (token : ℕ) :
    a.anon.emitTokenOrFinish token = ((a.emitTokenOrFinish token).1, (a.emitTokenOrFinish token).2.anon) := by
  unfold emitTokenOrFinish anon
  dsimp only
  split_ifs <;> rfl

theorem advance_anon (a : ActiveRequestState K) : a.anon.advance g = ((a.advance g).1, (a.advance g).2.anon) := by
  have hstep := rowStep_anon (g := g) a.lastToken a.nextDecodePosition a.cache
  unfold advance
  have hrow : ({ a.anon with cache := (g.rowStep a.lastToken a.nextDecodePosition a.cache.anon).2 } :
      ActiveRequestState K) =
      ({ a with cache := (g.rowStep a.lastToken a.nextDecodePosition a.cache).2 } : ActiveRequestState K).anon := by
    rw [hstep]
    rfl
  change ({ a.anon with cache := (g.rowStep a.lastToken a.nextDecodePosition a.cache.anon).2 } :
    ActiveRequestState K).emitTokenOrFinish (g.rowStep a.lastToken a.nextDecodePosition a.cache.anon).1 = _
  rw [hrow, emit_anon, hstep]

theorem live_anon (a : ActiveRequestState K) : live g a.anon = (live g a).map anon := by
  unfold live
  rw [advance_anon]
  dsimp only
  split_ifs <;> rfl

theorem gone_anon (a : ActiveRequestState K) : gone g a.anon = gone g a := by
  unfold gone
  rw [advance_anon]
  dsimp only
  split_ifs <;> rfl

theorem advance_cache (a : ActiveRequestState K) :
    (a.advance g).2.cache = (g.rowStep a.lastToken a.nextDecodePosition a.cache).2 := (emit_same _ _).1

theorem advance_slots (a : ActiveRequestState K) : (a.advance g).2.cache.slots = a.cache.slots := by
  rw [advance_cache, rowStep_slots]

end ActiveRequestState

theorem RowOk.position_lt {a : ActiveRequestState K} (h : RowOk g a) : a.nextDecodePosition < g.supportedContext := by
  have hprompt := h.prompt
  have hunfinished := h.unfinished
  have hcontext := h.context
  unfold ActiveRequestState.nextDecodePosition
  omega

/-- a row that goes on is ready for the next round -/
theorem RowOk.live {a a' : ActiveRequestState K} (h : RowOk g a) (hlive : live g a = some a') :
    RowOk g a' ∧ a'.generated = a.generated + 1 ∧ a'.maxTokens = a.maxTokens := by
  unfold Dsv2Lite.live at hlive
  split_ifs at hlive with hfin
  cases hlive
  obtain ⟨hcache, hprompt, hmax⟩ := ActiveRequestState.emit_same
    { a with cache := (g.rowStep a.lastToken a.nextDecodePosition a.cache).2 }
    (g.rowStep a.lastToken a.nextDecodePosition a.cache).1
  obtain ⟨hgen, hlast⟩ := ActiveRequestState.emit_live (Bool.eq_false_iff.2 hfin)
  have hprompt' : (a.advance g).2.promptLen = a.promptLen := hprompt
  have hmax' : (a.advance g).2.maxTokens = a.maxTokens := hmax
  have hgen' : (a.advance g).2.generated = a.generated + 1 := hgen
  have hlast' : a.generated + 1 ≠ a.maxTokens := hlast
  have hpos := h.prompt
  have hunfinished := h.unfinished
  refine ⟨⟨hprompt'.symm ▸ hpos, by omega, by omega, ?_, ?_⟩, hgen', hmax'⟩
  · rw [hprompt', hmax']
    exact h.context
  · have hnext : (a.advance g).2.nextDecodePosition = a.nextDecodePosition + 1 := by
      unfold ActiveRequestState.nextDecodePosition
      rw [hprompt', hgen']
      omega
    rw [hnext, ActiveRequestState.advance_cache]
    exact h.cache.append _

/-! ## Slots -/

def slotsOf (rows : List (ActiveRequestState K)) : List ℕ := rows.flatMap fun a => a.cache.slots

theorem PoolOk.perm {pool : Option DeviceKvPool} {held held' : List ℕ} (h : PoolOk g pool held)
    (hp : held.Perm held') : PoolOk g pool held' := by
  refine ⟨h.host, fun hd => ?_⟩
  obtain ⟨free, hpool, hperm⟩ := h.device hd
  exact ⟨free, hpool, (hp.symm.append_left free).trans hperm⟩

/-- dropped caches give their slots back -/
theorem PoolOk.release {pool : Option DeviceKvPool} {slots held : List ℕ} (h : PoolOk g pool (slots ++ held)) :
    PoolOk g (pool.map fun pool => pool.release slots) held := by
  refine ⟨fun hd => ?_, fun hd => ?_⟩
  · rw [h.host hd]
    rfl
  · obtain ⟨free, hpool, hperm⟩ := h.device hd
    rw [hpool]
    refine ⟨slots ++ free, rfl, List.Perm.trans ?_ hperm⟩
    rw [← List.append_assoc]
    exact List.perm_append_comm.append_right held

/-! ## Decode paths -/

namespace Scheduler

variable {s : Scheduler K}

/-- what handling `rows` left -/
structure Advanced (g : Generator K) (rows : List (ℕ × ActiveRequestState K)) (s : Scheduler K)
    (r : List (ℕ × ActiveRequestState K) × Scheduler K) : Prop where
  kept : r.1 = rows.filterMap (keepAt (live g))
  closed : r.2.closed = s.closed ++ (rows.map Prod.snd).filterMap (gone g)
  pool : ∀ held, PoolOk g s.pool (slotsOf (rows.map Prod.snd) ++ held) →
    PoolOk g r.2.pool (slotsOf (r.1.map Prod.snd) ++ held)
  pending : r.2.pending = s.pending
  max : r.2.maxActiveRequests = s.maxActiveRequests

namespace Advanced

theorem nil (s : Scheduler K) : Advanced g [] s ([], s) :=
  ⟨rfl, (List.append_nil _).symm, fun _ h => h, rfl, rfl⟩

/-- one batch after another -/
theorem append {rows rows' : List (ℕ × ActiveRequestState K)} {r r' : List (ℕ × ActiveRequestState K) × Scheduler K}
    (h : Advanced g rows s r) (h' : Advanced g rows' r.2 r') : Advanced g (rows ++ rows') s (r.1 ++ r'.1, r'.2) := by
  refine ⟨?_, ?_, fun held hpool => ?_, h'.pending.trans h.pending, h'.max.trans h.max⟩
  · rw [List.filterMap_append, ← h.kept, ← h'.kept]
  · dsimp only
    rw [h'.closed, h.closed, List.append_assoc, List.map_append, List.filterMap_append]
  · rw [List.map_append, slotsOf, List.flatMap_append, List.append_assoc] at hpool
    have hfirst := h.pool _ hpool
    have hsecond := h'.pool (slotsOf (r.1.map Prod.snd) ++ held) (hfirst.perm (by
      rw [← List.append_assoc, ← List.append_assoc]
      exact List.perm_append_comm.append_right held))
    refine hsecond.perm ?_
    rw [List.map_append, slotsOf, slotsOf, slotsOf, List.flatMap_append, ← List.append_assoc]
    exact List.perm_append_comm.append_right held

end Advanced

theorem applyDecoded_append (kept : List (ℕ × ActiveRequestState K)) (s : Scheduler K) (i : ℕ)
    (a : ActiveRequestState K) (token : ℕ) :
    applyDecoded kept s i a token = (kept ++ (applyDecoded [] s i a token).1, (applyDecoded [] s i a token).2) := by
  unfold applyDecoded
  dsimp only
  split_ifs
  · rw [List.append_nil]
  · rfl

/-- **One row.** Its step's token emitted, the row stays or goes. -/
theorem applyDecoded_advanced (s : Scheduler K) (i : ℕ) (a : ActiveRequestState K) :
    Advanced g [(i, a)] s (applyDecoded [] s i
      { a with cache := (g.rowStep a.lastToken a.nextDecodePosition a.cache).2 }
      (g.rowStep a.lastToken a.nextDecodePosition a.cache).1) := by
  have hslots := a.advance_slots (g := g)
  change Advanced g [(i, a)] s (if (a.advance g).1 then ([], s.retire
    (g.rowStep a.lastToken a.nextDecodePosition a.cache).2 (a.advance g).2.tokenTx) else ([(i, (a.advance g).2)], s))
  split_ifs with hfin
  · have hlive : live g a = none := if_pos hfin
    have hgone : gone g a = some (a.advance g).2.tokenTx := if_pos hfin
    refine ⟨?_, ?_, fun held hpool => ?_, rfl, rfl⟩
    · rw [List.filterMap_cons_none (by rw [keepAt, hlive]; rfl)]
      rfl
    · rw [List.map_cons, List.filterMap_cons_some hgone]
      rfl
    · refine PoolOk.release ?_
      rw [rowStep_slots]
      simpa [slotsOf] using hpool
  · have hlive : live g a = some (a.advance g).2 := if_neg hfin
    have hgone : gone g a = none := if_neg hfin
    refine ⟨?_, ?_, fun held hpool => ?_, rfl, rfl⟩
    · rw [List.filterMap_cons_some (b := (i, (a.advance g).2)) (by rw [keepAt, hlive]; rfl)]
      rfl
    · rw [List.map_cons, List.filterMap_cons_none hgone]
      exact (List.append_nil _).symm
    · simpa [slotsOf, hslots] using hpool

/-- a batch's rows, with what its forward returned for each -/
def decodedRows (g : Generator K) (rows : List (ℕ × ActiveRequestState K)) : List (ℕ × ActiveRequestState K × ℕ) :=
  rows.map fun row => (row.1,
    { row.2 with cache := (g.rowStep row.2.lastToken row.2.nextDecodePosition row.2.cache).2 },
    (g.rowStep row.2.lastToken row.2.nextDecodePosition row.2.cache).1)

theorem applyDecodedTokens_advanced (rows : List (ℕ × ActiveRequestState K)) (s : Scheduler K) :
    Advanced g rows s (applyDecodedTokensToRows (decodedRows g rows) s) := by
  suffices h : ∀ (todo done : List (ℕ × ActiveRequestState K)) (r : List (ℕ × ActiveRequestState K) × Scheduler K),
      Advanced g done s r → Advanced g (done ++ todo) s ((decodedRows g todo).foldl
        (fun r row => applyDecoded r.1 r.2 row.1 row.2.1 row.2.2) r) from h rows [] ([], s) (Advanced.nil s)
  intro todo
  induction todo with
  | nil =>
    intro done r h
    rw [List.append_nil]
    exact h
  | cons row todo ih =>
    intro done r h
    have hstep := h.append (applyDecoded_advanced (g := g) r.2 row.1 row.2)
    rw [← applyDecoded_append] at hstep
    have hrest := ih _ _ hstep
    rw [List.append_assoc, List.singleton_append] at hrest
    exact hrest

/-- rows one batch can take -/
structure GroupOk (g : Generator K) (rows : List (ℕ × ActiveRequestState K)) : Prop where
  ready : ∀ row ∈ rows, RowOk g row.2
  nonempty : rows ≠ []
  short : rows.length ≤ DEVICE_KV_SLOTS
  shared : g.deviceDecode = false → ∃ p, ∀ row ∈ rows, row.2.nextDecodePosition = p

theorem GroupOk.batchable {rows : List (ℕ × ActiveRequestState K)} (h : GroupOk g rows) :
    Batchable g ((rows.map Prod.snd).map ActiveRequestState.nextDecodePosition)
      ((rows.map Prod.snd).map ActiveRequestState.cache) := by
  have hmem : ∀ p ∈ (rows.map Prod.snd).map ActiveRequestState.nextDecodePosition,
      ∃ row ∈ rows, row.2.nextDecodePosition = p := by
    intro p hp
    obtain ⟨a, ha, rfl⟩ := List.mem_map.1 hp
    obtain ⟨row, hrow, rfl⟩ := List.mem_map.1 ha
    exact ⟨row, hrow, rfl⟩
  refine ⟨?_, ?_, ?_, fun p hp => ?_, fun hd p hp => ?_⟩
  · rw [List.forall₂_map_left_iff, List.forall₂_map_right_iff, List.forall₂_same]
    intro a ha
    obtain ⟨row, hrow, rfl⟩ := List.mem_map.1 ha
    exact (h.ready row hrow).cache
  · simpa using h.nonempty
  · simpa using h.short
  · obtain ⟨row, hrow, rfl⟩ := hmem p hp
    exact (h.ready row hrow).position_lt
  · obtain ⟨q, hq⟩ := h.shared hd
    obtain ⟨row, hrow, rfl⟩ := hmem p hp
    rw [hq row hrow]
    cases rows with
    | nil => cases hrow
    | cons first rest => exact (hq first List.mem_cons_self).symm

/-- **A batch of rows.** -/
theorem decodeBatchGroup_advanced {rows : List (ℕ × ActiveRequestState K)} {held : List ℕ} (h : GroupOk g rows)
    (hpool : PoolOk g s.pool held) : Advanced g rows s (decodeBatchGroup g rows s) := by
  have htokens : ((rows.map Prod.snd).map ActiveRequestState.lastToken).length =
      ((rows.map Prod.snd).map ActiveRequestState.nextDecodePosition).length := by simp
  have hbatch := decodeNextTokensBatch_rowwise h.batchable htokens hpool
  unfold decodeBatchGroup
  dsimp only
  rw [hbatch]
  simp only [List.map_map, List.zip_map', Function.comp_def, List.length_map, if_true]
  exact applyDecodedTokens_advanced rows s

theorem decodeSingleRow_advanced {i : ℕ} {a : ActiveRequestState K} {held : List ℕ} (h : RowOk g a)
    (hpool : PoolOk g s.pool held) : Advanced g [(i, a)] s (decodeSingleRow g (i, a) s) := by
  unfold decodeSingleRow
  dsimp only
  rw [decodeNextToken_rowwise h.cache h.position_lt hpool]
  exact applyDecoded_advanced s i a

theorem decodeGroup_advanced {rows : List (ℕ × ActiveRequestState K)} {held : List ℕ} (h : GroupOk g rows)
    (hpool : PoolOk g s.pool held) : Advanced g rows s (decodeGroup g rows s) := by
  unfold decodeGroup
  split
  · exact absurd rfl h.nonempty
  · rename_i row
    exact decodeSingleRow_advanced (h.ready row (List.mem_singleton_self row)) hpool
  · exact decodeBatchGroup_advanced h hpool

/-- **One batch for each position.** -/
theorem decodeGroups_advanced {groups : List (List (ℕ × ActiveRequestState K))} {held : List ℕ}
    (h : ∀ rows ∈ groups, GroupOk g rows)
    (hpool : PoolOk g s.pool (slotsOf (groups.flatten.map Prod.snd) ++ held)) :
    Advanced g groups.flatten s (decodeGroups g groups s) := by
  suffices hgroups : ∀ (todo : List (List (ℕ × ActiveRequestState K))) (done : List (ℕ × ActiveRequestState K))
      (r : List (ℕ × ActiveRequestState K) × Scheduler K), Advanced g done s r → (∀ rows ∈ todo, GroupOk g rows) →
      PoolOk g s.pool (slotsOf (done.map Prod.snd) ++ (slotsOf (todo.flatten.map Prod.snd) ++ held)) →
      Advanced g (done ++ todo.flatten) s (todo.foldl
        (fun r rows => ((r.1 ++ (decodeGroup g rows r.2).1), (decodeGroup g rows r.2).2)) r) from
    hgroups groups [] ([], s) (Advanced.nil s) h hpool
  intro todo
  induction todo with
  | nil =>
    intro done r hdone _ _
    rw [List.flatten_nil, List.append_nil]
    exact hdone
  | cons rows todo ih =>
    intro done r hdone htodo hslots
    have hstep := hdone.append (decodeGroup_advanced (htodo rows List.mem_cons_self) (hdone.pool _ hslots))
    rw [List.flatten_cons, ← List.append_assoc]
    refine ih _ _ hstep (fun rows' hrows' => htodo rows' (List.mem_cons_of_mem _ hrows')) ?_
    simpa only [slotsOf, List.flatten_cons, List.map_append, List.flatMap_append, List.append_assoc] using hslots

/-! ## A round -/

/-- between rounds -/
structure Inv (g : Generator K) (s : Scheduler K) : Prop where
  rows : ∀ a ∈ s.active, RowOk g a
  max : s.maxActiveRequests = DEFAULT_MAX_ACTIVE_REQUESTS
  room : s.active.length ≤ DEFAULT_MAX_ACTIVE_REQUESTS
  pool : PoolOk g s.pool (slotsOf s.active)

/-- one row of the check: kept where its cache is where it should be -/
def keepOrRetire (g : Generator K) (s : Scheduler K) (a : ActiveRequestState K) : Scheduler K :=
  match a.cachePosition g.config with
  | none => { s with active := s.active ++ [a] }
  | some message => s.retire a.cache (a.emitError message)

theorem keepOrRetire_fold (g : Generator K) (s : Scheduler K) :
    s.retireBadCachePositions g = s.active.foldl (keepOrRetire g) { s with active := [] } := rfl

/-- no row is ever retired for its cache position -/
theorem retireBad_same (h : Inv g s) : s.retireBadCachePositions g = s := by
  suffices hrows : ∀ (rows : List (ActiveRequestState K)) (t : Scheduler K), (∀ a ∈ rows, RowOk g a) →
      rows.foldl (keepOrRetire g) t = { t with active := t.active ++ rows } from
    (keepOrRetire_fold g s).trans (hrows s.active { s with active := [] } h.rows)
  intro rows
  induction rows with
  | nil =>
    intro t _
    rw [List.append_nil]
    rfl
  | cons a rows ih =>
    intro t hok
    have hposition : a.cachePosition g.config = none := by
      unfold ActiveRequestState.cachePosition
      dsimp only
      rw [(hok a List.mem_cons_self).cache.position_ok]
      exact if_pos rfl
    rw [List.foldl_cons, keepOrRetire, hposition, ih _ fun b hb => hok b (List.mem_cons_of_mem _ hb)]
    simp only [List.append_assoc, List.singleton_append]

/-- what a round leaves: each row advanced once, in order -/
structure RoundDone (g : Generator K) (s s' : Scheduler K) : Prop where
  active : s'.active = s.active.filterMap (live g)
  closed : s'.closed.Perm (s.closed ++ s.active.filterMap (gone g))
  pending : s'.pending = s.pending
  inv : Inv g s'

/-- a path that handled every row, its rows put back in order -/
theorem Advanced.roundDone (h : Inv g s) {rows : List (ℕ × ActiveRequestState K)}
    {r : List (ℕ × ActiveRequestState K) × Scheduler K} (hrows : rows.Perm (enumerate s.active))
    (hadv : Advanced g rows { s with active := [] } r) : RoundDone g s (settle r) := by
  have hsnd : (rows.map Prod.snd).Perm s.active :=
    (hrows.map Prod.snd).trans (List.Perm.of_eq (enumerate_snd s.active))
  have hactive : restore r.1 = s.active.filterMap (live g) := by
    apply restore_eq
    rw [hadv.kept]
    exact hrows.filterMap _
  have hkept : (r.1.map Prod.snd).Perm (restore r.1) := by
    rw [hactive, hadv.kept, keepAt_snd]
    exact hsnd.filterMap _
  refine ⟨hactive, ?_, hadv.pending, ⟨fun a ha => ?_, hadv.max.trans h.max, ?_, ?_⟩⟩
  · change r.2.closed.Perm _
    rw [hadv.closed]
    exact (hsnd.filterMap _).append_left _
  · rw [settle, hactive] at ha
    obtain ⟨a₀, ha₀, hlive⟩ := List.mem_filterMap.1 ha
    exact ((h.rows a₀ ha₀).live hlive).1
  · rw [settle, hactive]
    exact (List.length_filterMap_le _ _).trans h.room
  · have hpool := hadv.pool [] (by
      rw [List.append_nil]
      exact h.pool.perm (hsnd.symm.flatMap_right _))
    rw [List.append_nil] at hpool
    exact hpool.perm (hkept.flatMap_right _)

/-- **A round is each row's own step**, whichever way the rows are batched. -/
theorem decodeRound_rowwise (h : Inv g s) : ∃ s', s.decodeRound g = some s' ∧ RoundDone g s s' := by
  have hpool : PoolOk g ({ s with active := [] } : Scheduler K).pool (slotsOf s.active) := h.pool
  have hready : ∀ {rows : List (ℕ × ActiveRequestState K)}, rows.Perm (enumerate s.active) →
      ∀ row ∈ rows, RowOk g row.2 := by
    intro rows hrows row hrow
    refine h.rows row.2 ?_
    rw [← enumerate_snd s.active]
    exact List.mem_map_of_mem (hrows.mem_iff.1 hrow)
  have hlength : (enumerate s.active).length ≤ DEVICE_KV_SLOTS := by
    rw [← List.length_map Prod.snd, enumerate_snd]
    exact h.room
  unfold decodeRound
  dsimp only
  rw [retireBad_same h]
  split
  · rename_i hnil
    refine ⟨s, rfl, ?_, ?_, rfl, h⟩
    · rw [hnil]
      rfl
    · rw [hnil, List.filterMap_nil, List.append_nil]
  · rename_i row hrow
    have henum : [(0, row)] = enumerate s.active := by
      rw [hrow]
      rfl
    have hadv := decodeSingleRow_advanced (i := 0) (hready (List.Perm.of_eq henum) _ (List.mem_singleton_self _)) hpool
    have hdone := Advanced.roundDone h (List.Perm.of_eq henum) hadv
    refine ⟨_, rfl, ?_⟩
    have hrestore : restore (decodeSingleRow g (0, row) { s with active := [] }).1 =
        (decodeSingleRow g (0, row) { s with active := [] }).1.map Prod.snd := by
      rw [hadv.kept, List.filterMap_cons]
      cases keepAt (live g) (0, row) <;> simp [restore]
    rw [← hrestore]
    exact hdone
  · rename_i hnil hone
    have hne : enumerate s.active ≠ [] := by
      intro henum
      have hlen := congrArg List.length henum
      rw [← List.length_map Prod.snd, enumerate_snd] at hlen
      exact hnil (List.length_eq_zero_iff.1 hlen)
    split_ifs with hbatch
    · have hgroup : GroupOk g (enumerate s.active) := by
        refine ⟨hready (List.Perm.refl _), hne, hlength, fun hd => ?_⟩
        rw [hd, Bool.false_or] at hbatch
        unfold commonDecodePosition at hbatch
        split at hbatch
        · cases hbatch
        · rename_i first rest hrows
          split_ifs at hbatch with hall
          · refine ⟨first.nextDecodePosition, fun row hrow => ?_⟩
            have hmem : row.2 ∈ s.active := by
              rw [← enumerate_snd s.active]
              exact List.mem_map_of_mem hrow
            exact of_decide_eq_true (List.all_eq_true.1 hall row.2 hmem)
          · cases hbatch
      exact ⟨_, rfl, Advanced.roundDone h (List.Perm.refl _) (decodeBatchGroup_advanced hgroup hpool)⟩
    · obtain ⟨groups, htake, hperm, hkey⟩ := takeGroups_groupBy ActiveRequestState.nextDecodePosition s.active
      have hgroups : ∀ rows ∈ groups, GroupOk g rows := by
        intro rows hrows
        obtain ⟨hnonempty, p, hp⟩ := hkey rows hrows
        have hsub : rows.Sublist groups.flatten := List.sublist_flatten_of_mem hrows
        refine ⟨fun row hrow => hready hperm row (hsub.subset hrow), hnonempty, ?_, fun _ => ⟨p, hp⟩⟩
        exact hsub.length_le.trans (hperm.length_eq.trans_le hlength)
      have hslots : PoolOk g s.pool (slotsOf (groups.flatten.map Prod.snd) ++ []) := by
        rw [List.append_nil]
        refine hpool.perm (List.Perm.flatMap_right _ ?_)
        rw [← enumerate_snd s.active]
        exact (hperm.map Prod.snd).symm
      refine ⟨_, ?_, Advanced.roundDone h hperm (decodeGroups_advanced hgroups hslots)⟩
      unfold takeDecodePositionGroups
      rw [htake]
      rfl

end Scheduler

end Pegainfer.Dsv2Lite
