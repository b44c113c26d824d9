/-
Admissions, the lane, the chunked walk and the driver's turn of Gemma4's scheduler.

Each function is a sequence of entries in the books: a request leaves the queue, is in the caller's hands, and ends up
in the batch, on the lane, in a walk, or closed. None of them changes the batch while a step is in flight.
- `settleFirstToken_whole`: a request joins the batch.
- `admitFromQueue_result`, `joinAsyncPrefill_result`, `advanceWalk_result`: how rows join.
- `turn_result`, `step_inv`, `run_inv`: a turn, an operation, a run.
-/
import Mathlib.Tactic
import Pegainfer.Gemma4.PipelineRounds
import Pegainfer.Lib.Machine

set_option linter.unusedSectionVars false

namespace Pegainfer.Gemma4.Pipeline

open Pegainfer.Lib

variable {oracle : ℕ → List ℕ → ℕ}

/-! ## Admissions -/

/-- the fields an admission's bookkeeping leaves alone -/
structure Untouched (st st' : State) : Prop where
  pipeline : st'.pipeline = st.pipeline
  walk : st'.walk = st.walk
  lane : st'.lane = st.lane

theorem Untouched.refl (st : State) : Untouched st st := ⟨rfl, rfl, rfl⟩

theorem Untouched.trans {a b c : State} (h : Untouched a b) (h' : Untouched b c) : Untouched a c :=
  ⟨h'.pipeline.trans h.pipeline, h'.walk.trans h.walk, h'.lane.trans h.lane⟩

/-- the accounts of held requests are edited, and nothing else -/
theorem Whole.reledger {held held' : List Request} {st : State} (h : Whole oracle held st) {ledger : Ledger}
    (hb : Book oracle (held'.map waiting ++ st.outRows ++ st.activeRows) ledger) :
    Whole oracle held' { st with ledger := ledger } where
  book := hb
  quiet := h.quiet
  staged := h.staged
  trace := h.trace
  walkers := h.walkers
  running := h.running

theorem Whole.pop {held : List Request} {st : State} {req : Request} {rest : List Request}
    (h : Whole oracle held st) (hp : st.pending = req :: rest) :
    Whole oracle (req :: held) { st with pending := rest } where
  book := by
    refine h.book.perm ?_
    have : st.outRows = waiting req :: ({ st with pending := rest } : State).outRows := by
      simp [State.outRows, hp]
    rw [this]
    simp only [List.map_cons, List.cons_append]
    exact List.perm_middle.append_right _
  quiet := h.quiet
  staged := h.staged
  trace := h.trace
  walkers := h.walkers
  running := h.running

theorem Whole.push {held : List Request} {st : State} {req : Request} (h : Whole oracle (req :: held) st) :
    Whole oracle held { st with pending := req :: st.pending } where
  book := by
    refine h.book.perm ?_
    have : ({ st with pending := req :: st.pending } : State).outRows = waiting req :: st.outRows := by
      simp [State.outRows]
    rw [this]
    simp only [List.map_cons, List.cons_append]
    exact List.perm_middle.symm.append_right _
  quiet := h.quiet
  staged := h.staged
  trace := h.trace
  walkers := h.walkers
  running := h.running

/-- a held request fails on its own -/
theorem Whole.failHeld {held : List Request} {st : State} {req : Request} (h : Whole oracle (req :: held) st) :
    Whole oracle held { st with ledger := st.ledger.close req.id .fail } :=
  h.reledger (Book.drop (Book.fail h.book) rfl)

/-- **A first token.** A request not done with its first token joins the rows of the batch. -/
theorem settleFirstToken_whole {held : List Request} {st : State} {req : Request} (h : Whole oracle (req :: held) st)
    (hp : st.pipeline = none) {t : ℕ} (ht : t = oracle req.id []) :
    Whole oracle held (st.settleFirstToken req t) ∧ Untouched st (st.settleFirstToken req t) := by
  refine ⟨?_, rfl, rfl, rfl⟩
  obtain ⟨hbook, hquiet, htrace, hwalk⟩ := h.calm hp
  have hset : Book oracle _ (settleToken st.ledger req t).1 :=
    Book.settleWith (Book.unswap (a := st.active.map idleRow) (r := waiting req) hbook) ht
  simp only [State.settleFirstToken]
  by_cases hdone : (settleToken st.ledger req t).2 = true
  · simp only [hdone, if_true] at hset ⊢
    exact whole_calm hp (hset.drop rfl) hquiet htrace hwalk h.running
  · simp only [hdone, Bool.false_eq_true, if_false] at hset ⊢
    refine whole_calm hp ?_ ?_ htrace hwalk h.running
    · have hrow : idleRow ⟨req, t, false, []⟩ = (req, some ([] ++ [t])) := rfl
      simp only [List.map_append, List.map_cons, List.map_nil, hrow, List.append_assoc, List.singleton_append]
      exact Book.swap hset
    · intro e he
      rcases List.mem_append.1 he with he | he
      · exact hquiet e he
      · simp only [List.mem_singleton] at he
        rw [he]

theorem prepareNewcomer_whole {held : List Request} {st : State} {req : Request} (h : Whole oracle (req :: held) st)
    (door : State.Door) :
    Untouched st (st.prepareNewcomer req door).1 ∧ (st.prepareNewcomer req door).1.active = st.active ∧
      match (st.prepareNewcomer req door).2 with
      | .done => Whole oracle held (st.prepareNewcomer req door).1
      | _ => (st.prepareNewcomer req door).1 = st := by
  simp only [State.prepareNewcomer]
  split
  · rename_i hab
    exact ⟨⟨rfl, rfl, rfl⟩, rfl, h.reledger (Book.drop (Book.retire h.book hab) rfl)⟩
  · split
    · exact ⟨⟨rfl, rfl, rfl⟩, rfl, h.reledger (Book.drop (Book.reject h.book) rfl)⟩
    · split
      · exact ⟨Untouched.refl st, rfl, rfl⟩
      · exact ⟨Untouched.refl st, rfl, rfl⟩
      · exact ⟨⟨rfl, rfl, rfl⟩, rfl, h.reledger (Book.drop (Book.reject h.book) rfl)⟩

theorem Whole.reheld {held held' : List Request} {st : State} (h : Whole oracle held st) (hp : held.Perm held') :
    Whole oracle held' st where
  book := h.book.perm (((hp.map waiting).append_right _).append_right _)
  quiet := h.quiet
  staged := h.staged
  trace := h.trace
  walkers := h.walkers
  running := h.running

theorem gather_whole (doors : List State.Door) : ∀ {newcomers : List Request} {st : State},
    Whole oracle newcomers st →
      Whole oracle (State.gather doors newcomers st).1 (State.gather doors newcomers st).2 ∧
        Untouched st (State.gather doors newcomers st).2 := by
  induction doors with
  | nil => exact fun h => ⟨h, Untouched.refl _⟩
  | cons door doors ih =>
    intro newcomers st h
    simp only [State.gather]
    split
    · exact ⟨h, Untouched.refl _⟩
    · rename_i req rest hpend
      split
      · exact ⟨h, Untouched.refl _⟩
      · have hpop := h.pop hpend
        obtain ⟨hshape, -, hcase⟩ := prepareNewcomer_whole hpop door
        have hshape' : Untouched st ({ st with pending := rest }.prepareNewcomer req door).1 :=
          ⟨hshape.pipeline, hshape.walk, hshape.lane⟩
        split
        · rename_i st' hst'
          rw [hst'] at hcase hshape'
          obtain rfl := hcase
          obtain ⟨h1, h2⟩ := ih (hpop.reheld (List.perm_append_singleton req newcomers).symm)
          exact ⟨h1, hshape'.trans h2⟩
        · rename_i st' hst'
          rw [hst'] at hcase hshape'
          obtain ⟨h1, h2⟩ := ih hcase
          exact ⟨h1, hshape'.trans h2⟩
        · rename_i st' hst'
          rw [hst'] at hcase hshape'
          obtain rfl := hcase
          exact ⟨hpop.push, ⟨rfl, rfl, rfl⟩⟩

theorem foldl_settleFirstToken_whole (newcomers : List Request) : ∀ {st : State}, Whole oracle newcomers st →
    st.pipeline = none →
      Whole oracle [] (newcomers.foldl (fun st r => st.settleFirstToken r (oracle r.id [])) st) ∧
        Untouched st (newcomers.foldl (fun st r => st.settleFirstToken r (oracle r.id [])) st) := by
  induction newcomers with
  | nil => exact fun h _ => ⟨h, Untouched.refl _⟩
  | cons r newcomers ih =>
    intro st h hp
    obtain ⟨h1, h2⟩ := settleFirstToken_whole h hp rfl
    obtain ⟨h3, h4⟩ := ih h1 (h2.pipeline.trans hp)
    exact ⟨h3, h2.trans h4⟩

theorem halted_failMixed {held : List Request} {st : State} (h : Whole oracle held st) (hp : st.pipeline = none)
    (reqs : List Request) : Halted oracle (st.failMixed reqs) where
  accts := accounts_foldl oracle Request.id reqs
    (accounts_foldl oracle (fun e : Active => e.req.id) st.active h.book.accts)
  trace := by
    obtain ⟨-, -, htrace, -⟩ := h.calm hp
    have h2 : replay [] (st.trace ++ st.rowIds.map .release) = some [] := by
      rw [replay_append, htrace]
      exact replay_releases _
    exact Option.isSome_iff_exists.2 ⟨[], h2⟩
  idle := hp
  stopped := rfl

theorem walkRows_fresh (newcomers : List Request) (rests : ℕ → ℕ) :
    walkRows (some ⟨newcomers.map fun r => ⟨r, rests r.id + 1, none, false⟩, true⟩) = newcomers.map waiting := by
  have hall : ∀ w ∈ newcomers.map (fun r => (⟨r, rests r.id + 1, none, false⟩ : Walker)), (!w.failed) = true := by
    intro w hw
    obtain ⟨r, -, rfl⟩ := List.mem_map.1 hw
    rfl
  simp only [walkRows, List.filter_eq_self.2 hall, List.map_map]
  rfl

theorem mixedAdmission_result {newcomers : List Request} {st : State} (h : Whole oracle newcomers st)
    (hp : st.pipeline = none) (hw : st.walk = none) (cfg : Config) (env : State.Intake) :
    Result oracle [] (st.mixedAdmission oracle cfg env newcomers) ∧
      ∀ st', st.mixedAdmission oracle cfg env newcomers = .ok st' → st'.lane = st.lane ∧ st'.pipeline = none := by
  simp only [State.mixedAdmission]
  split
  · refine ⟨?_, ?_⟩
    · obtain ⟨hbook, hquiet, htrace, -⟩ := h.calm hp
      refine whole_calm hp ?_ hquiet htrace ?_ h.running
      · refine hbook.perm (List.Perm.append_left _ ?_)
        simp only [State.outRows, hw, walkRows_fresh, List.map_nil, List.nil_append]
        simp only [walkRows, List.append_nil]
        exact List.perm_append_comm
      · rintro walk hwalk w hwmem
        cases hwalk
        obtain ⟨r, -, rfl⟩ := List.mem_map.1 hwmem
        intro _
        exact ⟨fun _ => Nat.succ_pos _, fun t ht => by cases ht⟩
    · rintro st' hst'
      cases hst'
      exact ⟨rfl, hp⟩
  · split
    · exact ⟨halted_failMixed h hp newcomers, fun st' hst' => by cases hst'⟩
    · have hstep := wholeStep_whole h hp (newcomers.map Request.id)
      obtain ⟨h1, h2⟩ := foldl_settleFirstToken_whole newcomers hstep hp
      refine ⟨h1, ?_⟩
      rintro st' hst'
      cases hst'
      exact ⟨h2.lane, h2.pipeline.trans hp⟩

theorem Whole.toLane {st : State} {req : Request} (h : Whole oracle [req] st) (hl : st.lane = none) :
    Whole oracle [] { st with lane := some req } where
  book := by
    refine h.book.perm ?_
    refine List.Perm.append_right _ ?_
    simp only [State.outRows, hl, Option.toList_none, List.map_nil, List.append_nil, Option.toList_some, List.map_cons,
      List.nil_append, List.singleton_append, List.append_assoc]
    exact List.perm_middle.symm
  quiet := h.quiet
  staged := h.staged
  trace := h.trace
  walkers := h.walkers
  running := h.running

theorem Whole.fromLane {st : State} {req : Request} (h : Whole oracle [] st) (hl : st.lane = some req) :
    Whole oracle [req] { st with lane := none } where
  book := by
    refine h.book.perm ?_
    refine List.Perm.append_right _ ?_
    simp only [State.outRows, hl, Option.toList_none, List.map_nil, List.append_nil, Option.toList_some, List.map_cons,
      List.nil_append, List.singleton_append, List.append_assoc]
    exact List.perm_middle
  quiet := h.quiet
  staged := h.staged
  trace := h.trace
  walkers := h.walkers
  running := h.running

theorem soloPrefill_whole {st : State} {req : Request} (h : Whole oracle [req] st) (hp : st.pipeline = none)
    (fault : Bool) : Whole oracle [] (st.soloPrefill oracle req fault) ∧
      Untouched st (st.soloPrefill oracle req fault) := by
  cases fault with
  | true => exact ⟨h.failHeld, rfl, rfl, rfl⟩
  | false => exact settleFirstToken_whole h hp rfl

/-- an empty batch has nothing in flight -/
theorem Whole.idle_of_empty {held : List Request} {st : State} (h : Whole oracle held st) (he : st.active = []) :
    st.pipeline = none := by
  cases hp : st.pipeline with
  | none => rfl
  | some p => exact absurd he (h.staged p hp).2.1

/-- an admission's result -/
def Admitted (oracle : ℕ → List ℕ → ℕ) : Except State (State × State.Turn) → Prop
  | .ok (st, _) => Whole oracle [] st
  | .error st => Halted oracle st

/-- a newcomer with nothing in flight: beside the live batch, or on its own -/
theorem admitIdle {st : State} {req : Request} (h : Whole oracle [req] st) (hp : st.pipeline = none)
    (hw : st.walk = none) (cfg : Config) (env : State.Intake) :
    Admitted oracle (if !st.active.isEmpty && !req.scored && env.mixedFits then
      let st := st.readyDecodeRows env.short
      if st.active.isEmpty then .ok (st.soloPrefill oracle req env.prefillFault, .more)
      else
        let (newcomers, st) := State.gather env.gathered [req] st
        match st.mixedAdmission oracle cfg env newcomers with
        | .error st => .error st
        | .ok st => .ok (st, .more)
    else .ok (st.soloPrefill oracle req env.prefillFault, .more)) := by
  split
  · obtain ⟨hr, hrp, hrw, -⟩ := readyDecodeRows_whole h hp env.short
    simp only
    split
    · exact (soloPrefill_whole hr hrp env.prefillFault).1
    · obtain ⟨hg, hgs⟩ := gather_whole env.gathered hr
      have hmix := (mixedAdmission_result hg (hgs.pipeline.trans hrp) (hgs.walk.trans (hrw.trans hw)) cfg env).1
      split
      · rename_i st' hst'
        rw [hst'] at hmix
        exact hmix
      · rename_i st' hst'
        rw [hst'] at hmix
        exact hmix
  · exact (soloPrefill_whole h hp env.prefillFault).1

/-- **One admission.** -/
theorem admitAndPrefill_result {st : State} {req : Request} (h : Whole oracle [req] st) (hw : st.walk = none)
    (hl : st.lane = none) (cfg : Config) (env : State.Intake) :
    Admitted oracle (st.admitAndPrefill oracle cfg env req) := by
  obtain ⟨hshape, hact, hcase⟩ := prepareNewcomer_whole h env.door
  simp only [State.admitAndPrefill]
  split
  · rename_i st' hst'
    rw [hst'] at hcase
    exact hcase
  · rename_i st' hst'
    rw [hst'] at hcase
    obtain rfl := hcase
    exact h.push
  · rename_i st' hst'
    rw [hst'] at hcase
    obtain rfl := hcase
    split
    · split
      · exact h.failHeld
      · exact h.toLane hl
    · have hdrain : ∀ r, (if st'.active.isEmpty then .ok st' else st'.drainPipeline env.readFault : Except State State) = r →
          Result oracle [req] r ∧ ∀ st'', r = .ok st'' → st''.pipeline = none ∧ st''.walk = none ∧ st''.lane = none := by
        rintro r rfl
        split
        · rename_i he
          refine ⟨h, ?_⟩
          rintro st'' hst''
          cases hst''
          exact ⟨h.idle_of_empty (by simpa using he), hw, hl⟩
        · obtain ⟨hres, hok⟩ := drainPipeline_result h env.readFault
          refine ⟨hres, fun st'' hst'' => ?_⟩
          obtain ⟨h1, h3, h2, -⟩ := hok st'' hst''
          exact ⟨h1, h2.trans hw, h3.trans hl⟩
      split
      · rename_i st'' hst''
        exact (hdrain _ hst'').1
      · rename_i st'' hst''
        obtain ⟨hres, hidle⟩ := hdrain _ hst''
        obtain ⟨hp, hw', hl'⟩ := hidle st'' rfl
        exact admitIdle hres hp hw' cfg env

theorem admitFromQueue_result (cfg : Config) (envs : List State.Intake) : ∀ {st : State}, Whole oracle [] st →
    st.walk = none → Result oracle [] (st.admitFromQueue oracle cfg envs) := by
  induction envs with
  | nil => exact fun h _ => h
  | cons env envs ih =>
    intro st h hw
    simp only [State.admitFromQueue]
    split
    · exact h
    · rename_i hgo
      have hl : st.lane = none := by
        simp only [Bool.or_eq_true, not_or, Bool.not_eq_true, Option.isSome_eq_false_iff, Option.isNone_iff_eq_none] at hgo
        exact hgo.2
      split
      · exact h
      · rename_i req rest hpend
        have hadm := admitAndPrefill_result (h.pop hpend) hw hl cfg env
        split
        · rename_i st' hst'
          rw [hst'] at hadm
          exact hadm
        · rename_i st' hst'
          rw [hst'] at hadm
          exact hadm
        · rename_i st' hst'
          rw [hst'] at hadm
          split
          · exact hadm
          · rename_i hwalk
            exact ih hadm (by simpa using hwalk)

/-- a lane's prefill joins with nothing in flight -/
theorem joinAsyncPrefill_result {st : State} (h : Whole oracle [] st) (hw : st.walk = none) (readFault bad : Bool) :
    Result oracle [] (st.joinAsyncPrefill oracle readFault bad) ∧
      ∀ st', st.joinAsyncPrefill oracle readFault bad = .ok st' → st'.walk = none := by
  simp only [State.joinAsyncPrefill]
  cases hl : st.lane with
  | none =>
    refine ⟨h, ?_⟩
    rintro st' hst'
    cases hst'
    exact hw
  | some req =>
    obtain ⟨hres, hok⟩ := drainPipeline_result h readFault
    cases hd : st.drainPipeline readFault with
    | error st' =>
      rw [hd] at hres
      exact ⟨hres, fun st' hst' => by cases hst'⟩
    | ok st' =>
      rw [hd] at hres
      obtain ⟨hp', hl', hw', -⟩ := hok st' hd
      have hheld := Whole.fromLane hres (hl'.trans hl)
      have hwalk : st'.walk = none := hw'.trans hw
      simp only
      split
      · rename_i hab
        refine ⟨hheld.reledger (Book.drop (Book.retire hheld.book hab) rfl), ?_⟩
        rintro st'' hst''
        cases hst''
        exact hwalk
      · split
        · refine ⟨hheld.failHeld, ?_⟩
          rintro st'' hst''
          cases hst''
          exact hwalk
        · obtain ⟨h1, h2⟩ := settleFirstToken_whole hheld hp' rfl
          refine ⟨h1, ?_⟩
          rintro st'' hst''
          cases hst''
          exact h2.walk.trans hwalk

/-! ## The chunked walk -/

/-- the requests of walkers still open, in the caller's hands while the walk runs -/
def openReqs (ws : List Walker) : List Request := (ws.filter fun w => !w.failed).map Walker.req

theorem openReqs_cons_failed {w : Walker} (ws : List Walker) (h : w.failed = true) : openReqs (w :: ws) = openReqs ws := by
  simp [openReqs, h]

theorem openReqs_cons_open {w : Walker} (ws : List Walker) (h : w.failed = false) :
    openReqs (w :: ws) = w.req :: openReqs ws := by
  simp [openReqs, h]

theorem Whole.fromWalk {st : State} {walk : Walk} (h : Whole oracle [] st) (hw : st.walk = some walk) :
    Whole oracle (openReqs walk.walkers) { st with walk := none } where
  book := by
    refine h.book.perm (List.Perm.append_right _ ?_)
    have hrows : walkRows (some walk) = (openReqs walk.walkers).map waiting := by
      simp only [walkRows, openReqs, List.map_map]
      rfl
    simp only [State.outRows, hw, hrows, List.map_nil, List.nil_append]
    simp only [walkRows, List.append_nil]
    exact List.perm_append_comm
  quiet := h.quiet
  staged := h.staged
  trace := h.trace
  walkers := fun walk hwalk => by cases hwalk
  running := h.running

theorem Whole.toWalk {st : State} {ws : List Walker} (h : Whole oracle (openReqs ws) st) (hp : st.pipeline = none)
    (hw : st.walk = none) (hok : ∀ w ∈ ws, WalkerOk oracle w) (first : Bool) :
    Whole oracle [] { st with walk := some ⟨ws, first⟩ } where
  book := by
    refine h.book.perm (List.Perm.append_right _ ?_)
    have hrows : walkRows (some ⟨ws, first⟩) = (openReqs ws).map waiting := by
      simp only [walkRows, openReqs, List.map_map]
      rfl
    simp only [State.outRows, hw, hrows, List.map_nil, List.nil_append]
    simp only [walkRows, List.append_nil]
    exact List.perm_append_comm
  quiet := h.quiet
  staged := h.staged
  trace := h.trace
  walkers := by
    rintro walk hwalk
    cases hwalk
    exact ⟨hp, hok⟩
  running := h.running

/-- the rows a walk's bookkeeping leaves alone may stand anywhere behind its own -/
theorem book_retireWalkers : ∀ (ws : List Walker) {rest : List BookRow} {ledger : Ledger},
    Book oracle ((openReqs ws).map waiting ++ rest) ledger →
      Book oracle ((openReqs (State.retireWalkers ws ledger).1).map waiting ++ rest) (State.retireWalkers ws ledger).2 := by
  intro ws
  induction ws with
  | nil => exact fun h => h
  | cons w ws ih =>
    intro rest ledger h
    simp only [State.retireWalkers]
    split
    · rename_i hab
      simp only [Bool.and_eq_true, Bool.not_eq_true'] at hab
      rw [openReqs_cons_open ws hab.1] at h
      rw [openReqs_cons_failed _ rfl]
      exact ih (Book.drop (Book.retire h hab.2) rfl)
    · cases hf : w.failed with
      | true =>
        rw [openReqs_cons_failed ws hf] at h
        rw [openReqs_cons_failed _ hf]
        exact ih h
      | false =>
        rw [openReqs_cons_open ws hf] at h
        rw [openReqs_cons_open _ hf]
        exact Book.unswap (ih (Book.swap h))

theorem walkerOk_failed {w : Walker} (h : w.failed = true) : WalkerOk oracle w := by
  intro hf
  rw [h] at hf
  cases hf

theorem retireWalkers_ok : ∀ (ws : List Walker) (ledger : Ledger), (∀ w ∈ ws, WalkerOk oracle w) →
    ∀ w ∈ (State.retireWalkers ws ledger).1, WalkerOk oracle w := by
  intro ws
  induction ws with
  | nil => exact fun _ h => h
  | cons w ws ih =>
    intro ledger h
    obtain ⟨hw, hws⟩ := List.forall_mem_cons.1 h
    simp only [State.retireWalkers]
    split
    · exact List.forall_mem_cons.2 ⟨walkerOk_failed rfl, ih _ hws⟩
    · exact List.forall_mem_cons.2 ⟨hw, ih _ hws⟩

/-- **The walkers that are done join.** Those that stay have no first token yet. -/
theorem graduateReady_whole : ∀ (ws : List Walker) {extra : List Request} {st : State},
    Whole oracle (openReqs ws ++ extra) st → st.pipeline = none → (∀ w ∈ ws, WalkerOk oracle w) →
      Whole oracle (openReqs (State.graduateReady ws st).1 ++ extra) (State.graduateReady ws st).2 ∧
        Untouched st (State.graduateReady ws st).2 ∧
        ∀ w ∈ (State.graduateReady ws st).1, WalkerOk oracle w ∧ (w.failed = false → w.first = none) := by
  intro ws
  induction ws with
  | nil => exact fun h _ _ => ⟨h, Untouched.refl _, fun w hw => by cases hw⟩
  | cons w ws ih =>
    intro extra st h hp hok
    obtain ⟨hw, hws⟩ := List.forall_mem_cons.1 hok
    simp only [State.graduateReady]
    split
    · rename_i t hf ht
      rw [openReqs_cons_open ws hf] at h
      obtain ⟨h1, h2⟩ := settleFirstToken_whole h hp ((hw hf).2 t ht)
      obtain ⟨h3, h4, h5⟩ := ih h1 (h2.pipeline.trans hp) hws
      exact ⟨h3, h2.trans h4, h5⟩
    · rename_i hstay
      have hnone : w.failed = false → w.first = none := by
        intro hf
        cases ht : w.first with
        | none => rfl
        | some t => exact absurd ht (hstay t hf)
      cases hf : w.failed with
      | true =>
        rw [openReqs_cons_failed ws hf] at h
        obtain ⟨h3, h4, h5⟩ := ih h hp hws
        refine ⟨?_, h4, List.forall_mem_cons.2 ⟨⟨hw, hnone⟩, h5⟩⟩
        rw [openReqs_cons_failed _ hf]
        exact h3
      | false =>
        rw [openReqs_cons_open ws hf] at h
        obtain ⟨h3, h4, h5⟩ := ih (h.reheld List.perm_middle.symm) hp hws
        refine ⟨?_, h4, List.forall_mem_cons.2 ⟨⟨hw, hnone⟩, h5⟩⟩
        rw [openReqs_cons_open _ hf]
        exact h3.reheld List.perm_middle

theorem mem_of_graduateReady : ∀ (ws : List Walker) (st : State), ∀ w ∈ (State.graduateReady ws st).1, w ∈ ws := by
  intro ws
  induction ws with
  | nil => exact fun _ w hw => hw
  | cons w ws ih =>
    intro st x hx
    simp only [State.graduateReady] at hx
    split at hx
    · exact List.mem_cons_of_mem _ (ih _ x hx)
    · rcases List.mem_cons.1 hx with rfl | hx
      · exact List.mem_cons_self
      · exact List.mem_cons_of_mem _ (ih _ x hx)

theorem book_takeSegments (segShort : ℕ → Bool) : ∀ (ws : List Walker) (budget : ℕ) {rest : List BookRow}
    {ledger : Ledger}, Book oracle ((openReqs ws).map waiting ++ rest) ledger →
      Book oracle ((openReqs ((State.takeSegments segShort budget ws ledger).1.map Prod.fst)).map waiting ++ rest)
        (State.takeSegments segShort budget ws ledger).2 := by
  intro ws
  induction ws with
  | nil => exact fun _ _ _ h => h
  | cons w ws ih =>
    intro budget rest ledger h
    have hkeep : ∀ budget', Book oracle ((openReqs (w :: (State.takeSegments segShort budget' ws ledger).1.map
        Prod.fst)).map waiting ++ rest) (State.takeSegments segShort budget' ws ledger).2 := by
      intro budget'
      cases hf : w.failed with
      | true =>
        rw [openReqs_cons_failed ws hf] at h
        rw [openReqs_cons_failed _ hf]
        exact ih budget' h
      | false =>
        rw [openReqs_cons_open ws hf] at h
        rw [openReqs_cons_open _ hf]
        exact Book.unswap (ih budget' (Book.swap h))
    simp only [State.takeSegments]
    split
    · exact hkeep budget
    · rename_i hgo
      simp only [Bool.or_eq_true, not_or, Bool.not_eq_true] at hgo
      split
      · rw [openReqs_cons_open ws hgo.1] at h
        simp only [List.map_cons]
        rw [openReqs_cons_failed _ rfl]
        exact ih budget (Book.drop (Book.fail h) rfl)
      · exact hkeep _

theorem takeSegments_ok (segShort : ℕ → Bool) : ∀ (ws : List Walker) (budget : ℕ) (ledger : Ledger),
    (∀ w ∈ ws, WalkerOk oracle w) → ∀ p ∈ (State.takeSegments segShort budget ws ledger).1,
      WalkerOk oracle p.1 ∧ p.2 ≤ p.1.rest := by
  intro ws
  induction ws with
  | nil => exact fun _ _ _ p hp => by cases hp
  | cons w ws ih =>
    intro budget ledger h
    obtain ⟨hw, hws⟩ := List.forall_mem_cons.1 h
    simp only [State.takeSegments]
    split
    · exact List.forall_mem_cons.2 ⟨⟨hw, Nat.zero_le _⟩, ih _ _ hws⟩
    · split
      · exact List.forall_mem_cons.2 ⟨⟨walkerOk_failed rfl, Nat.zero_le _⟩, ih _ _ hws⟩
      · exact List.forall_mem_cons.2 ⟨⟨hw, Nat.min_le_left _ _⟩, ih _ _ hws⟩

/-- a walker that took a segment has its first token exactly when nothing is left -/
theorem advanceWalker_ok {p : Walker × ℕ} (h : WalkerOk oracle p.1) (hle : p.2 ≤ p.1.rest) :
    WalkerOk oracle (State.advanceWalker oracle p) := by
  simp only [State.advanceWalker]
  split
  · exact h
  · intro hf
    by_cases hlast : p.2 = p.1.rest
    · simp only [hlast, if_true]
      refine ⟨(fun hn => by cases hn), ?_⟩
      rintro t ht
      exact (Option.some.inj ht).symm
    · simp only [hlast, if_false]
      exact ⟨fun _ => by omega, (h hf).2⟩

theorem openReqs_advance (taken : List (Walker × ℕ)) :
    openReqs (taken.map (State.advanceWalker oracle)) = openReqs (taken.map Prod.fst) := by
  induction taken with
  | nil => rfl
  | cons p taken ih =>
    have hreq : (State.advanceWalker oracle p).req = p.1.req ∧ (State.advanceWalker oracle p).failed = p.1.failed := by
      simp only [State.advanceWalker]
      split <;> exact ⟨rfl, rfl⟩
    simp only [List.map_cons]
    cases hf : p.1.failed with
    | true => rw [openReqs_cons_failed _ hf, openReqs_cons_failed _ (hreq.2.trans hf), ih]
    | false => rw [openReqs_cons_open _ hf, openReqs_cons_open _ (hreq.2.trans hf), ih, hreq.1]

theorem book_finishPlainWalkers (tailFault : ℕ → Bool) : ∀ (ws : List Walker) {rest : List BookRow} {ledger : Ledger},
    Book oracle ((openReqs ws).map waiting ++ rest) ledger →
      Book oracle ((openReqs (State.finishPlainWalkers oracle tailFault ws ledger).1).map waiting ++ rest)
        (State.finishPlainWalkers oracle tailFault ws ledger).2 := by
  intro ws
  induction ws with
  | nil => exact fun h => h
  | cons w ws ih =>
    intro rest ledger h
    simp only [State.finishPlainWalkers]
    split
    · cases hf : w.failed with
      | true =>
        rw [openReqs_cons_failed ws hf] at h
        rw [openReqs_cons_failed _ hf]
        exact ih h
      | false =>
        rw [openReqs_cons_open ws hf] at h
        rw [openReqs_cons_open _ hf]
        exact Book.unswap (ih (Book.swap h))
    · rename_i hgo
      simp only [Bool.or_eq_true, not_or, Bool.not_eq_true] at hgo
      rw [openReqs_cons_open ws hgo.1] at h
      split
      · rw [openReqs_cons_failed _ rfl]
        exact ih (Book.drop (Book.fail h) rfl)
      · rw [openReqs_cons_open (w := ⟨w.req, 0, some (oracle w.req.id []), w.failed⟩) _ hgo.1]
        exact Book.unswap (ih (Book.swap h))

/-- after the plain walks every open walker has its first token -/
theorem finishPlainWalkers_ok (tailFault : ℕ → Bool) : ∀ (ws : List Walker) (ledger : Ledger),
    (∀ w ∈ ws, WalkerOk oracle w) → ∀ w ∈ (State.finishPlainWalkers oracle tailFault ws ledger).1,
      WalkerOk oracle w ∧ (w.failed = false → w.first ≠ none) := by
  intro ws
  induction ws with
  | nil => exact fun _ _ w hw => by cases hw
  | cons w ws ih =>
    intro ledger h
    obtain ⟨hw, hws⟩ := List.forall_mem_cons.1 h
    simp only [State.finishPlainWalkers]
    split
    · rename_i hstay
      refine List.forall_mem_cons.2 ⟨⟨hw, fun hf hn => ?_⟩, ih _ hws⟩
      have hpos := (hw hf).1 hn
      simp only [hf, Bool.false_or, decide_eq_true_eq] at hstay
      omega
    · split
      · exact List.forall_mem_cons.2 ⟨⟨walkerOk_failed rfl, (fun hf => by cases hf)⟩, ih _ hws⟩
      · refine List.forall_mem_cons.2 ⟨⟨fun _ => ⟨(fun hn => by cases hn), ?_⟩, (fun _ hn => by cases hn)⟩, ih _ hws⟩
        rintro t ht
        exact (Option.some.inj ht).symm

theorem openReqs_eq_nil {ws : List Walker} (h : ∀ w ∈ ws, w.failed = true) : openReqs ws = [] := by
  simp only [openReqs, List.map_eq_nil_iff, List.filter_eq_nil_iff]
  intro w hw
  simp [h w hw]

/-- **One round of the walk.** -/
theorem advanceWalkRound_result {st : State} {walk : Walk} (h : Whole oracle (openReqs walk.walkers) st)
    (hp : st.pipeline = none) (hw : st.walk = none) (hok : ∀ w ∈ walk.walkers, WalkerOk oracle w) (chunk : ℕ)
    (env : State.WalkEnv) : Result oracle [] (st.advanceWalkRound oracle chunk env walk) := by
  have hret : Whole oracle (openReqs (State.retireWalkers walk.walkers st.ledger).1 ++ [])
      { st with ledger := (State.retireWalkers walk.walkers st.ledger).2 } := by
    rw [List.append_nil]
    refine h.reledger ?_
    rw [List.append_assoc]
    refine book_retireWalkers walk.walkers ?_
    rw [← List.append_assoc]
    exact h.book
  obtain ⟨hg, hgs, hgok⟩ := graduateReady_whole _ hret hp (retireWalkers_ok walk.walkers st.ledger hok)
  simp only [List.append_nil] at hg
  simp only [State.advanceWalkRound]
  generalize State.graduateReady _ _ = g at hg hgs hgok ⊢
  obtain ⟨ws, st₁⟩ := g
  simp only at hg hgs hgok ⊢
  have hp₁ : st₁.pipeline = none := hgs.pipeline.trans hp
  have hw₁ : st₁.walk = none := hgs.walk.trans hw
  split
  · -- every open walker would still have prompt
    rename_i hnone
    have hfailed : ∀ w ∈ ws, w.failed = true := by
      intro w hwm
      obtain ⟨hwok, hfirst⟩ := hgok w hwm
      by_contra hf
      simp only [Bool.not_eq_true] at hf
      have hpos := (hwok hf).1 (hfirst hf)
      simp only [Bool.not_eq_true', List.any_eq_false, Bool.and_eq_true, decide_eq_true_eq, not_and] at hnone
      exact hnone w hwm (by simp [hf]) hpos
    rw [openReqs_eq_nil hfailed] at hg
    exact hg
  · have hready : Whole oracle (openReqs ws) (if walk.firstRound then st₁ else st₁.readyDecodeRows env.short) ∧
        (if walk.firstRound then st₁ else st₁.readyDecodeRows env.short).pipeline = none ∧
        (if walk.firstRound then st₁ else st₁.readyDecodeRows env.short).walk = none := by
      split
      · exact ⟨hg, hp₁, hw₁⟩
      · obtain ⟨hr, hrp, hrw, -⟩ := readyDecodeRows_whole hg hp₁ env.short
        exact ⟨hr, hrp, hrw.trans hw₁⟩
    generalize (if walk.firstRound then st₁ else st₁.readyDecodeRows env.short) = st₂ at hready ⊢
    obtain ⟨hr, hrp, hrw⟩ := hready
    have hwsok : ∀ w ∈ ws, WalkerOk oracle w := fun w hwm => (hgok w hwm).1
    have hfront : ∀ {ws' : List Walker} {ledger : Ledger},
        Book oracle ((openReqs ws').map waiting ++ (st₂.outRows ++ st₂.activeRows)) ledger →
          Whole oracle (openReqs ws') { st₂ with ledger := ledger } := by
      intro ws' ledger hb
      refine hr.reledger ?_
      rw [List.append_assoc]
      exact hb
    have hbook : Book oracle ((openReqs ws).map waiting ++ (st₂.outRows ++ st₂.activeRows)) st₂.ledger := by
      rw [← List.append_assoc]
      exact hr.book
    split
    · split
      · exact ⟨hr.book.accts, Option.isSome_iff_exists.2 ⟨_, hr.trace⟩, hrp, rfl⟩
      · have hfin := hfront (book_finishPlainWalkers env.tailFault ws hbook)
        have hfok := finishPlainWalkers_ok env.tailFault ws st₂.ledger hwsok
        rw [← List.append_nil (openReqs _)] at hfin
        obtain ⟨h3, -, h5⟩ := graduateReady_whole _ hfin hrp (fun w hwm => (hfok w hwm).1)
        have hfailed : ∀ w ∈ (State.graduateReady (State.finishPlainWalkers oracle env.tailFault ws st₂.ledger).1
            { st₂ with ledger := (State.finishPlainWalkers oracle env.tailFault ws st₂.ledger).2 }).1,
            w.failed = true := by
          intro w hwm
          by_contra hf
          simp only [Bool.not_eq_true] at hf
          exact (hfok w (mem_of_graduateReady _ _ w hwm)).2 hf ((h5 w hwm).2 hf)
        rw [openReqs_eq_nil hfailed, List.append_nil] at h3
        exact h3
    · have htake := hfront (book_takeSegments env.segShort ws chunk hbook)
      have htok := takeSegments_ok env.segShort ws chunk st₂.ledger hwsok
      generalize State.takeSegments env.segShort chunk ws st₂.ledger = seg at htake htok ⊢
      obtain ⟨taken, ledger⟩ := seg
      simp only at htake htok ⊢
      split
      · exact halted_failMixed htake hrp _
      · have hstep := wholeStep_whole htake hrp ((taken.filter fun p => p.2 ≠ 0).map fun p => p.1.req.id)
        rw [← List.append_nil (openReqs _), ← openReqs_advance] at hstep
        obtain ⟨h3, h4, h5⟩ := graduateReady_whole _ hstep hrp (by
          rintro w hwm
          obtain ⟨p, hpm, rfl⟩ := List.mem_map.1 hwm
          exact advanceWalker_ok (htok p hpm).1 (htok p hpm).2)
        generalize State.graduateReady _ _ = g at h3 h4 h5 ⊢
        obtain ⟨ws', st₃⟩ := g
        simp only [List.append_nil] at h3 h4 h5 ⊢
        split
        · exact h3.toWalk (h4.pipeline.trans hrp) (h4.walk.trans hrw) (fun w hwm => (h5 w hwm).1) false
        · rename_i hnone
          have hfailed : ∀ w ∈ ws', w.failed = true := by
            intro w hwm
            by_contra hf
            simp only [Bool.not_eq_true] at hf
            refine hnone (List.any_eq_true.2 ⟨w, hwm, ?_⟩)
            simp [hf, (h5 w hwm).2 hf]
          rw [openReqs_eq_nil hfailed] at h3
          exact h3

theorem advanceWalk_result {st : State} (h : Whole oracle [] st) (cfg : Config) (env : State.WalkEnv) :
    Result oracle [] (st.advanceWalk oracle cfg env) := by
  simp only [State.advanceWalk]
  split
  · exact h
  · rename_i walk hw
    obtain ⟨hp, hok⟩ := h.walkers walk hw
    exact advanceWalkRound_result (h.fromWalk hw) hp rfl hok _ env

/-! ## The driver -/

/-- **One turn.** -/
theorem turn_result {st : State} (h : Whole oracle [] st) (cfg : Config) (env : State.StepEnv) :
    Result oracle [] (st.turn oracle cfg env) := by
  simp only [State.turn]
  split
  · exact advanceWalk_result h cfg env.walk
  · rename_i hwalk
    have hw : st.walk = none := by simpa using hwalk
    have hjoin : ∀ r, (if env.laneReady then st.joinAsyncPrefill oracle env.joinReadFault env.laneBad else .ok st :
        Except State State) = r → Result oracle [] r ∧ ∀ st', r = .ok st' → st'.walk = none := by
      rintro r rfl
      split
      · exact joinAsyncPrefill_result h hw env.joinReadFault env.laneBad
      · refine ⟨h, ?_⟩
        rintro st' hst'
        cases hst'
        exact hw
    split
    · rename_i st' hst'
      exact (hjoin _ hst').1
    · rename_i st' hst'
      obtain ⟨hj, hjw⟩ := hjoin _ hst'
      have hadm := admitFromQueue_result cfg env.intake hj (hjw st' rfl)
      split
      · rename_i st'' hst''
        rw [hst''] at hadm
        exact hadm
      · rename_i st'' hst''
        rw [hst''] at hadm
        split
        · exact advanceWalk_result hadm cfg env.walk
        · rename_i hwalk''
          split
          · exact hadm
          · exact decodeRound_result hadm (by simpa using hwalk'') cfg env.round

theorem whole_new (oracle : ℕ → List ℕ → ℕ) : Whole oracle [] State.new where
  book := ⟨List.nodup_nil, (fun r hr => by cases hr), (fun r hr => by cases hr), (fun i a ha => by cases ha),
    (fun i a ha => by cases ha)⟩
  quiet := fun _ e he => by cases he
  staged := fun p hp => by cases hp
  trace := rfl
  walkers := fun walk hw => by cases hw
  running := rfl

/-- a fresh request waits behind the others -/
theorem Whole.submit {st : State} (h : Whole oracle [] st) {req : Request} (hnew : st.ledger req.id = none) :
    Whole oracle [] { st with pending := st.pending ++ [req]
                              ledger := Function.update st.ledger req.id (some ⟨req, [], false, true⟩) } where
  book := by
    have hrows : (List.map waiting [] ++ ({ st with pending := st.pending ++ [req] } : State).outRows ++
        st.activeRows).Perm (waiting req :: (List.map waiting [] ++ st.outRows ++ st.activeRows)) := by
      simp only [State.outRows, List.map_append, List.map_cons, List.map_nil, List.nil_append, List.append_assoc,
        List.singleton_append]
      exact List.perm_middle
    exact (h.book.enter hnew).perm hrows.symm
  quiet := h.quiet
  staged := h.staged
  trace := h.trace
  walkers := h.walkers
  running := h.running

theorem Whole.abort {st : State} (h : Whole oracle [] st) (id : ℕ) :
    Whole oracle [] { st with ledger := st.ledger.modify id fun a => { a with aborted := true } } :=
  h.reledger (h.book.abort id)

/-- what holds of the engine, running or stopped -/
structure Inv (oracle : ℕ → List ℕ → ℕ) (st : State) : Prop where
  accts : Accounts oracle st.ledger
  trace : (replay [] st.trace).isSome
  /-- the row check of a collect has never failed -/
  checked : st.stopped ≠ some .rowMismatch
  whole : st.stopped = none → Whole oracle [] st
  idle : st.stopped ≠ none → st.pipeline = none

theorem Whole.inv {st : State} (h : Whole oracle [] st) : Inv oracle st where
  accts := h.book.accts
  trace := Option.isSome_iff_exists.2 ⟨_, h.trace⟩
  checked := by
    rw [h.running]
    exact fun hn => by cases hn
  whole := fun _ => h
  idle := fun hn => absurd h.running hn

theorem Halted.inv {st : State} (h : Halted oracle st) : Inv oracle st where
  accts := h.accts
  trace := h.trace
  checked := by
    rw [h.stopped]
    exact fun hn => by cases hn
  whole := by
    intro hn
    rw [h.stopped] at hn
    cases hn
  idle := fun _ => h.idle

theorem step_inv (cfg : Config) {st st' : State} {op : Op} (h : Inv oracle st) (hs : step oracle cfg st op = .ok st') :
    Inv oracle st' := by
  cases op with
  | submit req =>
    simp only [step] at hs
    split at hs
    · cases hs
    · rename_i hnew
      cases hs
      have hnew' : st.ledger req.id = none := by simpa using hnew
      exact ⟨accounts_open h.accts req, h.trace, h.checked, fun hrun => (h.whole hrun).submit hnew', h.idle⟩
  | abort id =>
    cases hs
    exact ⟨accounts_abort h.accts id, h.trace, h.checked, fun hrun => (h.whole hrun).abort id, h.idle⟩
  | turn env =>
    simp only [step] at hs
    split at hs
    · cases hs
    · rename_i hrun
      have hres := turn_result (h.whole (by simpa using hrun)) cfg env
      split at hs
      · rename_i st'' hst''
        rw [hst''] at hres
        cases hs
        exact hres.inv
      · rename_i st'' hst''
        rw [hst''] at hres
        cases hs
        exact hres.inv

/-- **The invariant along a run**, of any engine. -/
theorem run_inv (oracle : ℕ → List ℕ → ℕ) (cfg : Config) {ops : List Op} {st : State}
    (hr : run (step oracle cfg) State.new ops = .ok st) : Inv oracle st :=
  run_invariant (I := fun _ st => Inv oracle st) (P := fun _ _ => True) State.new (whole_new oracle).inv
    (fun _ _ _ _ hI _ hstep => step_inv cfg hI hstep) ops st (stepsMeet_true _ _) hr

end Pegainfer.Gemma4.Pipeline
