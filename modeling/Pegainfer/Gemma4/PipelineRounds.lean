/-
Decode rounds of Gemma4's scheduler, staged and plain.

Between calls the books are whole: every open account belongs to one held request, and a row of the batch says what its
request has been sent. While a step is in flight its rows are the batch's, in order, and the device holds their picks.
- `Whole`: the state between calls. `Halted`: an engine stopped by its device.
- `drainPipeline_result`, `launch_whole`, `pipelined_result`: the staged path.
- `wholeStep_whole`, `readyDecodeRows_whole`: the plain path.
- `decodeRound_result`: one round, whichever path it takes.
-/
import Mathlib.Tactic
import Pegainfer.Gemma4.PipelineBook

set_option linter.unusedSectionVars false

namespace Pegainfer.Gemma4.Pipeline

open Pegainfer.Lib

variable (oracle : ℕ → List ℕ → ℕ)

/-! ## The rows of a state -/

/-- a request not yet given a token -/
def waiting (req : Request) : BookRow := (req, some [])

/-- a row of the batch, `sent` reading off it what its request has been sent -/
def rowBy (sent : Active → List ℕ) (e : Active) : BookRow := (e.req, if e.stopping then none else some (sent e))

attribute [grind =] rowBy

/-- nothing in flight: the row's next input has been sent and is not in its KV yet -/
def idleRow : Active → BookRow := rowBy fun e => e.fed ++ [e.next]

/-- a step in flight: the row's KV holds exactly what has been sent -/
def flightRow : Active → BookRow := rowBy Active.fed

def walkRows (walk : Option Walk) : List BookRow :=
  match walk with
  | none => []
  | some walk => (walk.walkers.filter fun w => !w.failed).map fun w => waiting w.req

attribute [grind =] walkRows

namespace State

def outRows (st : State) : List BookRow :=
  st.pending.map waiting ++ st.lane.toList.map waiting ++ walkRows st.walk

def activeRows (st : State) : List BookRow :=
  match st.pipeline with
  | none => st.active.map idleRow
  | some _ => st.active.map flightRow

attribute [grind =] activeRows

/-- the rows of the steps in flight -/
def inflight (st : State) : List (List ℕ) :=
  match st.pipeline with
  | none => []
  | some _ => [st.rowIds]

attribute [grind =] inflight

end State

/-- a walker with prompt left has no first token; its first token is the oracle's -/
def WalkerOk (w : Walker) : Prop := w.failed = false → (w.first = none → 0 < w.rest) ∧ ∀ t, w.first = some t → t = oracle w.req.id []

/-- the state between calls, `held` being requests the caller has in hand -/
structure Whole (held : List Request) (st : State) : Prop where
  book : Book oracle (held.map waiting ++ st.outRows ++ st.activeRows) st.ledger
  /-- nothing in flight: no row is stopping -/
  quiet : st.pipeline = none → ∀ e ∈ st.active, e.stopping = false
  /-- a step in flight: its rows are the batch's, and the device holds their picks -/
  staged : ∀ p, st.pipeline = some p → p.rows = st.active.length ∧ st.active ≠ [] ∧
    st.readback p.slot = st.active.map (pick oracle) ∧ st.active.map (pick oracle) <+: st.ids ∧ p.slot < 2
  /-- no release has hit a row of a step in flight -/
  trace : replay [] st.trace = some st.inflight
  walkers : ∀ walk, st.walk = some walk → st.pipeline = none ∧ ∀ w ∈ walk.walkers, WalkerOk oracle w
  running : st.stopped = none

/-- the state of a stopped engine -/
structure Halted (st : State) : Prop where
  accts : Accounts oracle st.ledger
  trace : (replay [] st.trace).isSome
  idle : st.pipeline = none
  stopped : st.stopped = some .device

/-- a call's result: the engine goes on, or has stopped for a device failure -/
def Result (held : List Request) : Except State State → Prop
  | .ok st => Whole oracle held st
  | .error st => Halted oracle st

/-! ## The trace -/

theorem replay_append (l : List (List ℕ)) (a b : List Ev) :
    replay l (a ++ b) = (replay l a).bind fun l' => replay l' b := by
  induction a generalizing l with
  | nil => rfl
  | cons e a ih =>
    cases e with
    | launch rows => exact ih _
    | collect => exact ih _
    | release id =>
      simp only [List.cons_append, replay]
      split
      · rfl
      · exact ih _
    | fence => exact ih _

/-- with nothing in flight, any release is safe -/
theorem replay_releases (ids : List ℕ) : replay [] (ids.map .release) = some [] := by
  induction ids with
  | nil => rfl
  | cons id ids ih => simpa [replay] using ih

/-! ## Failing -/

theorem accounts_close {ledger : Ledger} (h : Accounts oracle ledger) (id : ℕ) (ha : ledger.isActive id = true) :
    Accounts oracle (ledger.close id .fail) := by
  intro i a hi
  rcases Ledger.modify_some hi with ⟨-, hi⟩ | ⟨rfl, a₀, ha₀, rfl⟩
  · exact h i a hi
  · obtain ⟨hid, hok⟩ := h i a₀ ha₀
    obtain ⟨ts, hs, hev⟩ := hok.whileOpen (by simpa [Ledger.isActive, ha₀] using ha)
    refine ⟨hid, fun ho => ?_, fun _ => .failed ts hs ?_⟩
    · cases ho
    · simp [hev]

theorem accounts_foldl {α : Type*} (f : α → ℕ) (l : List α) {ledger : Ledger} (h : Accounts oracle ledger) :
    Accounts oracle (l.foldl (fun l e => if l.isActive (f e) then l.close (f e) .fail else l) ledger) := by
  induction l generalizing ledger with
  | nil => exact h
  | cons e l ih =>
    simp only [List.foldl_cons]
    split
    · rename_i ha
      exact ih (accounts_close oracle h _ ha)
    · exact ih h

theorem halted_failStop {st : State} (h : Accounts oracle st.ledger) (ht : (replay [] st.trace).isSome) :
    Halted oracle (st.failStop .device) where
  accts := accounts_foldl oracle (fun e : Active => e.req.id) st.active h
  trace := by
    obtain ⟨l, hl⟩ := Option.isSome_iff_exists.1 ht
    have h2 : replay [] (st.trace ++ [Ev.fence] ++ st.rowIds.map .release) = some [] := by
      rw [replay_append, replay_append, hl]
      exact replay_releases _
    exact Option.isSome_iff_exists.2 ⟨[], h2⟩
  idle := rfl
  stopped := rfl

/-! ## Settling a step's picks -/

variable {oracle}

theorem Book.swap {a rest : List BookRow} {r : BookRow} {ledger : Ledger}
    (h : Book oracle (r :: (a ++ rest)) ledger) : Book oracle (a ++ r :: rest) ledger :=
  h.perm List.perm_middle.symm

theorem Book.unswap {a rest : List BookRow} {r : BookRow} {ledger : Ledger}
    (h : Book oracle (a ++ r :: rest) ledger) : Book oracle (r :: (a ++ rest)) ledger :=
  h.perm List.perm_middle

/-- the picks `ts` of rows that have been sent `sent`; once settled, `sent'` reads off what has been sent -/
def PicksOf (oracle : ℕ → List ℕ → ℕ) (sent sent' : Active → List ℕ) (e : Active) (t : ℕ) : Prop :=
  e.stopping = false → t = oracle e.req.id (sent e) ∧
    ∀ stopping, sent' { e with next := t, stopping := stopping } = sent e ++ [t]

theorem book_settleStagedRows {sent sent' : Active → List ℕ} {es : List Active} {ts : List ℕ}
    (hp : List.Forall₂ (PicksOf oracle sent sent') es ts) : ∀ {rest : List BookRow} {ledger : Ledger},
    Book oracle (es.map (rowBy sent) ++ rest) ledger →
      Book oracle ((State.settleStagedRows es ts ledger).1.map (rowBy sent') ++ rest)
        (State.settleStagedRows es ts ledger).2 := by
  induction hp with
  | nil => exact fun h => h
  | @cons e t es ts he _ ih =>
    intro rest ledger h
    simp only [State.settleStagedRows]
    refine Book.unswap (a := List.map (rowBy sent') _) (ih (Book.swap (a := es.map (rowBy sent)) ?_))
    by_cases hstop : e.stopping = true
    · have hrow : rowBy sent' e = rowBy sent e := by simp [rowBy, hstop]
      simp only [Active.settleStaged, hstop, if_true, hrow]
      exact h
    · simp only [Bool.not_eq_true] at hstop
      obtain ⟨ht, hsent⟩ := he hstop
      have hrow : rowBy sent e = (e.req, some (sent e)) := by simp [rowBy, hstop]
      have hset := (show Book oracle ((e.req, some (sent e)) :: (es.map (rowBy sent) ++ rest)) ledger from hrow ▸ h).settleWith ht
      simp only [Active.settleStaged, hstop, Bool.false_eq_true, if_false, Active.settle]
      cases hdone : (settleToken ledger e.req t).2 with
      | true => simpa [rowBy, hdone] using hset
      | false => simpa [rowBy, hdone, hsent] using hset

theorem settleStagedRows_keeps (es : List Active) (ts : List ℕ) (ledger : Ledger) :
    (State.settleStagedRows es ts ledger).1.map (fun e => (e.req, e.fed)) = es.map fun e => (e.req, e.fed) := by
  induction es generalizing ts ledger with
  | nil => cases ts <;> rfl
  | cons e es ih =>
    cases ts with
    | nil => rfl
    | cons t ts =>
      have he : ((e.settleStaged t ledger).1.req, (e.settleStaged t ledger).1.fed) = (e.req, e.fed) := by
        simp only [Active.settleStaged]
        split <;> rfl
      simp only [State.settleStagedRows, List.map_cons, ih, he]

theorem book_settleRows {es : List Active} (hquiet : ∀ e ∈ es, e.stopping = false) :
    ∀ {rest : List BookRow} {ledger : Ledger}, Book oracle (es.map flightRow ++ rest) ledger →
      Book oracle ((State.settleRows es (es.map (pick oracle)) ledger).1.map
          (fun r => (r.1.req, if r.2 then none else some (r.1.fed ++ [r.1.next]))) ++ rest)
        (State.settleRows es (es.map (pick oracle)) ledger).2 := by
  induction es with
  | nil => exact fun h => h
  | cons e es ih =>
    intro rest ledger h
    have hstop := hquiet e List.mem_cons_self
    simp only [List.map_cons, State.settleRows]
    refine Book.unswap (a := List.map _ _)
      (ih (fun x hx => hquiet x (List.mem_cons_of_mem _ hx)) (Book.swap (a := es.map flightRow) ?_))
    have hrow : flightRow e = (e.req, some e.fed) := by simp [flightRow, rowBy, hstop]
    have hset := (show Book oracle ((e.req, some e.fed) :: (es.map flightRow ++ rest)) ledger from hrow ▸ h).settle
    simp only [Active.settle, pick]
    by_cases hdone : (settleToken ledger e.req (oracle e.req.id e.fed)).2 = true
    · simpa [hdone] using hset
    · simpa [hdone] using hset

theorem settleRows_keeps (es : List Active) (ts : List ℕ) (ledger : Ledger) :
    (State.settleRows es ts ledger).1.map (fun r => (r.1.req.id, r.1.stopping)) =
      es.map fun e => (e.req.id, e.stopping) := by
  induction es generalizing ts ledger with
  | nil => cases ts <;> rfl
  | cons e es ih =>
    cases ts with
    | nil => simp [State.settleRows, Function.comp_def]
    | cons t ts => simp only [State.settleRows, List.map_cons, ih, Active.settle]

/-- the closed accounts' rows go -/
theorem Book.dropShut {rows rest : List BookRow} {ledger : Ledger} (h : Book oracle (rows ++ rest) ledger) :
    Book oracle (rows.filter (fun r => r.2.isSome) ++ rest) ledger := by
  induction rows generalizing rest with
  | nil => exact h
  | cons r rows ih =>
    cases hr : r.2 with
    | none =>
      rw [List.filter_cons_of_neg (by simp [hr])]
      exact ih (h.drop hr)
    | some ts =>
      rw [List.filter_cons_of_pos (by simp [hr])]
      exact Book.unswap (ih (Book.swap h))

/-! ## The staged path -/

theorem book_front {held : List Request} {st : State}
    (h : Book oracle (held.map waiting ++ st.outRows ++ st.activeRows) st.ledger) :
    Book oracle (st.activeRows ++ (held.map waiting ++ st.outRows)) st.ledger :=
  h.perm List.perm_append_comm

theorem book_back {held : List Request} {out rows : List BookRow} {ledger : Ledger}
    (h : Book oracle (rows ++ (held.map waiting ++ out)) ledger) :
    Book oracle (held.map waiting ++ out ++ rows) ledger :=
  h.perm List.perm_append_comm

theorem picksOf_fed (es : List Active) :
    List.Forall₂ (PicksOf oracle Active.fed fun e => e.fed ++ [e.next]) es (es.map (pick oracle)) := by
  rw [List.forall₂_map_right_iff, List.forall₂_same]
  exact fun e _ _ => ⟨rfl, fun _ => rfl⟩

theorem rowIds_of_keeps (oracle : ℕ → List ℕ → ℕ) {es es' : List Active}
    (h : es'.map (fun e => (e.req, e.fed)) = es.map fun e => (e.req, e.fed)) :
    es'.map (fun e => e.req.id) = es.map (fun e => e.req.id) ∧ es'.map (pick oracle) = es.map (pick oracle) ∧
      es'.length = es.length := by
  have h1 := congrArg (List.map fun p : Request × List ℕ => p.1.id) h
  have h2 := congrArg (List.map fun p : Request × List ℕ => oracle p.1.id p.2) h
  have h3 := congrArg List.length h
  simp only [List.map_map, List.length_map] at h1 h2 h3
  exact ⟨h1, h2, h3⟩

/-- **The drain.** The step in flight is read back against the rows it was launched over, and the stopped rows go with
nothing in flight. -/
theorem drainPipeline_result {held : List Request} {st : State} (h : Whole oracle held st) (fault : Bool) :
    Result oracle held (st.drainPipeline fault) ∧ ∀ st', st.drainPipeline fault = .ok st' →
      st'.pipeline = none ∧ st'.lane = st.lane ∧ st'.walk = st.walk ∧ st'.pending = st.pending := by
  cases hp : st.pipeline with
  | none =>
    have hd : st.drainPipeline fault = .ok st := by simp [State.drainPipeline, hp]
    rw [hd]
    refine ⟨h, ?_⟩
    rintro st' hst'
    cases hst'
    exact ⟨hp, rfl, rfl, rfl⟩
  | some p =>
    obtain ⟨hrows, -, hread, -, -⟩ := h.staged p hp
    have htrace := h.trace
    have hin : st.inflight = [st.rowIds] := by simp [State.inflight, hp]
    cases fault with
    | true =>
      have hd : st.drainPipeline true = .error ({ st with pipeline := none }.failStop .device) := by
        simp [State.drainPipeline, hp, State.collectPending, hrows]
      rw [hd]
      refine ⟨halted_failStop oracle h.book.accts (Option.isSome_iff_exists.2 ⟨_, htrace⟩), fun st' hst' => ?_⟩
      cases hst'
    | false =>
      have hbook := book_front h.book
      have hact : st.activeRows = st.active.map flightRow := by simp [State.activeRows, hp]
      rw [hact] at hbook
      have hset := book_settleStagedRows (picksOf_fed st.active) hbook
      have hd := State.drainPipeline.eq_def st false
      simp only [hp, State.collectPending, hrows, ne_eq, not_true_eq_false, if_false, Bool.false_eq_true, hread] at hd
      rw [hd]
      set out := State.settleStagedRows st.active (st.active.map (pick oracle)) st.ledger with hout
      refine ⟨?_, ?_⟩
      · refine {
          book := ?_
          quiet := fun _ e he => ?_
          staged := fun q hq => by cases hq
          trace := ?_
          walkers := fun walk hw => ⟨rfl, (h.walkers walk hw).2⟩
          running := h.running }
        · refine book_back ?_
          have hdrop := hset.dropShut
          have hfilter : (out.1.map (rowBy fun e => e.fed ++ [e.next])).filter (fun r => r.2.isSome) =
              (out.1.filter fun e => !e.stopping).map idleRow := by
            rw [List.filter_map]
            congr 1
            refine List.filter_congr fun e _ => ?_
            cases hs : e.stopping <;> simp [rowBy, hs]
          rw [hfilter] at hdrop
          exact hdrop
        · simpa using (List.mem_filter.1 he).2
        · have hcollect : replay [] (st.trace ++ [Ev.collect]) = some [] := by
            rw [replay_append, htrace, hin]
            rfl
          rw [replay_append, hcollect]
          exact replay_releases _
      · rintro st' hst'
        cases hst'
        exact ⟨rfl, rfl, rfl, rfl⟩

theorem zipWith_feed {es : List Active} {f : Active → ℕ} {buf : List ℕ} (h : es.map f <+: buf) :
    List.zipWith Active.feed es buf = es.map fun e => e.feed (f e) := by
  induction es generalizing buf with
  | nil => rfl
  | cons e es ih =>
    obtain ⟨t, rfl⟩ := h
    simp only [List.map_cons, List.cons_append, List.zipWith_cons_cons]
    rw [ih (List.prefix_append _ _)]

theorem rowIds_feed (es : List Active) (f : Active → ℕ) :
    (es.map fun e => e.feed (f e)).map (fun e => e.req.id) = es.map fun e => e.req.id := by
  simp [Active.feed]

/-- a first launch: every row's next input goes into its KV -/
theorem launch_whole {held : List Request} {st : State} (h : Whole oracle held st) (hp : st.pipeline = none)
    (hw : st.walk = none) (hne : st.active ≠ []) :
    Whole oracle held { st.launchStaged oracle false 0 with pipeline := some ⟨st.active.length, 0⟩ } := by
  have hfeed : List.zipWith Active.feed st.active (st.active.map Active.next) =
      st.active.map fun e => e.feed e.next := zipWith_feed List.prefix_rfl
  have hbook := h.book
  have hact : st.activeRows = (st.active.map fun e => e.feed e.next).map flightRow := by
    simp only [State.activeRows, hp, List.map_map]
    exact List.map_congr_left fun e _ => by simp [idleRow, flightRow, rowBy, Active.feed]
  have htrace := h.trace
  have hin : st.inflight = [] := by simp [State.inflight, hp]
  refine {
    book := ?_
    quiet := fun hn => by cases hn
    staged := ?_
    trace := ?_
    walkers := fun walk hwalk => ?_
    running := h.running }
  · rw [hact] at hbook
    simpa [State.launchStaged, State.activeRows, State.outRows, hfeed] using hbook
  · rintro p hpp
    cases hpp
    simp only [State.launchStaged, hfeed, Bool.false_eq_true, if_false, Function.update_self]
    exact ⟨by simp, by simpa using hne, trivial, isPrefix_overlay _ _, by omega⟩
  · simp only [State.launchStaged, State.inflight, State.rowIds, hfeed, Bool.false_eq_true, if_false, rowIds_feed]
    rw [replay_append, htrace, hin]
    rfl
  · rw [show ({ st.launchStaged oracle false 0 with pipeline := some ⟨st.active.length, 0⟩ } : State).walk = st.walk
      from rfl, hw] at hwalk
    cases hwalk

/-- **The pipelined round.** The next step is launched from the device's own picks, then the one before it is read
back: the rows are the same, and each has been sent what its KV holds. -/
theorem pipelined_result {held : List Request} {st : State} {p : PendingDecode} (h : Whole oracle held st)
    (hp : st.pipeline = some p) (fault : Bool) :
    match (State.launchStaged oracle { st with pipeline := none } true ((p.slot + 1) % 2)).collectPending p fault with
    | .ok st' => Whole oracle held { st' with pipeline := some ⟨st.active.length, (p.slot + 1) % 2⟩ }
    | .error why => why = .device := by
  obtain ⟨hrows, hne, hread, hids, hslot⟩ := h.staged p hp
  have hfeed : List.zipWith Active.feed st.active st.ids = st.active.map fun e => e.feed (pick oracle e) :=
    zipWith_feed hids
  have hslots : p.slot ≠ (p.slot + 1) % 2 := by omega
  simp only [State.collectPending, State.launchStaged, hfeed, if_true, List.length_map, hrows, ne_eq, not_true_eq_false,
    if_false, Function.update_of_ne hslots, hread]
  cases fault with
  | true => rfl
  | false =>
    simp only [Bool.false_eq_true, if_false]
    set es := st.active.map fun e => e.feed (pick oracle e) with hes
    have hpicks : List.Forall₂ (PicksOf oracle (fun e => e.fed.dropLast) Active.fed) es (st.active.map (pick oracle)) := by
      rw [hes, List.forall₂_map_left_iff, List.forall₂_map_right_iff, List.forall₂_same]
      intro e _ _
      simp [Active.feed, pick]
    have hrowsEq : st.active.map flightRow = es.map (rowBy fun e => e.fed.dropLast) := by
      rw [hes, List.map_map]
      exact List.map_congr_left fun e _ => by simp [flightRow, rowBy, Active.feed]
    have hbook := book_front h.book
    rw [show st.activeRows = st.active.map flightRow by simp [State.activeRows, hp], hrowsEq] at hbook
    have hset := book_settleStagedRows hpicks hbook
    obtain ⟨hkid, hkpick, hklen⟩ := rowIds_of_keeps oracle
      (settleStagedRows_keeps es (st.active.map (pick oracle)) st.ledger)
    have hids' : es.map (fun e => e.req.id) = st.rowIds := rowIds_feed _ _
    have hlen : es.length = st.active.length := List.length_map _
    have hwalk : st.walk = none := by
      cases hw : st.walk with
      | none => rfl
      | some walk => rw [(h.walkers walk hw).1] at hp; cases hp
    refine {
      book := book_back hset
      quiet := fun hn => by cases hn
      staged := ?_
      trace := ?_
      walkers := fun walk hw => by rw [show st.walk = some walk from hw] at hwalk; cases hwalk
      running := h.running }
    · rintro q hq
      cases hq
      refine ⟨?_, ?_, ?_, ?_, Nat.mod_lt _ (by omega)⟩
      · exact hlen.symm.trans hklen.symm
      · intro hnil
        have hz := congrArg List.length hnil
        rw [hklen, hlen] at hz
        exact hne (List.length_eq_zero_iff.1 hz)
      · simp only [Function.update_self, hkpick]
      · rw [hkpick]
        exact isPrefix_overlay _ _
    · have htrace := h.trace
      rw [show st.inflight = [st.rowIds] by simp [State.inflight, hp]] at htrace
      have hgoal : replay [] (st.trace ++ [Ev.launch st.rowIds] ++ [Ev.collect]) = some [st.rowIds] := by
        rw [replay_append, replay_append, htrace]
        rfl
      simp only [State.inflight, State.rowIds, hkid]
      rw [hids']
      exact hgoal

/-! ## The plain path -/

/-- nothing in flight, with the parts of the state spelled out -/
theorem whole_calm {held : List Request} {st : State} (hp : st.pipeline = none)
    (hbook : Book oracle (st.active.map idleRow ++ (held.map waiting ++ st.outRows)) st.ledger)
    (hquiet : ∀ e ∈ st.active, e.stopping = false) (htrace : replay [] st.trace = some [])
    (hwalk : ∀ walk, st.walk = some walk → ∀ w ∈ walk.walkers, WalkerOk oracle w) (hrun : st.stopped = none) :
    Whole oracle held st where
  book := by
    rw [show st.activeRows = st.active.map idleRow by simp [State.activeRows, hp]]
    exact book_back hbook
  quiet := fun _ => hquiet
  staged := fun p hpp => by rw [hp] at hpp; cases hpp
  trace := by simpa [State.inflight, hp] using htrace
  walkers := fun walk hw => ⟨hp, hwalk walk hw⟩
  running := hrun

theorem Whole.calm {held : List Request} {st : State} (h : Whole oracle held st) (hp : st.pipeline = none) :
    Book oracle (st.active.map idleRow ++ (held.map waiting ++ st.outRows)) st.ledger ∧
      (∀ e ∈ st.active, e.stopping = false) ∧ replay [] st.trace = some [] ∧
      ∀ walk, st.walk = some walk → ∀ w ∈ walk.walkers, WalkerOk oracle w := by
  have hbook := book_front h.book
  have htrace := h.trace
  rw [show st.activeRows = st.active.map idleRow by simp [State.activeRows, hp]] at hbook
  rw [show st.inflight = [] by simp [State.inflight, hp]] at htrace
  exact ⟨hbook, h.quiet hp, htrace, fun walk hw => (h.walkers walk hw).2⟩

/-- **A whole step.** Every row is fed, picked and settled, and the finished rows go after the readback. -/
theorem wholeStep_whole {held : List Request} {st : State} (h : Whole oracle held st) (hp : st.pipeline = none)
    (riders : List ℕ) : Whole oracle held (st.wholeStep oracle riders) := by
  obtain ⟨hbook, hquiet, htrace, hwalk⟩ := h.calm hp
  have hfeed : List.zipWith Active.feed st.active (st.active.map Active.next) =
      st.active.map fun e => e.feed e.next := zipWith_feed List.prefix_rfl
  simp only [State.wholeStep, State.emitDecodeRows, hfeed]
  set es := st.active.map fun e => e.feed e.next with hes
  have hrows : st.active.map idleRow = es.map flightRow := by
    rw [hes, List.map_map]
    exact List.map_congr_left fun e _ => by simp [idleRow, flightRow, rowBy, Active.feed]
  have hquiet' : ∀ e ∈ es, e.stopping = false := by
    intro e he
    obtain ⟨e₀, he₀, rfl⟩ := List.mem_map.1 he
    exact hquiet e₀ he₀
  rw [hrows] at hbook
  have hset := (book_settleRows hquiet' hbook).dropShut
  set out := State.settleRows es (es.map (pick oracle)) st.ledger with hout
  have hstill : ∀ r ∈ out.1, r.1.stopping = false := by
    intro r hr
    have hmem : (r.1.req.id, r.1.stopping) ∈ out.1.map fun r => (r.1.req.id, r.1.stopping) := List.mem_map_of_mem hr
    rw [hout, settleRows_keeps] at hmem
    obtain ⟨e, he, heq⟩ := List.mem_map.1 hmem
    rw [← (Prod.mk.inj heq).2]
    exact hquiet' e he
  have hperm := removeWhere_perm (fun r : Active × Bool => r.2) out.1
  refine whole_calm hp ?_ ?_ ?_ hwalk h.running
  · refine hset.perm (List.Perm.append_right _ ?_)
    rw [List.filter_map]
    have hkeep : (out.1.filter ((fun r : BookRow => r.2.isSome) ∘
        fun r => (r.1.req, if r.2 then none else some (r.1.fed ++ [r.1.next])))) = out.1.filter fun r => !r.2 := by
      refine List.filter_congr fun r _ => ?_
      cases hr : r.2 <;> simp [hr]
    rw [hkeep, List.map_map]
    have hmap : ((out.1.filter fun r => !r.2).map fun r =>
        ((r.1.req, if r.2 then none else some (r.1.fed ++ [r.1.next])) : BookRow)) =
        (out.1.filter fun r => !r.2).map (idleRow ∘ Prod.fst) := by
      refine List.map_congr_left fun r hr => ?_
      obtain ⟨hr1, hr2⟩ := List.mem_filter.1 hr
      have hr2 : r.2 = false := by simpa using hr2
      simp [idleRow, rowBy, hr2, hstill r hr1]
    rw [hmap]
    exact (hperm.symm.map _)
  · intro e he
    obtain ⟨r, hr, rfl⟩ := List.mem_map.1 he
    exact hstill r (List.mem_filter.1 (hperm.mem_iff.1 hr)).1
  · have hlaunch : replay [] (st.trace ++ [Ev.launch (riders ++ st.rowIds), Ev.collect]) = some [] := by
      rw [replay_append, htrace]
      rfl
    rw [replay_append, hlaunch]
    exact replay_releases _

@[simp] theorem wholeStep_fields (st : State) (riders : List ℕ) :
    (st.wholeStep oracle riders).pipeline = st.pipeline ∧ (st.wholeStep oracle riders).walk = st.walk ∧
      (st.wholeStep oracle riders).lane = st.lane ∧ (st.wholeStep oracle riders).pending = st.pending :=
  ⟨rfl, rfl, rfl, rfl⟩

/-- rows leave one at a time, each with its account closed -/
theorem readyLoop_whole {held : List Request} (short : ℕ → Bool) (fuel : ℕ) : ∀ (row : ℕ) {st : State},
    Whole oracle held st → st.pipeline = none →
      Whole oracle held (State.readyLoop short fuel row st) ∧ (State.readyLoop short fuel row st).pipeline = none ∧
        (State.readyLoop short fuel row st).walk = st.walk ∧ (State.readyLoop short fuel row st).lane = st.lane := by
  induction fuel with
  | zero => exact fun _ _ h hp => ⟨h, hp, rfl, rfl⟩
  | succ fuel ih =>
    intro row st h hp
    simp only [State.readyLoop]
    cases he : st.active[row]? with
    | none => exact ⟨h, hp, rfl, rfl⟩
    | some e =>
      obtain ⟨hbook, hquiet, htrace, hwalk⟩ := h.calm hp
      have hmem := List.mem_of_getElem? he
      have hstop := hquiet e hmem
      have hperm := swapRemove_perm st.active row e he
      -- the row in front of the book
      have hrow : Book oracle ((e.req, some (e.fed ++ [e.next])) ::
          ((swapRemove st.active row).map idleRow ++ (held.map waiting ++ st.outRows))) st.ledger := by
        have hmap := (hperm.map idleRow).append_right (held.map waiting ++ st.outRows)
        have := hbook.perm hmap
        simpa [idleRow, rowBy, hstop] using this
      have hgone : ∀ ledger, Book oracle ((e.req, none) ::
          ((swapRemove st.active row).map idleRow ++ (held.map waiting ++ st.outRows))) ledger →
          Whole oracle held { st with active := swapRemove st.active row, ledger := ledger,
                                      trace := st.trace ++ [.release e.req.id] } := by
        intro ledger hl
        refine whole_calm hp (hl.drop rfl) (fun x hx => hquiet x (hperm.mem_iff.2 (List.mem_cons_of_mem _ hx))) ?_
          hwalk h.running
        rw [replay_append, htrace]
        rfl
      simp only [hstop, Bool.false_eq_true, if_false]
      split
      · rename_i hab
        exact ih row (hgone _ (hrow.retire hab)) hp
      · split
        · exact ih row (hgone _ hrow.fail) hp
        · exact ih (row + 1) h hp

theorem readyDecodeRows_whole {held : List Request} {st : State} (h : Whole oracle held st) (hp : st.pipeline = none)
    (short : ℕ → Bool) : Whole oracle held (st.readyDecodeRows short) ∧ (st.readyDecodeRows short).pipeline = none ∧
      (st.readyDecodeRows short).walk = st.walk ∧ (st.readyDecodeRows short).lane = st.lane :=
  readyLoop_whole short _ 0 h hp

theorem decodeRoundCollect_result {held : List Request} {st : State} (h : Whole oracle held st)
    (hp : st.pipeline = none) (fault : Bool) : Result oracle held (st.decodeRoundCollect oracle fault) := by
  cases fault with
  | true => exact halted_failStop oracle h.book.accts (Option.isSome_iff_exists.2 ⟨_, h.trace⟩)
  | false => exact wholeStep_whole h hp []

theorem freshRound_result {held : List Request} {st : State} (h : Whole oracle held st) (hp : st.pipeline = none)
    (hw : st.walk = none) (cfg : Config) (env : State.RoundEnv) : Result oracle held (st.freshRound oracle cfg env) := by
  obtain ⟨hr, hrp, hrw, -⟩ := readyDecodeRows_whole h hp env.short
  simp only [State.freshRound]
  split
  · exact hr
  · rename_i hne
    have hne' : (st.readyDecodeRows env.short).active ≠ [] := by simpa using hne
    split
    · split
      · exact halted_failStop oracle hr.book.accts (Option.isSome_iff_exists.2 ⟨_, hr.trace⟩)
      · exact launch_whole hr hrp (hrw.trans hw) hne'
    · exact decodeRoundCollect_result hr hrp env.launchFault

/-- **One decode round.** -/
theorem decodeRound_result {held : List Request} {st : State} (h : Whole oracle held st) (hw : st.walk = none)
    (cfg : Config) (env : State.RoundEnv) : Result oracle held (st.decodeRound oracle cfg env) := by
  simp only [State.decodeRound]
  cases hp : st.pipeline with
  | none => exact freshRound_result h hp hw cfg env
  | some p =>
    simp only
    split
    · split
      · -- the launch failed: what was staged is delivered, then the batch fails behind a fence
        have hsome : (replay [] st.trace).isSome := Option.isSome_iff_exists.2 ⟨_, h.trace⟩
        obtain ⟨hrows, -, hread, -, -⟩ := h.staged p hp
        cases hf : env.readFault with
        | true =>
          simp only [State.collectPending, hrows, ne_eq, not_true_eq_false, if_false, if_true]
          exact halted_failStop oracle h.book.accts hsome
        | false =>
          simp only [State.collectPending, hrows, ne_eq, not_true_eq_false, if_false, Bool.false_eq_true, hread]
          have hbook := book_front h.book
          rw [show st.activeRows = st.active.map flightRow by simp [State.activeRows, hp]] at hbook
          have hset := book_settleStagedRows (picksOf_fed st.active) hbook
          refine halted_failStop oracle hset.accts ?_
          simp only
          rw [replay_append, h.trace]
          rfl
      · have hpipe := pipelined_result h hp env.readFault
        split
        · rename_i st' hst'
          rw [hst'] at hpipe
          exact hpipe
        · rename_i why hst'
          rw [hst'] at hpipe
          subst hpipe
          refine halted_failStop oracle h.book.accts ?_
          simp only [State.launchStaged]
          rw [replay_append, h.trace]
          rfl
    · obtain ⟨hres, hok⟩ := drainPipeline_result h env.readFault
      split
      · rename_i st' hst'
        rw [hst'] at hres
        exact hres
      · rename_i st' hst'
        rw [hst'] at hres
        obtain ⟨hp', -, hw', -⟩ := hok st' hst'
        split
        · exact hres
        · exact freshRound_result hres hp' (hw'.trans hw) cfg env

end Pegainfer.Gemma4.Pipeline
