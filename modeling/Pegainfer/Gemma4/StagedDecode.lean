/-
Staged decode sends what plain decode sends.

- `StreamOk`: tokens, then at most one terminal.
- `AcctOk.isPrefix`, `AcctOk.complete`: an account against the reference.
- `staged_decode_equals_plain`: in every run of any engine, staged or not.
-/
import Mathlib.Tactic
import Pegainfer.Gemma4.PipelineIntake

set_option linter.unusedSectionVars false

namespace Pegainfer.Gemma4.Pipeline

open Pegainfer.Lib

variable {oracle : ℕ → List ℕ → ℕ}

/-! ## What a request receives -/

/-- the tokens of a stream -/
def tokensOf (events : List Event) : List ℕ :=
  events.filterMap fun
    | .token t => some t
    | _ => none

@[simp] theorem tokensOf_map (ts : List ℕ) : tokensOf (ts.map .token) = ts := by
  induction ts with
  | nil => rfl
  | cons t ts ih => simp [tokensOf]

theorem tokensOf_append (a b : List Event) : tokensOf (a ++ b) = tokensOf a ++ tokensOf b := by
  simp [tokensOf]

/-- the reference is tokens, then one finish -/
theorem streamFrom_shape (oracle : ℕ → List ℕ → ℕ) (req : Request) : ∀ (left : ℕ) (ts : List ℕ),
    ∃ (us : List ℕ) (r : FinishReason), streamFrom oracle req left ts = us.map .token ++ [.finish r] := by
  intro left
  induction left with
  | zero => exact fun ts => ⟨[oracle req.id ts], _, rfl⟩
  | succ left ih =>
    intro ts
    simp only [streamFrom]
    split
    · exact ⟨[oracle req.id ts], _, rfl⟩
    · obtain ⟨us, r, hus⟩ := ih (ts ++ [oracle req.id ts])
      exact ⟨oracle req.id ts :: us, r, by rw [hus]; rfl⟩

theorem Sent.isPrefix {req : Request} {ts : List ℕ} (h : Sent oracle req ts) :
    ts <+: tokensOf (plainStream oracle req) := by
  rw [h, tokensOf_append, tokensOf_map]
  exact List.prefix_append _ _

/-- tokens, then at most one terminal -/
def StreamOk (events : List Event) : Prop :=
  ∃ (ts : List ℕ) (last : List Event), events = ts.map .token ++ last ∧ last.length ≤ 1 ∧ ∀ e ∈ last, e.isToken = false

theorem Outcome.streamOk {a : Acct} (h : Outcome oracle a) : StreamOk a.events := by
  rcases h with h | ⟨ts, -, -, h⟩ | ⟨ts, -, h⟩ | h
  · obtain ⟨us, r, hus⟩ := streamFrom_shape oracle a.req (a.req.maxTokens - 1) []
    exact ⟨us, [.finish r], h.trans hus, le_rfl, by simp [Event.isToken]⟩
  · exact ⟨ts, [], by simpa using h, Nat.zero_le _, by simp⟩
  · exact ⟨ts, [.fail], h, le_rfl, by simp [Event.isToken]⟩
  · exact ⟨[], [.reject], h, le_rfl, by simp [Event.isToken]⟩

/-- an account's tokens are a front of the reference's -/
theorem AcctOk.isPrefix {a : Acct} (h : AcctOk oracle a) : tokensOf a.events <+: tokensOf (plainStream oracle a.req) := by
  cases ho : a.isOpen with
  | true =>
    obtain ⟨ts, hs, he⟩ := h.whileOpen ho
    rw [he, tokensOf_map]
    exact hs.isPrefix
  | false =>
    rcases h.closed ho with h1 | ⟨ts, hs, -, h1⟩ | ⟨ts, hs, h1⟩ | h1
    · rw [h1]
    · rw [h1, tokensOf_map]
      exact hs.isPrefix
    · rw [h1, tokensOf_append, tokensOf_map]
      simpa [tokensOf] using hs.isPrefix
    · rw [h1]
      exact List.nil_prefix

/-- an account with a finish holds the whole reference -/
theorem AcctOk.complete {a : Acct} (h : AcctOk oracle a) {r : FinishReason} (hr : Event.finish r ∈ a.events) :
    a.events = plainStream oracle a.req ∧ a.isOpen = false := by
  have hnot : ∀ ts : List ℕ, Event.finish r ∉ ts.map Event.token := by simp
  cases ho : a.isOpen with
  | true =>
    obtain ⟨ts, -, he⟩ := h.whileOpen ho
    rw [he] at hr
    exact absurd hr (hnot ts)
  | false =>
    rcases h.closed ho with h1 | ⟨ts, -, -, h1⟩ | ⟨ts, -, h1⟩ | h1
    · exact ⟨h1, rfl⟩
    · rw [h1] at hr
      exact absurd hr (hnot ts)
    · rw [h1] at hr
      simp at hr
    · rw [h1] at hr
      simp at hr

/-! ## A batch left to itself drains -/

/-- `l'` extends `l` without a failure -/
structure Kept (a a' : Acct) : Prop where
  req : a'.req = a.req
  aborted : a'.aborted = a.aborted
  calm : ∀ e ∈ a'.events, (e = .fail ∨ e = .reject) → e ∈ a.events

def Grows (l l' : Ledger) : Prop := ∀ i a, l i = some a → ∃ a', l' i = some a' ∧ Kept a a'

theorem Grows.refl (l : Ledger) : Grows l l := fun _ a ha => ⟨a, ha, rfl, rfl, fun _ he _ => he⟩

theorem Grows.trans {l l' l'' : Ledger} (h : Grows l l') (h' : Grows l' l'') : Grows l l'' := by
  intro i a ha
  obtain ⟨a', ha', hk⟩ := h i a ha
  obtain ⟨a'', ha'', hk'⟩ := h' i a' ha'
  exact ⟨a'', ha'', hk'.req.trans hk.req, hk'.aborted.trans hk.aborted,
    fun e he hbad => hk.calm e (hk'.calm e he hbad) hbad⟩

theorem grows_modify (l : Ledger) (id : ℕ) {f : Acct → Acct} (hf : ∀ a, Kept a (f a)) : Grows l (l.modify id f) := by
  intro i a ha
  by_cases hi : i = id
  · subst hi
    exact ⟨f a, Ledger.modify_self l i f ha, hf a⟩
  · exact ⟨a, by rwa [Ledger.modify_ne l f hi], rfl, rfl, fun _ he _ => he⟩

theorem grows_retire (l : Ledger) (id : ℕ) : Grows l (l.retire id) :=
  grows_modify l id fun _ => ⟨rfl, rfl, fun _ he _ => he⟩

theorem grows_append (l : Ledger) (id : ℕ) {e : Event} (he : e ≠ .fail ∧ e ≠ .reject) (f : Acct → Acct)
    (hf : ∀ a, (f a).req = a.req ∧ (f a).aborted = a.aborted ∧ (f a).events = a.events ++ [e]) : Grows l (l.modify id f) := by
  refine grows_modify l id fun a => ⟨(hf a).1, (hf a).2.1, fun x hx hbad => ?_⟩
  rw [(hf a).2.2] at hx
  rcases List.mem_append.1 hx with hx | hx
  · exact hx
  · obtain rfl := List.mem_singleton.1 hx
    rcases hbad with hbad | hbad
    · exact absurd hbad he.1
    · exact absurd hbad he.2

/-- settling never fails a request -/
theorem grows_settleToken (l : Ledger) (req : Request) (t : ℕ) : Grows l (settleToken l req t).1 := by
  have hpush : Grows l (l.pushToken req.id t) :=
    grows_append l req.id (e := .token t) ⟨by simp, by simp⟩ _ fun _ => ⟨rfl, rfl, rfl⟩
  have hclose : ∀ r, Grows l ((l.pushToken req.id t).close req.id (.finish r)) := fun r =>
    hpush.trans (grows_append _ req.id (e := .finish r) ⟨by simp, by simp⟩ _ fun _ => ⟨rfl, rfl, rfl⟩)
  simp only [settleToken]
  split
  · exact grows_retire l req.id
  · split
    · exact hclose _
    · split
      · exact hclose _
      · exact hpush

theorem settleToken_ne (l : Ledger) (req : Request) (t : ℕ) {i : ℕ} (hi : i ≠ req.id) :
    (settleToken l req t).1 i = l i := by
  have hpush : l.pushToken req.id t i = l i := Ledger.modify_ne l _ hi
  have hclose : ∀ e, (l.pushToken req.id t).close req.id e i = l i := fun e => (Ledger.modify_ne _ _ hi).trans hpush
  simp only [settleToken]
  split
  · exact Ledger.modify_ne l _ hi
  · split
    · exact hclose _
    · split
      · exact hclose _
      · exact hpush

/-- what is left to do for a row of the batch -/
def rowLoad (l : Ledger) (req : Request) : ℕ :=
  if l.isActive req.id then 4 + 2 * (req.maxTokens - l.completionTokens req.id) else 2

theorem rowLoad_congr {l l' : Ledger} {req : Request} (h : l' req.id = l req.id) : rowLoad l' req = rowLoad l req := by
  unfold rowLoad Ledger.isActive Ledger.completionTokens
  rw [h]

theorem two_le_rowLoad (l : Ledger) (req : Request) : 2 ≤ rowLoad l req := by
  unfold rowLoad
  split <;> omega

theorem rowLoad_retire (l : Ledger) (req : Request) : rowLoad (l.retire req.id) req = 2 := by
  have hshut : (l.retire req.id).isActive req.id = false := by
    cases ha : l req.id <;> simp [Ledger.isActive, Ledger.retire, Ledger.modify, ha]
  simp [rowLoad, hshut]

/-- a pick settled: one token less to go, or the account is closed -/
theorem rowLoad_settleToken {l : Ledger} {req : Request} (ha : l.isActive req.id = true) (t : ℕ) :
    rowLoad (settleToken l req t).1 req + 2 ≤ rowLoad l req := by
  obtain ⟨a, hget⟩ : ∃ a, l req.id = some a := by
    cases hl : l req.id with
    | none => simp [Ledger.isActive, hl] at ha
    | some a => exact ⟨a, rfl⟩
  have hopen : 4 ≤ rowLoad l req := by simp [rowLoad, ha]
  have hclosed : ∀ l' : Ledger, l'.isActive req.id = false → rowLoad l' req + 2 ≤ rowLoad l req := by
    intro l' hl'
    have : rowLoad l' req = 2 := by simp [rowLoad, hl']
    omega
  have hclose : ∀ (l' : Ledger) (e : Event), (l'.close req.id e).isActive req.id = false := by
    intro l' e
    cases hl : l' req.id <;> simp [Ledger.isActive, Ledger.close, Ledger.modify, hl]
  simp only [settleToken]
  split
  · rw [rowLoad_retire]
    omega
  · split
    · exact hclosed _ (hclose _ _)
    · split
      · exact hclosed _ (hclose _ _)
      · rename_i hlen
        have hcount : (l.pushToken req.id t).completionTokens req.id = l.completionTokens req.id + 1 := by
          have hone : (List.filter Event.isToken [Event.token t]).length = 1 := rfl
          simp [Ledger.completionTokens, Ledger.pushToken, Ledger.modify, hget, hone]
        have hact : (l.pushToken req.id t).isActive req.id = true := by
          simpa [Ledger.isActive, Ledger.pushToken, Ledger.modify, hget] using ha
        simp only [rowLoad, hact, ha, if_true, hcount] at hlen ⊢
        omega

/-- what is left to do for the batch -/
def load (l : Ledger) (es : List Active) : ℕ := (es.map fun e => rowLoad l e.req).sum

theorem load_cons (l : Ledger) (e : Active) (es : List Active) : load l (e :: es) = rowLoad l e.req + load l es := by
  simp [load]

theorem load_congr {l l' : Ledger} {es : List Active} (h : ∀ e ∈ es, l' e.req.id = l e.req.id) :
    load l' es = load l es := by
  unfold load
  rw [List.map_congr_left fun e he => rowLoad_congr (h e he)]

theorem load_of_reqs {es es' : List Active} (l : Ledger) (h : es'.map Active.req = es.map Active.req) :
    load l es' = load l es := by
  have hmap : ∀ xs : List Active, load l xs = ((xs.map Active.req).map (rowLoad l)).sum := by
    intro xs
    rw [List.map_map]
    rfl
  rw [hmap, hmap, h]

theorem load_perm {es es' : List Active} (l : Ledger) (h : es'.Perm es) : load l es' = load l es :=
  (h.map _).sum_eq

theorem load_sublist {es es' : List Active} (l : Ledger) (h : es'.Sublist es) : load l es' ≤ load l es :=
  (h.map _).sum_le_sum fun _ _ => Nat.zero_le _

/-- rows that go take at least two each off the load -/
theorem load_filter (l : Ledger) (p : Active → Bool) (es : List Active) :
    load l (es.filter p) + 2 * (es.filter fun e => !p e).length ≤ load l es := by
  induction es with
  | nil => simp [load]
  | cons e es ih =>
    have hrow := two_le_rowLoad l e.req
    cases hp : p e with
    | true =>
      rw [List.filter_cons_of_pos hp, List.filter_cons_of_neg (by simp [hp]), load_cons, load_cons]
      omega
    | false =>
      rw [List.filter_cons_of_neg (by simp [hp]), List.filter_cons_of_pos (by simp [hp]), load_cons, List.length_cons]
      omega

theorem two_mul_le_load (l : Ledger) (es : List Active) : 2 * es.length ≤ load l es := by
  have h := load_filter l (fun _ => false) es
  simpa [load] using h

/-- **A step's picks settled** take at least two off the load for every row that was not stopping. -/
theorem load_settleStagedRows : ∀ (es : List Active) (ts : List ℕ) (l : Ledger), ts.length = es.length →
    (es.map fun e => e.req.id).Nodup → (∀ e ∈ es, e.stopping = false → l.isActive e.req.id = true) →
      load (State.settleStagedRows es ts l).2 es + 2 * (es.filter fun e => !e.stopping).length ≤ load l es ∧
        Grows l (State.settleStagedRows es ts l).2 ∧
        ∀ i, i ∉ es.map (fun e => e.req.id) → (State.settleStagedRows es ts l).2 i = l i := by
  intro es
  induction es with
  | nil => exact fun ts l _ _ _ => ⟨by simp [State.settleStagedRows, load], Grows.refl l, fun _ _ => rfl⟩
  | cons e es ih =>
    intro ts l hlen hnodup hact
    cases ts with
    | nil => cases hlen
    | cons t ts =>
      obtain ⟨hnot, hnodup⟩ := List.nodup_cons.1 hnodup
      have hne : ∀ x ∈ es, x.req.id ≠ e.req.id := fun x hx heq => hnot (List.mem_map.2 ⟨x, hx, heq⟩)
      have hlen' : ts.length = es.length := Nat.succ.inj hlen
      simp only [State.settleStagedRows, Active.settleStaged, Active.settle]
      by_cases hstop : e.stopping = true
      · simp only [hstop, if_true]
        obtain ⟨h1, h2, h3⟩ := ih ts l hlen' hnodup fun x hx => hact x (List.mem_cons_of_mem _ hx)
        refine ⟨?_, h2, fun i hi => h3 i fun hmem => hi (List.mem_cons_of_mem _ hmem)⟩
        rw [load_cons, load_cons, rowLoad_congr (h3 e.req.id hnot), List.filter_cons_of_neg (by simp [hstop])]
        omega
      · simp only [Bool.not_eq_true] at hstop
        have ha := hact e List.mem_cons_self hstop
        have hkeep : ∀ x ∈ es, (settleToken l e.req t).1 x.req.id = l x.req.id :=
          fun x hx => settleToken_ne l e.req t (hne x hx)
        obtain ⟨h1, h2, h3⟩ := ih ts (settleToken l e.req t).1 hlen' hnodup (by
          intro x hx hs
          rw [Ledger.isActive, hkeep x hx]
          exact hact x (List.mem_cons_of_mem _ hx) hs)
        have hrow := rowLoad_settleToken ha t
        simp only [hstop, Bool.false_eq_true, if_false]
        refine ⟨?_, (grows_settleToken l e.req t).trans h2, fun i hi => ?_⟩
        · rw [load_congr hkeep] at h1
          rw [load_cons, load_cons, rowLoad_congr (h3 e.req.id hnot), List.filter_cons_of_pos (by simp [hstop]),
            List.length_cons]
          omega
        · simp only [List.map_cons, List.mem_cons, not_or] at hi
          rw [h3 i hi.2, settleToken_ne l e.req t hi.1]

/-- with no row stopping, the plain path settles as the staged one does -/
theorem settleRows_eq_staged : ∀ (es : List Active) (ts : List ℕ) (l : Ledger), ts.length = es.length →
    (∀ e ∈ es, e.stopping = false) →
      (State.settleRows es ts l).2 = (State.settleStagedRows es ts l).2 ∧
        (State.settleRows es ts l).1.map (fun r => r.1.req) = es.map Active.req := by
  intro es
  induction es with
  | nil => exact fun ts l _ _ => by cases ts <;> exact ⟨rfl, rfl⟩
  | cons e es ih =>
    intro ts l hlen hquiet
    cases ts with
    | nil => cases hlen
    | cons t ts =>
      obtain ⟨he, hes⟩ := List.forall_mem_cons.1 hquiet
      obtain ⟨h1, h2⟩ := ih ts (settleToken l e.req t).1 (Nat.succ.inj hlen) hes
      simp only [State.settleRows, State.settleStagedRows, Active.settleStaged, Active.settle, he, Bool.false_eq_true,
        if_false, List.map_cons, h1, h2]
      exact ⟨trivial, trivial⟩

/-- nothing waits to join the batch -/
structure Parked (st : State) : Prop where
  pending : st.pending = []
  lane : st.lane = none
  walk : st.walk = none

def weight (st : State) : ℕ := load st.ledger st.active + if st.pipeline.isNone then 1 else 0

/-- a round the pools and the device do not disturb -/
structure Calm (env : State.RoundEnv) : Prop where
  short : ∀ id, env.short id = false
  launch : env.launchFault = false
  read : env.readFault = false

/-- one row's request each, and the rows not stopping are open -/
theorem Whole.rows_open {st : State} (h : Whole oracle [] st) :
    (st.active.map fun e => e.req.id).Nodup ∧
      ∀ e ∈ st.active, e.stopping = false → st.ledger.isActive e.req.id = true := by
  have hrows : ∃ sent, st.activeRows = st.active.map (rowBy sent) := by
    unfold State.activeRows
    split
    · exact ⟨_, rfl⟩
    · exact ⟨_, rfl⟩
  obtain ⟨sent, hsent⟩ := hrows
  have hbook := book_front h.book
  rw [hsent] at hbook
  constructor
  · have hn := (List.nodup_append.1 (List.map_append ▸ hbook.nodup)).1
    rw [List.map_map] at hn
    exact hn
  · intro e he hstop
    have hmem : rowBy sent e ∈ st.active.map (rowBy sent) ++ (List.map waiting [] ++ st.outRows) :=
      List.mem_append_left _ (List.mem_map_of_mem he)
    obtain ⟨-, a, ha, -, hopen, -⟩ := hbook.live _ hmem (sent e) (by simp [rowBy, hstop])
    have hget : st.ledger e.req.id = some a := ha
    simpa [Ledger.isActive, hget] using hopen

/-- with nothing short, readying only lets aborted rows go -/
theorem readyLoop_lighter {short : ℕ → Bool} (hshort : ∀ id, short id = false) (fuel : ℕ) : ∀ (row : ℕ) (st : State),
    (st.active.map fun e => e.req.id).Nodup →
      load (State.readyLoop short fuel row st).ledger (State.readyLoop short fuel row st).active ≤
          load st.ledger st.active ∧
        Grows st.ledger (State.readyLoop short fuel row st).ledger ∧
        (State.readyLoop short fuel row st).pending = st.pending := by
  induction fuel with
  | zero => exact fun _ st _ => ⟨le_rfl, Grows.refl _, rfl⟩
  | succ fuel ih =>
    intro row st hnodup
    simp only [State.readyLoop]
    cases he : st.active[row]? with
    | none => exact ⟨le_rfl, Grows.refl _, rfl⟩
    | some e =>
      have hperm := swapRemove_perm st.active row e he
      have hnodup' := ((hperm.map fun e : Active => e.req.id).nodup_iff).1 hnodup
      obtain ⟨hnot, hnodup'⟩ := List.nodup_cons.1 hnodup'
      have hload := load_perm st.ledger hperm.symm
      rw [load_cons] at hload
      simp only [hshort, Bool.false_eq_true, if_false]
      split
      · obtain ⟨h1, h2, h3⟩ := ih row { st with active := swapRemove st.active row, trace := st.trace ++ [.release e.req.id] } hnodup'
        refine ⟨h1.trans ?_, h2, h3⟩
        simp only
        omega
      · split
        · obtain ⟨h1, h2, h3⟩ := ih row { st with active := swapRemove st.active row, ledger := st.ledger.retire e.req.id,
                                                    trace := st.trace ++ [.release e.req.id] } hnodup'
          have hkeep : load (st.ledger.retire e.req.id) (swapRemove st.active row) =
              load st.ledger (swapRemove st.active row) := by
            refine load_congr fun x hx => Ledger.modify_ne _ _ fun heq => hnot ?_
            exact List.mem_map.2 ⟨x, hx, heq⟩
          refine ⟨h1.trans ?_, (grows_retire _ _).trans h2, h3⟩
          simp only
          omega
        · exact ih (row + 1) st hnodup

/-- **A whole step** takes at least two off the load for every row. -/
theorem wholeStep_lighter (oracle : ℕ → List ℕ → ℕ) {st : State} (hquiet : ∀ e ∈ st.active, e.stopping = false)
    (hnodup : (st.active.map fun e => e.req.id).Nodup)
    (hopen : ∀ e ∈ st.active, e.stopping = false → st.ledger.isActive e.req.id = true) (riders : List ℕ) :
    load (st.wholeStep oracle riders).ledger (st.wholeStep oracle riders).active + 2 * st.active.length ≤
        load st.ledger st.active ∧
      Grows st.ledger (st.wholeStep oracle riders).ledger := by
  have hfeed : List.zipWith Active.feed st.active (st.active.map Active.next) =
      st.active.map fun e => e.feed e.next := zipWith_feed List.prefix_rfl
  simp only [State.wholeStep, State.emitDecodeRows, hfeed]
  set es := st.active.map fun e => e.feed e.next with hes
  have hreqs : es.map Active.req = st.active.map Active.req := by
    rw [hes, List.map_map]
    rfl
  have hquiet' : ∀ e ∈ es, e.stopping = false := by
    intro e he
    obtain ⟨e₀, he₀, rfl⟩ := List.mem_map.1 he
    exact hquiet e₀ he₀
  have hlen : (es.map (pick oracle)).length = es.length := List.length_map _
  obtain ⟨hled, hout⟩ := settleRows_eq_staged es (es.map (pick oracle)) st.ledger hlen hquiet'
  obtain ⟨h1, h2, -⟩ := load_settleStagedRows es (es.map (pick oracle)) st.ledger hlen
    (by rw [hes, rowIds_feed]; exact hnodup)
    (by
      intro e he hs
      obtain ⟨e₀, he₀, rfl⟩ := List.mem_map.1 he
      exact hopen e₀ he₀ hs)
  rw [← hled] at h1 h2
  rw [List.filter_eq_self.2 fun e he => by simp [hquiet' e he]] at h1
  have hkeep : load (State.settleRows es (es.map (pick oracle)) st.ledger).2
      ((removeWhere (fun r => r.2) (State.settleRows es (es.map (pick oracle)) st.ledger).1).map Prod.fst) ≤
        load (State.settleRows es (es.map (pick oracle)) st.ledger).2 es := by
    rw [load_perm _ ((removeWhere_perm _ _).map Prod.fst)]
    refine (load_sublist _ (List.filter_sublist.map Prod.fst)).trans (le_of_eq (load_of_reqs _ ?_))
    rw [List.map_map]
    exact hout
  have hlen' : es.length = st.active.length := List.length_map _
  rw [load_of_reqs st.ledger hreqs, hlen'] at h1
  exact ⟨by omega, h2⟩

/-- the batch goes from `st` to `st'` with less left to do -/
structure Drains (st st' : State) : Prop where
  parked : Parked st'
  lighter : weight st' < weight st
  grows : Grows st.ledger st'.ledger

theorem freshRound_drains {st : State} (h : Whole oracle [] st) (hp : st.pipeline = none) (hpark : Parked st)
    (hne : st.active ≠ []) (cfg : Config) {env : State.RoundEnv} (hcalm : Calm env) :
    ∃ st', st.freshRound oracle cfg env = .ok st' ∧ Drains st st' := by
  obtain ⟨hr, hrp, hrw, hrl⟩ := readyDecodeRows_whole h hp env.short
  obtain ⟨hload, hgrow, hpend⟩ := readyLoop_lighter hcalm.short st.active.length 0 st h.rows_open.1
  have hpark' : Parked (st.readyDecodeRows env.short) :=
    ⟨hpend.trans hpark.pending, hrl.trans hpark.lane, hrw.trans hpark.walk⟩
  change load (st.readyDecodeRows env.short).ledger (st.readyDecodeRows env.short).active ≤ _ at hload
  change Grows _ (st.readyDecodeRows env.short).ledger at hgrow
  have hbefore : weight st = load st.ledger st.active + 1 := by simp [weight, hp]
  have hmany := two_mul_le_load st.ledger st.active
  have hpos := List.length_pos_iff.2 hne
  simp only [State.freshRound]
  generalize st.readyDecodeRows env.short = st₁ at hr hrp hload hgrow hpark' ⊢
  split
  · rename_i he
    have he' : st₁.active = [] := by simpa using he
    have hafter : weight st₁ = 1 := by simp [weight, hrp, he', load]
    exact ⟨st₁, rfl, hpark', by omega, hgrow⟩
  · rename_i hne₁
    have hne₁' : st₁.active ≠ [] := by simpa using hne₁
    split
    · simp only [hcalm.launch, Bool.false_eq_true, if_false]
      refine ⟨_, rfl, ⟨hpark'.pending, hpark'.lane, hpark'.walk⟩, ?_, hgrow⟩
      have hfeed : List.zipWith Active.feed st₁.active (st₁.active.map Active.next) =
          st₁.active.map fun e => e.feed e.next := zipWith_feed List.prefix_rfl
      have hsame : load st₁.ledger (st₁.active.map fun e => e.feed e.next) = load st₁.ledger st₁.active := by
        refine load_of_reqs _ ?_
        rw [List.map_map]
        rfl
      rw [hbefore]
      simp only [weight, State.launchStaged, Bool.false_eq_true, if_false, hfeed, hsame, Option.isNone_some]
      omega
    · obtain ⟨hnodup, hopen⟩ := hr.rows_open
      obtain ⟨h1, h2⟩ := wholeStep_lighter oracle (hr.quiet hrp) hnodup hopen []
      have hpos₁ := List.length_pos_iff.2 hne₁'
      simp only [State.decodeRoundCollect, hcalm.launch, Bool.false_eq_true, if_false]
      refine ⟨_, rfl, ⟨hpark'.pending, hpark'.lane, hpark'.walk⟩, ?_, hgrow.trans h2⟩
      have hafter : weight (st₁.wholeStep oracle []) =
          load (st₁.wholeStep oracle []).ledger (st₁.wholeStep oracle []).active + 1 := by
        simp [weight, hrp]
      omega

/-- a row that is stopping stays so -/
theorem settleStagedRows_stopping : ∀ (es : List Active) (ts : List ℕ) (l : Ledger),
    (es.filter Active.stopping).length ≤ ((State.settleStagedRows es ts l).1.filter Active.stopping).length := by
  intro es
  induction es with
  | nil => exact fun ts l => Nat.zero_le _
  | cons e es ih =>
    intro ts l
    cases ts with
    | nil => exact le_rfl
    | cons t ts =>
      simp only [State.settleStagedRows]
      by_cases hstop : e.stopping = true
      · simp only [Active.settleStaged, hstop, if_true]
        rw [List.filter_cons_of_pos hstop, List.filter_cons_of_pos hstop, List.length_cons, List.length_cons]
        exact Nat.succ_le_succ (ih ts l)
      · rw [List.filter_cons_of_neg hstop]
        refine (ih ts (e.settleStaged t l).2).trans ?_
        exact ((List.sublist_cons_self _ _).filter _).length_le

/-- **A drain** takes more off the load than the idle pipeline puts back. -/
theorem drainPipeline_drains {st : State} {p : PendingDecode} (h : Whole oracle [] st) (hp : st.pipeline = some p)
    (hpark : Parked st) : ∃ st', st.drainPipeline false = .ok st' ∧ Drains st st' := by
  obtain ⟨hrows, hne, hread, -, -⟩ := h.staged p hp
  obtain ⟨hnodup, hopen⟩ := h.rows_open
  have hd := State.drainPipeline.eq_def st false
  simp only [hp, State.collectPending, hrows, ne_eq, not_true_eq_false, if_false, Bool.false_eq_true, hread] at hd
  obtain ⟨h1, h2, -⟩ := load_settleStagedRows st.active (st.active.map (pick oracle)) st.ledger (List.length_map _)
    hnodup hopen
  refine ⟨_, hd, ⟨hpark.pending, hpark.lane, hpark.walk⟩, ?_, h2⟩
  have hstop := settleStagedRows_stopping st.active (st.active.map (pick oracle)) st.ledger
  have hkeeps := settleStagedRows_keeps st.active (st.active.map (pick oracle)) st.ledger
  set out := State.settleStagedRows st.active (st.active.map (pick oracle)) st.ledger
  have hreqs : out.1.map Active.req = st.active.map Active.req := by
    have := congrArg (List.map Prod.fst) hkeeps
    simpa [Function.comp_def] using this
  have h3 : load out.2 (out.1.filter fun e => !e.stopping) + 2 * (out.1.filter Active.stopping).length ≤
      load out.2 out.1 := by
    simpa only [Bool.not_not] using load_filter out.2 (fun e => !e.stopping) out.1
  rw [load_of_reqs out.2 hreqs] at h3
  have hsplit := List.length_eq_length_filter_add (l := st.active) Active.stopping
  have hpos := List.length_pos_iff.2 hne
  have hbefore : weight st = load st.ledger st.active := by simp [weight, hp]
  rw [hbefore]
  simp only [weight, Option.isNone_none, if_true]
  omega

/-- **A pipelined round** delivers a token to every row. -/
theorem pipelined_drains {st : State} {p : PendingDecode} (h : Whole oracle [] st) (hp : st.pipeline = some p)
    (hpark : Parked st) (hquiet : ∀ e ∈ st.active, e.stopping = false) :
    ∃ st', (State.launchStaged oracle { st with pipeline := none } true ((p.slot + 1) % 2)).collectPending p false =
        .ok st' ∧ Drains st { st' with pipeline := some ⟨st.active.length, (p.slot + 1) % 2⟩ } := by
  obtain ⟨hrows, hne, hread, hids, hslot⟩ := h.staged p hp
  obtain ⟨hnodup, hopen⟩ := h.rows_open
  have hfeed : List.zipWith Active.feed st.active st.ids = st.active.map fun e => e.feed (pick oracle e) :=
    zipWith_feed hids
  have hslots : p.slot ≠ (p.slot + 1) % 2 := by omega
  set es := st.active.map fun e => e.feed (pick oracle e) with hes
  have hreqs : es.map Active.req = st.active.map Active.req := by
    rw [hes, List.map_map]
    rfl
  have hlen : es.length = st.active.length := List.length_map _
  obtain ⟨h1, h2, -⟩ := load_settleStagedRows es (st.active.map (pick oracle)) st.ledger
    (by rw [List.length_map, hlen]) (by rw [hes, rowIds_feed]; exact hnodup)
    (by
      intro e he hs
      obtain ⟨e₀, he₀, rfl⟩ := List.mem_map.1 he
      exact hopen e₀ he₀ hs)
  have hall : es.filter (fun e => !e.stopping) = es := by
    refine List.filter_eq_self.2 fun e he => ?_
    obtain ⟨e₀, he₀, rfl⟩ := List.mem_map.1 he
    simp [Active.feed, hquiet e₀ he₀]
  have hout := congrArg (List.map Prod.fst) (settleStagedRows_keeps es (st.active.map (pick oracle)) st.ledger)
  simp only [List.map_map] at hout
  simp only [State.collectPending, State.launchStaged, hfeed, if_true, hlen, hrows, ne_eq, not_true_eq_false, if_false,
    Function.update_of_ne hslots, hread, Bool.false_eq_true]
  refine ⟨_, rfl, ⟨hpark.pending, hpark.lane, hpark.walk⟩, ?_, h2⟩
  rw [hall, hlen, load_of_reqs st.ledger hreqs] at h1
  have hbefore : weight st = load st.ledger st.active := by simp [weight, hp]
  have hpos := List.length_pos_iff.2 hne
  rw [hbefore]
  simp only [weight, Option.isNone_some, Bool.false_eq_true, if_false, Nat.add_zero]
  rw [load_of_reqs _ hout]
  omega

/-- **One calm round** takes something off the load. -/
theorem decodeRound_drains {st : State} (h : Whole oracle [] st) (hpark : Parked st) (hne : st.active ≠ [])
    (cfg : Config) {env : State.RoundEnv} (hcalm : Calm env) :
    ∃ st', st.decodeRound oracle cfg env = .ok st' ∧ Drains st st' := by
  simp only [State.decodeRound]
  cases hp : st.pipeline with
  | none => exact freshRound_drains h hp hpark hne cfg hcalm
  | some p =>
    simp only
    split
    · rename_i helig
      have hquiet : ∀ e ∈ st.active, e.stopping = false := by
        simp only [State.pipelineEligible, Bool.and_eq_true, List.all_eq_true, Bool.not_eq_true'] at helig
        exact fun e he => (helig.1.2 e he).1.1.1
      obtain ⟨st', hst', hd⟩ := pipelined_drains h hp hpark hquiet
      simp only [hcalm.launch, Bool.false_eq_true, if_false, hcalm.read, hst']
      exact ⟨_, rfl, hd⟩
    · obtain ⟨st₁, hst₁, hd₁⟩ := drainPipeline_drains h hp hpark
      obtain ⟨hres, hok⟩ := drainPipeline_result h env.readFault
      rw [hcalm.read, hst₁] at hres hok
      obtain ⟨hp₁, -⟩ := hok st₁ rfl
      simp only [hcalm.read, hst₁]
      split
      · exact ⟨st₁, rfl, hd₁⟩
      · rename_i hne₁
        obtain ⟨st₂, hst₂, hd₂⟩ := freshRound_drains hres hp₁ hd₁.parked (by simpa using hne₁) cfg hcalm
        exact ⟨st₂, hst₂, hd₂.parked, hd₂.lighter.trans hd₁.lighter, hd₁.grows.trans hd₂.grows⟩

/-- with nothing waiting, a turn is a decode round of the batch, if there is one -/
theorem turn_parked {st : State} (hpark : Parked st) (cfg : Config) (env : State.StepEnv) :
    st.turn oracle cfg env = if st.active.isEmpty then .ok st else st.decodeRound oracle cfg env.round := by
  have hjoin : st.joinAsyncPrefill oracle env.joinReadFault env.laneBad = .ok st := by
    simp [State.joinAsyncPrefill, hpark.lane]
  have hadm : ∀ envs, st.admitFromQueue oracle cfg envs = .ok st := by
    intro envs
    cases envs <;> simp [State.admitFromQueue, hpark.pending]
  simp [State.turn, hpark.walk, hjoin, hadm]

/-- **Calm rounds drain the batch.** From a state with nothing waiting, as many calm turns as there is weight leave no
row. -/
theorem calm_turns_drain (cfg : Config) : ∀ (envs : List State.StepEnv) {st : State}, (∀ env ∈ envs, Calm env.round) →
    Whole oracle [] st → Parked st → weight st ≤ envs.length + 1 →
      ∃ st', run (step oracle cfg) st (envs.map .turn) = .ok st' ∧ st'.active = [] ∧ Whole oracle [] st' ∧ Parked st' ∧
        Grows st.ledger st'.ledger := by
  intro envs
  induction envs with
  | nil =>
    intro st _ h hpark hw
    refine ⟨st, rfl, ?_, h, hpark, Grows.refl _⟩
    have hload := two_mul_le_load st.ledger st.active
    simp only [weight, List.length_nil] at hw
    exact List.length_eq_zero_iff.1 (by omega)
  | cons env envs ih =>
    intro st hcalm h hpark hw
    obtain ⟨hc, hcs⟩ := List.forall_mem_cons.1 hcalm
    by_cases hne : st.active = []
    · have hidle : weight st = 1 := by simp [weight, h.idle_of_empty hne, hne, load]
      obtain ⟨st₂, hrun, hact, hrest⟩ := ih hcs h hpark (by omega)
      refine ⟨st₂, (run_cons_ok _ _ _ _).2 ⟨st, ?_, hrun⟩, hact, hrest⟩
      simp [step, h.running, turn_parked hpark, hne]
    · obtain ⟨st₁, hst₁, hd⟩ := decodeRound_drains h hpark hne cfg hc
      have hwhole := decodeRound_result h hpark.walk cfg env.round
      rw [hst₁] at hwhole
      have hlight := hd.lighter
      rw [List.length_cons] at hw
      obtain ⟨st₂, hrun, hact, hw₂, hp₂, hg₂⟩ := ih hcs hwhole hd.parked (by omega)
      refine ⟨st₂, (run_cons_ok _ _ _ _).2 ⟨st₁, ?_, hrun⟩, hact, hw₂, hp₂, hd.grows.trans hg₂⟩
      simp [step, h.running, turn_parked hpark, hne, hst₁]

/-- with no row and nothing waiting, every account is closed -/
theorem Whole.all_closed {st : State} (h : Whole oracle [] st) (hpark : Parked st) (he : st.active = []) {i : ℕ}
    {a : Acct} (ha : st.ledger i = some a) : a.isOpen = false := by
  by_contra ho
  obtain ⟨r, hr, -⟩ := h.book.held i a ha (by simpa using ho)
  have hrows : List.map waiting [] ++ st.outRows ++ st.activeRows = [] := by
    simp [State.outRows, State.activeRows, walkRows, hpark.pending, hpark.lane, hpark.walk, h.idle_of_empty he, he]
  rw [hrows] at hr
  cases hr

/-- a request that was open, was not left and was not failed since has the whole reference -/
theorem Kept.complete {a a' : Acct} (hk : Kept a a') (hopen : ∃ ts : List ℕ, a.events = ts.map .token)
    (hleft : a.aborted = false) (h' : Outcome oracle a') : a'.events = plainStream oracle a.req := by
  obtain ⟨us, hus⟩ := hopen
  have hnot : ∀ e ∈ a.events, e ≠ .fail ∧ e ≠ .reject := by
    intro e he
    rw [hus] at he
    obtain ⟨t, -, rfl⟩ := List.mem_map.1 he
    exact ⟨by simp, by simp⟩
  rcases h' with h1 | ⟨ts, -, ha, -⟩ | ⟨ts, -, h1⟩ | h1
  · rw [h1, hk.req]
  · rw [hk.aborted, hleft] at ha
    cases ha
  · exact absurd rfl (hnot .fail (hk.calm .fail (by simp [h1]) (Or.inl rfl))).1
  · exact absurd rfl (hnot .reject (hk.calm .reject (by simp [h1]) (Or.inr rfl))).2

/-! ## An engine of several ranks never stages -/

/-- nothing is in flight after the call -/
def Idle : Except State State → Prop
  | .ok st => st.pipeline = none
  | .error st => st.pipeline = none

theorem readyLoop_pipeline (short : ℕ → Bool) (fuel : ℕ) : ∀ (row : ℕ) (st : State),
    (State.readyLoop short fuel row st).pipeline = st.pipeline := by
  induction fuel with
  | zero => exact fun _ _ => rfl
  | succ fuel ih =>
    intro row st
    simp only [State.readyLoop]
    split
    · rfl
    · split
      · exact ih ..
      · split
        · exact ih ..
        · split
          · exact ih ..
          · exact ih ..

theorem freshRound_idle {cfg : Config} (hcfg : cfg.singleRank = false) {st : State} (hp : st.pipeline = none)
    (env : State.RoundEnv) : Idle (st.freshRound oracle cfg env) := by
  have hready : (st.readyDecodeRows env.short).pipeline = none := (readyLoop_pipeline ..).trans hp
  simp only [State.freshRound]
  split
  · exact hready
  · split
    · rename_i helig
      simp [State.pipelineEligible, hcfg] at helig
    · simp only [State.decodeRoundCollect]
      split
      · rfl
      · exact hready

theorem drainPipeline_idle {st : State} (hp : st.pipeline = none) (fault : Bool) : st.drainPipeline fault = .ok st := by
  simp [State.drainPipeline, hp]

theorem prepareNewcomer_pipeline (st : State) (req : Request) (door : State.Door) :
    (st.prepareNewcomer req door).1.pipeline = st.pipeline := by
  simp only [State.prepareNewcomer]
  split
  · rfl
  · split
    · rfl
    · split <;> rfl

theorem gather_pipeline (doors : List State.Door) : ∀ (newcomers : List Request) (st : State),
    (State.gather doors newcomers st).2.pipeline = st.pipeline := by
  induction doors with
  | nil => exact fun _ _ => rfl
  | cons door doors ih =>
    intro newcomers st
    simp only [State.gather]
    split
    · rfl
    · rename_i req rest hpend
      split
      · rfl
      · have hprep := prepareNewcomer_pipeline { st with pending := rest } req door
        split
        · rename_i st' hst'
          rw [hst'] at hprep
          exact (ih _ st').trans hprep
        · rename_i st' hst'
          rw [hst'] at hprep
          exact (ih _ st').trans hprep
        · rename_i st' hst'
          rw [hst'] at hprep
          exact hprep

theorem foldl_settleFirstToken_pipeline (reqs : List Request) : ∀ st : State,
    (reqs.foldl (fun st r => st.settleFirstToken r (oracle r.id [])) st).pipeline = st.pipeline := by
  induction reqs with
  | nil => exact fun _ => rfl
  | cons r reqs ih => exact fun st => ih _

theorem mixedAdmission_idle (oracle : ℕ → List ℕ → ℕ) {st : State} (hp : st.pipeline = none) (cfg : Config) (env : State.Intake)
    (newcomers : List Request) : Idle (st.mixedAdmission oracle cfg env newcomers) := by
  simp only [State.mixedAdmission]
  split
  · exact hp
  · split
    · exact hp
    · exact (foldl_settleFirstToken_pipeline newcomers _).trans hp

theorem soloPrefill_pipeline (st : State) (req : Request) (fault : Bool) :
    (st.soloPrefill oracle req fault).pipeline = st.pipeline := by
  cases fault <;> rfl

theorem admitAndPrefill_idle (oracle : ℕ → List ℕ → ℕ) {st : State} (hp : st.pipeline = none) (cfg : Config) (env : State.Intake)
    (req : Request) : Idle ((st.admitAndPrefill oracle cfg env req).map Prod.fst) := by
  have hprep := (prepareNewcomer_pipeline st req env.door).trans hp
  simp only [State.admitAndPrefill]
  generalize st.prepareNewcomer req env.door = prepared at hprep ⊢
  obtain ⟨st₁, outcome⟩ := prepared
  cases outcome with
  | done => exact hprep
  | requeue => exact hprep
  | ready =>
    simp only [drainPipeline_idle hprep, ite_self]
    split
    · split <;> exact hprep
    · split
      · have hready : (st₁.readyDecodeRows env.short).pipeline = none := (readyLoop_pipeline ..).trans hprep
        split
        · exact (soloPrefill_pipeline ..).trans hready
        · have hmix := mixedAdmission_idle oracle ((gather_pipeline env.gathered [req] _).trans hready) cfg env
            (State.gather env.gathered [req] (st₁.readyDecodeRows env.short)).1
          split
          · rename_i st' hst'
            rw [hst'] at hmix
            exact hmix
          · rename_i st' hst'
            rw [hst'] at hmix
            exact hmix
      · exact (soloPrefill_pipeline ..).trans hprep

theorem admitFromQueue_idle (oracle : ℕ → List ℕ → ℕ) (cfg : Config) (envs : List State.Intake) : ∀ {st : State}, st.pipeline = none →
    Idle (st.admitFromQueue oracle cfg envs) := by
  induction envs with
  | nil => exact fun hp => hp
  | cons env envs ih =>
    intro st hp
    simp only [State.admitFromQueue]
    split
    · exact hp
    · split
      · exact hp
      · rename_i req rest hpend
        have hadm := admitAndPrefill_idle oracle (show ({ st with pending := rest } : State).pipeline = none from hp) cfg env req
        split
        · rename_i st' hst'
          rw [hst'] at hadm
          exact hadm
        · rename_i st' hst'
          rw [hst'] at hadm
          exact hadm
        · rename_i st' hst'
          rw [hst'] at hadm
          split
          · exact hadm
          · exact ih hadm

theorem graduateReady_pipeline : ∀ (ws : List Walker) (st : State),
    (State.graduateReady ws st).2.pipeline = st.pipeline := by
  intro ws
  induction ws with
  | nil => exact fun _ => rfl
  | cons w ws ih =>
    intro st
    simp only [State.graduateReady]
    split
    · exact ih _
    · exact ih st

theorem advanceWalkRound_idle {st : State} (hp : st.pipeline = none) (chunk : ℕ) (env : State.WalkEnv) (walk : Walk) :
    Idle (st.advanceWalkRound oracle chunk env walk) := by
  simp only [State.advanceWalkRound]
  generalize hg : State.graduateReady _ _ = g
  have hp₁ : g.2.pipeline = none := by
    rw [← hg]
    exact (graduateReady_pipeline _ _).trans hp
  split
  · exact hp₁
  · have hp₂ : (if walk.firstRound then g.2 else g.2.readyDecodeRows env.short).pipeline = none := by
      split
      · exact hp₁
      · exact (readyLoop_pipeline ..).trans hp₁
    generalize (if walk.firstRound then g.2 else g.2.readyDecodeRows env.short) = st₂ at hp₂ ⊢
    split
    · split
      · exact hp₂
      · exact (graduateReady_pipeline _ _).trans hp₂
    · split
      · exact hp₂
      · split
        · exact (graduateReady_pipeline _ _).trans hp₂
        · exact (graduateReady_pipeline _ _).trans hp₂

theorem advanceWalk_idle {st : State} (hp : st.pipeline = none) (cfg : Config) (env : State.WalkEnv) :
    Idle (st.advanceWalk oracle cfg env) := by
  simp only [State.advanceWalk]
  split
  · exact hp
  · exact advanceWalkRound_idle (show ({ st with walk := none } : State).pipeline = none from hp) _ env _

theorem joinAsyncPrefill_idle {st : State} (hp : st.pipeline = none) (readFault bad : Bool) :
    Idle (st.joinAsyncPrefill oracle readFault bad) := by
  simp only [State.joinAsyncPrefill, drainPipeline_idle hp]
  split
  · exact hp
  · split
    · exact hp
    · split <;> exact hp

theorem turn_idle (oracle : ℕ → List ℕ → ℕ) {cfg : Config} (hcfg : cfg.singleRank = false) {st : State} (hp : st.pipeline = none)
    (env : State.StepEnv) : Idle (st.turn oracle cfg env) := by
  simp only [State.turn]
  split
  · exact advanceWalk_idle hp cfg env.walk
  · have hjoin : Idle (if env.laneReady then st.joinAsyncPrefill oracle env.joinReadFault env.laneBad else .ok st :
        Except State State) := by
      split
      · exact joinAsyncPrefill_idle hp _ _
      · exact hp
    split
    · rename_i st' hst'
      rw [hst'] at hjoin
      exact hjoin
    · rename_i st' hst'
      rw [hst'] at hjoin
      have hadm := admitFromQueue_idle oracle cfg env.intake hjoin
      split
      · rename_i st'' hst''
        rw [hst''] at hadm
        exact hadm
      · rename_i st'' hst''
        rw [hst''] at hadm
        split
        · exact advanceWalk_idle hadm cfg env.walk
        · split
          · exact hadm
          · simp only [State.decodeRound, show st''.pipeline = none from hadm]
            exact freshRound_idle hcfg hadm env.round

/-- **Never staged.** An engine of several ranks has nothing in flight between its turns. -/
theorem plain_never_stages (oracle : ℕ → List ℕ → ℕ) {cfg : Config} (hcfg : cfg.singleRank = false) {ops : List Op}
    {st : State} (hr : run (step oracle cfg) State.new ops = .ok st) : st.pipeline = none := by
  refine run_invariant (I := fun _ st => st.pipeline = none) (P := fun _ _ => True) State.new rfl ?_ ops st
    (stepsMeet_true _ _) hr
  intro _ s op s' hp _ hs
  cases op with
  | submit req =>
    simp only [step] at hs
    split at hs
    · cases hs
    · cases hs
      exact hp
  | abort id =>
    cases hs
    exact hp
  | turn env =>
    have hidle := turn_idle oracle hcfg hp env
    simp only [step] at hs
    split at hs
    · cases hs
    · split at hs
      · rename_i st' hst'
        rw [hst'] at hidle
        cases hs
        exact hidle
      · rename_i st' hst'
        rw [hst'] at hidle
        cases hs
        exact hidle

/-! ## Staged and plain -/

theorem AcctOk.streamOk {a : Acct} (h : AcctOk oracle a) : StreamOk a.events := by
  cases ho : a.isOpen with
  | true =>
    obtain ⟨ts, -, he⟩ := h.whileOpen ho
    exact ⟨ts, [], by simpa using he, Nat.zero_le _, by simp⟩
  | false => exact (h.closed ho).streamOk

/-- **Staged decode equals plain decode.** Take any run of an engine that stages and any run of one that never does, with
the same oracle and whatever arrivals, aborts, joins and failures each has. A request served by both is sent the same
tokens in the same order, and if both finish it, the same stream. Every stream is tokens, then at most one terminal, and
a closed account is the whole reference, or a front of it that its client left, the pools or the device failed, or the
door rejected. The row check has never failed, no page of a row in flight was released, and while a step is staged its
rows are the batch's, in order. A batch nothing joins any more is served to the end by as many undisturbed turns as it
weighs. -/
theorem staged_decode_equals_plain (oracle : ℕ → List ℕ → ℕ) (cfg plain : Config) (hplain : plain.singleRank = false)
    {ops ops' : List Op} {st st' : State} (hr : run (step oracle cfg) State.new ops = .ok st)
    (hr' : run (step oracle plain) State.new ops' = .ok st') :
    st'.pipeline = none ∧
    (∀ i a b, st.ledger i = some a → st'.ledger i = some b → a.req = b.req →
      (tokensOf a.events <+: tokensOf b.events ∨ tokensOf b.events <+: tokensOf a.events) ∧
      ∀ r r', Event.finish r ∈ a.events → Event.finish r' ∈ b.events → a.events = b.events) ∧
    (∀ i a, st.ledger i = some a → StreamOk a.events ∧ (a.isOpen = false → Outcome oracle a)) ∧
    st.stopped ≠ some .rowMismatch ∧
    (replay [] st.trace).isSome ∧
    (∀ p, st.pipeline = some p → p.rows = st.active.length ∧ replay [] st.trace = some [st.rowIds]) ∧
    (st.stopped = none → Parked st → ∀ envs : List State.StepEnv, (∀ env ∈ envs, Calm env.round) →
      weight st ≤ envs.length → ∃ st'', run (step oracle cfg) st (envs.map .turn) = .ok st'' ∧
        ∀ i a, st.ledger i = some a → ∃ a', st''.ledger i = some a' ∧ a'.isOpen = false ∧
          (a.isOpen = true → a.aborted = false → a'.events = plainStream oracle a.req)) := by
  have hI := run_inv oracle cfg hr
  have hI' := run_inv oracle plain hr'
  refine ⟨plain_never_stages oracle hplain hr', ?_, ?_, hI.checked, hI.trace, ?_, ?_⟩
  · intro i a b ha hb hreq
    have hoka := (hI.accts i a ha).2
    have hokb := (hI'.accts i b hb).2
    have hpre := hoka.isPrefix
    rw [hreq] at hpre
    refine ⟨List.prefix_or_prefix_of_prefix hpre hokb.isPrefix, fun r r' hra hrb => ?_⟩
    rw [(hoka.complete hra).1, (hokb.complete hrb).1, hreq]
  · intro i a ha
    have hok := (hI.accts i a ha).2
    exact ⟨hok.streamOk, hok.closed⟩
  · intro p hp
    have hrun : st.stopped = none := by
      by_contra hn
      rw [hI.idle hn] at hp
      cases hp
    have hw := hI.whole hrun
    refine ⟨(hw.staged p hp).1, ?_⟩
    rw [hw.trace]
    simp [State.inflight, hp]
  · intro hrun hpark envs hcalm hlen
    have hw := hI.whole hrun
    obtain ⟨st₁, hrun₁, hact, hw₁, hp₁, hgrow⟩ := calm_turns_drain cfg envs hcalm hw hpark (by omega)
    refine ⟨st₁, hrun₁, fun i a ha => ?_⟩
    obtain ⟨a', ha', hk⟩ := hgrow i a ha
    have hclosed := hw₁.all_closed hp₁ hact ha'
    refine ⟨a', ha', hclosed, fun hopen hleft => ?_⟩
    obtain ⟨ts, -, hts⟩ := (hI.accts i a ha).2.whileOpen hopen
    exact hk.complete ⟨ts, hts⟩ hleft ((hw₁.book.accts i a' ha').2.closed hclosed)

/-- a turn nothing disturbs, with room for two newcomers -/
def quietTurn : State.StepEnv where
  laneReady := true
  laneBad := false
  joinReadFault := false
  intake := List.replicate 2 ⟨⟨true, .ready⟩, [], false, fun _ => false, fun _ => 0, false, false⟩
  round := ⟨fun _ => false, fun _ => false, false, false⟩
  walk := ⟨fun _ => false, fun _ => false, fun _ => false, false⟩

/-- a request that stops at the token 2, and one that stops nowhere, each for at most nine tokens -/
def pair : List Op :=
  [.submit ⟨1, 9, fun t => if t = 2 then some 5 else none, true, false, false⟩, .submit ⟨2, 9, fun _ => none, true, false, false⟩]

/-- the first request has stopped and its row is still in the staged step; both engines sent it the same -/
theorem staged_decode_equals_plain_pair : ∃ st st' : State,
    run (step (fun _ ts => ts.length) ⟨4, 8, true, false, none⟩) State.new (pair ++ List.replicate 3 (.turn quietTurn)) =
      .ok st ∧
    run (step (fun _ ts => ts.length) ⟨4, 8, false, false, none⟩) State.new (pair ++ List.replicate 3 (.turn quietTurn)) =
      .ok st' ∧
    st.active.map Active.stopping = [true, false] ∧ replay [] st.trace = some [[1, 2]] ∧ st'.pipeline = none ∧
    (st.ledger 1).map Acct.events = (st'.ledger 1).map Acct.events := by
  have h := staged_decode_equals_plain (fun _ ts => ts.length) ⟨4, 8, true, false, none⟩ ⟨4, 8, false, false, none⟩ rfl
    (show run (step _ _) State.new (pair ++ List.replicate 3 (.turn quietTurn)) = .ok _ from rfl)
    (show run (step _ _) State.new (pair ++ List.replicate 3 (.turn quietTurn)) = .ok _ from rfl)
  obtain ⟨hplain, hsame, -, -, -, hstaged, -⟩ := h
  refine ⟨_, _, rfl, rfl, rfl, (hstaged _ rfl).2, hplain, ?_⟩
  have hevents := (hsame 1 _ _ rfl rfl rfl).2 (.stop 5) (.stop 5) (by decide) (by decide)
  exact congrArg some hevents

end Pegainfer.Gemma4.Pipeline
