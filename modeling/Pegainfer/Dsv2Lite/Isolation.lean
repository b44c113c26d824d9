/-
Whole runs of the mixed-request scheduler: every request's stream is the one it has alone.

- `lifeRows`, `lifeSinks`: what a request holds and has closed `k` rounds after the round it left the queue in, as a
  function of the request alone.
- `Isolated`, `run_isolated`: in any run the queue is what is left of the arrivals, and each request that left it is at
  a point of its own life; rows stand in arrival order.
- `alone_life`: a run with the request only goes through exactly that life.
- `life_told`: a stream ends in its one terminal, which counts its tokens.
- `run_closes`: every request is closed in the end, whatever arrives later.
-/
import Mathlib.Tactic
import Pegainfer.Dsv2Lite.Intake

namespace Pegainfer.Dsv2Lite

open Scheduler

variable {K : Type} {g : Generator K} {s s' : Scheduler K}

/-! ## One request's life -/

/-- the request's row, if it has one -/
def lifeRows (g : Generator K) (p : PendingRequest) : ℕ → List (ActiveRequestState K)
  | 0 => (enteredRows g p).filterMap (live g)
  | k + 1 => (lifeRows g p k).filterMap (live g)

/-- the request's stream, if it is closed -/
def lifeSinks (g : Generator K) (p : PendingRequest) : ℕ → List TokenSink
  | 0 => enteredSinks g p ++ (enteredRows g p).filterMap (gone g)
  | k + 1 => lifeSinks g p k ++ (lifeRows g p k).filterMap (gone g)

/-- a row lives or is gone -/
theorem live_or_gone (rows : List (ActiveRequestState K)) :
    (rows.filterMap (live g)).length + (rows.filterMap (gone g)).length = rows.length := by
  induction rows with
  | nil => rfl
  | cons a rows ih =>
    by_cases hfin : (a.advance g).1 = true
    · have hlive : live g a = none := if_pos hfin
      have hgone : gone g a = some (a.advance g).2.tokenTx := if_pos hfin
      rw [List.filterMap_cons_none hlive, List.filterMap_cons_some hgone, List.length_cons, List.length_cons]
      omega
    · have hlive : live g a = some (a.advance g).2 := if_neg hfin
      have hgone : gone g a = none := if_neg hfin
      rw [List.filterMap_cons_some hlive, List.filterMap_cons_none hgone, List.length_cons, List.length_cons]
      omega

theorem prefillRequest_one (p : PendingRequest) (t : Scheduler K) :
    (t.prefillRequest g p).active.length + (t.prefillRequest g p).closed.length =
      t.active.length + t.closed.length + 1 := by
  unfold prefillRequest
  dsimp only
  split_ifs
  · simp only [close, List.length_append, List.length_singleton]
    omega
  · split
    · simp only [close, List.length_append, List.length_singleton]
      omega
    · split
      · simp only [close, List.length_append, List.length_singleton]
        omega
      · split_ifs
        · simp only [retire, List.length_append, List.length_singleton]
          omega
        · simp only [List.length_append, List.length_singleton]
          omega

/-- **A request that left the queue is one row or one closed stream.** -/
theorem life_one (p : PendingRequest) (k : ℕ) : (lifeRows g p k).length + (lifeSinks g p k).length = 1 := by
  induction k with
  | zero =>
    have hpart := live_or_gone (g := g) (enteredRows g p)
    have hentered : (enteredRows g p).length + (enteredSinks g p).length = 1 := by
      unfold enteredRows enteredSinks
      cases hadmits : p.admits g.supportedContext with
      | true =>
        have htold : p.told g.supportedContext = [] := by
          unfold PendingRequest.told
          rw [of_decide_eq_true hadmits]
        rw [if_pos rfl, if_pos rfl, htold, List.length_map, List.nil_append, prefillRequest_one]
        rfl
      | false =>
        rw [if_neg Bool.false_ne_true, if_neg Bool.false_ne_true, List.append_nil, List.length_nil, Nat.zero_add]
        have hdecision := of_decide_eq_false hadmits
        unfold PendingRequest.told
        split
        · contradiction
        · rfl
        · rfl
        · rfl
    rw [lifeRows, lifeSinks, List.length_append]
    omega
  | succ k ih =>
    have hpart := live_or_gone (g := g) (lifeRows g p k)
    rw [lifeRows, lifeSinks, List.length_append]
    omega

/-! ## Streams -/

/-- the completion count of a terminal event -/
def TokenEvent.completionTokens : TokenEvent → Option ℕ
  | .scheduled .. => none
  | .token _ => none
  | .finished _ _ n => some n
  | .rejected _ _ n => some n
  | .error _ _ n => some n

/-- a send reaches the client, or the client is gone -/
theorem TokenSink.send_cases (sink : TokenSink) (e : TokenEvent) :
    ((sink.send e).1 = true ∧ (sink.send e).2.sent = sink.sent ++ [e] ∧
        (sink.accepts = none → (sink.send e).2.accepts = none)) ∨
      ((sink.send e).1 = false ∧ (sink.send e).2 = sink ∧ sink.accepts ≠ none) := by
  unfold TokenSink.send
  rcases h : sink.accepts with _ | n
  · exact Or.inl ⟨rfl, rfl, fun _ => rfl⟩
  · cases n with
    | zero => exact Or.inr ⟨rfl, rfl, nofun⟩
    | succ n => exact Or.inl ⟨rfl, rfl, nofun⟩

/-- a live request's stream: scheduled, then as many tokens as were generated -/
structure Streaming (r : GenerateRequest) (sink : TokenSink) (generated : ℕ) : Prop where
  sent : ∃ ids : List ℕ, sink.sent = .scheduled r.promptTokens.length 0 :: ids.map .token ∧ ids.length = generated
  stays : r.accepts = none → sink.accepts = none

/-- a closed request's stream -/
structure Told (r : GenerateRequest) (sink : TokenSink) : Prop where
  /-- a client that stays is told of its one terminal, which counts the tokens before it -/
  whole : r.accepts = none → ∃ (ids : List ℕ) (e : TokenEvent),
    sink.sent = .scheduled r.promptTokens.length 0 :: (ids.map .token ++ [e]) ∧ e.completionTokens = some ids.length
  /-- one that leaves, of a part of that -/
  cut : sink.sent = [] ∨ ∃ (ids : List ℕ) (tail : List TokenEvent),
    sink.sent = .scheduled r.promptTokens.length 0 :: (ids.map .token ++ tail) ∧ tail.length ≤ 1 ∧
      ∀ e ∈ tail, e.completionTokens = some ids.length

variable {r : GenerateRequest} {sink : TokenSink} {n : ℕ}

/-- the terminal is sent -/
theorem Streaming.told (h : Streaming r sink n) {e : TokenEvent} (he : e.completionTokens = some n) :
    Told r (sink.send e).2 := by
  obtain ⟨ids, hsent, rfl⟩ := h.sent
  rcases sink.send_cases e with ⟨-, hsend, -⟩ | ⟨-, hsame, hleft⟩
  · rw [hsent, List.cons_append] at hsend
    refine ⟨fun _ => ⟨ids, e, hsend, he⟩, Or.inr ⟨ids, [e], hsend, le_rfl, fun e' he' => ?_⟩⟩
    rw [List.mem_singleton.1 he']
    exact he
  · rw [hsame]
    refine ⟨fun hstays => absurd (h.stays hstays) hleft, Or.inr ⟨ids, [], ?_, Nat.zero_le _, nofun⟩⟩
    rw [List.append_nil]
    exact hsent

/-- a token is sent, or the client has left -/
theorem Streaming.token (h : Streaming r sink n) (id : ℕ) :
    ((sink.send (.token id)).1 = true ∧ Streaming r (sink.send (.token id)).2 (n + 1)) ∨
      ((sink.send (.token id)).1 = false ∧ Told r (sink.send (.token id)).2) := by
  obtain ⟨ids, hsent, rfl⟩ := h.sent
  rcases sink.send_cases (.token id) with ⟨hok, hsend, hstays⟩ | ⟨hfail, hsame, hleft⟩
  · refine Or.inl ⟨hok, ⟨ids ++ [id], ?_, List.length_append⟩, fun hr => hstays (h.stays hr)⟩
    rw [hsend, hsent, List.map_append]
    rfl
  · rw [hsame]
    refine Or.inr ⟨hfail, fun hr => absurd (h.stays hr) hleft, Or.inr ⟨ids, [], ?_, Nat.zero_le _, nofun⟩⟩
    rw [List.append_nil]
    exact hsent

/-- **One token.** The stream goes on by it, or is told how it ends. -/
theorem Streaming.emit {a : ActiveRequestState K} (h : Streaming r a.tokenTx a.generated) (token : ℕ) :
    if (a.emitTokenOrFinish token).1 then Told r (a.emitTokenOrFinish token).2.tokenTx
    else Streaming r (a.emitTokenOrFinish token).2.tokenTx (a.emitTokenOrFinish token).2.generated := by
  unfold ActiveRequestState.emitTokenOrFinish
  dsimp only
  by_cases hstop : a.finishPolicy.ignoreEos = false ∧ token ∈ a.finishPolicy.eosTokenIds
  · simp only [if_pos hstop]
    exact h.told rfl
  rcases h.token token with ⟨hok, hstream⟩ | ⟨hfail, htold⟩
  · have hsent : ¬ (a.tokenTx.send (.token token)).1 = false := by
      rw [hok]
      nofun
    by_cases hlast : a.generated + 1 = a.maxTokens
    · simp only [if_neg hstop, if_neg hsent, if_pos hlast]
      exact hstream.told rfl
    · simp only [if_neg hstop, if_neg hsent, if_neg hlast]
      exact hstream
  · simp only [if_neg hstop, if_pos hfail]
    exact htold

/-- what holds of a request's row and of its closed stream -/
structure LifeOk (r : GenerateRequest) (rows : List (ActiveRequestState K)) (sinks : List TokenSink) : Prop where
  rows : ∀ a ∈ rows, Streaming r a.tokenTx a.generated ∧ a.maxTokens = r.maxTokens
  sinks : ∀ sink ∈ sinks, Told r sink

theorem LifeOk.next {rows : List (ActiveRequestState K)} {sinks : List TokenSink} (h : LifeOk r rows sinks) :
    LifeOk r (rows.filterMap (live g)) (sinks ++ rows.filterMap (gone g)) := by
  refine ⟨fun a ha => ?_, fun sink hsink => ?_⟩
  · obtain ⟨a₀, ha₀, hlive⟩ := List.mem_filterMap.1 ha
    obtain ⟨hstream, hmax⟩ := h.rows a₀ ha₀
    have hemit := hstream.emit (a := { a₀ with cache := (g.rowStep a₀.lastToken a₀.nextDecodePosition a₀.cache).2 })
      (g.rowStep a₀.lastToken a₀.nextDecodePosition a₀.cache).1
    unfold live at hlive
    split_ifs at hlive with hfin
    cases hlive
    exact ⟨(if_neg hfin).mp hemit, ((ActiveRequestState.emit_same _ _).2.2).trans hmax⟩
  · rcases List.mem_append.1 hsink with hsink | hsink
    · exact h.sinks sink hsink
    · obtain ⟨a₀, ha₀, hgone⟩ := List.mem_filterMap.1 hsink
      have hemit := (h.rows a₀ ha₀).1.emit
        (a := { a₀ with cache := (g.rowStep a₀.lastToken a₀.nextDecodePosition a₀.cache).2 })
        (g.rowStep a₀.lastToken a₀.nextDecodePosition a₀.cache).1
      unfold gone at hgone
      split_ifs at hgone with hfin
      cases hgone
      exact (if_pos hfin).mp hemit

/-- the first event of a stream -/
theorem scheduled_cases (r : GenerateRequest) :
    ((PendingRequest.from r).sendScheduled.1 = true ∧ Streaming r (PendingRequest.from r).sendScheduled.2 0) ∨
      ((PendingRequest.from r).sendScheduled.1 = false ∧ Told r (PendingRequest.from r).sendScheduled.2) := by
  have hsend := TokenSink.send_cases ⟨r.accepts, []⟩ (.scheduled r.promptTokens.length 0)
  rcases hsend with ⟨hok, hsent, hstays⟩ | ⟨hfail, hsame, hleft⟩
  · exact Or.inl ⟨hok, ⟨[], hsent, rfl⟩, hstays⟩
  · refine Or.inr ⟨hfail, fun hr => absurd hr hleft, Or.inl ?_⟩
    exact congrArg TokenSink.sent hsame

theorem sendTerminal_told (r : GenerateRequest) {e : TokenEvent} (he : e.completionTokens = some 0) :
    Told r ((PendingRequest.from r).sendTerminal e) := by
  unfold PendingRequest.sendTerminal
  dsimp only
  rcases scheduled_cases r with ⟨hok, hstream⟩ | ⟨hfail, htold⟩
  · rw [if_pos hok]
    exact hstream.told he
  · rw [if_neg (by rw [hfail]; nofun)]
    exact htold

/-- a row just prefilled has its first token out, and not its last -/
structure FirstRow (r : GenerateRequest) (a : ActiveRequestState K) : Prop where
  streaming : Streaming r a.tokenTx a.generated
  max : a.maxTokens = r.maxTokens
  generated : a.generated = 1
  unfinished : a.generated ≠ a.maxTokens

/-- a prefill leaves a row that streams, or a stream that is told -/
theorem prefillRequest_told (t : Scheduler K) (r : GenerateRequest) :
    (∃ rows, (t.prefillRequest g (PendingRequest.from r)).active = t.active ++ rows ∧ ∀ a ∈ rows, FirstRow r a) ∧
      ∃ sinks, (t.prefillRequest g (PendingRequest.from r)).closed = t.closed ++ sinks ∧
        ∀ sink ∈ sinks, Told r sink := by
  have hclosed : ∀ {u : Scheduler K} {sink : TokenSink}, u.active = t.active → u.closed = t.closed ++ [sink] →
      Told r sink → (∃ rows, u.active = t.active ++ rows ∧ ∀ a ∈ rows, FirstRow r a) ∧
        ∃ sinks, u.closed = t.closed ++ sinks ∧ ∀ sink ∈ sinks, Told r sink := by
    intro u sink hactive hsinks htold
    refine ⟨⟨[], by rw [hactive, List.append_nil], nofun⟩, [sink], hsinks, fun x hx => ?_⟩
    rw [List.mem_singleton.1 hx]
    exact htold
  unfold prefillRequest
  dsimp only
  rcases scheduled_cases r with ⟨hok, hstream⟩ | ⟨hfail, htold⟩
  · rw [if_neg (by rw [hok]; nofun)]
    split
    · exact hclosed rfl rfl (hstream.told rfl)
    · rename_i next cache hprefill
      split
      · exact hclosed rfl rfl (hstream.told rfl)
      · rename_i cache pool hattach
        have hemit := Streaming.emit (a := ⟨(PendingRequest.from r).requestId, (PendingRequest.from r).sendScheduled.2,
          (PendingRequest.from r).promptTokens.length, (PendingRequest.from r).maxTokens, 0, next,
          ⟨g.config.eosTokenIds, (PendingRequest.from r).params.ignoreEos⟩, cache⟩) hstream next
        split_ifs with hdone
        · rw [if_pos hdone] at hemit
          exact hclosed rfl rfl hemit
        · rw [if_neg hdone] at hemit
          obtain ⟨hgenerated, hlast⟩ := ActiveRequestState.emit_live (Bool.eq_false_iff.2 hdone)
          obtain ⟨-, -, hmax⟩ := ActiveRequestState.emit_same (⟨(PendingRequest.from r).requestId,
            (PendingRequest.from r).sendScheduled.2, (PendingRequest.from r).promptTokens.length,
            (PendingRequest.from r).maxTokens, 0, next,
            ⟨g.config.eosTokenIds, (PendingRequest.from r).params.ignoreEos⟩, cache⟩ : ActiveRequestState K) next
          refine ⟨⟨_, rfl, fun a ha => ?_⟩, [], (List.append_nil _).symm, nofun⟩
          rw [List.mem_singleton.1 ha]
          refine ⟨hemit, hmax, hgenerated, ?_⟩
          rw [hgenerated, hmax]
          exact hlast
  · rw [if_pos hfail]
    exact hclosed rfl rfl htold

theorem entered_rows (r : GenerateRequest) : ∀ a ∈ enteredRows g (PendingRequest.from r), FirstRow r a := by
  intro a ha
  unfold enteredRows at ha
  split_ifs at ha
  · obtain ⟨a₀, ha₀, rfl⟩ := List.mem_map.1 ha
    obtain ⟨rows, hactive, hrows⟩ := (prefillRequest_told (g := g) (Scheduler.new g) r).1
    rw [hactive] at ha₀
    obtain ⟨hstream, hmax, hgen, hlast⟩ := hrows a₀ ha₀
    exact ⟨hstream, hmax, hgen, hlast⟩
  · cases ha

theorem entered_sinks (r : GenerateRequest) : ∀ sink ∈ enteredSinks g (PendingRequest.from r), Told r sink := by
  intro sink hsink
  unfold enteredSinks at hsink
  rcases List.mem_append.1 hsink with hsink | hsink
  · unfold PendingRequest.told at hsink
    split at hsink
    · cases hsink
    all_goals
      rw [List.mem_singleton.1 hsink]
      exact sendTerminal_told r rfl
  · split_ifs at hsink
    · obtain ⟨sinks, hclosed, hsinks⟩ := (prefillRequest_told (g := g) (Scheduler.new g) r).2
      rw [hclosed] at hsink
      exact hsinks sink hsink
    · cases hsink

/-- **Every stream of a life** goes on or is told. -/
theorem life_told (r : GenerateRequest) (k : ℕ) :
    LifeOk r (lifeRows g (PendingRequest.from r) k) (lifeSinks g (PendingRequest.from r) k) := by
  induction k with
  | zero =>
    have hentered : LifeOk r (enteredRows g (PendingRequest.from r)) (enteredSinks g (PendingRequest.from r)) :=
      ⟨fun a ha => ⟨(entered_rows r a ha).streaming, (entered_rows r a ha).max⟩, entered_sinks r⟩
    exact hentered.next
  | succ k ih => exact ih.next

/-- a row's step is one more token, and not the last -/
theorem live_generated {a a' : ActiveRequestState K} (h : live g a = some a') :
    a'.generated = a.generated + 1 ∧ a'.maxTokens = a.maxTokens ∧ a'.generated ≠ a'.maxTokens := by
  unfold live at h
  split_ifs at h with hfin
  cases h
  obtain ⟨hgenerated, hlast⟩ := ActiveRequestState.emit_live (Bool.eq_false_iff.2 hfin)
  obtain ⟨-, -, hmax⟩ := ActiveRequestState.emit_same
    { a with cache := (g.rowStep a.lastToken a.nextDecodePosition a.cache).2 }
    (g.rowStep a.lastToken a.nextDecodePosition a.cache).1
  refine ⟨hgenerated, hmax, ?_⟩
  change (ActiveRequestState.emitTokenOrFinish _ _).2.generated ≠ (ActiveRequestState.emitTokenOrFinish _ _).2.maxTokens
  rw [hgenerated, hmax]
  exact hlast

/-- the row of a life is one token on with each round -/
theorem life_generated (r : GenerateRequest) (k : ℕ) : ∀ a ∈ lifeRows g (PendingRequest.from r) k,
    a.generated = k + 2 ∧ a.maxTokens = r.maxTokens ∧ k + 2 < r.maxTokens := by
  induction k with
  | zero =>
    intro a ha
    obtain ⟨a₀, ha₀, hlive⟩ := List.mem_filterMap.1 ha
    have hpos : 0 < r.maxTokens := by
      unfold enteredRows at ha₀
      split_ifs at ha₀ with hadmits
      · exact (admits_ok hadmits).2.1
      · cases ha₀
    obtain ⟨-, hmax₀, hgen₀, hlast₀⟩ := entered_rows r a₀ ha₀
    obtain ⟨hgen, hmax, hlast⟩ := live_generated hlive
    exact ⟨by omega, by omega, by omega⟩
  | succ k ih =>
    intro a ha
    obtain ⟨a₀, ha₀, hlive⟩ := List.mem_filterMap.1 ha
    obtain ⟨hgen₀, hmax₀, hlt⟩ := ih a₀ ha₀
    obtain ⟨hgen, hmax, hlast⟩ := live_generated hlive
    exact ⟨by omega, by omega, by omega⟩

/-- a request is closed once as many rounds went by as it may have tokens -/
theorem life_closes {r : GenerateRequest} {k : ℕ} (hk : r.maxTokens ≤ k) :
    lifeRows g (PendingRequest.from r) k = [] := by
  refine List.eq_nil_iff_forall_not_mem.2 fun a ha => ?_
  have hlt := (life_generated r k a ha).2.2
  omega

/-! ## One round of a run -/

/-- what a round did: `taken` left the queue, and every row, theirs among them, took one step -/
structure Rounded (g : Generator K) (s s' : Scheduler K) (submitted : List GenerateRequest)
    (taken : List PendingRequest) : Prop where
  queue : s.pending ++ submitted.map PendingRequest.from = taken ++ s'.pending
  rows : s'.active.map ActiveRequestState.anon =
    (s.active.map ActiveRequestState.anon).filterMap (live g) ++
      taken.flatMap fun p => lifeRows g p 0
  closed : s'.closed.Perm (s.closed ++ (s.active.map ActiveRequestState.anon).filterMap (gone g) ++
    taken.flatMap fun p => lifeSinks g p 0)
  head : s.pending ++ submitted.map PendingRequest.from ≠ [] → s.active = [] → taken ≠ []
  inv : Inv g s'

theorem filterMap_live_anon (rows : List (ActiveRequestState K)) :
    (rows.filterMap (live g)).map ActiveRequestState.anon =
      (rows.map ActiveRequestState.anon).filterMap (live g) := by
  rw [List.map_filterMap, List.filterMap_map]
  exact List.filterMap_congr fun a _ => (ActiveRequestState.live_anon a).symm

theorem filterMap_gone_anon (rows : List (ActiveRequestState K)) :
    rows.filterMap (gone g) = (rows.map ActiveRequestState.anon).filterMap (gone g) := by
  rw [List.filterMap_map]
  exact List.filterMap_congr fun a _ => (ActiveRequestState.gone_anon a).symm

theorem drain_inv (h : Inv g s) (submitted : List GenerateRequest) : Inv g (s.drainPendingSubmissions submitted) :=
  ⟨h.rows, h.max, h.room, h.pool⟩

/-- **One round.** -/
theorem round_spec (h : Inv g s) (submitted : List GenerateRequest) :
    ∃ s' taken, s.round g submitted = some s' ∧ Rounded g s s' submitted taken := by
  obtain ⟨taken, hqueue, hrows, hclosed, hinv, hhead⟩ := admitReadyRequests_spec (drain_inv h submitted)
  set mid := (s.drainPendingSubmissions submitted).admitReadyRequests g with hmid
  obtain ⟨s', hround, hactive, hsinks, hpending, hinv'⟩ := decodeRound_rowwise hinv
  have hstep : s.round g submitted = some s' := by
    unfold Scheduler.round
    rw [← hmid]
    dsimp only
    split_ifs with hempty
    · -- nothing to decode: the round is the admission
      rw [← hround]
      unfold decodeRound
      dsimp only
      rw [retireBad_same hinv, List.isEmpty_iff.1 hempty]
    · exact hround
  refine ⟨s', taken, hstep, ?_, ?_, ?_, fun hne hempty => hhead hne ?_, hinv'⟩
  · rw [hpending]
    exact hqueue
  · rw [hactive, filterMap_live_anon, hrows, List.filterMap_append, List.filterMap_flatMap]
    rfl
  · have hparts := List.flatMap_append_perm taken (enteredSinks g) fun p => (enteredRows g p).filterMap (gone g)
    refine hsinks.trans ?_
    rw [filterMap_gone_anon, hrows, List.filterMap_append, List.filterMap_flatMap]
    refine ((hclosed.append_right _)).trans ?_
    rw [List.append_assoc, List.append_assoc]
    refine List.Perm.append_left s.closed ?_
    refine List.Perm.trans ?_ (hparts.append_left _)
    rw [← List.append_assoc, ← List.append_assoc]
    exact List.perm_append_comm.append_right _
  · change s.active.length < _
    rw [hempty]
    exact Nat.zero_lt_succ _

theorem run_append (rounds later : List (List GenerateRequest)) (s : Scheduler K) :
    s.run g (rounds ++ later) = (s.run g rounds).bind fun s' => s'.run g later := by
  induction rounds generalizing s with
  | nil => rfl
  | cons submitted rounds ih =>
    rw [List.cons_append, run, run]
    cases s.round g submitted with
    | none => rfl
    | some s' => exact ih s'

/-! ## Runs -/

/-- every request that left the queue is `ages[i]` rounds into its own life, and the others wait in order -/
structure Isolated (g : Generator K) (all : List GenerateRequest) (s : Scheduler K) (ages : List ℕ) : Prop where
  taken : ages.length ≤ all.length
  queue : s.pending = (all.drop ages.length).map PendingRequest.from
  rows : s.active.map ActiveRequestState.anon =
    (all.zip ages).flatMap fun x => lifeRows g (PendingRequest.from x.1) x.2
  sinks : s.closed.Perm ((all.zip ages).flatMap fun x => lifeSinks g (PendingRequest.from x.1) x.2)
  inv : Inv g s

theorem new_isolated (g : Generator K) : Isolated g [] (Scheduler.new g) [] :=
  ⟨le_rfl, rfl, rfl, List.Perm.refl _, new_inv g⟩

/-- a round later: everyone who left the queue is one round older, and `m` more have left it -/
def older (ages : List ℕ) (m : ℕ) : List ℕ := ages.map (· + 1) ++ List.replicate m 0

theorem zip_replicate {α : Type} (l : List α) (m : ℕ) :
    l.zip (List.replicate m 0) = (l.take m).map fun r => (r, 0) := by
  induction l generalizing m with
  | nil => rw [List.zip_nil_left, List.take_nil, List.map_nil]
  | cons r l ih =>
    cases m with
    | zero => rfl
    | succ m => rw [List.replicate_succ, List.zip_cons_cons, ih, List.take_succ_cons, List.map_cons]

/-- the arrivals against their ages, a round later -/
theorem zip_older {all : List GenerateRequest} (submitted : List GenerateRequest) {ages : List ℕ} (m : ℕ)
    (h : ages.length ≤ all.length) :
    (all ++ submitted).zip (older ages m) = ((all.zip ages).map fun x => (x.1, x.2 + 1)) ++
      ((all.drop ages.length ++ submitted).take m).map fun r => (r, 0) := by
  have hlen : (all.take ages.length).length = (ages.map (· + 1)).length := by
    rw [List.length_take, List.length_map, min_eq_left h]
  have hold : all.zip ages = (all.take ages.length).zip ages := by
    calc all.zip ages = (all.take ages.length ++ all.drop ages.length).zip (ages ++ []) := by
          rw [List.take_append_drop, List.append_nil]
      _ = (all.take ages.length).zip ages ++ (all.drop ages.length).zip [] :=
          List.zip_append (by rw [hlen, List.length_map])
      _ = (all.take ages.length).zip ages := by rw [List.zip_nil_right, List.append_nil]
  calc (all ++ submitted).zip (older ages m)
      = (all.take ages.length ++ (all.drop ages.length ++ submitted)).zip (older ages m) := by
        rw [← List.append_assoc, List.take_append_drop]
    _ = (all.take ages.length).zip (ages.map (· + 1)) ++
          (all.drop ages.length ++ submitted).zip (List.replicate m 0) := List.zip_append hlen
    _ = _ := by
        rw [hold, zip_replicate, List.zip_map_right]
        rfl

/-- **One round of a run.** -/
theorem Isolated.round {all : List GenerateRequest} {ages : List ℕ} (h : Isolated g all s ages)
    (submitted : List GenerateRequest) :
    ∃ s' m, s.round g submitted = some s' ∧ Isolated g (all ++ submitted) s' (older ages m) ∧
      (s.active = [] → ages.length < (all ++ submitted).length → 0 < m) := by
  obtain ⟨s', taken, hstep, hqueue, hrows, hclosed, hhead, hinv⟩ := round_spec h.inv submitted
  have hwaiting : s.pending ++ submitted.map PendingRequest.from =
      (all.drop ages.length ++ submitted).map PendingRequest.from := by rw [h.queue, List.map_append]
  -- what was taken is a prefix of what waited
  have htake : taken = ((all.drop ages.length ++ submitted).take taken.length).map PendingRequest.from := by
    rw [List.map_take, ← hwaiting, hqueue, List.take_left']
    rfl
  have hrest : s'.pending = ((all.drop ages.length ++ submitted).drop taken.length).map PendingRequest.from := by
    rw [List.map_drop, ← hwaiting, hqueue, List.drop_left']
    rfl
  have hcount : taken.length ≤ (all.drop ages.length ++ submitted).length := by
    have hsplit := hwaiting.symm.trans hqueue
    calc taken.length ≤ (taken ++ s'.pending).length := by
          rw [List.length_append]
          exact Nat.le_add_right _ _
      _ = (all.drop ages.length ++ submitted).length := by rw [← hsplit, List.length_map]
  have htaken := h.taken
  have hzip := zip_older submitted taken.length htaken
  refine ⟨s', taken.length, hstep, ⟨?_, ?_, ?_, ?_, hinv⟩, fun hempty hlt => ?_⟩
  · rw [older, List.length_append, List.length_map, List.length_replicate]
    rw [List.length_append, List.length_drop] at hcount
    rw [List.length_append]
    omega
  · rw [hrest, older, List.length_append, List.length_map, List.length_replicate, ← List.drop_drop]
    rw [List.drop_append_of_le_length htaken]
  · rw [hrows, h.rows, hzip, List.filterMap_flatMap, List.flatMap_append, List.flatMap_map, List.flatMap_map]
    congr 1
    conv_lhs => rw [htake, List.flatMap_map]
  · refine hclosed.trans ?_
    rw [hzip, List.flatMap_append, List.flatMap_map, List.flatMap_map]
    have hnew : (taken.flatMap fun p => lifeSinks g p 0) =
        ((all.drop ages.length ++ submitted).take taken.length).flatMap
          fun r => lifeSinks g (PendingRequest.from r) 0 := by
      conv_lhs => rw [htake, List.flatMap_map]
    rw [hnew]
    refine List.Perm.append_right _ ?_
    rw [h.rows, List.filterMap_flatMap]
    refine (h.sinks.append_right _).trans ?_
    exact List.flatMap_append_perm (all.zip ages) (fun x => lifeSinks g (PendingRequest.from x.1) x.2) fun x =>
      (lifeRows g (PendingRequest.from x.1) x.2).filterMap (gone g)
  · refine List.length_pos_iff.2 (hhead ?_ hempty)
    rw [hwaiting]
    intro hnil
    have hlen := congrArg List.length hnil
    rw [List.length_map, List.length_append, List.length_drop, List.length_nil] at hlen
    rw [List.length_append] at hlt
    omega

/-- **Every run.** -/
theorem run_isolated {all : List GenerateRequest} {ages : List ℕ} (h : Isolated g all s ages)
    (rounds : List (List GenerateRequest)) :
    ∃ s' ages', s.run g rounds = some s' ∧ Isolated g (all ++ rounds.flatten) s' ages' := by
  induction rounds generalizing s all ages with
  | nil =>
    refine ⟨s, ages, rfl, ?_⟩
    rw [List.flatten_nil, List.append_nil]
    exact h
  | cons submitted rounds ih =>
    obtain ⟨s₁, m, hround, h₁, -⟩ := h.round submitted
    obtain ⟨s', ages', hrun, h'⟩ := ih h₁
    refine ⟨s', ages', ?_, ?_⟩
    · rw [run, hround]
      exact hrun
    · rw [List.flatten_cons, ← List.append_assoc]
      exact h'

/-! ## Alone -/

/-- a run with the one request only, `k` rounds after the one it arrived in -/
def aloneRun (g : Generator K) (r : GenerateRequest) (k : ℕ) : Option (Scheduler K) :=
  (Scheduler.new g).run g ([r] :: List.replicate k [])

/-- **A request alone goes through its life.** -/
theorem alone_life (r : GenerateRequest) (k : ℕ) :
    ∃ t, aloneRun g r k = some t ∧ t.pending = [] ∧
      t.active.map ActiveRequestState.anon = lifeRows g (PendingRequest.from r) k ∧
      t.closed = lifeSinks g (PendingRequest.from r) k := by
  suffices h : ∃ t, aloneRun g r k = some t ∧ Isolated g [r] t [k] by
    obtain ⟨t, hrun, hiso⟩ := h
    refine ⟨t, hrun, hiso.queue, hiso.rows.trans (List.append_nil _), ?_⟩
    have hperm : t.closed.Perm (lifeSinks g (PendingRequest.from r) k) :=
      hiso.sinks.trans (List.Perm.of_eq (List.append_nil _))
    have hone := life_one (g := g) (PendingRequest.from r) k
    -- a closed stream has none to be swapped with
    rcases hsinks : lifeSinks g (PendingRequest.from r) k with _ | ⟨sink, rest⟩
    · rw [hsinks] at hperm
      exact List.perm_nil.1 hperm
    · rw [hsinks, List.length_cons] at hone
      have hrest : rest = [] := List.length_eq_zero_iff.1 (by omega)
      rw [hsinks, hrest] at hperm
      rw [hrest]
      exact List.perm_singleton.1 hperm
  induction k with
  | zero =>
    obtain ⟨t, m, hround, hiso, hhead⟩ := (new_isolated g).round [r]
    have hm : m = 1 := by
      have hpos := hhead rfl (Nat.zero_lt_succ 0)
      have hle := hiso.taken
      rw [older, List.length_append, List.length_map, List.length_replicate] at hle
      exact le_antisymm (by simpa using hle) hpos
    subst hm
    refine ⟨t, ?_, hiso⟩
    rw [aloneRun, List.replicate_zero, run, hround]
    rfl
  | succ k ih =>
    obtain ⟨t, hrun, hiso⟩ := ih
    obtain ⟨t', m, hround, hiso', -⟩ := hiso.round []
    have hm : m = 0 := by
      have hle := hiso'.taken
      rw [older, List.length_append, List.length_map, List.length_replicate] at hle
      have hle' : 1 + m ≤ 1 := hle
      omega
    subst hm
    refine ⟨t', ?_, hiso'⟩
    rw [aloneRun, List.replicate_succ', ← List.cons_append, run_append]
    rw [aloneRun] at hrun
    rw [hrun, Option.bind_some, run, hround]
    rfl

/-! ## Every request is closed -/

/-- rounds a request still needs at most, once it is at the head of the queue -/
def roundsLeft (r : GenerateRequest) : Option ℕ → ℕ
  | none => r.maxTokens + 1
  | some k => r.maxTokens - k

/-- the same for the first `n` arrivals together -/
def roundsLeftAll (all : List GenerateRequest) (ages : List ℕ) (n : ℕ) : ℕ :=
  ∑ j ∈ Finset.range n, (all[j]?.map fun r => roundsLeft r ages[j]?).getD 0

theorem older_get {ages : List ℕ} {m j : ℕ} :
    (older ages m)[j]? = if j < ages.length then ages[j]?.map (· + 1)
      else if j < ages.length + m then some 0 else none := by
  unfold older
  split_ifs with hold hnew
  · rw [List.getElem?_append_left (by rwa [List.length_map]), List.getElem?_map]
  · rw [List.getElem?_append_right (by rw [List.length_map]; omega), List.length_map, List.getElem?_replicate,
      if_pos (by omega)]
  · rw [List.getElem?_eq_none]
    rw [List.length_append, List.length_map, List.length_replicate]
    omega

/-- no request needs more rounds for a round that went by -/
theorem roundsLeft_older (r : GenerateRequest) (ages : List ℕ) (m j : ℕ) :
    roundsLeft r (older ages m)[j]? ≤ roundsLeft r ages[j]? := by
  rw [older_get]
  split_ifs with hold hnew
  · rw [List.getElem?_eq_getElem hold]
    simp only [Option.map_some, roundsLeft]
    omega
  · rw [List.getElem?_eq_none (not_lt.1 hold)]
    simp only [roundsLeft]
    omega
  · rw [List.getElem?_eq_none (not_lt.1 hold)]

/-- a round brings the first `n` arrivals nearer to their end, unless they are there -/
theorem roundsLeftAll_round {all : List GenerateRequest} (submitted : List GenerateRequest) {ages : List ℕ} {m n : ℕ}
    (h : Isolated g all s ages) (hn : n ≤ all.length)
    (hhead : s.active = [] → ages.length < (all ++ submitted).length → 0 < m) :
    roundsLeftAll (all ++ submitted) (older ages m) n ≤ roundsLeftAll all ages n - 1 := by
  have hsame : ∀ j ∈ Finset.range n, (all ++ submitted)[j]? = all[j]? := fun j hj =>
    List.getElem?_append_left ((Finset.mem_range.1 hj).trans_le hn)
  have hle : ∀ j ∈ Finset.range n,
      ((all ++ submitted)[j]?.map fun r => roundsLeft r (older ages m)[j]?).getD 0 ≤
        (all[j]?.map fun r => roundsLeft r ages[j]?).getD 0 := by
    intro j hj
    rw [hsame j hj]
    rcases all[j]? with _ | r
    · exact le_rfl
    · exact roundsLeft_older r ages m j
  unfold roundsLeftAll
  by_cases hzero : ∑ j ∈ Finset.range n, (all[j]?.map fun r => roundsLeft r ages[j]?).getD 0 = 0
  · rw [hzero]
    exact (Finset.sum_le_sum hle).trans hzero.le
  -- some arrival is nearer by one: one that is in the middle of its life, or the head of the queue
  suffices hlt : ∃ j ∈ Finset.range n, ((all ++ submitted)[j]?.map fun r => roundsLeft r (older ages m)[j]?).getD 0 <
      (all[j]?.map fun r => roundsLeft r ages[j]?).getD 0 by
    have := Finset.sum_lt_sum hle hlt
    omega
  by_cases hmid : ∃ j ∈ Finset.range n, ∃ r k, all[j]? = some r ∧ ages[j]? = some k ∧ k < r.maxTokens
  · obtain ⟨j, hj, r, k, hr, hk, hlt⟩ := hmid
    refine ⟨j, hj, ?_⟩
    have hold := (List.getElem?_eq_some_iff.1 hk).1
    rw [hsame j hj, hr, older_get, if_pos hold, hk]
    simp only [Option.map_some, Option.getD_some, roundsLeft]
    omega
  · have hdone : ∀ j < n, ∀ r k, all[j]? = some r → ages[j]? = some k → r.maxTokens ≤ k := by
      intro j hj r k hr hk
      by_contra hlt
      exact hmid ⟨j, Finset.mem_range.2 hj, r, k, hr, hk, not_le.1 hlt⟩
    -- so one of them still waits, and nobody decodes
    have hwaits : ages.length < n := by
      by_contra hge
      refine hzero (Finset.sum_eq_zero fun j hj => ?_)
      have hj' := Finset.mem_range.1 hj
      have hlt : j < ages.length := hj'.trans_le (not_lt.1 hge)
      have hall : j < all.length := hj'.trans_le hn
      have hle := hdone j hj' all[j] ages[j] (List.getElem?_eq_getElem hall) (List.getElem?_eq_getElem hlt)
      rw [List.getElem?_eq_getElem hall, List.getElem?_eq_getElem hlt]
      simp only [Option.map_some, Option.getD_some, roundsLeft]
      omega
    have hidle : s.active = [] := by
      rw [← List.map_eq_nil_iff (f := ActiveRequestState.anon), h.rows, List.flatMap_eq_nil_iff]
      rintro ⟨r, k⟩ hmem
      obtain ⟨j, hj, heq⟩ := List.getElem_of_mem hmem
      rw [List.getElem_zip, Prod.mk.injEq] at heq
      rw [List.length_zip, lt_min_iff] at hj
      refine life_closes (hdone j (hj.2.trans hwaits) r k ?_ ?_)
      · rw [List.getElem?_eq_getElem hj.1, heq.1]
      · rw [List.getElem?_eq_getElem hj.2, heq.2]
    have hm := hhead hidle (by rw [List.length_append]; omega)
    refine ⟨ages.length, Finset.mem_range.2 hwaits, ?_⟩
    have hall : ages.length < all.length := hwaits.trans_le hn
    rw [hsame _ (Finset.mem_range.2 hwaits), List.getElem?_eq_getElem hall, older_get, if_neg (lt_irrefl _),
      if_pos (by omega), List.getElem?_eq_none le_rfl]
    simp only [Option.map_some, Option.getD_some, roundsLeft]
    omega

/-- **Every request is closed**, whatever arrives later. -/
theorem run_closes {all : List GenerateRequest} {ages : List ℕ} (h : Isolated g all s ages) {n : ℕ}
    (hn : n ≤ all.length) {later : List (List GenerateRequest)} (hlater : roundsLeftAll all ages n ≤ later.length) :
    ∃ s' ages', s.run g later = some s' ∧ Isolated g (all ++ later.flatten) s' ages' ∧
      ∀ j < n, ∃ k, ages'[j]? = some k ∧ ∀ r, all[j]? = some r → r.maxTokens ≤ k := by
  induction later generalizing s all ages with
  | nil =>
    refine ⟨s, ages, rfl, ?_, fun j hj => ?_⟩
    · rw [List.flatten_nil, List.append_nil]
      exact h
    · have hzero : roundsLeftAll all ages n = 0 := Nat.le_zero.1 hlater
      have hterm := Finset.sum_eq_zero_iff.1 hzero j (Finset.mem_range.2 hj)
      rw [List.getElem?_eq_getElem (hj.trans_le hn), Option.map_some, Option.getD_some] at hterm
      rcases hk : ages[j]? with _ | k
      · rw [hk] at hterm
        cases hterm
      · rw [hk] at hterm
        refine ⟨k, rfl, fun r hr => ?_⟩
        rw [List.getElem?_eq_getElem (hj.trans_le hn)] at hr
        cases hr
        exact Nat.le_of_sub_eq_zero hterm
  | cons submitted later ih =>
    obtain ⟨s₁, m, hround, h₁, hhead⟩ := h.round submitted
    have hless := roundsLeftAll_round submitted h hn hhead
    rw [List.length_cons] at hlater
    obtain ⟨s', ages', hrun, h', hclosed⟩ := ih h₁ (hn.trans (by rw [List.length_append]; omega)) (by omega)
    refine ⟨s', ages', ?_, ?_, fun j hj => ?_⟩
    · rw [run, hround]
      exact hrun
    · rw [List.flatten_cons, ← List.append_assoc]
      exact h'
    · obtain ⟨k, hk, hmax⟩ := hclosed j hj
      refine ⟨k, hk, fun r hr => hmax r ?_⟩
      rw [List.getElem?_append_left (hj.trans_le hn), hr]

/-! ## Isolation -/

/-- a life that is over stays as it is -/
theorem life_over {p : PendingRequest} {k : ℕ} (h : lifeRows g p k = []) {k' : ℕ} (hk : k ≤ k') :
    lifeRows g p k' = [] ∧ lifeSinks g p k' = lifeSinks g p k := by
  induction k', hk using Nat.le_induction with
  | base => exact ⟨h, rfl⟩
  | succ k' _ ih =>
    refine ⟨?_, ?_⟩
    · rw [lifeRows, ih.1]
      rfl
    · rw [lifeSinks, ih.1, List.filterMap_nil, List.append_nil, ih.2]

/-- the state a request alone is in after `k` rounds: one row or one closed stream, with what the client was sent -/
structure AloneState (g : Generator K) (r : GenerateRequest) (k : ℕ) (t : Scheduler K) : Prop where
  run : aloneRun g r k = some t
  pending : t.pending = []
  one : t.active.length + t.closed.length = 1
  streams : LifeOk r t.active t.closed
  /-- once closed, the stream is final -/
  final : t.active = [] → ∀ k', k ≤ k' → ∃ t', aloneRun g r k' = some t' ∧ t'.closed = t.closed

theorem alone_state (g : Generator K) (r : GenerateRequest) (k : ℕ) :
    ∃ t, AloneState g r k t ∧ t.active.map ActiveRequestState.anon = lifeRows g (PendingRequest.from r) k ∧
      t.closed = lifeSinks g (PendingRequest.from r) k := by
  obtain ⟨t, hrun, hpending, hactive, hclosed⟩ := alone_life (g := g) r k
  have hlife := life_told (g := g) r k
  refine ⟨t, ⟨hrun, hpending, ?_, ⟨fun a ha => ?_, hclosed ▸ hlife.sinks⟩, fun hempty k' hk => ?_⟩, hactive, hclosed⟩
  · rw [← List.length_map ActiveRequestState.anon, hactive, hclosed]
    exact life_one _ _
  · have hmem : a.anon ∈ lifeRows g (PendingRequest.from r) k := hactive ▸ List.mem_map_of_mem ha
    exact hlife.rows a.anon hmem
  · obtain ⟨t', hrun', -, -, hclosed'⟩ := alone_life (g := g) r k'
    rw [hempty, List.map_nil] at hactive
    refine ⟨t', hrun', ?_⟩
    rw [hclosed', hclosed]
    exact (life_over hactive.symm hk).2

/-- the alone states of the arrivals that left the queue -/
theorem alone_states (g : Generator K) (zipped : List (GenerateRequest × ℕ)) :
    ∃ alone : List (Scheduler K), List.Forall₂ (fun x t => AloneState g x.1 x.2 t) zipped alone ∧
      (zipped.flatMap fun x => lifeRows g (PendingRequest.from x.1) x.2) =
        alone.flatMap (fun t => t.active.map ActiveRequestState.anon) ∧
      (zipped.flatMap fun x => lifeSinks g (PendingRequest.from x.1) x.2) = alone.flatMap Scheduler.closed := by
  induction zipped with
  | nil => exact ⟨[], List.Forall₂.nil, rfl, rfl⟩
  | cons x zipped ih =>
    obtain ⟨alone, hall, hrows, hsinks⟩ := ih
    obtain ⟨t, ht, hactive, hclosed⟩ := alone_state g x.1 x.2
    refine ⟨t :: alone, List.Forall₂.cons ht hall, ?_, ?_⟩
    · rw [List.flatMap_cons, List.flatMap_cons, hrows, hactive]
    · rw [List.flatMap_cons, List.flatMap_cons, hsinks, hclosed]

/-- what a run owes its requests: those that left the queue are where they would be alone, and the rest wait in order -/
structure RunIsolated (g : Generator K) (all : List GenerateRequest) (s : Scheduler K) (ages : List ℕ) : Prop where
  taken : ages.length ≤ all.length
  queue : s.pending = (all.drop ages.length).map PendingRequest.from
  alone : ∃ alone : List (Scheduler K), List.Forall₂ (fun x t => AloneState g x.1 x.2 t) (all.zip ages) alone ∧
    s.active.map ActiveRequestState.anon = alone.flatMap (fun t => t.active.map ActiveRequestState.anon) ∧
    s.closed.Perm (alone.flatMap Scheduler.closed)

theorem Isolated.runIsolated {all : List GenerateRequest} {ages : List ℕ} (h : Isolated g all s ages) :
    RunIsolated g all s ages := by
  obtain ⟨alone, hall, hrows, hsinks⟩ := alone_states g (all.zip ages)
  exact ⟨h.taken, h.queue, alone, hall, h.rows.trans hrows, h.sinks.trans (List.Perm.of_eq hsinks)⟩

/-- **Noninterference and conservation of the batched scheduler.** -/
theorem batch_isolated (g : Generator K) (rounds : List (List GenerateRequest)) :
    ∃ s ages, (Scheduler.new g).run g rounds = some s ∧ RunIsolated g rounds.flatten s ages ∧
      (∀ submitted, ∃ s', ((s.drainPendingSubmissions submitted).admitReadyRequests g).retireBadCachePositions g =
          (s.drainPendingSubmissions submitted).admitReadyRequests g ∧
        ((s.drainPendingSubmissions submitted).admitReadyRequests g).decodeRound g = some s' ∧
        s'.active = ((s.drainPendingSubmissions submitted).admitReadyRequests g).active.filterMap (live g) ∧
        s'.closed.Perm (((s.drainPendingSubmissions submitted).admitReadyRequests g).closed ++
          ((s.drainPendingSubmissions submitted).admitReadyRequests g).active.filterMap (gone g))) ∧
      ∃ n, ∀ later : List (List GenerateRequest), n ≤ later.length → ∃ s' ages',
        (Scheduler.new g).run g (rounds ++ later) = some s' ∧ RunIsolated g (rounds ++ later).flatten s' ages' ∧
        ∀ (j : ℕ) (r : GenerateRequest), rounds.flatten[j]? = some r → ∃ k t sink, ages'[j]? = some k ∧
          AloneState g r k t ∧ t.active = [] ∧ t.closed = [sink] ∧ sink ∈ s'.closed := by
  obtain ⟨s, ages, hrun, hiso⟩ := run_isolated (new_isolated g) rounds
  rw [List.nil_append] at hiso
  refine ⟨s, ages, hrun, hiso.runIsolated, fun submitted => ?_, roundsLeftAll rounds.flatten ages rounds.flatten.length,
    fun later hlater => ?_⟩
  · obtain ⟨taken, hstarted⟩ := admitReadyRequests_spec (drain_inv hiso.inv submitted)
    obtain ⟨s', hround, hdone⟩ := decodeRound_rowwise hstarted.inv
    exact ⟨s', retireBad_same hstarted.inv, hround, hdone.active, hdone.closed⟩
  · obtain ⟨s', ages', hrun', hiso', hclosed⟩ := run_closes hiso le_rfl hlater
    rw [← List.flatten_append] at hiso'
    refine ⟨s', ages', by rw [run_append, hrun, Option.bind_some, hrun'], hiso'.runIsolated, fun j r hr => ?_⟩
    have hj := (List.getElem?_eq_some_iff.1 hr).1
    obtain ⟨k, hk, hmax⟩ := hclosed j hj
    obtain ⟨t, ht, hactive, hsinks⟩ := alone_state g r k
    rw [life_closes (hmax r hr), List.map_eq_nil_iff] at hactive
    have hone := ht.one
    rw [hactive, List.length_nil, Nat.zero_add] at hone
    obtain ⟨sink, hsink⟩ := List.length_eq_one_iff.1 hone
    refine ⟨k, t, sink, hk, ht, hactive, hsink, hiso'.sinks.mem_iff.2 (List.mem_flatMap.2 ⟨(r, k), ?_, ?_⟩)⟩
    · have hall : (rounds ++ later).flatten[j]? = some r := by
        rw [List.flatten_append, List.getElem?_append_left hj, hr]
      exact List.mem_of_getElem? (List.getElem?_zip_eq_some.2 ⟨hall, hk⟩)
    · rw [← hsinks, hsink]
      exact List.mem_singleton_self sink

end Pegainfer.Dsv2Lite
