/-
The order of LoRA commands and requests in the Qwen3 scheduler.

A command waits in `pendingControl` until the scheduler is idle, and a request submitted behind a pending command waits
in `postControlDeferred`. `Observed` runs the engine and writes down, for every request, the commands that had been
pulled when it was submitted (`preceding`), the commands applied when it was validated, and the requests that stood in
the queues whenever commands were applied.
- `run_inv`: on every run a request is validated only after every command pulled before its submission.
- `control_ordered_iff`: commands wait for the requests before them exactly on the runs whose idle control points with a
  command pending find no request in `loading`, and none behind an earlier command than the last one pulled. On these
  runs each request runs, from its validation on, under the commands that precede it and no other.
- `control_overtakes`: a command overtakes a request parked for a prefetch, and one queued between two commands.
-/
import Mathlib.Tactic
import Pegainfer.Qwen3.Moves

set_option linter.unusedSectionVars false

namespace Pegainfer.Qwen3

open Pegainfer.Frontend
open Pegainfer.Lib
open ModelExecutor

variable {E : Type} [ModelExecutor E]

namespace Qwen3Scheduler

/-! ## The control point of a step -/

/-- the step up to the point where pending commands may be applied -/
def reachControl (s : Qwen3Scheduler E) (l : RequestLedger) (arrivals : Arrivals) :
    Except String (Qwen3Scheduler E × RequestLedger) := do
  let r ← s.pullControl.pollInflight (raiseAborts l arrivals.polled)
  let r ← r.1.retireAbortedWaiting (raiseAborts r.2 arrivals.waiting)
  .ok (r.1.prefetch, r.2)

/-- the rest of `prepare`: wait when idle, else validate, admit and plan -/
def leaveControl (s : Qwen3Scheduler E) (l : RequestLedger) (arrivals : Arrivals) :
    Except String (Qwen3Scheduler E × RequestLedger × Option ExecutionPlan) :=
  if s.idle then .ok (s.blockOnLoading, l, none)
  else do
    let r ← s.admitQueued (raiseAborts l arrivals.admission) arrivals.clock
    let next := r.1.nextPlan
    .ok (next.1, r.2, next.2)

theorem prepare_eq (s : Qwen3Scheduler E) (l : RequestLedger) (arrivals : Arrivals) :
    s.prepare l arrivals = s.reachControl l arrivals >>= fun r => r.1.applyControl.leaveControl r.2 arrivals := by
  unfold prepare reachControl leaveControl
  cases s.pullControl.pollInflight (raiseAborts l arrivals.polled) with
  | error e => rfl
  | ok r =>
    cases h : r.1.retireAbortedWaiting (raiseAborts r.2 arrivals.waiting) with
    | error e => simp [bind, Except.bind, h]
    | ok q => simp [bind, Except.bind, h]

theorem reachControl_moves {s c : Qwen3Scheduler E} {l l' : RequestLedger} {arrivals : Arrivals}
    (h : s.reachControl l arrivals = .ok (c, l')) : Moves s.pullControl c := by
  obtain ⟨⟨s₁, l₁⟩, h₁, h⟩ := bind_ok h
  obtain ⟨⟨s₂, l₂⟩, h₂, h⟩ := bind_ok h
  cases h
  exact ((pollInflight_moves h₁).trans (retireAbortedWaiting_moves h₂)).trans (prefetch_moves s₂)

/-- what a step does after its control point: requests move on or leave, and those it starts stood in `deferred` -/
structure Follows (c s' : Qwen3Scheduler E) : Prop where
  rx : s'.loraRx = c.loraRx
  control : s'.pendingControl = c.pendingControl
  ahead : s'.ahead ⊆ c.ahead
  behind : s'.behind ⊆ c.behind
  running : ∀ id ∈ s'.running, id ∈ c.running ∨ c.idle = false ∧ id ∈ ids c.deferred

theorem step_follows {s s' : Qwen3Scheduler E} {l l' : RequestLedger} {arrivals : Arrivals}
    {u : Except StepError Unit} (h : s.step l arrivals = .ok (u, s', l')) :
    ∃ c lc, s.reachControl l arrivals = .ok (c, lc) ∧ c.applyControl.Follows s' := by
  obtain ⟨⟨s₁, l₁, plan⟩, h₁, h⟩ := bind_ok h
  rw [prepare_eq] at h₁
  obtain ⟨⟨c, lc⟩, hc, h₁⟩ := bind_ok h₁
  refine ⟨c, lc, hc, ?_⟩
  generalize c.applyControl = d at h₁
  dsimp only at h₁
  unfold leaveControl at h₁
  split_ifs at h₁ with hidle
  · cases h₁
    cases h
    have hm := blockOnLoading_moves d
    exact ⟨hm.rx, hm.control, hm.ahead, hm.behind, fun id hid => Or.inl (hm.running hid)⟩
  · obtain ⟨⟨s₂, l₂⟩, h₂, h₁⟩ := bind_ok h₁
    obtain ⟨hrx, hcontrol, hbehind, hahead, hrunning⟩ := admitQueued_moves h₂
    obtain ⟨prx, pcontrol, pdeferred, ploading, ppost⟩ := nextPlan_rest s₂
    have hplan := nextPlan_running s₂
    have hstart : ∀ id ∈ s₂.running, id ∈ d.running ∨ d.idle = false ∧ id ∈ ids d.deferred := fun id hid =>
      (Multiset.mem_add.1 (hrunning hid)).imp_right fun hid => ⟨by simpa using hidle, hid⟩
    cases h₁
    -- with the waiting queues of `s₂`, what runs decides
    have hclose : ∀ t : Qwen3Scheduler E, t.loraRx = s₂.loraRx → t.pendingControl = s₂.pendingControl →
        t.deferred = s₂.deferred → t.loading = s₂.loading → t.postControlDeferred = s₂.postControlDeferred →
        t.running ⊆ s₂.running → d.Follows t := by
      intro t hr hc hd hl hp hrun
      have hm := Moves.of_running hr hc hd hl hp hrun
      refine ⟨hm.rx.trans hrx, hm.control.trans hcontrol, Multiset.Subset.trans hm.ahead hahead, ?_, fun id hid =>
        hstart id (hm.running hid)⟩
      rw [← hbehind]
      exact hm.behind
    cases hp : s₂.nextPlan.2 with
    | none =>
      rw [hp] at h hplan
      cases h
      refine hclose _ prx pcontrol pdeferred ploading ppost fun id hid => ?_
      rw [← hplan]
      exact Multiset.mem_add.2 (Or.inl hid)
    | some plan =>
      rw [hp] at h hplan
      obtain ⟨erx, econtrol, edeferred, eloading, epost, erunning⟩ := execute_moves h
      refine hclose _ (erx.trans prx) (econtrol.trans pcontrol) (edeferred.trans pdeferred)
        (eloading.trans ploading) (epost.trans ppost) fun id hid => ?_
      rw [← hplan]
      exact erunning hid

theorem applyControl_idle {c : Qwen3Scheduler E} (h : c.idle = true) :
    c.applyControl.pendingControl = [] ∧ c.applyControl.loraRx = c.loraRx ∧ c.applyControl.running = c.running ∧
      c.applyControl.behind = 0 ∧ (∀ id, id ∈ c.applyControl.ahead ↔ id ∈ c.ahead ∨ id ∈ c.behind) := by
  unfold applyControl
  rw [if_pos h]
  refine ⟨rfl, rfl, rfl, rfl, fun id => ?_⟩
  simp only [ahead, behind, running, inflightPrefills, ids_append, Multiset.mem_add]
  tauto

theorem applyControl_busy {c : Qwen3Scheduler E} (h : c.idle = false) : c.applyControl = c := by
  unfold applyControl
  rw [if_neg (by simp [h])]

/-- an idle scheduler holds requests in `loading` and behind control only -/
theorem idle_ahead {c : Qwen3Scheduler E} (h : c.idle = true) : c.ahead = ids c.loading := by
  obtain ⟨ha, hd, hp, hi⟩ := idle_iff.1 h
  simp [ahead, running, inflightPrefills, ha, hd, hp, hi]

end Qwen3Scheduler

/-! ## Observed runs -/

/-- the engine, and what an observer of its requests and commands writes down -/
structure Observed (E : Type) where
  engine : Engine E
  /-- the commands pulled so far, and those applied -/
  pulled : List LoraControl
  applied : List LoraControl
  /-- the commands pulled before a request was submitted -/
  preceding : RequestId → Option (List LoraControl)
  /-- each request as it came up for validation, with the commands applied by then -/
  validated : List (RequestId × List LoraControl)
  /-- the requests in the queues whenever commands were applied, with the commands applied after that -/
  drains : List (Multiset RequestId × List LoraControl)

namespace Observed

def new (s : Qwen3Scheduler E) : Observed E := ⟨Engine.new s, [], [], fun _ => none, [], []⟩

/-- an iteration of `s` that reached its control point as `c` and left the engine as `g` -/
def note (o : Observed E) (s c : Qwen3Scheduler E) (g : Engine E) : Observed E :=
  let applied := if c.idle then o.applied ++ c.pendingControl else o.applied
  { o with
    engine := g
    pulled := o.pulled ++ s.loraRx
    applied := applied
    validated := o.validated ++
      if c.applyControl.idle then [] else c.applyControl.deferred.map fun req => (req.requestId, applied)
    drains := o.drains ++
      if c.idle && !c.pendingControl.isEmpty then [(c.ahead + c.behind, applied)] else [] }

/-- the engine's step; request ids come from a counter, so none is submitted twice -/
def step (o : Observed E) : EngineOp → Except String (Observed E)
  | .submit id aborted queuedAt request =>
    if (o.preceding id).isSome then .error "request id minted twice"
    else do
      let g ← o.engine.step (.submit id aborted queuedAt request)
      .ok { o with engine := g, preceding := Function.update o.preceding id (some o.pulled) }
  | .iterate arrivals metricsChanged =>
    match o.engine.scheduler with
    | none => .ok o
    | some s => do
      let c ← s.reachControl o.engine.ledger arrivals
      let g ← o.engine.step (.iterate arrivals metricsChanged)
      .ok (o.note s c.1 g)
  | op => do
    let g ← o.engine.step op
    .ok { o with engine := g }

/-- a scheduler that comes idle to its control point with commands pending has no request in `loading`, and every
request behind the commands was submitted after the last of them was pulled -/
def Undisturbed (o : Observed E) : EngineOp → Prop
  | .iterate arrivals _ =>
    match o.engine.scheduler with
    | none => True
    | some s =>
      match s.reachControl o.engine.ledger arrivals with
      | .error _ => True
      | .ok (c, _) => c.idle = true → c.pendingControl ≠ [] →
        c.loading = [] ∧ ∀ req ∈ c.postControlDeferred, o.preceding req.requestId = some (o.pulled ++ s.loraRx)
  | _ => True

/-- commands and requests take effect in the order they came in -/
structure Ordered (o : Observed E) : Prop where
  /-- a request is validated under exactly the commands pulled before its submission -/
  validated : ∀ p ∈ o.validated, o.preceding p.1 = some p.2
  /-- a request in the queues when commands are applied was submitted after they were pulled -/
  drained : ∀ d ∈ o.drains, ∀ id ∈ d.1, ∃ cs, o.preceding id = some cs ∧ d.2 <+: cs
  /-- a running request was validated, and the commands applied are still those that precede it -/
  running : ∀ s, o.engine.scheduler = some s → ∀ id ∈ s.running,
    o.preceding id = some o.applied ∧ (id, o.applied) ∈ o.validated

/-! ## Every run -/

/-- the commands pulled and not applied wait in `pendingControl`; what is ahead of them was submitted after the applied
ones were pulled -/
structure Placed (o : Observed E) (s : Qwen3Scheduler E) : Prop where
  pulled : o.pulled = o.applied ++ s.pendingControl
  ahead : ∀ id ∈ s.ahead, ∃ cs, o.preceding id = some cs ∧ cs <+: o.applied
  behind : ∀ id ∈ s.behind, ∃ cs, o.preceding id = some cs ∧ cs <+: o.pulled

/-- what holds on every run -/
structure Inv (o : Observed E) : Prop where
  placed : ∀ s, o.engine.scheduler = some s → o.Placed s
  validated : ∀ p ∈ o.validated, ∃ cs, o.preceding p.1 = some cs ∧ cs <+: p.2
  drains : ∀ d ∈ o.drains, ∀ id ∈ d.1, ∃ cs, o.preceding id = some cs

variable {o : Observed E} {s s' c : Qwen3Scheduler E} {l l' : RequestLedger} {arrivals : Arrivals}

/-- the commands still in the channel are pulled before the control point -/
theorem Placed.note (g : Engine E) (h : o.Placed s) (hm : s.pullControl.Moves c) : (o.note s c g).Placed c.applyControl := by
  have hpending : c.pendingControl = s.pendingControl ++ s.loraRx := hm.control
  have hpulled : o.pulled ++ s.loraRx = o.applied ++ c.pendingControl := by
    rw [hpending, h.pulled, List.append_assoc]
  have hahead : ∀ id ∈ c.ahead, ∃ cs, o.preceding id = some cs ∧ cs <+: o.applied := fun id hid =>
    h.ahead id (hm.ahead hid)
  have hbehind : ∀ id ∈ c.behind, ∃ cs, o.preceding id = some cs ∧ cs <+: o.pulled ++ s.loraRx := by
    intro id hid
    obtain ⟨cs, hcs, hpre⟩ := h.behind id (hm.behind hid)
    exact ⟨cs, hcs, hpre.trans (List.prefix_append _ _)⟩
  cases hidle : c.idle with
  | false =>
    rw [Qwen3Scheduler.applyControl_busy hidle]
    refine ⟨?_, ?_, hbehind⟩
    · simpa [Observed.note, hidle] using hpulled
    · simpa [Observed.note, hidle] using hahead
  | true =>
    obtain ⟨hp, -, -, hb, ha⟩ := Qwen3Scheduler.applyControl_idle hidle
    refine ⟨?_, fun id hid => ?_, fun id hid => ?_⟩
    · simpa [Observed.note, hidle, hp] using hpulled
    · simp only [Observed.note, hidle, if_true]
      rcases (ha id).1 hid with hid | hid
      · obtain ⟨cs, hcs, hpre⟩ := hahead id hid
        exact ⟨cs, hcs, hpre.trans (List.prefix_append _ _)⟩
      · rw [← hpulled]
        exact hbehind id hid
    · rw [hb] at hid
      exact absurd hid (Multiset.notMem_zero id)

/-- what a step does after its control point keeps requests where they are or ahead of it -/
theorem Placed.follows (h : o.Placed s) (hf : s.Follows s') : o.Placed s' :=
  ⟨by rw [hf.control]; exact h.pulled, fun id hid => h.ahead id (hf.ahead hid), fun id hid => h.behind id (hf.behind hid)⟩

/-- a submission goes ahead of the commands when none is pending, else behind them -/
theorem submit_queues (s : Qwen3Scheduler E) (id : RequestId) (request : Request) :
    (s.submit id request).pendingControl = s.pendingControl ∧ (s.submit id request).running = s.running ∧
      ((s.pendingControl = [] ∧ (s.submit id request).ahead = id ::ₘ s.ahead ∧
          (s.submit id request).behind = s.behind) ∨
        ((s.submit id request).ahead = s.ahead ∧ (s.submit id request).behind = id ::ₘ s.behind)) := by
  unfold Qwen3Scheduler.submit
  split_ifs with hc
  · refine ⟨rfl, rfl, Or.inl ⟨by simpa using hc, ?_, rfl⟩⟩
    simp only [Qwen3Scheduler.ahead, Qwen3Scheduler.running, Qwen3Scheduler.inflightPrefills, ids_append, ids_cons,
      ids_nil, PendingRequest.fromRequest, ← Multiset.singleton_add]
    abel
  · refine ⟨rfl, rfl, Or.inr ⟨rfl, ?_⟩⟩
    simp only [Qwen3Scheduler.behind, ids_append, ids_cons, ids_nil, PendingRequest.fromRequest,
      ← Multiset.singleton_add]
    abel

/-- what was written down about the requests known so far stays with a new request -/
theorem preceding_update {id j : RequestId} {cs : List LoraControl} (hnew : ¬ (o.preceding id).isSome = true)
    (hj : o.preceding j = some cs) : Function.update o.preceding id (some o.pulled) j = some cs := by
  have hne : j ≠ id := by
    rintro rfl
    exact hnew (by simp [hj])
  rw [Function.update_of_ne hne, hj]

/-- the shape of a successful step -/
theorem step_cases {op : EngineOp} {o' : Observed E} (h : o.step op = .ok o') :
    (∃ id aborted queuedAt request g, op = .submit id aborted queuedAt request ∧
      ¬ (o.preceding id).isSome = true ∧ o.engine.step op = .ok g ∧
      o' = { o with engine := g, preceding := Function.update o.preceding id (some o.pulled) }) ∨
    (∃ arrivals metricsChanged s c lc g, op = .iterate arrivals metricsChanged ∧ o.engine.scheduler = some s ∧
      s.reachControl o.engine.ledger arrivals = .ok (c, lc) ∧ o.engine.step op = .ok g ∧
      o' = o.note s c g) ∨
    (∃ g, (∀ arrivals metricsChanged, op = .iterate arrivals metricsChanged → o.engine.scheduler = none) ∧
      (∀ s', g.scheduler = some s' → ∃ s, o.engine.scheduler = some s ∧
        s'.pendingControl = s.pendingControl ∧ s'.ahead = s.ahead ∧ s'.behind = s.behind ∧ s'.running = s.running) ∧
      o' = { o with engine := g }) := by
  cases op with
  | submit id aborted queuedAt request =>
    simp only [step] at h
    split_ifs at h with hid
    obtain ⟨g, hg, h⟩ := bind_ok h
    cases h
    exact Or.inl ⟨id, aborted, queuedAt, request, g, rfl, hid, hg, rfl⟩
  | iterate arrivals metricsChanged =>
    simp only [step] at h
    split at h
    · rename_i hs
      cases h
      refine Or.inr (Or.inr ⟨o.engine, fun _ _ _ => hs, fun s' hs' => ?_, rfl⟩)
      rw [hs] at hs'
      cases hs'
    · rename_i s hs
      obtain ⟨⟨c, lc⟩, hc, h⟩ := bind_ok h
      obtain ⟨g, hg, h⟩ := bind_ok h
      cases h
      exact Or.inr (Or.inl ⟨arrivals, metricsChanged, s, c, lc, g, rfl, hs, hc, hg, rfl⟩)
  | abort id =>
    cases h
    exact Or.inr (Or.inr ⟨{ o.engine with ledger := raiseAbort o.engine.ledger id }, fun _ _ hop => (by cases hop),
      fun s' hs' => ⟨s', hs', rfl, rfl, rfl, rfl⟩, rfl⟩)
  | control command =>
    cases h
    refine Or.inr (Or.inr ⟨{ o.engine with
      scheduler := o.engine.scheduler.map fun s => { s with loraRx := s.loraRx ++ [command] } }, fun _ _ hop => (by cases hop),
      fun s' hs' => ?_, rfl⟩)
    obtain ⟨s, hs, rfl⟩ := Option.map_eq_some_iff.1 hs'
    exact ⟨s, hs, rfl, rfl, rfl, rfl⟩

/-- an iteration's state after its control point leads to the scheduler it leaves, if it leaves one -/
theorem iterate_follows {g : Engine E} {metricsChanged : Bool} {lc : RequestLedger}
    (hs : o.engine.scheduler = some s) (hc : s.reachControl o.engine.ledger arrivals = .ok (c, lc))
    (hg : o.engine.step (.iterate arrivals metricsChanged) = .ok g) (hs' : g.scheduler = some s') :
    c.applyControl.Follows s' := by
  simp only [Engine.step, hs] at hg
  obtain ⟨⟨u, s₁, l₁⟩, h₁, hg⟩ := bind_ok hg
  obtain ⟨c', lc', hc', hf⟩ := Qwen3Scheduler.step_follows h₁
  rw [hc] at hc'
  cases hc'
  cases u with
  | ok u =>
    cases hg
    cases hs'
    exact hf
  | error err =>
    obtain ⟨l₂, -, hg⟩ := bind_ok hg
    cases hg
    cases hs'

/-- the scheduler after a submission, if the driver is up -/
theorem submit_scheduler {g : Engine E} {id : RequestId} {aborted : Bool} {queuedAt : Instant} {request : Request}
    (hg : o.engine.step (.submit id aborted queuedAt request) = .ok g) (hs' : g.scheduler = some s') :
    ∃ s, o.engine.scheduler = some s ∧ s' = s.submit id request := by
  simp only [Engine.step] at hg
  split at hg
  · rename_i hnone
    cases hg
    rw [hnone] at hs'
    cases hs'
  · rename_i s hs
    obtain ⟨l₁, -, hg⟩ := bind_ok hg
    cases hg
    cases hs'
    exact ⟨s, hs, rfl⟩

/-- what an iteration wrote down came from the queues at its control point -/
theorem note_validated {g : Engine E} {p : RequestId × List LoraControl} (hp : p ∈ (o.note s c g).validated) :
    p ∈ o.validated ∨ p.2 = (o.note s c g).applied ∧ p.1 ∈ c.applyControl.ahead := by
  simp only [note, List.mem_append] at hp
  refine hp.imp_right fun hp => ?_
  cases hidle : c.applyControl.idle with
  | true =>
    rw [hidle, if_pos rfl] at hp
    cases hp
  | false =>
    rw [hidle, if_neg (by decide)] at hp
    obtain ⟨req, hreq, rfl⟩ := List.mem_map.1 hp
    refine ⟨rfl, ?_⟩
    simp only [Qwen3Scheduler.ahead, Multiset.mem_add]
    exact Or.inl (Or.inl (Multiset.mem_coe.2 (List.mem_map_of_mem hreq)))

theorem note_drains {g : Engine E} {d : Multiset RequestId × List LoraControl} (hd : d ∈ (o.note s c g).drains) :
    d ∈ o.drains ∨ c.idle = true ∧ c.pendingControl ≠ [] ∧
      d = (c.ahead + c.behind, o.applied ++ c.pendingControl) := by
  simp only [note, List.mem_append] at hd
  refine hd.imp_right fun hd => ?_
  split_ifs at hd with hdrain hidle
  · rw [Bool.and_eq_true] at hdrain
    exact ⟨hdrain.1, by simpa using hdrain.2, List.mem_singleton.1 hd⟩
  · rw [Bool.and_eq_true] at hdrain
    exact absurd hdrain.1 hidle
  · cases hd

/-- **One step.** -/
theorem step_inv {op : EngineOp} {o' : Observed E} (hi : Inv o) (h : o.step op = .ok o') : Inv o' := by
  rcases step_cases h with ⟨id, aborted, queuedAt, request, g, rfl, hnew, hg, rfl⟩ |
    ⟨arrivals, metricsChanged, s, c, lc, g, rfl, hs, hc, hg, rfl⟩ | ⟨g, -, hsame, rfl⟩
  · refine ⟨fun s' hs' => ?_, fun p hp => ?_, fun d hd j hj => ?_⟩
    · obtain ⟨s, hs, rfl⟩ := submit_scheduler hg hs'
      have hpl := hi.placed s hs
      obtain ⟨hcontrol, -, hqueue⟩ := submit_queues s id request
      have hold : ∀ (j : RequestId) (bound : List LoraControl), (∃ cs, o.preceding j = some cs ∧ cs <+: bound) →
          ∃ cs, Function.update o.preceding id (some o.pulled) j = some cs ∧ cs <+: bound := by
        rintro j bound ⟨cs, hcs, hpre⟩
        exact ⟨cs, preceding_update hnew hcs, hpre⟩
      refine ⟨by rw [hcontrol]; exact hpl.pulled, fun j hj => ?_, fun j hj => ?_⟩
      · rcases hqueue with ⟨hnone, ha, -⟩ | ⟨ha, -⟩
        · rw [ha, Multiset.mem_cons] at hj
          rcases hj with rfl | hj
          · refine ⟨o.pulled, Function.update_self _ _ _, ?_⟩
            rw [hpl.pulled, hnone, List.append_nil]
          · exact hold j _ (hpl.ahead j hj)
        · rw [ha] at hj
          exact hold j _ (hpl.ahead j hj)
      · rcases hqueue with ⟨-, -, hb⟩ | ⟨-, hb⟩
        · rw [hb] at hj
          exact hold j _ (hpl.behind j hj)
        · rw [hb, Multiset.mem_cons] at hj
          rcases hj with rfl | hj
          · exact ⟨o.pulled, Function.update_self _ _ _, List.prefix_refl _⟩
          · exact hold j _ (hpl.behind j hj)
    · obtain ⟨cs, hcs, hpre⟩ := hi.validated p hp
      exact ⟨cs, preceding_update hnew hcs, hpre⟩
    · obtain ⟨cs, hcs⟩ := hi.drains d hd j hj
      exact ⟨cs, preceding_update hnew hcs⟩
  · have hm := Qwen3Scheduler.reachControl_moves hc
    have hpl := (hi.placed s hs).note g hm
    refine ⟨fun s' hs' => ?_, fun p hp => ?_, fun d hd j hj => ?_⟩
    · have hpl' := hpl.follows (iterate_follows hs hc hg hs')
      exact ⟨hpl'.pulled, hpl'.ahead, hpl'.behind⟩
    · rcases note_validated hp with hp | ⟨hp, hmem⟩
      · exact hi.validated p hp
      · rw [hp]
        exact hpl.ahead p.1 hmem
    · rcases note_drains hd with hd | ⟨-, -, rfl⟩
      · exact hi.drains d hd j hj
      · have hold := hi.placed s hs
        rcases Multiset.mem_add.1 hj with hj | hj
        · obtain ⟨cs, hcs, -⟩ := hold.ahead j (hm.ahead hj)
          exact ⟨cs, hcs⟩
        · obtain ⟨cs, hcs, -⟩ := hold.behind j (hm.behind hj)
          exact ⟨cs, hcs⟩
  · refine ⟨fun s' hs' => ?_, hi.validated, hi.drains⟩
    obtain ⟨s, hs, hcontrol, ha, hb, -⟩ := hsame s' hs'
    have hpl := hi.placed s hs
    exact ⟨by rw [hcontrol]; exact hpl.pulled, by rw [ha]; exact hpl.ahead, by rw [hb]; exact hpl.behind⟩

/-! ## Runs with undisturbed control points -/

/-- the requests ahead of the pending commands were submitted under exactly the applied ones -/
structure Current (o : Observed E) (s : Qwen3Scheduler E) : Prop where
  ahead : ∀ id ∈ s.ahead, o.preceding id = some o.applied
  behind : ∀ id ∈ s.behind, ∃ cs, o.preceding id = some cs ∧ o.applied <+: cs
  running : ∀ id ∈ s.running, (id, o.applied) ∈ o.validated

/-- what holds besides -/
structure Level (o : Observed E) : Prop where
  current : ∀ s, o.engine.scheduler = some s → o.Current s
  validated : ∀ p ∈ o.validated, o.preceding p.1 = some p.2
  drained : ∀ d ∈ o.drains, ∀ id ∈ d.1, ∃ cs, o.preceding id = some cs ∧ d.2 <+: cs

theorem new_inv (e : E) (maxPrefillTokens : ℕ) (requestLocal : Bool) (specMaxBatch : ℕ) :
    Inv (Observed.new (Qwen3Scheduler.new e maxPrefillTokens requestLocal specMaxBatch)) ∧
      Level (Observed.new (Qwen3Scheduler.new e maxPrefillTokens requestLocal specMaxBatch)) := by
  refine ⟨⟨fun s hs => ?_, nofun, nofun⟩, ⟨fun s hs => ?_, nofun, nofun⟩⟩
  · cases hs
    refine ⟨rfl, fun id hid => ?_, fun id hid => ?_⟩
    · exact absurd hid (Multiset.notMem_zero id)
    · exact absurd hid (Multiset.notMem_zero id)
  · cases hs
    refine ⟨fun id hid => ?_, fun id hid => ?_, fun id hid => ?_⟩
    · exact absurd hid (Multiset.notMem_zero id)
    · exact absurd hid (Multiset.notMem_zero id)
    · exact absurd hid (Multiset.notMem_zero id)

theorem Level.ordered (h : Level o) : o.Ordered :=
  ⟨h.validated, h.drained, fun s hs id hid =>
    ⟨(h.current s hs).ahead id (s.running_subset_ahead hid), (h.current s hs).running id hid⟩⟩

/-- at an undisturbed control point every request in the queues precedes the commands still pending -/
theorem Current.note {g : Engine E} (hp : o.Placed s) (h : o.Current s) (hm : s.pullControl.Moves c)
    (hok : c.idle = true → c.pendingControl ≠ [] →
      c.loading = [] ∧ ∀ req ∈ c.postControlDeferred, o.preceding req.requestId = some (o.pulled ++ s.loraRx)) :
    (∀ id ∈ c.applyControl.ahead, o.preceding id = some (o.note s c g).applied) ∧
      ∀ id ∈ c.applyControl.behind, ∃ cs, o.preceding id = some cs ∧ (o.note s c g).applied <+: cs := by
  have hahead : ∀ id ∈ c.ahead, o.preceding id = some o.applied := fun id hid => h.ahead id (hm.ahead hid)
  have hbehind : ∀ id ∈ c.behind, ∃ cs, o.preceding id = some cs ∧ o.applied <+: cs := fun id hid =>
    h.behind id (hm.behind hid)
  cases hidle : c.idle with
  | false =>
    rw [Qwen3Scheduler.applyControl_busy hidle]
    simp only [Observed.note, hidle, Bool.false_eq_true, if_false]
    exact ⟨hahead, hbehind⟩
  | true =>
    obtain ⟨-, -, -, hb, ha⟩ := Qwen3Scheduler.applyControl_idle hidle
    have hpulled : o.pulled ++ s.loraRx = o.applied ++ c.pendingControl := by
      rw [hm.control, hp.pulled]
      exact List.append_assoc _ _ _
    refine ⟨fun id hid => ?_, fun id hid => ?_⟩
    · simp only [Observed.note, hidle, if_true]
      by_cases hpending : c.pendingControl = []
      · rw [hpending, List.append_nil] at hpulled ⊢
        rcases (ha id).1 hid with hid | hid
        · exact hahead id hid
        · obtain ⟨cs, hcs, hpre⟩ := hbehind id hid
          obtain ⟨cs', hcs', hpre'⟩ := hp.behind id (hm.behind hid)
          rw [hcs] at hcs'
          cases hcs'
          have hle := (hpre'.trans (List.prefix_append _ s.loraRx)).length_le
          rw [hpulled] at hle
          rw [hcs, hpre.eq_of_length_le hle]
      · obtain ⟨hloading, hpost⟩ := hok hidle hpending
        rcases (ha id).1 hid with hid | hid
        · rw [Qwen3Scheduler.idle_ahead hidle, hloading] at hid
          exact absurd hid (Multiset.notMem_zero id)
        · obtain ⟨req, hreq, rfl⟩ := List.mem_map.1 (Multiset.mem_coe.1 hid)
          rw [hpost req hreq, hpulled]
    · rw [hb] at hid
      exact absurd hid (Multiset.notMem_zero id)

/-- **One undisturbed step.** -/
theorem step_level {op : EngineOp} {o' : Observed E} (hi : Inv o) (hl : Level o) (hok : o.Undisturbed op)
    (h : o.step op = .ok o') : Level o' := by
  rcases step_cases h with ⟨id, aborted, queuedAt, request, g, rfl, hnew, hg, rfl⟩ |
    ⟨arrivals, metricsChanged, s, c, lc, g, rfl, hs, hc, hg, rfl⟩ | ⟨g, -, hsame, rfl⟩
  · refine ⟨fun s' hs' => ?_, fun p hp => preceding_update hnew (hl.validated p hp), fun d hd j hj => ?_⟩
    · obtain ⟨s, hs, rfl⟩ := submit_scheduler hg hs'
      have hcur := hl.current s hs
      have hpulled := (hi.placed s hs).pulled
      obtain ⟨-, hrunning, hqueue⟩ := submit_queues s id request
      have hold : ∀ j ∈ s.behind, ∃ cs, Function.update o.preceding id (some o.pulled) j = some cs ∧
          o.applied <+: cs := by
        intro j hj
        obtain ⟨cs, hcs, hpre⟩ := hcur.behind j hj
        exact ⟨cs, preceding_update hnew hcs, hpre⟩
      refine ⟨fun j hj => ?_, fun j hj => ?_, fun j hj => hcur.running j (hrunning ▸ hj)⟩
      · rcases hqueue with ⟨hnone, ha, -⟩ | ⟨ha, -⟩
        · rw [ha, Multiset.mem_cons] at hj
          rcases hj with rfl | hj
          · rw [hnone, List.append_nil] at hpulled
            simp [hpulled]
          · exact preceding_update hnew (hcur.ahead j hj)
        · rw [ha] at hj
          exact preceding_update hnew (hcur.ahead j hj)
      · rcases hqueue with ⟨-, -, hb⟩ | ⟨-, hb⟩
        · rw [hb] at hj
          exact hold j hj
        · rw [hb, Multiset.mem_cons] at hj
          rcases hj with rfl | hj
          · refine ⟨o.pulled, Function.update_self _ _ _, ?_⟩
            rw [hpulled]
            exact List.prefix_append _ _
          · exact hold j hj
    · obtain ⟨cs, hcs, hpre⟩ := hl.drained d hd j hj
      exact ⟨cs, preceding_update hnew hcs, hpre⟩
  · have hm := Qwen3Scheduler.reachControl_moves hc
    have hcur := hl.current s hs
    simp only [Undisturbed, hs, hc] at hok
    obtain ⟨hahead, hbehind⟩ := Current.note (g := g) (hi.placed s hs) hcur hm hok
    refine ⟨fun s' hs' => ?_, fun p hp => ?_, fun d hd j hj => ?_⟩
    · have hf := iterate_follows hs hc hg hs'
      refine ⟨fun j hj => hahead j (hf.ahead hj), fun j hj => hbehind j (hf.behind hj), fun j hj => ?_⟩
      rcases hf.running j hj with hj | ⟨hbusy, hj⟩
      · cases hidle : c.idle with
        | false =>
          rw [Qwen3Scheduler.applyControl_busy hidle] at hj
          simp only [note, hidle, Bool.false_eq_true, if_false, List.mem_append]
          exact Or.inl (hcur.running j (hm.running hj))
        | true =>
          rw [(Qwen3Scheduler.applyControl_idle hidle).2.2.1] at hj
          obtain ⟨hac, -, hpc, hic⟩ := Qwen3Scheduler.idle_iff.1 hidle
          simp [Qwen3Scheduler.running, Qwen3Scheduler.inflightPrefills, hac, hpc, hic] at hj
      · obtain ⟨req, hreq, rfl⟩ := List.mem_map.1 (Multiset.mem_coe.1 hj)
        simp only [note, hbusy, Bool.false_eq_true, if_false, List.mem_append]
        exact Or.inr (List.mem_map.2 ⟨req, hreq, rfl⟩)
    · rcases note_validated hp with hp | ⟨hp, hmem⟩
      · exact hl.validated p hp
      · rw [hp]
        exact hahead p.1 hmem
    · rcases note_drains hd with hd | ⟨hidle, hpending, rfl⟩
      · exact hl.drained d hd j hj
      · have hmem := (Qwen3Scheduler.applyControl_idle hidle).2.2.2.2 j
        have happlied : (o.note s c g).applied = o.applied ++ c.pendingControl := by simp [note, hidle]
        refine ⟨_, hahead j (hmem.2 (Multiset.mem_add.1 hj)), ?_⟩
        rw [happlied]
  · refine ⟨fun s' hs' => ?_, hl.validated, hl.drained⟩
    obtain ⟨s, hs, -, ha, hb, hr⟩ := hsame s' hs'
    have hcur := hl.current s hs
    exact ⟨by rw [ha]; exact hcur.ahead, by rw [hb]; exact hcur.behind, by rw [hr]; exact hcur.running⟩

/-! ## A disturbed control point -/

/-- a command was applied while a request submitted before it was in the queues -/
def Overtaken (o : Observed E) : Prop :=
  ∃ d ∈ o.drains, ∃ id ∈ d.1, ∃ cs, o.preceding id = some cs ∧ ¬ d.2 <+: cs

theorem Overtaken.not_ordered (h : o.Overtaken) : ¬ o.Ordered := by
  obtain ⟨d, hd, id, hid, cs, hcs, hnot⟩ := h
  intro hord
  obtain ⟨cs', hcs', hpre⟩ := hord.drained d hd id hid
  rw [hcs] at hcs'
  cases hcs'
  exact hnot hpre

/-- what was written down stays -/
theorem Overtaken.step {op : EngineOp} {o' : Observed E} (ho : o.Overtaken) (h : o.step op = .ok o') :
    o'.Overtaken := by
  obtain ⟨d, hd, j, hj, cs, hcs, hnot⟩ := ho
  rcases step_cases h with ⟨id, aborted, queuedAt, request, g, rfl, hnew, hg, rfl⟩ |
    ⟨arrivals, metricsChanged, s, c, lc, g, rfl, hs, hc, hg, rfl⟩ | ⟨g, -, -, rfl⟩
  · exact ⟨d, hd, j, hj, cs, preceding_update hnew hcs, hnot⟩
  · exact ⟨d, List.mem_append_left _ hd, j, hj, cs, hcs, hnot⟩
  · exact ⟨d, hd, j, hj, cs, hcs, hnot⟩

theorem Overtaken.run (ops : List EngineOp) : ∀ o o' : Observed E, o.Overtaken →
    Lib.run Observed.step o ops = .ok o' → o'.Overtaken := by
  induction ops with
  | nil =>
    intro o o' ho h
    cases h
    exact ho
  | cons op ops ih =>
    intro o o' ho h
    obtain ⟨m, hm, h⟩ := (run_cons_ok o o' op ops).1 h
    exact ih m o' (ho.step hm) h

/-- a disturbed control point lets a command overtake a request -/
theorem step_overtaken {op : EngineOp} {o' : Observed E} (hi : Inv o) (hbad : ¬ o.Undisturbed op)
    (h : o.step op = .ok o') : o'.Overtaken := by
  rcases step_cases h with ⟨id, aborted, queuedAt, request, g, rfl, -⟩ |
    ⟨arrivals, metricsChanged, s, c, lc, g, rfl, hs, hc, hg, rfl⟩ | ⟨g, hdown, -, rfl⟩
  · exact absurd trivial hbad
  · have hm := Qwen3Scheduler.reachControl_moves hc
    have hp := hi.placed s hs
    have hpulled : o.pulled ++ s.loraRx = o.applied ++ c.pendingControl := by
      rw [hm.control, hp.pulled]
      exact List.append_assoc _ _ _
    simp only [Undisturbed, hs, hc, Classical.not_imp] at hbad
    obtain ⟨hidle, hpending, hbad⟩ := hbad
    have hdrain : (c.ahead + c.behind, o.applied ++ c.pendingControl) ∈ (o.note s c g).drains := by
      simp [note, hidle, hpending]
    rcases not_and_or.1 hbad with hloading | hpost
    · -- a request parked in `loading` was submitted before the pending commands were pulled
      obtain ⟨req, rest, hreq⟩ := List.exists_cons_of_ne_nil hloading
      have hmem : req.requestId ∈ c.ahead := by
        rw [Qwen3Scheduler.idle_ahead hidle, hreq, ids_cons]
        exact Multiset.mem_cons_self _ _
      obtain ⟨cs, hcs, hpre⟩ := hp.ahead req.requestId (hm.ahead hmem)
      refine ⟨_, hdrain, req.requestId, Multiset.mem_add.2 (Or.inl hmem), cs, hcs, fun hlate => ?_⟩
      have hle := (hlate.trans hpre).length_le
      rw [List.length_append] at hle
      exact hpending (List.length_eq_zero_iff.1 (by omega))
    · -- a request behind an earlier command than the last one pulled
      simp only [not_forall] at hpost
      obtain ⟨req, hreq, hne⟩ := hpost
      have hmem : req.requestId ∈ c.behind := Multiset.mem_coe.2 (List.mem_map_of_mem hreq)
      obtain ⟨cs, hcs, hpre⟩ := hp.behind req.requestId (hm.behind hmem)
      refine ⟨_, hdrain, req.requestId, Multiset.mem_add.2 (Or.inr hmem), cs, hcs, fun hlate => hne ?_⟩
      have hpre' := hpre.trans (List.prefix_append _ s.loraRx)
      rw [hcs, hpre'.eq_of_length_le (hpulled ▸ hlate.length_le)]
  · cases op with
    | iterate arrivals metricsChanged =>
      simp only [Undisturbed, hdown arrivals metricsChanged rfl, not_true_eq_false] at hbad
    | _ => exact absurd trivial hbad

/-! ## Runs -/

theorem run_inv (e : E) (maxPrefillTokens : ℕ) (requestLocal : Bool) (specMaxBatch : ℕ) (ops : List EngineOp)
    (o : Observed E)
    (h : Lib.run Observed.step (Observed.new (Qwen3Scheduler.new e maxPrefillTokens requestLocal specMaxBatch)) ops =
      .ok o) : Inv o :=
  run_invariant (P := fun _ _ => True) (I := fun _ o => Inv o) _ (new_inv _ _ _ _).1
    (fun _ _ _ _ hi _ hstep => step_inv hi hstep) ops o (stepsMeet_true _ _) h

/-- **Commands and requests take effect in order.** On every run a request is validated only after every command pulled
before its submission. Commands wait for the requests submitted before them, and each request runs under exactly the
commands that precede it, precisely on the runs with undisturbed control points. -/
theorem control_ordered_iff (e : E) (maxPrefillTokens : ℕ) (requestLocal : Bool) (specMaxBatch : ℕ)
    (ops : List EngineOp) (o : Observed E)
    (h : Lib.run Observed.step (Observed.new (Qwen3Scheduler.new e maxPrefillTokens requestLocal specMaxBatch)) ops =
      .ok o) :
    (∀ p ∈ o.validated, ∃ cs, o.preceding p.1 = some cs ∧ cs <+: p.2) ∧
      (o.Ordered ↔ StepsMeet Observed.step Undisturbed
        (Observed.new (Qwen3Scheduler.new e maxPrefillTokens requestLocal specMaxBatch)) ops) := by
  refine ⟨(run_inv e maxPrefillTokens requestLocal specMaxBatch ops o h).validated, fun hord => ?_,
    fun hops => ?_⟩
  · by_contra hbad
    obtain ⟨pre, op, post, m, rfl, hm, hop⟩ := not_stepsMeet _ ops hbad
    obtain ⟨m', hm', hrest⟩ := (run_append_ok _ o pre (op :: post)).1 h
    rw [hm] at hm'
    cases hm'
    obtain ⟨n, hn, hpost⟩ := (run_cons_ok m o op post).1 hrest
    have hi := run_inv e maxPrefillTokens requestLocal specMaxBatch pre m hm
    exact ((step_overtaken hi hop hn).run post n o hpost).not_ordered hord
  · have hboth : Inv o ∧ Level o := run_invariant (P := Undisturbed) (I := fun _ o => Inv o ∧ Level o) _
      (new_inv _ _ _ _) (fun _ _ _ _ hi hok hstep => ⟨step_inv hi.1 hstep, step_level hi.1 hi.2 hok hstep⟩) ops o hops h
    exact hboth.2.ordered

/-! ## Runs that overtake -/

/-- an executor that answers in one chunk and prefetches the requests of a list, which do not settle -/
structure Parking where
  parks : List RequestId
deriving DecidableEq, Repr

instance : ModelExecutor Parking where
  blockSize _ := 16
  maxRequestBlocks _ := 64
  maxContextTokens _ := 1024
  maxDecodeBatchSize _ := 8
  availableBlocks _ := 64
  isStopToken _ _ := false
  dropRequest e _ := e
  executePrefill e items := (.ok (items.map Scripted.prefilled), e)
  executeDecode e items := (.ok (items.map Scripted.decoded), e)
  executeUnified e prefills decodes := (.ok ⟨prefills.map Scripted.prefilled, decodes.map Scripted.decoded⟩, e)
  beginKvPrefetch e id _ _ _ := (decide (id ∈ e.parks), e)

/-- a base-model request for `maxTokens` tokens -/
def baseRequest (maxTokens : ℕ) : Request := ⟨none, [1, 2, 3], ⟨true⟩, ⟨.ignore, []⟩, maxTokens, none, none⟩

/-- request 1 decodes while request 2 parks in `loading`; the load is pulled once request 1 has finished -/
def parkedRun : List EngineOp :=
  [.submit 1 false 0 (baseRequest 2), Engine.quiet, .submit 2 false 0 (baseRequest 2), Engine.quiet,
    .control (.load "a" "/a" false), Engine.quiet]

/-- request 2 is submitted between the pulling of a load and of an unload -/
def betweenRun : List EngineOp :=
  [.submit 1 false 0 (baseRequest 3), Engine.quiet, .control (.load "a" "/a" false), Engine.quiet,
    .submit 2 false 0 (baseRequest 2), .control (.unload "a"), Engine.quiet, Engine.quiet]

/-- the load is applied over request 2, which was submitted before it and is still parked; the unload is applied before
request 2, which was submitted before it too -/
theorem control_overtakes :
    (∃ o, Lib.run Observed.step (Observed.new (Qwen3Scheduler.new (⟨[2]⟩ : Parking) 8 false 0)) parkedRun = .ok o ∧
      ¬ o.Ordered) ∧
    ∃ o, Lib.run Observed.step (Observed.new (Qwen3Scheduler.new (⟨[]⟩ : Parking) 8 false 0)) betweenRun = .ok o ∧
      ¬ o.Ordered := by
  refine ⟨⟨_, rfl, Overtaken.not_ordered ?_⟩, ⟨_, rfl, Overtaken.not_ordered ?_⟩⟩
  · exact ⟨({2}, [.load "a" "/a" false]), by decide, 2, by decide, [], by decide, by decide⟩
  · exact ⟨({2}, [.load "a" "/a" false, .unload "a"]), by decide, 2, by decide, [.load "a" "/a" false], by decide,
      by decide⟩

/-- with one command and no prefetch in the way, the request behind it runs under it -/
theorem control_ordered_one_command :
    ∃ o, Lib.run Observed.step (Observed.new (Qwen3Scheduler.new (⟨[]⟩ : Parking) 8 false 0))
        (betweenRun.take 5 ++ [Engine.quiet, Engine.quiet]) = .ok o ∧
      (∀ p ∈ o.validated, ∃ cs, o.preceding p.1 = some cs ∧ cs <+: p.2) ∧
      (o.Ordered ↔ StepsMeet Observed.step Undisturbed
        (Observed.new (Qwen3Scheduler.new (⟨[]⟩ : Parking) 8 false 0))
        (betweenRun.take 5 ++ [Engine.quiet, Engine.quiet])) :=
  ⟨_, rfl, control_ordered_iff (⟨[]⟩ : Parking) 8 false 0 (betweenRun.take 5 ++ [Engine.quiet, Engine.quiet]) _ rfl⟩

end Observed

end Pegainfer.Qwen3
