/-
The offload engine's write barrier: saves on a multi-threaded runtime, and barriers that chain.

A call and a task are cut where another thread can come in between: `submit_save` into its spawn and its locked section,
`flush_saves_then` into its entry, its locked section and its spawn, a barrier's task at every await. Any number of threads
makes any number of calls, in any order the steps allow.
- `Engine.step`: one such piece of work.
- `flush_covers`: in every run, a barrier whose chain met no deadline drained the pipeline after every save returned before
  its call was in it, and the barriers of the chain drained in the order they took the lock.
- `callbacks_out_of_order`: the callbacks themselves run in another order, since a barrier signals before it calls back.

Tasks run to completion: no task panics and the runtime is not torn down.
-/
import Mathlib.Tactic
import Pegainfer.Lib.Machine

namespace Pegainfer.KvOffload

open Pegainfer.Lib

variable {H : Type}

/-! ## Saves and barriers -/

structure LayerSave (H : Type) where
  layerName : String
  blockIds : List ℕ
  blockHashes : List H
deriving DecidableEq, Repr

/-- a save's task: copying, through with its copy and its submission to the pipeline, ended -/
inductive SaveStage
  | copying
  | submitted
  | finished
deriving DecidableEq, Repr

structure Save (H : Type) where
  saves : List (LayerSave H)
  stage : SaveStage
  /-- the call has returned -/
  returned : Bool
deriving DecidableEq, Repr

/-- where a call of `flush_saves_then` and the barrier it spawns stand; `awaitSaves` has the handles still to await -/
inductive FlushStage
  | called
  | locked
  | awaitPrev
  | awaitSaves (handles : List ℕ)
  | draining
  | flushed
  | signalled
  | ran
deriving DecidableEq, Repr

structure Flush where
  stage : FlushStage
  /-- the handles it took, as numbers of saves -/
  handles : List ℕ
  /-- the barrier it awaits -/
  prev : Option ℕ
  /-- it reached its deadline -/
  expired : Bool
  /-- kept for the statements: the saves that had returned when it was called -/
  covers : List ℕ
  /-- kept for the statements: the saves in the pipeline when it began its drain -/
  drained : List ℕ
deriving DecidableEq, Repr

/-- the engine: `pending_saves` and `prev_flush_done` are the state behind the lock -/
structure Engine (H : Type) where
  layerNames : List String
  saves : List (Save H)
  flushes : List Flush
  pendingSaves : List ℕ
  prevFlushDone : Option ℕ
  /-- the saves submitted to the pipeline, oldest first -/
  pipeline : List ℕ
  /-- kept for the statements: the barriers in the order they took the lock, ended their drain and called back -/
  order : List ℕ
  drains : List ℕ
  callbacks : List ℕ
deriving DecidableEq, Repr

inductive Op (H : Type)
  | submitSave (blockIds : List ℕ) (blockHashes : List H)
  | trackSave (k : ℕ)
  | copySave (k : ℕ)
  | finishSave (k : ℕ)
  | callFlush
  | lockFlush (f : ℕ)
  | spawnFlush (f : ℕ)
  | awaitPrev (f : ℕ)
  | awaitSave (f : ℕ)
  | drain (f : ℕ)
  | drained (f : ℕ)
  | expire (f : ℕ)
  | signal (f : ℕ)
  | callback (f : ℕ)
deriving DecidableEq, Repr

namespace FlushStage

/-- its `done` channel has been sent to -/
def doneSent : FlushStage → Bool
  | signalled | ran => true
  | _ => false

def pastPrev : FlushStage → Bool
  | called | locked | awaitPrev => false
  | _ => true

def pastSaves : FlushStage → Bool
  | draining | flushed | signalled | ran => true
  | _ => false

def pastDrain : FlushStage → Bool
  | flushed | signalled | ran => true
  | _ => false

/-- the handles still to await -/
def ahead : FlushStage → List ℕ
  | awaitSaves handles => handles
  | _ => []

/-- an await of the barrier, where the deadline can cut in -/
def awaits : FlushStage → Bool
  | awaitPrev | awaitSaves _ | draining => true
  | _ => false

end FlushStage

namespace Engine

def new (layerNames : List String) : Engine H := ⟨layerNames, [], [], [], none, [], [], [], []⟩

/-- one (block, hash) list, for every layer -/
def buildSaves (s : Engine H) (blockIds : List ℕ) (blockHashes : List H) : List (LayerSave H) :=
  s.layerNames.map fun name => ⟨name, blockIds, blockHashes⟩

/-- `is_finished` of the save's handle -/
def isFinished (s : Engine H) (k : ℕ) : Bool := s.saves[k]?.any fun x => decide (x.stage = .finished)

def returnedSaves (s : Engine H) : List ℕ :=
  (List.range s.saves.length).filter fun k => s.saves[k]?.any (·.returned)

/-- a barrier has nothing to await: there is no earlier one, or it has signalled -/
def prevDone (s : Engine H) : Option ℕ → Bool
  | none => true
  | some g => s.flushes[g]?.any (·.stage.doneSent)

def setSave (s : Engine H) (k : ℕ) (x : Save H) : Engine H := { s with saves := s.saves.set k x }

def setFlush (s : Engine H) (f : ℕ) (x : Flush) : Engine H := { s with flushes := s.flushes.set f x }

/-- `submit_save` up to its spawn; with no blocks it returns a settled handle -/
def submitSave (s : Engine H) (blockIds : List ℕ) (blockHashes : List H) : Engine H :=
  if blockIds = [] then s
  else { s with saves := s.saves ++ [⟨s.buildSaves blockIds blockHashes, .copying, false⟩] }

/-- the locked section of `submit_save`: the handles that have settled go, the new one is kept -/
def trackSave (s : Engine H) (k : ℕ) (x : Save H) : Engine H :=
  { s.setSave k { x with returned := true } with pendingSaves := s.pendingSaves.filter (fun j => !s.isFinished j) ++ [k] }

/-- the locked section of `flush_saves_then` -/
def lockFlush (s : Engine H) (f : ℕ) (x : Flush) : Engine H :=
  { s.setFlush f { x with stage := .locked, handles := s.pendingSaves, prev := s.prevFlushDone } with
    pendingSaves := [], prevFlushDone := some f, order := s.order ++ [f] }

/-- a barrier moves from one await to the next -/
def stepFlush (s : Engine H) (f : ℕ) (x : Flush) : Op H → Except String (Engine H)
  | .lockFlush _ => if x.stage = .called then .ok (s.lockFlush f x) else .error "locked already"
  | .spawnFlush _ => if x.stage = .locked then .ok (s.setFlush f { x with stage := .awaitPrev }) else .error "not locked"
  | .awaitPrev _ =>
    if x.stage = .awaitPrev ∧ s.prevDone x.prev then .ok (s.setFlush f { x with stage := .awaitSaves x.handles })
    else .error "the earlier barrier is pending"
  | .awaitSave _ =>
    match x.stage with
    | .awaitSaves (k :: handles) =>
      if s.isFinished k then .ok (s.setFlush f { x with stage := .awaitSaves handles }) else .error "the save is pending"
    | _ => .error "no save to await"
  | .drain _ =>
    if x.stage = .awaitSaves [] then .ok (s.setFlush f { x with stage := .draining, drained := s.pipeline })
    else .error "saves to await"
  | .drained _ =>
    if x.stage = .draining then .ok { s.setFlush f { x with stage := .flushed } with drains := s.drains ++ [f] }
    else .error "not draining"
  | .expire _ =>
    if x.stage.awaits then .ok (s.setFlush f { x with stage := .flushed, expired := true }) else .error "not at an await"
  | .signal _ => if x.stage = .flushed then .ok (s.setFlush f { x with stage := .signalled }) else .error "not flushed"
  | .callback _ =>
    if x.stage = .signalled then .ok { s.setFlush f { x with stage := .ran } with callbacks := s.callbacks ++ [f] }
    else .error "not signalled"
  | _ => .error "not a barrier's"

attribute [grind =] stepFlush

def stepSave (s : Engine H) (k : ℕ) (x : Save H) : Op H → Except String (Engine H)
  | .trackSave _ => if x.returned then .error "tracked already" else .ok (s.trackSave k x)
  | .copySave _ =>
    if x.stage = .copying then .ok { s.setSave k { x with stage := .submitted } with pipeline := s.pipeline ++ [k] }
    else .error "copied already"
  | .finishSave _ =>
    if x.stage = .submitted then .ok (s.setSave k { x with stage := .finished }) else .error "not submitted"
  | _ => .error "not a save's"

/-- one piece of work of one thread -/
def step (s : Engine H) (o : Op H) : Except String (Engine H) :=
  match o with
  | .submitSave blockIds blockHashes => .ok (s.submitSave blockIds blockHashes)
  | .callFlush => .ok { s with flushes := s.flushes ++ [⟨.called, [], none, false, s.returnedSaves, []⟩] }
  | .trackSave k | .copySave k | .finishSave k =>
    match s.saves[k]? with
    | some x => s.stepSave k x o
    | none => .error "no such save"
  | .lockFlush f | .spawnFlush f | .awaitPrev f | .awaitSave f | .drain f | .drained f | .expire f | .signal f | .callback f =>
    match s.flushes[f]? with
    | some x => s.stepFlush f x o
    | none => .error "no such barrier"

/-! ## What only grows -/

variable {s s' : Engine H} {f g i j k : ℕ} {x y : Flush}

def Finished (s : Engine H) (k : ℕ) : Prop := ∃ x, s.saves[k]? = some x ∧ x.stage = .finished

def Returned (s : Engine H) (k : ℕ) : Prop := ∃ x, s.saves[k]? = some x ∧ x.returned = true

def Signalled (s : Engine H) (g : ℕ) : Prop := ∃ y, s.flushes[g]? = some y ∧ y.stage.doneSent = true

/-- the barrier at position `j` of the lock order took the handle of save `k` -/
def Takes (s : Engine H) (j k : ℕ) : Prop := ∃ g y, s.order[j]? = some g ∧ s.flushes[g]? = some y ∧ k ∈ y.handles

/-- no barrier up to position `i` of the lock order has reached its deadline -/
def CleanTo (s : Engine H) (i : ℕ) : Prop :=
  ∀ j ≤ i, ∀ g y, s.order[j]? = some g → s.flushes[g]? = some y → y.expired = false

theorem CleanTo.mono (h : s.CleanTo i) (hj : j ≤ i) : s.CleanTo j := fun l hl => h l (hl.trans hj)

/-- `s'` is `s` later -/
structure Later (s s' : Engine H) : Prop where
  finished : ∀ k, s.Finished k → s'.Finished k
  returned : ∀ k, s.Returned k → s'.Returned k
  signalled : ∀ g, s.Signalled g → s'.Signalled g
  order : s.order <+: s'.order
  takes : ∀ j k, s.Takes j k → s'.Takes j k
  clean : ∀ i < s.order.length, s'.CleanTo i → s.CleanTo i
  drains : s.drains <+: s'.drains

/-- one barrier -/
structure FlushOk (s : Engine H) (f : ℕ) (x : Flush) : Prop where
  locked : x.stage = .called ↔ f ∉ s.order
  fresh : x.stage = .called → ∀ k ∈ x.covers, s.Returned k
  prev : ∀ i, s.order[i]? = some f → x.prev = if i = 0 then none else s.order[i - 1]?
  waited : x.expired = false → x.stage.pastPrev = true → ∀ g, x.prev = some g → s.Signalled g
  joined : x.expired = false → x.stage.pastPrev = true → ∀ k ∈ x.handles, s.Finished k ∨ k ∈ x.stage.ahead
  covers : ∀ i, s.order[i]? = some f → ∀ k ∈ x.covers, s.Finished k ∨ ∃ j ≤ i, s.Takes j k
  drained : ∀ i, s.order[i]? = some f → x.stage.pastSaves = true → s.CleanTo i → ∀ k ∈ x.covers, k ∈ x.drained
  drains : ∀ i, s.order[i]? = some f → x.stage.pastDrain = true → s.CleanTo i →
    (s.order.take (i + 1)).Sublist s.drains

structure Inv (s : Engine H) : Prop where
  submitted : ∀ k x, s.saves[k]? = some x → x.stage ≠ .copying → k ∈ s.pipeline
  accounted : ∀ k, s.Returned k → s.Finished k ∨ k ∈ s.pendingSaves ∨ ∃ i, s.Takes i k
  prevFlushDone : s.prevFlushDone = s.order.getLast?
  nodup : s.order.Nodup
  known : ∀ f ∈ s.order, ∃ x, s.flushes[f]? = some x
  flush : ∀ f x, s.flushes[f]? = some x → FlushOk s f x

theorem Inv.new (layerNames : List String) : Inv (new layerNames : Engine H) :=
  ⟨nofun, nofun, rfl, List.nodup_nil, nofun, nofun⟩

theorem Later.getElem? (h : Later s s') {l : ℕ} (hl : l < s.order.length) : s'.order[l]? = s.order[l]? := by
  obtain ⟨t, ht⟩ := h.order
  rw [← ht, List.getElem?_append_left hl]

/-- positions of the lock order stay -/
theorem Later.position (h : Later s s') (hn : s'.order.Nodup) (hf : f ∈ s.order) (hi : s'.order[i]? = some f) :
    s.order[i]? = some f := by
  obtain ⟨j, hj⟩ := List.mem_iff_getElem?.1 hf
  have hlt := (List.getElem?_eq_some_iff.1 hj).1
  have hs : s'.order[j]? = some f := (h.getElem? hlt).trans hj
  have hij : j = i := (List.getElem?_inj (List.getElem?_eq_some_iff.1 hs).1 hn).1 (hs.trans hi.symm)
  rwa [← hij]

/-- **Frame.** A barrier that does not move stays as it should be. -/
theorem FlushOk.later (h : FlushOk s f x) (hl : Later s s') (hn : s'.order.Nodup) (hf : f ∈ s'.order → f ∈ s.order) :
    FlushOk s' f x := by
  have hlt : ∀ {i}, s.order[i]? = some f → i < s.order.length := fun hi => (List.getElem?_eq_some_iff.1 hi).1
  have hpos : ∀ {i}, s'.order[i]? = some f → s.order[i]? = some f := fun hi =>
    hl.position hn (hf (List.mem_of_getElem? hi)) hi
  refine ⟨?_, ?_, ?_, ?_, ?_, ?_, ?_, ?_⟩
  · rw [h.locked]
    exact ⟨fun hm hm' => hm (hf hm'), fun hm hm' => hm (hl.order.subset hm')⟩
  · intro hc k hk
    exact hl.returned k (h.fresh hc k hk)
  · intro i hi
    rw [h.prev i (hpos hi)]
    split_ifs with h0
    · rfl
    · have := hlt (hpos hi)
      exact (hl.getElem? (by omega)).symm
  · intro he hp g hg
    exact hl.signalled g (h.waited he hp g hg)
  · intro he hp k hk
    rcases h.joined he hp k hk with hd | hd
    · exact Or.inl (hl.finished k hd)
    · exact Or.inr hd
  · intro i hi k hk
    rcases h.covers i (hpos hi) k hk with hd | ⟨j, hj, ht⟩
    · exact Or.inl (hl.finished k hd)
    · exact Or.inr ⟨j, hj, hl.takes j k ht⟩
  · intro i hi hp hc
    exact h.drained i (hpos hi) hp (hl.clean i (hlt (hpos hi)) hc)
  · intro i hi hp hc
    have hsub := h.drains i (hpos hi) hp (hl.clean i (hlt (hpos hi)) hc)
    have htake : s'.order.take (i + 1) = s.order.take (i + 1) := by
      obtain ⟨t, ht⟩ := hl.order
      have := hlt (hpos hi)
      rw [← ht, List.take_append_of_le_length (by omega)]
    rw [htake]
    exact hsub.trans hl.drains.sublist

/-! ## Barriers -/

theorem flushes_set {l : List Flush} {x' : Flush} (hx : l[f]? = some x) (g : ℕ) :
    (l.set f x')[g]? = if g = f then some x' else l[g]? := by
  have hlt := (List.getElem?_eq_some_iff.1 hx).1
  by_cases hg : g = f
  · subst hg
    simp [hlt]
  · rw [List.getElem?_set_ne (Ne.symm hg), if_neg hg]

/-- a barrier that keeps its handles moves on -/
theorem later_of_flush {x' : Flush} (hx : s.flushes[f]? = some x) (hfl : s'.flushes = s.flushes.set f x')
    (hs : s'.saves = s.saves) (ho : s'.order = s.order) (hd : s.drains <+: s'.drains) (hh : x'.handles = x.handles)
    (hsig : x.stage.doneSent = true → x'.stage.doneSent = true) (hex : x'.expired = false → x.expired = false) :
    Later s s' := by
  have hget : ∀ g, s'.flushes[g]? = if g = f then some x' else s.flushes[g]? := by
    intro g
    rw [hfl, flushes_set hx]
  refine ⟨?_, ?_, ?_, by rw [ho], ?_, ?_, hd⟩
  · intro k hk
    simpa only [Finished, hs] using hk
  · intro k hk
    simpa only [Returned, hs] using hk
  · rintro g ⟨y, hy, hdone⟩
    by_cases hg : g = f
    · subst hg
      cases hx.symm.trans hy
      exact ⟨x', by rw [hget, if_pos rfl], hsig hdone⟩
    · exact ⟨y, by rw [hget, if_neg hg, hy], hdone⟩
  · rintro j k ⟨g, y, hg, hy, hk⟩
    by_cases hgf : g = f
    · subst hgf
      cases hx.symm.trans hy
      exact ⟨g, x', by rw [ho, hg], by rw [hget, if_pos rfl], by rwa [hh]⟩
    · exact ⟨g, y, by rw [ho, hg], by rw [hget, if_neg hgf, hy], hk⟩
  · intro i _ hc j hj g y hg hy
    by_cases hgf : g = f
    · subst hgf
      cases hx.symm.trans hy
      exact hex (hc j hj g x' (by rw [ho, hg]) (by rw [hget, if_pos rfl]))
    · exact hc j hj g y (by rw [ho, hg]) (by rw [hget, if_neg hgf, hy])

/-- **One barrier moves.** The others need no proof. -/
theorem Inv.moveFlush {x' : Flush} (h : Inv s) (hx : s.flushes[f]? = some x) (hfl : s'.flushes = s.flushes.set f x')
    (hs : s'.saves = s.saves) (hq : s'.pendingSaves = s.pendingSaves) (hp : s'.pipeline = s.pipeline)
    (hprev : s'.prevFlushDone = s.prevFlushDone) (ho : s'.order = s.order) (hl : Later s s') (hok : FlushOk s' f x') :
    Inv s' := by
  refine ⟨by rw [hs, hp]; exact h.submitted, ?_, by rw [hprev, ho]; exact h.prevFlushDone, by rw [ho]; exact h.nodup,
    ?_, ?_⟩
  · intro k hk
    have hk' : s.Returned k := by simpa only [Returned, hs] using hk
    rcases h.accounted k hk' with hd | hm | ⟨i, ht⟩
    · exact Or.inl (hl.finished k hd)
    · exact Or.inr (Or.inl (by rwa [hq]))
    · exact Or.inr (Or.inr ⟨i, hl.takes i k ht⟩)
  · intro g hg
    rw [ho] at hg
    obtain ⟨y, hy⟩ := h.known g hg
    rw [hfl, flushes_set hx]
    split_ifs
    · exact ⟨x', rfl⟩
    · exact ⟨y, hy⟩
  · intro g y hy
    rw [hfl, flushes_set hx] at hy
    split_ifs at hy with hg
    · cases hy
      rw [hg]
      exact hok
    · exact (h.flush g y hy).later hl (by rw [ho]; exact h.nodup) (by rw [ho]; exact id)

/-- what a barrier past its locked section owes when it moves -/
theorem FlushOk.move {st : FlushStage} {e : Bool} {d : List ℕ} (h : FlushOk s f x) (hc : x.stage ≠ .called)
    (hst : st ≠ .called) (waited : e = false → st.pastPrev = true → ∀ g, x.prev = some g → s.Signalled g)
    (joined : e = false → st.pastPrev = true → ∀ k ∈ x.handles, s.Finished k ∨ k ∈ st.ahead)
    (drained : ∀ i, s.order[i]? = some f → st.pastSaves = true → s.CleanTo i → ∀ k ∈ x.covers, k ∈ d)
    (drains : ∀ i, s.order[i]? = some f → st.pastDrain = true → s.CleanTo i → (s.order.take (i + 1)).Sublist s.drains) :
    FlushOk s f { x with stage := st, expired := e, drained := d } :=
  ⟨⟨fun hc' => absurd hc' hst, fun hm => absurd (h.locked.2 hm) hc⟩, fun hc' => absurd hc' hst, h.prev, waited, joined,
    h.covers, drained, drains⟩

theorem doneSent_past {st : FlushStage} (h : st.doneSent = true) :
    st.pastPrev = true ∧ st.pastDrain = true ∧ st.ahead = [] := by
  cases st <;> simp_all [FlushStage.doneSent, FlushStage.pastPrev, FlushStage.pastDrain, FlushStage.ahead]

/-- **The chain.** A barrier past its wait for the earlier one has every earlier one behind it. -/
theorem Inv.chain (h : Inv s) : ∀ (i : ℕ) {f : ℕ} {x : Flush}, s.order[i]? = some f → s.flushes[f]? = some x →
    x.stage.pastPrev = true → s.CleanTo i → ∀ j < i, ∀ g, s.order[j]? = some g → s.Signalled g := by
  intro i
  induction i with
  | zero => exact fun _ _ _ _ j hj => absurd hj (Nat.not_lt_zero j)
  | succ i ih =>
    intro f x hi hx hp hc j hj g hg
    have hok := h.flush f x hx
    have hlt := (List.getElem?_eq_some_iff.1 hi).1
    obtain ⟨p, hpre⟩ : ∃ p, s.order[i]? = some p := ⟨_, List.getElem?_eq_getElem (by omega)⟩
    have hprev : x.prev = some p := by
      rw [hok.prev (i + 1) hi, if_neg (by omega), Nat.add_sub_cancel, hpre]
    obtain ⟨y, hy, hdone⟩ := hok.waited (hc (i + 1) le_rfl f x hi hx) hp p hprev
    rcases Nat.lt_or_ge j i with hji | hji
    · exact ih hpre hy (doneSent_past hdone).1 (hc.mono (by omega)) j hji g hg
    · obtain rfl : j = i := by omega
      cases hpre.symm.trans hg
      exact ⟨y, hy, hdone⟩

/-- **Coverage.** A barrier with no handle left to await, nor any deadline behind it: what it covers is finished. -/
theorem Inv.covered (h : Inv s) (hi : s.order[i]? = some f) (hx : s.flushes[f]? = some x)
    (hp : x.stage.pastPrev = true) (ha : x.stage.ahead = []) (hc : s.CleanTo i) : ∀ k ∈ x.covers, s.Finished k := by
  intro k hk
  -- a handle taken anywhere along the chain was awaited
  have hawaited : ∀ {g : ℕ} {y : Flush}, s.flushes[g]? = some y → y.expired = false → y.stage.pastPrev = true →
      y.stage.ahead = [] → k ∈ y.handles → s.Finished k := by
    intro g y hy he hpast hahead hm
    rcases (h.flush g y hy).joined he hpast k hm with hd | hd
    · exact hd
    · rw [hahead] at hd
      cases hd
  rcases (h.flush f x hx).covers i hi k hk with hd | ⟨j, hj, g, y, hg, hy, hm⟩
  · exact hd
  rcases Nat.lt_or_ge j i with hji | hji
  · obtain ⟨z, hz, hdone⟩ := h.chain i hi hx hp hc j hji g hg
    cases hy.symm.trans hz
    obtain ⟨h1, -, h3⟩ := doneSent_past hdone
    exact hawaited hy (hc j hj g y hg hy) h1 h3 hm
  · obtain rfl : j = i := by omega
    cases hi.symm.trans hg
    cases hx.symm.trans hy
    exact hawaited hx (hc j le_rfl f x hi hx) hp ha hm

theorem isFinished_iff (s : Engine H) (k : ℕ) : s.isFinished k = true ↔ s.Finished k := by
  simp [isFinished, Finished, Option.any_eq_true]

theorem prevDone_some {g : ℕ} (h : s.prevDone (some g) = true) : s.Signalled g := by
  simpa [prevDone, Signalled, Option.any_eq_true] using h

/-- the ops of a barrier past its locked section -/
theorem stepFlush_inv {o : Op H} (h : Inv s) (hx : s.flushes[f]? = some x) (hc : x.stage ≠ .called)
    (hs : s.stepFlush f x o = .ok s') : Inv s' := by
  have hok := h.flush f x hx
  have hlt := (List.getElem?_eq_some_iff.1 hx).1
  -- what every move that appends nothing shares
  have hmove : ∀ (st : FlushStage) {e : Bool} {d : List ℕ}, st ≠ .called →
      (x.stage.doneSent = true → st.doneSent = true) → (e = false → x.expired = false) →
      let t := s.setFlush f { x with stage := st, expired := e, drained := d }
      (Later s t → FlushOk t f x → FlushOk t f { x with stage := st, expired := e, drained := d }) → Inv t := by
    intro st e d hst hsig hex t hnew
    have hl : Later s t := later_of_flush hx rfl rfl rfl (List.prefix_refl _) rfl hsig hex
    exact h.moveFlush hx rfl rfl rfl rfl rfl rfl hl (hnew hl (hok.later hl h.nodup id))
  cases o with
  | spawnFlush _ =>
    simp only [stepFlush] at hs
    split_ifs at hs with hst
    cases hs
    refine hmove .awaitPrev (by decide) (by simp [hst, FlushStage.doneSent]) id fun hl hok' => ?_
    exact hok'.move hc (by decide) nofun nofun nofun nofun
  | awaitPrev _ =>
    simp only [stepFlush] at hs
    split_ifs at hs with hst
    cases hs
    obtain ⟨hst, hdone⟩ := hst
    refine hmove (.awaitSaves x.handles) nofun (by simp [hst, FlushStage.doneSent]) id fun hl hok' => ?_
    refine hok'.move hc nofun ?_ (fun _ _ k hk => Or.inr hk) nofun nofun
    intro _ _ g hg
    rw [hg] at hdone
    exact hl.signalled g (prevDone_some hdone)
  | awaitSave _ =>
    simp only [stepFlush] at hs
    split at hs
    · rename_i k handles hst
      split_ifs at hs with hfin
      cases hs
      refine hmove (.awaitSaves handles) nofun (by simp [hst, FlushStage.doneSent]) id fun hl hok' => ?_
      refine hok'.move hc nofun (fun he _ => hok'.waited he (by rw [hst]; rfl)) ?_ nofun nofun
      intro he _ j hj
      rcases hok'.joined he (by rw [hst]; rfl) j hj with hd | hd
      · exact Or.inl hd
      rw [hst] at hd
      rcases List.mem_cons.1 hd with rfl | hd
      · exact Or.inl (hl.finished _ ((isFinished_iff s j).1 hfin))
      · exact Or.inr hd
    · cases hs
  | drain _ =>
    simp only [stepFlush] at hs
    split_ifs at hs with hst
    cases hs
    refine hmove .draining (by decide) (by simp [hst, FlushStage.doneSent]) id fun hl hok' => ?_
    refine hok'.move hc (by decide) (fun he _ => hok'.waited he (by rw [hst]; rfl)) ?_ ?_ nofun
    · intro he _ k hk
      have := hok'.joined he (by rw [hst]; rfl) k hk
      rwa [hst] at this
    · intro i hi _ hclean k hk
      have hi' : s.order[i]? = some f := hi
      have hcl : s.CleanTo i := hl.clean i (List.getElem?_eq_some_iff.1 hi').1 hclean
      obtain ⟨z, hz, hfin⟩ := h.covered hi' hx (by rw [hst]; rfl) (by rw [hst]; rfl) hcl k hk
      exact h.submitted k z hz (by rw [hfin]; decide)
  | drained _ =>
    simp only [stepFlush] at hs
    split_ifs at hs with hst
    cases hs
    set t : Engine H := { s.setFlush f { x with stage := .flushed } with drains := s.drains ++ [f] } with ht
    have hl : Later s t := later_of_flush hx rfl rfl rfl (List.prefix_append _ _) rfl
      (by simp [hst, FlushStage.doneSent]) id
    have hok' := hok.later hl h.nodup id
    refine h.moveFlush hx rfl rfl rfl rfl rfl rfl hl (hok'.move hc (by decide) ?_ ?_ ?_ ?_)
    · exact fun he _ => hok'.waited he (by rw [hst]; rfl)
    · intro he _ k hk
      have := hok'.joined he (by rw [hst]; rfl) k hk
      rwa [hst] at this
    · exact fun i hi _ => hok'.drained i hi (by rw [hst]; rfl)
    · intro i hi _ hclean
      have hi' : s.order[i]? = some f := hi
      have hcl : s.CleanTo i := hl.clean i (List.getElem?_eq_some_iff.1 hi').1 hclean
      have hsub : (s.order.take i).Sublist s.drains := by
        rcases Nat.eq_zero_or_pos i with rfl | hpos
        · simp
        have hlt' := (List.getElem?_eq_some_iff.1 hi').1
        obtain ⟨g, hg⟩ : ∃ g, s.order[i - 1]? = some g := ⟨_, List.getElem?_eq_getElem (by omega)⟩
        obtain ⟨y, hy, hdone⟩ := h.chain i hi' hx (by rw [hst]; rfl) hcl (i - 1) (by omega) g hg
        have := (h.flush g y hy).drains (i - 1) hg (doneSent_past hdone).2.1 (hcl.mono (by omega))
        rwa [Nat.sub_add_cancel hpos] at this
      show (s.order.take (i + 1)).Sublist (s.drains ++ [f])
      rw [List.take_add_one, hi']
      exact hsub.append (List.Sublist.refl _)
  | expire _ =>
    simp only [stepFlush] at hs
    split_ifs at hs with hst
    cases hs
    refine hmove .flushed (e := true) (by decide) ?_ nofun fun hl hok' => ?_
    · revert hst
      cases x.stage <;> simp [FlushStage.awaits, FlushStage.doneSent]
    -- its own deadline is in the chain
    have hdirty : ∀ i, s.order[i]? = some f →
        ¬ (s.setFlush f { x with stage := .flushed, expired := true }).CleanTo i := by
      intro i hi hclean
      have := hclean i le_rfl f _ hi (by
        show (s.flushes.set f _)[f]? = _
        rw [flushes_set hx, if_pos rfl])
      cases this
    exact hok'.move hc (by decide) nofun nofun (fun i hi _ hclean => absurd hclean (hdirty i hi))
      (fun i hi _ hclean => absurd hclean (hdirty i hi))
  | signal _ =>
    simp only [stepFlush] at hs
    split_ifs at hs with hst
    cases hs
    refine hmove .signalled (by decide) (fun _ => rfl) id fun hl hok' => ?_
    refine hok'.move hc (by decide) (fun he _ => hok'.waited he (by rw [hst]; rfl)) ?_
      (fun i hi _ => hok'.drained i hi (by rw [hst]; rfl)) (fun i hi _ => hok'.drains i hi (by rw [hst]; rfl))
    intro he _ k hk
    have := hok'.joined he (by rw [hst]; rfl) k hk
    rwa [hst] at this
  | callback _ =>
    simp only [stepFlush] at hs
    split_ifs at hs with hst
    cases hs
    set t : Engine H := { s.setFlush f { x with stage := .ran } with callbacks := s.callbacks ++ [f] } with ht
    have hl : Later s t := later_of_flush hx rfl rfl rfl (List.prefix_refl _) rfl (fun _ => rfl) id
    have hok' := hok.later hl h.nodup id
    refine h.moveFlush hx rfl rfl rfl rfl rfl rfl hl (hok'.move hc (by decide) ?_ ?_ ?_ ?_)
    · exact fun he _ => hok'.waited he (by rw [hst]; rfl)
    · intro he _ k hk
      have := hok'.joined he (by rw [hst]; rfl) k hk
      rwa [hst] at this
    · exact fun i hi _ => hok'.drained i hi (by rw [hst]; rfl)
    · exact fun i hi _ => hok'.drains i hi (by rw [hst]; rfl)
  | lockFlush _ =>
    simp only [stepFlush, if_neg hc] at hs
    cases hs
  | submitSave _ _ => cases hs
  | trackSave _ => cases hs
  | copySave _ => cases hs
  | finishSave _ => cases hs
  | callFlush => cases hs

/-! ## Calls and saves -/

/-- a barrier takes the lock: it is last in the lock order, with every handle pending -/
theorem lockFlush_inv (h : Inv s) (hx : s.flushes[f]? = some x) (hc : x.stage = .called) : Inv (s.lockFlush f x) := by
  have hok := h.flush f x hx
  have hf : f ∉ s.order := hok.locked.1 hc
  set x' : Flush := { x with stage := .locked, handles := s.pendingSaves, prev := s.prevFlushDone } with hx'
  set t := s.lockFlush f x with ht
  have hget : ∀ g, t.flushes[g]? = if g = f then some x' else s.flushes[g]? := fun g => flushes_set hx g
  have horder : t.order = s.order ++ [f] := rfl
  have hlast : t.order[s.order.length]? = some f := by rw [horder, List.getElem?_concat_length]
  have hn : t.order.Nodup := by
    rw [horder]
    exact List.nodup_append.2 ⟨h.nodup, List.nodup_singleton f, by
      intro a ha b hb
      rw [List.mem_singleton.1 hb]
      exact fun hab => hf (hab ▸ ha)⟩
  have hne : ∀ {j g : ℕ}, s.order[j]? = some g → g ≠ f := fun hg hgf => hf (hgf ▸ List.mem_of_getElem? hg)
  have hl : Later s t := by
    refine ⟨fun k hk => hk, fun k hk => hk, ?_, List.prefix_append _ _, ?_, ?_, List.prefix_refl _⟩
    · rintro g ⟨y, hy, hdone⟩
      by_cases hg : g = f
      · subst hg
        cases hx.symm.trans hy
        rw [hc] at hdone
        cases hdone
      · exact ⟨y, by rw [hget, if_neg hg, hy], hdone⟩
    · rintro j k ⟨g, y, hg, hy, hk⟩
      refine ⟨g, y, ?_, by rw [hget, if_neg (hne hg), hy], hk⟩
      rw [horder, List.getElem?_append_left (List.getElem?_eq_some_iff.1 hg).1, hg]
    · intro i hi hclean j hj g y hg hy
      refine hclean j hj g y ?_ (by rw [hget, if_neg (hne hg), hy])
      rw [horder, List.getElem?_append_left (List.getElem?_eq_some_iff.1 hg).1, hg]
  have hpos : ∀ {i}, t.order[i]? = some f → i = s.order.length := by
    intro i hi
    exact ((List.getElem?_inj (List.getElem?_eq_some_iff.1 hlast).1 hn).1 (hlast.trans hi.symm)).symm
  have htakes : ∀ k ∈ s.pendingSaves, t.Takes s.order.length k := fun k hk =>
    ⟨f, x', hlast, by rw [hget, if_pos rfl], hk⟩
  have hacc : ∀ k, s.Returned k → t.Finished k ∨ ∃ j ≤ s.order.length, t.Takes j k := by
    intro k hk
    rcases h.accounted k hk with hd | hm | ⟨j, hj⟩
    · exact Or.inl hd
    · exact Or.inr ⟨_, le_rfl, htakes k hm⟩
    · obtain ⟨g, y, hg, hy, hm⟩ := hj
      exact Or.inr ⟨j, (List.getElem?_eq_some_iff.1 hg).1.le, hl.takes j k ⟨g, y, hg, hy, hm⟩⟩
  refine ⟨h.submitted, ?_, ?_, hn, ?_, ?_⟩
  · intro k hk
    rcases hacc k hk with hd | ⟨j, -, hj⟩
    · exact Or.inl hd
    · exact Or.inr (Or.inr ⟨j, hj⟩)
  · rw [horder]
    simp [ht, Engine.lockFlush]
  · intro g hg
    rw [horder, List.mem_append, List.mem_singleton] at hg
    rw [hget]
    split_ifs with hgf
    · exact ⟨x', rfl⟩
    · exact h.known g (hg.resolve_right hgf)
  · intro g y hy
    rw [hget] at hy
    split_ifs at hy with hgf
    · cases hy
      subst hgf
      refine ⟨⟨nofun, fun hm => absurd (List.mem_of_getElem? hlast) hm⟩, nofun, ?_, nofun, nofun, ?_, nofun, nofun⟩
      · intro i hi
        obtain rfl := hpos hi
        show s.prevFlushDone = _
        rw [h.prevFlushDone, List.getLast?_eq_getElem?]
        split_ifs with h0
        · rw [h0]
          exact List.getElem?_eq_none (by omega)
        · rw [horder, List.getElem?_append_left (by omega)]
      · intro i hi k hk
        obtain rfl := hpos hi
        exact hacc k (hok.fresh hc k hk)
    · refine (h.flush g y hy).later hl hn fun hm => ?_
      rw [horder, List.mem_append, List.mem_singleton] at hm
      exact hm.resolve_right hgf

/-- a save or a call enters, a save moves: no barrier moves, and what is unaccounted for is still to return -/
theorem Inv.keepFlushes (h : Inv s) (new : List Flush) (hfl : s'.flushes = s.flushes ++ new) (ho : s'.order = s.order)
    (hprev : s'.prevFlushDone = s.prevFlushDone) (hd : s'.drains = s.drains)
    (hfin : ∀ k, s.Finished k → s'.Finished k) (hret : ∀ k, s.Returned k → s'.Returned k)
    (hsub : ∀ k x, s'.saves[k]? = some x → x.stage ≠ .copying → k ∈ s'.pipeline)
    (hpend : ∀ k, s'.Returned k → s.Returned k ∧ (k ∈ s.pendingSaves → s'.Finished k ∨ k ∈ s'.pendingSaves) ∨
      k ∈ s'.pendingSaves)
    (hnew : ∀ y ∈ new, y.stage = .called ∧ ∀ k ∈ y.covers, s'.Returned k) : Inv s' := by
  have hget : ∀ {g : ℕ} {y : Flush}, s.flushes[g]? = some y → s'.flushes[g]? = some y := by
    intro g y hy
    rw [hfl, List.getElem?_append_left (List.getElem?_eq_some_iff.1 hy).1, hy]
  have hl : Later s s' := by
    refine ⟨hfin, hret, ?_, by rw [ho], ?_, ?_, by rw [hd]⟩
    · rintro g ⟨y, hy, hdone⟩
      exact ⟨y, hget hy, hdone⟩
    · rintro j k ⟨g, y, hg, hy, hk⟩
      exact ⟨g, y, by rw [ho, hg], hget hy, hk⟩
    · intro i _ hc j hj g y hg hy
      exact hc j hj g y (by rw [ho, hg]) (hget hy)
  refine ⟨hsub, ?_, by rw [hprev, ho]; exact h.prevFlushDone, by rw [ho]; exact h.nodup, ?_, ?_⟩
  · intro k hk
    rcases hpend k hk with ⟨hk', hkeep⟩ | hm
    · rcases h.accounted k hk' with hd' | hm | ⟨j, hj⟩
      · exact Or.inl (hfin k hd')
      · rcases hkeep hm with hf' | hm'
        · exact Or.inl hf'
        · exact Or.inr (Or.inl hm')
      · exact Or.inr (Or.inr ⟨j, hl.takes j k hj⟩)
    · exact Or.inr (Or.inl hm)
  · intro g hg
    rw [ho] at hg
    obtain ⟨y, hy⟩ := h.known g hg
    exact ⟨y, hget hy⟩
  · intro g y hy
    rcases Nat.lt_or_ge g s.flushes.length with hlt | hge
    · rw [hfl, List.getElem?_append_left hlt] at hy
      exact (h.flush g y hy).later hl (by rw [ho]; exact h.nodup) (by rw [ho]; exact id)
    · rw [hfl, List.getElem?_append_right hge] at hy
      obtain ⟨hcalled, hcov⟩ := hnew y (List.mem_of_getElem? hy)
      have hout : g ∉ s'.order := by
        intro hm
        rw [ho] at hm
        obtain ⟨z, hz⟩ := h.known g hm
        have := (List.getElem?_eq_some_iff.1 hz).1
        omega
      have hno : ∀ {i : ℕ}, s'.order[i]? = some g → False := fun hi => hout (List.mem_of_getElem? hi)
      refine ⟨⟨fun _ => hout, fun _ => hcalled⟩, fun _ => hcov, fun i hi => (hno hi).elim, ?_, ?_,
        fun i hi => (hno hi).elim, fun i hi => (hno hi).elim, fun i hi => (hno hi).elim⟩
      · intro _ hp
        rw [hcalled] at hp
        cases hp
      · intro _ hp
        rw [hcalled] at hp
        cases hp

theorem saves_set {l : List (Save H)} {x x' : Save H} (hx : l[k]? = some x) (j : ℕ) :
    (l.set k x')[j]? = if j = k then some x' else l[j]? := by
  have hlt := (List.getElem?_eq_some_iff.1 hx).1
  by_cases hj : j = k
  · subst hj
    simp [hlt]
  · rw [List.getElem?_set_ne (Ne.symm hj), if_neg hj]

/-- a save's task moves or its call returns -/
theorem Inv.moveSave {x : Save H} (h : Inv s) (hx : s.saves[k]? = some x) (x' : Save H) (hsv : s'.saves = s.saves.set k x')
    (hfl : s'.flushes = s.flushes) (ho : s'.order = s.order) (hprev : s'.prevFlushDone = s.prevFlushDone)
    (hd : s'.drains = s.drains) (hfin : x.stage = .finished → x'.stage = .finished)
    (hret : x.returned = true → x'.returned = true) (hp : s.pipeline <+: s'.pipeline)
    (hsub : x'.stage ≠ .copying → x.stage ≠ .copying ∨ k ∈ s'.pipeline)
    (hnew : x'.returned = true → x.returned = true ∨ k ∈ s'.pendingSaves)
    (hpend : ∀ j ∈ s.pendingSaves, s.Finished j ∨ j ∈ s'.pendingSaves) : Inv s' := by
  have hget : ∀ j, s'.saves[j]? = if j = k then some x' else s.saves[j]? := fun j => by rw [hsv, saves_set hx]
  have hfin' : ∀ j, s.Finished j → s'.Finished j := by
    rintro j ⟨y, hy, hdone⟩
    by_cases hj : j = k
    · subst hj
      cases hx.symm.trans hy
      exact ⟨x', by rw [hget, if_pos rfl], hfin hdone⟩
    · exact ⟨y, by rw [hget, if_neg hj, hy], hdone⟩
  refine h.keepFlushes [] (by rw [hfl, List.append_nil]) ho hprev hd hfin' ?_ ?_ ?_ nofun
  · rintro j ⟨y, hy, hr⟩
    by_cases hj : j = k
    · subst hj
      cases hx.symm.trans hy
      exact ⟨x', by rw [hget, if_pos rfl], hret hr⟩
    · exact ⟨y, by rw [hget, if_neg hj, hy], hr⟩
  · intro j y hy hst
    rw [hget] at hy
    split_ifs at hy with hj
    · cases hy
      rw [hj]
      rcases hsub hst with hst' | hm
      · exact hp.subset (h.submitted k x hx hst')
      · exact hm
    · exact hp.subset (h.submitted j y hy hst)
  · rintro j ⟨y, hy, hr⟩
    have hkeep : j ∈ s.pendingSaves → s'.Finished j ∨ j ∈ s'.pendingSaves := fun hm =>
      (hpend j hm).imp_left (hfin' j)
    rw [hget] at hy
    split_ifs at hy with hj
    · cases hy
      rcases hnew hr with hr' | hm
      · exact Or.inl ⟨⟨x, by rw [hj, hx], hr'⟩, hkeep⟩
      · exact Or.inr (by rwa [hj])
    · exact Or.inl ⟨⟨y, hy, hr⟩, hkeep⟩

theorem stepSave_inv {x : Save H} {o : Op H} (h : Inv s) (hx : s.saves[k]? = some x)
    (hs : s.stepSave k x o = .ok s') : Inv s' := by
  cases o with
  | trackSave _ =>
    simp only [stepSave] at hs
    split_ifs at hs with hr
    cases hs
    refine h.moveSave hx { x with returned := true } rfl rfl rfl rfl rfl id (fun _ => rfl) (List.prefix_refl _)
      Or.inl (fun _ => Or.inr ?_) ?_
    · simp [Engine.trackSave]
    · intro j hj
      by_cases hfin : s.isFinished j = true
      · exact Or.inl ((isFinished_iff s j).1 hfin)
      · exact Or.inr (List.mem_append_left _ (List.mem_filter.2 ⟨hj, by simpa using hfin⟩))
  | copySave _ =>
    simp only [stepSave] at hs
    split_ifs at hs with hst
    cases hs
    refine h.moveSave hx { x with stage := .submitted } rfl rfl rfl rfl rfl ?_ id (List.prefix_append _ _)
      (fun _ => Or.inr (by simp)) Or.inl fun j hj => Or.inr hj
    rw [hst]
    exact nofun
  | finishSave _ =>
    simp only [stepSave] at hs
    split_ifs at hs with hst
    cases hs
    exact h.moveSave hx { x with stage := .finished } rfl rfl rfl rfl rfl (fun _ => rfl) id (List.prefix_refl _)
      (fun _ => Or.inl (by rw [hst]; decide)) Or.inl fun j hj => Or.inr hj
  | _ => cases hs

theorem submitSave_inv (h : Inv s) (blockIds : List ℕ) (blockHashes : List H) : Inv (s.submitSave blockIds blockHashes) := by
  unfold submitSave
  split_ifs with hempty
  · exact h
  set x : Save H := ⟨s.buildSaves blockIds blockHashes, .copying, false⟩
  have hold : ∀ {j : ℕ} {y : Save H}, s.saves[j]? = some y → (s.saves ++ [x])[j]? = some y := by
    intro j y hy
    rw [List.getElem?_append_left (List.getElem?_eq_some_iff.1 hy).1, hy]
  have hback : ∀ {j : ℕ} {y : Save H}, (s.saves ++ [x])[j]? = some y → s.saves[j]? = some y ∨ y = x := by
    intro j y hy
    rw [List.getElem?_append] at hy
    split_ifs at hy
    · exact Or.inl hy
    · exact Or.inr (List.mem_singleton.1 (List.mem_of_getElem? hy))
  refine h.keepFlushes [] (List.append_nil _).symm rfl rfl rfl ?_ ?_ ?_ ?_ nofun
  · rintro j ⟨y, hy, hd⟩
    exact ⟨y, hold hy, hd⟩
  · rintro j ⟨y, hy, hd⟩
    exact ⟨y, hold hy, hd⟩
  · intro j y hy hst
    rcases hback hy with hy | rfl
    · exact h.submitted j y hy hst
    · exact absurd rfl hst
  · rintro j ⟨y, hy, hr⟩
    rcases hback hy with hy | rfl
    · exact Or.inl ⟨⟨y, hy, hr⟩, Or.inr⟩
    · cases hr

theorem mem_returnedSaves (s : Engine H) (k : ℕ) : k ∈ s.returnedSaves ↔ s.Returned k := by
  simp only [returnedSaves, List.mem_filter, List.mem_range, Option.any_eq_true, Returned]
  exact ⟨fun h => h.2, fun ⟨x, hx, hr⟩ => ⟨(List.getElem?_eq_some_iff.1 hx).1, x, hx, hr⟩⟩

/-- **One step.** -/
theorem step_inv {o : Op H} (h : Inv s) (hs : s.step o = .ok s') : Inv s' := by
  have hsave : ∀ {k : ℕ} {o : Op H}, (match s.saves[k]? with
      | some x => s.stepSave k x o
      | none => .error "no such save") = .ok s' → Inv s' := by
    intro k o hs
    split at hs
    · rename_i x hx
      exact stepSave_inv h hx hs
    · cases hs
  have hflush : ∀ {f : ℕ} {o : Op H}, (match s.flushes[f]? with
      | some x => s.stepFlush f x o
      | none => .error "no such barrier") = .ok s' → Inv s' := by
    intro f o hs
    split at hs
    · rename_i x hx
      by_cases hc : x.stage = .called
      · -- a barrier that is only called can do nothing but take the lock
        cases o <;> simp only [stepFlush, hc, FlushStage.awaits, reduceCtorEq, false_and, if_false, if_true] at hs
        all_goals cases hs
        exact lockFlush_inv h hx hc
      · exact stepFlush_inv h hx hc hs
    · cases hs
  cases o with
  | submitSave blockIds blockHashes =>
    cases hs
    exact submitSave_inv h blockIds blockHashes
  | callFlush =>
    cases hs
    refine h.keepFlushes [⟨.called, [], none, false, s.returnedSaves, []⟩] rfl rfl rfl rfl (fun _ hk => hk)
      (fun _ hk => hk) h.submitted (fun k hk => Or.inl ⟨hk, Or.inr⟩) ?_
    intro y hy
    rw [List.mem_singleton.1 hy]
    exact ⟨rfl, fun k hk => (mem_returnedSaves s k).1 hk⟩
  | trackSave k => exact hsave hs
  | copySave k => exact hsave hs
  | finishSave k => exact hsave hs
  | lockFlush f => exact hflush hs
  | spawnFlush f => exact hflush hs
  | awaitPrev f => exact hflush hs
  | awaitSave f => exact hflush hs
  | drain f => exact hflush hs
  | drained f => exact hflush hs
  | expire f => exact hflush hs
  | signal f => exact hflush hs
  | callback f => exact hflush hs

/-! ## Runs -/

/-- a barrier whose callback has run, at position `i` of the lock order -/
def RanAt (s : Engine H) (i f : ℕ) (x : Flush) : Prop :=
  s.order[i]? = some f ∧ s.flushes[f]? = some x ∧ x.stage = .ran

theorem run_inv {layerNames : List String} {ops : List (Op H)} (hr : run step (new layerNames) ops = .ok s) : Inv s :=
  run_invariant (I := fun _ s => Inv s) (P := fun _ _ => True) _ (.new layerNames)
    (fun _ _ _ _ h _ hs => step_inv h hs) ops s (stepsMeet_true _ ops) hr

/-- **Coverage.** In every run, when the callback of a barrier has run and no barrier of its chain has reached its deadline:
every save that had returned when the barrier was called was through with its copy and its submission before the barrier's
drain, and the barriers of the chain ended their drains in the order they took the lock, its own before its callback. -/
theorem flush_covers (layerNames : List String) (ops : List (Op H)) (hr : run step (new layerNames) ops = .ok s)
    (hran : s.RanAt i f x) (hc : s.CleanTo i) :
    (∀ k ∈ x.covers, k ∈ x.drained) ∧ (s.order.take (i + 1)).Sublist s.drains := by
  have h := run_inv hr
  obtain ⟨hi, hx, hst⟩ := hran
  have hok := h.flush f x hx
  exact ⟨hok.drained i hi (by rw [hst]; rfl) hc, hok.drains i hi (by rw [hst]; rfl) hc⟩

theorem cleanTo_of_forall (h : ∀ y ∈ s.flushes, y.expired = false) (i : ℕ) : s.CleanTo i :=
  fun _ _ _ y _ hy => h y (List.mem_of_getElem? hy)

/-- the first barrier takes the handle of save 0, the second only that of save 1; save 1 settles first -/
def stolenHandle : List (Op ℕ) :=
  [.submitSave [7] [70], .trackSave 0, .callFlush, .lockFlush 0, .submitSave [8] [80], .trackSave 1, .callFlush, .lockFlush 1,
    .copySave 1, .finishSave 1, .spawnFlush 1, .spawnFlush 0, .copySave 0, .finishSave 0, .awaitPrev 0, .awaitSave 0,
    .drain 0, .drained 0, .signal 0, .awaitPrev 1, .awaitSave 1, .drain 1, .drained 1, .signal 1, .callback 1]

/-- the second barrier covers both saves, the stolen one through the first -/
theorem flush_covers_stolen : ∃ s x, run step (new ["k", "v"]) stolenHandle = .ok s ∧ s.RanAt 1 1 x ∧
    x.covers = [0, 1] ∧ x.handles = [1] ∧ ((∀ k ∈ x.covers, k ∈ x.drained) ∧ (s.order.take 2).Sublist s.drains) := by
  obtain ⟨s, x, hr, hran, hcov, hh, hclean⟩ : ∃ s x, run step (new ["k", "v"]) stolenHandle = .ok s ∧ s.RanAt 1 1 x ∧
      x.covers = [0, 1] ∧ x.handles = [1] ∧ ∀ y ∈ s.flushes, y.expired = false :=
    ⟨_, _, rfl, ⟨rfl, rfl, rfl⟩, rfl, rfl, by decide⟩
  exact ⟨s, x, hr, hran, hcov, hh, flush_covers _ _ hr hran (cleanTo_of_forall hclean 1)⟩

/-- the first barrier's task is suspended between its signal and its callback -/
def suspendedCallback : List (Op ℕ) :=
  [.callFlush, .lockFlush 0, .spawnFlush 0, .callFlush, .lockFlush 1, .spawnFlush 1, .awaitPrev 0, .drain 0, .drained 0,
    .signal 0, .awaitPrev 1, .drain 1, .drained 1, .signal 1, .callback 1, .callback 0]

/-- **Callbacks overtake each other.** Without any deadline, the callbacks need not run in the order of the lock. -/
theorem callbacks_out_of_order : ¬ ∀ (layerNames : List String) (ops : List (Op ℕ)) (s : Engine ℕ),
    run step (new layerNames) ops = .ok s → (∀ i, s.CleanTo i) → s.callbacks.Sublist s.order := by
  intro h
  obtain ⟨s, hr, hclean, hcb, ho⟩ : ∃ s, run step (new []) suspendedCallback = .ok s ∧
      (∀ y ∈ s.flushes, y.expired = false) ∧ s.callbacks = [1, 0] ∧ s.order = [0, 1] :=
    ⟨_, rfl, by decide, rfl, rfl⟩
  have hsub := h [] suspendedCallback s hr (cleanTo_of_forall hclean)
  rw [hcb, ho] at hsub
  exact absurd hsub (by decide)

end Engine

end Pegainfer.KvOffload
