/-
Staging through two buffers whose copies run behind.

A piece is written into the next of two buffers and a copy of it to the device is queued; the queue runs in order, each
copy reads its buffer when it runs, and a buffer is not written while a copy of it is queued. The writes of one piece run
in any order, and copies run at any time.
- `drained_store`: once the queue is empty the device holds the pieces as if written one after another.
- `exists_drained`: such runs exist.
-/
import Mathlib.Tactic
import Pegainfer.Lib.Cells
import Pegainfer.Lib.Machine

namespace Pegainfer.Lib

variable {β : Type}

/-- a queued copy: the buffer it reads, where it goes, how many cells -/
structure QueuedCopy where
  buf : Fin 2
  dst : ℕ
  size : ℕ

structure DoubleBuffer (β : Type) where
  bufs : Fin 2 → ℕ → Option β
  next : Fin 2
  queue : List QueuedCopy
  device : ℕ → Option β

/-- the next piece is written, or the oldest queued copy runs -/
inductive StagingAct (β : Type)
  | fill (dst size : ℕ) (writes : List (ℕ × β))
  | copy

namespace DoubleBuffer

def step (s : DoubleBuffer β) : StagingAct β → Except String (DoubleBuffer β)
  | .fill dst size writes =>
    if s.next ∈ s.queue.map QueuedCopy.buf then .error "the buffer is still being copied"
    else .ok {
      bufs := Function.update s.bufs s.next (store (s.bufs s.next) writes)
      next := s.next + 1
      queue := s.queue ++ [⟨s.next, dst, size⟩]
      device := s.device }
  | .copy =>
    match s.queue with
    | [] => .error "no copy is queued"
    | c :: queue => .ok { s with
        queue := queue
        device := fun cell => if c.dst ≤ cell ∧ cell < c.dst + c.size then s.bufs c.buf (cell - c.dst) else s.device cell }

/-- a piece: where it goes and what it holds -/
abbrev Piece (β : Type) := ℕ × List β

/-- the run writes these pieces in order, the writes of each in any order -/
inductive Writes : List (StagingAct β) → List (Piece β) → Prop
  | nil : Writes [] []
  | copy {acts : List (StagingAct β)} {pieces : List (Piece β)} (h : Writes acts pieces) :
    Writes (.copy :: acts) pieces
  | fill {acts : List (StagingAct β)} {pieces : List (Piece β)} {piece : Piece β} {writes : List (ℕ × β)}
    (order : writes.Perm (filling 0 piece.2)) (h : Writes acts pieces) :
    Writes (.fill piece.1 piece.2.length writes :: acts) (piece :: pieces)

/-- the buffer of a queued copy holds its piece -/
structure Holds (bufs : Fin 2 → ℕ → Option β) (c : QueuedCopy) (piece : Piece β) : Prop where
  dst : c.dst = piece.1
  size : c.size = piece.2.length
  cells : ∀ i (hi : i < piece.2.length), bufs c.buf i = some piece.2[i]

/-- the pieces written one after another -/
def landing (pieces : List (Piece β)) : List (ℕ × β) := pieces.flatMap fun piece => filling piece.1 piece.2

variable {s s' : DoubleBuffer β} {acts : List (StagingAct β)} {pieces pending : List (Piece β)}

/-- a copy that finds its piece in the buffer writes it to the device -/
theorem copy_holds {bufs : Fin 2 → ℕ → Option β} {c : QueuedCopy} {piece : Piece β} (h : Holds bufs c piece)
    (device : ℕ → Option β) :
    (fun cell => if c.dst ≤ cell ∧ cell < c.dst + c.size then bufs c.buf (cell - c.dst) else device cell) =
      store device (filling piece.1 piece.2) := by
  funext cell
  rw [h.dst, h.size]
  split_ifs with hin
  · obtain ⟨i, rfl⟩ := Nat.exists_eq_add_of_le hin.1
    have hi : i < piece.2.length := by omega
    rw [Nat.add_sub_cancel_left, h.cells i hi, store_filling hi]
  · rw [store_filling_outside (by omega)]

theorem holds_of_unread {bufs : Fin 2 → ℕ → Option β} {buf : Fin 2} {cells : ℕ → Option β} {queue : List QueuedCopy}
    (hunread : ∀ c ∈ queue, c.buf ≠ buf) (h : List.Forall₂ (Holds bufs) queue pending) :
    List.Forall₂ (Holds (Function.update bufs buf cells)) queue pending := by
  refine ((List.forall₂_and_left queue pending).2 ⟨hunread, h⟩).imp fun c piece hc => ⟨hc.2.dst, hc.2.size, ?_⟩
  intro i hi
  rw [Function.update_of_ne hc.1]
  exact hc.2.cells i hi

/-- the copies still queued and the pieces still to be written land in that order -/
theorem drained_from (hrun : run step s acts = .ok s') (hempty : s'.queue = []) (hwrites : Writes acts pieces)
    (hqueue : List.Forall₂ (Holds s.bufs) s.queue pending) :
    s'.device = store s.device (landing (pending ++ pieces)) := by
  induction hwrites generalizing s pending with
  | nil =>
    cases hrun
    rw [hempty] at hqueue
    cases hqueue
    rfl
  | copy _ ih =>
    obtain ⟨m, hstep, hrest⟩ := (run_cons_ok _ _ _ _).1 hrun
    unfold step at hstep
    cases hq : s.queue with
    | nil =>
      rw [hq] at hstep
      cases hstep
    | cons c queue =>
      rw [hq] at hstep hqueue
      cases hqueue with
      | cons hc hothers =>
        obtain rfl := Except.ok.inj hstep
        rw [ih hrest hothers, copy_holds hc, List.cons_append, landing, landing, List.flatMap_cons, store_append]
  | @fill _ _ piece writes order _ ih =>
    obtain ⟨m, hstep, hrest⟩ := (run_cons_ok _ _ _ _).1 hrun
    unfold step at hstep
    split_ifs at hstep with hbusy
    obtain rfl := Except.ok.inj hstep
    have hfilled : store (s.bufs s.next) writes = store (s.bufs s.next) (filling 0 piece.2) :=
      store_perm order ((order.map Prod.fst).nodup_iff.2 nodup_filling)
    have hholds : Holds (Function.update s.bufs s.next (store (s.bufs s.next) writes))
        ⟨s.next, piece.1, piece.2.length⟩ piece := by
      refine ⟨rfl, rfl, fun i hi => ?_⟩
      have hcell := @store_filling _ (s.bufs s.next) 0 piece.2 i hi
      rw [Nat.zero_add] at hcell
      rw [Function.update_self, hfilled, hcell]
    -- no queued copy reads the buffer that was written
    have hunread : ∀ c ∈ s.queue, c.buf ≠ s.next := fun c hc heq =>
      hbusy (List.mem_map.2 ⟨c, hc, heq⟩)
    have hkept : List.Forall₂ (Holds (Function.update s.bufs s.next (store (s.bufs s.next) writes))) s.queue pending :=
      holds_of_unread hunread hqueue
    have hqueue' := List.rel_append hkept (.cons hholds .nil)
    rw [ih hrest hqueue', List.append_assoc]
    rfl

/-- **The device holds the pieces.** -/
theorem drained_store (hrun : run step s acts = .ok s') (hempty : s'.queue = []) (hstart : s.queue = [])
    (hwrites : Writes acts pieces) : s'.device = store s.device (landing pieces) := by
  have hnone : List.Forall₂ (Holds s.bufs) s.queue [] := by
    rw [hstart]
    exact .nil
  exact drained_from hrun hempty hwrites hnone

/-- every list of pieces has a run, each copy right behind its piece -/
theorem exists_drained (pieces : List (Piece β)) (s : DoubleBuffer β) (hstart : s.queue = []) :
    ∃ acts s', Writes acts pieces ∧ run step s acts = .ok s' ∧ s'.queue = [] := by
  induction pieces generalizing s with
  | nil => exact ⟨[], s, .nil, rfl, hstart⟩
  | cons piece pieces ih =>
    obtain ⟨filled, hfill, hqueue⟩ : ∃ filled,
        step s (.fill piece.1 piece.2.length (filling 0 piece.2)) = .ok filled ∧
          filled.queue = [⟨s.next, piece.1, piece.2.length⟩] := by
      refine ⟨_, by rw [step, hstart]; exact if_neg List.not_mem_nil, ?_⟩
      rfl
    obtain ⟨copied, hcopy, hempty⟩ : ∃ copied, step filled .copy = .ok copied ∧ copied.queue = [] := by
      refine ⟨_, by rw [step, hqueue], rfl⟩
    obtain ⟨acts, s', hwrites, hrun, hdrained⟩ := ih copied hempty
    refine ⟨_, s', .fill (List.Perm.refl _) (.copy hwrites), ?_, hdrained⟩
    exact (run_cons_ok _ _ _ _).2 ⟨filled, hfill, (run_cons_ok _ _ _ _).2 ⟨copied, hcopy, hrun⟩⟩

end DoubleBuffer

end Pegainfer.Lib
