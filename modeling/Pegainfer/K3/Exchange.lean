/-
The whale gang's exchange windows: publish, await the publications, read them, acknowledge, await the readers.

Each rank runs the windows of the whales it is a member of, in whale order, on one stream; ranks interleave arbitrarily.
A doorbell is a flag in the slab of the rank that waits on it, written by one rank, and waits are for at least a value:
all that tells windows apart is that a rank's values grow. A publication is written in two instructions, so that a read in
between would be seen.
- `readsFrom_iff_readBy`: who reads whom, from either side.
- `value_lt`: the doorbell value grows with the whale and the window.
- `Inv`: the flags are what was rung, and what was waited for has been rung.
- `source_in_window`: while a reader reads, its source is in the same window, its publication written.
- `exchange_windows_safe`: every read sees the window's publication, in every run, and a source leaves a window after its
  readers have read it.
-/
import Mathlib.Tactic
import Pegainfer.Lib.Machine

set_option linter.unusedSectionVars false

namespace Pegainfer.K3

open Pegainfer.Lib

/-! ## Windows -/

inductive K3CpWindowKind
  | halo
  | upstream
deriving DecidableEq, Repr

namespace K3CpWindowKind

/-- the ranks `me` reads -/
def readsFrom (me : ℕ) : K3CpWindowKind → List ℕ
  | .halo => List.range' (me - 1) (me - (me - 1))
  | .upstream => List.range' 0 me

/-- the ranks that read `me` -/
def readBy (me cpSize : ℕ) : K3CpWindowKind → List ℕ
  | .halo => List.range' (min (me + 1) cpSize) (min (me + 2) cpSize - min (me + 1) cpSize)
  | .upstream => List.range' (me + 1) (cpSize - (me + 1))

/-- one relation, from the reader's side and from the source's -/
theorem readsFrom_iff_readBy (kind : K3CpWindowKind) {reader source cpSize : ℕ} (hr : reader < cpSize) :
    source ∈ kind.readsFrom reader ↔ reader ∈ kind.readBy source cpSize := by
  cases kind <;> simp only [readsFrom, readBy, List.mem_range'_1] <;> omega

theorem readsFrom_lt {kind : K3CpWindowKind} {reader source : ℕ} (h : source ∈ kind.readsFrom reader) :
    source < reader := by
  cases kind <;> simp only [readsFrom, List.mem_range'_1] at h <;> omega

end K3CpWindowKind

/-- what a window publishes: the conv tail, the KDA packages, the MLA rows -/
inductive Surface
  | normedTail
  | kda
  | mla
deriving DecidableEq, Repr

def Surface.kind : Surface → K3CpWindowKind
  | .normedTail => .halo
  | .kda => .upstream
  | .mla => .upstream

/-- a whale's superstep: its gang in CP order and its windows -/
structure Superstep where
  seq : ℕ
  gang : List ℕ
  nodup : gang.Nodup
  windows : List Surface

structure Window where
  whale : Superstep
  index : ℕ
  surface : Surface

def K3_WHALE_WINDOW_STRIDE : ℕ := 4096

def windowValue (seq window : ℕ) : Except String ℕ :=
  if window + 1 < K3_WHALE_WINDOW_STRIDE then .ok ((seq + 1) * K3_WHALE_WINDOW_STRIDE + window + 1)
  else .error "K3 whale superstep ran past the doorbell stride"

namespace Window

/-- the value `windowValue` gives, where it gives one -/
def value (W : Window) : ℕ := (W.whale.seq + 1) * K3_WHALE_WINDOW_STRIDE + W.index + 1

def cpRank (W : Window) (rank : ℕ) : ℕ := W.whale.gang.idxOf rank

/-- global ranks this rank reads in the window -/
def sources (W : Window) (rank : ℕ) : List ℕ :=
  (W.surface.kind.readsFrom (W.cpRank rank)).filterMap fun source => W.whale.gang[source]?

/-- global ranks that read this rank in the window -/
def readers (W : Window) (rank : ℕ) : List ℕ :=
  (W.surface.kind.readBy (W.cpRank rank) W.whale.gang.length).filterMap fun reader => W.whale.gang[reader]?

/-- earlier whale, or earlier window of the whale -/
def Before (W W' : Window) : Prop :=
  W.whale.seq < W'.whale.seq ∨ W.whale.seq = W'.whale.seq ∧ W.index < W'.index

/-- the stride bounds the window -/
def Short (W : Window) : Prop := W.index + 1 < K3_WHALE_WINDOW_STRIDE

end Window

/-- all windows, whale by whale -/
def allWindows (whales : List Superstep) : List Window :=
  whales.flatMap fun whale => whale.windows.zipIdx.map fun x => ⟨whale, x.2, x.1⟩

/-- the windows a rank runs -/
def agenda (whales : List Superstep) (rank : ℕ) : List Window :=
  (allWindows whales).filter fun W => W.whale.gang.contains rank

/-! ## One rank's stream -/

inductive Instr
  /-- the publication is being written -/
  | tear
  | land
  | ringPublish (reader : ℕ)
  | awaitPublish (source : ℕ)
  | read (source : ℕ)
  | ringConsume (source : ℕ)
  | awaitConsume (reader : ℕ)
deriving DecidableEq, Repr

def Instr.beat : Instr → ℕ
  | .tear => 0
  | .land => 1
  | .ringPublish _ => 2
  | .awaitPublish _ => 3
  | .read _ => 4
  | .ringConsume _ => 5
  | .awaitConsume _ => 6

/-- one `exchange`: the publication, then the four beats -/
def instrs (W : Window) (rank : ℕ) : List Instr :=
  [.tear, .land] ++ (W.readers rank).map .ringPublish ++ (W.sources rank).map .awaitPublish ++
    (W.sources rank).map .read ++ (W.sources rank).map .ringConsume ++ (W.readers rank).map .awaitConsume

/-! ## The gang -/

variable {β : Type}

/-- a peer read, for the record -/
structure Observation (β : Type) where
  reader : ℕ
  source : ℕ
  window : Window
  content : Option β

structure Exchange (β : Type) where
  /-- the window of its agenda a rank is in, and the next instruction there -/
  pos : ℕ → ℕ × ℕ
  /-- the publish inbox of a rank, by sender -/
  publish : ℕ → ℕ → ℕ
  consume : ℕ → ℕ → ℕ
  /-- `none` while it is being written -/
  slab : ℕ → Surface → Option β
  observed : List (Observation β)

namespace Exchange

def start (slab : ℕ → Surface → Option β) : Exchange β := ⟨fun _ => (0, 0), fun _ _ => 0, fun _ _ => 0, slab, []⟩

def advance (s : Exchange β) (rank : ℕ) : Exchange β :=
  { s with pos := Function.update s.pos rank ((s.pos rank).1, (s.pos rank).2 + 1) }

def nextWindow (s : Exchange β) (rank : ℕ) : Exchange β :=
  { s with pos := Function.update s.pos rank ((s.pos rank).1 + 1, 0) }

def setSlab (s : Exchange β) (rank : ℕ) (surface : Surface) (content : Option β) : Exchange β :=
  { s with slab := Function.update s.slab rank (Function.update (s.slab rank) surface content) }

/-- a store to one inbox slot -/
def ring (inbox : ℕ → ℕ → ℕ) (rank sender value : ℕ) : ℕ → ℕ → ℕ :=
  Function.update inbox rank (Function.update (inbox rank) sender value)

/-- an await that is not satisfied stays where it is -/
def exec (bytes : ℕ → Window → β) (s : Exchange β) (rank : ℕ) (W : Window) (doorbell : ℕ) : Instr → Exchange β
  | .tear => (s.setSlab rank W.surface none).advance rank
  | .land => (s.setSlab rank W.surface (some (bytes rank W))).advance rank
  | .ringPublish reader => ({ s with publish := ring s.publish reader rank doorbell } : Exchange β).advance rank
  | .awaitPublish source => if doorbell ≤ s.publish rank source then s.advance rank else s
  | .read source =>
    ({ s with observed := s.observed ++ [⟨rank, source, W, s.slab source W.surface⟩] } : Exchange β).advance rank
  | .ringConsume source => ({ s with consume := ring s.consume source rank doorbell } : Exchange β).advance rank
  | .awaitConsume reader => if doorbell ≤ s.consume rank reader then s.advance rank else s

/-- the next instruction of one rank -/
def step (whales : List Superstep) (bytes : ℕ → Window → β) (s : Exchange β) (rank : ℕ) : Except String (Exchange β) :=
  match (agenda whales rank)[(s.pos rank).1]? with
  | none => .ok s
  | some W =>
    match windowValue W.whale.seq W.index with
    | .error e => .error e
    | .ok doorbell =>
      match (instrs W rank)[(s.pos rank).2]? with
      | none => .ok (s.nextWindow rank)
      | some i => .ok (s.exec bytes rank W doorbell i)

end Exchange

/-! ## Order of windows -/

theorem windowValue_ok {W : Window} {v : ℕ} (h : windowValue W.whale.seq W.index = .ok v) : W.Short ∧ v = W.value := by
  unfold windowValue at h
  split_ifs at h with hshort
  exact ⟨hshort, (Except.ok.inj h).symm⟩

/-- the values grow -/
theorem value_lt {W W' : Window} (hs : W.Short) (h : W.Before W') : W.value < W'.value := by
  unfold Window.Short at hs
  unfold Window.value
  rcases h with hlt | ⟨heq, hlt⟩
  · have hmul : (W.whale.seq + 1 + 1) * K3_WHALE_WINDOW_STRIDE ≤ (W'.whale.seq + 1) * K3_WHALE_WINDOW_STRIDE :=
      Nat.mul_le_mul_right _ (by omega)
    rw [Nat.add_mul (W.whale.seq + 1), Nat.one_mul] at hmul
    omega
  · rw [heq]
    omega

theorem allWindows_before {whales : List Superstep} (h : whales.Pairwise fun a b => a.seq < b.seq) :
    (allWindows whales).Pairwise Window.Before := by
  rw [allWindows, List.pairwise_flatMap]
  refine ⟨fun whale _ => ?_, h.imp fun {a b} hab => ?_⟩
  · rw [List.pairwise_map]
    refine List.Pairwise.imp (R := fun x y => x.2 < y.2) (fun hxy => Or.inr ⟨rfl, hxy⟩) ?_
    rw [← List.pairwise_map (f := Prod.snd), List.zipIdx_map_snd]
    exact List.pairwise_lt_range'
  · intro x hx y hy
    obtain ⟨-, -, rfl⟩ := List.mem_map.1 hx
    obtain ⟨-, -, rfl⟩ := List.mem_map.1 hy
    exact Or.inl hab

theorem agenda_before {whales : List Superstep} (h : whales.Pairwise fun a b => a.seq < b.seq) {rank k k' : ℕ}
    {W W' : Window} (hk : (agenda whales rank)[k]? = some W) (hk' : (agenda whales rank)[k']? = some W') (hlt : k < k') :
    W.Before W' := by
  have hpair : (agenda whales rank).Pairwise Window.Before := (allWindows_before h).filter _
  obtain ⟨hi, rfl⟩ := List.getElem?_eq_some_iff.1 hk
  obtain ⟨hi', rfl⟩ := List.getElem?_eq_some_iff.1 hk'
  exact List.pairwise_iff_getElem.1 hpair k k' hi hi' hlt

/-- a window is on the agenda of every member of its gang -/
theorem agenda_of_member {whales : List Superstep} {rank rank' k : ℕ} {W : Window}
    (hk : (agenda whales rank)[k]? = some W) (hmem : rank' ∈ W.whale.gang) :
    ∃ k' : ℕ, (agenda whales rank')[k']? = some W := by
  have hall := (List.mem_filter.1 (List.mem_of_getElem? hk)).1
  have hagenda : W ∈ agenda whales rank' := List.mem_filter.2 ⟨hall, by simpa using hmem⟩
  exact List.getElem?_of_mem hagenda

theorem agenda_member {whales : List Superstep} {rank k : ℕ} {W : Window} (hk : (agenda whales rank)[k]? = some W) :
    rank ∈ W.whale.gang := by
  simpa using (List.mem_filter.1 (List.mem_of_getElem? hk)).2

/-! ## Readers and sources -/

theorem seat_lt {W : Window} {rank : ℕ} (h : rank ∈ W.whale.gang) : W.cpRank rank < W.whale.gang.length :=
  List.idxOf_lt_length_of_mem h

theorem gang_at {W : Window} {rank i : ℕ} : W.whale.gang[i]? = some rank ↔ rank ∈ W.whale.gang ∧ i = W.cpRank rank := by
  constructor
  · intro h
    obtain ⟨hi, rfl⟩ := List.getElem?_eq_some_iff.1 h
    exact ⟨List.getElem_mem hi, (W.whale.nodup.idxOf_getElem i hi).symm⟩
  · rintro ⟨hmem, rfl⟩
    rw [Window.cpRank, List.getElem?_eq_getElem (List.idxOf_lt_length_of_mem hmem), List.getElem_idxOf]

theorem mem_sources {W : Window} {rank source : ℕ} :
    source ∈ W.sources rank ↔ source ∈ W.whale.gang ∧ W.cpRank source ∈ W.surface.kind.readsFrom (W.cpRank rank) := by
  simp only [Window.sources, List.mem_filterMap, gang_at]
  constructor
  · rintro ⟨i, hi, hmem, rfl⟩
    exact ⟨hmem, hi⟩
  · rintro ⟨hmem, hi⟩
    exact ⟨_, hi, hmem, rfl⟩

theorem mem_readers {W : Window} {rank reader : ℕ} :
    reader ∈ W.readers rank ↔
      reader ∈ W.whale.gang ∧ W.cpRank reader ∈ W.surface.kind.readBy (W.cpRank rank) W.whale.gang.length := by
  simp only [Window.readers, List.mem_filterMap, gang_at]
  constructor
  · rintro ⟨i, hi, hmem, rfl⟩
    exact ⟨hmem, hi⟩
  · rintro ⟨hmem, hi⟩
    exact ⟨_, hi, hmem, rfl⟩

/-- a rank's sources have it as a reader -/
theorem source_iff_reader {W : Window} {reader source : ℕ} (hr : reader ∈ W.whale.gang) (hs : source ∈ W.whale.gang) :
    source ∈ W.sources reader ↔ reader ∈ W.readers source := by
  rw [mem_sources, mem_readers, W.surface.kind.readsFrom_iff_readBy (seat_lt hr)]
  exact ⟨fun h => ⟨hr, h.2⟩, fun h => ⟨hs, h.2⟩⟩

theorem mem_instrs {W : Window} {rank : ℕ} {i : Instr} : i ∈ instrs W rank ↔
    match i with
    | .tear | .land => True
    | .ringPublish q | .awaitConsume q => q ∈ W.readers rank
    | .awaitPublish q | .read q | .ringConsume q => q ∈ W.sources rank := by
  cases i <;> simp [instrs]

theorem beats_sorted (W : Window) (rank : ℕ) : (instrs W rank).Pairwise fun a b => a.beat ≤ b.beat := by
  have hconst : ∀ (l : List ℕ) (f : ℕ → Instr) (n : ℕ), (∀ q, (f q).beat = n) →
      (l.map f).Pairwise fun a b => a.beat ≤ b.beat := by
    intro l f n hf
    rw [List.pairwise_map]
    exact List.pairwise_of_forall fun a b => by rw [hf, hf]
  simp only [instrs, List.pairwise_append]
  refine ⟨⟨⟨⟨⟨by simp [Instr.beat], hconst _ _ 2 fun _ => rfl, ?_⟩, hconst _ _ 3 fun _ => rfl, ?_⟩,
    hconst _ _ 4 fun _ => rfl, ?_⟩, hconst _ _ 5 fun _ => rfl, ?_⟩, hconst _ _ 6 fun _ => rfl, ?_⟩
  all_goals
    intro a ha b hb
    obtain ⟨q, -, rfl⟩ := List.mem_map.1 hb
    simp only [List.mem_append, List.mem_map, List.mem_cons, List.not_mem_nil, or_false] at ha
    grind [Instr.beat]

/-- what comes first in the order of beats comes first in the stream -/
theorem lt_of_beat_lt {W : Window} {rank j j' : ℕ} {i i' : Instr} (h : (instrs W rank)[j]? = some i)
    (h' : (instrs W rank)[j']? = some i') (hlt : i.beat < i'.beat) : j < j' := by
  obtain ⟨hj, rfl⟩ := List.getElem?_eq_some_iff.1 h
  obtain ⟨hj', rfl⟩ := List.getElem?_eq_some_iff.1 h'
  by_contra hge
  rcases Nat.lt_or_eq_of_le (not_lt.1 hge) with hlt' | rfl
  · have := List.pairwise_iff_getElem.1 (beats_sorted W rank) j' j hj' hj hlt'
    omega
  · omega

/-! ## What was performed -/

namespace Exchange

variable {whales : List Superstep} {bytes : ℕ → Window → β}

/-- the rank is past instruction `j` of window `k` of its agenda -/
def Done (s : Exchange β) (rank k j : ℕ) : Prop := k < (s.pos rank).1 ∨ k = (s.pos rank).1 ∧ j < (s.pos rank).2

/-- the rank has performed the instruction in the window -/
def Performed (whales : List Superstep) (s : Exchange β) (rank : ℕ) (W : Window) (i : Instr) : Prop :=
  ∃ k j : ℕ, (agenda whales rank)[k]? = some W ∧ (instrs W rank)[j]? = some i ∧ s.Done rank k j

/-- past a window: all of it is performed -/
theorem performed_of_lt {s : Exchange β} {rank k : ℕ} {W : Window} {i : Instr} (hk : (agenda whales rank)[k]? = some W)
    (hlt : k < (s.pos rank).1) (hi : i ∈ instrs W rank) : s.Performed whales rank W i := by
  obtain ⟨j, hj⟩ := List.getElem?_of_mem hi
  exact ⟨k, j, hk, hj, Or.inl hlt⟩

/-- in one window, earlier beats are performed first -/
theorem Performed.beat {s : Exchange β} {rank : ℕ} {W : Window} {i i' : Instr} (h : s.Performed whales rank W i')
    (hi : i ∈ instrs W rank) (hlt : i.beat < i'.beat) : s.Performed whales rank W i := by
  obtain ⟨k, j', hk, hj', hdone⟩ := h
  obtain ⟨j, hj⟩ := List.getElem?_of_mem hi
  have hjj := lt_of_beat_lt hj hj' hlt
  refine ⟨k, j, hk, hj, ?_⟩
  rcases hdone with hd | ⟨hd, hlt'⟩
  · exact Or.inl hd
  · exact Or.inr ⟨hd, by omega⟩

/-- performing the next instruction -/
theorem performed_advance {s s' : Exchange β} {rank : ℕ} {W : Window} {i : Instr}
    (hk : (agenda whales rank)[(s.pos rank).1]? = some W) (hj : (instrs W rank)[(s.pos rank).2]? = some i)
    (hpos : s'.pos = Function.update s.pos rank ((s.pos rank).1, (s.pos rank).2 + 1)) {r : ℕ} {V : Window} {a : Instr} :
    s'.Performed whales r V a ↔ s.Performed whales r V a ∨ (r = rank ∧ V = W ∧ a = i) := by
  by_cases hr : r = rank
  · subst hr
    constructor
    · rintro ⟨k, j, hk', hj', hdone⟩
      simp only [Done, hpos, Function.update_self] at hdone
      rcases hdone with hd | ⟨rfl, hd⟩
      · exact Or.inl ⟨k, j, hk', hj', Or.inl hd⟩
      · obtain rfl := Option.some.inj (hk'.symm.trans hk)
        rcases Nat.lt_or_eq_of_le (Nat.lt_succ_iff.1 hd) with hlt | rfl
        · exact Or.inl ⟨_, j, hk', hj', Or.inr ⟨rfl, hlt⟩⟩
        · exact Or.inr ⟨rfl, rfl, Option.some.inj (hj'.symm.trans hj)⟩
    · rintro (⟨k, j, hk', hj', hdone⟩ | ⟨-, rfl, rfl⟩)
      · refine ⟨k, j, hk', hj', ?_⟩
        simp only [Done, hpos, Function.update_self]
        rcases hdone with hd | ⟨hd, hlt⟩
        · exact Or.inl hd
        · exact Or.inr ⟨hd, by omega⟩
      · refine ⟨_, _, hk, hj, Or.inr ?_⟩
        simp [hpos]
  · have hsame : ∀ k j, s'.Done r k j ↔ s.Done r k j := by
      intro k j
      simp only [Done, hpos, Function.update_of_ne hr]
    simp only [Performed, hsame, hr, false_and, or_false]

/-- going on to the next window performs nothing -/
theorem performed_nextWindow {s : Exchange β} {rank : ℕ} {W : Window}
    (hk : (agenda whales rank)[(s.pos rank).1]? = some W) (hj : (instrs W rank)[(s.pos rank).2]? = none) {r : ℕ}
    {V : Window} {a : Instr} : (s.nextWindow rank).Performed whales r V a ↔ s.Performed whales r V a := by
  by_cases hr : r = rank
  · subst hr
    constructor
    · rintro ⟨k, j, hk', hj', hdone⟩
      refine ⟨k, j, hk', hj', ?_⟩
      simp only [Done, nextWindow, Function.update_self, Nat.not_lt_zero, and_false, or_false] at hdone
      rcases Nat.lt_or_eq_of_le (Nat.lt_succ_iff.1 hdone) with hlt | rfl
      · exact Or.inl hlt
      · obtain rfl := Option.some.inj (hk'.symm.trans hk)
        have hend := List.getElem?_eq_none_iff.1 hj
        have hin := (List.getElem?_eq_some_iff.1 hj').1
        exact Or.inr ⟨rfl, by omega⟩
    · rintro ⟨k, j, hk', hj', hdone⟩
      refine ⟨k, j, hk', hj', Or.inl ?_⟩
      simp only [nextWindow, Function.update_self]
      rcases hdone with hd | ⟨hd, -⟩ <;> omega
  · have hsame : ∀ k j, (s.nextWindow rank).Done r k j ↔ s.Done r k j := by
      intro k j
      simp only [Done, nextWindow, Function.update_of_ne hr]
    simp only [Performed, hsame]

/-- what a rank has performed lies before the window it is in, or in it -/
theorem performed_window (hseq : whales.Pairwise fun a b => a.seq < b.seq) {s : Exchange β} {rank : ℕ} {W V : Window}
    {a : Instr} (hk : (agenda whales rank)[(s.pos rank).1]? = some W) (h : s.Performed whales rank V a) :
    V = W ∨ V.Before W := by
  obtain ⟨k, j, hk', -, hdone⟩ := h
  rcases hdone with hlt | ⟨rfl, -⟩
  · exact Or.inr (agenda_before hseq hk' hk hlt)
  · exact Or.inl (Option.some.inj (hk'.symm.trans hk))

/-! ## Flags -/

/-- an inbox holds the last value rung -/
structure Rung (whales : List Superstep) (s : Exchange β) (inbox : ℕ → ℕ → ℕ) (bell : ℕ → Instr) : Prop where
  rung : ∀ q r, inbox q r = 0 ∨ ∃ W, s.Performed whales r W (bell q) ∧ inbox q r = W.value
  max : ∀ q r W, s.Performed whales r W (bell q) → W.value ≤ inbox q r

/-- what was waited for has been rung -/
def Heard (whales : List Superstep) (s : Exchange β) (wait bell : ℕ → Instr) : Prop :=
  ∀ m q W, s.Performed whales m W (wait q) → ∃ W', s.Performed whales q W' (bell m) ∧ W.value ≤ W'.value

section Flags

variable {s s' : Exchange β} {rank : ℕ} {W : Window} {i : Instr} {inbox : ℕ → ℕ → ℕ} {bell wait : ℕ → Instr}

theorem Rung.other (h : Rung whales s inbox bell)
    (hperf : ∀ r V a, s'.Performed whales r V a ↔ s.Performed whales r V a ∨ (r = rank ∧ V = W ∧ a = i))
    (hi : ∀ q, bell q ≠ i) : Rung whales s' inbox bell := by
  refine ⟨fun q r => (h.rung q r).imp_right ?_, fun q r V hV => ?_⟩
  · rintro ⟨V, hV, hval⟩
    exact ⟨V, (hperf r V _).2 (Or.inl hV), hval⟩
  · rcases (hperf r V _).1 hV with hV | ⟨-, -, heq⟩
    · exact h.max q r V hV
    · exact absurd heq (hi q)

/-- a ring in the current window is above all rung before -/
theorem Rung.ring (hseq : whales.Pairwise fun a b => a.seq < b.seq) (h : Rung whales s inbox bell)
    (hshort : ∀ r V a, s.Performed whales r V a → V.Short) (hk : (agenda whales rank)[(s.pos rank).1]? = some W) {q₀ : ℕ}
    (hperf : ∀ r V a, s'.Performed whales r V a ↔ s.Performed whales r V a ∨ (r = rank ∧ V = W ∧ a = bell q₀))
    (hbell : Function.Injective bell) : Rung whales s' (Exchange.ring inbox q₀ rank W.value) bell := by
  have hvalue : ∀ q r, Exchange.ring inbox q₀ rank W.value q r = if q = q₀ ∧ r = rank then W.value else inbox q r := by
    intro q r
    unfold Exchange.ring
    by_cases hq : q = q₀
    · subst hq
      by_cases hr : r = rank
      · subst hr
        simp
      · simp [hr]
    · simp [hq]
  refine ⟨fun q r => ?_, fun q r V hV => ?_⟩
  · rw [hvalue]
    split_ifs with hqr
    · obtain ⟨rfl, rfl⟩ := hqr
      exact Or.inr ⟨W, (hperf r W _).2 (Or.inr ⟨rfl, rfl, rfl⟩), rfl⟩
    · refine (h.rung q r).imp_right ?_
      rintro ⟨V, hV, hval⟩
      exact ⟨V, (hperf r V _).2 (Or.inl hV), hval⟩
  · rw [hvalue]
    split_ifs with hqr
    · obtain ⟨rfl, rfl⟩ := hqr
      rcases (hperf r V _).1 hV with hV | ⟨-, rfl, -⟩
      · rcases performed_window hseq hk hV with rfl | hbefore
        · exact le_rfl
        · exact (value_lt (hshort r V _ hV) hbefore).le
      · exact le_rfl
    · rcases (hperf r V _).1 hV with hV | ⟨rfl, rfl, heq⟩
      · exact h.max q r V hV
      · exact absurd ⟨hbell heq, rfl⟩ hqr

theorem Heard.other (h : Heard whales s wait bell)
    (hperf : ∀ r V a, s'.Performed whales r V a ↔ s.Performed whales r V a ∨ (r = rank ∧ V = W ∧ a = i))
    (hi : ∀ q, wait q ≠ i) : Heard whales s' wait bell := by
  intro m q V hV
  rcases (hperf m V _).1 hV with hV | ⟨-, -, heq⟩
  · obtain ⟨W', hW', hle⟩ := h m q V hV
    exact ⟨W', (hperf q W' _).2 (Or.inl hW'), hle⟩
  · exact absurd heq (hi q)

/-- a wait that was satisfied -/
theorem Heard.await (h : Heard whales s wait bell) (hr : Rung whales s inbox bell) {q₀ : ℕ}
    (hperf : ∀ r V a, s'.Performed whales r V a ↔ s.Performed whales r V a ∨ (r = rank ∧ V = W ∧ a = wait q₀))
    (hwait : Function.Injective wait) (hval : W.value ≤ inbox rank q₀) : Heard whales s' wait bell := by
  intro m q V hV
  rcases (hperf m V _).1 hV with hV | ⟨rfl, rfl, heq⟩
  · obtain ⟨W', hW', hle⟩ := h m q V hV
    exact ⟨W', (hperf q W' _).2 (Or.inl hW'), hle⟩
  · obtain rfl := hwait heq
    rcases hr.rung m q with hzero | ⟨W', hW', hinbox⟩
    · have hpos : 0 < V.value := by
        unfold Window.value
        omega
      omega
    · refine ⟨W', (hperf q W' _).2 (Or.inl hW'), ?_⟩
      rw [← hinbox]
      exact hval

end Flags

/-! ## The invariant -/

structure Inv (whales : List Superstep) (bytes : ℕ → Window → β) (s : Exchange β) : Prop where
  short : ∀ r W i, s.Performed whales r W i → W.Short
  published : Rung whales s s.publish .ringPublish
  consumed : Rung whales s s.consume .ringConsume
  publish_heard : Heard whales s .awaitPublish .ringPublish
  consume_heard : Heard whales s .awaitConsume .ringConsume
  /-- past the write of its window's publication, a rank's slab holds it -/
  landed : ∀ r W, (agenda whales r)[(s.pos r).1]? = some W → 2 ≤ (s.pos r).2 → s.slab r W.surface = some (bytes r W)
  recorded : ∀ m q W, s.Performed whales m W (.read q) → ∃ o ∈ s.observed, o.reader = m ∧ o.source = q ∧ o.window = W
  right : ∀ o ∈ s.observed, o.content = some (bytes o.source o.window)

theorem land_at (W : Window) (rank : ℕ) : (instrs W rank)[1]? = some .land := by simp [instrs]

/-- a reader that has not acknowledged keeps its source from leaving the window -/
theorem source_not_past (hseq : whales.Pairwise fun a b => a.seq < b.seq) {s : Exchange β} (h : Inv whales bytes s)
    {m q kq : ℕ} {W : Window} (hk : (agenda whales m)[(s.pos m).1]? = some W)
    (hj : (instrs W m)[(s.pos m).2]? = some (.read q)) (hq : (agenda whales q)[kq]? = some W) :
    ¬ kq < (s.pos q).1 := by
  intro hlt
  have hsource : q ∈ W.sources m := mem_instrs.1 (List.mem_of_getElem? hj)
  have hreader : m ∈ W.readers q := (source_iff_reader (agenda_member hk) (agenda_member hq)).1 hsource
  have hwaited : s.Performed whales q W (.awaitConsume m) := performed_of_lt hq hlt (mem_instrs.2 hreader)
  obtain ⟨V, hV, hle⟩ := h.consume_heard q m W hwaited
  rcases performed_window hseq hk hV with rfl | hbefore
  · -- the acknowledgement comes after the read in the reader's stream
    obtain ⟨k, j, hk', hj', hdone⟩ := hV
    rcases hdone with hlt' | ⟨rfl, hlt'⟩
    · have := value_lt (h.short q V _ hwaited) (agenda_before hseq hk' hk hlt')
      omega
    · have := lt_of_beat_lt hj hj' (by simp [Instr.beat])
      omega
  · have := value_lt (h.short m V _ hV) hbefore
    omega

/-- **In step.** While a reader reads a source, the source is in the same window, its publication written. -/
theorem source_in_window (hseq : whales.Pairwise fun a b => a.seq < b.seq) {s : Exchange β} (h : Inv whales bytes s)
    {m q : ℕ} {W : Window} (hk : (agenda whales m)[(s.pos m).1]? = some W)
    (hj : (instrs W m)[(s.pos m).2]? = some (.read q)) :
    (agenda whales q)[(s.pos q).1]? = some W ∧ 2 ≤ (s.pos q).2 := by
  have hsource : q ∈ W.sources m := mem_instrs.1 (List.mem_of_getElem? hj)
  obtain ⟨kq, hq⟩ := agenda_of_member hk (mem_sources.1 hsource).1
  have hpast := source_not_past hseq h hk hj hq
  have hwaited : s.Performed whales m W (.awaitPublish q) := by
    obtain ⟨j₀, hj₀⟩ := List.getElem?_of_mem (mem_instrs.2 hsource : Instr.awaitPublish q ∈ instrs W m)
    exact ⟨_, j₀, hk, hj₀, Or.inr ⟨rfl, lt_of_beat_lt hj₀ hj (by simp [Instr.beat])⟩⟩
  obtain ⟨V, hV, hle⟩ := h.publish_heard m q W hwaited
  have hshort := h.short q V _ hV
  obtain ⟨k, j, hkV, hjV, hdone⟩ := hV
  have hkq : kq ≤ k := by
    by_contra hlt
    have := value_lt hshort (agenda_before hseq hkV hq (not_le.1 hlt))
    omega
  rcases hdone with hlt | ⟨rfl, hlt⟩
  · omega
  · obtain rfl : kq = (s.pos q).1 := by omega
    obtain rfl := Option.some.inj (hkV.symm.trans hq)
    have := lt_of_beat_lt (land_at V q) hjV (by simp [Instr.beat])
    exact ⟨hq, by omega⟩

theorem start_inv (slab : ℕ → Surface → Option β) : Inv whales bytes (start slab) := by
  have hnone : ∀ r W i, ¬ (start slab).Performed whales r W i := by
    rintro r W i ⟨k, j, -, -, hdone⟩
    simp [Done, start] at hdone
  refine ⟨fun r W i h => absurd h (hnone r W i), ⟨fun _ _ => Or.inl rfl, fun q r W h => absurd h (hnone r W _)⟩,
    ⟨fun _ _ => Or.inl rfl, fun q r W h => absurd h (hnone r W _)⟩, fun m q W h => absurd h (hnone m W _),
    fun m q W h => absurd h (hnone m W _), fun r W _ h => ?_, fun m q W h => absurd h (hnone m W _), ?_⟩
  · simp [start] at h
  · simp [start]

/-- one instruction performed -/
theorem exec_inv {s s' : Exchange β} {rank : ℕ} {W : Window} {i : Instr}
    (h : Inv whales bytes s) (hk : (agenda whales rank)[(s.pos rank).1]? = some W) (hW : W.Short)
    (hj : (instrs W rank)[(s.pos rank).2]? = some i)
    (hpos : s'.pos = Function.update s.pos rank ((s.pos rank).1, (s.pos rank).2 + 1))
    (hpublish : Rung whales s' s'.publish .ringPublish) (hconsume : Rung whales s' s'.consume .ringConsume)
    (hheard : Heard whales s' .awaitPublish .ringPublish) (hheard' : Heard whales s' .awaitConsume .ringConsume)
    (hother : ∀ r, r ≠ rank → s'.slab r = s.slab r)
    (hown : 2 ≤ (s.pos rank).2 + 1 → s'.slab rank W.surface = some (bytes rank W))
    (hread : s.observed ⊆ s'.observed)
    (hreads : ∀ q, i = .read q → ∃ o ∈ s'.observed, o.reader = rank ∧ o.source = q ∧ o.window = W)
    (hright : ∀ o ∈ s'.observed, o.content = some (bytes o.source o.window)) : Inv whales bytes s' := by
  have hperf := fun r V a => performed_advance (r := r) (V := V) (a := a) hk hj hpos
  refine ⟨fun r V a hV => ?_, hpublish, hconsume, hheard, hheard', fun r V hV h2 => ?_, fun m q V hV => ?_, hright⟩
  · rcases (hperf r V a).1 hV with hV | ⟨-, rfl, -⟩
    · exact h.short r V a hV
    · exact hW
  · by_cases hr : r = rank
    · subst hr
      simp only [hpos, Function.update_self] at hV h2
      obtain rfl := Option.some.inj (hV.symm.trans hk)
      exact hown h2
    · simp only [hpos, Function.update_of_ne hr] at hV h2
      rw [hother r hr]
      exact h.landed r V hV h2
  · rcases (hperf m V _).1 hV with hV | ⟨rfl, rfl, hi⟩
    · obtain ⟨o, ho, heq⟩ := h.recorded m q V hV
      exact ⟨o, hread ho, heq⟩
    · exact hreads q hi.symm

/-- past the write, the slab holds the publication before and after an instruction that does not write -/
theorem own_slab {s : Exchange β} {rank : ℕ} {W : Window} {i : Instr} (h : Inv whales bytes s)
    (hk : (agenda whales rank)[(s.pos rank).1]? = some W) (hj : (instrs W rank)[(s.pos rank).2]? = some i)
    (hi : 1 < i.beat) : s.slab rank W.surface = some (bytes rank W) := by
  have := lt_of_beat_lt (land_at W rank) hj hi
  exact h.landed rank W hk (by omega)

/-- **A step.** -/
theorem step_inv (hseq : whales.Pairwise fun a b => a.seq < b.seq) {s s' : Exchange β} {rank : ℕ}
    (h : Inv whales bytes s) (hs : s.step whales bytes rank = .ok s') : Inv whales bytes s' := by
  unfold step at hs
  split at hs
  · cases hs
    exact h
  rename_i W hk
  split at hs
  · cases hs
  rename_i doorbell hvalue
  obtain ⟨hW, rfl⟩ := windowValue_ok hvalue
  split at hs
  · -- the next window: nothing is performed, nothing is written yet
    rename_i hend
    cases hs
    have hperf := fun r V a => performed_nextWindow (r := r) (V := V) (a := a) hk hend
    refine ⟨fun r V a hV => h.short r V a ((hperf r V a).1 hV), ⟨?_, ?_⟩, ⟨?_, ?_⟩, ?_, ?_, ?_, ?_, h.right⟩
    · simp only [hperf]
      exact h.published.rung
    · simp only [hperf]
      exact h.published.max
    · simp only [hperf]
      exact h.consumed.rung
    · simp only [hperf]
      exact h.consumed.max
    · simpa only [Heard, hperf] using h.publish_heard
    · simpa only [Heard, hperf] using h.consume_heard
    · intro r V hV h2
      by_cases hr : r = rank
      · subst hr
        simp [nextWindow] at h2
      · simp only [nextWindow, Function.update_of_ne hr] at hV h2
        exact h.landed r V hV h2
    · simp only [hperf]
      exact h.recorded
  · rename_i i hj
    cases hs
    have hslab := fun hi => own_slab h hk hj hi
    have hperf : ∀ s' : Exchange β, s'.pos = Function.update s.pos rank ((s.pos rank).1, (s.pos rank).2 + 1) →
        ∀ r V a, s'.Performed whales r V a ↔ s.Performed whales r V a ∨ (r = rank ∧ V = W ∧ a = i) :=
      fun s' hpos r V a => performed_advance hk hj hpos
    cases i with
    | tear =>
      have hp := hperf ((s.setSlab rank W.surface none).advance rank) rfl
      have hzero := lt_of_beat_lt hj (land_at W rank) (by simp [Instr.beat])
      refine exec_inv h hk hW hj rfl (h.published.other hp (by simp)) (h.consumed.other hp (by simp))
        (h.publish_heard.other hp (by simp)) (h.consume_heard.other hp (by simp)) (fun r hr => ?_) (fun h2 => ?_)
        (List.Subset.refl _) (by simp) h.right
      · simp [exec, advance, setSlab, hr]
      · omega
    | land =>
      have hp := hperf ((s.setSlab rank W.surface (some (bytes rank W))).advance rank) rfl
      refine exec_inv h hk hW hj rfl (h.published.other hp (by simp)) (h.consumed.other hp (by simp))
        (h.publish_heard.other hp (by simp)) (h.consume_heard.other hp (by simp)) (fun r hr => ?_) (fun _ => ?_)
        (List.Subset.refl _) (by simp) h.right
      · simp [exec, advance, setSlab, hr]
      · simp [exec, advance, setSlab]
    | ringPublish reader =>
      have hp := hperf (advance { s with publish := ring s.publish reader rank W.value } rank) rfl
      exact exec_inv h hk hW hj rfl (h.published.ring hseq h.short hk hp fun _ _ heq => Instr.ringPublish.inj heq)
        (h.consumed.other hp (by simp)) (h.publish_heard.other hp (by simp)) (h.consume_heard.other hp (by simp))
        (fun r _ => rfl) (fun _ => hslab (by simp [Instr.beat])) (List.Subset.refl _) (by simp) h.right
    | awaitPublish source =>
      simp only [exec]
      split_ifs with hval
      · have hp := hperf (s.advance rank) rfl
        exact exec_inv h hk hW hj rfl (h.published.other hp (by simp)) (h.consumed.other hp (by simp))
          (h.publish_heard.await h.published hp (fun _ _ heq => Instr.awaitPublish.inj heq) hval)
          (h.consume_heard.other hp (by simp)) (fun r _ => rfl) (fun _ => hslab (by simp [Instr.beat]))
          (List.Subset.refl _) (by simp) h.right
      · exact h
    | read source =>
      have hp := hperf (advance { s with
        observed := s.observed ++ [⟨rank, source, W, s.slab source W.surface⟩] } rank) rfl
      obtain ⟨hin, h2⟩ := source_in_window hseq h hk hj
      refine exec_inv h hk hW hj rfl (h.published.other hp (by simp)) (h.consumed.other hp (by simp))
        (h.publish_heard.other hp (by simp)) (h.consume_heard.other hp (by simp)) (fun r _ => rfl)
        (fun _ => hslab (by simp [Instr.beat])) (List.subset_append_left _ _) (fun q hq => ?_) (fun o ho => ?_)
      · exact ⟨⟨rank, source, W, s.slab source W.surface⟩, List.mem_append_right _ List.mem_cons_self, rfl,
          Instr.read.inj hq, rfl⟩
      · rcases List.mem_append.1 ho with ho | ho
        · exact h.right o ho
        · rw [List.mem_singleton.1 ho]
          exact h.landed source W hin h2
    | ringConsume source =>
      have hp := hperf (advance { s with consume := ring s.consume source rank W.value } rank) rfl
      exact exec_inv h hk hW hj rfl (h.published.other hp (by simp))
        (h.consumed.ring hseq h.short hk hp fun _ _ heq => Instr.ringConsume.inj heq)
        (h.publish_heard.other hp (by simp)) (h.consume_heard.other hp (by simp))
        (fun r _ => rfl) (fun _ => hslab (by simp [Instr.beat])) (List.Subset.refl _) (by simp) h.right
    | awaitConsume reader =>
      simp only [exec]
      split_ifs with hval
      · have hp := hperf (s.advance rank) rfl
        exact exec_inv h hk hW hj rfl (h.published.other hp (by simp)) (h.consumed.other hp (by simp))
          (h.publish_heard.other hp (by simp))
          (h.consume_heard.await h.consumed hp (fun _ _ heq => Instr.awaitConsume.inj heq) hval)
          (fun r _ => rfl) (fun _ => hslab (by simp [Instr.beat])) (List.Subset.refl _) (by simp) h.right
      · exact h

theorem run_inv (hseq : whales.Pairwise fun a b => a.seq < b.seq) (slab : ℕ → Surface → Option β) {ops : List ℕ}
    {s : Exchange β} (hr : run (step whales bytes) (start slab) ops = .ok s) : Inv whales bytes s := by
  refine run_invariant (I := fun _ s => Inv whales bytes s) _ (start_inv slab) ?_ ops s (stepsMeet_true _ ops) hr
  intro _ s o s' h _ hs
  exact step_inv hseq h hs

/-- a source that has left a window was acknowledged by every reader, after its read -/
theorem acknowledged (hseq : whales.Pairwise fun a b => a.seq < b.seq) {s : Exchange β} (h : Inv whales bytes s)
    {source reader k : ℕ} {W : Window} (hk : (agenda whales source)[k]? = some W) (hlt : k < (s.pos source).1)
    (hreader : reader ∈ W.readers source) :
    W.value ≤ s.consume source reader ∧ s.Performed whales reader W (.read source) := by
  have hwaited : s.Performed whales source W (.awaitConsume reader) := performed_of_lt hk hlt (mem_instrs.2 hreader)
  obtain ⟨V, hV, hle⟩ := h.consume_heard source reader W hwaited
  refine ⟨hle.trans (h.consumed.max source reader V hV), ?_⟩
  have hmember := (mem_readers.1 hreader).1
  have hread : Instr.read source ∈ instrs W reader :=
    mem_instrs.2 ((source_iff_reader hmember (agenda_member hk)).2 hreader)
  obtain ⟨k', hk'⟩ := agenda_of_member hk hmember
  obtain ⟨kV, j, hkV, hj, hdone⟩ := hV
  rcases Nat.lt_trichotomy k' kV with hbefore | rfl | hafter
  · refine performed_of_lt hk' ?_ hread
    rcases hdone with hd | ⟨hd, -⟩ <;> omega
  · obtain rfl := Option.some.inj (hkV.symm.trans hk')
    exact Performed.beat ⟨k', j, hkV, hj, hdone⟩ hread (by simp [Instr.beat])
  · have := value_lt (h.short reader V _ ⟨kV, j, hkV, hj, hdone⟩) (agenda_before hseq hkV hk' hafter)
    omega

end Exchange

/-! ## Main result -/

/-- reads are right, and a window's publication stands until it is read -/
structure WindowsSafe (whales : List Superstep) (bytes : ℕ → Window → β) (s : Exchange β) : Prop where
  /-- a read sees what its source published for the same whale and window -/
  reads : ∀ o ∈ s.observed, o.content = some (bytes o.source o.window)
  /-- when a source goes on to its next window, where it writes again, each reader has read and acknowledged -/
  acknowledged : ∀ source k W, (agenda whales source)[k]? = some W → k < (s.pos source).1 →
    ∀ reader ∈ W.readers source, W.value ≤ s.consume source reader ∧
      ∃ o ∈ s.observed, o.reader = reader ∧ o.source = source ∧ o.window = W
  /-- and in its window the publication, once written, stays -/
  stands : ∀ source W, (agenda whales source)[(s.pos source).1]? = some W → 2 ≤ (s.pos source).2 →
    s.slab source W.surface = some (bytes source W)

/-- **Exchange windows.** For whales of growing sequence numbers, whatever their gangs and windows, and every interleaving
of the ranks' streams: `WindowsSafe` in every state. The reader and source relations are converses for every gang width,
and the doorbell value grows strictly with the whale's sequence number and the window. -/
theorem exchange_windows_safe (whales : List Superstep) (bytes : ℕ → Window → β) (slab : ℕ → Surface → Option β)
    (ops : List ℕ) (s : Exchange β) (hseq : whales.Pairwise fun a b => a.seq < b.seq)
    (hr : run (Exchange.step whales bytes) (.start slab) ops = .ok s) :
    WindowsSafe whales bytes s ∧
    (∀ (kind : K3CpWindowKind) (cpSize reader source : ℕ), reader < cpSize → source < cpSize →
      (source ∈ kind.readsFrom reader ↔ reader ∈ kind.readBy source cpSize)) ∧
    (∀ seq window seq' window' v v', windowValue seq window = .ok v → windowValue seq' window' = .ok v' →
      (v < v' ↔ seq < seq' ∨ seq = seq' ∧ window < window')) := by
  have h := Exchange.run_inv hseq slab hr
  refine ⟨⟨h.right, fun source k W hk hlt reader hreader => ?_, h.landed⟩, fun kind cpSize reader source hreader _ =>
    kind.readsFrom_iff_readBy hreader, fun seq window seq' window' v v' hv hv' => ?_⟩
  · obtain ⟨hval, hread⟩ := Exchange.acknowledged hseq h hk hlt hreader
    exact ⟨hval, h.recorded reader source W hread⟩
  · unfold windowValue at hv hv'
    split_ifs at hv hv' with hshort hshort'
    obtain rfl := Except.ok.inj hv
    obtain rfl := Except.ok.inj hv'
    unfold K3_WHALE_WINDOW_STRIDE at *
    omega

/-- two whales whose gangs seat ranks 0 and 1 in opposite order -/
def rotatingPair : List Superstep :=
  [⟨0, [0, 1], by decide, [.normedTail]⟩, ⟨3, [1, 0], by decide, [.kda]⟩]

/-- rank 1 waits, then rank 0 publishes; rank 0 waits for the read; in the second whale rank 0 reads -/
def rotatingRun : List ℕ := [1, 1, 1, 0, 0, 0, 1, 0, 1, 1, 1, 0, 0, 1, 1, 1, 0, 0, 0, 0, 0, 1, 1]

theorem exchange_windows_safe_rotating :
    ∃ s, run (Exchange.step rotatingPair fun rank W => (rank, W.whale.seq)) (.start fun _ _ => none) rotatingRun = .ok s ∧
      s.observed.map (fun o => (o.reader, o.source, o.content)) = [(1, 0, some (0, 0)), (0, 1, some (1, 3))] ∧
      WindowsSafe rotatingPair (fun rank W => (rank, W.whale.seq)) s :=
  ⟨_, rfl, rfl, (exchange_windows_safe rotatingPair (fun rank W => (rank, W.whale.seq)) (fun _ _ => none) rotatingRun _
    (by decide) rfl).1⟩

/-- the publish and the consume doorbells of one window ring the same value, in different inboxes -/
theorem beats_share_value :
    ∃ s, run (Exchange.step rotatingPair fun rank W => (rank, W.whale.seq)) (.start fun _ _ => none)
        [1, 1, 0, 0, 0, 1, 1, 1] = .ok s ∧ s.publish 1 0 = 4097 ∧ s.consume 0 1 = 4097 :=
  ⟨_, rfl, rfl, rfl⟩

end Pegainfer.K3
