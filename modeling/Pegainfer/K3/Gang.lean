/-
The CP prefill gang: partitions that step freely agree on one step count at which all of them enter the same job.

A job board under a lock, and one discipline: a member posts its step count, and unless every member has checked in and
its own count is the highest entry, it promises one more step, drops the lock and pumps that step. A pass of the model is
everything one partition does under one hold of the lock. The step count is free between jobs and during `prefill_cp`.
- `Inv`: what holds between passes. Once somebody has entered a job, every entry of the job is at most that count.
- `gang_levels`: no lookup fails, all partitions enter a job at one count with ranks a permutation ending at the poster,
  and each partition enters the jobs in posting order, each once.
-/
import Mathlib.Tactic
import Pegainfer.Lib.Machine

namespace Pegainfer.K3

open Pegainfer.Lib

/-! ## Model -/

/-- one posted prefill; `entries` are the counts checked in, `executed` the partitions that have run it -/
structure GangJob where
  id : ℕ
  prompt : List ℕ
  poster : ℕ
  slot : ℕ
  entries : List (Option ℕ)
  executed : List Bool
deriving DecidableEq, Repr

/-- pending jobs in posting order -/
structure GangBoard where
  nextId : ℕ
  jobs : List GangJob
deriving DecidableEq, Repr

def GangBoard.empty : GangBoard := ⟨0, []⟩

/-- edit the entry of a job; ids are unique -/
def GangBoard.jobMut (board : GangBoard) (id : ℕ) (f : GangJob → GangJob) : Except String GangBoard :=
  if board.jobs.any fun job => job.id == id then
    .ok { board with jobs := board.jobs.map fun job => if job.id = id then f job else job }
  else .error "a job leaves the board only after everyone executed it"

/-- a pass over the board: its horizon, and the boundary token sampled so far -/
structure JobRun where
  horizon : ℕ
  token : Option ℕ
deriving DecidableEq, Repr

/-- where a partition stands between two holds of the lock -/
inductive GangPhase
  | idle
  | starting (own : Option ℕ)
  | pumping (run : JobRun) (id : ℕ)
  | pumped (run : JobRun) (id : ℕ)
  | computing (run : JobRun) (id : ℕ)
  | computed (run : JobRun) (id : ℕ) (sampled : Except String (Option ℕ))
  | stopped

/-- one entry into `prefill_cp`, for the record -/
structure GangEntry where
  job : ℕ
  stepCount : ℕ
  cpRank : ℕ
deriving DecidableEq, Repr

structure Partition where
  stepCount : ℕ
  phase : GangPhase
  entered : List GangEntry
  returned : Option (Except String (Option ℕ))

/-- the board and the partitions; `posters` records who posted each job -/
structure Gang where
  board : GangBoard
  partitions : ℕ → Partition
  posters : List ℕ

inductive GangOp
  | post (p slot : ℕ) (prompt : List ℕ)
  | serve (p : ℕ)
  | pass (p : ℕ)
  | pumpStep (p : ℕ)
  | pumpFailed (p : ℕ)
  | prefillCp (p steps : ℕ) (sampled : Except String (Option ℕ))
  | advance (p steps : ℕ)

/-- the poster is the last rank, the rest follow in ascending partition order -/
def cpRank (size partition poster : ℕ) : ℕ :=
  if partition = poster then size - 1 else partition - if partition > poster then 1 else 0

/-- the highest entry once every partition has checked in -/
def level : ℕ → List (Option ℕ) → Option ℕ
  | highest, [] => some highest
  | highest, some entry :: entries => level (max highest entry) entries
  | _, none :: _ => none

namespace Gang

def new (counts : ℕ → ℕ) : Gang := ⟨GangBoard.empty, fun p => ⟨counts p, .idle, [], none⟩, []⟩

def setPartition (s : Gang) (p : ℕ) (x : Partition) : Gang :=
  { s with partitions := Function.update s.partitions p x }

/-- the level check of job `id`, up to the point where the lock is dropped -/
def levelPass (size : ℕ) (s : Gang) (p : ℕ) (run : JobRun) (id : ℕ) : Except String Gang :=
  match s.board.jobs.find? fun job => job.id == id with
  | none => .error "a job leaves the board only after everyone executed it"
  | some job =>
    let x := s.partitions p
    let entries := job.entries.set p (some x.stepCount)
    if level 0 entries = some x.stepCount then do
      let board ← s.board.jobMut id fun job => { job with entries := job.entries.set p (some x.stepCount) }
      .ok (({ s with board := board } : Gang).setPartition p { x with
        phase := .computing run id
        entered := x.entered ++ [⟨id, x.stepCount, cpRank size p job.poster⟩] })
    else do
      let board ← s.board.jobMut id fun job => { job with entries := job.entries.set p (some (x.stepCount + 1)) }
      .ok (({ s with board := board } : Gang).setPartition p { x with phase := .pumping run id })

/-- leave `run_jobs` with a result -/
def returns (s : Gang) (p : ℕ) (result : Except String (Option ℕ)) : Gang :=
  s.setPartition p { s.partitions p with
    phase := match result with
      | .ok _ => .idle
      | .error _ => .stopped
    returned := some result }

/-- the head of the job loop: the earliest job up to the horizon this partition has not executed -/
def nextJob (size : ℕ) (s : Gang) (p : ℕ) (run : JobRun) : Except String Gang :=
  match s.board.jobs.find? fun job => decide (job.id ≤ run.horizon) && !job.executed.getD p true with
  | none => .ok (s.returns p (.ok run.token))
  | some job => s.levelPass size p run job.id

/-- mark the job executed, also on error, and drop it once everyone has executed it -/
def markExecuted (s : Gang) (p id : ℕ) : Except String Gang := do
  let board ← s.board.jobMut id fun job => { job with executed := job.executed.set p true }
  .ok { s with board := { board with jobs := board.jobs.filter fun job => !job.executed.all fun e => e } }

/-- the token of a run after a job: the owner must have sampled one -/
def sampledToken (owner : Bool) (token : Option ℕ) : Except String (Option ℕ) → Except String (Option ℕ)
  | .error e => .error e
  | .ok sampled =>
    match owner, sampled with
    | false, _ => .ok token
    | true, some t => .ok (some t)
    | true, none => .error "the owner's CP prefill returned no token"

/-- after a job: return its error, or go on with the next job -/
def resume (size : ℕ) (s : Gang) (p : ℕ) (run : JobRun) : Except String (Option ℕ) → Except String Gang
  | .error e => .ok (s.returns p (.error e))
  | .ok token => s.nextJob size p { run with token := token }

/-- one hold of the lock -/
def pass (size : ℕ) (s : Gang) (p : ℕ) : Except String Gang :=
  match (s.partitions p).phase with
  | .starting own =>
    match own <|> (s.board.jobs.getLast?.map (·.id)) with
    | none => .ok (s.returns p (.ok none))
    | some horizon => s.nextJob size p ⟨horizon, none⟩
  | .pumped run id => s.levelPass size p run id
  | .computed run id sampled => do
    let owner := (s.board.jobs.find? fun job => job.id == id).any fun job => job.poster == p
    let s ← s.markExecuted p id
    resume size (s.setPartition p { s.partitions p with phase := .idle }) p run (sampledToken owner run.token sampled)
  | _ => .ok s

/-- post a prompt; the next hold of the lock starts serving up to it -/
def post (size : ℕ) (s : Gang) (p slot : ℕ) (prompt : List ℕ) : Gang :=
  match (s.partitions p).phase with
  | .idle =>
    let id := s.board.nextId
    let job : GangJob := ⟨id, prompt, p, slot, List.replicate size none, List.replicate size false⟩
    ({ s with board := ⟨id + 1, s.board.jobs ++ [job]⟩, posters := s.posters ++ [p] } : Gang).setPartition p
      { s.partitions p with phase := .starting (some id) }
  | _ => s

/-- one operation; an operation the partition is not at does nothing, and an error is a failed lookup -/
def step (size : ℕ) (s : Gang) : GangOp → Except String Gang
  | .post p slot prompt => .ok (if p < size then s.post size p slot prompt else s)
  | .serve p =>
    match (s.partitions p).phase with
    | .idle => .ok (if p < size then s.setPartition p { s.partitions p with phase := .starting none } else s)
    | _ => .ok s
  | .pass p => if p < size then s.pass size p else .ok s
  | .pumpStep p =>
    match (s.partitions p).phase with
    | .pumping run id =>
      .ok (s.setPartition p { s.partitions p with
        phase := .pumped run id
        stepCount := (s.partitions p).stepCount + 1 })
    | _ => .ok s
  | .pumpFailed p =>
    match (s.partitions p).phase with
    | .pumping _ _ => .ok (s.returns p (.error "pump_step failed"))
    | _ => .ok s
  | .prefillCp p steps sampled =>
    match (s.partitions p).phase with
    | .computing run id =>
      .ok (s.setPartition p { s.partitions p with
        phase := .computed run id sampled
        stepCount := (s.partitions p).stepCount + steps })
    | _ => .ok s
  | .advance p steps =>
    match (s.partitions p).phase with
    | .idle => .ok (s.setPartition p { s.partitions p with stepCount := (s.partitions p).stepCount + steps })
    | _ => .ok s

attribute [grind =] step

end Gang

/-! ## Ranks and levels -/

theorem cpRank_poster (size poster : ℕ) : cpRank size poster poster = size - 1 := by simp [cpRank]

theorem cpRank_lt {size p poster : ℕ} (hp : p < size) (hposter : poster < size) : cpRank size p poster < size := by
  unfold cpRank
  split_ifs <;> omega

theorem cpRank_inj {size p q poster : ℕ} (hp : p < size) (hq : q < size)
    (h : cpRank size p poster = cpRank size q poster) : p = q := by
  unfold cpRank at h
  split_ifs at h <;> omega

/-- the ranks of a gang are exactly `0..size` -/
theorem cpRank_perm {size poster : ℕ} (hposter : poster < size) :
    ((List.range size).map fun p => cpRank size p poster).Perm (List.range size) := by
  have hnodup : ((List.range size).map fun p => cpRank size p poster).Nodup := by
    refine List.Nodup.map_on (fun p hp q hq h => ?_) List.nodup_range
    exact cpRank_inj (List.mem_range.1 hp) (List.mem_range.1 hq) h
  refine (List.subperm_of_subset hnodup ?_).perm_of_length_le (by simp)
  intro r hr
  obtain ⟨p, hp, rfl⟩ := List.mem_map.1 hr
  exact List.mem_range.2 (cpRank_lt (List.mem_range.1 hp) hposter)

/-- the level is known once every entry is, and is the highest of them -/
theorem level_eq_some {entries : List (Option ℕ)} {highest top : ℕ} :
    level highest entries = some top ↔
      (∀ e ∈ entries, ∃ c, e = some c ∧ c ≤ top) ∧ highest ≤ top ∧ (top = highest ∨ some top ∈ entries) := by
  induction entries generalizing highest with
  | nil =>
    simp only [level, Option.some.injEq, List.not_mem_nil, false_implies, implies_true, true_and, or_false]
    omega
  | cons e entries ih =>
    cases e with
    | none => simp [level]
    | some c =>
      rw [level, ih]
      simp only [List.mem_cons, Option.some.injEq, forall_eq_or_imp, exists_eq_left']
      constructor
      · rintro ⟨hall, hle, hor⟩
        refine ⟨⟨by omega, hall⟩, by omega, ?_⟩
        rcases hor with hor | hor
        · rcases Nat.le_total highest c with hc | hc
          · exact Or.inr (Or.inl (by omega))
          · exact Or.inl (by omega)
        · exact Or.inr (Or.inr hor)
      · rintro ⟨⟨hc, hall⟩, hle, hor⟩
        refine ⟨hall, by omega, ?_⟩
        rcases hor with hor | hor | hor
        · exact Or.inl (by omega)
        · exact Or.inl (by omega)
        · exact Or.inr hor

/-! ## The invariant -/

namespace GangPhase

/-- the job a partition is leveling for -/
def leveling : GangPhase → Option ℕ
  | .pumping _ id => some id
  | .pumped _ id => some id
  | _ => none

/-- the job a partition has entered and not marked yet -/
def inside : GangPhase → Option ℕ
  | .computing _ id => some id
  | .computed _ id _ => some id
  | _ => none

end GangPhase

/-- the jobs a partition has marked executed: the ones it entered, less the one it is inside -/
def Partition.done (x : Partition) : ℕ := x.entered.length - if x.phase.inside.isSome then 1 else 0

namespace Gang

/-- what a partition's phase says about the entry it has checked in -/
def EntryOk (x : Partition) (entry : Option ℕ) : GangPhase → Prop
  | .pumping _ _ => entry = some (x.stepCount + 1)
  | .pumped _ _ => entry = some x.stepCount
  | _ => True

structure Inv (size : ℕ) (s : Gang) : Prop where
  posters : s.posters.length = s.board.nextId
  posters_lt : ∀ poster ∈ s.posters, poster < size
  ids : (s.board.jobs.map (·.id)).Pairwise (· < ·)
  ids_lt : ∀ job ∈ s.board.jobs, job.id < s.board.nextId
  shape : ∀ job ∈ s.board.jobs,
    job.entries.length = size ∧ job.executed.length = size ∧ s.posters[job.id]? = some job.poster
  executed : ∀ job ∈ s.board.jobs, ∀ p < size,
    job.executed[p]? = some (decide (job.id < (s.partitions p).done))
  present : ∀ p < size, ∀ id, (s.partitions p).done ≤ id → id < s.board.nextId → ∃ job ∈ s.board.jobs, job.id = id
  order : ∀ p < size, (s.partitions p).entered.map (·.job) = List.range (s.partitions p).entered.length
  entered_lt : ∀ p < size, ∀ e ∈ (s.partitions p).entered, e.job < s.board.nextId
  rank : ∀ p < size, ∀ e ∈ (s.partitions p).entered, ∀ poster, s.posters[e.job]? = some poster →
    e.cpRank = cpRank size p poster
  leveling : ∀ p < size, ∀ id, (s.partitions p).phase.leveling = some id →
    id = (s.partitions p).entered.length ∧ id < s.board.nextId ∧
    ∀ job ∈ s.board.jobs, job.id = id → ∃ entry, job.entries[p]? = some entry ∧
      EntryOk (s.partitions p) entry (s.partitions p).phase
  inside : ∀ p < size, ∀ id, (s.partitions p).phase.inside = some id → (s.partitions p).entered.length = id + 1
  fresh : ∀ p < size, ∀ job ∈ s.board.jobs, (s.partitions p).entered.length ≤ job.id →
    (s.partitions p).phase.leveling ≠ some job.id → (s.partitions p).phase ≠ .stopped → job.entries[p]? = some none
  checked : ∀ p < size, ∀ e ∈ (s.partitions p).entered, ∀ job ∈ s.board.jobs, job.id = e.job →
    job.entries[p]? = some (some e.stepCount)
  covered : ∀ p < size, ∀ e ∈ (s.partitions p).entered, ∀ job ∈ s.board.jobs, job.id = e.job →
    ∀ q < size, ∃ c, job.entries[q]? = some (some c) ∧ c ≤ e.stepCount
  agree : ∀ p < size, ∀ q < size, ∀ e ∈ (s.partitions p).entered, ∀ e' ∈ (s.partitions q).entered,
    e.job = e'.job → e.stepCount = e'.stepCount

theorem new_inv (size : ℕ) (counts : ℕ → ℕ) : Inv size (Gang.new counts) := by
  constructor <;> simp [Gang.new, GangBoard.empty, GangPhase.leveling, GangPhase.inside, Partition.done]

variable {size : ℕ} {s s' : Gang} {p : ℕ}

/-- a job on the board is the only one of its id -/
theorem Inv.job_unique (h : Inv size s) {job job' : GangJob} (hj : job ∈ s.board.jobs) (hj' : job' ∈ s.board.jobs)
    (hid : job.id = job'.id) : job = job' := by
  have hnodup : (s.board.jobs.map (·.id)).Nodup := h.ids.imp fun hlt => Nat.ne_of_lt hlt
  exact List.inj_on_of_nodup_map hnodup hj hj' hid

theorem jobMut_ok {board : GangBoard} {id : ℕ} {f : GangJob → GangJob} (h : ∃ job ∈ board.jobs, job.id = id) :
    board.jobMut id f =
      .ok { board with jobs := board.jobs.map fun job => if job.id = id then f job else job } := by
  obtain ⟨job, hj, hid⟩ := h
  unfold GangBoard.jobMut
  rw [if_pos]
  simp only [List.any_eq_true, beq_iff_eq]
  exact ⟨job, hj, hid⟩

/-- a change of one partition that touches none of what the invariant reads, or stops it -/
theorem Inv.setPartition (h : Inv size s) {x : Partition} (hentered : x.entered = (s.partitions p).entered)
    (hinside : x.phase.inside = (s.partitions p).phase.inside)
    (hleveling : x.phase = .stopped ∨
      x.phase.leveling = (s.partitions p).phase.leveling ∧ (s.partitions p).phase ≠ .stopped)
    (hentry : ∀ entry, EntryOk (s.partitions p) entry (s.partitions p).phase → EntryOk x entry x.phase) :
    Inv size (s.setPartition p x) := by
  have hat : ∀ q, ((s.setPartition p x).partitions q).entered = (s.partitions q).entered ∧
      ((s.setPartition p x).partitions q).phase.inside = (s.partitions q).phase.inside ∧
      (((s.setPartition p x).partitions q).phase = .stopped ∨
        ((s.setPartition p x).partitions q).phase.leveling = (s.partitions q).phase.leveling ∧
        (((s.setPartition p x).partitions q).phase ≠ .stopped → (s.partitions q).phase ≠ .stopped)) ∧
      ∀ entry, EntryOk (s.partitions q) entry (s.partitions q).phase →
        EntryOk ((s.setPartition p x).partitions q) entry ((s.setPartition p x).partitions q).phase := by
    intro q
    by_cases hq : q = p
    · subst hq
      simp only [Gang.setPartition, Function.update_self]
      exact ⟨hentered, hinside, hleveling.imp_right fun h => ⟨h.1, fun _ => h.2⟩, hentry⟩
    · simp only [Gang.setPartition, Function.update_of_ne hq]
      exact ⟨trivial, trivial, Or.inr ⟨trivial, fun h => h⟩, fun _ h => h⟩
  have hdone : ∀ q, ((s.setPartition p x).partitions q).done = (s.partitions q).done := by
    intro q
    simp only [Partition.done, (hat q).1, (hat q).2.1]
  exact {
    posters := h.posters
    posters_lt := h.posters_lt
    ids := h.ids
    ids_lt := h.ids_lt
    shape := h.shape
    executed := fun job hj q hq => by rw [hdone]; exact h.executed job hj q hq
    present := fun q hq id hid => by rw [hdone] at hid; exact h.present q hq id hid
    order := fun q hq => by rw [(hat q).1]; exact h.order q hq
    entered_lt := fun q hq => by rw [(hat q).1]; exact h.entered_lt q hq
    rank := fun q hq => by rw [(hat q).1]; exact h.rank q hq
    leveling := fun q hq id hid => by
      rcases (hat q).2.2.1 with hstop | ⟨hsame, -⟩
      · rw [hstop] at hid
        cases hid
      · rw [hsame] at hid
        obtain ⟨h1, h2, h3⟩ := h.leveling q hq id hid
        refine ⟨by rw [(hat q).1]; exact h1, h2, fun job hj hjid => ?_⟩
        obtain ⟨entry, he, hok⟩ := h3 job hj hjid
        exact ⟨entry, he, (hat q).2.2.2 entry hok⟩
    inside := fun q hq id hid => by
      rw [(hat q).2.1] at hid
      rw [(hat q).1]
      exact h.inside q hq id hid
    fresh := fun q hq job hj => by
      rcases (hat q).2.2.1 with hstop | ⟨hsame, hrun⟩
      · exact fun _ _ hne => absurd hstop hne
      · rw [(hat q).1, hsame]
        exact fun hle hlev hne => h.fresh q hq job hj hle hlev (hrun hne)
    checked := fun q hq => by rw [(hat q).1]; exact h.checked q hq
    covered := fun q hq => by rw [(hat q).1]; exact h.covered q hq
    agree := fun q hq q' hq' => by rw [(hat q).1, (hat q').1]; exact h.agree q hq q' hq' }

/-! ## The level check -/

/-- a check-in of `p` at count `c` on job `id` -/
def checkIn (p id c : ℕ) (job : GangJob) : GangJob :=
  if job.id = id then { job with entries := job.entries.set p (some c) } else job

theorem checkIn_id (p id c : ℕ) (job : GangJob) : (checkIn p id c job).id = job.id := by
  unfold checkIn
  split_ifs <;> rfl

theorem checkIn_poster (p id c : ℕ) (job : GangJob) : (checkIn p id c job).poster = job.poster := by
  unfold checkIn
  split_ifs <;> rfl

theorem checkIn_executed (p id c : ℕ) (job : GangJob) : (checkIn p id c job).executed = job.executed := by
  unfold checkIn
  split_ifs <;> rfl

theorem checkIn_other (p id c q : ℕ) (job : GangJob) (h : q ≠ p ∨ job.id ≠ id) :
    (checkIn p id c job).entries[q]? = job.entries[q]? := by
  unfold checkIn
  split_ifs with hid
  · rcases h with h | h
    · exact List.getElem?_set_ne (Ne.symm h)
    · exact absurd hid h
  · rfl

theorem checkIn_self (p c : ℕ) (job : GangJob) (h : p < job.entries.length) :
    (checkIn p job.id c job).entries[p]? = some (some c) := by
  simp only [checkIn, if_true]
  exact List.getElem?_set_self h

theorem checkIn_length (p id c : ℕ) (job : GangJob) : (checkIn p id c job).entries.length = job.entries.length := by
  unfold checkIn
  split_ifs
  · exact List.length_set
  · rfl

/-- the facts of a level check: the job, what `p` had checked in, and how the level relates to those inside -/
theorem Inv.check (h : Inv size s) (hp : p < size) {id : ℕ} (hid : id = (s.partitions p).entered.length)
    (hlt : id < s.board.nextId) (hinside : (s.partitions p).phase.inside = none)
    (hphase : ((s.partitions p).phase.leveling = none ∧ (s.partitions p).phase ≠ .stopped) ∨
      ∃ r, (s.partitions p).phase = .pumped r id) :
    ∃ job ∈ s.board.jobs, job.id = id ∧ (s.board.jobs.find? fun job => job.id == id) = some job ∧
      ∀ q < size, ∀ e ∈ (s.partitions q).entered, e.job = id →
        q ≠ p ∧ (s.partitions p).stepCount ≤ e.stepCount ∧
        level 0 (job.entries.set p (some (s.partitions p).stepCount)) = some e.stepCount := by
  have hdone : (s.partitions p).done = id := by simp [Partition.done, hinside, hid]
  obtain ⟨job, hj, hjid⟩ := h.present p hp id (by omega) hlt
  refine ⟨job, hj, hjid, ?_, fun q hq e he hejob => ?_⟩
  · cases hf : s.board.jobs.find? fun job => job.id == id with
    | none => exact absurd (List.find?_eq_none.1 hf job hj) (by simp [hjid])
    | some found =>
      have hfid : found.id = id := by simpa using List.find?_some hf
      rw [h.job_unique (List.mem_of_find?_eq_some hf) hj (hfid.trans hjid.symm)]
  · have hcov := h.covered q hq e he job hj (hjid.trans hejob.symm)
    obtain ⟨c, hc, hcle⟩ := hcov p hp
    -- the entry of `p` is known, so it has been leveling and its count is that entry
    have hcount : (s.partitions p).stepCount = c := by
      rcases hphase with ⟨hlev, hrun⟩ | ⟨r, hpumped⟩
      · have hnone := h.fresh p hp job hj (by omega) (by rw [hlev]; nofun) hrun
        rw [hnone] at hc
        cases hc
      · obtain ⟨-, -, hentry⟩ := h.leveling p hp id (by rw [hpumped]; rfl)
        obtain ⟨entry, hget, hok⟩ := hentry job hj hjid
        rw [hpumped] at hok
        rw [hget] at hc
        cases hc
        exact (Option.some.inj hok).symm
    have hqp : q ≠ p := by
      rintro rfl
      have hmem : id ∈ (s.partitions q).entered.map (·.job) := List.mem_map.2 ⟨e, he, hejob⟩
      rw [h.order q hq, List.mem_range] at hmem
      omega
    refine ⟨hqp, by omega, ?_⟩
    have hlen := (h.shape job hj).1
    rw [level_eq_some]
    refine ⟨fun x hx => ?_, Nat.zero_le _, Or.inr ?_⟩
    · obtain ⟨i, hi⟩ := List.mem_iff_getElem?.1 hx
      by_cases hip : i = p
      · subst hip
        rw [List.getElem?_set_self (by omega)] at hi
        exact ⟨_, (Option.some.inj hi).symm, by omega⟩
      · rw [List.getElem?_set_ne (Ne.symm hip)] at hi
        have hilt : i < size := by
          have := (List.getElem?_eq_some_iff.1 hi).1
          omega
        obtain ⟨d, hd, hdle⟩ := hcov i hilt
        rw [hi] at hd
        exact ⟨d, Option.some.inj hd, hdle⟩
    · refine List.mem_of_getElem? (?_ : (job.entries.set p _)[q]? = _)
      rw [List.getElem?_set_ne (Ne.symm hqp)]
      exact h.checked q hq e he job hj (hjid.trans hejob.symm)

/-- the board after a check-in -/
def checkInBoard (s : Gang) (p id c : ℕ) : Gang :=
  { s with board := { s.board with jobs := s.board.jobs.map (checkIn p id c) } }

theorem checkInBoard_ids (s : Gang) (p id c : ℕ) :
    (checkInBoard s p id c).board.jobs.map (·.id) = s.board.jobs.map (·.id) := by
  simp only [checkInBoard, List.map_map]
  exact List.map_congr_left fun job _ => checkIn_id p id c job

theorem mem_checkInBoard {s : Gang} {p id c : ℕ} {job' : GangJob} (h : job' ∈ (checkInBoard s p id c).board.jobs) :
    ∃ job ∈ s.board.jobs, job' = checkIn p id c job := by
  obtain ⟨job, hj, rfl⟩ := List.mem_map.1 h
  exact ⟨job, hj, rfl⟩

/-- **Pump.** Below the level, a partition promises one more step. Whoever is inside has entered above its count. -/
theorem Inv.pump (h : Inv size s) (hp : p < size) {id : ℕ} {r : JobRun}
    (hid : id = (s.partitions p).entered.length) (hlt : id < s.board.nextId)
    (hinside : (s.partitions p).phase.inside = none)
    (hphase : ((s.partitions p).phase.leveling = none ∧ (s.partitions p).phase ≠ .stopped) ∨
      ∃ r, (s.partitions p).phase = .pumped r id)
    (hbelow : ∀ q < size, ∀ e ∈ (s.partitions q).entered, e.job = id → (s.partitions p).stepCount + 1 ≤ e.stepCount) :
    Inv size ((checkInBoard s p id ((s.partitions p).stepCount + 1)).setPartition p
      { s.partitions p with phase := .pumping r id }) := by
  set s' := (checkInBoard s p id ((s.partitions p).stepCount + 1)).setPartition p
    { s.partitions p with phase := .pumping r id } with hs'
  have hself : s'.partitions p = { s.partitions p with phase := .pumping r id } := by
    simp [hs', Gang.setPartition]
  have hother : ∀ q, q ≠ p → s'.partitions q = s.partitions q := by
    intro q hq
    simp [hs', Gang.setPartition, Function.update_of_ne hq, checkInBoard]
  have hentered : ∀ q, (s'.partitions q).entered = (s.partitions q).entered := by
    intro q
    by_cases hq : q = p
    · rw [hq, hself]
    · rw [hother q hq]
  have hdone : ∀ q, (s'.partitions q).done = (s.partitions q).done := by
    intro q
    by_cases hq : q = p
    · rw [hq, hself, Partition.done, Partition.done, hinside]
      rfl
    · rw [hother q hq]
  have hjobs : s'.board.jobs = (checkInBoard s p id ((s.partitions p).stepCount + 1)).board.jobs := rfl
  exact {
    posters := h.posters
    posters_lt := h.posters_lt
    ids := by rw [hjobs, checkInBoard_ids]; exact h.ids
    ids_lt := fun job' hj' => by
      obtain ⟨job, hj, rfl⟩ := mem_checkInBoard hj'
      rw [checkIn_id]
      exact h.ids_lt job hj
    shape := fun job' hj' => by
      obtain ⟨job, hj, rfl⟩ := mem_checkInBoard hj'
      rw [checkIn_length, checkIn_executed, checkIn_id, checkIn_poster]
      exact h.shape job hj
    executed := fun job' hj' q hq => by
      obtain ⟨job, hj, rfl⟩ := mem_checkInBoard hj'
      rw [checkIn_executed, checkIn_id, hdone]
      exact h.executed job hj q hq
    present := fun q hq i hle hi => by
      rw [hdone] at hle
      obtain ⟨job, hj, hjid⟩ := h.present q hq i hle hi
      exact ⟨_, List.mem_map_of_mem hj, by rw [checkIn_id, hjid]⟩
    order := fun q hq => by rw [hentered]; exact h.order q hq
    entered_lt := fun q hq => by rw [hentered]; exact h.entered_lt q hq
    rank := fun q hq => by rw [hentered]; exact h.rank q hq
    leveling := fun q hq i hi => by
      by_cases hqp : q = p
      · subst hqp
        rw [hself] at hi ⊢
        cases hi
        refine ⟨hid, hlt, fun job' hj' hjid => ?_⟩
        obtain ⟨job, hj, rfl⟩ := mem_checkInBoard hj'
        rw [checkIn_id] at hjid
        subst hjid
        exact ⟨_, checkIn_self _ _ job (by rw [(h.shape job hj).1]; exact hq), rfl⟩
      · rw [hother q hqp] at hi ⊢
        obtain ⟨h1, h2, h3⟩ := h.leveling q hq i hi
        refine ⟨h1, h2, fun job' hj' hjid => ?_⟩
        obtain ⟨job, hj, rfl⟩ := mem_checkInBoard hj'
        rw [checkIn_id] at hjid
        rw [checkIn_other _ _ _ _ _ (Or.inl hqp)]
        exact h3 job hj hjid
    inside := fun q hq i hi => by
      by_cases hqp : q = p
      · rw [hqp, hself] at hi
        cases hi
      · rw [hother q hqp] at hi ⊢
        exact h.inside q hq i hi
    fresh := fun q hq job' hj' hle hlev hstop => by
      obtain ⟨job, hj, rfl⟩ := mem_checkInBoard hj'
      rw [checkIn_id] at hle hlev
      rw [hentered] at hle
      by_cases hqp : q = p
      · subst hqp
        rw [hself] at hlev
        have hne : job.id ≠ id := fun heq => hlev (by rw [heq]; rfl)
        rw [checkIn_other _ _ _ _ _ (Or.inr hne)]
        refine h.fresh q hq job hj hle ?_ ?_
        · rcases hphase with ⟨hnone, -⟩ | ⟨r', hpumped⟩
          · rw [hnone]; nofun
          · rw [hpumped]
            exact fun heq => hne (Option.some.inj heq).symm
        · rcases hphase with ⟨-, hrun⟩ | ⟨r', hpumped⟩
          · exact hrun
          · rw [hpumped]; nofun
      · rw [hother q hqp] at hlev hstop
        rw [checkIn_other _ _ _ _ _ (Or.inl hqp)]
        exact h.fresh q hq job hj hle hlev hstop
    checked := fun q hq e he job' hj' hjid => by
      obtain ⟨job, hj, rfl⟩ := mem_checkInBoard hj'
      rw [checkIn_id] at hjid
      rw [hentered] at he
      rw [checkIn_other]
      · exact h.checked q hq e he job hj hjid
      · by_cases hqp : q = p
        · subst hqp
          right
          have hmem : e.job ∈ (s.partitions q).entered.map (·.job) := List.mem_map_of_mem he
          rw [h.order q hq, List.mem_range] at hmem
          omega
        · exact Or.inl hqp
    covered := fun q hq e he job' hj' hjid r' hr' => by
      obtain ⟨job, hj, rfl⟩ := mem_checkInBoard hj'
      rw [checkIn_id] at hjid
      rw [hentered] at he
      by_cases hself' : r' = p ∧ job.id = id
      · obtain ⟨rfl, rfl⟩ := hself'
        exact ⟨_, checkIn_self _ _ job (by rw [(h.shape job hj).1]; exact hr'), hbelow q hq e he hjid.symm⟩
      · rw [checkIn_other _ _ _ _ _ (by tauto)]
        exact h.covered q hq e he job hj hjid r' hr'
    agree := fun q hq q' hq' => by rw [hentered, hentered]; exact h.agree q hq q' hq' }

/-- **Enter.** At the level, every entry is known and none is higher, and whoever is inside entered at the same count. -/
theorem Inv.enter (h : Inv size s) (hp : p < size) {job : GangJob} {r : JobRun} (hj : job ∈ s.board.jobs)
    (hid : job.id = (s.partitions p).entered.length) (hinside : (s.partitions p).phase.inside = none)
    (hrun : (s.partitions p).phase ≠ .stopped)
    (hlevel : level 0 (job.entries.set p (some (s.partitions p).stepCount)) = some (s.partitions p).stepCount)
    (hsame : ∀ q < size, ∀ e ∈ (s.partitions q).entered, e.job = job.id → (s.partitions p).stepCount = e.stepCount)
    (hlev : (s.partitions p).phase.leveling = none ∨ (s.partitions p).phase.leveling = some job.id) :
    Inv size ((checkInBoard s p job.id (s.partitions p).stepCount).setPartition p
      { s.partitions p with
        phase := .computing r job.id
        entered := (s.partitions p).entered ++ [⟨job.id, (s.partitions p).stepCount, cpRank size p job.poster⟩] }) := by
  set count := (s.partitions p).stepCount with hcount
  set entry : GangEntry := ⟨job.id, count, cpRank size p job.poster⟩ with hentry
  set s' := (checkInBoard s p job.id count).setPartition p
    { s.partitions p with phase := .computing r job.id, entered := (s.partitions p).entered ++ [entry] } with hs'
  have hself : s'.partitions p =
      { s.partitions p with phase := .computing r job.id, entered := (s.partitions p).entered ++ [entry] } := by
    simp [hs', Gang.setPartition]
  have hother : ∀ q, q ≠ p → s'.partitions q = s.partitions q := by
    intro q hq
    simp [hs', Gang.setPartition, Function.update_of_ne hq, checkInBoard]
  have hmem : ∀ q, ∀ e ∈ (s'.partitions q).entered, e ∈ (s.partitions q).entered ∨ (q = p ∧ e = entry) := by
    intro q e he
    by_cases hq : q = p
    · subst hq
      rw [hself, List.mem_append, List.mem_singleton] at he
      exact he.imp_right fun h => ⟨rfl, h⟩
    · rw [hother q hq] at he
      exact Or.inl he
  have hdone : ∀ q, (s'.partitions q).done = (s.partitions q).done := by
    intro q
    by_cases hq : q = p
    · rw [hq, hself, Partition.done, Partition.done, hinside]
      simp [GangPhase.inside]
    · rw [hother q hq]
  have hold : ∀ e ∈ (s.partitions p).entered, e.job ≠ job.id := by
    intro e he heq
    have hm : e.job ∈ (s.partitions p).entered.map (·.job) := List.mem_map_of_mem he
    rw [h.order p hp, List.mem_range] at hm
    omega
  -- every entry of the job is known and at most the count
  have hall : ∀ q < size, ∃ c, (checkIn p job.id count job).entries[q]? = some (some c) ∧ c ≤ count := by
    intro q hq
    have hlen := (h.shape job hj).1
    obtain ⟨hknown, -, -⟩ := level_eq_some.1 hlevel
    have hget : (job.entries.set p (some count))[q]? = (checkIn p job.id count job).entries[q]? := by
      simp [checkIn]
    obtain ⟨x, hx⟩ : ∃ x, (job.entries.set p (some count))[q]? = some x :=
      ⟨_, List.getElem?_eq_getElem (by rw [List.length_set]; omega)⟩
    obtain ⟨c, rfl, hc⟩ := hknown x (List.mem_of_getElem? hx)
    exact ⟨c, by rw [← hget, hx], hc⟩
  exact {
    posters := h.posters
    posters_lt := h.posters_lt
    ids := by
      show ((checkInBoard s p job.id count).board.jobs.map (·.id)).Pairwise _
      rw [checkInBoard_ids]
      exact h.ids
    ids_lt := fun job' hj' => by
      obtain ⟨job₁, hj₁, rfl⟩ := mem_checkInBoard hj'
      rw [checkIn_id]
      exact h.ids_lt job₁ hj₁
    shape := fun job' hj' => by
      obtain ⟨job₁, hj₁, rfl⟩ := mem_checkInBoard hj'
      rw [checkIn_length, checkIn_executed, checkIn_id, checkIn_poster]
      exact h.shape job₁ hj₁
    executed := fun job' hj' q hq => by
      obtain ⟨job₁, hj₁, rfl⟩ := mem_checkInBoard hj'
      rw [checkIn_executed, checkIn_id, hdone]
      exact h.executed job₁ hj₁ q hq
    present := fun q hq i hle hi => by
      rw [hdone] at hle
      obtain ⟨job₁, hj₁, hjid⟩ := h.present q hq i hle hi
      exact ⟨_, List.mem_map_of_mem hj₁, by rw [checkIn_id, hjid]⟩
    order := fun q hq => by
      by_cases hqp : q = p
      · subst hqp
        rw [hself]
        simp only [List.map_append, List.map_cons, List.map_nil, List.length_append, List.length_singleton,
          List.range_succ, h.order q hq, hentry, hid]
      · rw [hother q hqp]
        exact h.order q hq
    entered_lt := fun q hq e he => by
      rcases hmem q e he with hin | ⟨rfl, rfl⟩
      · exact h.entered_lt q hq e hin
      · exact h.ids_lt job hj
    rank := fun q hq e he poster hposter => by
      rcases hmem q e he with hin | ⟨rfl, rfl⟩
      · exact h.rank q hq e hin poster hposter
      · have := (h.shape job hj).2.2
        rw [show s'.posters = s.posters from rfl] at hposter
        rw [hposter] at this
        rw [Option.some.inj this]
    leveling := fun q hq i hi => by
      by_cases hqp : q = p
      · rw [hqp, hself] at hi
        cases hi
      · rw [hother q hqp] at hi ⊢
        obtain ⟨h1, h2, h3⟩ := h.leveling q hq i hi
        refine ⟨h1, h2, fun job' hj' hjid => ?_⟩
        obtain ⟨job₁, hj₁, rfl⟩ := mem_checkInBoard hj'
        rw [checkIn_id] at hjid
        rw [checkIn_other _ _ _ _ _ (Or.inl hqp)]
        exact h3 job₁ hj₁ hjid
    inside := fun q hq i hi => by
      by_cases hqp : q = p
      · subst hqp
        rw [hself] at hi ⊢
        cases hi
        simp [hid]
      · rw [hother q hqp] at hi ⊢
        exact h.inside q hq i hi
    fresh := fun q hq job' hj' hle hlev' hstop => by
      obtain ⟨job₁, hj₁, rfl⟩ := mem_checkInBoard hj'
      rw [checkIn_id] at hle hlev'
      by_cases hqp : q = p
      · subst hqp
        rw [hself] at hle
        simp only [List.length_append, List.length_singleton] at hle
        have hne : job₁.id ≠ job.id := by omega
        rw [checkIn_other _ _ _ _ _ (Or.inr hne)]
        refine h.fresh q hq job₁ hj₁ (by omega) ?_ hrun
        rcases hlev with hlev | hlev
        · rw [hlev]; nofun
        · rw [hlev]
          exact fun heq => hne (Option.some.inj heq).symm
      · rw [hother q hqp] at hle hlev' hstop
        rw [checkIn_other _ _ _ _ _ (Or.inl hqp)]
        exact h.fresh q hq job₁ hj₁ hle hlev' hstop
    checked := fun q hq e he job' hj' hjid => by
      obtain ⟨job₁, hj₁, rfl⟩ := mem_checkInBoard hj'
      rw [checkIn_id] at hjid
      rcases hmem q e he with hin | ⟨rfl, rfl⟩
      · rw [checkIn_other]
        · exact h.checked q hq e hin job₁ hj₁ hjid
        · by_cases hqp : q = p
          · subst hqp
            exact Or.inr (by rw [hjid]; exact hold e hin)
          · exact Or.inl hqp
      · obtain rfl := h.job_unique hj₁ hj hjid
        exact checkIn_self _ _ _ (by rw [(h.shape _ hj₁).1]; exact hq)
    covered := fun q hq e he job' hj' hjid r' hr' => by
      obtain ⟨job₁, hj₁, rfl⟩ := mem_checkInBoard hj'
      rw [checkIn_id] at hjid
      rcases hmem q e he with hin | ⟨rfl, rfl⟩
      · by_cases hthis : job₁.id = job.id
        · obtain rfl := h.job_unique hj₁ hj hthis
          rw [← hsame q hq e hin hjid.symm]
          exact hall r' hr'
        · rw [checkIn_other _ _ _ _ _ (Or.inr hthis)]
          exact h.covered q hq e hin job₁ hj₁ hjid r' hr'
      · obtain rfl := h.job_unique hj₁ hj hjid
        exact hall r' hr'
    agree := fun q hq q' hq' e he e' he' hjob => by
      rcases hmem q e he with hin | ⟨rfl, rfl⟩
      · rcases hmem q' e' he' with hin' | ⟨rfl, rfl⟩
        · exact h.agree q hq q' hq' e hin e' hin' hjob
        · exact (hsame q hq e hin hjob).symm
      · rcases hmem q' e' he' with hin' | ⟨rfl, rfl⟩
        · exact hsame q' hq' e' hin' hjob.symm
        · rfl }

/-- **Level check.** It finds its job, and keeps the invariant whether it enters or pumps. -/
theorem levelPass_inv (h : Inv size s) (hp : p < size) (r : JobRun) {id : ℕ}
    (hid : id = (s.partitions p).entered.length) (hlt : id < s.board.nextId)
    (hinside : (s.partitions p).phase.inside = none)
    (hphase : ((s.partitions p).phase.leveling = none ∧ (s.partitions p).phase ≠ .stopped) ∨
      ∃ r, (s.partitions p).phase = .pumped r id) :
    ∃ s', s.levelPass size p r id = .ok s' ∧ Inv size s' := by
  obtain ⟨job, hj, hjid, hfind, hinsiders⟩ := h.check hp hid hlt hinside hphase
  have hexists : ∃ job ∈ s.board.jobs, job.id = id := ⟨job, hj, hjid⟩
  unfold levelPass
  rw [hfind]
  dsimp only
  split_ifs with hlevel
  · rw [jobMut_ok hexists]
    refine ⟨_, rfl, ?_⟩
    subst hjid
    have hrun : (s.partitions p).phase ≠ .stopped := by
      rcases hphase with ⟨-, hrun⟩ | ⟨r', hpumped⟩
      · exact hrun
      · rw [hpumped]; nofun
    refine h.enter hp hj hid hinside hrun hlevel (fun q hq e he hjob => ?_) ?_
    · obtain ⟨-, -, hl⟩ := hinsiders q hq e he hjob
      rw [hlevel] at hl
      exact Option.some.inj hl
    · rcases hphase with ⟨hnone, -⟩ | ⟨r', hpumped⟩
      · exact Or.inl hnone
      · exact Or.inr (by rw [hpumped]; rfl)
  · rw [jobMut_ok hexists]
    refine ⟨_, rfl, h.pump hp hid hlt hinside hphase fun q hq e he hjob => ?_⟩
    obtain ⟨-, hle, hl⟩ := hinsiders q hq e he hjob
    rcases Nat.lt_or_eq_of_le hle with hlt | heq
    · exact hlt
    · exact absurd (by rw [hl, heq]) hlevel

/-! ## The job loop -/

theorem Inv.entered_le (h : Inv size s) (hp : p < size) : (s.partitions p).entered.length ≤ s.board.nextId := by
  rcases Nat.eq_zero_or_pos (s.partitions p).entered.length with h0 | hpos
  · omega
  · have hmem : (s.partitions p).entered.length - 1 ∈ (s.partitions p).entered.map (·.job) := by
      rw [h.order p hp, List.mem_range]
      omega
    obtain ⟨e, he, hejob⟩ := List.mem_map.1 hmem
    have := h.entered_lt p hp e he
    omega

/-- the first job found is the next one in posting order -/
theorem Inv.nextJob_id (h : Inv size s) (hp : p < size) (hinside : (s.partitions p).phase.inside = none)
    {horizon : ℕ} {job : GangJob}
    (hfind : s.board.jobs.find? (fun job => decide (job.id ≤ horizon) && !job.executed.getD p true) = some job) :
    job.id = (s.partitions p).entered.length ∧ job.id < s.board.nextId := by
  have hdone : (s.partitions p).done = (s.partitions p).entered.length := by simp [Partition.done, hinside]
  obtain ⟨hsel, front, back, hsplit, hfront⟩ := List.find?_eq_some_iff_append.1 hfind
  have hj : job ∈ s.board.jobs := List.mem_of_find?_eq_some hfind
  have hget : ∀ job ∈ s.board.jobs, job.executed.getD p true =
      decide (job.id < (s.partitions p).entered.length) := by
    intro job hj
    rw [List.getD_eq_getElem?_getD, h.executed job hj p hp, Option.getD_some, hdone]
  rw [hget job hj] at hsel
  simp only [Bool.and_eq_true, decide_eq_true_eq, Bool.not_eq_true', decide_eq_false_iff_not, not_lt] at hsel
  have hlt := h.ids_lt job hj
  refine ⟨?_, hlt⟩
  -- the next job in posting order is on the board and would be found no later
  obtain ⟨first, hfirst, hfid⟩ := h.present p hp (s.partitions p).entered.length (by omega) (by omega)
  have hsorted := h.ids
  rw [hsplit] at hfirst hsorted
  rw [List.map_append, List.map_cons, List.pairwise_append] at hsorted
  rcases List.mem_append.1 hfirst with hin | hin
  · have hnot := hfront first hin
    rw [hget first (by rw [hsplit]; exact List.mem_append_left _ hin)] at hnot
    simp only [hfid, lt_irrefl, decide_false, Bool.not_false, Bool.and_true, Bool.not_eq_true',
      decide_eq_false_iff_not] at hnot
    omega
  · rcases List.mem_cons.1 hin with rfl | hin
    · exact hfid
    · have := (List.pairwise_cons.1 hsorted.2.1).1 first.id (List.mem_map_of_mem hin)
      omega

theorem returns_inv (h : Inv size s) (hinside : (s.partitions p).phase.inside = none)
    (hlev : (s.partitions p).phase.leveling = none) (hrun : (s.partitions p).phase ≠ .stopped)
    (result : Except String (Option ℕ)) : Inv size (s.returns p result) := by
  cases result with
  | ok token =>
    exact h.setPartition rfl (by rw [hinside]; rfl) (Or.inr ⟨by rw [hlev]; rfl, hrun⟩) fun _ _ => trivial
  | error e => exact h.setPartition rfl (by rw [hinside]; rfl) (Or.inl rfl) fun _ _ => trivial

theorem nextJob_inv (h : Inv size s) (hp : p < size) (hinside : (s.partitions p).phase.inside = none)
    (hlev : (s.partitions p).phase.leveling = none) (hrun : (s.partitions p).phase ≠ .stopped) (r : JobRun) :
    ∃ s', s.nextJob size p r = .ok s' ∧ Inv size s' := by
  unfold nextJob
  split
  · exact ⟨_, rfl, returns_inv h hinside hlev hrun _⟩
  · rename_i job hfind
    obtain ⟨hid, hlt⟩ := h.nextJob_id hp hinside hfind
    exact levelPass_inv h hp r hid hlt hinside (Or.inl ⟨hlev, hrun⟩)

/-- mark `p` as having executed job `id` -/
def mark (p id : ℕ) (job : GangJob) : GangJob :=
  if job.id = id then { job with executed := job.executed.set p true } else job

theorem mark_fields (p id : ℕ) (job : GangJob) :
    (mark p id job).id = job.id ∧ (mark p id job).entries = job.entries ∧ (mark p id job).poster = job.poster ∧
      (mark p id job).executed.length = job.executed.length := by
  unfold mark
  split_ifs <;> simp

/-- **Mark.** A partition that is done with its job leaves it marked, and a job everybody has marked leaves the board. -/
theorem markExecuted_inv (h : Inv size s) (hp : p < size) {r : JobRun} {id : ℕ} {sampled : Except String (Option ℕ)}
    (hphase : (s.partitions p).phase = .computed r id sampled) :
    ∃ s', s.markExecuted p id = .ok s' ∧ s'.partitions = s.partitions ∧
      Inv size (s'.setPartition p { s'.partitions p with phase := .idle }) := by
  have hlen := h.inside p hp id (by rw [hphase]; rfl)
  have hdone : (s.partitions p).done = id := by simp [Partition.done, hphase, GangPhase.inside, hlen]
  have hid : id < s.board.nextId := by
    have := h.entered_le hp
    omega
  have hexists := h.present p hp id (by omega) hid
  unfold markExecuted
  rw [jobMut_ok hexists]
  refine ⟨_, rfl, rfl, ?_⟩
  set marked : List GangJob := (s.board.jobs.map (mark p id)).filter fun job => !job.executed.all fun e => e
    with hmarked
  set s' : Gang := ({ s with board := { s.board with jobs := marked } } : Gang).setPartition p
    { s.partitions p with phase := .idle } with hs'
  have hself : s'.partitions p = { s.partitions p with phase := .idle } := by simp [hs', Gang.setPartition]
  have hother : ∀ q, q ≠ p → s'.partitions q = s.partitions q := by
    intro q hq
    simp [hs', Gang.setPartition, Function.update_of_ne hq]
  have hentered : ∀ q, (s'.partitions q).entered = (s.partitions q).entered := by
    intro q
    by_cases hq : q = p
    · rw [hq, hself]
    · rw [hother q hq]
  have hdone' : (s'.partitions p).done = id + 1 := by
    rw [hself]
    simp [Partition.done, GangPhase.inside, hlen]
  have hmem : ∀ job' ∈ marked, ∃ job ∈ s.board.jobs, job' = mark p id job := by
    intro job' hj'
    obtain ⟨job, hj, rfl⟩ := List.mem_map.1 (List.mem_filter.1 hj').1
    exact ⟨job, hj, rfl⟩
  have hexec : ∀ job ∈ s.board.jobs, ∀ q < size,
      (mark p id job).executed[q]? = some (decide (job.id < (s'.partitions q).done)) := by
    intro job hj q hq
    have hshape := (h.shape job hj).2.1
    by_cases hqp : q = p
    · subst hqp
      rw [hdone']
      unfold mark
      split_ifs with hjid
      · rw [List.getElem?_set_self (by omega)]
        simp [hjid]
      · rw [h.executed job hj q hq, hdone]
        congr 1
        exact decide_eq_decide.2 (by omega)
    · rw [hother q hqp, ← h.executed job hj q hq]
      unfold mark
      split_ifs
      · exact List.getElem?_set_ne (Ne.symm hqp)
      · rfl
  have hjobs : s'.board.jobs = marked := rfl
  show Inv size s'
  exact {
    posters := h.posters
    posters_lt := h.posters_lt
    ids := by
      rw [hjobs]
      have hmap : (s.board.jobs.map (mark p id)).map (·.id) = s.board.jobs.map (·.id) := by
        rw [List.map_map]
        exact List.map_congr_left fun job _ => (mark_fields p id job).1
      exact (hmap ▸ h.ids).sublist (List.filter_sublist.map _)
    ids_lt := fun job' hj' => by
      obtain ⟨job, hj, rfl⟩ := hmem job' hj'
      rw [(mark_fields p id job).1]
      exact h.ids_lt job hj
    shape := fun job' hj' => by
      obtain ⟨job, hj, rfl⟩ := hmem job' hj'
      obtain ⟨h1, h2, h3, h4⟩ := mark_fields p id job
      rw [h1, h2, h3, h4]
      exact h.shape job hj
    executed := fun job' hj' q hq => by
      obtain ⟨job, hj, rfl⟩ := hmem job' hj'
      rw [(mark_fields p id job).1]
      exact hexec job hj q hq
    present := fun q hq i hle hi => by
      have hold : (s.partitions q).done ≤ i := by
        by_cases hqp : q = p
        · subst hqp
          omega
        · rw [hother q hqp] at hle
          exact hle
      obtain ⟨job, hj, rfl⟩ := h.present q hq i hold hi
      refine ⟨mark p id job, List.mem_filter.2 ⟨List.mem_map_of_mem hj, ?_⟩, (mark_fields p id job).1⟩
      have hget := hexec job hj q hq
      rw [decide_eq_false (by omega)] at hget
      rw [Bool.not_eq_true', List.all_eq_false]
      exact ⟨false, List.mem_of_getElem? hget, by simp⟩
    order := fun q hq => by rw [hentered]; exact h.order q hq
    entered_lt := fun q hq => by rw [hentered]; exact h.entered_lt q hq
    rank := fun q hq => by rw [hentered]; exact h.rank q hq
    leveling := fun q hq i hi => by
      by_cases hqp : q = p
      · rw [hqp, hself] at hi
        cases hi
      · rw [hother q hqp] at hi ⊢
        obtain ⟨h1, h2, h3⟩ := h.leveling q hq i hi
        refine ⟨h1, h2, fun job' hj' hjid => ?_⟩
        obtain ⟨job, hj, rfl⟩ := hmem job' hj'
        rw [(mark_fields p id job).2.1]
        rw [(mark_fields p id job).1] at hjid
        exact h3 job hj hjid
    inside := fun q hq i hi => by
      by_cases hqp : q = p
      · rw [hqp, hself] at hi
        cases hi
      · rw [hother q hqp] at hi ⊢
        exact h.inside q hq i hi
    fresh := fun q hq job' hj' hle hlev hstop => by
      obtain ⟨job, hj, rfl⟩ := hmem job' hj'
      rw [(mark_fields p id job).1] at hle hlev
      rw [(mark_fields p id job).2.1]
      rw [hentered] at hle
      refine h.fresh q hq job hj hle ?_ ?_
      · by_cases hqp : q = p
        · rw [hqp, hphase]
          nofun
        · rw [hother q hqp] at hlev
          exact hlev
      · by_cases hqp : q = p
        · rw [hqp, hphase]
          nofun
        · rw [hother q hqp] at hstop
          exact hstop
    checked := fun q hq e he job' hj' hjid => by
      obtain ⟨job, hj, rfl⟩ := hmem job' hj'
      rw [(mark_fields p id job).1] at hjid
      rw [(mark_fields p id job).2.1]
      rw [hentered] at he
      exact h.checked q hq e he job hj hjid
    covered := fun q hq e he job' hj' hjid => by
      obtain ⟨job, hj, rfl⟩ := hmem job' hj'
      rw [(mark_fields p id job).1] at hjid
      rw [(mark_fields p id job).2.1]
      rw [hentered] at he
      exact h.covered q hq e he job hj hjid
    agree := fun q hq q' hq' => by rw [hentered, hentered]; exact h.agree q hq q' hq' }

theorem resume_inv (h : Inv size s) (hp : p < size) (hinside : (s.partitions p).phase.inside = none)
    (hlev : (s.partitions p).phase.leveling = none) (hrun : (s.partitions p).phase ≠ .stopped) (r : JobRun)
    (token : Except String (Option ℕ)) : ∃ s', s.resume size p r token = .ok s' ∧ Inv size s' := by
  cases token with
  | error e => exact ⟨_, rfl, returns_inv h hinside hlev hrun _⟩
  | ok token => exact nextJob_inv h hp hinside hlev hrun _

theorem pass_inv (h : Inv size s) (hp : p < size) : ∃ s', s.pass size p = .ok s' ∧ Inv size s' := by
  unfold pass
  split
  · rename_i own hphase
    split
    · exact ⟨_, rfl, returns_inv h (by rw [hphase]; rfl) (by rw [hphase]; rfl) (by rw [hphase]; nofun) _⟩
    · exact nextJob_inv h hp (by rw [hphase]; rfl) (by rw [hphase]; rfl) (by rw [hphase]; nofun) _
  · rename_i r id hphase
    obtain ⟨hid, hlt, -⟩ := h.leveling p hp id (by rw [hphase]; rfl)
    exact levelPass_inv h hp r hid hlt (by rw [hphase]; rfl) (Or.inr ⟨r, hphase⟩)
  · rename_i r id sampled hphase
    obtain ⟨s₁, hmark, hparts, hinv⟩ := markExecuted_inv h hp hphase
    have hidle : ((s₁.setPartition p { s₁.partitions p with phase := .idle }).partitions p).phase = .idle := by
      simp [Gang.setPartition]
    simp only [hmark]
    exact resume_inv hinv hp (by rw [hidle]; rfl) (by rw [hidle]; rfl) (by rw [hidle]; nofun) _ _
  · exact ⟨s, rfl, h⟩

/-- **Post.** A new job is at the end of the posting order and nobody has checked in. -/
theorem post_inv (h : Inv size s) (hp : p < size) (slot : ℕ) (prompt : List ℕ) : Inv size (s.post size p slot prompt) := by
  unfold post
  split
  · rename_i hidle
    set job : GangJob :=
      ⟨s.board.nextId, prompt, p, slot, List.replicate size none, List.replicate size false⟩ with hjob
    set s' : Gang := ⟨⟨s.board.nextId + 1, s.board.jobs ++ [job]⟩, s.partitions, s.posters ++ [p]⟩ with hs'
    have hmem : ∀ j ∈ s'.board.jobs, j ∈ s.board.jobs ∨ j = job := by
      intro j hj
      simpa [hs'] using hj
    have hposter : ∀ id < s.board.nextId, s'.posters[id]? = s.posters[id]? := by
      intro id hid
      exact List.getElem?_append_left (by rw [h.posters]; exact hid)
    have hinv : Inv size s' := {
      posters := by simp [hs', h.posters]
      posters_lt := fun q hq => by
        rcases List.mem_append.1 hq with hq | hq
        · exact h.posters_lt q hq
        · rw [List.mem_singleton.1 hq]
          exact hp
      ids := by
        simp only [hs', List.map_append, List.map_cons, List.map_nil, List.pairwise_append]
        refine ⟨h.ids, List.pairwise_singleton _ _, fun id hid id' hid' => ?_⟩
        obtain ⟨j, hj, rfl⟩ := List.mem_map.1 hid
        rw [List.mem_singleton.1 hid']
        exact h.ids_lt j hj
      ids_lt := fun j hj => by
        rcases hmem j hj with hj | rfl
        · exact Nat.lt_succ_of_lt (h.ids_lt j hj)
        · exact Nat.lt_succ_self _
      shape := fun j hj => by
        rcases hmem j hj with hj | rfl
        · rw [hposter _ (h.ids_lt j hj)]
          exact h.shape j hj
        · refine ⟨by simp [hjob], by simp [hjob], ?_⟩
          simp only [hs', hjob]
          rw [List.getElem?_append_right (by rw [h.posters]), h.posters]
          simp
      executed := fun j hj q hq => by
        rcases hmem j hj with hj | rfl
        · exact h.executed j hj q hq
        · have hle := h.entered_le hq
          have hdone : (s.partitions q).done ≤ (s.partitions q).entered.length := Nat.sub_le _ _
          rw [List.getElem?_replicate, if_pos hq]
          exact congrArg some (decide_eq_false (by show ¬ s.board.nextId < (s.partitions q).done; omega)).symm
      present := fun q hq id hle hid => by
        rcases Nat.lt_succ_iff_lt_or_eq.1 hid with hid | rfl
        · obtain ⟨j, hj, hjid⟩ := h.present q hq id hle hid
          exact ⟨j, List.mem_append_left _ hj, hjid⟩
        · exact ⟨job, List.mem_append_right _ (List.mem_singleton_self _), rfl⟩
      order := h.order
      entered_lt := fun q hq e he => Nat.lt_succ_of_lt (h.entered_lt q hq e he)
      rank := fun q hq e he poster hget => by
        rw [hposter _ (h.entered_lt q hq e he)] at hget
        exact h.rank q hq e he poster hget
      leveling := fun q hq id hid => by
        obtain ⟨h1, h2, h3⟩ := h.leveling q hq id hid
        refine ⟨h1, Nat.lt_succ_of_lt h2, fun j hj hjid => ?_⟩
        rcases hmem j hj with hj | rfl
        · exact h3 j hj hjid
        · exact absurd h2 (by rw [← hjid]; exact lt_irrefl _)
      inside := h.inside
      fresh := fun q hq j hj hle hlev hstop => by
        rcases hmem j hj with hj | rfl
        · exact h.fresh q hq j hj hle hlev hstop
        · rw [List.getElem?_replicate, if_pos hq]
      checked := fun q hq e he j hj hjid => by
        rcases hmem j hj with hj | rfl
        · exact h.checked q hq e he j hj hjid
        · exact absurd (h.entered_lt q hq e he) (by rw [← hjid]; exact lt_irrefl _)
      covered := fun q hq e he j hj hjid => by
        rcases hmem j hj with hj | rfl
        · exact h.covered q hq e he j hj hjid
        · exact absurd (h.entered_lt q hq e he) (by rw [← hjid]; exact lt_irrefl _)
      agree := h.agree }
    have hphase : (s'.partitions p).phase = .idle := hidle
    exact hinv.setPartition rfl (by rw [hphase]; rfl) (Or.inr ⟨by rw [hphase]; rfl, by rw [hphase]; nofun⟩)
      fun _ _ => trivial
  · exact h

/-! ## Runs -/

/-- **Step.** No lookup fails and the invariant holds after every operation. -/
theorem step_inv (h : Inv size s) (op : GangOp) : ∃ s', s.step size op = .ok s' ∧ Inv size s' := by
  cases op with
  | post p slot prompt =>
    refine ⟨_, rfl, ?_⟩
    split_ifs with hp
    · exact post_inv h hp slot prompt
    · exact h
  | serve p =>
    simp only [step]
    split
    · rename_i hidle
      refine ⟨_, rfl, ?_⟩
      split_ifs
      · exact h.setPartition rfl (by rw [hidle]; rfl) (Or.inr ⟨by rw [hidle]; rfl, by rw [hidle]; nofun⟩)
          fun _ _ => trivial
      · exact h
    · exact ⟨s, rfl, h⟩
  | pass p =>
    simp only [step]
    split_ifs with hp
    · exact pass_inv h hp
    · exact ⟨s, rfl, h⟩
  | pumpStep p =>
    simp only [step]
    split
    · rename_i r id hphase
      refine ⟨_, rfl, h.setPartition rfl (by rw [hphase]; rfl)
        (Or.inr ⟨by rw [hphase]; rfl, by rw [hphase]; nofun⟩) fun entry hok => ?_⟩
      rw [hphase] at hok
      exact hok
    · exact ⟨s, rfl, h⟩
  | pumpFailed p =>
    simp only [step]
    split
    · rename_i r id hphase
      exact ⟨_, rfl, h.setPartition rfl (by rw [hphase]; rfl) (Or.inl rfl) fun _ _ => trivial⟩
    · exact ⟨s, rfl, h⟩
  | prefillCp p steps sampled =>
    simp only [step]
    split
    · rename_i r id hphase
      exact ⟨_, rfl, h.setPartition rfl (by rw [hphase]; rfl)
        (Or.inr ⟨by rw [hphase]; rfl, by rw [hphase]; nofun⟩) fun _ _ => trivial⟩
    · exact ⟨s, rfl, h⟩
  | advance p steps =>
    simp only [step]
    split
    · rename_i hidle
      refine ⟨_, rfl, h.setPartition rfl rfl (Or.inr ⟨rfl, by rw [hidle]; nofun⟩) fun _ _ => ?_⟩
      show EntryOk _ _ (s.partitions p).phase
      rw [hidle]
      trivial
    · exact ⟨s, rfl, h⟩

theorem run_inv (h : Inv size s) (ops : List GangOp) : ∃ s', run (step size) s ops = .ok s' ∧ Inv size s' := by
  induction ops generalizing s with
  | nil => exact ⟨s, rfl, h⟩
  | cons op ops ih =>
    obtain ⟨m, hm, hinv⟩ := step_inv h op
    obtain ⟨s', hs', hinv'⟩ := ih hinv
    exact ⟨s', (run_cons_ok s s' op ops).2 ⟨m, hm, hs'⟩, hinv'⟩

end Gang

end Pegainfer.K3
