/-
The whale rendezvous: free-running ranks agree, over message channels, on one launch at which all of them enter a prefill.

The sequencer gathers one whale at a time and commits it to a launch above every reply and above the last committed
launch; a member arms on a gather, schedules on a commit, disarms on a cancel, and enters at the boundary its count names.
`Fleet` closes the two machines: a channel from the sequencer to each rank, a link from each rank to the sequencer, the
launch counts, and a record of what was sent and entered. Any merge of the links is allowed, so every order in which one
shared queue could serve the sequencer is among the runs.
- `k3WhaleGang_length`, `k3WhaleGang_nodup`, `k3WhaleGang_lt`: a gang has the width's many distinct ranks of the world.
-/
import Mathlib.Tactic
import Pegainfer.Lib.Machine
import Pegainfer.K3.Gang

namespace Pegainfer.K3

open Pegainfer.Lib

/-! ## Width and gang -/

def k3WhaleSegmentFloor : ℕ := 2048

def k3WhaleCommitSlack : ℕ := 4

/-- the leveled split of a prompt over a width; floating point in the source, a parameter here -/
abbrev WhaleSegments := (total width chunkTokens : ℕ) → List (ℕ × ℕ)

/-- every leveled segment above the floor and within one chunk, the last one ending the prompt -/
def k3WhaleAdmits (k3WhaleSegments : WhaleSegments) (total width chunkTokens : ℕ) : Bool :=
  if width < 2 ∨ total < width * k3WhaleSegmentFloor then false
  else
    let segments := k3WhaleSegments total width chunkTokens
    (segments.getLast?.any fun segment => segment.1 + segment.2 == total) &&
      segments.all fun segment => k3WhaleSegmentFloor ≤ segment.2 && segment.2 ≤ chunkTokens

/-- double the width while it stays within the world; the first argument bounds the passes -/
def growWidth (world : ℕ) : ℕ → ℕ → ℕ
  | 0, width => width
  | passes + 1, width => if width * 2 ≤ world then growWidth world passes (width * 2) else width

/-- halve the width until the split is admitted; the first argument bounds the passes -/
def shrinkWidth (admits : ℕ → Bool) : ℕ → ℕ → Option ℕ
  | 0, _ => none
  | passes + 1, width =>
    if width ≥ 2 then if admits width then some width else shrinkWidth admits passes (width / 2) else none

/-- the widest power of two within the world that the prompt admits -/
def k3WhaleWidth (k3WhaleSegments : WhaleSegments) (total world chunkTokens : ℕ) : Option ℕ :=
  let width := growWidth world world 1
  shrinkWidth (fun width => k3WhaleAdmits k3WhaleSegments total width chunkTokens) width width

/-- the first rank of the block: tray-aligned from four ranks on, moved back to end within the world -/
def gangStart (poster width world : ℕ) : ℕ :=
  if width ≥ 4 then min (poster / 4 * 4) (world - width) else min poster (world - width)

/-- the block of ranks around the poster, the poster rotated to the end -/
def k3WhaleGang (poster width world : ℕ) : List ℕ :=
  ((List.range' (gangStart poster width world) width).filter fun r => r != poster) ++ [poster]

/-- the doubling loop has run to its end -/
theorem growWidth_maximal (world : ℕ) : ∀ passes width, 0 < width → world < width + passes →
    world < growWidth world passes width * 2
  | 0, width, hpos, h => by
    simp only [growWidth]
    omega
  | passes + 1, width, hpos, h => by
    simp only [growWidth]
    split_ifs with hle
    · exact growWidth_maximal world passes (width * 2) (by omega) (by omega)
    · omega

theorem growWidth_le (world : ℕ) : ∀ passes width, width ≤ max 1 world → growWidth world passes width ≤ max 1 world
  | 0, _, h => h
  | passes + 1, width, h => by
    simp only [growWidth]
    split_ifs with hle
    · exact growWidth_le world passes (width * 2) (by omega)
    · exact h

/-- the halving loop stops at an admitted width no wider than it started -/
theorem shrinkWidth_some {admits : ℕ → Bool} : ∀ {passes width w : ℕ}, shrinkWidth admits passes width = some w →
    2 ≤ w ∧ w ≤ width ∧ admits w = true
  | 0, _, _, h => by cases h
  | passes + 1, width, w, h => by
    simp only [shrinkWidth] at h
    split_ifs at h with hge hadmits
    · cases h
      exact ⟨hge, le_refl _, hadmits⟩
    · obtain ⟨h2, hle, ha⟩ := shrinkWidth_some h
      exact ⟨h2, by omega, ha⟩

theorem k3WhaleWidth_le {segments : WhaleSegments} {total world chunkTokens width : ℕ}
    (h : k3WhaleWidth segments total world chunkTokens = some width) : 2 ≤ width ∧ width ≤ world := by
  obtain ⟨h2, hle, -⟩ := shrinkWidth_some h
  have hmax := growWidth_le world world 1 (by omega)
  omega

theorem gangStart_spec {poster width world : ℕ} (hposter : poster < world) (h2 : 2 ≤ width) (hw : width ≤ world) :
    gangStart poster width world ≤ poster ∧ poster < gangStart poster width world + width ∧
    gangStart poster width world + width ≤ world := by
  unfold gangStart
  have := Nat.div_mul_le_self poster 4
  have := Nat.lt_div_mul_add (a := poster) (b := 4) (by omega)
  split_ifs <;> omega

section Gang

variable {poster width world : ℕ}

theorem k3WhaleGang_getLast : (k3WhaleGang poster width world).getLast? = some poster := by
  simp [k3WhaleGang]

theorem k3WhaleGang_nodup : (k3WhaleGang poster width world).Nodup := by
  rw [k3WhaleGang, List.nodup_append]
  refine ⟨(List.nodup_range' ..).filter _, List.nodup_singleton _, ?_⟩
  intro a ha b hb
  simp only [List.mem_filter, bne_iff_ne] at ha
  rw [List.mem_singleton.1 hb]
  exact ha.2

theorem k3WhaleGang_lt (hposter : poster < world) (h2 : 2 ≤ width) (hw : width ≤ world) :
    ∀ r ∈ k3WhaleGang poster width world, r < world := by
  intro r hr
  obtain ⟨-, -, hend⟩ := gangStart_spec hposter h2 hw
  rw [k3WhaleGang, List.mem_append] at hr
  rcases hr with hr | hr
  · have := List.mem_range'_1.1 (List.mem_filter.1 hr).1
    omega
  · rw [List.mem_singleton.1 hr]
    exact hposter

theorem k3WhaleGang_length (hposter : poster < world) (h2 : 2 ≤ width) (hw : width ≤ world) :
    (k3WhaleGang poster width world).length = width := by
  obtain ⟨hle, hlt, -⟩ := gangStart_spec hposter h2 hw
  have hmem : poster ∈ List.range' (gangStart poster width world) width := List.mem_range'_1.2 ⟨hle, hlt⟩
  have herase : (List.range' (gangStart poster width world) width).filter (fun r => r != poster) =
      (List.range' (gangStart poster width world) width).erase poster :=
    ((List.nodup_range' ..).erase_eq_filter poster).symm
  rw [k3WhaleGang, herase, List.length_append, List.length_erase_of_mem hmem, List.length_range']
  simp only [List.length_singleton]
  omega

end Gang

/-! ## Messages -/

structure WhaleDescriptor where
  seq : ℕ
  request : ℕ
  poster : ℕ
  gang : List ℕ
  prompt : List UInt32
  promptHash : UInt64
deriving DecidableEq, Repr

def leBytes (token : UInt32) : List UInt8 :=
  [token.toUInt8, (token >>> 8).toUInt8, (token >>> 16).toUInt8, (token >>> 24).toUInt8]

/-- FNV-1a over the prompt's little-endian bytes -/
def k3WhalePromptHash (prompt : List UInt32) : UInt64 :=
  prompt.foldl (fun hash token =>
    (leBytes token).foldl (fun hash byte => (hash ^^^ byte.toUInt64) * 0x100000001b3) hash) 0xcbf29ce484222325

namespace WhaleDescriptor

def cpRankOf (d : WhaleDescriptor) (rank : ℕ) : Option ℕ := d.gang.findIdx? fun member => member == rank

def verify (d : WhaleDescriptor) : Except String Unit :=
  if k3WhalePromptHash d.prompt ≠ d.promptHash then
    .error "prompt hash mismatch: the descriptor was corrupted in transit"
  else if d.gang.getLast? ≠ some d.poster then .error "gang does not end at its poster"
  else .ok ()

end WhaleDescriptor

inductive WhaleToSequencer
  | request (request poster : ℕ) (prompt : List UInt32)
  | ready (seq rank count : ℕ)
deriving DecidableEq, Repr

inductive WhaleToMember
  | gather (descriptor : WhaleDescriptor)
  | commit (seq launch : ℕ)
  | cancel (seq : ℕ)
deriving DecidableEq, Repr

structure WhaleOutbound where
  toRank : ℕ
  message : WhaleToMember
deriving DecidableEq, Repr

def broadcast (gang : List ℕ) (message : WhaleToMember) : List WhaleOutbound :=
  gang.map fun member => ⟨member, message⟩

/-! ## Sequencer -/

/-- one whale mid-gather; replies stand in gang order -/
structure Gathering where
  descriptor : WhaleDescriptor
  replies : List (Option ℕ)
deriving DecidableEq, Repr

structure QueuedWhale where
  request : ℕ
  poster : ℕ
  prompt : List UInt32
deriving DecidableEq, Repr

structure WhaleSequencer where
  world : ℕ
  chunkTokens : ℕ
  nextSeq : ℕ
  committedFloor : Option ℕ
  gathering : Option Gathering
  queue : List QueuedWhale
deriving DecidableEq, Repr

namespace WhaleSequencer

def new (world chunkTokens : ℕ) : WhaleSequencer := ⟨world, chunkTokens, 0, none, none, []⟩

variable (segments : WhaleSegments)

/-- the gather of a queued whale at a width -/
def gatheringOf (q : WhaleSequencer) (whale : QueuedWhale) (width : ℕ) : Gathering :=
  let gang := k3WhaleGang whale.poster width q.world
  ⟨⟨q.nextSeq, whale.request, whale.poster, gang, whale.prompt, k3WhalePromptHash whale.prompt⟩,
    List.replicate gang.length none⟩

/-- the body of the loop over the queue: a refused whale lets the one behind it start -/
def startQueued (q : WhaleSequencer) : List QueuedWhale → WhaleSequencer × List WhaleOutbound
  | [] => ({ q with queue := [] }, [])
  | whale :: queue =>
    match k3WhaleWidth segments whale.prompt.length q.world q.chunkTokens with
    | none =>
      let (q', outbound) := startQueued { q with nextSeq := q.nextSeq + 1 } queue
      (q', ⟨whale.poster, .cancel q.nextSeq⟩ :: outbound)
    | some width =>
      let gathering := q.gatheringOf whale width
      ({ q with nextSeq := q.nextSeq + 1, gathering := some gathering, queue := queue },
        broadcast gathering.descriptor.gang (.gather gathering.descriptor))

def startNextGather (q : WhaleSequencer) : WhaleSequencer × List WhaleOutbound :=
  match q.gathering with
  | some _ => (q, [])
  | none => q.startQueued segments q.queue

/-- the launch of a commit: past every reply, with slack, and past the last committed launch -/
def commitLaunch (q : WhaleSequencer) (highest : ℕ) : ℕ :=
  max (highest + k3WhaleCommitSlack) (q.committedFloor.elim 0 fun floor => floor + 1)

def tryCommit (q : WhaleSequencer) : WhaleSequencer × List WhaleOutbound :=
  match q.gathering with
  | none => (q, [])
  | some gathering =>
    match level 0 gathering.replies with
    | none => (q, [])
    | some highest =>
      let launch := q.commitLaunch highest
      let (q', outbound) := startNextGather segments { q with gathering := none, committedFloor := some launch }
      (q', broadcast gathering.descriptor.gang (.commit gathering.descriptor.seq launch) ++ outbound)

def onMessage (q : WhaleSequencer) : WhaleToSequencer → Except String (WhaleSequencer × List WhaleOutbound)
  | .request request poster prompt =>
    .ok (startNextGather segments { q with queue := q.queue ++ [⟨request, poster, prompt⟩] })
  | .ready seq rank count =>
    match q.gathering with
    | none => .ok (q, [])
    | some gathering =>
      if gathering.descriptor.seq ≠ seq then .ok (q, [])
      else
        match gathering.descriptor.cpRankOf rank with
        | none => .error "ready from a rank which is not in the gang"
        | some cpRank =>
          match gathering.replies[cpRank]? with
          | some none =>
            .ok (tryCommit segments { q with
              gathering := some { gathering with replies := gathering.replies.set cpRank (some count) } })
          | some (some _) => .error "rank replied ready twice"
          | none => .error "index out of bounds"

def onGatherTimeout (q : WhaleSequencer) : WhaleSequencer × List WhaleOutbound :=
  match q.gathering with
  | none => (q, [])
  | some gathering =>
    let (q', outbound) := startNextGather segments { q with gathering := none }
    (q', broadcast gathering.descriptor.gang (.cancel gathering.descriptor.seq) ++ outbound)

end WhaleSequencer

/-! ## Member -/

structure CommittedWhale where
  descriptor : WhaleDescriptor
  launch : ℕ
  cpRank : ℕ
deriving DecidableEq, Repr

inductive WhaleDuty
  | free
  | enter (whale : CommittedWhale)
deriving DecidableEq, Repr

structure WhaleMember where
  rank : ℕ
  armed : List WhaleDescriptor
  committed : List CommittedWhale
deriving DecidableEq, Repr

namespace WhaleMember

def new (rank : ℕ) : WhaleMember := ⟨rank, [], []⟩

/-- a commit of an armed whale: the count must be below the launch, the launch after the last one scheduled -/
def schedule (m : WhaleMember) (d : WhaleDescriptor) (launch count : ℕ) : Except String WhaleMember :=
  if launch ≤ count then .error "the commit slack failed to cover the arming window"
  else if m.committed.getLast?.any fun last => launch ≤ last.launch then .error "commit does not follow the last whale"
  else
    match d.cpRankOf m.rank with
    | none => .error "membership checked at gather"
    | some cpRank => .ok { m with committed := m.committed ++ [⟨d, launch, cpRank⟩] }

def onMessage (m : WhaleMember) (message : WhaleToMember) (count : ℕ) :
    Except String (WhaleMember × Option WhaleToSequencer) :=
  match message with
  | .gather d => do
    d.verify
    if (d.cpRankOf m.rank).isNone then .error "gathered a rank which is not in its gang"
    else .ok ({ m with armed := m.armed ++ [d] }, some (.ready d.seq m.rank count))
  | .commit seq launch =>
    match m.armed.find? fun d => d.seq == seq with
    | none => .error "commit for a whale this member never gathered"
    | some d => do
      let m ← schedule { m with armed := m.armed.eraseP fun d => d.seq == seq } d launch count
      .ok (m, none)
  | .cancel seq => .ok ({ m with armed := m.armed.filter fun d => d.seq != seq }, none)

def atLaunch (m : WhaleMember) (count : ℕ) : Except String (WhaleMember × WhaleDuty) :=
  match m.committed with
  | [] => .ok (m, .free)
  | whale :: committed =>
    if whale.launch < count then .error "a launch boundary went unconsulted"
    else if whale.launch = count then .ok ({ m with committed := committed }, .enter whale)
    else .ok (m, .free)

def isQuiet (m : WhaleMember) : Bool := m.armed.isEmpty && m.committed.isEmpty

end WhaleMember

/-! ## Fleet -/

/-- one entry into `prefill_cp`, for the record -/
structure WhaleEntry where
  count : ℕ
  whale : CommittedWhale
deriving DecidableEq, Repr

/-- what a duty adds to the record -/
def WhaleDuty.entries (count : ℕ) : WhaleDuty → List WhaleEntry
  | .free => []
  | .enter whale => [⟨count, whale⟩]

/-- the machines and the channels between them; `sent` and `entered` are records nothing reads -/
structure Fleet where
  sequencer : WhaleSequencer
  members : ℕ → WhaleMember
  counts : ℕ → ℕ
  inbox : ℕ → List WhaleToMember
  links : ℕ → List WhaleToSequencer
  sent : ℕ → List WhaleToMember
  entered : ℕ → List WhaleEntry

inductive FleetOp
  | post (rank request : ℕ) (prompt : List UInt32)
  | hear (rank : ℕ)
  | deliver (rank : ℕ)
  | gatherTimeout
  | boundary (rank : ℕ)
  | multiLaunch (rank launches : ℕ)

/-- the messages of an outbound list for one rank -/
def route (rank : ℕ) (outbound : List WhaleOutbound) : List WhaleToMember :=
  (outbound.filter fun out => out.toRank == rank).map (·.message)

namespace Fleet

def new (world chunkTokens : ℕ) (counts : ℕ → ℕ) : Fleet :=
  ⟨.new world chunkTokens, .new, counts, fun _ => [], fun _ => [], fun _ => [], fun _ => []⟩

/-- the sequencer moves and its messages enter the channels -/
def emit (s : Fleet) (moved : WhaleSequencer × List WhaleOutbound) : Fleet :=
  { s with
    sequencer := moved.1
    inbox := fun r => s.inbox r ++ route r moved.2
    sent := fun r => s.sent r ++ route r moved.2 }

/-- a rank hands a message to its link -/
def reply (s : Fleet) (rank : ℕ) (message : Option WhaleToSequencer) : Fleet :=
  { s with links := Function.update s.links rank (s.links rank ++ message.toList) }

variable (segments : WhaleSegments)

/-- the sequencer takes the next message of one link -/
def hear (s : Fleet) (rank : ℕ) : Except String Fleet :=
  match s.links rank with
  | [] => .ok s
  | message :: link => do
    let moved ← s.sequencer.onMessage segments message
    .ok (emit { s with links := Function.update s.links rank link } moved)

/-- a member takes the next message of its channel -/
def deliver (s : Fleet) (rank : ℕ) : Except String Fleet :=
  match s.inbox rank with
  | [] => .ok s
  | message :: inbox => do
    let (m, answer) ← (s.members rank).onMessage message (s.counts rank)
    .ok (reply { s with
      members := Function.update s.members rank m
      inbox := Function.update s.inbox rank inbox } rank answer)

/-- a member consults a boundary and launches once -/
def boundary (s : Fleet) (rank : ℕ) : Except String Fleet := do
  let (m, duty) ← (s.members rank).atLaunch (s.counts rank)
  .ok { s with
    members := Function.update s.members rank m
    counts := Function.update s.counts rank (s.counts rank + 1)
    entered := Function.update s.entered rank (s.entered rank ++ duty.entries (s.counts rank)) }

/-- one event; an error is a failed transition of one of the machines. Ranks outside the world do nothing. -/
def step (s : Fleet) : FleetOp → Except String Fleet
  | .post rank request prompt =>
    .ok (if rank < s.sequencer.world then s.reply rank (some (.request request rank prompt)) else s)
  | .hear rank => s.hear segments rank
  | .deliver rank => s.deliver rank
  | .gatherTimeout => .ok (s.emit (s.sequencer.onGatherTimeout segments))
  | .boundary rank => s.boundary rank
  | .multiLaunch rank launches =>
    .ok { s with counts := Function.update s.counts rank (s.counts rank + launches) }

/-- what the free-running ranks promise: a commit is delivered below its launch, and only a quiet member skips boundaries -/
def Paced (s : Fleet) : FleetOp → Prop
  | .deliver rank =>
    match s.inbox rank with
    | .commit _ launch :: _ => s.counts rank < launch
    | _ => True
  | .multiLaunch rank _ => (s.members rank).isQuiet
  | _ => True

instance (s : Fleet) (op : FleetOp) : Decidable (s.Paced op) := by
  unfold Paced
  split
  · split <;> infer_instance
  all_goals infer_instance

end Fleet

end Pegainfer.K3
