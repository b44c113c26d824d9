/-
Unanimity of the whale rendezvous over every interleaving.

The sequencer's whole output is determined by the fates of the whales it has sequenced: `Fate.messages` is what a rank is
sent about one whale, and what a rank was ever sent is the messages of the fates in order, then the open gather.
- `Flow`: a channel, read from its front, alternates a gather with its own commit or cancel. A member is armed for at
  most one whale.
- `Inv`: the commits a member was sent are, in order, those it has entered, those it has scheduled, those in flight.
- `whales_unanimous`: in every paced run nothing fails, every committed whale is entered once by each of its gang at its
  launch, and no other whale is entered.
-/
import Mathlib.Tactic
import Pegainfer.Lib.Machine
import Pegainfer.K3.Whale

set_option linter.unusedSectionVars false

namespace Pegainfer.K3

open Pegainfer.Lib

/-! ## Descriptors -/

/-- a descriptor the sequencer can have built -/
structure Formed (segments : WhaleSegments) (world chunkTokens : ℕ) (d : WhaleDescriptor) : Prop where
  hash : d.promptHash = k3WhalePromptHash d.prompt
  poster_lt : d.poster < world
  gang : ∃ width, k3WhaleWidth segments d.prompt.length world chunkTokens = some width ∧
    d.gang = k3WhaleGang d.poster width world

section Descriptors

variable {segments : WhaleSegments} {world chunkTokens : ℕ} {d : WhaleDescriptor}

theorem Formed.getLast (h : Formed segments world chunkTokens d) : d.gang.getLast? = some d.poster := by
  obtain ⟨width, -, hgang⟩ := h.gang
  rw [hgang, k3WhaleGang_getLast]

theorem Formed.nodup (h : Formed segments world chunkTokens d) : d.gang.Nodup := by
  obtain ⟨width, -, hgang⟩ := h.gang
  rw [hgang]
  exact k3WhaleGang_nodup

theorem Formed.verify (h : Formed segments world chunkTokens d) : d.verify = .ok () := by
  unfold WhaleDescriptor.verify
  rw [if_neg (by simp [h.hash]), if_neg (by simp [h.getLast])]

theorem cpRankOf_isSome {r : ℕ} (hr : r ∈ d.gang) : ∃ i, d.cpRankOf r = some i := by
  rw [← Option.isSome_iff_exists, WhaleDescriptor.cpRankOf, List.findIdx?_isSome, List.any_eq_true]
  exact ⟨r, hr, by simp⟩

theorem cpRankOf_getElem {r i : ℕ} (h : d.cpRankOf r = some i) : d.gang[i]? = some r := by
  rw [WhaleDescriptor.cpRankOf, List.findIdx?_eq_some_iff_getElem] at h
  obtain ⟨hi, heq, -⟩ := h
  rw [List.getElem?_eq_getElem hi]
  simpa using heq

theorem cpRankOf_mem {r i : ℕ} (h : d.cpRankOf r = some i) : r ∈ d.gang :=
  List.mem_of_getElem? (cpRankOf_getElem h)

/-- in gang order the ranks are `0..width` -/
theorem Formed.cpRanks (h : Formed segments world chunkTokens d) :
    d.gang.map d.cpRankOf = (List.range d.gang.length).map some := by
  refine List.ext_getElem (by simp) fun i hi _ => ?_
  have hlt : i < d.gang.length := by simpa using hi
  simp only [List.getElem_map, List.getElem_range]
  obtain ⟨j, hj⟩ := cpRankOf_isSome (List.getElem_mem hlt)
  have hat := cpRankOf_getElem hj
  rw [hj, (List.getElem?_inj hlt h.nodup).1 ((List.getElem?_eq_getElem hlt).trans hat.symm)]

end Descriptors

/-! ## Fates -/

/-- how a sequenced whale ended -/
inductive Fate
  | refused (seq poster : ℕ)
  | cancelled (descriptor : WhaleDescriptor)
  | committed (descriptor : WhaleDescriptor) (launch : ℕ)

namespace Fate

def seq : Fate → ℕ
  | .refused seq _ => seq
  | .cancelled d => d.seq
  | .committed d _ => d.seq

def descriptor : Fate → Option WhaleDescriptor
  | .refused _ _ => none
  | .cancelled d => some d
  | .committed d _ => some d

/-- the commit of a whale, as its members hear it -/
def commit : Fate → Option (ℕ × ℕ)
  | .committed d launch => some (d.seq, launch)
  | _ => none

/-- what one rank is sent about a whale -/
def messages (r : ℕ) : Fate → List WhaleToMember
  | .refused seq poster => if r = poster then [.cancel seq] else []
  | .cancelled d => if r ∈ d.gang then [.gather d, .cancel d.seq] else []
  | .committed d launch => if r ∈ d.gang then [.gather d, .commit d.seq launch] else []

theorem gather_mem {f : Fate} {r : ℕ} {d : WhaleDescriptor} (h : .gather d ∈ f.messages r) :
    f.descriptor = some d ∧ f.seq = d.seq ∧ r ∈ d.gang := by
  cases f <;> simp only [messages] at h <;> split_ifs at h with hr <;> simp at h <;> subst h <;>
    exact ⟨rfl, rfl, hr⟩

theorem commit_mem {f : Fate} {r seq launch : ℕ} (h : .commit seq launch ∈ f.messages r) :
    ∃ d, f = .committed d launch ∧ d.seq = seq ∧ r ∈ d.gang := by
  cases f with
  | refused s p =>
    simp only [messages] at h
    split_ifs at h <;> simp at h
  | cancelled d =>
    simp only [messages] at h
    split_ifs at h <;> simp at h
  | committed d l =>
    simp only [messages] at h
    split_ifs at h with hr
    · simp only [List.mem_cons, reduceCtorEq, WhaleToMember.commit.injEq, List.not_mem_nil, or_false, false_or] at h
      obtain ⟨rfl, rfl⟩ := h
      exact ⟨d, rfl, rfl, hr⟩
    · cases h

theorem cancel_mem {f : Fate} {r seq : ℕ} (h : .cancel seq ∈ f.messages r) : f.seq = seq ∧ f.commit = none := by
  cases f <;> simp only [messages] at h <;> split_ifs at h <;> simp at h <;> subst h <;> exact ⟨rfl, rfl⟩

end Fate

/-- the commits of a channel, in order -/
def commits (messages : List WhaleToMember) : List (ℕ × ℕ) :=
  messages.filterMap fun
    | .commit seq launch => some (seq, launch)
    | _ => none

@[simp] theorem commits_nil : commits [] = [] := rfl

@[simp] theorem commits_append (xs ys : List WhaleToMember) : commits (xs ++ ys) = commits xs ++ commits ys :=
  List.filterMap_append

@[simp] theorem commits_gather (d : WhaleDescriptor) (ms : List WhaleToMember) : commits (.gather d :: ms) = commits ms :=
  rfl

@[simp] theorem commits_commit (seq launch : ℕ) (ms : List WhaleToMember) :
    commits (.commit seq launch :: ms) = (seq, launch) :: commits ms := rfl

@[simp] theorem commits_cancel (seq : ℕ) (ms : List WhaleToMember) : commits (.cancel seq :: ms) = commits ms := rfl

theorem mem_commits {ms : List WhaleToMember} {seq launch : ℕ} : (seq, launch) ∈ commits ms ↔ .commit seq launch ∈ ms := by
  simp only [commits, List.mem_filterMap]
  constructor
  · rintro ⟨m, hm, heq⟩
    cases m <;> simp at heq
    obtain ⟨rfl, rfl⟩ := heq
    exact hm
  · exact fun h => ⟨_, h, rfl⟩

theorem commits_gathers (ds : List WhaleDescriptor) : commits (ds.map .gather) = [] := by
  induction ds with
  | nil => rfl
  | cons d ds ih => exact ih

/-- one rank hears a sublist of all commits -/
theorem commits_messages (r : ℕ) (fates : List Fate) :
    (commits (fates.flatMap (Fate.messages r))).Sublist (fates.filterMap Fate.commit) := by
  induction fates with
  | nil => exact List.Sublist.refl _
  | cons f fates ih =>
    rw [List.flatMap_cons, commits_append]
    cases f with
    | refused seq poster =>
      simp only [Fate.messages, List.filterMap_cons, Fate.commit]
      split_ifs <;> exact ih
    | cancelled d =>
      simp only [Fate.messages, List.filterMap_cons, Fate.commit]
      split_ifs <;> exact ih
    | committed d launch =>
      simp only [Fate.messages, List.filterMap_cons, Fate.commit]
      split_ifs
      · exact ih.cons_cons _
      · exact ih.cons _

/-! ## Channels -/

/-- a channel from a member armed for `armed` to a sequencer whose gather of this member is `opening` -/
def Flow (armed : List WhaleDescriptor) (inbox : List WhaleToMember) (opening : List WhaleDescriptor) : Prop :=
  match inbox with
  | [] => armed = opening
  | .gather d :: ms => armed = [] ∧ Flow [d] ms opening
  | .commit seq _ :: ms => (∃ d, armed = [d] ∧ d.seq = seq) ∧ Flow [] ms opening
  | .cancel seq :: ms => (∀ d ∈ armed, d.seq = seq) ∧ Flow [] ms opening

theorem Flow.append {armed opening opening' : List WhaleDescriptor} {ms ns : List WhaleToMember}
    (h : Flow armed ms opening) (hn : Flow opening ns opening') : Flow armed (ms ++ ns) opening' := by
  induction ms generalizing armed with
  | nil =>
    cases (h : armed = opening)
    exact hn
  | cons m ms ih =>
    cases m <;> exact ⟨h.1, ih h.2⟩

theorem route_append (r : ℕ) (xs ys : List WhaleOutbound) : route r (xs ++ ys) = route r xs ++ route r ys := by
  simp [route]

@[simp] theorem route_nil (r : ℕ) : route r [] = [] := rfl

theorem route_cons (r : ℕ) (out : WhaleOutbound) (xs : List WhaleOutbound) :
    route r (out :: xs) = (if r = out.toRank then [out.message] else []) ++ route r xs := by
  by_cases h : r = out.toRank
  · simp [route, h]
  · simp [route, h, Ne.symm h]

theorem route_broadcast {gang : List ℕ} (hnodup : gang.Nodup) (r : ℕ) (m : WhaleToMember) :
    route r (broadcast gang m) = if r ∈ gang then [m] else [] := by
  induction gang with
  | nil => rfl
  | cons x gang ih =>
    obtain ⟨hx, hnodup⟩ := List.nodup_cons.1 hnodup
    rw [broadcast, List.map_cons, route_cons, ← broadcast, ih hnodup]
    by_cases hr : r = x
    · subst hr
      simp [hx]
    · simp [hr]

/-! ## The invariant -/

/-- the open gather, as the rank it is sent to sees it -/
def WhaleSequencer.opening (q : WhaleSequencer) (r : ℕ) : List WhaleDescriptor :=
  match q.gathering with
  | none => []
  | some g => if r ∈ g.descriptor.gang then [g.descriptor] else []

/-- the gathers of one whale waiting in a channel -/
def gathersOf (seq : ℕ) (inbox : List WhaleToMember) : ℕ :=
  inbox.countP fun
    | .gather d => d.seq == seq
    | _ => false

/-- the replies about one whale waiting on a link -/
def readiesOf (seq : ℕ) (link : List WhaleToSequencer) : ℕ :=
  link.countP fun
    | .ready s _ _ => s == seq
    | _ => false

/-- one when the rank's reply has been taken -/
def Gathering.replied (g : Gathering) (r : ℕ) : ℕ :=
  match g.descriptor.cpRankOf r with
  | none => 0
  | some i => if g.replies[i]? = some none then 0 else 1

/-- a link carries its own rank's replies and the requests of ranks of the world -/
def LinkOk (world nextSeq r : ℕ) : WhaleToSequencer → Prop
  | .request _ poster _ => poster < world
  | .ready seq rank _ => rank = r ∧ seq < nextSeq

def CommittedWhale.commit (w : CommittedWhale) : ℕ × ℕ := (w.descriptor.seq, w.launch)

variable (segments : WhaleSegments) (world chunkTokens : ℕ)

/-- the sequencer beside the fates of what it has sequenced -/
structure Sequenced (fates : List Fate) (q : WhaleSequencer) : Prop where
  world_eq : q.world = world
  chunk_eq : q.chunkTokens = chunkTokens
  seqs : (fates.map Fate.seq).Pairwise (· < ·)
  seqs_lt : ∀ f ∈ fates, f.seq < q.nextSeq
  formed : ∀ f ∈ fates, ∀ d, f.descriptor = some d → Formed segments world chunkTokens d
  launches : (fates.filterMap Fate.commit).Pairwise fun a b => a.2 < b.2
  floor : ∀ c ∈ fates.filterMap Fate.commit, ∃ floor, q.committedFloor = some floor ∧ c.2 ≤ floor
  posters : ∀ w ∈ q.queue, w.poster < world
  gathering : ∀ g, q.gathering = some g → Formed segments world chunkTokens g.descriptor ∧
    g.descriptor.seq < q.nextSeq ∧ (∀ f ∈ fates, f.seq < g.descriptor.seq) ∧ g.replies.length = g.descriptor.gang.length

/-- each member of the open gather answers it at most once, and nobody else does -/
def Answers (s : Fleet) : Prop :=
  ∀ g, s.sequencer.gathering = some g → ∀ r,
    readiesOf g.descriptor.seq (s.links r) + g.replied r + gathersOf g.descriptor.seq (s.inbox r) ≤
      if r ∈ g.descriptor.gang then 1 else 0

structure Inv (fates : List Fate) (s : Fleet) : Prop where
  sequenced : Sequenced segments world chunkTokens fates s.sequencer
  ranks : ∀ r, (s.members r).rank = r
  stream : ∀ r, s.sent r = fates.flatMap (Fate.messages r) ++ (s.sequencer.opening r).map .gather
  suffix : ∀ r, s.inbox r <:+ s.sent r
  flow : ∀ r, Flow (s.members r).armed (s.inbox r) (s.sequencer.opening r)
  fifo : ∀ r, (s.entered r).map (·.whale.commit) ++ (s.members r).committed.map (·.commit) ++ commits (s.inbox r) =
    commits (s.sent r)
  armed : ∀ r, ∀ d ∈ (s.members r).armed, .gather d ∈ s.sent r
  scheduled : ∀ r, ∀ w ∈ (s.members r).committed,
    .gather w.descriptor ∈ s.sent r ∧ w.descriptor.cpRankOf r = some w.cpRank ∧ s.counts r ≤ w.launch
  entered : ∀ r, ∀ e ∈ s.entered r,
    .gather e.whale.descriptor ∈ s.sent r ∧ e.whale.descriptor.cpRankOf r = some e.whale.cpRank ∧ e.count = e.whale.launch
  links : ∀ r, ∀ m ∈ s.links r, LinkOk world s.sequencer.nextSeq r m
  answers : Answers s

section Emit

variable {segments : WhaleSegments} {world chunkTokens : ℕ} {fates fs : List Fate} {s : Fleet} {q : WhaleSequencer}

theorem new_inv (counts : ℕ → ℕ) : Inv segments world chunkTokens [] (Fleet.new world chunkTokens counts) := by
  constructor <;>
    simp [Fleet.new, WhaleSequencer.new, WhaleMember.new, WhaleSequencer.opening, Flow, Answers]
  constructor <;> simp

/-- a rank is gathered only into formed gangs it belongs to, of whales already numbered -/
theorem Inv.gathered (h : Inv segments world chunkTokens fates s) {r : ℕ} {d : WhaleDescriptor}
    (hd : .gather d ∈ s.sent r) : Formed segments world chunkTokens d ∧ r ∈ d.gang ∧ d.seq < s.sequencer.nextSeq := by
  rw [h.stream r, List.mem_append, List.mem_flatMap] at hd
  rcases hd with ⟨f, hf, hm⟩ | hd
  · obtain ⟨hdesc, hseq, hr⟩ := Fate.gather_mem hm
    exact ⟨h.sequenced.formed f hf d hdesc, hr, hseq ▸ h.sequenced.seqs_lt f hf⟩
  · simp only [WhaleSequencer.opening] at hd
    cases hg : s.sequencer.gathering with
    | none => simp [hg] at hd
    | some g =>
      obtain ⟨hformed, hlt, -⟩ := h.sequenced.gathering g hg
      simp only [hg] at hd
      split_ifs at hd with hr
      · simp only [List.map_cons, List.map_nil, List.mem_singleton, WhaleToMember.gather.injEq] at hd
        subst hd
        exact ⟨hformed, hr, hlt⟩
      · cases hd

/-- the sequencer moves: what it sends extends the fates and moves the open gather -/
theorem Inv.emit {out : List WhaleOutbound} (h : Inv segments world chunkTokens fates s)
    (hq : Sequenced segments world chunkTokens (fates ++ fs) q) (hnext : s.sequencer.nextSeq ≤ q.nextSeq)
    (hstream : ∀ r, (s.sequencer.opening r).map .gather ++ route r out =
      fs.flatMap (Fate.messages r) ++ (q.opening r).map .gather)
    (hflow : ∀ r, Flow (s.sequencer.opening r) (route r out) (q.opening r))
    (hanswers : Answers (s.emit (q, out))) : Inv segments world chunkTokens (fates ++ fs) (s.emit (q, out)) where
  sequenced := hq
  ranks := h.ranks
  stream r := by
    simp only [Fleet.emit]
    rw [h.stream r, List.flatMap_append, List.append_assoc, hstream r, List.append_assoc]
  suffix r := by
    obtain ⟨delivered, hd⟩ := h.suffix r
    exact ⟨delivered, by simp only [Fleet.emit, ← hd, List.append_assoc]⟩
  flow r := (h.flow r).append (hflow r)
  fifo r := by
    simp only [Fleet.emit, commits_append]
    rw [← h.fifo r, List.append_assoc _ (commits (s.inbox r))]
  armed r d hd := List.mem_append_left _ (h.armed r d hd)
  scheduled r w hw := by
    obtain ⟨hsent, hrest⟩ := h.scheduled r w hw
    exact ⟨List.mem_append_left _ hsent, hrest⟩
  entered r e he := by
    obtain ⟨hsent, hrest⟩ := h.entered r e he
    exact ⟨List.mem_append_left _ hsent, hrest⟩
  links r m hm := by
    have hok := h.links r m hm
    cases m with
    | request _ poster _ => exact hok
    | ready seq rank _ => exact ⟨hok.1, lt_of_lt_of_le hok.2 hnext⟩
  answers := hanswers

theorem emit_append (s : Fleet) (q q' : WhaleSequencer) (xs ys : List WhaleOutbound) :
    s.emit (q', xs ++ ys) = (s.emit (q, xs)).emit (q', ys) := by
  simp [Fleet.emit, route_append]

theorem emit_nil (s : Fleet) (q : WhaleSequencer) : s.emit (q, []) = { s with sequencer := q } := by
  simp [Fleet.emit]

/-- with no open gather nothing is owed -/
theorem answers_idle (hg : s.sequencer.gathering = none) : Answers s := by
  intro g hg'
  rw [hg] at hg'
  cases hg'

/-- a member of a gang hears each broadcast once -/
theorem opening_gathering {g : Gathering} (hg : q.gathering = some g) (r : ℕ) :
    q.opening r = if r ∈ g.descriptor.gang then [g.descriptor] else [] := by
  simp [WhaleSequencer.opening, hg]

theorem opening_idle (hg : q.gathering = none) (r : ℕ) : q.opening r = [] := by simp [WhaleSequencer.opening, hg]

/-! ## The sequencer's moves -/

/-- a whale ends: its number is the highest yet, and its launch, if any, is the new floor -/
theorem Sequenced.snoc (h : Sequenced segments world chunkTokens fates q) {q' : WhaleSequencer} {f : Fate}
    (hworld : q'.world = q.world) (hchunk : q'.chunkTokens = q.chunkTokens) (hqueue : q'.queue = q.queue)
    (hidle : q'.gathering = none) (hnext : q.nextSeq ≤ q'.nextSeq) (hafter : ∀ f' ∈ fates, f'.seq < f.seq)
    (hlt : f.seq < q'.nextSeq) (hformed : ∀ d, f.descriptor = some d → Formed segments world chunkTokens d)
    (hsame : f.commit = none → q'.committedFloor = q.committedFloor)
    (hfloor : ∀ c, f.commit = some c →
      q'.committedFloor = some c.2 ∧ ∀ floor, q.committedFloor = some floor → floor < c.2) :
    Sequenced segments world chunkTokens (fates ++ [f]) q' where
  world_eq := hworld.trans h.world_eq
  chunk_eq := hchunk.trans h.chunk_eq
  seqs := by
    rw [List.map_append, List.pairwise_append]
    refine ⟨h.seqs, List.pairwise_singleton _ _, ?_⟩
    intro a ha b hb
    obtain ⟨f', hf', rfl⟩ := List.mem_map.1 ha
    rw [List.map_singleton, List.mem_singleton] at hb
    rw [hb]
    exact hafter f' hf'
  seqs_lt := by
    intro f' hf'
    rcases List.mem_append.1 hf' with hf' | hf'
    · exact lt_of_lt_of_le (h.seqs_lt f' hf') hnext
    · rw [List.mem_singleton.1 hf']
      exact hlt
  formed := by
    intro f' hf' d hd
    rcases List.mem_append.1 hf' with hf' | hf'
    · exact h.formed f' hf' d hd
    · rw [List.mem_singleton.1 hf'] at hd
      exact hformed d hd
  launches := by
    rw [List.filterMap_append, List.pairwise_append]
    refine ⟨h.launches, ?_, ?_⟩
    · cases hc : f.commit <;> simp [hc]
    · intro a ha b hb
      simp only [List.mem_filterMap, List.mem_singleton, exists_eq_left] at hb
      obtain ⟨floor, hf, hle⟩ := h.floor a ha
      exact lt_of_le_of_lt hle ((hfloor b hb).2 floor hf)
  floor := by
    intro c hc
    rw [List.filterMap_append, List.mem_append] at hc
    rcases hc with hc | hc
    · obtain ⟨floor, hf, hle⟩ := h.floor c hc
      cases hcommit : f.commit with
      | none => exact ⟨floor, (hsame hcommit).trans hf, hle⟩
      | some c' => exact ⟨c'.2, (hfloor c' hcommit).1, le_of_lt (lt_of_le_of_lt hle ((hfloor c' hcommit).2 floor hf))⟩
    · simp only [List.mem_filterMap, List.mem_singleton, exists_eq_left] at hc
      exact ⟨c.2, (hfloor c hc).1, le_refl _⟩
  posters := by
    rw [hqueue]
    exact h.posters
  gathering g hg := by
    rw [hidle] at hg
    cases hg

/-- a refused whale -/
theorem Inv.refuse (h : Inv segments world chunkTokens fates s) (hidle : s.sequencer.gathering = none) (poster : ℕ) :
    Inv segments world chunkTokens (fates ++ [.refused s.sequencer.nextSeq poster])
      (s.emit ({ s.sequencer with nextSeq := s.sequencer.nextSeq + 1 }, [⟨poster, .cancel s.sequencer.nextSeq⟩])) := by
  have hidle' : ({ s.sequencer with nextSeq := s.sequencer.nextSeq + 1 } : WhaleSequencer).gathering = none := hidle
  refine h.emit ?_ (Nat.le_succ _) (fun r => ?_) (fun r => ?_) (answers_idle hidle)
  · exact h.sequenced.snoc rfl rfl rfl hidle (Nat.le_succ _) h.sequenced.seqs_lt (Nat.lt_succ_self _)
      (by simp [Fate.descriptor]) (fun _ => rfl) (by simp [Fate.commit])
  · rw [opening_idle hidle, opening_idle hidle', route_cons]
    simp [Fate.messages]
  · rw [opening_idle hidle, opening_idle hidle', route_cons]
    by_cases hr : r = poster <;> simp [hr, Flow]

/-- the open gather ends, by a commit or a cancel -/
theorem Inv.close (h : Inv segments world chunkTokens fates s) {g : Gathering} (hg : s.sequencer.gathering = some g)
    {q : WhaleSequencer} {f : Fate} {m : WhaleToMember} (hq : Sequenced segments world chunkTokens (fates ++ [f]) q)
    (hidle : q.gathering = none) (hnext : s.sequencer.nextSeq ≤ q.nextSeq)
    (hm : ∀ r, f.messages r = if r ∈ g.descriptor.gang then [.gather g.descriptor, m] else [])
    (hflow : Flow [g.descriptor] [m] []) :
    Inv segments world chunkTokens (fates ++ [f]) (s.emit (q, broadcast g.descriptor.gang m)) := by
  have hnodup := (h.sequenced.gathering g hg).1.nodup
  refine h.emit hq hnext (fun r => ?_) (fun r => ?_) (answers_idle hidle)
  · rw [opening_gathering hg, opening_idle hidle, route_broadcast hnodup, List.flatMap_singleton, hm r]
    split_ifs <;> rfl
  · rw [opening_gathering hg, opening_idle hidle, route_broadcast hnodup]
    split_ifs
    · exact hflow
    · rfl

theorem Inv.cancel (h : Inv segments world chunkTokens fates s) {g : Gathering} (hg : s.sequencer.gathering = some g) :
    Inv segments world chunkTokens (fates ++ [.cancelled g.descriptor])
      (s.emit ({ s.sequencer with gathering := none }, broadcast g.descriptor.gang (.cancel g.descriptor.seq))) := by
  obtain ⟨hformed, hlt, hafter, -⟩ := h.sequenced.gathering g hg
  refine h.close hg ?_ rfl (le_refl _) (fun r => rfl) ⟨by simp, rfl⟩
  exact h.sequenced.snoc rfl rfl rfl rfl (le_refl _) hafter hlt (by simpa [Fate.descriptor] using hformed)
    (fun _ => rfl) (by simp [Fate.commit])

theorem commitLaunch_gt (q : WhaleSequencer) (highest floor : ℕ) (h : q.committedFloor = some floor) :
    floor < q.commitLaunch highest := by
  simp only [WhaleSequencer.commitLaunch, h, Option.elim]
  omega

theorem Inv.commit (h : Inv segments world chunkTokens fates s) {g : Gathering} (hg : s.sequencer.gathering = some g)
    (highest : ℕ) :
    Inv segments world chunkTokens (fates ++ [.committed g.descriptor (s.sequencer.commitLaunch highest)])
      (s.emit ({ s.sequencer with gathering := none, committedFloor := some (s.sequencer.commitLaunch highest) },
        broadcast g.descriptor.gang (.commit g.descriptor.seq (s.sequencer.commitLaunch highest)))) := by
  obtain ⟨hformed, hlt, hafter, -⟩ := h.sequenced.gathering g hg
  refine h.close hg ?_ rfl (le_refl _) (fun r => rfl) ⟨⟨_, rfl, rfl⟩, rfl⟩
  refine h.sequenced.snoc rfl rfl rfl rfl (le_refl _) hafter hlt (by simpa [Fate.descriptor] using hformed)
    (by simp [Fate.commit]) ?_
  intro c hc
  simp only [Fate.commit, Option.some.injEq] at hc
  subst hc
  exact ⟨rfl, commitLaunch_gt s.sequencer highest⟩

theorem gathersOf_append (seq : ℕ) (xs ys : List WhaleToMember) :
    gathersOf seq (xs ++ ys) = gathersOf seq xs + gathersOf seq ys := List.countP_append

/-- no message in flight is about a whale not numbered yet -/
theorem Inv.fresh (h : Inv segments world chunkTokens fates s) (r : ℕ) :
    readiesOf s.sequencer.nextSeq (s.links r) = 0 ∧ gathersOf s.sequencer.nextSeq (s.inbox r) = 0 := by
  constructor
  · rw [readiesOf, List.countP_eq_zero]
    intro m hm
    cases m with
    | request _ _ _ => simp
    | ready seq rank count =>
      have hlt := (h.links r _ hm).2
      simp only [beq_iff_eq]
      omega
  · rw [gathersOf, List.countP_eq_zero]
    intro m hm
    cases m with
    | gather d =>
      have hlt := (h.gathered ((h.suffix r).subset hm)).2.2
      simp only [beq_iff_eq]
      omega
    | commit _ _ => simp
    | cancel _ => simp

/-- a gather starts -/
theorem Inv.open (h : Inv segments world chunkTokens fates s) (hidle : s.sequencer.gathering = none)
    {whale : QueuedWhale} {queue : List QueuedWhale} {width : ℕ} (hposter : whale.poster < world)
    (hqueue : ∀ w ∈ queue, w.poster < world)
    (hwidth : k3WhaleWidth segments whale.prompt.length world chunkTokens = some width) :
    Inv segments world chunkTokens fates
      (s.emit ({ s.sequencer with
          nextSeq := s.sequencer.nextSeq + 1
          gathering := some (s.sequencer.gatheringOf whale width)
          queue := queue },
        broadcast (s.sequencer.gatheringOf whale width).descriptor.gang
          (.gather (s.sequencer.gatheringOf whale width).descriptor))) := by
  set g := s.sequencer.gatheringOf whale width with hgdef
  have hseq : g.descriptor.seq = s.sequencer.nextSeq := rfl
  have hformed : Formed segments world chunkTokens g.descriptor :=
    ⟨rfl, hposter, width, hwidth, by rw [hgdef, ← h.sequenced.world_eq]; rfl⟩
  have hlength : g.replies = List.replicate g.descriptor.gang.length none := rfl
  have hq := h.sequenced
  rw [← List.append_nil fates]
  refine h.emit ?_ (Nat.le_succ _) (fun r => ?_) (fun r => ?_) ?_
  · rw [List.append_nil]
    exact {
      world_eq := hq.world_eq
      chunk_eq := hq.chunk_eq
      seqs := hq.seqs
      seqs_lt := fun f hf => Nat.lt_succ_of_lt (hq.seqs_lt f hf)
      formed := hq.formed
      launches := hq.launches
      floor := hq.floor
      posters := hqueue
      gathering := by
        intro g' hg'
        cases hg'
        exact ⟨hformed, Nat.lt_succ_self _, hq.seqs_lt, by simp [hlength]⟩ }
  · rw [opening_idle hidle, opening_gathering rfl, route_broadcast hformed.nodup]
    split_ifs <;> rfl
  · rw [opening_idle hidle, opening_gathering rfl, route_broadcast hformed.nodup]
    split_ifs
    · exact ⟨rfl, rfl⟩
    · rfl
  · intro g' hg' r
    cases hg'
    obtain ⟨hreadies, hgathers⟩ := h.fresh r
    have hreplied : g.replied r = 0 := by
      unfold Gathering.replied
      cases hrank : g.descriptor.cpRankOf r with
      | none => rfl
      | some i =>
        have hlt := (List.getElem?_eq_some_iff.1 (cpRankOf_getElem hrank)).1
        simp [hlength, hlt]
    simp only [Fleet.emit, gathersOf_append, route_broadcast hformed.nodup, hseq]
    rw [hreadies, hgathers, hreplied]
    split_ifs
    · simp [gathersOf, hseq]
    · simp [gathersOf]

/-- what holds between steps: the invariant, and no request queued while nothing is gathering -/
def Good (segments : WhaleSegments) (world chunkTokens : ℕ) (s : Fleet) : Prop :=
  (∃ fates, Inv segments world chunkTokens fates s) ∧ (s.sequencer.gathering = none → s.sequencer.queue = [])

theorem startQueued_good (queue : List QueuedWhale) : ∀ {fates : List Fate} {s : Fleet},
    Inv segments world chunkTokens fates s → s.sequencer.gathering = none → (∀ w ∈ queue, w.poster < world) →
    Good segments world chunkTokens (s.emit (s.sequencer.startQueued segments queue)) := by
  induction queue with
  | nil =>
    intro fates s h hidle _
    rw [WhaleSequencer.startQueued, emit_nil]
    refine ⟨⟨fates, ?_⟩, fun _ => rfl⟩
    exact { h with
      sequenced := { h.sequenced with posters := by simp }
      answers := answers_idle hidle }
  | cons whale queue ih =>
    intro fates s h hidle hposters
    have hposter := hposters whale (List.mem_cons_self ..)
    have hqueue : ∀ w ∈ queue, w.poster < world := fun w hw => hposters w (List.mem_cons_of_mem _ hw)
    rw [WhaleSequencer.startQueued]
    cases hwidth : k3WhaleWidth segments whale.prompt.length s.sequencer.world s.sequencer.chunkTokens with
    | none =>
      simp only
      rw [← List.singleton_append,
        emit_append s { s.sequencer with nextSeq := s.sequencer.nextSeq + 1 } _ [⟨whale.poster, .cancel s.sequencer.nextSeq⟩]]
      exact ih (h.refuse hidle whale.poster) hidle hqueue
    | some width =>
      rw [h.sequenced.world_eq, h.sequenced.chunk_eq] at hwidth
      refine ⟨⟨fates, h.open hidle hposter hqueue hwidth⟩, fun hnone => ?_⟩
      cases hnone

theorem startNextGather_good (h : Inv segments world chunkTokens fates s) :
    Good segments world chunkTokens (s.emit (s.sequencer.startNextGather segments)) := by
  unfold WhaleSequencer.startNextGather
  cases hg : s.sequencer.gathering with
  | some g =>
    simp only
    rw [emit_nil]
    exact ⟨⟨fates, h⟩, fun hnone => absurd (hg.symm.trans hnone) (by simp)⟩
  | none => exact startQueued_good _ h hg h.sequenced.posters

/-- a gather ends and the next one starts -/
theorem close_good {out : List WhaleOutbound} (h : Inv segments world chunkTokens fates (s.emit (q, out))) :
    Good segments world chunkTokens
      (s.emit ((q.startNextGather segments).1, out ++ (q.startNextGather segments).2)) := by
  rw [emit_append s q]
  exact startNextGather_good h

theorem onGatherTimeout_good (h : Good segments world chunkTokens s) :
    Good segments world chunkTokens (s.emit (s.sequencer.onGatherTimeout segments)) := by
  obtain ⟨⟨fates, hinv⟩, hqueue⟩ := h
  unfold WhaleSequencer.onGatherTimeout
  cases hg : s.sequencer.gathering with
  | none =>
    simp only
    rw [emit_nil]
    exact ⟨⟨fates, hinv⟩, hqueue⟩
  | some g => exact close_good (hinv.cancel hg)

theorem tryCommit_good (h : Inv segments world chunkTokens fates s) {g : Gathering}
    (hg : s.sequencer.gathering = some g) :
    Good segments world chunkTokens (s.emit (s.sequencer.tryCommit segments)) := by
  unfold WhaleSequencer.tryCommit
  rw [hg]
  cases hlevel : level 0 g.replies with
  | none =>
    simp only [hlevel]
    rw [emit_nil]
    exact ⟨⟨fates, h⟩, fun hnone => absurd (hg.symm.trans hnone) (by simp)⟩
  | some highest =>
    simp only [hlevel]
    exact close_good (h.commit hg highest)

/-! ## What the sequencer hears -/

theorem readiesOf_cons (seq : ℕ) (m : WhaleToSequencer) (link : List WhaleToSequencer) :
    readiesOf seq (m :: link) = readiesOf seq link + readiesOf seq [m] := by
  simp only [readiesOf, List.countP_cons, List.countP_nil]
  omega

theorem readiesOf_append (seq : ℕ) (xs ys : List WhaleToSequencer) :
    readiesOf seq (xs ++ ys) = readiesOf seq xs + readiesOf seq ys := List.countP_append

/-- a message leaves a link -/
theorem Inv.pop (h : Inv segments world chunkTokens fates s) {r : ℕ} {m : WhaleToSequencer}
    {link : List WhaleToSequencer} (hlink : s.links r = m :: link) :
    Inv segments world chunkTokens fates { s with links := Function.update s.links r link } := by
  refine { h with links := ?_, answers := ?_ }
  · intro r' m' hm'
    by_cases hr : r' = r
    · subst hr
      simp only [Function.update_self] at hm'
      exact h.links r' m' (by rw [hlink]; exact List.mem_cons_of_mem _ hm')
    · simp only [Function.update_of_ne hr] at hm'
      exact h.links r' m' hm'
  · intro g hg r'
    have hans := h.answers g hg r'
    by_cases hr : r' = r
    · subst hr
      simp only [Function.update_self]
      rw [hlink, readiesOf_cons] at hans
      omega
    · simpa only [Function.update_of_ne hr] using hans

theorem Inv.enqueue (h : Inv segments world chunkTokens fates s) {whale : QueuedWhale} (hposter : whale.poster < world) :
    Inv segments world chunkTokens fates
      { s with sequencer := { s.sequencer with queue := s.sequencer.queue ++ [whale] } } := by
  refine { h with sequenced := { h.sequenced with posters := ?_ }, answers := h.answers }
  intro w hw
  rcases List.mem_append.1 hw with hw | hw
  · exact h.sequenced.posters w hw
  · rw [List.mem_singleton.1 hw]
    exact hposter

/-- a reply is taken: it was owed, and its slot is free -/
theorem Inv.reply (h : Inv segments world chunkTokens fates s) {r count : ℕ} {link : List WhaleToSequencer}
    {g : Gathering} (hg : s.sequencer.gathering = some g) (hlink : s.links r = .ready g.descriptor.seq r count :: link) :
    ∃ i, g.descriptor.cpRankOf r = some i ∧ g.replies[i]? = some none ∧
      Inv segments world chunkTokens fates { s with
        links := Function.update s.links r link
        sequencer := { s.sequencer with
          gathering := some { g with replies := g.replies.set i (some count) } } } := by
  have hans := h.answers g hg r
  obtain ⟨hformed, hlt, hafter, hlength⟩ := h.sequenced.gathering g hg
  have hone : readiesOf g.descriptor.seq [.ready g.descriptor.seq r count] = 1 := by simp [readiesOf]
  rw [hlink, readiesOf_cons, hone] at hans
  split_ifs at hans with hr
  swap
  · omega
  obtain ⟨i, hi⟩ := cpRankOf_isSome hr
  have hilt : i < g.replies.length := by
    rw [hlength]
    exact (List.getElem?_eq_some_iff.1 (cpRankOf_getElem hi)).1
  have hfree : g.replies[i]? = some none := by
    by_contra hne
    simp only [Gathering.replied, hi, hne, if_false] at hans
    omega
  refine ⟨i, hi, hfree, ?_⟩
  have hpop := h.pop hlink
  refine { hpop with sequenced := { hpop.sequenced with gathering := ?_ }, stream := ?_, flow := ?_, answers := ?_ }
  · intro g' hg'
    cases hg'
    exact ⟨hformed, hlt, hafter, by simpa using hlength⟩
  · intro r'
    have := hpop.stream r'
    rw [opening_gathering hg] at this
    rw [opening_gathering rfl]
    exact this
  · intro r'
    have := hpop.flow r'
    rw [opening_gathering hg] at this
    rw [opening_gathering rfl]
    exact this
  · intro g' hg' r'
    cases hg'
    by_cases hrr : r' = r
    · subst hrr
      have htaken : Gathering.replied { g with replies := g.replies.set i (some count) } r' = 1 := by
        simp [Gathering.replied, hi, hilt]
      simp only [Function.update_self, htaken, hr, if_true]
      omega
    · have hsame : Gathering.replied { g with replies := g.replies.set i (some count) } r' = g.replied r' := by
        simp only [Gathering.replied]
        cases hj : g.descriptor.cpRankOf r' with
        | none => rfl
        | some j =>
          have hne : i ≠ j := by
            rintro rfl
            exact hrr (Option.some.inj ((cpRankOf_getElem hj).symm.trans (cpRankOf_getElem hi)))
          simp only [List.getElem?_set_ne hne]
      rw [hsame]
      simpa only [Function.update_of_ne hrr] using h.answers g hg r'

theorem hear_good (h : Good segments world chunkTokens s) (r : ℕ) :
    ∃ s', s.hear segments r = .ok s' ∧ Good segments world chunkTokens s' := by
  obtain ⟨⟨fates, hinv⟩, hqueue⟩ := h
  unfold Fleet.hear
  cases hlink : s.links r with
  | nil => exact ⟨s, rfl, ⟨fates, hinv⟩, hqueue⟩
  | cons m link =>
    have hpop := hinv.pop hlink
    have hm := hinv.links r m (by rw [hlink]; exact List.mem_cons_self ..)
    cases m with
    | request request poster prompt =>
      have hposter : (⟨request, poster, prompt⟩ : QueuedWhale).poster < world := hm
      exact ⟨_, rfl, startNextGather_good (hpop.enqueue hposter)⟩
    | ready seq rank count =>
      obtain ⟨hrank, -⟩ := hm
      change rank = r at hrank
      subst hrank
      simp only [WhaleSequencer.onMessage]
      cases hg : s.sequencer.gathering with
      | none =>
        refine ⟨_, rfl, ?_⟩
        rw [emit_nil]
        exact ⟨⟨fates, hpop⟩, hqueue⟩
      | some g =>
        simp only
        split_ifs with hseq
        · refine ⟨_, rfl, ?_⟩
          rw [emit_nil]
          exact ⟨⟨fates, hpop⟩, hqueue⟩
        · rw [not_not] at hseq
          subst hseq
          obtain ⟨i, hi, hfree, hreply⟩ := hinv.reply hg hlink
          simp only [hi, hfree]
          exact ⟨_, rfl, tryCommit_good hreply rfl⟩

/-! ## The members' moves -/

/-- what the invariant says about one rank -/
structure Seat (world : ℕ) (q : WhaleSequencer) (sent : List WhaleToMember) (r : ℕ) (m : WhaleMember) (count : ℕ)
    (inbox : List WhaleToMember) (link : List WhaleToSequencer) (entered : List WhaleEntry) : Prop where
  rank : m.rank = r
  suffix : inbox <:+ sent
  flow : Flow m.armed inbox (q.opening r)
  fifo : entered.map (·.whale.commit) ++ m.committed.map (·.commit) ++ commits inbox = commits sent
  armed : ∀ d ∈ m.armed, .gather d ∈ sent
  scheduled : ∀ w ∈ m.committed,
    .gather w.descriptor ∈ sent ∧ w.descriptor.cpRankOf r = some w.cpRank ∧ count ≤ w.launch
  entered : ∀ e ∈ entered,
    .gather e.whale.descriptor ∈ sent ∧ e.whale.descriptor.cpRankOf r = some e.whale.cpRank ∧ e.count = e.whale.launch
  links : ∀ m ∈ link, LinkOk world q.nextSeq r m
  answers : ∀ g, q.gathering = some g →
    readiesOf g.descriptor.seq link + g.replied r + gathersOf g.descriptor.seq inbox ≤
      if r ∈ g.descriptor.gang then 1 else 0

def Fleet.Seated (world : ℕ) (s : Fleet) (r : ℕ) : Prop :=
  Seat world s.sequencer (s.sent r) r (s.members r) (s.counts r) (s.inbox r) (s.links r) (s.entered r)

theorem Inv.seated (h : Inv segments world chunkTokens fates s) (r : ℕ) : s.Seated world r where
  rank := h.ranks r
  suffix := h.suffix r
  flow := h.flow r
  fifo := h.fifo r
  armed := h.armed r
  scheduled := h.scheduled r
  entered := h.entered r
  links := h.links r
  answers g hg := h.answers g hg r

/-- a move of one rank: the others and the sequencer are as they were -/
theorem Inv.seat (h : Inv segments world chunkTokens fates s) {r : ℕ} {m : WhaleMember} {count : ℕ}
    {inbox : List WhaleToMember} {link : List WhaleToSequencer} {entered : List WhaleEntry}
    (hr : Seat world s.sequencer (s.sent r) r m count inbox link entered) :
    Inv segments world chunkTokens fates { s with
      members := Function.update s.members r m
      counts := Function.update s.counts r count
      inbox := Function.update s.inbox r inbox
      links := Function.update s.links r link
      entered := Function.update s.entered r entered } := by
  set s' : Fleet := { s with
    members := Function.update s.members r m
    counts := Function.update s.counts r count
    inbox := Function.update s.inbox r inbox
    links := Function.update s.links r link
    entered := Function.update s.entered r entered } with hs'
  have hseated : ∀ r', s'.Seated world r' := by
    intro r'
    by_cases hrr : r' = r
    · subst hrr
      simpa only [Fleet.Seated, hs', Function.update_self] using hr
    · simpa only [Fleet.Seated, hs', Function.update_of_ne hrr] using h.seated r'
  exact {
    sequenced := h.sequenced
    ranks := fun r' => (hseated r').rank
    stream := h.stream
    suffix := fun r' => (hseated r').suffix
    flow := fun r' => (hseated r').flow
    fifo := fun r' => (hseated r').fifo
    armed := fun r' => (hseated r').armed
    scheduled := fun r' => (hseated r').scheduled
    entered := fun r' => (hseated r').entered
    links := fun r' => (hseated r').links
    answers := fun g hg r' => (hseated r').answers g hg }

/-- the commits a rank is sent have increasing launches -/
theorem Inv.commits_launches (h : Inv segments world chunkTokens fates s) (r : ℕ) :
    (commits (s.sent r)).Pairwise fun a b => a.2 < b.2 := by
  rw [h.stream r, commits_append, commits_gathers, List.append_nil]
  exact h.sequenced.launches.sublist (commits_messages r fates)

section Member

variable {r : ℕ} {inbox : List WhaleToMember}

theorem gathersOf_cons (seq : ℕ) (m : WhaleToMember) (inbox : List WhaleToMember) :
    gathersOf seq (m :: inbox) = gathersOf seq inbox + gathersOf seq [m] := by
  simp only [gathersOf, List.countP_cons, List.countP_nil]
  omega

/-- a member arms and answers -/
theorem Inv.gather (h : Inv segments world chunkTokens fates s) {d : WhaleDescriptor}
    (hinbox : s.inbox r = .gather d :: inbox) :
    (s.members r).onMessage (.gather d) (s.counts r) =
        .ok ({ s.members r with armed := [d] }, some (.ready d.seq r (s.counts r))) ∧
      Seat world s.sequencer (s.sent r) r { s.members r with armed := [d] } (s.counts r) inbox
        (s.links r ++ [.ready d.seq r (s.counts r)]) (s.entered r) := by
  have hseat := h.seated r
  have hsuffix := hseat.suffix
  rw [hinbox] at hsuffix
  have hsent : .gather d ∈ s.sent r := hsuffix.subset (List.mem_cons_self ..)
  obtain ⟨hformed, hmem, hlt⟩ := h.gathered hsent
  obtain ⟨i, hi⟩ := cpRankOf_isSome hmem
  have hflow := hseat.flow
  rw [hinbox] at hflow
  obtain ⟨hempty, hflow⟩ := hflow
  constructor
  · simp only [WhaleMember.onMessage, hformed.verify, hseat.rank, hi, hempty]
    rfl
  · refine { hseat with suffix := ?_, flow := hflow, fifo := ?_, armed := ?_, links := ?_, answers := ?_ }
    · exact (List.suffix_cons _ _).trans hsuffix
    · simpa only [hinbox, commits_gather] using hseat.fifo
    · intro d' hd'
      rw [List.mem_singleton.1 hd']
      exact hsent
    · intro m hm
      rcases List.mem_append.1 hm with hm | hm
      · exact hseat.links m hm
      · rw [List.mem_singleton.1 hm]
        exact ⟨rfl, hlt⟩
    · intro g hg
      have hans := hseat.answers g hg
      have hmove : readiesOf g.descriptor.seq [.ready d.seq r (s.counts r)] = gathersOf g.descriptor.seq [.gather d] := by
        simp [readiesOf, gathersOf]
      rw [hinbox, gathersOf_cons] at hans
      rw [readiesOf_append]
      omega

/-- an armed member schedules -/
theorem Inv.schedule (h : Inv segments world chunkTokens fates s) {seq launch : ℕ}
    (hinbox : s.inbox r = .commit seq launch :: inbox) (hlate : s.counts r < launch) :
    ∃ d i, (s.members r).onMessage (.commit seq launch) (s.counts r) =
        .ok ({ s.members r with armed := [], committed := (s.members r).committed ++ [⟨d, launch, i⟩] }, none) ∧
      Seat world s.sequencer (s.sent r) r
        { s.members r with armed := [], committed := (s.members r).committed ++ [⟨d, launch, i⟩] } (s.counts r) inbox
        (s.links r) (s.entered r) := by
  have hseat := h.seated r
  have hflow := hseat.flow
  rw [hinbox] at hflow
  obtain ⟨⟨d, harmed, rfl⟩, hflow⟩ := hflow
  have hsent : .gather d ∈ s.sent r := hseat.armed d (by rw [harmed]; exact List.mem_singleton_self _)
  obtain ⟨i, hi⟩ := cpRankOf_isSome (h.gathered hsent).2.1
  have hfifo := hseat.fifo
  rw [hinbox, commits_commit] at hfifo
  have hfollows : ((s.members r).committed.getLast?.any fun last => decide (launch ≤ last.launch)) = false := by
    cases hlast : (s.members r).committed.getLast? with
    | none => rfl
    | some last =>
      have hin := List.mem_of_getLast? hlast
      have hpair := h.commits_launches r
      rw [← hfifo, List.append_assoc, List.pairwise_append, List.pairwise_append] at hpair
      have := hpair.2.1.2.2 _ (List.mem_map_of_mem hin) (d.seq, launch) (List.mem_cons_self ..)
      simpa [CommittedWhale.commit] using this
  refine ⟨d, i, ?_, ?_⟩
  · simp only [WhaleMember.onMessage, harmed, List.find?_cons, beq_self_eq_true, List.eraseP_cons, cond_true]
    simp only [WhaleMember.schedule, if_neg (Nat.not_le.2 hlate), hfollows, hseat.rank, hi]
    rfl
  · refine { hseat with suffix := ?_, flow := hflow, fifo := ?_, armed := ?_, scheduled := ?_, answers := ?_ }
    · have := hseat.suffix
      rw [hinbox] at this
      exact (List.suffix_cons _ _).trans this
    · rw [← hfifo]
      simp [CommittedWhale.commit]
    · intro d' hd'
      cases hd'
    · intro w hw
      rcases List.mem_append.1 hw with hw | hw
      · exact hseat.scheduled w hw
      · rw [List.mem_singleton.1 hw]
        exact ⟨hsent, hi, le_of_lt hlate⟩
    · intro g hg
      have hans := hseat.answers g hg
      rw [hinbox, gathersOf_cons] at hans
      omega

/-- a member disarms -/
theorem Inv.disarm (h : Inv segments world chunkTokens fates s) {seq : ℕ} (hinbox : s.inbox r = .cancel seq :: inbox) :
    (s.members r).onMessage (.cancel seq) (s.counts r) = .ok ({ s.members r with armed := [] }, none) ∧
      Seat world s.sequencer (s.sent r) r { s.members r with armed := [] } (s.counts r) inbox (s.links r)
        (s.entered r) := by
  have hseat := h.seated r
  have hflow := hseat.flow
  rw [hinbox] at hflow
  obtain ⟨hall, hflow⟩ := hflow
  constructor
  · have hempty : ((s.members r).armed.filter fun d => d.seq != seq) = [] := by
      rw [List.filter_eq_nil_iff]
      intro d hd
      simp [hall d hd]
    simp only [WhaleMember.onMessage, hempty]
  · refine { hseat with suffix := ?_, flow := hflow, fifo := ?_, armed := ?_, answers := ?_ }
    · have := hseat.suffix
      rw [hinbox] at this
      exact (List.suffix_cons _ _).trans this
    · simpa only [hinbox, commits_cancel] using hseat.fifo
    · intro d' hd'
      cases hd'
    · intro g hg
      have hans := hseat.answers g hg
      rw [hinbox, gathersOf_cons] at hans
      omega

/-- a delivery takes the front of the channel and changes neither the record of what was sent nor any count or entry -/
theorem deliver_good (h : Good segments world chunkTokens s) (hpaced : s.Paced (.deliver r)) :
    ∃ s', s.deliver r = .ok s' ∧ Good segments world chunkTokens s' ∧ s'.sent = s.sent ∧ s'.counts = s.counts ∧
      s'.inbox r = (s.inbox r).tail := by
  obtain ⟨⟨fates, hinv⟩, hqueue⟩ := h
  simp only [Fleet.Paced] at hpaced
  cases hinbox : s.inbox r with
  | nil =>
    refine ⟨s, ?_, ⟨⟨fates, hinv⟩, hqueue⟩, rfl, rfl, hinbox⟩
    unfold Fleet.deliver
    rw [hinbox]
  | cons message inbox =>
    -- every answer is one move of the seat of `r`
    have hmove : ∀ (m : WhaleMember) (answer : Option WhaleToSequencer),
        (s.members r).onMessage message (s.counts r) = .ok (m, answer) →
        Seat world s.sequencer (s.sent r) r m (s.counts r) inbox (s.links r ++ answer.toList) (s.entered r) →
        ∃ s', s.deliver r = .ok s' ∧ Good segments world chunkTokens s' ∧ s'.sent = s.sent ∧ s'.counts = s.counts ∧
          s'.inbox r = inbox := by
      intro m answer hok hseat
      have hrun : s.deliver r = .ok (Fleet.reply { s with
          members := Function.update s.members r m
          inbox := Function.update s.inbox r inbox } r answer) := by
        unfold Fleet.deliver
        rw [hinbox]
        dsimp only
        rw [hok]
        rfl
      refine ⟨_, hrun, ⟨⟨fates, ?_⟩, hqueue⟩, rfl, rfl, by simp [Fleet.reply]⟩
      simpa only [Fleet.reply, Function.update_eq_self] using hinv.seat hseat
    cases message with
    | gather d =>
      obtain ⟨hok, hseat⟩ := hinv.gather hinbox
      exact hmove _ _ hok hseat
    | commit seq launch =>
      rw [hinbox] at hpaced
      obtain ⟨d, i, hok, hseat⟩ := hinv.schedule hinbox hpaced
      exact hmove _ _ hok (by simpa using hseat)
    | cancel seq =>
      obtain ⟨hok, hseat⟩ := hinv.disarm hinbox
      exact hmove _ _ hok (by simpa using hseat)

/-- a consulted boundary enters the whale its count names, or none, and moves the count by one -/
theorem boundary_good (h : Good segments world chunkTokens s) (r : ℕ) :
    ∃ s', s.boundary r = .ok s' ∧ Good segments world chunkTokens s' ∧ s'.sent = s.sent ∧ s'.inbox = s.inbox ∧
      s'.counts r = s.counts r + 1 := by
  obtain ⟨⟨fates, hinv⟩, hqueue⟩ := h
  have hseat := hinv.seated r
  -- a boundary is one move of the seat of `r`
  have hmove : ∀ (m : WhaleMember) (duty : WhaleDuty), (s.members r).atLaunch (s.counts r) = .ok (m, duty) →
      Seat world s.sequencer (s.sent r) r m (s.counts r + 1) (s.inbox r) (s.links r)
        (s.entered r ++ duty.entries (s.counts r)) →
      ∃ s', s.boundary r = .ok s' ∧ Good segments world chunkTokens s' ∧ s'.sent = s.sent ∧ s'.inbox = s.inbox ∧
        s'.counts r = s.counts r + 1 := by
    intro m duty hok hseat'
    unfold Fleet.boundary
    rw [hok]
    refine ⟨_, rfl, ⟨⟨fates, ?_⟩, hqueue⟩, rfl, rfl, by simp⟩
    simpa only [Function.update_eq_self] using hinv.seat hseat'
  have hlater : ∀ w ∈ (s.members r).committed, s.counts r ≠ w.launch → s.counts r + 1 ≤ w.launch := by
    intro w hw hne
    have := (hseat.scheduled w hw).2.2
    omega
  cases hcommitted : (s.members r).committed with
  | nil =>
    refine hmove (s.members r) .free (by simp only [WhaleMember.atLaunch, hcommitted]) ?_
    simp only [WhaleDuty.entries, List.append_nil]
    refine { hseat with scheduled := ?_ }
    rw [hcommitted]
    exact fun w hw => absurd hw (by simp)
  | cons whale committed =>
    have hfront : whale ∈ (s.members r).committed := by rw [hcommitted]; exact List.mem_cons_self ..
    obtain ⟨hsent, hrank, hle⟩ := hseat.scheduled whale hfront
    -- the whales behind the front one have later launches
    have hbehind : ∀ w ∈ committed, whale.launch < w.launch := by
      have hpair := hinv.commits_launches r
      rw [← hinv.fifo r, List.append_assoc, List.pairwise_append, List.pairwise_append, hcommitted, List.map_cons,
        List.pairwise_cons] at hpair
      exact fun w hw => hpair.2.1.1.1 _ (List.mem_map_of_mem hw)
    by_cases heq : whale.launch = s.counts r
    · refine hmove { s.members r with committed := committed } (.enter whale)
        (by simp only [WhaleMember.atLaunch, hcommitted]; rw [if_neg (by omega), if_pos heq]) ?_
      refine { hseat with fifo := ?_, scheduled := ?_, entered := ?_ }
      · rw [← hseat.fifo, hcommitted]
        simp [WhaleDuty.entries]
      · intro w hw
        obtain ⟨h1, h2, -⟩ := hseat.scheduled w (by rw [hcommitted]; exact List.mem_cons_of_mem _ hw)
        have := hbehind w hw
        exact ⟨h1, h2, by omega⟩
      · intro e he
        rcases List.mem_append.1 he with he | he
        · exact hseat.entered e he
        · rw [List.mem_singleton.1 he]
          exact ⟨hsent, hrank, heq.symm⟩
    · refine hmove (s.members r) .free (by
        simp only [WhaleMember.atLaunch, hcommitted]; rw [if_neg (by omega), if_neg heq]) ?_
      simp only [WhaleDuty.entries, List.append_nil]
      refine { hseat with scheduled := ?_ }
      intro w hw
      obtain ⟨h1, h2, -⟩ := hseat.scheduled w hw
      refine ⟨h1, h2, hlater w hw ?_⟩
      rw [hcommitted] at hw
      rcases List.mem_cons.1 hw with rfl | hw
      · exact Ne.symm heq
      · have := hbehind w hw
        omega

theorem multiLaunch_good (h : Good segments world chunkTokens s) (launches : ℕ) (hquiet : (s.members r).isQuiet) :
    Good segments world chunkTokens
      { s with counts := Function.update s.counts r (s.counts r + launches) } := by
  obtain ⟨⟨fates, hinv⟩, hqueue⟩ := h
  have hseat := hinv.seated r
  simp only [WhaleMember.isQuiet, Bool.and_eq_true, List.isEmpty_iff] at hquiet
  refine ⟨⟨fates, ?_⟩, hqueue⟩
  have hmoved : Seat world s.sequencer (s.sent r) r (s.members r) (s.counts r + launches) (s.inbox r) (s.links r)
      (s.entered r) := by
    refine { hseat with scheduled := ?_ }
    rw [hquiet.2]
    exact fun w hw => absurd hw (by simp)
  simpa only [Function.update_eq_self] using hinv.seat hmoved

theorem post_good (h : Good segments world chunkTokens s) (request : ℕ) (prompt : List UInt32)
    (hr : r < s.sequencer.world) :
    Good segments world chunkTokens (s.reply r (some (.request request r prompt))) := by
  obtain ⟨⟨fates, hinv⟩, hqueue⟩ := h
  have hseat := hinv.seated r
  refine ⟨⟨fates, ?_⟩, hqueue⟩
  have hmoved : Seat world s.sequencer (s.sent r) r (s.members r) (s.counts r) (s.inbox r)
      (s.links r ++ [.request request r prompt]) (s.entered r) := by
    refine { hseat with links := ?_, answers := ?_ }
    · intro m hm
      rcases List.mem_append.1 hm with hm | hm
      · exact hseat.links m hm
      · rw [List.mem_singleton.1 hm, ← hinv.sequenced.world_eq]
        exact hr
    · intro g hg
      have hans := hseat.answers g hg
      have hnone : readiesOf g.descriptor.seq [.request request r prompt] = 0 := rfl
      rw [readiesOf_append, hnone]
      exact hans
  simpa only [Fleet.reply, Option.toList, Function.update_eq_self] using hinv.seat hmoved

end Member

/-- **Step.** A paced event fails in no machine and keeps the invariant. -/
theorem step_good (h : Good segments world chunkTokens s) (op : FleetOp) (hpaced : s.Paced op) :
    ∃ s', s.step segments op = .ok s' ∧ Good segments world chunkTokens s' := by
  cases op with
  | post r request prompt =>
    refine ⟨_, rfl, ?_⟩
    split_ifs with hr
    · exact post_good h request prompt hr
    · exact h
  | hear r => exact hear_good h r
  | deliver r =>
    obtain ⟨s', hok, hgood, -⟩ := deliver_good h hpaced
    exact ⟨s', hok, hgood⟩
  | gatherTimeout => exact ⟨_, rfl, onGatherTimeout_good h⟩
  | boundary r =>
    obtain ⟨s', hok, hgood, -⟩ := boundary_good h r
    exact ⟨s', hok, hgood⟩
  | multiLaunch r launches => exact ⟨_, rfl, multiLaunch_good h launches hpaced⟩

/-- a paced run never fails -/
theorem run_good (ops : List FleetOp) : ∀ {s : Fleet}, Good segments world chunkTokens s →
    StepsMeet (Fleet.step segments) Fleet.Paced s ops →
    ∃ s', run (Fleet.step segments) s ops = .ok s' ∧ Good segments world chunkTokens s' := by
  induction ops with
  | nil => exact fun h _ => ⟨_, rfl, h⟩
  | cons op ops ih =>
    intro s h hpaced
    obtain ⟨m, hm, hgood⟩ := step_good h op hpaced.1
    obtain ⟨s', hs', hgood'⟩ := ih hgood (hpaced.2 m hm)
    exact ⟨s', (run_cons_ok s s' op ops).2 ⟨m, hm, hs'⟩, hgood'⟩

/-! ## Unanimity -/

/-- a rank's account of a committed whale: the commit is on its way, or scheduled at a count not passed, or entered -/
inductive Account (s : Fleet) (d : WhaleDescriptor) (launch r : ℕ) : Prop
  | inFlight (h : .commit d.seq launch ∈ s.inbox r)
  | scheduled (i : ℕ) (h : ⟨d, launch, i⟩ ∈ (s.members r).committed) (hcount : s.counts r ≤ launch)
  | entered (i : ℕ) (h : ⟨launch, d, launch, i⟩ ∈ s.entered r) (hrank : d.cpRankOf r = some i)

/-- what the rendezvous promises of a state -/
structure Unanimous (segments : WhaleSegments) (world chunkTokens : ℕ) (s : Fleet) : Prop where
  /-- a commit goes to the gang of one descriptor, whose cp ranks are `0..width` with the poster last -/
  committed : ∀ r seq launch, .commit seq launch ∈ s.sent r → ∃ d width,
    d.seq = seq ∧ (∀ m, .commit seq launch ∈ s.sent m ↔ m ∈ d.gang) ∧
    k3WhaleWidth segments d.prompt.length world chunkTokens = some width ∧ d.gang.length = width ∧
    d.gang.map d.cpRankOf = (List.range width).map some ∧ d.gang.getLast? = some d.poster ∧
    ∀ m ∈ d.gang, Account s d launch m
  /-- no rank enters a whale twice -/
  once : ∀ r, ((s.entered r).map (·.whale.descriptor.seq)).Pairwise (· < ·)
  /-- every entry is of a committed whale, at its launch -/
  only : ∀ r, ∀ e ∈ s.entered r, .commit e.whale.descriptor.seq e.count ∈ s.sent r
  ordered : ∀ r r' seq seq' launch launch', .commit seq launch ∈ s.sent r → .commit seq' launch' ∈ s.sent r' →
    (seq = seq' → launch = launch') ∧ (seq < seq' → launch < launch')
  /-- a cancelled or refused whale is entered by nobody -/
  cancelled : ∀ r seq, .cancel seq ∈ s.sent r → ∀ m, ∀ e ∈ s.entered m, e.whale.descriptor.seq ≠ seq
  drained : s.sequencer.gathering = none → s.sequencer.queue = []

section Conclusions

variable (h : Inv segments world chunkTokens fates s)

include h

theorem Inv.commit_iff {r seq launch : ℕ} :
    .commit seq launch ∈ s.sent r ↔ ∃ d, .committed d launch ∈ fates ∧ d.seq = seq ∧ r ∈ d.gang := by
  rw [h.stream r, List.mem_append, List.mem_flatMap]
  constructor
  · rintro (⟨f, hf, hm⟩ | hm)
    · obtain ⟨d, rfl, hseq, hr⟩ := Fate.commit_mem hm
      exact ⟨d, hf, hseq, hr⟩
    · simp at hm
  · rintro ⟨d, hf, rfl, hr⟩
    exact Or.inl ⟨_, hf, by simp [Fate.messages, hr]⟩

theorem Inv.fate_unique {f f' : Fate} (hf : f ∈ fates) (hf' : f' ∈ fates) (hseq : f.seq = f'.seq) : f = f' := by
  have hnodup : (fates.map Fate.seq).Nodup := h.sequenced.seqs.imp fun hlt => Nat.ne_of_lt hlt
  exact List.inj_on_of_nodup_map hnodup hf hf' hseq

/-- a rank gathers only the descriptor of a committed whale under its number -/
theorem Inv.gather_unique {r launch : ℕ} {d d' : WhaleDescriptor} (hd : .committed d launch ∈ fates)
    (hd' : .gather d' ∈ s.sent r) (hseq : d'.seq = d.seq) : d' = d := by
  rw [h.stream r, List.mem_append, List.mem_flatMap] at hd'
  rcases hd' with ⟨f, hf, hm⟩ | hm
  · obtain ⟨hdesc, hfseq, -⟩ := Fate.gather_mem hm
    rw [h.fate_unique hf hd (hfseq.trans hseq)] at hdesc
    exact (Option.some.inj hdesc).symm
  · cases hg : s.sequencer.gathering with
    | none => simp [opening_idle hg] at hm
    | some g =>
      obtain ⟨-, -, hafter, -⟩ := h.sequenced.gathering g hg
      rw [opening_gathering hg] at hm
      split_ifs at hm
      · simp only [List.map_cons, List.map_nil, List.mem_singleton, WhaleToMember.gather.injEq] at hm
        have := hafter _ hd
        simp only [Fate.seq] at this
        rw [← hm] at this
        omega
      · cases hm

/-- fates are numbered in the order their launches are given -/
theorem Inv.launch_lt {d d' : WhaleDescriptor} {launch launch' : ℕ} (hd : .committed d launch ∈ fates)
    (hd' : .committed d' launch' ∈ fates) (hlt : d.seq < d'.seq) : launch < launch' := by
  obtain ⟨before, after, rfl⟩ := List.append_of_mem hd
  have hseqs := h.sequenced.seqs
  have hlaunches := h.sequenced.launches
  rw [List.map_append, List.map_cons, List.pairwise_append] at hseqs
  rw [List.filterMap_append, List.filterMap_cons, List.pairwise_append] at hlaunches
  rcases List.mem_append.1 hd' with hin | hin
  · have := hseqs.2.2 _ (List.mem_map_of_mem hin) d.seq (List.mem_cons_self ..)
    simp only [Fate.seq] at this
    omega
  · rcases List.mem_cons.1 hin with heq | hin
    · cases heq
      omega
    · have hpair := hlaunches.2.1
      simp only [Fate.commit, List.pairwise_cons] at hpair
      exact hpair.1 (d'.seq, launch') (List.mem_filterMap.2 ⟨_, hin, rfl⟩)

/-- the commits one rank is sent are numbered increasingly -/
theorem Inv.commits_seqs (r : ℕ) : (commits (s.sent r)).Pairwise fun a b => a.1 < b.1 := by
  have hall : (fates.filterMap Fate.commit).Pairwise fun a b => a.1 < b.1 := by
    have hseqs := h.sequenced.seqs
    rw [List.pairwise_map] at hseqs
    rw [List.pairwise_filterMap]
    refine hseqs.imp ?_
    intro f f' hlt b hb b' hb'
    cases f <;> simp only [Fate.commit, reduceCtorEq, Option.some.injEq] at hb
    cases f' <;> simp only [Fate.commit, reduceCtorEq, Option.some.injEq] at hb'
    rw [← hb, ← hb']
    exact hlt
  rw [h.stream r, commits_append, commits_gathers, List.append_nil]
  exact hall.sublist (commits_messages r fates)

theorem Inv.account {d : WhaleDescriptor} {launch r : ℕ} (hd : .committed d launch ∈ fates) (hr : r ∈ d.gang) :
    Account s d launch r := by
  have hsent : (d.seq, launch) ∈ commits (s.sent r) := mem_commits.2 (h.commit_iff.2 ⟨d, hd, rfl, hr⟩)
  rw [← h.fifo r, List.mem_append, List.mem_append] at hsent
  rcases hsent with (hin | hin) | hin
  · obtain ⟨e, he, heq⟩ := List.mem_map.1 hin
    obtain ⟨hgather, hrank, hcount⟩ := h.entered r e he
    simp only [CommittedWhale.commit, Prod.mk.injEq] at heq
    have hdesc := h.gather_unique hd hgather heq.1
    obtain ⟨count, descriptor, launch', i⟩ := e
    simp only at hdesc hcount heq hrank
    rw [hdesc, hcount, heq.2] at he
    rw [hdesc] at hrank
    exact .entered i he hrank
  · obtain ⟨w, hw, heq⟩ := List.mem_map.1 hin
    obtain ⟨hgather, hrank, hcount⟩ := h.scheduled r w hw
    simp only [CommittedWhale.commit, Prod.mk.injEq] at heq
    have hdesc := h.gather_unique hd hgather heq.1
    obtain ⟨descriptor, launch', i⟩ := w
    simp only at hdesc hcount heq
    rw [hdesc, heq.2] at hw
    exact .scheduled i hw (heq.2 ▸ hcount)
  · exact .inFlight (mem_commits.1 hin)

theorem Inv.entry_committed {r : ℕ} {e : WhaleEntry} (he : e ∈ s.entered r) :
    .commit e.whale.descriptor.seq e.count ∈ s.sent r := by
  rw [(h.entered r e he).2.2, ← mem_commits, ← h.fifo r]
  exact List.mem_append_left _ (List.mem_append_left _ (List.mem_map_of_mem he))

theorem Inv.unanimous (hqueue : s.sequencer.gathering = none → s.sequencer.queue = []) :
    Unanimous segments world chunkTokens s where
  committed := by
    intro r seq launch hsent
    obtain ⟨d, hd, rfl, hr⟩ := h.commit_iff.1 hsent
    have hformed := h.sequenced.formed _ hd d rfl
    obtain ⟨width, hwidth, hgang⟩ := hformed.gang
    obtain ⟨h2, hle⟩ := k3WhaleWidth_le hwidth
    have hlength : d.gang.length = width := by rw [hgang, k3WhaleGang_length hformed.poster_lt h2 hle]
    refine ⟨d, width, rfl, fun m => ?_, hwidth, hlength, hlength ▸ hformed.cpRanks, hformed.getLast,
      fun m hm => h.account hd hm⟩
    constructor
    · intro hm
      obtain ⟨d', hd', hseq, hmem⟩ := h.commit_iff.1 hm
      cases h.fate_unique hd' hd hseq
      exact hmem
    · exact fun hm => h.commit_iff.2 ⟨d, hd, rfl, hm⟩
  once := by
    intro r
    have hpair := h.commits_seqs r
    rw [← h.fifo r, List.append_assoc, List.pairwise_append] at hpair
    have hentered := hpair.1
    rw [List.pairwise_map] at hentered ⊢
    exact hentered
  only r e he := h.entry_committed he
  ordered := by
    intro r r' seq seq' launch launch' hsent hsent'
    obtain ⟨d, hd, rfl, -⟩ := h.commit_iff.1 hsent
    obtain ⟨d', hd', rfl, -⟩ := h.commit_iff.1 hsent'
    refine ⟨fun heq => ?_, h.launch_lt hd hd'⟩
    cases h.fate_unique hd hd' heq
    rfl
  cancelled := by
    intro r seq hsent m e he heq
    obtain ⟨d, hd, hseq, -⟩ := h.commit_iff.1 (h.entry_committed he)
    rw [h.stream r, List.mem_append, List.mem_flatMap] at hsent
    rcases hsent with ⟨f, hf, hm⟩ | hm
    · obtain ⟨hfseq, hnone⟩ := Fate.cancel_mem hm
      rw [h.fate_unique hf hd (hfseq.trans (heq.symm.trans hseq.symm))] at hnone
      cases hnone
    · simp at hm
  drained := hqueue

end Conclusions

/-! ## Progress -/

/-- the commits on their way to a rank can still be delivered in time -/
def Fleet.InTime (s : Fleet) (r : ℕ) : Prop := ∀ seq launch, .commit seq launch ∈ s.inbox r → s.counts r < launch

/-- in-time deliveries drain a channel -/
theorem drain (n : ℕ) : ∀ {s : Fleet} {r : ℕ}, (s.inbox r).length = n → Good segments world chunkTokens s → s.InTime r →
    ∃ s', StepsMeet (Fleet.step segments) Fleet.Paced s (List.replicate n (.deliver r)) ∧
      run (Fleet.step segments) s (List.replicate n (.deliver r)) = .ok s' ∧ Good segments world chunkTokens s' ∧
      s'.sent = s.sent ∧ s'.inbox r = [] := by
  induction n with
  | zero => exact fun hlen h _ => ⟨_, trivial, rfl, h, rfl, List.eq_nil_of_length_eq_zero hlen⟩
  | succ n ih =>
    intro s r hlen h hintime
    have hpaced : s.Paced (.deliver r) := by
      simp only [Fleet.Paced]
      split
      · rename_i seq launch inbox hinbox
        exact hintime seq launch (by rw [hinbox]; exact List.mem_cons_self ..)
      · trivial
    obtain ⟨m, hm, hgood, hsent, hcounts, hinbox⟩ := deliver_good h hpaced
    have hintime' : m.InTime r := by
      intro seq launch hin
      rw [hcounts]
      rw [hinbox] at hin
      exact hintime seq launch (List.mem_of_mem_tail hin)
    obtain ⟨s', hmeet, hrun, hgood', hsent', hempty⟩ := ih (by rw [hinbox, List.length_tail, hlen]; rfl) hgood hintime'
    refine ⟨s', ⟨hpaced, fun m' hm' => ?_⟩, (run_cons_ok _ _ _ _).2 ⟨m, hm, hrun⟩, hgood', hsent'.trans hsent, hempty⟩
    cases hm.symm.trans hm'
    exact hmeet

/-- boundaries move a count up -/
theorem advance (n : ℕ) : ∀ {s : Fleet} (r : ℕ), Good segments world chunkTokens s →
    ∃ s', StepsMeet (Fleet.step segments) Fleet.Paced s (List.replicate n (.boundary r)) ∧
      run (Fleet.step segments) s (List.replicate n (.boundary r)) = .ok s' ∧ Good segments world chunkTokens s' ∧
      s'.sent = s.sent ∧ s'.inbox = s.inbox ∧ s'.counts r = s.counts r + n := by
  induction n with
  | zero => exact fun r h => ⟨_, trivial, rfl, h, rfl, rfl, rfl⟩
  | succ n ih =>
    intro s r h
    obtain ⟨m, hm, hgood, hsent, hinbox, hcount⟩ := boundary_good h r
    obtain ⟨s', hmeet, hrun, hgood', hsent', hinbox', hcount'⟩ := ih r hgood
    refine ⟨s', ⟨trivial, fun m' hm' => ?_⟩, (run_cons_ok _ _ _ _).2 ⟨m, hm, hrun⟩, hgood', hsent'.trans hsent,
      hinbox'.trans hinbox, by omega⟩
    cases hm.symm.trans hm'
    exact hmeet

/-- a rank with nothing in flight and a count past the launch has entered -/
theorem Unanimous.passed (h : Unanimous segments world chunkTokens s) {r seq launch : ℕ}
    (hsent : .commit seq launch ∈ s.sent r) (hinbox : s.inbox r = []) (hcount : launch < s.counts r) :
    ∃ e ∈ s.entered r, e.whale.descriptor.seq = seq ∧ e.count = launch := by
  obtain ⟨d, width, rfl, hgang, -, -, -, -, haccount⟩ := h.committed r seq launch hsent
  cases haccount r ((hgang r).1 hsent) with
  | inFlight hin => simp [hinbox] at hin
  | scheduled i _ hle => omega
  | entered i he _ => exact ⟨_, he, rfl, rfl⟩

/-- a rank that takes its messages in time and keeps launching enters every whale it was committed to -/
theorem enters (h : Good segments world chunkTokens s) {r seq launch : ℕ} (hsent : .commit seq launch ∈ s.sent r)
    (hintime : s.InTime r) : ∃ deliveries boundaries s',
      StepsMeet (Fleet.step segments) Fleet.Paced s
        (List.replicate deliveries (.deliver r) ++ List.replicate boundaries (.boundary r)) ∧
      run (Fleet.step segments) s
        (List.replicate deliveries (.deliver r) ++ List.replicate boundaries (.boundary r)) = .ok s' ∧
      ∃ e ∈ s'.entered r, e.whale.descriptor.seq = seq ∧ e.count = launch := by
  obtain ⟨m, hmeet, hrun, hgood, hsame, hempty⟩ := drain _ rfl h hintime
  obtain ⟨s', hmeet', hrun', ⟨⟨fates, hinv⟩, hqueue⟩, hsame', hinbox', hcount⟩ := advance (launch + 1) r hgood
  refine ⟨(s.inbox r).length, launch + 1, s', stepsMeet_append hmeet hrun hmeet',
    (run_append_ok _ _ _ _).2 ⟨m, hrun, hrun'⟩, ?_⟩
  refine (hinv.unanimous hqueue).passed ?_ (by rw [hinbox', hempty]) (by omega)
  rw [hsame', hsame]
  exact hsent

end Emit

/-- **Rendezvous.** In a run where commits are delivered below their launch and only quiet members skip boundaries, no
transition of any machine fails, and every state reached is unanimous: each rank a commit was sent to has it in flight,
scheduled or entered at its launch under its own cp rank, and a rank that takes its messages in time enters it. -/
theorem whales_unanimous (segments : WhaleSegments) (world chunkTokens : ℕ) (counts : ℕ → ℕ) (ops : List FleetOp)
    (hpaced : StepsMeet (Fleet.step segments) Fleet.Paced (Fleet.new world chunkTokens counts) ops) :
    ∃ s, run (Fleet.step segments) (Fleet.new world chunkTokens counts) ops = .ok s ∧
      Unanimous segments world chunkTokens s ∧
      ∀ r seq launch, .commit seq launch ∈ s.sent r → s.InTime r → ∃ deliveries boundaries s',
        StepsMeet (Fleet.step segments) Fleet.Paced s
          (List.replicate deliveries (.deliver r) ++ List.replicate boundaries (.boundary r)) ∧
        run (Fleet.step segments) s
          (List.replicate deliveries (.deliver r) ++ List.replicate boundaries (.boundary r)) = .ok s' ∧
        ∃ e ∈ s'.entered r, e.whale.descriptor.seq = seq ∧ e.count = launch := by
  have hstart : Good segments world chunkTokens (Fleet.new world chunkTokens counts) :=
    ⟨⟨[], new_inv counts⟩, fun _ => rfl⟩
  obtain ⟨s, hrun, hgood⟩ := run_good ops hstart hpaced
  obtain ⟨⟨fates, hinv⟩, hqueue⟩ := hgood
  exact ⟨s, hrun, hinv.unanimous hqueue, fun r seq launch hsent hintime => enters ⟨⟨fates, hinv⟩, hqueue⟩ hsent hintime⟩

/-- the leveled split of 6000 tokens over two ranks -/
def pairSegments : WhaleSegments := fun _ _ _ => [(0, 3012), (3012, 2988)]

/-- rank 1 posts, both ranks arm, rank 0 launches once on the way, both schedule -/
def pairOps (prompt : List UInt32) : List FleetOp :=
  [.post 1 7 prompt, .hear 1, .deliver 0, .boundary 0, .deliver 1, .hear 1, .hear 0, .deliver 0, .deliver 1]

theorem pairOps_run (prompt : List UInt32) (hlen : prompt.length = 6000) :
    StepsMeet (Fleet.step pairSegments) Fleet.Paced (Fleet.new 2 4224 fun _ => 0) (pairOps prompt) ∧
    ∃ s, run (Fleet.step pairSegments) (Fleet.new 2 4224 fun _ => 0) (pairOps prompt) = .ok s ∧
      commits (s.sent 1) = [(0, 4)] := by
  have hwidth : k3WhaleWidth pairSegments 6000 2 4224 = some 2 := by decide
  have hgang : k3WhaleGang 1 2 2 = [0, 1] := by decide
  constructor <;>
    simp [pairOps, StepsMeet, run, Fleet.Paced, Fleet.step, Fleet.new, Fleet.hear, Fleet.reply, Fleet.emit, Fleet.deliver,
      Fleet.boundary, WhaleSequencer.new, WhaleSequencer.onMessage, WhaleSequencer.startNextGather,
      WhaleSequencer.startQueued, WhaleSequencer.gatheringOf, WhaleSequencer.tryCommit, WhaleSequencer.commitLaunch,
      WhaleMember.new, WhaleMember.onMessage, WhaleMember.atLaunch, WhaleMember.schedule, WhaleDuty.entries,
      WhaleDescriptor.verify, WhaleDescriptor.cpRankOf, broadcast, route, level, k3WhaleCommitSlack, Function.update,
      List.findIdx?_cons, bind, Except.bind, hlen, hwidth, hgang]

theorem whales_unanimous_pair :
    ∃ s, run (Fleet.step pairSegments) (Fleet.new 2 4224 fun _ => 0) (pairOps (List.replicate 6000 0)) = .ok s ∧
      commits (s.sent 1) = [(0, 4)] ∧ Unanimous pairSegments 2 4224 s := by
  obtain ⟨hpaced, s', hrun', hcommits⟩ := pairOps_run (List.replicate 6000 0) List.length_replicate
  obtain ⟨s, hrun, hun, -⟩ := whales_unanimous pairSegments 2 4224 (fun _ => 0) _ hpaced
  rw [hrun, Except.ok.injEq] at hrun'
  subst hrun'
  exact ⟨s, hrun, hcommits, hun⟩

end Pegainfer.K3
