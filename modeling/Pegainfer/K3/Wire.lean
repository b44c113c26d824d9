/-
The whale hub's wire format: little-endian frames with a magic, a version and a kind, then the message's fields.

The writer casts ranks and lengths to `u32` and refuses what does not fit; the reader bounds a prompt and a gang and
verifies a descriptor. Between the two bounds lie messages that are written and not read.
- `writeToSequencer`, `readSequencerFrame`: the link from a rank to the sequencer.
- `writeToMember`, `readMemberFrame`: the link from the sequencer to the ranks.
- `wire_round_trip`: frames written back to back are read back, byte for byte, exactly when all are `Readable`; and what
  the sequencer emits is.
- `long_prompt_refused`: a prompt one token over the reader's bound.
-/
import Mathlib.Tactic
import Pegainfer.Lib.Codec
import Pegainfer.Lib.Machine
import Pegainfer.K3.Rendezvous

namespace Pegainfer.K3

open Pegainfer.Lib

/-! ## Fields -/

/-- `"K3WH"`, read as little-endian -/
def WHALE_MAGIC : ℕ := 0x4857334b

def WHALE_VERSION : ℕ := 1

def WHALE_MAX_PROMPT_TOKENS : ℕ := 2 ^ 22

def WHALE_MAX_WORLD : ℕ := 1024

def putU32 (value : ℕ) : Writer := writeAll (littleEndian 4 value)

def putU64 (value : ℕ) : Writer := writeAll (littleEndian 8 value)

/-- `u32::try_from`, then `put_u32` -/
def putTryU32 (value : ℕ) (context : String) : Writer := if value < 2 ^ 32 then putU32 value else throw context

def putRank (rank : ℕ) : Writer := putTryU32 rank "whale rank"

def putTokens (tokens : List UInt32) : Writer := do
  putTryU32 tokens.length "whale prompt length"
  writeAll (tokens.flatMap leBytes)

def getU32 : Reader ℕ := do
  let buf ← readExact 4
  pure (ofLittleEndian buf)

def getU64 : Reader ℕ := do
  let buf ← readExact 8
  pure (ofLittleEndian buf)

def getRank : Reader ℕ := getU32

/-- `as_chunks::<4>`, each chunk `u32::from_le_bytes` -/
def chunkTokens : List UInt8 → List UInt32
  | a :: b :: c :: d :: bytes => UInt32.ofNat (ofLittleEndian [a, b, c, d]) :: chunkTokens bytes
  | _ => []

def getTokens : Reader (List UInt32) := do
  let len ← getU32
  if len ≤ WHALE_MAX_PROMPT_TOKENS then do
    let bytes ← readExact (len * 4)
    pure (chunkTokens bytes)
  else throw "whale frame claims too many prompt tokens: framing bug"

/-! ## Frames -/

def KIND_REQUEST : ℕ := 1

def KIND_READY : ℕ := 2

def KIND_GATHER : ℕ := 3

def KIND_COMMIT : ℕ := 4

def KIND_CANCEL : ℕ := 5

def writeHeader (kind : ℕ) : Writer := do
  putU32 WHALE_MAGIC
  putU32 WHALE_VERSION
  putU32 kind

def readHeader : Reader ℕ := do
  let magic ← getU32
  if magic = WHALE_MAGIC then do
    let version ← getU32
    if version = WHALE_VERSION then getU32 else throw "whale link: version"
  else throw "whale link: bad magic"

def writeToSequencer : WhaleToSequencer → Writer
  | .request request poster prompt => do
    writeHeader KIND_REQUEST
    putU64 request
    putRank poster
    putTokens prompt
  | .ready seq rank count => do
    writeHeader KIND_READY
    putU64 seq
    putRank rank
    putU64 count

def readToSequencer (kind : ℕ) : Reader WhaleToSequencer :=
  if kind = KIND_REQUEST then do
    let request ← getU64
    let poster ← getRank
    let prompt ← getTokens
    pure (.request request poster prompt)
  else if kind = KIND_READY then do
    let seq ← getU64
    let rank ← getRank
    let count ← getU64
    pure (.ready seq rank count)
  else throw "whale link: not a sequencer-bound message"

/-- one turn of the host's connection loop -/
def readSequencerFrame : Reader WhaleToSequencer := readHeader >>= readToSequencer

def WhaleToMember.kind : WhaleToMember → ℕ
  | .gather _ => KIND_GATHER
  | .commit _ _ => KIND_COMMIT
  | .cancel _ => KIND_CANCEL

def writeMemberBody : WhaleToMember → Writer
  | .gather d => do
    putU64 d.seq
    putU64 d.request
    putRank d.poster
    putTryU32 d.gang.length "whale gang size"
    writeMany putRank d.gang
    putU64 d.promptHash.toNat
    putTokens d.prompt
  | .commit seq launch => do
    putU64 seq
    putU64 launch
  | .cancel seq => putU64 seq

def writeToMember (out : WhaleOutbound) : Writer := do
  writeHeader out.message.kind
  putRank out.toRank
  writeMemberBody out.message

def readGather : Reader WhaleToMember := do
  let seq ← getU64
  let request ← getU64
  let poster ← getRank
  let gangLen ← getU32
  if gangLen ≤ WHALE_MAX_WORLD then do
    let gang ← readMany getRank gangLen
    let promptHash ← getU64
    let prompt ← getTokens
    let descriptor : WhaleDescriptor := ⟨seq, request, poster, gang, prompt, UInt64.ofNat promptHash⟩
    match descriptor.verify with
    | .error e => throw e
    | .ok () => pure (.gather descriptor)
  else throw "whale link: gang"

def readMemberBody (kind : ℕ) : Reader WhaleToMember :=
  if kind = KIND_GATHER then readGather
  else if kind = KIND_COMMIT then do
    let seq ← getU64
    let launch ← getU64
    pure (.commit seq launch)
  else if kind = KIND_CANCEL then do
    let seq ← getU64
    pure (.cancel seq)
  else throw "whale link: not a member-bound message"

def readToMember (kind : ℕ) : Reader WhaleOutbound := do
  let toRank ← getRank
  let message ← readMemberBody kind
  pure ⟨toRank, message⟩

/-- one turn of a peer's reader loop -/
def readMemberFrame : Reader WhaleOutbound := readHeader >>= readToMember

/-! ## Bounds -/

/-- the fields are `u64` values -/
def WhaleToSequencer.Typed : WhaleToSequencer → Prop
  | .request id _ _ => id < 2 ^ 64
  | .ready seq _ count => seq < 2 ^ 64 ∧ count < 2 ^ 64

def WhaleToMember.Typed : WhaleToMember → Prop
  | .gather d => d.seq < 2 ^ 64 ∧ d.request < 2 ^ 64
  | .commit seq launch => seq < 2 ^ 64 ∧ launch < 2 ^ 64
  | .cancel seq => seq < 2 ^ 64

/-- the reader's bound -/
def WhaleToSequencer.Readable : WhaleToSequencer → Prop
  | .request _ _ prompt => prompt.length ≤ WHALE_MAX_PROMPT_TOKENS
  | .ready _ _ _ => True

/-- the reader's bounds, and a descriptor that agrees with itself -/
def WhaleToMember.Readable : WhaleToMember → Prop
  | .gather d => d.gang.length ≤ WHALE_MAX_WORLD ∧ d.prompt.length ≤ WHALE_MAX_PROMPT_TOKENS ∧ d.verify = .ok ()
  | _ => True

/-! ## Fields, taken back -/

theorem undoes_u32 {value : ℕ} (h : value < 2 ^ 32) : Undoes getU32 (putU32 value) value := undoes_number h

theorem undoes_u64 {value : ℕ} (h : value < 2 ^ 64) : Undoes getU64 (putU64 value) value := undoes_number h

theorem undoes_tryU32 (value : ℕ) (context : String) : Undoes getU32 (putTryU32 value context) value := by
  unfold putTryU32
  split_ifs with h
  · exact undoes_u32 h
  · intro out out' hw
    cases hw

theorem undoes_rank (rank : ℕ) : Undoes getRank (putRank rank) rank := undoes_tryU32 rank _

theorem leBytes_eq (token : UInt32) : leBytes token = littleEndian 4 token.toNat := by
  simp only [leBytes, littleEndian, List.cons.injEq, ← UInt8.toNat_inj, and_true]
  refine ⟨?_, ?_, ?_, ?_⟩ <;> simp [Nat.shiftRight_eq_div_pow] <;> omega

theorem chunkTokens_leBytes (tokens : List UInt32) : chunkTokens (tokens.flatMap leBytes) = tokens := by
  induction tokens with
  | nil => rfl
  | cons token tokens ih =>
    have hread := ofLittleEndian_littleEndian 4 token.toNat token.toNat_lt
    rw [← leBytes_eq] at hread
    have hcons : chunkTokens ((token :: tokens).flatMap leBytes) =
        UInt32.ofNat (ofLittleEndian (leBytes token)) :: chunkTokens (tokens.flatMap leBytes) := rfl
    rw [hcons, hread, ih, UInt32.ofNat_toNat]

theorem length_flatMap_leBytes (tokens : List UInt32) : (tokens.flatMap leBytes).length = tokens.length * 4 := by
  induction tokens with
  | nil => rfl
  | cons token tokens ih =>
    rw [List.flatMap_cons, List.length_append, ih, List.length_cons, Nat.add_mul, Nat.add_comm]
    rfl

theorem undoes_tokens {tokens : List UInt32} (h : tokens.length ≤ WHALE_MAX_PROMPT_TOKENS) :
    Undoes getTokens (putTokens tokens) tokens := by
  refine (undoes_tryU32 tokens.length _).bind ?_
  rw [if_pos h]
  have hbytes := (undoes_bytes (tokens.flatMap leBytes)).map chunkTokens
  rwa [length_flatMap_leBytes, chunkTokens_leBytes] at hbytes

theorem refuses_tokens {tokens : List UInt32} (h : ¬ tokens.length ≤ WHALE_MAX_PROMPT_TOKENS) :
    Refuses getTokens (putTokens tokens) := by
  refine Refuses.after (undoes_tryU32 tokens.length _) ?_
  rw [if_neg h]
  exact (undoes_bytes _).appends.refuses _

theorem putTokens_ok {tokens : List UInt32} (h : tokens.length < 2 ^ 32) (out : List UInt8) :
    putTokens tokens out = .ok ((), out ++ littleEndian 4 tokens.length ++ tokens.flatMap leBytes) := by
  refine bind_ok.2 ⟨(), out ++ littleEndian 4 tokens.length, ?_, rfl⟩
  rw [putTryU32, if_pos h]
  rfl

theorem appends_tokens (tokens : List UInt32) : Appends (putTokens tokens) :=
  (undoes_tryU32 tokens.length _).appends.bind (undoes_bytes _).appends

theorem undoes_header {kind : ℕ} (h : kind < 2 ^ 32) : Undoes readHeader (writeHeader kind) kind := by
  refine (undoes_u32 (by decide)).bind ?_
  rw [if_pos rfl]
  refine (undoes_u32 (by decide)).bind ?_
  rw [if_pos rfl]
  exact undoes_u32 h

/-! ## Frames, taken back -/

theorem undoes_toSequencer {m : WhaleToSequencer} (ht : m.Typed) (hr : m.Readable) :
    Undoes readSequencerFrame (writeToSequencer m) m := by
  cases m with
  | request request poster prompt =>
    refine (undoes_header (by decide)).bind ?_
    refine (undoes_u64 ht).bind ?_
    refine (undoes_rank poster).bind ?_
    exact (undoes_tokens hr).map (WhaleToSequencer.request request poster)
  | ready seq rank count =>
    refine (undoes_header (by decide)).bind ?_
    refine (undoes_u64 ht.1).bind ?_
    refine (undoes_rank rank).bind ?_
    exact (undoes_u64 ht.2).map (WhaleToSequencer.ready seq rank)

theorem refuses_toSequencer {m : WhaleToSequencer} (ht : m.Typed) (hr : ¬ m.Readable) :
    Refuses readSequencerFrame (writeToSequencer m) := by
  cases m with
  | request request poster prompt =>
    refine Refuses.after (undoes_header (by decide)) ?_
    refine Refuses.after (undoes_u64 ht) ?_
    refine Refuses.after (undoes_rank poster) ?_
    exact (refuses_tokens hr).bind _
  | ready seq rank count => exact absurd trivial hr

theorem undoes_gather {d : WhaleDescriptor} (ht : (WhaleToMember.gather d).Typed)
    (hr : (WhaleToMember.gather d).Readable) : Undoes readGather (writeMemberBody (.gather d)) (.gather d) := by
  obtain ⟨hgang, hprompt, hverify⟩ := hr
  refine (undoes_u64 ht.1).bind ?_
  refine (undoes_u64 ht.2).bind ?_
  refine (undoes_rank d.poster).bind ?_
  refine (undoes_tryU32 d.gang.length _).bind ?_
  rw [if_pos hgang]
  refine (undoes_many fun r _ => undoes_rank r).bind ?_
  refine (undoes_u64 d.promptHash.toNat_lt).bind ?_
  intro out out' hw
  obtain ⟨bytes, rfl, hread⟩ := undoes_tokens hprompt out out' hw
  refine ⟨bytes, rfl, fun rest => bind_ok.2 ⟨d.prompt, rest, hread rest, ?_⟩⟩
  simp only [UInt64.ofNat_toNat, hverify]
  rfl

theorem refuses_gather {d : WhaleDescriptor} (ht : (WhaleToMember.gather d).Typed)
    (hr : ¬ (WhaleToMember.gather d).Readable) : Refuses readGather (writeMemberBody (.gather d)) := by
  refine Refuses.after (undoes_u64 ht.1) ?_
  refine Refuses.after (undoes_u64 ht.2) ?_
  refine Refuses.after (undoes_rank d.poster) ?_
  refine Refuses.after (undoes_tryU32 d.gang.length _) ?_
  have hranks : Undoes (readMany getRank d.gang.length) (writeMany putRank d.gang) d.gang :=
    undoes_many fun r _ => undoes_rank r
  have hhash := undoes_u64 d.promptHash.toNat_lt
  by_cases hgang : d.gang.length ≤ WHALE_MAX_WORLD
  · rw [if_pos hgang]
    refine Refuses.after hranks (Refuses.after hhash ?_)
    by_cases hprompt : d.prompt.length ≤ WHALE_MAX_PROMPT_TOKENS
    · refine (undoes_tokens hprompt).refuses fun bytes => ?_
      cases hverify : d.verify with
      | ok u => exact absurd ⟨hgang, hprompt, hverify⟩ hr
      | error e =>
        refine ⟨e, ?_⟩
        simp only [UInt64.ofNat_toNat, hverify]
        rfl
    · exact (refuses_tokens hprompt).bind _
  · rw [if_neg hgang]
    exact (hranks.appends.bind (hhash.appends.bind (appends_tokens d.prompt))).refuses _

theorem kind_lt (m : WhaleToMember) : m.kind < 2 ^ 32 := by
  cases m <;> simp [WhaleToMember.kind, KIND_GATHER, KIND_COMMIT, KIND_CANCEL]

theorem undoes_toMember {out : WhaleOutbound} (ht : out.message.Typed) (hr : out.message.Readable) :
    Undoes readMemberFrame (writeToMember out) out := by
  obtain ⟨toRank, message⟩ := out
  cases message with
  | gather d =>
    refine (undoes_header (kind_lt _)).bind ((undoes_rank toRank).bind ?_)
    exact (undoes_gather ht hr).map (WhaleOutbound.mk toRank)
  | commit seq launch =>
    refine (undoes_header (kind_lt _)).bind ((undoes_rank toRank).bind ?_)
    exact ((undoes_u64 ht.1).bind ((undoes_u64 ht.2).map (WhaleToMember.commit seq))).map (WhaleOutbound.mk toRank)
  | cancel seq =>
    refine (undoes_header (kind_lt _)).bind ((undoes_rank toRank).bind ?_)
    exact ((undoes_u64 ht).map WhaleToMember.cancel).map (WhaleOutbound.mk toRank)

theorem refuses_toMember {out : WhaleOutbound} (ht : out.message.Typed) (hr : ¬ out.message.Readable) :
    Refuses readMemberFrame (writeToMember out) := by
  obtain ⟨toRank, message⟩ := out
  cases message with
  | gather d =>
    refine Refuses.after (undoes_header (kind_lt _)) (Refuses.after (undoes_rank toRank) ?_)
    exact (refuses_gather ht hr).bind _
  | commit seq launch => exact absurd trivial hr
  | cancel seq => exact absurd trivial hr

/-! ## What the fleet sends -/

/-- a request in the queue that came within the reader's bound, from a rank of the world -/
def Served (world : ℕ) (whale : QueuedWhale) : Prop :=
  whale.prompt.length ≤ WHALE_MAX_PROMPT_TOKENS ∧ whale.poster < world

/-- a message of a rank's link that the sequencer reads -/
def Posted (world : ℕ) : WhaleToSequencer → Prop
  | .request _ poster prompt => prompt.length ≤ WHALE_MAX_PROMPT_TOKENS ∧ poster < world
  | .ready _ _ _ => True

/-- everything in flight is within the reader's bounds -/
structure Wired (world : ℕ) (s : Fleet) : Prop where
  world_eq : s.sequencer.world = world
  queue : ∀ whale ∈ s.sequencer.queue, Served world whale
  links : ∀ r, ∀ m ∈ s.links r, Posted world m
  sent : ∀ r, ∀ m ∈ s.sent r, m.Readable

section Wired

variable {segments : WhaleSegments} {world chunkTokens : ℕ} {q q' : WhaleSequencer} {out : List WhaleOutbound}

/-- a move of the sequencer that stays within the bounds -/
structure Moved (world : ℕ) (q' : WhaleSequencer) (out : List WhaleOutbound) : Prop where
  world_eq : q'.world = world
  queue : ∀ whale ∈ q'.queue, Served world whale
  readable : ∀ o ∈ out, o.message.Readable

theorem readable_broadcast {gang : List ℕ} {m : WhaleToMember} (h : m.Readable) :
    ∀ o ∈ broadcast gang m, o.message.Readable := by
  intro o ho
  obtain ⟨r, -, rfl⟩ := List.mem_map.1 ho
  exact h

theorem readable_gatheringOf (hworld : world ≤ WHALE_MAX_WORLD) (hq : q.world = world) {whale : QueuedWhale} {width : ℕ}
    (hserved : Served world whale) (hwidth : k3WhaleWidth segments whale.prompt.length q.world q.chunkTokens = some width) :
    (WhaleToMember.gather (q.gatheringOf whale width).descriptor).Readable := by
  obtain ⟨h2, hle⟩ := k3WhaleWidth_le hwidth
  have hformed : Formed segments q.world q.chunkTokens (q.gatheringOf whale width).descriptor :=
    ⟨rfl, hq ▸ hserved.2, width, hwidth, rfl⟩
  refine ⟨?_, hserved.1, hformed.verify⟩
  show (k3WhaleGang whale.poster width q.world).length ≤ WHALE_MAX_WORLD
  rw [k3WhaleGang_length (hq ▸ hserved.2) h2 hle]
  omega

theorem startQueued_moved (hworld : world ≤ WHALE_MAX_WORLD) (queue : List QueuedWhale) :
    ∀ q : WhaleSequencer, q.world = world → (∀ whale ∈ queue, Served world whale) →
      Moved world (q.startQueued segments queue).1 (q.startQueued segments queue).2 := by
  induction queue with
  | nil => exact fun q hq _ => ⟨hq, by simp [WhaleSequencer.startQueued], by simp [WhaleSequencer.startQueued]⟩
  | cons whale queue ih =>
    intro q hq hserved
    obtain ⟨hfirst, hrest⟩ := List.forall_mem_cons.1 hserved
    simp only [WhaleSequencer.startQueued]
    split
    · obtain ⟨h1, h2, h3⟩ := ih { q with nextSeq := q.nextSeq + 1 } hq hrest
      exact ⟨h1, h2, List.forall_mem_cons.2 ⟨trivial, h3⟩⟩
    · rename_i width hwidth
      exact ⟨hq, hrest, readable_broadcast (readable_gatheringOf hworld hq hfirst hwidth)⟩

theorem startNextGather_moved (segments : WhaleSegments) (q : WhaleSequencer) (hworld : world ≤ WHALE_MAX_WORLD)
    (hq : q.world = world) (hserved : ∀ whale ∈ q.queue, Served world whale) :
    Moved world (q.startNextGather segments).1 (q.startNextGather segments).2 := by
  unfold WhaleSequencer.startNextGather
  split
  · exact ⟨hq, hserved, by simp⟩
  · exact startQueued_moved hworld q.queue q hq hserved

/-- one message to a gang, then the next gather -/
theorem Moved.broadcast (h : Moved world q' out) {gang : List ℕ} {m : WhaleToMember} (hm : m.Readable) :
    Moved world q' (broadcast gang m ++ out) :=
  ⟨h.world_eq, h.queue, fun o ho => (List.mem_append.1 ho).elim (readable_broadcast hm o) (h.readable o)⟩

theorem onMessage_moved (hworld : world ≤ WHALE_MAX_WORLD) (hq : q.world = world)
    (hserved : ∀ whale ∈ q.queue, Served world whale) {m : WhaleToSequencer} (hm : Posted world m)
    (h : q.onMessage segments m = .ok (q', out)) : Moved world q' out := by
  cases m with
  | request request poster prompt =>
    simp only [WhaleSequencer.onMessage, Except.ok.injEq] at h
    have hqueue : ∀ whale ∈ q.queue ++ [⟨request, poster, prompt⟩], Served world whale := by
      intro whale hwhale
      rcases List.mem_append.1 hwhale with hold | hnew
      · exact hserved whale hold
      · rw [List.mem_singleton.1 hnew]
        exact hm
    have hmoved := startNextGather_moved segments { q with queue := q.queue ++ [⟨request, poster, prompt⟩] } hworld hq
      hqueue
    rwa [h] at hmoved
  | ready seq rank count =>
    simp only [WhaleSequencer.onMessage] at h
    split at h
    · cases h
      exact ⟨hq, hserved, by simp⟩
    · split_ifs at h
      · cases h
        exact ⟨hq, hserved, by simp⟩
      · split at h
        · cases h
        · split at h
          · simp only [Except.ok.injEq] at h
            unfold WhaleSequencer.tryCommit at h
            simp only at h
            split at h
            · cases h
              exact ⟨hq, hserved, by simp⟩
            · cases h
              refine Moved.broadcast (startNextGather_moved segments { q with gathering := none, committedFloor := _ }
                hworld hq hserved) ?_
              trivial
          · cases h
          · cases h

theorem onGatherTimeout_moved (hworld : world ≤ WHALE_MAX_WORLD) (hq : q.world = world)
    (hserved : ∀ whale ∈ q.queue, Served world whale) :
    Moved world (q.onGatherTimeout segments).1 (q.onGatherTimeout segments).2 := by
  unfold WhaleSequencer.onGatherTimeout
  split
  · exact ⟨hq, hserved, by simp⟩
  · refine Moved.broadcast (startNextGather_moved segments { q with gathering := none } hworld hq hserved) ?_
    trivial

theorem Wired.emit {s : Fleet} (h : Wired world s) (hm : Moved world q' out) : Wired world (s.emit (q', out)) := by
  refine ⟨hm.world_eq, hm.queue, h.links, fun r m hmem => ?_⟩
  rcases List.mem_append.1 hmem with hold | hnew
  · exact h.sent r m hold
  · obtain ⟨o, ho, rfl⟩ := List.mem_map.1 hnew
    exact hm.readable o (List.mem_filter.1 ho).1

theorem Wired.reply {s : Fleet} (h : Wired world s) (rank : ℕ) {answer : Option WhaleToSequencer}
    (ha : ∀ m ∈ answer, Posted world m) : Wired world (s.reply rank answer) := by
  refine ⟨h.world_eq, h.queue, fun r m hmem => ?_, h.sent⟩
  by_cases hr : r = rank
  · subst hr
    simp only [Fleet.reply, Function.update_self, List.mem_append, Option.mem_toList] at hmem
    exact hmem.elim (h.links r m) (ha m)
  · simp only [Fleet.reply, Function.update_of_ne hr] at hmem
    exact h.links r m hmem

/-- a rank's link gives up its first message -/
theorem Wired.unlink {s : Fleet} (h : Wired world s) {rank : ℕ} {m : WhaleToSequencer} {link : List WhaleToSequencer}
    (hl : s.links rank = m :: link) : Wired world { s with links := Function.update s.links rank link } := by
  refine ⟨h.world_eq, h.queue, fun r m' hmem => ?_, h.sent⟩
  by_cases hr : r = rank
  · subst hr
    simp only [Function.update_self] at hmem
    exact h.links r m' (hl ▸ List.mem_cons_of_mem _ hmem)
  · simp only [Function.update_of_ne hr] at hmem
    exact h.links r m' hmem

/-- a member answers with its count or not at all -/
theorem posted_answer {m m' : WhaleMember} {message : WhaleToMember} {count : ℕ} {answer : Option WhaleToSequencer}
    (h : m.onMessage message count = .ok (m', answer)) : ∀ a ∈ answer, Posted world a := by
  intro a ha
  cases message with
  | gather d =>
    simp only [WhaleMember.onMessage, bind, Except.bind] at h
    split at h
    · cases h
    · split_ifs at h
      cases h
      obtain rfl := Option.mem_some_iff.1 ha
      trivial
  | commit seq launch =>
    simp only [WhaleMember.onMessage, bind, Except.bind] at h
    split at h
    · cases h
    · split at h
      · cases h
      · cases h
        cases ha
  | cancel seq =>
    cases h
    cases ha

/-- the posts are within the serving ceiling -/
def Within (_ : Fleet) : FleetOp → Prop
  | .post _ _ prompt => prompt.length ≤ WHALE_MAX_PROMPT_TOKENS
  | _ => True

theorem step_wired (hworld : world ≤ WHALE_MAX_WORLD) {s s' : Fleet} {o : FleetOp} (h : Wired world s)
    (ho : Within s o) (hs : s.step segments o = .ok s') : Wired world s' := by
  cases o with
  | post rank request prompt =>
    obtain rfl := Except.ok.inj hs
    split_ifs with hrank
    · refine h.reply rank fun m hm => ?_
      obtain rfl := Option.mem_some_iff.1 hm
      exact ⟨ho, h.world_eq ▸ hrank⟩
    · exact h
  | hear rank =>
    simp only [Fleet.step, Fleet.hear] at hs
    split at hs
    · cases hs
      exact h
    · rename_i m link hl
      simp only [bind, Except.bind] at hs
      split at hs
      · cases hs
      · rename_i moved hmoved
        cases hs
        exact (h.unlink hl).emit (onMessage_moved hworld h.world_eq h.queue
          (h.links rank m (hl ▸ List.mem_cons_self)) hmoved)
  | deliver rank =>
    simp only [Fleet.step, Fleet.deliver] at hs
    split at hs
    · cases hs
      exact h
    · simp only [bind, Except.bind] at hs
      split at hs
      · cases hs
      · rename_i answered hanswer
        cases hs
        refine Wired.reply ?_ rank (posted_answer hanswer)
        exact ⟨h.world_eq, h.queue, h.links, h.sent⟩
  | gatherTimeout =>
    obtain rfl := Except.ok.inj hs
    exact h.emit (onGatherTimeout_moved hworld h.world_eq h.queue)
  | boundary rank =>
    simp only [Fleet.step, Fleet.boundary, bind, Except.bind] at hs
    split at hs
    · cases hs
    · cases hs
      exact ⟨h.world_eq, h.queue, h.links, h.sent⟩
  | multiLaunch rank launches =>
    obtain rfl := Except.ok.inj hs
    exact ⟨h.world_eq, h.queue, h.links, h.sent⟩

theorem run_wired (hworld : world ≤ WHALE_MAX_WORLD) (counts : ℕ → ℕ) {ops : List FleetOp} {s : Fleet}
    (hwithin : StepsMeet (Fleet.step segments) Within (Fleet.new world chunkTokens counts) ops)
    (hr : run (Fleet.step segments) (Fleet.new world chunkTokens counts) ops = .ok s) : Wired world s := by
  refine run_invariant (I := fun _ s => Wired world s) _ ?_ (fun _ _ _ _ h ho hs => step_wired hworld h ho hs)
    ops s hwithin hr
  exact ⟨rfl, by simp [Fleet.new, WhaleSequencer.new], by simp [Fleet.new], by simp [Fleet.new]⟩

end Wired

/-! ## Main result -/

/-- **Round trip.** Messages written back to back, on either link, are read back as they are and to the last byte exactly
when all of them are within the reader's bounds; and in every run of a fleet of at most `WHALE_MAX_WORLD` ranks whose
posts are within the prompt bound, every message sent is. -/
theorem wire_round_trip (segments : WhaleSegments) (world chunkTokens : ℕ) :
    (∀ (messages : List WhaleToSequencer) (out out' : List UInt8), (∀ m ∈ messages, m.Typed) →
      writeMany writeToSequencer messages out = .ok ((), out') →
      ((∃ bytes, out' = out ++ bytes ∧
        ∀ rest, readMany readSequencerFrame messages.length (bytes ++ rest) = .ok (messages, rest)) ↔
        ∀ m ∈ messages, m.Readable)) ∧
    (∀ (messages : List WhaleOutbound) (out out' : List UInt8), (∀ m ∈ messages, m.message.Typed) →
      writeMany writeToMember messages out = .ok ((), out') →
      ((∃ bytes, out' = out ++ bytes ∧
        ∀ rest, readMany readMemberFrame messages.length (bytes ++ rest) = .ok (messages, rest)) ↔
        ∀ m ∈ messages, m.message.Readable)) ∧
    (∀ (counts : ℕ → ℕ) (ops : List FleetOp) (s : Fleet), world ≤ WHALE_MAX_WORLD →
      StepsMeet (Fleet.step segments) Within (Fleet.new world chunkTokens counts) ops →
      run (Fleet.step segments) (Fleet.new world chunkTokens counts) ops = .ok s →
      ∀ r, (∀ m ∈ s.links r, m.Readable) ∧ ∀ m ∈ s.sent r, m.Readable) := by
  refine ⟨?_, ?_, ?_⟩
  · intro messages out out' htyped hw
    exact undoes_many_iff (fun m hm hr => undoes_toSequencer (htyped m hm) hr)
      (fun m hm hr => refuses_toSequencer (htyped m hm) hr) hw
  · intro messages out out' htyped hw
    exact undoes_many_iff (fun m hm hr => undoes_toMember (htyped m hm) hr)
      (fun m hm hr => refuses_toMember (htyped m hm) hr) hw
  · intro counts ops s hworld hwithin hr r
    have h := run_wired hworld counts hwithin hr
    refine ⟨fun m hm => ?_, h.sent r⟩
    have hposted := h.links r m hm
    cases m with
    | request id poster prompt => exact hposted.1
    | ready seq rank count => trivial

/-- a gather, a commit and a cancel to rank 1 of a gang of two, and their frames -/
theorem wire_round_trip_gather :
    ∃ out', writeMany writeToMember [⟨1, .gather ⟨0, 7, 1, [0, 1], [5], k3WhalePromptHash [5]⟩⟩, ⟨1, .commit 0 9⟩,
        ⟨1, .cancel 1⟩] [] = .ok ((), out') ∧
      ∃ bytes, out' = [] ++ bytes ∧ ∀ rest, readMany readMemberFrame 3 (bytes ++ rest) =
        .ok ([⟨1, .gather ⟨0, 7, 1, [0, 1], [5], k3WhalePromptHash [5]⟩⟩, ⟨1, .commit 0 9⟩, ⟨1, .cancel 1⟩], rest) := by
  refine ⟨_, rfl, ((wire_round_trip (fun _ _ _ => []) 2 1).2.1
    [⟨1, .gather ⟨0, 7, 1, [0, 1], [5], k3WhalePromptHash [5]⟩⟩, ⟨1, .commit 0 9⟩, ⟨1, .cancel 1⟩] [] _ ?_ rfl).2 ?_⟩
  · simp [WhaleToMember.Typed]
  · simp [WhaleToMember.Readable, WHALE_MAX_WORLD, WHALE_MAX_PROMPT_TOKENS, WhaleDescriptor.verify]

/-- one token over the bound: written, and refused by the reader -/
theorem long_prompt_refused :
    ∃ out', writeToSequencer (.request 0 0 (List.replicate (2 ^ 22 + 1) 0)) [] = .ok ((), out') ∧
      ∀ rest, ∃ e, readSequencerFrame (out' ++ rest) = .error e := by
  have hwrite : ∃ out', writeToSequencer (.request 0 0 (List.replicate (2 ^ 22 + 1) 0)) [] = .ok ((), out') := by
    refine ⟨_, bind_ok.2 ⟨(), _, rfl, bind_ok.2 ⟨(), _, rfl, bind_ok.2 ⟨(), _, rfl, putTokens_ok ?_ _⟩⟩⟩⟩
    rw [List.length_replicate]
    decide
  obtain ⟨out', hw⟩ := hwrite
  have hlong : ¬ (WhaleToSequencer.request 0 0 (List.replicate (2 ^ 22 + 1) 0)).Readable := by
    show ¬ (List.replicate (2 ^ 22 + 1) (0 : UInt32)).length ≤ 2 ^ 22
    rw [List.length_replicate]
    decide
  obtain ⟨bytes, heq, hrefused⟩ := refuses_toSequencer (by exact Nat.two_pow_pos 64) hlong [] out' hw
  refine ⟨out', hw, ?_⟩
  rw [heq]
  exact hrefused

end Pegainfer.K3
