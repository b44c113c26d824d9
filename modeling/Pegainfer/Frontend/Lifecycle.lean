/-
The life of one request, seen from its id alone: the abstract machine that the ledger, its guards and the step stream
implement for every id at once.

A `Life` holds what exists of the request: the envelope in the submit channel, the open account, the record buffered
in the current step, the deferred finishes withheld, the records shipped so far. An `Event` is what one operation of
the system does to it.
- `Stage`: where in its life a request is. `lost` is the stage of a request whose terminal was buffered when the
  ledger fell; `truncated` that of a request answered by the drop sweep while output of it was still buffered.
- `Phase`: what a stage says about the life, given the tokens pushed so far.
- `phase_step`: every event moves the phase to the stage `Stage.next` names.
The trail of a request is told by `Story`: its tokens in push order, logprobs aligned, at most one scheduled record
and none after a token.
-/
import Mathlib.Tactic
import Pegainfer.Frontend.Ledger

namespace Pegainfer.Frontend

/-- a pushed token with its logprob -/
abbrev Pushed := TokenId × Option TokenLogprob

/-- what exists of one request -/
structure Life where
  seen : Bool
  envelope : Option RequestEnvelope
  account : Option Account
  buffered : Option RequestUpdate
  withheld : Multiset RequestUpdate
  shipped : List RequestUpdate

/-- one fact attached to the current record -/
inductive Note
  | cachedTokens (n : ℕ)
  | promptEcho (echo : PromptEcho)
  | kvTransfer (params : String)
deriving DecidableEq, Repr

def Note.attach (u : RequestUpdate) : Note → RequestUpdate
  | .cachedTokens n => { u with cachedTokens := some n }
  | .promptEcho e => { u with promptEcho := some e }
  | .kvTransfer p => { u with kvTransfer := some p }

/-- what an operation of the system does to one request -/
inductive Event
  | idle
  | submitted (e : RequestEnvelope)
  | aborted
  | envelopeDropped
  | registered
  | admitted (now : Instant)
  | rejected (reason : RejectReason)
  | pushed (ids : List TokenId) (logprobs : List (Option TokenLogprob))
  | noted (note : Note)
  | finished (reason : FinishReason) (cause : Option StopCause)
  | failed (message : String)
  | retired
  | deferred (reason : FinishReason) (cause : Option StopCause)
  | committed
  | sent (u : RequestUpdate)
  | unsent (u : RequestUpdate)
  | fell
deriving DecidableEq, Repr

/-- the tokens an event pushes -/
def Event.tokens : Event → List Pushed
  | .pushed ids logprobs => ids.zip (RequestLedger.paddedLogprobs ids logprobs)
  | _ => []

attribute [grind =] Event.tokens

namespace Life

/-- the record of the current step, as `entry` returns it -/
def entry (id : RequestId) (l : Life) : RequestUpdate := l.buffered.getD (RequestUpdate.empty id)

/-- close the account with a terminal in the current record -/
def answer (id : RequestId) (l : Life) (t : Terminal) : Life :=
  { l with account := none, buffered := some { l.entry id with terminal := some t } }

/-- the life after an event, when the event is possible -/
def apply (id : RequestId) (l : Life) : Event → Option Life
  | .idle => some l
  | .submitted e => if l.seen then none else some { l with seen := true, envelope := some e }
  | .aborted =>
    some { l with
      envelope := l.envelope.map fun e => { e with abort := true }
      account := l.account.map fun a => { a with abort := true } }
  | .envelopeDropped =>
    match l.envelope with
    | some e => some { l with envelope := none, shipped := l.shipped ++ [e.dropUpdate id] }
    | none => none
  | .registered =>
    match l.envelope, l.account with
    | some e, none =>
      some { l with envelope := none, account := some ⟨e.abort, e.promptTokens.length, e.queuedAt, .queued⟩ }
    | _, _ => none
  | .admitted now =>
    match l.account with
    | some ⟨ab, p, q, .queued⟩ =>
      some { l with
        account := some ⟨ab, p, q, .active 0⟩
        buffered := some { l.entry id with scheduled := some ⟨q, now, p⟩ } }
    | _ => none
  | .rejected reason =>
    match l.account with
    | some ⟨_, p, _, .queued⟩ => some (l.answer id (.rejected reason p))
    | _ => none
  | .pushed ids logprobs =>
    match l.account with
    | some ⟨ab, p, q, .active n⟩ =>
      if logprobs = [] ∨ logprobs.length = ids.length then
        some { l with
          account := some ⟨ab, p, q, .active (n + ids.length)⟩
          buffered := some { l.entry id with
            tokens := (l.entry id).tokens ++ ids
            logprobs := (l.entry id).logprobs ++ RequestLedger.paddedLogprobs ids logprobs } }
      else none
    | _ => none
  | .noted note =>
    match l.account with
    | some ⟨_, _, _, .active _⟩ => some { l with buffered := some (note.attach (l.entry id)) }
    | _ => none
  | .finished reason cause =>
    match l.account with
    | some ⟨_, p, _, .active n⟩ => some (l.answer id (.finished reason cause p n))
    | _ => none
  | .failed message =>
    match l.account with
    | some a => some (l.answer id (.failed message a.promptLen a.completionTokens))
    | none => none
  | .retired =>
    match l.account with
    | some _ => some { l with account := none, buffered := none }
    | none => none
  | .deferred reason cause =>
    match l.account with
    | some ⟨_, p, _, .active n⟩ =>
      some { l with
        account := none
        buffered := none
        withheld := { l.entry id with terminal := some (.finished reason cause p n) } ::ₘ l.withheld }
    | _ => none
  | .committed =>
    some { l with buffered := none, shipped := l.shipped ++ (l.buffered.filter fun u => !u.isVacant).toList }
  | .sent u =>
    if u ∈ l.withheld then some { l with withheld := l.withheld.erase u, shipped := l.shipped ++ [u] } else none
  | .unsent u =>
    if u ∈ l.withheld then
      some { l with withheld := l.withheld.erase u, shipped := l.shipped ++ [deferredDropUpdate u] }
    else none
  | .fell =>
    some { l with
      account := none
      buffered := none
      shipped := l.shipped ++ (l.account.map (RequestLedger.writeOff id)).toList }

attribute [grind =] apply

end Life

/-! ## The trail of a request -/

/-- what a trail of records tells about the tokens pushed -/
structure Story (trail : List RequestUpdate) (pushed : List Pushed) : Prop where
  tokens : trail.flatMap RequestUpdate.tokens = pushed.map Prod.fst
  logprobs : trail.flatMap RequestUpdate.logprobs = pushed.map Prod.snd
  aligned : ∀ u ∈ trail, u.tokens.length = u.logprobs.length
  scheduled : trail.Pairwise fun u v => v.scheduled.isSome → u.scheduled = none ∧ u.tokens = []

/-- no record of the trail is terminal -/
def Quiet (trail : List RequestUpdate) : Prop := ∀ u ∈ trail, u.terminal = none

/-- the record is terminal and reports `n` completion tokens -/
def Closes (u : RequestUpdate) (n : ℕ) : Prop := ∃ t, u.terminal = some t ∧ t.completionTokens = n

namespace Story

variable {trail : List RequestUpdate} {pushed : List Pushed} {u v : RequestUpdate}

theorem nil : Story [] [] := ⟨rfl, rfl, by simp, by simp⟩

/-- a record without tokens or admission facts tells nothing -/
theorem snoc_silent (h : Story trail pushed) (ht : u.tokens = []) (hl : u.logprobs = []) (hs : u.scheduled = none) :
    Story (trail ++ [u]) pushed := by
  refine ⟨by simp [h.tokens, ht], by simp [h.logprobs, hl], ?_, ?_⟩
  · intro w hw
    rcases List.mem_append.1 hw with hw | hw
    · exact h.aligned w hw
    · rw [List.mem_singleton.1 hw, ht, hl]; rfl
  · rw [List.pairwise_append]
    refine ⟨h.scheduled, by simp, ?_⟩
    intro w _ x hx hsome
    rw [List.mem_singleton.1 hx, hs] at hsome
    cases hsome

/-- the last record may change in what the story does not read -/
theorem congr_last (h : Story (trail ++ [u]) pushed) (ht : v.tokens = u.tokens) (hl : v.logprobs = u.logprobs)
    (hs : v.scheduled = u.scheduled) : Story (trail ++ [v]) pushed := by
  refine ⟨by simpa [ht] using h.tokens, by simpa [hl] using h.logprobs, ?_, ?_⟩
  · intro w hw
    rcases List.mem_append.1 hw with hw | hw
    · exact h.aligned w (List.mem_append_left _ hw)
    · rw [List.mem_singleton.1 hw, ht, hl]
      exact h.aligned u (by simp)
  · have hp := h.scheduled
    rw [List.pairwise_append] at hp ⊢
    refine ⟨hp.1, by simp, ?_⟩
    intro w hw x hx hsome
    rw [List.mem_singleton.1 hx, hs] at hsome
    exact hp.2.2 w hw u (by simp) hsome

theorem drop_vacant (h : Story (trail ++ [u]) pushed) (hv : u.isVacant = true) : Story trail pushed := by
  have ht := RequestUpdate.isVacant_tokens u hv
  have hl : u.logprobs = [] := by
    have := h.aligned u (by simp)
    rw [ht] at this
    exact List.eq_nil_of_length_eq_zero this.symm
  refine ⟨by simpa [ht] using h.tokens, by simpa [hl] using h.logprobs, ?_, ?_⟩
  · exact fun w hw => h.aligned w (List.mem_append_left _ hw)
  · exact (List.pairwise_append.1 h.scheduled).1

/-- pushing to the last record -/
theorem push (h : Story (trail ++ [u]) pushed) (ids : List TokenId) (logprobs : List (Option TokenLogprob))
    (hlen : logprobs.length = ids.length) (ht : v.tokens = u.tokens ++ ids) (hl : v.logprobs = u.logprobs ++ logprobs)
    (hs : v.scheduled = u.scheduled) : Story (trail ++ [v]) (pushed ++ ids.zip logprobs) := by
  have htok := h.tokens
  have hlog := h.logprobs
  simp only [List.flatMap_append, List.flatMap_cons, List.flatMap_nil, List.append_nil] at htok hlog
  refine ⟨?_, ?_, ?_, ?_⟩
  · simp only [List.flatMap_append, List.flatMap_cons, List.flatMap_nil, List.append_nil, ht, List.map_append,
      ← htok, List.append_assoc]
    rw [List.map_fst_zip (by omega)]
  · simp only [List.flatMap_append, List.flatMap_cons, List.flatMap_nil, List.append_nil, hl, List.map_append,
      ← hlog, List.append_assoc]
    rw [List.map_snd_zip (by omega)]
  · intro w hw
    rcases List.mem_append.1 hw with hw | hw
    · exact h.aligned w (List.mem_append_left _ hw)
    · have := h.aligned u (by simp)
      rw [List.mem_singleton.1 hw, ht, hl, List.length_append, List.length_append, this, hlen]
  · have hp := h.scheduled
    rw [List.pairwise_append] at hp ⊢
    refine ⟨hp.1, by simp, ?_⟩
    intro w hw x hx hsome
    rw [List.mem_singleton.1 hx, hs] at hsome
    exact hp.2.2 w hw u (by simp) hsome

end Story

/-- the buffered record is the tail of the trail, also when it is only about to be created -/
theorem Story.entry (id : RequestId) {l : Life} {pushed : List Pushed}
    (h : Story (l.shipped ++ l.buffered.toList) pushed) : Story (l.shipped ++ [l.entry id]) pushed := by
  unfold Life.entry
  cases hb : l.buffered with
  | none =>
    rw [hb] at h
    simp only [Option.toList_none, List.append_nil] at h
    exact h.snoc_silent rfl rfl rfl
  | some u => simpa [hb] using h

theorem Quiet.entry (id : RequestId) {l : Life} (h : Quiet (l.shipped ++ l.buffered.toList)) :
    (l.entry id).terminal = none := by
  unfold Life.entry
  cases hb : l.buffered with
  | none => rfl
  | some u => exact h u (by simp [hb])

theorem Quiet.left {t t' : List RequestUpdate} (h : Quiet (t ++ t')) : Quiet t :=
  fun u hu => h u (List.mem_append_left _ hu)

theorem Quiet.snoc {t : List RequestUpdate} {u : RequestUpdate} (h : Quiet t) (hu : u.terminal = none) :
    Quiet (t ++ [u]) := by
  intro v hv
  rcases List.mem_append.1 hv with hv | hv
  · exact h v hv
  · rw [List.mem_singleton.1 hv]; exact hu

/-! ## Stages -/

/-- where in its life a request is -/
inductive Stage
  | unseen
  | enveloped
  | queued
  | active
  | closing
  | withheld
  | answered
  | truncated
  | retired
  | lost
deriving DecidableEq, Repr

/-- the stage an event leads to -/
def Stage.next (l : Life) (st : Stage) : Event → Stage
  | .idle => st
  | .aborted => st
  | .pushed _ _ => st
  | .noted _ => st
  | .submitted _ => .enveloped
  | .envelopeDropped => .answered
  | .registered => .queued
  | .admitted _ => .active
  | .rejected _ => .closing
  | .finished _ _ => .closing
  | .failed _ => .closing
  | .retired => .retired
  | .deferred _ _ => .withheld
  | .committed => if st = .closing then .answered else st
  | .sent _ => .answered
  | .unsent _ => .answered
  | .fell =>
    match st with
    | .queued => .answered
    -- the write-off carries the account's count, but not what the statement still buffers
    | .active => if l.buffered.all RequestUpdate.isVacant then .answered else .truncated
    | .closing => .lost
    | st => st

attribute [grind =] Stage.next

/-- what a stage says about a life -/
def Phase (pushed : List Pushed) (l : Life) : Stage → Prop
  | .unseen => l = ⟨false, none, none, none, 0, []⟩ ∧ pushed = []
  | .enveloped => ∃ e, l = ⟨true, some e, none, none, 0, []⟩ ∧ pushed = []
  | .queued => ∃ ab p q, l = ⟨true, none, some ⟨ab, p, q, .queued⟩, none, 0, []⟩ ∧ pushed = []
  | .active => ∃ ab p q b sh, l = ⟨true, none, some ⟨ab, p, q, .active pushed.length⟩, b, 0, sh⟩ ∧
      Quiet (sh ++ b.toList) ∧ Story (sh ++ b.toList) pushed
  | .closing => ∃ u sh, l = ⟨true, none, none, some u, 0, sh⟩ ∧
      Quiet sh ∧ Closes u pushed.length ∧ Story (sh ++ [u]) pushed
  | .withheld => ∃ u sh r c p, l = ⟨true, none, none, none, {u}, sh⟩ ∧
      Quiet sh ∧ u.terminal = some (.finished r c p pushed.length) ∧ Story (sh ++ [u]) pushed
  | .answered => ∃ u sh, l = ⟨true, none, none, none, 0, sh ++ [u]⟩ ∧
      Quiet sh ∧ Closes u pushed.length ∧ Story (sh ++ [u]) pushed
  | .truncated => ∃ u sh, l = ⟨true, none, none, none, 0, sh ++ [u]⟩ ∧ Quiet sh ∧ u.terminal.isSome
  | .retired => ∃ sh, l = ⟨true, none, none, none, 0, sh⟩ ∧ Quiet sh
  | .lost => ∃ sh, l = ⟨true, none, none, none, 0, sh⟩ ∧ Quiet sh

theorem Closes.isSome {u : RequestUpdate} {n : ℕ} (h : Closes u n) : u.terminal.isSome := by
  obtain ⟨t, ht, -⟩ := h
  simp [ht]

theorem Closes.not_vacant {u : RequestUpdate} {n : ℕ} (h : Closes u n) : u.isVacant = false := by
  by_contra hv
  have ht := RequestUpdate.isVacant_terminal u (by simpa using hv)
  have hs := h.isSome
  rw [ht] at hs
  cases hs

theorem closes_deferredDropUpdate {u : RequestUpdate} {reason : FinishReason} {cause : Option StopCause} {p n : ℕ}
    (h : u.terminal = some (.finished reason cause p n)) : Closes (deferredDropUpdate u) n := by
  refine ⟨_, rfl, ?_⟩
  simp [h, Terminal.completionTokens]

/-! ## One event moves the phase to the next stage -/

variable {id : RequestId} {pushed : List Pushed} {l l' : Life} {e : Event}

theorem phase_step_unseen (h : Phase pushed l .unseen) (ha : l.apply id e = some l') :
    Phase (pushed ++ e.tokens) l' (Stage.next l .unseen e) := by
  obtain ⟨rfl, rfl⟩ := h
  cases e <;> simp [Life.apply, Event.tokens, Stage.next, Phase] at ha ⊢ <;> simp [← ha]

theorem phase_step_enveloped (h : Phase pushed l .enveloped) (ha : l.apply id e = some l') :
    Phase (pushed ++ e.tokens) l' (Stage.next l .enveloped e) := by
  obtain ⟨env, rfl, rfl⟩ := h
  cases e with
  | envelopeDropped =>
    simp only [Life.apply, Option.some.injEq] at ha
    subst ha
    refine ⟨env.dropUpdate id, [], rfl, by simp [Quiet], ⟨_, rfl, rfl⟩, ?_⟩
    exact Story.nil.snoc_silent rfl rfl rfl
  | _ => simp [Life.apply, Event.tokens, Stage.next, Phase] at ha ⊢ <;> simp [← ha]

theorem phase_step_queued (h : Phase pushed l .queued) (ha : l.apply id e = some l') :
    Phase (pushed ++ e.tokens) l' (Stage.next l .queued e) := by
  obtain ⟨ab, p, q, rfl, rfl⟩ := h
  cases e with
  | admitted now =>
    simp only [Life.apply, Option.some.injEq] at ha
    subst ha
    refine ⟨ab, p, q, _, [], rfl, by simp [Quiet, Life.entry, RequestUpdate.empty], ?_⟩
    exact ⟨rfl, rfl, by simp [Life.entry, RequestUpdate.empty], by simp⟩
  | rejected reason =>
    simp only [Life.apply, Option.some.injEq] at ha
    subst ha
    exact ⟨_, [], rfl, by simp [Quiet], ⟨_, rfl, rfl⟩, Story.nil.snoc_silent rfl rfl rfl⟩
  | failed message =>
    simp only [Life.apply, Option.some.injEq] at ha
    subst ha
    exact ⟨_, [], rfl, by simp [Quiet], ⟨_, rfl, rfl⟩, Story.nil.snoc_silent rfl rfl rfl⟩
  | fell =>
    simp only [Life.apply, Option.some.injEq] at ha
    subst ha
    exact ⟨_, [], rfl, by simp [Quiet], ⟨_, rfl, rfl⟩, Story.nil.snoc_silent rfl rfl rfl⟩
  | _ => simp [Life.apply, Event.tokens, Stage.next, Phase, Quiet] at ha ⊢ <;> simp [← ha]

theorem phase_step_active (h : Phase pushed l .active) (ha : l.apply id e = some l') :
    Phase (pushed ++ e.tokens) l' (Stage.next l .active e) := by
  obtain ⟨ab, p, q, b, sh, rfl, hq, hs⟩ := h
  -- the record every buffering call edits, with the trail it ends
  have hentry := Story.entry id (l := ⟨true, none, some ⟨ab, p, q, .active pushed.length⟩, b, 0, sh⟩) hs
  have hqe := Quiet.entry id (l := ⟨true, none, some ⟨ab, p, q, .active pushed.length⟩, b, 0, sh⟩) hq
  cases e with
  | idle =>
    simp only [Life.apply, Option.some.injEq] at ha
    subst ha
    simpa [Event.tokens, Stage.next] using ⟨ab, p, q, b, sh, rfl, hq, hs⟩
  | aborted =>
    simp only [Life.apply, Option.some.injEq] at ha
    subst ha
    simpa [Event.tokens, Stage.next] using ⟨true, p, q, b, sh, rfl, hq, hs⟩
  | pushed ids logprobs =>
    simp only [Life.apply] at ha
    split_ifs at ha with hpar
    simp only [Option.some.injEq] at ha
    subst ha
    have hlen : (RequestLedger.paddedLogprobs ids logprobs).length = ids.length := by
      unfold RequestLedger.paddedLogprobs
      split_ifs with hnil
      · simp
      · exact hpar.resolve_left hnil
    have hn : (pushed ++ (Event.pushed ids logprobs).tokens).length = pushed.length + ids.length := by
      simp [Event.tokens, List.length_zip, hlen]
    simp only [Phase, Stage.next, hn]
    exact ⟨ab, p, q, _, sh, rfl, hq.left.snoc hqe, hentry.push ids _ hlen rfl rfl rfl⟩
  | noted note =>
    simp only [Life.apply, Option.some.injEq] at ha
    subst ha
    simp only [Event.tokens, List.append_nil]
    refine ⟨ab, p, q, _, sh, rfl, (hq.left).snoc ?_, hentry.congr_last ?_ ?_ ?_⟩ <;> cases note <;> first | rfl | exact hqe
  | finished reason cause =>
    simp only [Life.apply, Option.some.injEq] at ha
    subst ha
    simp only [Event.tokens, List.append_nil]
    exact ⟨_, sh, rfl, hq.left, ⟨_, rfl, rfl⟩, hentry.congr_last rfl rfl rfl⟩
  | failed message =>
    simp only [Life.apply, Option.some.injEq] at ha
    subst ha
    simp only [Event.tokens, List.append_nil]
    exact ⟨_, sh, rfl, hq.left, ⟨_, rfl, rfl⟩, hentry.congr_last rfl rfl rfl⟩
  | retired =>
    simp only [Life.apply, Option.some.injEq] at ha
    subst ha
    exact ⟨sh, rfl, hq.left⟩
  | deferred reason cause =>
    simp only [Life.apply, Option.some.injEq] at ha
    subst ha
    simp only [Event.tokens, List.append_nil]
    exact ⟨_, sh, _, _, _, rfl, hq.left, rfl, hentry.congr_last rfl rfl rfl⟩
  | committed =>
    simp only [Life.apply, Option.some.injEq] at ha
    subst ha
    simp only [Event.tokens, List.append_nil, Stage.next]
    refine ⟨ab, p, q, none, sh ++ (b.filter fun u => !u.isVacant).toList, rfl, ?_, ?_⟩
    · intro u hu
      refine hq u ?_
      simp only [Option.toList_none, List.append_nil, List.mem_append, Option.mem_toList] at hu ⊢
      exact hu.imp_right fun h => (Option.filter_eq_some_iff.1 h).1
    · simp only [Option.toList_none, List.append_nil]
      cases b with
      | none => simpa using hs
      | some u =>
        by_cases hv : u.isVacant = true
        · simpa [Option.filter, hv] using hs.drop_vacant hv
        · simpa [Option.filter, hv] using hs
  | fell =>
    simp only [Life.apply, Option.some.injEq, Option.map_some, Option.toList_some] at ha
    subst ha
    simp only [Event.tokens, List.append_nil, Stage.next]
    split_ifs with hv
    · refine ⟨_, sh, rfl, hq.left, ⟨_, rfl, rfl⟩, ?_⟩
      have hsh : Story sh pushed := by
        cases b with
        | none => simpa using hs
        | some u => exact hs.drop_vacant (by simpa using hv)
      exact hsh.snoc_silent rfl rfl rfl
    · exact ⟨_, sh, rfl, hq.left, rfl⟩
  | _ => simp [Life.apply] at ha

theorem phase_step_closing (h : Phase pushed l .closing) (ha : l.apply id e = some l') :
    Phase (pushed ++ e.tokens) l' (Stage.next l .closing e) := by
  obtain ⟨u, sh, rfl, hq, hc, hs⟩ := h
  cases e with
  | idle =>
    simp only [Life.apply, Option.some.injEq] at ha
    subst ha
    simpa [Event.tokens, Stage.next] using ⟨u, sh, rfl, hq, hc, hs⟩
  | aborted =>
    simp only [Life.apply, Option.some.injEq] at ha
    subst ha
    simpa [Event.tokens, Stage.next] using ⟨u, sh, rfl, hq, hc, hs⟩
  | committed =>
    simp only [Life.apply, Option.some.injEq] at ha
    subst ha
    simp only [Event.tokens, List.append_nil, Stage.next, if_true]
    exact ⟨u, sh, by simp [hc.not_vacant], hq, hc, hs⟩
  | fell =>
    simp only [Life.apply, Option.some.injEq] at ha
    subst ha
    exact ⟨sh, by simp, hq⟩
  | _ => simp [Life.apply] at ha

theorem phase_step_withheld (h : Phase pushed l .withheld) (ha : l.apply id e = some l') :
    Phase (pushed ++ e.tokens) l' (Stage.next l .withheld e) := by
  obtain ⟨u, sh, r, c, p, rfl, hq, ht, hs⟩ := h
  cases e with
  | sent v =>
    simp only [Life.apply, Multiset.mem_singleton] at ha
    split_ifs at ha with hv
    subst hv
    simp only [Option.some.injEq] at ha
    subst ha
    simp only [Event.tokens, List.append_nil]
    exact ⟨v, sh, by simp, hq, ⟨_, ht, rfl⟩, hs⟩
  | unsent v =>
    simp only [Life.apply, Multiset.mem_singleton] at ha
    split_ifs at ha with hv
    subst hv
    simp only [Option.some.injEq] at ha
    subst ha
    simp only [Event.tokens, List.append_nil]
    exact ⟨_, sh, by simp, hq, closes_deferredDropUpdate ht, hs.congr_last rfl rfl rfl⟩
  | _ =>
    simp [Life.apply] at ha <;> subst ha <;> simp only [Event.tokens, List.append_nil, Stage.next] <;>
      exact ⟨u, sh, r, c, p, by simp, hq, ht, hs⟩

/-- a life of which nothing is left but what was shipped no longer changes -/
theorem apply_spent {sh : List RequestUpdate} (ha : Life.apply id ⟨true, none, none, none, 0, sh⟩ e = some l') :
    l' = ⟨true, none, none, none, 0, sh⟩ ∧ e.tokens = [] ∧
      ∀ st : Stage, st ≠ .queued → st ≠ .active → st ≠ .closing →
        Stage.next ⟨true, none, none, none, 0, sh⟩ st e = st := by
  cases e with
  | fell =>
    simp only [Life.apply, Option.map_none, Option.toList_none, List.append_nil, Option.some.injEq] at ha
    refine ⟨ha.symm, rfl, ?_⟩
    intro st hqueued hactive hclosing
    cases st <;> simp_all [Stage.next]
  | committed =>
    simp only [Life.apply, Option.filter_none, Option.toList_none, List.append_nil, Option.some.injEq] at ha
    exact ⟨ha.symm, rfl, fun st _ _ hclosing => by simp [Stage.next, hclosing]⟩
  | _ => simp [Life.apply, Event.tokens, Stage.next] at ha ⊢ <;> simp [← ha]

/-- **Phase step.** Every event moves a request's phase to the stage `Stage.next` names. -/
theorem phase_step {st : Stage} (h : Phase pushed l st) (ha : l.apply id e = some l') :
    Phase (pushed ++ e.tokens) l' (Stage.next l st e) := by
  cases st with
  | unseen => exact phase_step_unseen h ha
  | enveloped => exact phase_step_enveloped h ha
  | queued => exact phase_step_queued h ha
  | active => exact phase_step_active h ha
  | closing => exact phase_step_closing h ha
  | withheld => exact phase_step_withheld h ha
  | answered =>
    obtain ⟨u, sh, rfl, hrest⟩ := h
    obtain ⟨rfl, ht, hn⟩ := apply_spent ha
    rw [hn _ (by decide) (by decide) (by decide), ht, List.append_nil]
    exact ⟨u, sh, rfl, hrest⟩
  | truncated =>
    obtain ⟨u, sh, rfl, hrest⟩ := h
    obtain ⟨rfl, ht, hn⟩ := apply_spent ha
    rw [hn _ (by decide) (by decide) (by decide), ht, List.append_nil]
    exact ⟨u, sh, rfl, hrest⟩
  | retired =>
    obtain ⟨sh, rfl, hrest⟩ := h
    obtain ⟨rfl, ht, hn⟩ := apply_spent ha
    rw [hn _ (by decide) (by decide) (by decide), ht, List.append_nil]
    exact ⟨sh, rfl, hrest⟩
  | lost =>
    obtain ⟨sh, rfl, hrest⟩ := h
    obtain ⟨rfl, ht, hn⟩ := apply_spent ha
    rw [hn _ (by decide) (by decide) (by decide), ht, List.append_nil]
    exact ⟨sh, rfl, hrest⟩

end Pegainfer.Frontend
