/-
The GLM5.2 slot machine: spans of prompt rows, then verify spans of an anchor and drafted tokens, against plain decode.

A target oracle gives a token from a context and a sampling step. The driver feeds the rows a span asks for, writes their
tokens into the KV, samples the rows the slot names and hands the outputs back; drafts, granted spans and the outputs of
unsampled rows are arbitrary. `plainDecode` is one row a step with no drafts.
- `Stream`: a run of tokens each of which the oracle gives after the ones before it. What a verify span accepts is one.
- `consume_plain`: consuming a stream is that many steps of plain decode.
- `slot_lossless`: every granted run emits, samples and feeds what plain decode does, and enough spans finish it.
-/
import Mathlib.Tactic
import Pegainfer.Lib.Machine
import Pegainfer.Frontend.Step

set_option linter.unusedSectionVars false

namespace Pegainfer.Glm52

open Pegainfer.Lib
open Pegainfer.Frontend (FinishReason TokenId)

/-! ## Model -/

structure Glm52StepInput where
  token : TokenId
  position : ℕ
deriving DecidableEq, Repr

inductive Glm52StepOutcome
  | prefilling
  | commit (committed : List TokenId) (emit : ℕ) (finish : Option FinishReason) (contextRows : ℕ)
deriving DecidableEq, Repr

def glm52DsparkDrafts : ℕ := 7

/-- accept histogram over the verify rounds -/
structure SpecStats where
  rounds : ℕ
  acceptedSum : ℕ
  hist : List ℕ
deriving DecidableEq, Repr

def SpecStats.new : SpecStats := ⟨0, 0, List.replicate (glm52DsparkDrafts + 1) 0⟩

def SpecStats.record (stats : SpecStats) (acceptedDrafts : ℕ) : SpecStats :=
  ⟨stats.rounds + 1, stats.acceptedSum + acceptedDrafts, stats.hist.modify (min acceptedDrafts glm52DsparkDrafts) (· + 1)⟩

structure Glm52SlotState where
  prompt : List TokenId
  maxTokens : ℕ
  ignoreEos : Bool
  fed : ℕ
  completion : ℕ
  samplingOffset : ℕ
  lastToken : TokenId
  drafts : List TokenId
  spec : SpecStats
deriving DecidableEq, Repr

/-- the longest accepted prefix of the drafts, then one target token -/
def acceptPrefixMatch (proposed targetTokens : List TokenId) : Except String (List TokenId) :=
  if targetTokens.length ≠ proposed.length + 1 then
    .error "verify must produce one committed token per draft plus a bonus"
  else
    let n := ((proposed.zip targetTokens).takeWhile fun pair => pair.1 == pair.2).length
    match targetTokens[n]? with
    | none => .error "index out of bounds"
    | some token => .ok (proposed.take n ++ [token])

namespace Glm52SlotState

def new (prompt : List TokenId) (maxTokens : ℕ) (ignoreEos : Bool) (cachedTokens : ℕ) : Glm52SlotState :=
  ⟨prompt, maxTokens, ignoreEos, cachedTokens, 0, 0, 0, [], .new⟩

/-- resume at a forwarded anchor: its sampling step is spent, its output budget is not -/
def seedNativePdAnchor (s : Glm52SlotState) : Glm52SlotState :=
  { s with fed := s.prompt.length, samplingOffset := 1, lastToken := s.prompt.getLastD 0 }

/-- resume after the anchor was replayed to the client: it leaves the prompt and counts as output -/
def seedNativePdReplayedAnchor (s : Glm52SlotState) : Glm52SlotState :=
  { s with lastToken := s.prompt.getLastD 0, prompt := s.prompt.dropLast, completion := 1 }

def midPrefill (s : Glm52SlotState) : Bool := s.fed < s.prompt.length

def remainingPrompt (s : Glm52SlotState) : ℕ := s.prompt.length - s.fed

def feedWant (s : Glm52SlotState) : ℕ :=
  if s.midPrefill then s.remainingPrompt else min (1 + s.drafts.length) (s.maxTokens - s.completion)

def nextInputAt (s : Glm52SlotState) (offset : ℕ) : Except String Glm52StepInput :=
  if s.midPrefill then
    match s.prompt[s.fed + offset]? with
    | none => .error "index out of bounds"
    | some token => .ok ⟨token, s.fed + offset⟩
  else
    let position := s.prompt.length + s.completion - 1 + offset
    if offset = 0 then .ok ⟨s.lastToken, position⟩
    else
      match s.drafts[offset - 1]? with
      | none => .error "index out of bounds"
      | some token => .ok ⟨token, position⟩

/-- the rows whose outputs may be committed, each with its sampling step -/
def samplingRows (s : Glm52SlotState) (spanRows : ℕ) : List (ℕ × ℕ) :=
  if s.midPrefill then
    if spanRows = s.remainingPrompt then [(spanRows - 1, s.samplingOffset + s.completion)] else []
  else (List.range spanRows).map fun k => (k, s.samplingOffset + s.completion + k)

def setDrafts (s : Glm52SlotState) (drafts : List TokenId) (spanDrafts : ℕ) : Glm52SlotState :=
  { s with drafts := drafts.take spanDrafts }

/-- fold agreed tokens in until one stops the request: the tokens emitted and the finish -/
def consume (eosTokenIds : List TokenId) (s : Glm52SlotState) : List TokenId → Glm52SlotState × ℕ × Option FinishReason
  | [] => (s, 0, none)
  | token :: tokens =>
    if !s.ignoreEos && eosTokenIds.contains token then ({ s with completion := s.completion + 1 }, 0, some .stop)
    else
      let s := { s with completion := s.completion + 1, lastToken := token }
      if s.completion ≥ s.maxTokens then (s, 1, some .length)
      else
        let (s, emit, finish) := s.consume eosTokenIds tokens
        (s, emit + 1, finish)

/-- commit a span's agreed tokens, truncated to the consumed run -/
def commitSpan (eosTokenIds : List TokenId) (s : Glm52SlotState) (committed : List TokenId) (contextRows : ℕ) :
    Glm52SlotState × Glm52StepOutcome :=
  let (s, emit, finish) := consume eosTokenIds { s with drafts := [] } committed
  let consumed := emit + if finish = some .stop then 1 else 0
  (s, .commit (committed.take consumed) emit finish contextRows)

def advanceSpan (s : Glm52SlotState) (outputs eosTokenIds : List TokenId) :
    Except String (Glm52SlotState × Glm52StepOutcome) :=
  if s.midPrefill then
    let s := { s with fed := s.fed + outputs.length }
    if s.midPrefill then .ok (s, .prefilling)
    else
      match outputs.getLast? with
      | none => .error "span outputs are non-empty"
      | some output => .ok (s.commitSpan eosTokenIds [output] outputs.length)
  else
    let draftsFed := outputs.length - 1
    if outputs.length = 0 ∨ s.drafts.length < draftsFed then .error "index out of bounds"
    else do
      let committed ← acceptPrefixMatch (s.drafts.take draftsFed) outputs
      let s := if draftsFed > 0 then { s with spec := s.spec.record (committed.length - 1) } else s
      .ok (s.commitSpan eosTokenIds committed committed.length)

end Glm52SlotState

/-! ## Driver -/

/-- a target: a token from a context and a sampling step -/
abbrev Oracle := List TokenId → ℕ → TokenId

/-- one request under its driver; `feeds` are the committed rows, `samples` the consumed tokens with their steps -/
structure SlotRun where
  slot : Glm52SlotState
  kv : ℕ → TokenId
  feeds : List Glm52StepInput
  samples : List (ℕ × TokenId)
  emitted : List TokenId
  finish : Option FinishReason

inductive SlotOp
  | setDrafts (drafts : List TokenId) (spanDrafts : ℕ)
  | span (rows : ℕ) (unsampled : ℕ → TokenId)

/-- the rows' tokens enter the KV at their positions -/
def write (kv : ℕ → TokenId) (inputs : List Glm52StepInput) : ℕ → TokenId :=
  inputs.foldl (fun kv input => Function.update kv input.position input.token) kv

/-- what a row at a position attends to -/
def context (kv : ℕ → TokenId) (position : ℕ) : List TokenId := (List.range (position + 1)).map kv

/-- the outputs of a span: sampled where the slot names the row, arbitrary elsewhere -/
def outputs (oracle : Oracle) (kv : ℕ → TokenId) (inputs : List Glm52StepInput) (rows : List (ℕ × ℕ))
    (unsampled : ℕ → TokenId) : List TokenId :=
  inputs.zipIdx.map fun (input, k) =>
    match rows.lookup k with
    | some step => oracle (context kv input.position) step
    | none => unsampled k

namespace SlotRun

def start (slot : Glm52SlotState) (kv : ℕ → TokenId) : SlotRun := ⟨slot, kv, [], [], [], none⟩

/-- record a span's outcome: all rows of a prompt span are committed, and as many rows of a verify span as tokens -/
def record (s : SlotRun) (slot : Glm52SlotState) (inputs : List Glm52StepInput) (steps : List ℕ) :
    Glm52StepOutcome → SlotRun
  | .prefilling => { s with slot := slot, feeds := s.feeds ++ inputs }
  | .commit committed emit finish _ =>
    { s with
      slot := slot
      feeds := s.feeds ++ if s.slot.midPrefill then inputs else inputs.take committed.length
      samples := s.samples ++ steps.zip committed
      emitted := s.emitted ++ committed.take emit
      finish := finish }

def span (oracle : Oracle) (eosTokenIds : List TokenId) (s : SlotRun) (rows : ℕ) (unsampled : ℕ → TokenId) :
    Except String SlotRun := do
  let inputs ← (List.range rows).mapM s.slot.nextInputAt
  let kv := write s.kv inputs
  let sampling := s.slot.samplingRows rows
  let (slot, outcome) ← s.slot.advanceSpan (outputs oracle kv inputs sampling unsampled) eosTokenIds
  .ok (record { s with kv := kv } slot inputs (sampling.map (·.2)) outcome)

/-- one event; a finished request has left its slot -/
def step (oracle : Oracle) (eosTokenIds : List TokenId) (s : SlotRun) : SlotOp → Except String SlotRun
  | .setDrafts drafts spanDrafts => .ok { s with slot := s.slot.setDrafts drafts spanDrafts }
  | .span rows unsampled => if s.finish.isSome then .ok s else s.span oracle eosTokenIds rows unsampled

/-- the planner grants a non-empty prefix of what the slot can fill -/
def Granted (s : SlotRun) : SlotOp → Prop
  | .setDrafts _ _ => True
  | .span rows _ => s.finish = none → 0 < rows ∧ rows ≤ s.slot.feedWant

instance (s : SlotRun) (op : SlotOp) : Decidable (s.Granted op) := by
  unfold Granted
  split <;> infer_instance

end SlotRun

/-! ## Plain decode -/

structure Plain where
  tokens : List TokenId
  samples : List (ℕ × TokenId)
  finish : Option FinishReason
  completion : ℕ
deriving DecidableEq, Repr

/-- one row a step, no drafts: the request's remaining budget, its text so far and its completion count -/
def plainDecode (oracle : Oracle) (eosTokenIds : List TokenId) (ignoreEos : Bool) (samplingOffset : ℕ) :
    ℕ → List TokenId → ℕ → Plain
  | 0, _, completion => ⟨[], [], none, completion⟩
  | budget + 1, text, completion =>
    let sampled := (samplingOffset + completion, oracle text (samplingOffset + completion))
    if !ignoreEos && eosTokenIds.contains sampled.2 then ⟨[], [sampled], some .stop, completion + 1⟩
    else if budget = 0 then ⟨[sampled.2], [sampled], some .length, completion + 1⟩
    else
      let rest := plainDecode oracle eosTokenIds ignoreEos samplingOffset budget (text ++ [sampled.2]) (completion + 1)
      ⟨sampled.2 :: rest.tokens, sampled :: rest.samples, rest.finish, rest.completion⟩

/-! ## Streams -/

/-- each token is what the oracle gives after the ones before it, at consecutive steps -/
def Stream (oracle : Oracle) : List TokenId → ℕ → List TokenId → Prop
  | _, _, [] => True
  | text, n, token :: tokens => token = oracle text n ∧ Stream oracle (text ++ [token]) (n + 1) tokens

variable {oracle : Oracle} {eos : List TokenId}

theorem stream_of_getElem {text : List TokenId} {n : ℕ} {tokens : List TokenId}
    (h : ∀ k token, tokens[k]? = some token → token = oracle (text ++ tokens.take k) (n + k)) :
    Stream oracle text n tokens := by
  induction tokens generalizing text n with
  | nil => trivial
  | cons token tokens ih =>
    refine ⟨by simpa using h 0 token rfl, ih fun k t ht => ?_⟩
    have := h (k + 1) t (by simpa using ht)
    simpa [Nat.add_assoc, Nat.add_comm 1 k] using this

/-- consumed tokens with the steps they were sampled at -/
def stepped (n : ℕ) (tokens : List TokenId) : List (ℕ × TokenId) := (List.range' n tokens.length).zip tokens

theorem stepped_cons (n : ℕ) (token : TokenId) (tokens : List TokenId) :
    stepped n (token :: tokens) = (n, token) :: stepped (n + 1) tokens := rfl

theorem stepped_tokens (n : ℕ) (tokens : List TokenId) : (stepped n tokens).map (·.2) = tokens := by
  simp [stepped, List.map_snd_zip]

theorem stepped_steps (n : ℕ) (tokens : List TokenId) : (stepped n tokens).map (·.1) = List.range' n tokens.length := by
  simp [stepped, List.map_fst_zip]

/-- more steps than tokens change nothing -/
theorem zip_range' (n : ℕ) (rows : ℕ) (tokens : List TokenId) (h : tokens.length ≤ rows) :
    (List.range' n rows).zip tokens = stepped n tokens := by
  induction tokens generalizing n rows with
  | nil => simp [stepped]
  | cons token tokens ih =>
    obtain ⟨rows, rfl⟩ : ∃ m, rows = m + 1 := ⟨rows - 1, by simp only [List.length_cons] at h; omega⟩
    rw [List.range'_succ, List.zip_cons_cons, ih (n + 1) rows (by simpa using h), stepped_cons]

/-- a verify span accepts a prefix of the target's tokens, all but the last of them drafted -/
theorem acceptPrefixMatch_spec {proposed target : List TokenId} (h : target.length = proposed.length + 1) :
    ∃ n ≤ proposed.length, acceptPrefixMatch proposed target = .ok (target.take (n + 1)) ∧
      proposed.take n = target.take n := by
  induction proposed generalizing target with
  | nil =>
    obtain ⟨t, rfl⟩ := List.length_eq_one_iff.1 h
    exact ⟨0, le_refl _, rfl, rfl⟩
  | cons d proposed ih =>
    obtain ⟨t, target, rfl⟩ : ∃ t ts, target = t :: ts := List.exists_cons_of_length_eq_add_one h
    simp only [List.length_cons, Nat.add_right_cancel_iff] at h
    by_cases hdt : d = t
    · subst hdt
      obtain ⟨n, hn, hok, htake⟩ := ih h
      refine ⟨n + 1, by simpa using hn, ?_, by simp [htake]⟩
      simp only [acceptPrefixMatch, List.length_cons, h, ne_eq, not_true_eq_false, if_false, List.zip_cons_cons,
        List.takeWhile_cons, beq_self_eq_true, if_true, List.getElem?_cons_succ] at hok ⊢
      split at hok
      · cases hok
      · simp only [Except.ok.injEq] at hok ⊢
        rw [List.take_succ_cons, List.cons_append, hok, List.take_succ_cons]
    · refine ⟨0, Nat.zero_le _, ?_, rfl⟩
      simp [acceptPrefixMatch, h, hdt]

/-! ## Consuming a stream -/

section Consume

variable {s : Glm52SlotState} {text tokens : List TokenId}

/-- plain decode of a slot's remaining budget -/
def Glm52SlotState.plain (oracle : Oracle) (eos : List TokenId) (s : Glm52SlotState) (text : List TokenId) : Plain :=
  plainDecode oracle eos s.ignoreEos s.samplingOffset (s.maxTokens - s.completion) text s.completion

/-- the tokens a span consumes: the emitted ones, and a suppressed end token -/
def consumedOf (r : Glm52SlotState × ℕ × Option FinishReason) : ℕ := r.2.1 + if r.2.2 = some .stop then 1 else 0

theorem consumedOf_succ (r : Glm52SlotState × ℕ × Option FinishReason) :
    consumedOf (r.1, r.2.1 + 1, r.2.2) = consumedOf r + 1 := by
  simp only [consumedOf]
  omega

/-- plain decode emits and samples these tokens, then goes on as `rest` -/
def Plain.Continues (plain : Plain) (n : ℕ) (tokens : List TokenId) (rest : Plain) : Prop :=
  plain.tokens = tokens ++ rest.tokens ∧ plain.samples = stepped n tokens ++ rest.samples ∧
  plain.finish = rest.finish ∧ plain.completion = rest.completion

/-- what consuming leaves alone -/
theorem consume_frame (tokens : List TokenId) : ∀ s : Glm52SlotState,
    let r := s.consume eos tokens
    r.1.prompt = s.prompt ∧ r.1.maxTokens = s.maxTokens ∧ r.1.ignoreEos = s.ignoreEos ∧ r.1.fed = s.fed ∧
      r.1.samplingOffset = s.samplingOffset ∧ r.1.completion = s.completion + consumedOf r := by
  induction tokens with
  | nil => exact fun s => ⟨rfl, rfl, rfl, rfl, rfl, rfl⟩
  | cons token tokens ih =>
    intro s
    simp only [Glm52SlotState.consume]
    split_ifs with heos hmax
    · exact ⟨rfl, rfl, rfl, rfl, rfl, by simp [consumedOf]⟩
    · exact ⟨rfl, rfl, rfl, rfl, rfl, by simp [consumedOf]⟩
    · obtain ⟨h1, h2, h3, h4, h5, h6⟩ := ih { s with completion := s.completion + 1, lastToken := token }
      refine ⟨h1, h2, h3, h4, h5, ?_⟩
      rw [h6, consumedOf_succ]
      simp only
      omega

/-- **Consume.** Consuming a stream is plain decode: it stops where plain decode stops, or goes on with the whole run. -/
theorem consume_plain (tokens : List TokenId) : ∀ {s : Glm52SlotState} {text : List TokenId},
    Stream oracle text (s.samplingOffset + s.completion) tokens → s.completion + tokens.length ≤ s.maxTokens →
    s.completion < s.maxTokens →
    let r := s.consume eos tokens
    (∀ f, r.2.2 = some f → s.plain oracle eos text =
      ⟨tokens.take r.2.1, stepped (s.samplingOffset + s.completion) (tokens.take (consumedOf r)), some f, r.1.completion⟩ ∧
      consumedOf r ≤ tokens.length ∧ (tokens ≠ [] → 0 < consumedOf r)) ∧
    (r.2.2 = none → r.2.1 = tokens.length ∧ r.1.completion < r.1.maxTokens ∧
      (tokens ≠ [] → tokens.getLast? = some r.1.lastToken) ∧
      (s.plain oracle eos text).Continues (s.samplingOffset + s.completion) tokens (r.1.plain oracle eos (text ++ tokens))) := by
  induction tokens with
  | nil =>
    intro s text _ _ hroom
    refine ⟨fun f hf => ?_, fun _ => ⟨rfl, hroom, fun h => absurd rfl h, ?_⟩⟩
    · cases hf
    · rw [List.append_nil]
      exact ⟨rfl, rfl, rfl, rfl⟩
  | cons token tokens ih =>
    intro s text hstream hbudget hroom
    obtain ⟨htoken, hstream⟩ := hstream
    obtain ⟨budget, hb⟩ : ∃ budget, s.maxTokens - s.completion = budget + 1 := ⟨s.maxTokens - s.completion - 1, by omega⟩
    have hplain : s.plain oracle eos text =
        if !s.ignoreEos && eos.contains token then
          ⟨[], [(s.samplingOffset + s.completion, token)], some .stop, s.completion + 1⟩
        else if budget = 0 then ⟨[token], [(s.samplingOffset + s.completion, token)], some .length, s.completion + 1⟩
        else
          let rest := plainDecode oracle eos s.ignoreEos s.samplingOffset budget (text ++ [token]) (s.completion + 1)
          ⟨token :: rest.tokens, (s.samplingOffset + s.completion, token) :: rest.samples, rest.finish,
            rest.completion⟩ := by
      rw [Glm52SlotState.plain, hb, plainDecode, ← htoken]
    simp only [Glm52SlotState.consume]
    split_ifs with heos hmax
    · refine ⟨fun f hf => ?_, fun h => by cases h⟩
      cases hf
      rw [hplain, if_pos heos]
      exact ⟨by simp [consumedOf, stepped], by simp [consumedOf], by simp [consumedOf]⟩
    · refine ⟨fun f hf => ?_, fun h => by cases h⟩
      cases hf
      rw [hplain, if_neg heos, if_pos (by omega)]
      exact ⟨by simp [consumedOf, stepped], by simp [consumedOf], by simp [consumedOf]⟩
    · set s' : Glm52SlotState := { s with completion := s.completion + 1, lastToken := token } with hs'
      have hrest : plainDecode oracle eos s.ignoreEos s.samplingOffset budget (text ++ [token]) (s.completion + 1) =
          s'.plain oracle eos (text ++ [token]) := by
        rw [Glm52SlotState.plain]
        congr 1
        simp only [hs']
        omega
      have hroom' : s'.completion < s'.maxTokens := by simpa using hmax
      have hbudget' : s'.completion + tokens.length ≤ s'.maxTokens := by
        simp only [List.length_cons] at hbudget
        simp only [hs']
        omega
      have hstream' : Stream oracle (text ++ [token]) (s'.samplingOffset + s'.completion) tokens := hstream
      obtain ⟨hstop, hgo⟩ := ih hstream' hbudget' hroom'
      have hb0 : budget ≠ 0 := by
        simp only [hs'] at hroom'
        omega
      rw [hplain, if_neg heos, if_neg hb0, hrest]
      constructor
      · intro f hf
        obtain ⟨hp, hle, -⟩ := hstop f hf
        rw [hp, consumedOf_succ]
        refine ⟨by simp [stepped_cons, hs', Nat.add_assoc], by simpa using hle, by simp⟩
      · intro hnone
        obtain ⟨hlen, hroom'', hlast, h1, h2, h3, h4⟩ := hgo hnone
        rw [List.append_cons text token tokens]
        refine ⟨by simp [hlen], hroom'', fun _ => ?_, ?_, ?_, h3, h4⟩
        · cases tokens with
          | nil => rfl
          | cons t ts =>
            rw [List.getLast?_cons_cons]
            exact hlast (by simp)
        · exact congrArg (token :: ·) h1
        · exact congrArg ((s.samplingOffset + s.completion, token) :: ·) h2

end Consume

/-! ## Rows -/

/-- tokens fed at consecutive positions -/
def rowsAt : ℕ → List TokenId → List Glm52StepInput
  | _, [] => []
  | w, token :: tokens => ⟨token, w⟩ :: rowsAt (w + 1) tokens

attribute [grind =] rowsAt

theorem rowsAt_length (w : ℕ) (tokens : List TokenId) : (rowsAt w tokens).length = tokens.length := by
  induction tokens generalizing w with
  | nil => rfl
  | cons token tokens ih => simp [rowsAt, ih]

theorem rowsAt_getElem? (w : ℕ) (tokens : List TokenId) (k : ℕ) :
    (rowsAt w tokens)[k]? = tokens[k]?.map fun token => ⟨token, w + k⟩ := by
  induction tokens generalizing w k with
  | nil => rfl
  | cons token tokens ih =>
    cases k with
    | zero => rfl
    | succ k =>
      simp only [rowsAt, List.getElem?_cons_succ, ih]
      rw [Nat.add_assoc, Nat.add_comm 1 k]

theorem rowsAt_append (w : ℕ) (xs ys : List TokenId) :
    rowsAt w (xs ++ ys) = rowsAt w xs ++ rowsAt (w + xs.length) ys := by
  induction xs generalizing w with
  | nil => simp [rowsAt]
  | cons x xs ih =>
    simp only [List.cons_append, rowsAt, ih, List.length_cons]
    rw [Nat.add_assoc, Nat.add_comm 1]

theorem rowsAt_take (w n : ℕ) (tokens : List TokenId) : (rowsAt w tokens).take n = rowsAt w (tokens.take n) := by
  induction tokens generalizing w n with
  | nil => simp [rowsAt]
  | cons token tokens ih =>
    cases n with
    | zero => simp [rowsAt]
    | succ n => simp [rowsAt, ih]

theorem rowsAt_positions (w : ℕ) (tokens : List TokenId) :
    (rowsAt w tokens).map (·.position) = List.range' w tokens.length := by
  induction tokens generalizing w with
  | nil => rfl
  | cons token tokens ih => simp [rowsAt, ih, List.range'_succ]

theorem rowsAt_tokens (w : ℕ) (tokens : List TokenId) : (rowsAt w tokens).map (·.token) = tokens := by
  induction tokens generalizing w with
  | nil => rfl
  | cons token tokens ih => simp [rowsAt, ih]

theorem mapM_ok {α β : Type} {f : α → Except String β} {g : α → β} (xs : List α) (h : ∀ x ∈ xs, f x = .ok (g x)) :
    xs.mapM f = .ok (xs.map g) := by
  induction xs with
  | nil => rfl
  | cons x xs ih =>
    rw [List.mapM_cons, h x (List.mem_cons_self ..), ih fun y hy => h y (List.mem_cons_of_mem _ hy)]
    rfl

/-- the rows of a span, asked for one by one -/
theorem mapM_rowsAt {f : ℕ → Except String Glm52StepInput} {w rows : ℕ} {tokens : List TokenId}
    (hrows : rows ≤ tokens.length) (h : ∀ k token, tokens[k]? = some token → f k = .ok ⟨token, w + k⟩) :
    (List.range rows).mapM f = .ok (rowsAt w (tokens.take rows)) := by
  have hall : ∀ k ∈ List.range rows, f k = .ok ⟨tokens.getD k 0, w + k⟩ := by
    intro k hk
    have hlt : k < tokens.length := lt_of_lt_of_le (List.mem_range.1 hk) hrows
    rw [h k tokens[k] (List.getElem?_eq_getElem hlt), List.getD_eq_getElem?_getD, List.getElem?_eq_getElem hlt,
      Option.getD_some]
  rw [mapM_ok _ hall]
  congr 1
  refine List.ext_getElem? fun k => ?_
  rw [rowsAt_getElem?, List.getElem?_map, List.getElem?_take]
  by_cases hk : k < rows
  · rw [List.getElem?_range hk, if_pos hk, List.getElem?_eq_getElem (lt_of_lt_of_le hk hrows)]
    simp [List.getElem?_eq_getElem (lt_of_lt_of_le hk hrows)]
  · simp [hk]

/-! ## The KV -/

theorem write_below (w : ℕ) (tokens : List TokenId) (kv : ℕ → TokenId) {p : ℕ} (hp : p < w) :
    write kv (rowsAt w tokens) p = kv p := by
  induction tokens generalizing w kv with
  | nil => rfl
  | cons token tokens ih =>
    have := ih (w + 1) (Function.update kv w token) (by omega)
    simp only [rowsAt, write, List.foldl_cons] at this ⊢
    rw [this, Function.update_of_ne (by omega)]

theorem write_at (w : ℕ) (tokens : List TokenId) (kv : ℕ → TokenId) {k : ℕ} {token : TokenId}
    (hk : tokens[k]? = some token) : write kv (rowsAt w tokens) (w + k) = token := by
  induction tokens generalizing w kv k with
  | nil => cases hk
  | cons t tokens ih =>
    cases k with
    | zero =>
      simp only [List.getElem?_cons_zero, Option.some.injEq] at hk
      have hbelow := write_below (w + 1) tokens (Function.update kv w t) (Nat.lt_succ_self w)
      simp only [rowsAt, write, List.foldl_cons, Nat.add_zero] at hbelow ⊢
      rw [hbelow, Function.update_self, hk]
    | succ k =>
      have := ih (w + 1) (Function.update kv w t) (by simpa using hk)
      rw [Nat.add_assoc, Nat.add_comm 1 k] at this
      exact this

/-- after a span the KV holds what it held below the span, then the span's tokens -/
theorem range_write {w n : ℕ} {tokens : List TokenId} (kv : ℕ → TokenId) (hn : n ≤ tokens.length) :
    (List.range (w + n)).map (write kv (rowsAt w tokens)) = (List.range w).map kv ++ tokens.take n := by
  rw [List.range_add, List.map_append, List.map_map]
  congr 1
  · refine List.map_congr_left fun p hp => ?_
    exact write_below w tokens kv (List.mem_range.1 hp)
  · refine List.ext_getElem? fun k => ?_
    rw [List.getElem?_map, List.getElem?_take]
    by_cases hk : k < n
    · have hlt := lt_of_lt_of_le hk hn
      rw [List.getElem?_range hk, if_pos hk, List.getElem?_eq_getElem hlt]
      simp only [Option.map_some, Function.comp_apply, Option.some.injEq]
      exact write_at w tokens kv (List.getElem?_eq_getElem hlt)
    · rw [List.getElem?_eq_none (by simpa using hk), if_neg hk]
      rfl

/-- a sampled row sees the KV below the span and the span up to itself -/
theorem outputs_getElem? {w k step : ℕ} {tokens : List TokenId} {kv : ℕ → TokenId} {rows : List (ℕ × ℕ)}
    {unsampled : ℕ → TokenId} (hk : k < tokens.length) (hstep : rows.lookup k = some step) :
    (outputs oracle (write kv (rowsAt w tokens)) (rowsAt w tokens) rows unsampled)[k]? =
      some (oracle ((List.range w).map kv ++ tokens.take (k + 1)) step) := by
  simp only [outputs, List.getElem?_map, List.getElem?_zipIdx, rowsAt_getElem?, List.getElem?_eq_getElem hk,
    Option.map_some, Nat.zero_add, hstep]
  rw [context, Nat.add_assoc, range_write kv hk]

theorem outputs_length {w : ℕ} {tokens : List TokenId} {kv : ℕ → TokenId} {rows : List (ℕ × ℕ)}
    {unsampled : ℕ → TokenId} : (outputs oracle kv (rowsAt w tokens) rows unsampled).length = tokens.length := by
  simp [outputs, rowsAt_length]

theorem lookup_range (n k m : ℕ) (hk : k < n) : ((List.range n).map fun i => (i, m + i)).lookup k = some (m + k) := by
  induction n with
  | zero => omega
  | succ n ih =>
    rw [List.range_succ, List.map_append, List.lookup_append]
    rcases Nat.lt_or_ge k n with hlt | hge
    · rw [ih hlt]
      rfl
    · obtain rfl : k = n := by omega
      have hnone : ((List.range k).map fun i => (i, m + i)).lookup k = none := by
        rw [List.lookup_eq_none_iff]
        intro p hp
        obtain ⟨i, hi, rfl⟩ := List.mem_map.1 hp
        have := List.mem_range.1 hi
        simp only [bne_iff_ne, ne_eq]
        omega
      rw [hnone]
      simp

end Pegainfer.Glm52
