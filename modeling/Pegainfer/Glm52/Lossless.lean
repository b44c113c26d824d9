/-
The slot machine against plain decode, over every run of drafts and granted spans.

- `Open`: the request's text is the prompt and the consumed tokens, the KV holds it up to the next row to feed, and plain
  decode of the request is the consumed tokens followed by plain decode of what is left.
- `commit_keeps`: committing a stream keeps this, or finishes as plain decode does. The prompt-completing span and the
  verify span both commit one.
- `slot_lossless`: the run theorem, from a fresh slot or one resumed at a forwarded anchor.
-/
import Mathlib.Tactic
import Pegainfer.Lib.Machine
import Pegainfer.Glm52.Slot

set_option linter.unusedSectionVars false

namespace Pegainfer.Glm52

open Pegainfer.Lib
open Pegainfer.Frontend (FinishReason TokenId)

/-! ## The invariant -/

/-- the next position to feed -/
def Glm52SlotState.written (slot : Glm52SlotState) : ℕ :=
  if slot.midPrefill then slot.fed else slot.prompt.length + slot.completion - 1

/-- what a request starts from: its slot, its text, and the first position it feeds -/
structure Origin where
  slot : Glm52SlotState
  base : List TokenId
  start : ℕ

/-- the request's text: what it started from and every token consumed since -/
def SlotRun.text (s : SlotRun) (o : Origin) : List TokenId := o.base ++ s.samples.map (·.2)

section Invariant

variable (oracle : Oracle) (eos : List TokenId) (o : Origin)

/-- an origin is consistent when its slot's prompt and completion make up its text -/
structure Origin.Sound : Prop where
  length : o.base.length = o.slot.prompt.length + o.slot.completion
  promptPrefix : o.slot.prompt <+: o.base
  nonempty : o.base ≠ []

/-- what holds of a run whether or not it has finished -/
structure Follows (s : SlotRun) : Prop where
  prompt_eq : s.slot.prompt = o.slot.prompt
  max_eq : s.slot.maxTokens = o.slot.maxTokens
  ignore_eq : s.slot.ignoreEos = o.slot.ignoreEos
  offset_eq : s.slot.samplingOffset = o.slot.samplingOffset
  completion_eq : s.slot.completion = o.slot.completion + s.samples.length
  samples_eq : s.samples = stepped (o.slot.samplingOffset + o.slot.completion) (s.samples.map (·.2))
  start_le : o.start ≤ s.slot.written
  feeds : s.feeds = rowsAt o.start (((s.text o).take s.slot.written).drop o.start)

structure Open (s : SlotRun) : Prop extends Follows o s where
  finish : s.finish = none
  fed_le : s.slot.fed ≤ s.slot.prompt.length
  mid : s.slot.midPrefill = true → s.slot.completion = 0
  anchor : s.slot.midPrefill = false → (s.text o).getLast? = some s.slot.lastToken
  kv : (List.range s.slot.written).map s.kv = (s.text o).take s.slot.written
  room : s.slot.completion < s.slot.maxTokens
  emitted : s.emitted = s.samples.map (·.2)
  plain : (o.slot.plain oracle eos o.base).Continues (o.slot.samplingOffset + o.slot.completion) (s.samples.map (·.2))
    (s.slot.plain oracle eos (s.text o))

structure Done (s : SlotRun) : Prop extends Follows o s where
  decoding : s.slot.midPrefill = false
  finished : s.finish.isSome
  finish : s.finish = (o.slot.plain oracle eos o.base).finish
  emitted : s.emitted = (o.slot.plain oracle eos o.base).tokens
  samples : s.samples = (o.slot.plain oracle eos o.base).samples
  completion : s.slot.completion = (o.slot.plain oracle eos o.base).completion

end Invariant

variable {oracle : Oracle} {eos : List TokenId} {o : Origin} {s : SlotRun}

theorem Follows.text_length (h : Follows o s) (ho : o.Sound) :
    (s.text o).length = s.slot.prompt.length + s.slot.completion := by
  rw [SlotRun.text, List.length_append, List.length_map, ho.length, h.prompt_eq, h.completion_eq]
  omega

theorem Follows.text_pos (h : Follows o s) (ho : o.Sound) : 0 < s.slot.prompt.length + s.slot.completion := by
  rw [← h.text_length ho, SlotRun.text, List.length_append]
  have := List.length_pos_iff.2 ho.nonempty
  omega

/-- while the prompt is being fed it is the whole text -/
theorem Open.text_mid (h : Open oracle eos o s) (ho : o.Sound) (hmid : s.slot.midPrefill = true) :
    s.text o = s.slot.prompt := by
  have hlen := h.text_length ho
  rw [h.mid hmid, Nat.add_zero] at hlen
  have hpre : s.slot.prompt <+: s.text o := by
    rw [h.prompt_eq]
    exact ho.promptPrefix.trans (List.prefix_append _ _)
  exact (hpre.eq_of_length hlen.symm).symm

theorem Open.written_le (h : Open oracle eos o s) (ho : o.Sound) : s.slot.written ≤ (s.text o).length := by
  rw [h.text_length ho, Glm52SlotState.written]
  split_ifs
  · exact le_trans h.fed_le (Nat.le_add_right _ _)
  · omega

/-! ## Committing a stream -/

/-- the rows a span commits when it consumes `n` tokens: the whole prompt span, or as many verify rows -/
def committedRows (mid : Bool) (rows n : ℕ) : ℕ := if mid then rows else n

/-- the span feeds the text that its first `n` consumed tokens make -/
def FeedsText (o : Origin) (s : SlotRun) (tokens c : List TokenId) : Prop :=
  ∀ n, 0 < n → n ≤ c.length →
    committedRows s.slot.midPrefill tokens.length n ≤ tokens.length ∧
    s.slot.written + committedRows s.slot.midPrefill tokens.length n = s.slot.prompt.length + s.slot.completion + n - 1 ∧
    tokens.take (committedRows s.slot.midPrefill tokens.length n) =
      ((s.text o ++ c.take n).take
        (s.slot.written + committedRows s.slot.midPrefill tokens.length n)).drop s.slot.written

theorem plain_congr {a b : Glm52SlotState} {text : List TokenId} (hmax : a.maxTokens = b.maxTokens)
    (hignore : a.ignoreEos = b.ignoreEos) (hoffset : a.samplingOffset = b.samplingOffset)
    (hcompletion : a.completion = b.completion) : a.plain oracle eos text = b.plain oracle eos text := by
  rw [Glm52SlotState.plain, Glm52SlotState.plain, hmax, hignore, hoffset, hcompletion]

theorem stepped_append (n : ℕ) (xs ys : List TokenId) :
    stepped n (xs ++ ys) = stepped n xs ++ stepped (n + xs.length) ys := by
  rw [stepped, List.length_append, List.range'_append_1.symm, List.zip_append (by simp)]
  rfl

theorem Plain.Continues.trans {a b c : Plain} {n : ℕ} {xs ys : List TokenId} (hab : a.Continues n xs b)
    (hbc : b.Continues (n + xs.length) ys c) : a.Continues n (xs ++ ys) c := by
  obtain ⟨h1, h2, h3, h4⟩ := hab
  obtain ⟨g1, g2, g3, g4⟩ := hbc
  exact ⟨by rw [h1, g1, List.append_assoc], by rw [h2, g2, stepped_append, List.append_assoc], h3.trans g3, h4.trans g4⟩

section Commit

variable {slot₁ : Glm52SlotState} {c tokens : List TokenId} {rows contextRows : ℕ}

/-- the run after a span that consumed `n` tokens of its stream -/
structure Took (o : Origin) (s s' : SlotRun) (c : List TokenId) (n : ℕ) : Prop where
  follows : Follows o s'
  text : s'.text o = s.text o ++ c.take n
  samples : s'.samples = s.samples ++ stepped (s.slot.samplingOffset + s.slot.completion) (c.take n)
  decoding : s'.slot.midPrefill = false
  fed_le : s'.slot.fed ≤ s'.slot.prompt.length
  completion : s'.slot.completion = s.slot.completion + n
  kv : (List.range s'.slot.written).map s'.kv = (s'.text o).take s'.slot.written

/-- what a span records, whatever the outcome -/
theorem record_took (h : Open oracle eos o s) (ho : o.Sound) (contextRows : ℕ) (slot : Glm52SlotState) (n emit : ℕ)
    (finish : Option FinishReason) (hpos : 0 < n) (hn : n ≤ c.length) (hrows : c.length ≤ rows)
    (hfeeds : FeedsText o s tokens c) (hprompt : slot.prompt = s.slot.prompt) (hfed : slot.fed = slot.prompt.length)
    (hmax : slot.maxTokens = s.slot.maxTokens) (hignore : slot.ignoreEos = s.slot.ignoreEos)
    (hoffset : slot.samplingOffset = s.slot.samplingOffset) (hcompletion : slot.completion = s.slot.completion + n) :
    Took o s
      (SlotRun.record { s with kv := write s.kv (rowsAt s.slot.written tokens) } slot (rowsAt s.slot.written tokens)
        (List.range' (s.slot.samplingOffset + s.slot.completion) rows) (.commit (c.take n) emit finish contextRows))
      c n := by
  set s' := SlotRun.record { s with kv := write s.kv (rowsAt s.slot.written tokens) } slot (rowsAt s.slot.written tokens)
    (List.range' (s.slot.samplingOffset + s.slot.completion) rows) (.commit (c.take n) emit finish contextRows) with hs'
  have hlen : (c.take n).length = n := by simp [hn]
  obtain ⟨hm, hsum, htake⟩ := hfeeds n hpos hn
  set m := committedRows s.slot.midPrefill tokens.length n with hmdef
  have hslot : s'.slot = slot := rfl
  have hsamples : s'.samples = s.samples ++ stepped (s.slot.samplingOffset + s.slot.completion) (c.take n) := by
    rw [hs', SlotRun.record, zip_range' _ _ _ (by omega)]
  have htext : s'.text o = s.text o ++ c.take n := by
    rw [SlotRun.text, hsamples, List.map_append, stepped_tokens, ← List.append_assoc]
    rfl
  have hmid : slot.midPrefill = false := by simp [Glm52SlotState.midPrefill, hfed]
  have hwritten : s'.slot.written = s.slot.written + m := by
    rw [hslot, Glm52SlotState.written, hmid, hsum, hprompt, hcompletion]
    simp only [Bool.false_eq_true, if_false]
    omega
  -- the text up to the new position is the text up to the old one and the committed rows
  have hsplit : (s'.text o).take s'.slot.written = (s.text o).take s.slot.written ++ tokens.take m := by
    have hold : (s.text o).take s.slot.written = ((s.text o ++ c.take n).take (s.slot.written + m)).take s.slot.written := by
      rw [List.take_take, Nat.min_eq_left (Nat.le_add_right _ _), List.take_append_of_le_length (h.written_le ho)]
    rw [hwritten, htext, htake, hold, List.take_append_drop]
  refine {
    follows := ?_
    text := htext
    samples := hsamples
    decoding := hmid
    fed_le := by rw [hslot, hfed]
    completion := hcompletion
    kv := ?_ }
  · refine {
      prompt_eq := hprompt.trans h.prompt_eq
      max_eq := hmax.trans h.max_eq
      ignore_eq := hignore.trans h.ignore_eq
      offset_eq := hoffset.trans h.offset_eq
      completion_eq := ?_
      samples_eq := ?_
      start_le := by
        have := h.start_le
        omega
      feeds := ?_ }
    · rw [hslot, hcompletion, h.completion_eq, hsamples, List.length_append]
      simp [stepped, hn, Nat.add_assoc]
    · rw [hsamples, List.map_append, stepped_tokens, stepped_append, ← h.samples_eq, List.length_map, Nat.add_assoc,
        ← h.completion_eq, h.offset_eq]
    · have hlength : ((s.text o).take s.slot.written).length = s.slot.written := by simp [h.written_le ho]
      have hfed : s'.feeds = s.feeds ++ rowsAt s.slot.written (tokens.take m) := by
        rw [hs', SlotRun.record]
        simp only [hmdef, committedRows]
        split_ifs
        · rw [List.take_length]
        · rw [hlen, rowsAt_take]
      rw [hfed, h.feeds, hsplit, List.drop_append_of_le_length (by rw [hlength]; exact h.start_le), rowsAt_append,
        List.length_drop, hlength, Nat.add_sub_cancel' h.start_le]
  · have hkv : s'.kv = write s.kv (rowsAt s.slot.written tokens) := rfl
    rw [hsplit, hwritten, hkv, range_write s.kv hm, h.kv]

/-- **Commit.** A span that commits a stream of the request's text either leaves it open with more consumed, or finishes
it as plain decode does. -/
theorem commit_keeps (h : Open oracle eos o s) (ho : o.Sound) (hne : c ≠ []) (hrows : c.length ≤ rows)
    (hstream : Stream oracle (s.text o) (s.slot.samplingOffset + s.slot.completion) c)
    (hbudget : s.slot.completion + c.length ≤ s.slot.maxTokens) (hfeeds : FeedsText o s tokens c)
    (hprompt : slot₁.prompt = s.slot.prompt) (hfed : slot₁.fed = slot₁.prompt.length)
    (hmax : slot₁.maxTokens = s.slot.maxTokens) (hignore : slot₁.ignoreEos = s.slot.ignoreEos)
    (hoffset : slot₁.samplingOffset = s.slot.samplingOffset) (hcompletion : slot₁.completion = s.slot.completion) :
    let s' := SlotRun.record { s with kv := write s.kv (rowsAt s.slot.written tokens) } (slot₁.commitSpan eos c contextRows).1
      (rowsAt s.slot.written tokens) (List.range' (s.slot.samplingOffset + s.slot.completion) rows)
      (slot₁.commitSpan eos c contextRows).2
    (Open oracle eos o s' ∧ s'.slot.midPrefill = false ∧ s.slot.completion < s'.slot.completion) ∨ Done oracle eos o s' := by
  set slot₂ : Glm52SlotState := { slot₁ with drafts := [] } with hslot₂
  set r := slot₂.consume eos c with hr
  have hplain : slot₂.plain oracle eos (s.text o) = s.slot.plain oracle eos (s.text o) :=
    plain_congr hmax hignore hoffset hcompletion
  have hat : slot₂.samplingOffset + slot₂.completion = s.slot.samplingOffset + s.slot.completion := by
    simp only [hslot₂, hoffset, hcompletion]
  obtain ⟨f1, f2, f3, f4, f5, f6⟩ := @consume_frame eos c slot₂
  obtain ⟨hstop, hgo⟩ := @consume_plain oracle eos c slot₂ (s.text o) (hat ▸ hstream)
    (by simpa only [hslot₂, hcompletion, hmax] using hbudget) (by simpa only [hslot₂, hcompletion, hmax] using h.room)
  have hspan : slot₁.commitSpan eos c contextRows =
      (r.1, .commit (c.take (consumedOf r)) r.2.1 r.2.2 contextRows) := rfl
  have htook := fun hpos hle => record_took h ho contextRows r.1 (consumedOf r) r.2.1 r.2.2 hpos hle hrows
    hfeeds (f1.trans hprompt) (by rw [hr, f4, f1]; exact hfed) (f2.trans hmax) (f3.trans hignore) (f5.trans hoffset)
    (by rw [hr, f6]; simp only [hslot₂, hcompletion])
  rw [hspan]
  dsimp only
  have hshift : o.slot.samplingOffset + o.slot.completion + s.samples.length =
      s.slot.samplingOffset + s.slot.completion := by
    rw [h.offset_eq, h.completion_eq, Nat.add_assoc]
  cases hfinish : r.2.2 with
  | none =>
    obtain ⟨hemit, hroom, hlast, hcont⟩ := hgo hfinish
    rw [← hr] at hemit
    have hall : consumedOf r = c.length := by rw [consumedOf, hfinish, hemit]; rfl
    have ht := htook (by rw [hall]; exact List.length_pos_iff.2 hne) (le_of_eq hall)
    rw [hfinish, hall, List.take_length] at ht
    rw [hall, List.take_length]
    refine Or.inl ⟨?_, ht.decoding, by rw [ht.completion]; have := List.length_pos_iff.2 hne; omega⟩
    have htext := ht.text
    have hsamples := ht.samples
    rw [List.take_length] at htext hsamples
    exact {
      toFollows := ht.follows
      finish := rfl
      fed_le := ht.fed_le
      mid := fun hmid => absurd (hmid.symm.trans ht.decoding) (by simp)
      anchor := fun _ => by
        rw [htext, List.getLast?_append_of_ne_nil _ hne]
        exact hlast hne
      kv := ht.kv
      room := hroom
      emitted := by
        rw [hsamples, List.map_append, stepped_tokens, ← h.emitted]
        simp only [SlotRun.record, hemit, List.take_length]
      plain := by
        rw [htext, hsamples, List.map_append, stepped_tokens]
        refine h.plain.trans ?_
        rw [List.length_map, hshift, ← hplain, ← hat]
        exact hcont }
  | some f =>
    obtain ⟨hp, hle, hpos⟩ := hstop f hfinish
    have ht := htook (hpos hne) hle
    rw [hfinish] at ht
    obtain ⟨h1, h2, h3, h4⟩ := h.plain
    rw [← hplain, hp] at h1 h2 h3 h4
    have hemit : r.2.1 ≤ consumedOf r := Nat.le_add_right _ _
    exact Or.inr {
      toFollows := ht.follows
      decoding := ht.decoding
      finished := rfl
      finish := h3.symm
      emitted := by
        rw [h1, ← h.emitted]
        simp only [SlotRun.record, List.take_take, Nat.min_eq_left hemit]
        rfl
      samples := by
        rw [ht.samples, h2, ← h.samples_eq, ← hat]
      completion := h4.symm }

end Commit

/-! ## Spans -/

/-- what a slot still has to do: prompt tokens to feed and output tokens to produce -/
def Glm52SlotState.left (slot : Glm52SlotState) : ℕ := slot.remainingPrompt + (slot.maxTokens - slot.completion)

theorem left_lt {s' : SlotRun} (h : Open oracle eos o s) (h' : Open oracle eos o s') (hmid : s'.slot.midPrefill = false)
    (hmore : s.slot.completion < s'.slot.completion) : s'.slot.left < s.slot.left := by
  have hmax := h'.max_eq.trans h.max_eq.symm
  have hroom := h'.room
  simp only [Glm52SlotState.midPrefill, decide_eq_false_iff_not, Nat.not_lt] at hmid
  simp only [Glm52SlotState.left, Glm52SlotState.remainingPrompt]
  omega

section Span

variable {rows : ℕ} {unsampled : ℕ → TokenId}

/-- a span inside the prompt -/
theorem span_prompt (h : Open oracle eos o s) (ho : o.Sound) (hmid : s.slot.midPrefill = true) (hpos : 0 < rows)
    (hle : rows ≤ s.slot.remainingPrompt) : ∃ s', s.span oracle eos rows unsampled = .ok s' ∧
      (Open oracle eos o s' ∧ s'.slot.left < s.slot.left ∨ Done oracle eos o s') := by
  have hfed : s.slot.fed < s.slot.prompt.length := by simpa [Glm52SlotState.midPrefill] using hmid
  have hwritten : s.slot.written = s.slot.fed := by simp [Glm52SlotState.written, hmid]
  have htext := h.text_mid ho hmid
  have hzero := h.mid hmid
  have hroom := h.room
  simp only [Glm52SlotState.remainingPrompt] at hle
  set tokens := (s.slot.prompt.drop s.slot.fed).take rows with htokens
  have hlen : tokens.length = rows := by
    rw [htokens, List.length_take, List.length_drop]
    omega
  have hinputs : (List.range rows).mapM s.slot.nextInputAt = .ok (rowsAt s.slot.written tokens) := by
    rw [hwritten]
    refine mapM_rowsAt (by rw [List.length_drop]; omega) fun k token hk => ?_
    rw [List.getElem?_drop] at hk
    simp only [Glm52SlotState.nextInputAt, hmid, if_true, hk]
  unfold SlotRun.span
  rw [hinputs]
  simp only [bind, Except.bind]
  rcases Nat.lt_or_ge (s.slot.fed + rows) s.slot.prompt.length with hinside | hend
  · have hmid' : ({ s.slot with fed := s.slot.fed + rows } : Glm52SlotState).midPrefill = true := by
      simpa [Glm52SlotState.midPrefill] using hinside
    simp only [Glm52SlotState.advanceSpan, hmid, if_true, outputs_length, hlen, hmid']
    refine ⟨_, rfl, Or.inl ⟨?_, ?_⟩⟩
    swap
    · simp only [SlotRun.record, Glm52SlotState.left, Glm52SlotState.remainingPrompt]
      omega
    have hwritten' : ({ s.slot with fed := s.slot.fed + rows } : Glm52SlotState).written = s.slot.fed + rows := by
      simp [Glm52SlotState.written, hmid']
    have hsplit : (s.text o).take (s.slot.fed + rows) = (s.text o).take s.slot.fed ++ tokens := by
      rw [htokens, htext, List.take_add]
    exact {
      prompt_eq := h.prompt_eq
      max_eq := h.max_eq
      ignore_eq := h.ignore_eq
      offset_eq := h.offset_eq
      completion_eq := h.completion_eq
      samples_eq := h.samples_eq
      start_le := by
        have := h.start_le
        simp only [SlotRun.record, hwritten']
        omega
      feeds := by
        have hlength : ((s.text o).take s.slot.fed).length = s.slot.fed := by rw [htext]; simp [le_of_lt hfed]
        have hstart : o.start ≤ s.slot.fed := hwritten ▸ h.start_le
        have hold := h.feeds
        rw [hwritten] at hold
        simp only [SlotRun.record, hwritten', hwritten]
        change s.feeds ++ _ = rowsAt o.start (((s.text o).take (s.slot.fed + rows)).drop o.start)
        rw [hsplit, List.drop_append_of_le_length (by rw [hlength]; exact hstart), rowsAt_append, List.length_drop, hlength,
          Nat.add_sub_cancel' hstart, hold]
      finish := h.finish
      fed_le := le_of_lt hinside
      mid := fun _ => hzero
      anchor := fun hno => absurd (hmid'.symm.trans hno) (by simp)
      kv := by
        simp only [SlotRun.record, hwritten', hwritten]
        change _ = (s.text o).take (s.slot.fed + rows)
        have hkv := h.kv
        rw [hwritten] at hkv
        have hrange := range_write (w := s.slot.fed) (n := rows) s.kv (le_of_eq hlen.symm)
        rw [hrange, hkv, hsplit, ← hlen, List.take_length]
      room := h.room
      emitted := h.emitted
      plain := h.plain }
  · have hexact : s.slot.fed + rows = s.slot.prompt.length := by omega
    have hdone : ({ s.slot with fed := s.slot.fed + rows } : Glm52SlotState).midPrefill = false := by
      simp [Glm52SlotState.midPrefill, hexact]
    have hall : tokens = s.slot.prompt.drop s.slot.fed := by
      rw [htokens, List.take_of_length_le (by rw [List.length_drop]; omega)]
    have hfull : rows = s.slot.remainingPrompt := by
      simp only [Glm52SlotState.remainingPrompt]
      omega
    have hsampling : s.slot.samplingRows rows = [(rows - 1, s.slot.samplingOffset + s.slot.completion)] := by
      rw [Glm52SlotState.samplingRows, if_pos hmid, if_pos hfull]
    have hlookup : (s.slot.samplingRows rows).lookup (rows - 1) = some (s.slot.samplingOffset + s.slot.completion) := by
      simp [hsampling]
    -- the row of the last prompt token sees the whole text
    have hlast : (outputs oracle (write s.kv (rowsAt s.slot.written tokens)) (rowsAt s.slot.written tokens)
        (s.slot.samplingRows rows) unsampled).getLast? =
          some (oracle (s.text o) (s.slot.samplingOffset + s.slot.completion)) := by
      rw [List.getLast?_eq_getElem?, outputs_length, hlen, outputs_getElem? (by omega) hlookup, h.kv,
        hwritten, Nat.sub_add_cancel hpos, ← hlen, List.take_length, htext, hall, List.take_append_drop]
    simp only [Glm52SlotState.advanceSpan, hmid, if_true, outputs_length, hlen, hdone, hlast]
    refine ⟨_, rfl, ?_⟩
    have hfeeds : FeedsText o s tokens [oracle (s.text o) (s.slot.samplingOffset + s.slot.completion)] := by
      intro n hn hle'
      obtain rfl : n = 1 := by
        simp only [List.length_singleton] at hle'
        omega
      simp only [committedRows, hmid, if_true, hwritten, hlen, hzero]
      refine ⟨le_refl _, by omega, ?_⟩
      rw [hexact, htext, List.take_append_of_le_length (le_refl _), List.take_length, ← hall, ← hlen, List.take_length]
    have hstream : Stream oracle (s.text o) (s.slot.samplingOffset + s.slot.completion)
        [oracle (s.text o) (s.slot.samplingOffset + s.slot.completion)] := ⟨rfl, trivial⟩
    have hkeep := @commit_keeps oracle eos o s { s.slot with fed := s.slot.fed + rows } _ tokens 1 rows h ho
      (by simp) (le_refl _) hstream (by simp only [List.length_singleton]; omega) hfeeds rfl hexact rfl rfl rfl rfl
    rw [hsampling]
    rcases hkeep with ⟨hopen, hnotmid, hmore⟩ | hfin
    · exact Or.inl ⟨hopen, left_lt h hopen hnotmid hmore⟩
    · exact Or.inr hfin

theorem drop_take_anchor (before : List TokenId) (anchor : TokenId) (after : List TokenId) (i : ℕ) :
    ((before ++ [anchor] ++ after).take (before.length + (i + 1))).drop before.length = anchor :: after.take i := by
  rw [List.append_assoc, List.take_length_add_append, List.drop_left]
  rfl

/-- a verify span: the anchor and a prefix of the drafts -/
theorem span_verify (h : Open oracle eos o s) (ho : o.Sound) (hmid : s.slot.midPrefill = false) (hpos : 0 < rows)
    (hle : rows ≤ s.slot.feedWant) : ∃ s', s.span oracle eos rows unsampled = .ok s' ∧
      (Open oracle eos o s' ∧ s'.slot.left < s.slot.left ∨ Done oracle eos o s') := by
  have hfed : s.slot.fed = s.slot.prompt.length := by
    have := h.fed_le
    simp only [Glm52SlotState.midPrefill, decide_eq_false_iff_not, Nat.not_lt] at hmid
    omega
  have htotal := h.text_length ho
  have htextpos := h.text_pos ho
  have hwritten : s.slot.written = (s.text o).length - 1 := by
    rw [htotal, Glm52SlotState.written, hmid]
    rfl
  simp only [Glm52SlotState.feedWant, hmid, Bool.false_eq_true, if_false] at hle
  have hdrafts : rows ≤ s.slot.drafts.length + 1 := by omega
  -- the text ends in the anchor
  have htext : (s.text o).take s.slot.written ++ [s.slot.lastToken] = s.text o := by
    rw [hwritten, ← List.dropLast_eq_take]
    exact List.dropLast_append_getLast? _ (h.anchor hmid)
  set tokens := (s.slot.lastToken :: s.slot.drafts).take rows with htokens
  have hlen : tokens.length = rows := by
    rw [htokens, List.length_take, List.length_cons]
    omega
  have htake : ∀ k < rows, tokens.take (k + 1) = s.slot.lastToken :: s.slot.drafts.take k := by
    intro k hk
    rw [htokens, List.take_take, Nat.min_eq_left hk, List.take_succ_cons]
  have hinputs : (List.range rows).mapM s.slot.nextInputAt = .ok (rowsAt s.slot.written tokens) := by
    refine mapM_rowsAt (by simpa using hdrafts) fun k token hk => ?_
    simp only [Glm52SlotState.nextInputAt, hmid, Bool.false_eq_true, if_false, Glm52SlotState.written]
    cases k with
    | zero =>
      simp only [List.getElem?_cons_zero, Option.some.injEq] at hk
      simp [hk]
    | succ k =>
      simp only [List.getElem?_cons_succ] at hk
      simp [hk]
  set out := outputs oracle (write s.kv (rowsAt s.slot.written tokens)) (rowsAt s.slot.written tokens)
    (s.slot.samplingRows rows) unsampled with hout
  have houtlen : out.length = rows := by rw [hout, outputs_length, hlen]
  -- row `k` samples after the text and `k` drafts
  have hrow : ∀ k < rows, out[k]? =
      some (oracle (s.text o ++ s.slot.drafts.take k) (s.slot.samplingOffset + s.slot.completion + k)) := by
    intro k hk
    have hlookup : (s.slot.samplingRows rows).lookup k = some (s.slot.samplingOffset + s.slot.completion + k) := by
      rw [Glm52SlotState.samplingRows, hmid]
      exact lookup_range rows k _ hk
    rw [hout, outputs_getElem? (by omega) hlookup, h.kv, htake k hk, List.append_cons, htext]
  obtain ⟨n, hn, haccept, hmatch⟩ := @acceptPrefixMatch_spec (s.slot.drafts.take (rows - 1)) out (by
    rw [houtlen, List.length_take]
    omega)
  rw [List.length_take] at hn
  have hnrows : n < rows := by omega
  -- the drafts before the last committed token are what the target gave
  have hsame : ∀ k ≤ n, s.slot.drafts.take k = out.take k := by
    intro k hk
    have := congrArg (List.take k) hmatch
    rwa [List.take_take, List.take_take, List.take_take, Nat.min_eq_left hk, Nat.min_eq_left (by omega : k ≤ rows - 1)] at this
  have hclen : (out.take (n + 1)).length = n + 1 := by rw [List.length_take, houtlen]; omega
  have hstream : Stream oracle (s.text o) (s.slot.samplingOffset + s.slot.completion) (out.take (n + 1)) := by
    refine stream_of_getElem fun k token hk => ?_
    have hkn : k < n + 1 := by
      have := (List.getElem?_eq_some_iff.1 hk).1
      omega
    rw [List.getElem?_take, if_pos hkn, hrow k (by omega), Option.some.injEq] at hk
    rw [← hk, List.take_take, Nat.min_eq_left (le_of_lt hkn), hsame k (by omega)]
  have hfeeds : FeedsText o s tokens (out.take (n + 1)) := by
    intro j hj hjle
    rw [hclen] at hjle
    simp only [committedRows, hmid, Bool.false_eq_true, if_false]
    obtain ⟨i, rfl⟩ : ∃ i, j = i + 1 := ⟨j - 1, by omega⟩
    refine ⟨by omega, by rw [hwritten]; omega, ?_⟩
    have hw : ((s.text o).take s.slot.written).length = s.slot.written := by
      rw [List.length_take, hwritten]
      omega
    have hanchor := drop_take_anchor ((s.text o).take s.slot.written) s.slot.lastToken (out.take (i + 1)) i
    rw [hw, htext] at hanchor
    rw [htake i (by omega), List.take_take, Nat.min_eq_left hjle, hanchor, List.take_take, Nat.min_eq_left (Nat.le_succ i),
      hsame i (by omega)]
  unfold SlotRun.span
  rw [hinputs]
  simp only [bind, Except.bind, ← hout]
  rw [Glm52SlotState.advanceSpan, hmid]
  simp only [Bool.false_eq_true, if_false, houtlen]
  rw [if_neg (by omega), haccept]
  refine ⟨_, rfl, ?_⟩
  have hsteps : (s.slot.samplingRows rows).map (·.2) = List.range' (s.slot.samplingOffset + s.slot.completion) rows := by
    rw [Glm52SlotState.samplingRows, hmid, List.range'_eq_map_range]
    simp
  have hslot : ∀ slot : Glm52SlotState,
      slot = (if rows - 1 > 0 then { s.slot with spec := s.slot.spec.record ((out.take (n + 1)).length - 1) } else s.slot) →
      slot.prompt = s.slot.prompt ∧ slot.fed = s.slot.fed ∧ slot.maxTokens = s.slot.maxTokens ∧
        slot.ignoreEos = s.slot.ignoreEos ∧ slot.samplingOffset = s.slot.samplingOffset ∧
        slot.completion = s.slot.completion := by
    intro slot heq
    rw [heq]
    split_ifs <;> exact ⟨rfl, rfl, rfl, rfl, rfl, rfl⟩
  obtain ⟨h1, h2, h3, h4, h5, h6⟩ := hslot _ rfl
  rw [hsteps]
  rcases @commit_keeps oracle eos o s _ (out.take (n + 1)) tokens rows (out.take (n + 1)).length h ho
    (by rw [← List.length_pos_iff, hclen]; omega) (by omega) hstream (by omega) hfeeds h1
    (by rw [h1, h2, hfed]) h3 h4 h5 h6 with ⟨hopen, hnotmid, hmore⟩ | hfin
  · exact Or.inl ⟨hopen, left_lt h hopen hnotmid hmore⟩
  · exact Or.inr hfin

end Span

/-! ## Runs -/

/-- the granted spans of a run -/
def spans (ops : List SlotOp) : ℕ :=
  ops.countP fun
    | .span _ _ => true
    | _ => false

/-- a new proposal changes nothing the invariant reads -/
theorem setDrafts_keeps {drafts : List TokenId} {spanDrafts : ℕ} :
    (Open oracle eos o s → Open oracle eos o { s with slot := s.slot.setDrafts drafts spanDrafts }) ∧
    (Done oracle eos o s → Done oracle eos o { s with slot := s.slot.setDrafts drafts spanDrafts }) := by
  constructor
  · intro h
    exact { h with plain := h.plain, mid := h.mid, anchor := h.anchor, kv := h.kv, feeds := h.feeds, start_le := h.start_le }
  · intro h
    exact { h with decoding := h.decoding, feeds := h.feeds, start_le := h.start_le }

/-- **Step.** A granted event does not fail; a span of an open request leaves it with less to do, or finished. -/
theorem step_keeps (ho : o.Sound) {op : SlotOp} (hgranted : s.Granted op) :
    (Open oracle eos o s → ∃ s', SlotRun.step oracle eos s op = .ok s' ∧
      (Open oracle eos o s' ∧ s'.slot.left + spans [op] ≤ s.slot.left ∨ Done oracle eos o s')) ∧
    (Done oracle eos o s → ∃ s', SlotRun.step oracle eos s op = .ok s' ∧ Done oracle eos o s') := by
  cases op with
  | setDrafts drafts spanDrafts =>
    exact ⟨fun h => ⟨_, rfl, Or.inl ⟨setDrafts_keeps.1 h, le_refl _⟩⟩, fun h => ⟨_, rfl, setDrafts_keeps.2 h⟩⟩
  | span rows unsampled =>
    constructor
    · intro h
      obtain ⟨hpos, hle⟩ := hgranted h.finish
      simp only [SlotRun.step, h.finish, Option.isSome_none, Bool.false_eq_true, if_false]
      have hone : spans [.span rows unsampled] = 1 := rfl
      have hkeep : ∃ s', s.span oracle eos rows unsampled = .ok s' ∧
          (Open oracle eos o s' ∧ s'.slot.left < s.slot.left ∨ Done oracle eos o s') := by
        cases hmid : s.slot.midPrefill with
        | true => exact span_prompt h ho hmid hpos (by simpa [Glm52SlotState.feedWant, hmid] using hle)
        | false => exact span_verify h ho hmid hpos hle
      obtain ⟨s', hok, hnext⟩ := hkeep
      rw [hone]
      exact ⟨s', hok, hnext⟩
    · intro h
      simp only [SlotRun.step, h.finished, if_true]
      exact ⟨s, rfl, h⟩

theorem run_keeps (ho : o.Sound) (ops : List SlotOp) : ∀ {s : SlotRun},
    StepsMeet (SlotRun.step oracle eos) SlotRun.Granted s ops →
    (Open oracle eos o s → ∃ s', run (SlotRun.step oracle eos) s ops = .ok s' ∧
      (Open oracle eos o s' ∧ s'.slot.left + spans ops ≤ s.slot.left ∨ Done oracle eos o s')) ∧
    (Done oracle eos o s → ∃ s', run (SlotRun.step oracle eos) s ops = .ok s' ∧ Done oracle eos o s') := by
  induction ops with
  | nil => exact fun _ => ⟨fun h => ⟨_, rfl, Or.inl ⟨h, le_refl _⟩⟩, fun h => ⟨_, rfl, h⟩⟩
  | cons op ops ih =>
    intro s hgranted
    obtain ⟨hopen, hdone⟩ := @step_keeps oracle eos o s ho op hgranted.1
    have hcount : spans (op :: ops) = spans [op] + spans ops := by
      simp only [spans, List.countP_cons, List.countP_nil]
      omega
    constructor
    · intro h
      obtain ⟨m, hm, ⟨hm', hleft⟩ | hm'⟩ := hopen h
      · obtain ⟨s', hs', hnext⟩ := (ih (hgranted.2 m hm)).1 hm'
        refine ⟨s', (run_cons_ok _ _ _ _).2 ⟨m, hm, hs'⟩, hnext.imp_left fun ⟨h1, h2⟩ => ⟨h1, ?_⟩⟩
        omega
      · obtain ⟨s', hs', hnext⟩ := (ih (hgranted.2 m hm)).2 hm'
        exact ⟨s', (run_cons_ok _ _ _ _).2 ⟨m, hm, hs'⟩, Or.inr hnext⟩
    · intro h
      obtain ⟨m, hm, hm'⟩ := hdone h
      obtain ⟨s', hs', hnext⟩ := (ih (hgranted.2 m hm)).2 hm'
      exact ⟨s', (run_cons_ok _ _ _ _).2 ⟨m, hm, hs'⟩, hnext⟩

/-! ## Origins -/

/-- how a slot is made: fresh, or resumed at an anchor a prefill peer sampled -/
inductive Seed
  | fresh
  | nativePdAnchor
  | nativePdReplayedAnchor
deriving DecidableEq, Repr

namespace Seed

def slot (seed : Seed) (prompt : List TokenId) (maxTokens : ℕ) (ignoreEos : Bool) (cached : ℕ) : Glm52SlotState :=
  match seed with
  | .fresh => .new prompt maxTokens ignoreEos cached
  | .nativePdAnchor => (Glm52SlotState.new prompt maxTokens ignoreEos cached).seedNativePdAnchor
  | .nativePdReplayedAnchor => (Glm52SlotState.new prompt maxTokens ignoreEos cached).seedNativePdReplayedAnchor

/-- what the callers ensure: some prompt is uncached, a resumed slot lacks only its anchor, and budget is left -/
def Admits (seed : Seed) (prompt : List TokenId) (maxTokens cached : ℕ) : Prop :=
  match seed with
  | .fresh => cached < prompt.length ∧ 1 ≤ maxTokens
  | .nativePdAnchor => cached + 1 = prompt.length ∧ 1 ≤ maxTokens
  | .nativePdReplayedAnchor => cached + 1 = prompt.length ∧ 1 < maxTokens

instance (seed : Seed) (prompt : List TokenId) (maxTokens cached : ℕ) : Decidable (seed.Admits prompt maxTokens cached) := by
  unfold Admits
  split <;> infer_instance

end Seed

/-- a request that has done nothing -/
theorem start_open {slot : Glm52SlotState} {base : List TokenId} {start : ℕ} {kv : ℕ → TokenId}
    (hwritten : slot.written = start) (hkv : (List.range start).map kv = base.take start)
    (hfed : slot.fed ≤ slot.prompt.length) (hmid : slot.midPrefill = true → slot.completion = 0)
    (hanchor : slot.midPrefill = false → base.getLast? = some slot.lastToken) (hroom : slot.completion < slot.maxTokens) :
    Open oracle eos ⟨slot, base, start⟩ (SlotRun.start slot kv) := by
  have htext : (SlotRun.start slot kv).text ⟨slot, base, start⟩ = base := by simp [SlotRun.text, SlotRun.start]
  exact {
    prompt_eq := rfl
    max_eq := rfl
    ignore_eq := rfl
    offset_eq := rfl
    completion_eq := rfl
    samples_eq := rfl
    start_le := le_of_eq hwritten.symm
    feeds := by
      rw [htext]
      simp [SlotRun.start, hwritten, rowsAt]
    finish := rfl
    fed_le := hfed
    mid := hmid
    anchor := by rw [htext]; exact hanchor
    kv := by
      rw [htext]
      simpa only [SlotRun.start, hwritten] using hkv
    room := hroom
    emitted := rfl
    plain := by
      rw [htext]
      exact ⟨rfl, rfl, rfl, rfl⟩ }

theorem getLast?_of_length {prompt : List TokenId} {cached : ℕ} (h : cached + 1 = prompt.length) :
    prompt.getLast? = some (prompt.getLastD 0) := by
  have hne : prompt ≠ [] := by
    rintro rfl
    cases h
  rw [List.getLast?_eq_some_getLast hne, List.getLastD_eq_getLast?, List.getLast?_eq_some_getLast hne]
  rfl

theorem seed_open (oracle : Oracle) (eos : List TokenId) {seed : Seed} {prompt : List TokenId} {maxTokens cached : ℕ}
    {kv : ℕ → TokenId} (hseed : seed.Admits prompt maxTokens cached)
    (hkv : (List.range cached).map kv = prompt.take cached) (ignoreEos : Bool) :
    let origin : Origin := ⟨seed.slot prompt maxTokens ignoreEos cached, prompt, cached⟩
    origin.Sound ∧ Open oracle eos origin (SlotRun.start (seed.slot prompt maxTokens ignoreEos cached) kv) ∧
      (seed.slot prompt maxTokens ignoreEos cached).left ≤ prompt.length - cached + maxTokens := by
  have hpos : prompt ≠ [] := by
    rintro rfl
    cases seed <;> simp [Seed.Admits] at hseed
  cases seed with
  | fresh =>
    obtain ⟨hcached, hmax⟩ := hseed
    have hmid : (Glm52SlotState.new prompt maxTokens ignoreEos cached).midPrefill = true := by
      exact decide_eq_true hcached
    refine ⟨⟨rfl, List.prefix_refl _, hpos⟩, start_open ?_ hkv (le_of_lt hcached) (fun _ => rfl) (fun hno => ?_) hmax,
      le_refl _⟩
    · simp only [Seed.slot, Glm52SlotState.written, hmid, if_true]
      rfl
    · exact absurd (hmid.symm.trans hno) (by simp)
  | nativePdAnchor =>
    obtain ⟨hcached, hmax⟩ := hseed
    have hmid : (Glm52SlotState.new prompt maxTokens ignoreEos cached).seedNativePdAnchor.midPrefill = false := by
      simp [Glm52SlotState.midPrefill, Glm52SlotState.seedNativePdAnchor]
    refine ⟨⟨rfl, List.prefix_refl _, hpos⟩, start_open ?_ hkv (le_refl _) (fun _ => rfl)
      (fun _ => getLast?_of_length hcached) hmax, ?_⟩
    · simp only [Seed.slot, Glm52SlotState.written, hmid]
      simp only [Glm52SlotState.seedNativePdAnchor, Glm52SlotState.new, Bool.false_eq_true, if_false]
      omega
    · simp only [Seed.slot, Glm52SlotState.left, Glm52SlotState.remainingPrompt, Glm52SlotState.seedNativePdAnchor,
        Glm52SlotState.new]
      omega
  | nativePdReplayedAnchor =>
    obtain ⟨hcached, hmax⟩ := hseed
    have hmid : (Glm52SlotState.new prompt maxTokens ignoreEos cached).seedNativePdReplayedAnchor.midPrefill = false := by
      simp only [Glm52SlotState.midPrefill, Glm52SlotState.seedNativePdReplayedAnchor, Glm52SlotState.new,
        List.length_dropLast, decide_eq_false_iff_not]
      omega
    refine ⟨⟨?_, List.dropLast_prefix _, hpos⟩, start_open ?_ hkv ?_ (fun hyes => ?_)
      (fun _ => getLast?_of_length hcached) hmax, ?_⟩
    · simp only [Seed.slot, Glm52SlotState.seedNativePdReplayedAnchor, Glm52SlotState.new, List.length_dropLast]
      omega
    · simp only [Seed.slot, Glm52SlotState.written, hmid]
      simp only [Glm52SlotState.seedNativePdReplayedAnchor, Glm52SlotState.new, List.length_dropLast, Bool.false_eq_true,
        if_false]
      omega
    · simp only [Seed.slot, Glm52SlotState.seedNativePdReplayedAnchor, Glm52SlotState.new, List.length_dropLast]
      omega
    · exact absurd (hyes.symm.trans hmid) (by simp)
    · simp only [Seed.slot, Glm52SlotState.left, Glm52SlotState.remainingPrompt,
        Glm52SlotState.seedNativePdReplayedAnchor, Glm52SlotState.new, List.length_dropLast]
      omega

/-- the feeds of a run stand at consecutive positions and carry the text -/
theorem Follows.fed (h : Follows o s) (hle : s.slot.written ≤ (s.text o).length) :
    o.start + s.feeds.length = s.slot.written ∧ s.feeds.map (·.position) = List.range' o.start s.feeds.length ∧
      ∀ input ∈ s.feeds, (s.text o)[input.position]? = some input.token := by
  have hstart := h.start_le
  have hlength : s.feeds.length = s.slot.written - o.start := by
    rw [h.feeds, rowsAt_length, List.length_drop, List.length_take, Nat.min_eq_left hle]
  refine ⟨by omega, ?_, ?_⟩
  · rw [h.feeds, rowsAt_positions, rowsAt_length]
  · intro input hin
    rw [h.feeds] at hin
    obtain ⟨k, hk⟩ := List.mem_iff_getElem?.1 hin
    rw [rowsAt_getElem?, List.getElem?_drop, List.getElem?_take, Option.map_eq_some_iff] at hk
    obtain ⟨token, htoken, rfl⟩ := hk
    split_ifs at htoken
    exact htoken

/-- **Losslessness.** Whatever is drafted and granted, a request emits, samples and feeds what plain decode does: a
prefix of it until it finishes, all of it when it has, which it does within a prompt's and a budget's worth of spans. -/
theorem slot_lossless (oracle : Oracle) (eos : List TokenId) (seed : Seed) (prompt : List TokenId) (maxTokens : ℕ)
    (ignoreEos : Bool) (cached : ℕ) (kv : ℕ → TokenId) (ops : List SlotOp)
    (hseed : seed.Admits prompt maxTokens cached) (hkv : (List.range cached).map kv = prompt.take cached)
    (hgranted : StepsMeet (SlotRun.step oracle eos) SlotRun.Granted
      (SlotRun.start (seed.slot prompt maxTokens ignoreEos cached) kv) ops) :
    let slot := seed.slot prompt maxTokens ignoreEos cached
    let plain := plainDecode oracle eos ignoreEos slot.samplingOffset (maxTokens - slot.completion) prompt slot.completion
    ∃ s, run (SlotRun.step oracle eos) (SlotRun.start slot kv) ops = .ok s ∧
      (s.finish = none → s.emitted <+: plain.tokens ∧ s.samples <+: plain.samples) ∧
      (s.finish ≠ none → s.emitted = plain.tokens ∧ s.samples = plain.samples ∧ s.finish = plain.finish ∧
        s.slot.completion = plain.completion ∧ cached + s.feeds.length = prompt.length + s.samples.length - 1) ∧
      s.slot.completion = slot.completion + s.samples.length ∧
      s.samples.map (·.1) = List.range' (slot.samplingOffset + slot.completion) s.samples.length ∧
      s.feeds.map (·.position) = List.range' cached s.feeds.length ∧
      (∀ input ∈ s.feeds, (prompt ++ s.samples.map (·.2))[input.position]? = some input.token) ∧
      (prompt.length - cached + maxTokens ≤ spans ops → s.finish ≠ none) := by
  intro slot plain
  obtain ⟨ho, hopen, hleft⟩ := seed_open oracle eos hseed hkv ignoreEos
  have hplain : slot.plain oracle eos prompt = plain := by
    simp only [slot, plain, Glm52SlotState.plain]
    cases seed <;> rfl
  obtain ⟨s, hrun, hend⟩ := (run_keeps ho ops hgranted).1 hopen
  refine ⟨s, hrun, ?_⟩
  rcases hend with ⟨h, hspent⟩ | h
  · obtain ⟨-, hpositions, htokens⟩ := h.fed (h.written_le ho)
    obtain ⟨h1, h2, -, -⟩ := h.plain
    refine ⟨fun _ => ?_, fun hne => absurd h.finish hne, h.completion_eq, ?_, hpositions, htokens, fun hmany => ?_⟩
    · rw [hplain] at h1 h2
      rw [h1, h2, h.emitted, ← h.samples_eq]
      exact ⟨List.prefix_append _ _, List.prefix_append _ _⟩
    · conv_lhs => rw [h.samples_eq]
      rw [stepped_steps, List.length_map]
    · have hroom := h.room
      simp only [Glm52SlotState.left] at hspent
      simp only [SlotRun.start, Glm52SlotState.left] at hspent hleft
      omega
  · have hwritten : s.slot.written = (s.text ⟨slot, prompt, cached⟩).length - 1 := by
      rw [h.text_length ho, Glm52SlotState.written, h.decoding]
      rfl
    obtain ⟨hfed, hpositions, htokens⟩ := h.fed (by rw [hwritten]; exact Nat.sub_le _ _)
    refine ⟨fun hnone => ?_, fun _ => ?_, h.completion_eq, ?_, hpositions, htokens, fun _ => ?_⟩
    · have := h.finished
      simp [hnone] at this
    · refine ⟨hplain ▸ h.emitted, hplain ▸ h.samples, hplain ▸ h.finish, hplain ▸ h.completion, ?_⟩
      rw [hwritten, SlotRun.text, List.length_append, List.length_map] at hfed
      exact hfed
    · conv_lhs => rw [h.samples_eq]
      rw [stepped_steps, List.length_map]
    · have := h.finished
      intro hnone
      simp [hnone] at this

/-- a target that counts, and reaches the end token at its third sample -/
def countingOracle : Oracle := fun context step => context.length + step

/-- two prompt spans, a proposal with a right draft and a wrong one, and spans left over -/
def countingOps : List SlotOp :=
  [.span 1 fun _ => 99, .span 1 fun _ => 99, .setDrafts [5, 9, 1] 2, .span 3 fun _ => 99] ++
    List.replicate 3 (.span 1 fun _ => 99)

theorem slot_lossless_counting :
    ∃ s, run (SlotRun.step countingOracle [7]) (SlotRun.start (.new [10, 11, 12] 4 false 1) fun _ => 10) countingOps = .ok s ∧
      s.emitted = [3, 5] ∧ s.finish = some .stop ∧ s.slot.completion = 3 := by
  obtain ⟨s, hrun, -, hdone, -, -, -, -, hfinish⟩ := slot_lossless countingOracle [7] .fresh [10, 11, 12] 4 false 1
    (fun _ => 10) countingOps (by decide) (by decide) (by decide)
  obtain ⟨hemitted, -, hreason, hcompletion, -⟩ := hdone (hfinish (by decide))
  exact ⟨s, hrun, hemitted, hreason, hcompletion⟩

end Pegainfer.Glm52
