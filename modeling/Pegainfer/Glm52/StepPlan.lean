/-
GLM5.2 step planning: how many rows each slot gets, where they lie in the step, and which of them are sampled.

A slot wants `wants[slot]` rows. The planner hands out a row budget round robin, picks the smallest decode bucket that
covers the demand, and writes one run of rows per slot. The sampling walk reads the runs back.
- `planPrefillSpans_planned`: spans are bounded, total, live and fair.
- `planStepShape_laidOut`: the layout is one run per slot, in the smallest covering bucket.
- `collectSamplingRows_exact`: the rows listed are the committable rows of the slots that are not greedy, ascending.
-/
import Mathlib.Tactic
import Pegainfer.Glm52.Slot
import Pegainfer.Lib.Ladder
import Pegainfer.Lib.Levels

namespace Pegainfer.Glm52

open Pegainfer.Lib

/-! ## Model -/

def glm52MaxBatchPerRank : ℕ := 32

def glm52MaxStepRows : ℕ := 96

def glm52DecodeBuckets : List ℕ := [1, 2, 4, 8, 16, 32, 48, 64, glm52MaxStepRows]

/-- every wanting slot gets one row while the budget lasts: the spans, and the rows used -/
def firstRows (maxRows : ℕ) : List ℕ → ℕ → List ℕ × ℕ
  | [], used => ([], used)
  | want :: wants, used =>
    if 0 < want ∧ used < maxRows then
      let rest := firstRows maxRows wants (used + 1)
      (1 :: rest.1, rest.2)
    else
      let rest := firstRows maxRows wants used
      (0 :: rest.1, rest.2)

/-- one pass over the hungry slots: the spans, the rows used, and whether any slot advanced -/
def extendPass (maxRows : ℕ) : List ℕ → List ℕ → ℕ → List ℕ × ℕ × Bool
  | want :: wants, span :: spans, used =>
    if used = maxRows then (span :: spans, used, false)
    else if 0 < span ∧ span < want then
      let rest := extendPass maxRows wants spans (used + 1)
      ((span + 1) :: rest.1, rest.2.1, true)
    else
      let rest := extendPass maxRows wants spans used
      (span :: rest.1, rest.2.1, rest.2.2)
  | _, spans, used => (spans, used, false)

theorem extendPass_le (maxRows : ℕ) (wants spans : List ℕ) (used : ℕ) :
    used ≤ (extendPass maxRows wants spans used).2.1 := by
  fun_induction extendPass maxRows wants spans used with
  | case1 => exact le_refl _
  | case2 want wants span spans used hfull hungry rest ih => exact (Nat.le_succ used).trans ih
  | case3 want wants span spans used hfull hsated rest ih => exact ih
  | case4 => exact le_refl _

theorem extendPass_advances (maxRows : ℕ) (wants spans : List ℕ) (used : ℕ)
    (h : (extendPass maxRows wants spans used).2.2 = true) : used < (extendPass maxRows wants spans used).2.1 := by
  fun_induction extendPass maxRows wants spans used with
  | case1 => cases h
  | case2 want wants span spans used hfull hungry rest ih => exact extendPass_le maxRows wants spans (used + 1)
  | case3 want wants span spans used hfull hsated rest ih => exact ih h
  | case4 => cases h

/-- passes until the budget is used or nobody is hungry -/
def extendRounds (wants : List ℕ) (maxRows : ℕ) (spans : List ℕ) (used : ℕ) : List ℕ :=
  if hroom : used < maxRows then
    let pass := extendPass maxRows wants spans used
    if hadvanced : pass.2.2 = true then extendRounds wants maxRows pass.1 pass.2.1 else pass.1
  else spans
termination_by maxRows - used
decreasing_by
  have := extendPass_advances maxRows wants spans used hadvanced
  omega

/-- split a launch's row budget across the active slots -/
def planPrefillSpans (wants : List ℕ) (maxRows : ℕ) : Except String (List ℕ) :=
  if maxRows = 0 then .error "prefill row budget must be positive"
  else
    let first := firstRows maxRows wants 0
    .ok (extendRounds wants maxRows first.1 first.2)

structure Glm52StepShape where
  bucket : ℕ
  /-- the slot each row addresses; a slot number fits the source's byte -/
  slots : List ℕ
  activeRows : ℕ
deriving DecidableEq, Repr

/-- write `span` rows of a slot from `dst` on -/
def layRun (slot : ℕ) : ℕ → List ℕ → ℕ → Except String (List ℕ × ℕ)
  | 0, slots, dst => .ok (slots, dst)
  | span + 1, slots, dst =>
    if dst < slots.length then layRun slot span (slots.set dst slot) (dst + 1) else .error "index out of bounds"

/-- the runs of the slots from `slot` on -/
def layRuns (slot : ℕ) : List ℕ → List ℕ → ℕ → Except String (List ℕ × ℕ)
  | [], slots, dst => .ok (slots, dst)
  | span :: spans, slots, dst => do
    let laid ← layRun slot span slots dst
    layRuns (slot + 1) spans laid.1 laid.2

/-- the rank's row demand; the sum is a machine word -/
def demand (wants : List ℕ) : ℕ := min (wants.sum % 2 ^ 64) glm52MaxStepRows

def planStepShape (wants : List ℕ) : Except String Glm52StepShape :=
  match glm52DecodeBuckets.find? fun rows => decide (rows ≥ max (demand wants) 1) with
  | none => .error "the largest bucket covers every demand by construction"
  | some bucket => do
    let spans ← planPrefillSpans wants bucket
    let laid ← layRuns 0 spans (List.replicate glm52MaxStepRows 0) 0
    .ok ⟨bucket, laid.1, laid.2⟩

/-- what the planner reads of an active request; `P` are its sampling parameters -/
structure RankRequest (P : Type) where
  params : P
  state : Glm52SlotState

structure Glm52RowSample (P : Type) where
  row : ℕ
  params : P
  step : ℕ
deriving DecidableEq, Repr

section Sampling

variable {P : Type} (takesArgmax : P → Bool)

/-- the samples of one run of `span` rows of a slot, from `row` on -/
def runSamples (request : Option (RankRequest P)) (row span : ℕ) : List (Glm52RowSample P) :=
  match request with
  | none => []
  | some active =>
    if takesArgmax active.params then []
    else (active.state.samplingRows span).map fun r => ⟨row + r.1, active.params, r.2⟩

/-- walk the runs of the active rows that are left, the first of them row `row` -/
def walkRuns (rankSlots : List (Option (RankRequest P))) (row : ℕ) :
    List ℕ → Except String (List (Glm52RowSample P))
  | [] => .ok []
  | slot :: rest =>
    let run := rest.takeWhile (· == slot)
    match rankSlots[slot]? with
    | none => .error "index out of bounds"
    | some request => do
      let samples ← walkRuns rankSlots (row + (run.length + 1)) (rest.drop run.length)
      .ok (runSamples takesArgmax request row (run.length + 1) ++ samples)
termination_by rows => rows.length
decreasing_by
  simp only [List.length_drop, List.length_cons]
  omega

def collectSamplingRows (shape : Glm52StepShape) (rankSlots : List (Option (RankRequest P))) :
    Except String (List (Glm52RowSample P)) :=
  walkRuns takesArgmax rankSlots 0 (shape.slots.take shape.activeRows)

end Sampling

/-! ## Spans -/

variable {wants spans : List ℕ} {maxRows used k m : ℕ}

/-- a budget that is used up gives nobody a first row -/
theorem firstRows_full (wants : List ℕ) : firstRows maxRows wants maxRows = (level wants 0 0, maxRows) := by
  induction wants with
  | nil => rfl
  | cons want wants ih =>
    rw [firstRows, if_neg (fun h => absurd h.2 (lt_irrefl _)), ih, level_cons_zero, Nat.zero_min]

/-- how far a round has got: to row `m` of level `k`, with the budget used up or all rows visited -/
structure Reached (wants : List ℕ) (maxRows used k m : ℕ) (spans : List ℕ) (used' : ℕ) : Prop where
  spans_eq : spans = level wants k m
  room : used' ≤ maxRows
  stopped : used' = maxRows ∨ wants.length ≤ m

theorem firstRows_reached (wants : List ℕ) : ∀ used ≤ maxRows, ∃ m,
    Reached wants maxRows used 0 m (firstRows maxRows wants used).1 (firstRows maxRows wants used).2 ∧
      (firstRows maxRows wants used).2 = used + (firstRows maxRows wants used).1.sum := by
  induction wants with
  | nil => exact fun used hle => ⟨0, ⟨rfl, hle, Or.inr (le_refl _)⟩, (Nat.add_zero _).symm⟩
  | cons want wants ih =>
    intro used hle
    rcases hle.lt_or_eq with hlt | rfl
    · rcases Nat.eq_zero_or_pos want with rfl | hpos
      · obtain ⟨m, h, hused⟩ := ih used hle
        rw [firstRows, if_neg (fun hc => absurd hc.1 (lt_irrefl 0))]
        refine ⟨m + 1, ⟨?_, h.room, h.stopped.imp_right Nat.succ_le_succ⟩, ?_⟩
        · rw [level_cons_succ, ← h.spans_eq, Nat.min_zero]
        · rw [List.sum_cons, Nat.zero_add]
          exact hused
      · obtain ⟨m, h, hused⟩ := ih (used + 1) hlt
        rw [firstRows, if_pos ⟨hpos, hlt⟩]
        refine ⟨m + 1, ⟨?_, h.room, h.stopped.imp_right Nat.succ_le_succ⟩, ?_⟩
        · rw [level_cons_succ, ← h.spans_eq, Nat.min_eq_left hpos]
        · simp only [List.sum_cons]
          omega
    · rw [firstRows_full]
      refine ⟨0, ⟨rfl, le_refl _, Or.inl rfl⟩, ?_⟩
      rw [sum_level_zero]
      simp

/-- a pass at level `k` takes the rows one level up, as far as the budget goes -/
theorem extendPass_reached (hk : 0 < k) (wants : List ℕ) : ∀ used ≤ maxRows, ∃ m,
    Reached wants maxRows used k m (extendPass maxRows wants (wants.map (min k)) used).1
        (extendPass maxRows wants (wants.map (min k)) used).2.1 ∧
      (extendPass maxRows wants (wants.map (min k)) used).2.1 + (wants.map (min k)).sum =
        used + (extendPass maxRows wants (wants.map (min k)) used).1.sum ∧
      ((extendPass maxRows wants (wants.map (min k)) used).2.2 = false → used < maxRows → ∀ want ∈ wants, want ≤ k) := by
  induction wants with
  | nil => exact fun used hle => ⟨0, ⟨rfl, hle, Or.inr (le_refl _)⟩, rfl, fun _ _ _ h => absurd h List.not_mem_nil⟩
  | cons want wants ih =>
    intro used hle
    rw [List.map_cons, extendPass]
    rcases hle.lt_or_eq with hlt | rfl
    · rw [if_neg hlt.ne]
      rcases Nat.lt_or_ge k want with hhungry | hsated
      · obtain ⟨m, h, hused, -⟩ := ih (used + 1) hlt
        rw [Nat.min_eq_left hhungry.le, if_pos ⟨hk, hhungry⟩]
        refine ⟨m + 1, ⟨?_, h.room, h.stopped.imp_right Nat.succ_le_succ⟩, ?_, fun hno => by cases hno⟩
        · rw [level_cons_succ, ← h.spans_eq, Nat.min_eq_left hhungry]
        · simp only [List.sum_cons]
          omega
      · obtain ⟨m, h, hused, hnone⟩ := ih used hle
        rw [Nat.min_eq_right hsated, if_neg (fun hc => absurd hc.2 (lt_irrefl _))]
        refine ⟨m + 1, ⟨?_, h.room, h.stopped.imp_right Nat.succ_le_succ⟩, ?_, fun hno hroom w hw => ?_⟩
        · rw [level_cons_succ, ← h.spans_eq, Nat.min_eq_right (hsated.trans (Nat.le_succ k))]
        · simp only [List.sum_cons]
          omega
        · rcases List.mem_cons.1 hw with rfl | hw
          · exact hsated
          · exact hnone hno hroom w hw
    · rw [if_pos rfl]
      refine ⟨0, ⟨?_, le_refl _, Or.inl rfl⟩, rfl, fun _ hroom => absurd hroom (lt_irrefl _)⟩
      rw [level_cons_zero, level_none]

/-- the rows are at one level and the budget is used up, or every want is met -/
structure Filled (wants : List ℕ) (maxRows : ℕ) (spans : List ℕ) : Prop where
  levelled : ∃ k m, spans = level wants k m
  room : spans.sum ≤ maxRows
  stopped : spans.sum = maxRows ∨ spans = wants

theorem extendRounds_full (wants spans : List ℕ) : extendRounds wants maxRows spans maxRows = spans := by
  unfold extendRounds
  exact dif_neg (lt_irrefl _)

theorem map_min_eq (h : ∀ want ∈ wants, want ≤ k) : wants.map (min k) = wants :=
  (List.map_congr_left fun want hw => Nat.min_eq_right (h want hw)).trans (List.map_id _)

/-- from a level that every row reached -/
theorem extendRounds_filled (wants : List ℕ) : ∀ (room k used : ℕ), maxRows - used = room → 0 < k →
    used = (wants.map (min k)).sum → used ≤ maxRows →
    Filled wants maxRows (extendRounds wants maxRows (wants.map (min k)) used) := by
  intro room
  induction room using Nat.strong_induction_on with
  | _ room ih =>
    intro k used hroom hk hused hle
    rcases hle.lt_or_eq with hlt | rfl
    · obtain ⟨m, h, hsum, hnone⟩ := extendPass_reached hk wants used hle
      have hadvances := extendPass_advances maxRows wants (wants.map (min k)) used
      unfold extendRounds
      rw [dif_pos hlt]
      dsimp only
      generalize extendPass maxRows wants (wants.map (min k)) used = pass at h hsum hnone hadvances ⊢
      obtain ⟨next, used', advanced⟩ := pass
      have htotal : next.sum = used' := by
        simp only at hsum
        omega
      cases advanced with
      | false =>
        -- nobody was hungry
        have hmet : wants.map (min k) = wants := map_min_eq (hnone rfl hlt)
        rw [dif_neg Bool.false_ne_true]
        have hnext : next = wants := by
          have hlen : next = level wants k m := h.spans_eq
          rw [hlen]
          refine List.ext_getElem length_level fun i hi hi' => ?_
          have hget := @getD_level wants k m i
          rw [List.getD_eq_getElem _ _ hi, List.getD_eq_getElem _ _ hi'] at hget
          rw [hget]
          have hwant := hnone rfl hlt _ (List.getElem_mem hi')
          split_ifs <;> omega
        exact ⟨⟨k, m, h.spans_eq⟩, htotal ▸ h.room, Or.inr hnext⟩
      | true =>
        rw [dif_pos rfl]
        rcases h.stopped with hfull | hall
        · simp only at hfull
          subst hfull
          rw [extendRounds_full]
          exact ⟨⟨k, m, h.spans_eq⟩, htotal.le, Or.inl htotal⟩
        · have hnext : next = wants.map (min (k + 1)) := h.spans_eq.trans (level_all hall)
          have hless : used < used' := hadvances rfl
          have hroom' : used' ≤ maxRows := h.room
          subst hnext
          exact ih (maxRows - used') (by omega) (k + 1) used' rfl (Nat.succ_pos k) htotal.symm hroom'
    · rw [extendRounds_full]
      exact ⟨⟨k, 0, level_none.symm⟩, hused.symm.le, Or.inl hused.symm⟩

theorem planPrefillSpans_filled (hmax : 0 < maxRows) :
    ∃ spans, planPrefillSpans wants maxRows = .ok spans ∧ Filled wants maxRows spans := by
  refine ⟨_, if_neg hmax.ne', ?_⟩
  obtain ⟨m, h, hused⟩ := @firstRows_reached maxRows wants 0 (Nat.zero_le _)
  generalize firstRows maxRows wants 0 = first at h hused ⊢
  obtain ⟨spans, used⟩ := first
  have htotal : used = spans.sum := by simpa using hused
  rcases h.stopped with hfull | hall
  · simp only at hfull
    subst hfull
    rw [extendRounds_full]
    exact ⟨⟨0, m, h.spans_eq⟩, htotal.symm.le, Or.inl htotal.symm⟩
  · have hspans : spans = wants.map (min 1) := h.spans_eq.trans (level_all hall)
    subst hspans
    exact extendRounds_filled wants _ 1 used rfl Nat.one_pos htotal h.room

/-- what the planner promises of its spans -/
structure Planned (wants : List ℕ) (maxRows : ℕ) (spans : List ℕ) : Prop where
  length : spans.length = wants.length
  granted : ∀ slot, spans.getD slot 0 ≤ wants.getD slot 0
  total : spans.sum = min wants.sum maxRows
  live : wants.countP (0 < ·) ≤ maxRows → ∀ slot, 0 < wants.getD slot 0 → 0 < spans.getD slot 0
  fair : ∀ a b, spans.getD a 0 < wants.getD a 0 → spans.getD b 0 ≤ spans.getD a 0 + 1

/-- a first level that leaves a wanting row out has handed out fewer rows than there are wanting rows -/
theorem level_zero_live {slot : ℕ} (hwant : 0 < wants.getD slot 0) (hcount : wants.countP (0 < ·) ≤ (level wants 0 m).sum) :
    0 < (level wants 0 m).getD slot 0 := by
  rw [getD_level]
  split_ifs with hslot
  · omega
  · rw [sum_level_zero] at hcount
    have hsplit : (wants.take m).countP (0 < ·) + (wants.drop m).countP (0 < ·) = wants.countP (0 < ·) := by
      rw [← List.countP_append, List.take_append_drop]
    have hlt : slot < wants.length := by
      by_contra hout
      rw [List.getD_eq_default _ _ (Nat.le_of_not_lt hout)] at hwant
      exact lt_irrefl 0 hwant
    have hmem : wants[slot] ∈ wants.drop m := by
      rw [List.mem_iff_getElem]
      refine ⟨slot - m, by rw [List.length_drop]; omega, ?_⟩
      rw [List.getElem_drop]
      congr 1
      omega
    have hpos : 0 < (wants.drop m).countP (0 < ·) := by
      rw [List.countP_pos_iff]
      refine ⟨_, hmem, ?_⟩
      rw [List.getD_eq_getElem _ _ hlt] at hwant
      exact decide_eq_true hwant
    omega

theorem Filled.planned (h : Filled wants maxRows spans) : Planned wants maxRows spans := by
  obtain ⟨k, m, hlevel⟩ := h.levelled
  have hle : spans.sum ≤ wants.sum := hlevel ▸ sum_level_le
  refine ⟨hlevel ▸ length_level, fun slot => hlevel ▸ level_le, ?_, fun hcount slot hwant => ?_, fun a b hunmet => ?_⟩
  · have hroom := h.room
    rcases h.stopped with hfull | hmet
    · omega
    · rw [hmet] at hroom ⊢
      omega
  · rcases h.stopped with hfull | hmet
    · rcases Nat.eq_zero_or_pos k with rfl | hk
      · rw [hlevel] at hfull ⊢
        exact level_zero_live hwant (hfull ▸ hcount)
      · rw [hlevel, getD_level]
        split_ifs <;> omega
    · rw [hmet]
      exact hwant
  · rw [hlevel] at hunmet ⊢
    exact level_fair hunmet

theorem planPrefillSpans_planned (hmax : 0 < maxRows) :
    ∃ spans, planPrefillSpans wants maxRows = .ok spans ∧ Planned wants maxRows spans := by
  obtain ⟨spans, hok, hfilled⟩ := @planPrefillSpans_filled wants _ hmax
  exact ⟨spans, hok, hfilled.planned⟩

/-! ## Layout -/

/-- the rows of the slots from `slot` on, one run each -/
def runsFrom (slot : ℕ) (spans : List ℕ) : List ℕ := (spans.zipIdx slot).flatMap fun run => List.replicate run.1 run.2

variable {slot row dst span : ℕ} {slots : List ℕ}

@[simp] theorem runsFrom_nil : runsFrom slot [] = [] := rfl

@[simp] theorem runsFrom_cons : runsFrom slot (span :: spans) = List.replicate span slot ++ runsFrom (slot + 1) spans := rfl

@[simp] theorem length_runsFrom : (runsFrom slot spans).length = spans.sum := by
  induction spans generalizing slot with
  | nil => rfl
  | cons span spans ih => rw [runsFrom_cons, List.length_append, List.length_replicate, ih, List.sum_cons]

theorem le_of_mem_runsFrom (h : row ∈ runsFrom slot spans) : slot ≤ row := by
  induction spans generalizing slot with
  | nil => cases h
  | cons span spans ih =>
    rw [runsFrom_cons] at h
    rcases List.mem_append.1 h with h | h
    · exact (List.eq_of_mem_replicate h).ge
    · exact (Nat.le_succ slot).trans (ih h)

theorem layRun_ok (slot span : ℕ) : ∀ (slots : List ℕ) (dst : ℕ), dst + span ≤ slots.length →
    layRun slot span slots dst =
      .ok (slots.take dst ++ List.replicate span slot ++ slots.drop (dst + span), dst + span) := by
  induction span with
  | zero => exact fun slots dst _ => by simp [layRun]
  | succ span ih =>
    intro slots dst hroom
    have hlt : dst < slots.length := by omega
    rw [layRun, if_pos hlt, ih _ _ (by rw [List.length_set]; omega)]
    have htake : (slots.set dst slot).take (dst + 1) = slots.take dst ++ [slot] := by
      rw [List.take_succ, List.take_set_of_le (le_refl _), List.getElem?_set_self hlt]
      rfl
    have hdrop : (slots.set dst slot).drop (dst + 1 + span) = slots.drop (dst + (span + 1)) := by
      rw [List.drop_set_of_lt (by omega)]
      congr 1
      omega
    rw [htake, hdrop, List.append_assoc (slots.take dst), List.singleton_append, List.replicate_succ,
      show dst + 1 + span = dst + (span + 1) by omega]

theorem layRuns_ok (spans : List ℕ) : ∀ (slot : ℕ) (slots : List ℕ) (dst : ℕ), dst + spans.sum ≤ slots.length →
    layRuns slot spans slots dst =
      .ok (slots.take dst ++ runsFrom slot spans ++ slots.drop (dst + spans.sum), dst + spans.sum) := by
  induction spans with
  | nil => exact fun slot slots dst _ => by simp [layRuns]
  | cons span spans ih =>
    intro slot slots dst hroom
    rw [List.sum_cons] at hroom
    have hlen : (slots.take dst ++ List.replicate span slot).length = dst + span := by
      rw [List.length_append, List.length_take, List.length_replicate]
      omega
    have hall : (slots.take dst ++ List.replicate span slot ++ slots.drop (dst + span)).length = slots.length := by
      rw [List.length_append, hlen, List.length_drop]
      omega
    rw [layRuns, layRun_ok slot span slots dst (by omega)]
    change layRuns (slot + 1) spans (slots.take dst ++ List.replicate span slot ++ slots.drop (dst + span))
      (dst + span) = _
    rw [ih _ _ _ (by omega), List.take_left' hlen, List.drop_append, hlen,
      List.drop_eq_nil_of_le (by omega : (slots.take dst ++ List.replicate span slot).length ≤ dst + span + spans.sum),
      List.nil_append, List.drop_drop, runsFrom_cons, List.append_assoc (slots.take dst), List.sum_cons,
      show dst + span + spans.sum = dst + (span + spans.sum) by omega,
      show dst + span + (dst + (span + spans.sum) - (dst + span)) = dst + (span + spans.sum) by omega]

/-- one run per slot in ascending order, in the smallest bucket that covers the demand -/
structure LaidOut (demand : ℕ) (spans : List ℕ) (shape : Glm52StepShape) : Prop where
  rows : shape.slots = runsFrom 0 spans ++ List.replicate (glm52MaxStepRows - spans.sum) 0
  active : shape.activeRows = spans.sum
  fits : shape.activeRows ≤ shape.bucket
  bucket : shape.bucket ∈ glm52DecodeBuckets
  covers : demand ≤ shape.bucket
  least : ∀ bucket ∈ glm52DecodeBuckets, demand ≤ bucket → shape.bucket ≤ bucket

theorem bucket_pos {bucket : ℕ} (h : bucket ∈ glm52DecodeBuckets) : 0 < bucket := by
  have hall : ∀ bucket ∈ glm52DecodeBuckets, 0 < bucket := by decide
  exact hall bucket h

theorem bucket_le {bucket : ℕ} (h : bucket ∈ glm52DecodeBuckets) : bucket ≤ glm52MaxStepRows := by
  have hall : ∀ bucket ∈ glm52DecodeBuckets, bucket ≤ glm52MaxStepRows := by decide
  exact hall bucket h

/-- the buckets ascend, so the first that covers a demand is the smallest -/
theorem find_bucket {d : ℕ} (hd : d ≤ glm52MaxStepRows) :
    ∃ bucket, glm52DecodeBuckets.find? (fun rows => decide (rows ≥ max d 1)) = some bucket ∧
      bucket ∈ glm52DecodeBuckets ∧ d ≤ bucket ∧ ∀ other ∈ glm52DecodeBuckets, d ≤ other → bucket ≤ other := by
  have hsorted : glm52DecodeBuckets.Pairwise (· < ·) := by decide
  cases hfind : covering glm52DecodeBuckets (max d 1) with
  | none => exact absurd (max_le hd (by decide)) (not_le.2 (covering_eq_none_iff.1 hfind glm52MaxStepRows (by decide)))
  | some bucket =>
    have hcover := smallestCover_of_covering hsorted hfind
    exact ⟨bucket, hfind, hcover.mem, (le_max_left d 1).trans hcover.covers,
      fun other hother hle => hcover.least other hother (max_le hle (bucket_pos hother))⟩

theorem planStepShape_laidOut (wants : List ℕ) :
    ∃ shape spans, planStepShape wants = .ok shape ∧ planPrefillSpans wants shape.bucket = .ok spans ∧
      Planned wants shape.bucket spans ∧ LaidOut (demand wants) spans shape := by
  obtain ⟨bucket, hfind, hin, hcovers, hleast⟩ := find_bucket (Nat.min_le_right (wants.sum % 2 ^ 64) glm52MaxStepRows)
  obtain ⟨spans, hspans, hplan⟩ := @planPrefillSpans_planned wants _ (bucket_pos hin)
  have hfits : spans.sum ≤ bucket := hplan.total ▸ Nat.min_le_right _ _
  have hroom : spans.sum ≤ glm52MaxStepRows := hfits.trans (bucket_le hin)
  have hlaid : layRuns 0 spans (List.replicate glm52MaxStepRows 0) 0 =
      .ok (runsFrom 0 spans ++ List.replicate (glm52MaxStepRows - spans.sum) 0, spans.sum) := by
    rw [layRuns_ok spans 0 _ 0 (by rw [List.length_replicate]; omega)]
    simp
  refine ⟨⟨bucket, runsFrom 0 spans ++ List.replicate (glm52MaxStepRows - spans.sum) 0, spans.sum⟩, spans, ?_, hspans,
    hplan, ⟨rfl, rfl, hfits, hin, hcovers, hleast⟩⟩
  unfold planStepShape
  rw [show glm52DecodeBuckets.find? (fun rows => decide (rows ≥ max (demand wants) 1)) = some bucket from hfind]
  dsimp only
  rw [hspans]
  change (layRuns 0 spans (List.replicate glm52MaxStepRows 0) 0 >>= _) = _
  rw [hlaid]
  rfl

/-! ## Sampling -/

/-- row `k` of a span may be committed: every row of a verify span, the last row of a span that ends the prompt -/
def Committable (state : Glm52SlotState) (span k : ℕ) : Prop :=
  k < span ∧ (state.midPrefill = true → span = state.remainingPrompt ∧ k + 1 = span)

/-- the sampling step of a committable row -/
def samplingStep (state : Glm52SlotState) (k : ℕ) : ℕ :=
  state.samplingOffset + state.completion + if state.midPrefill then 0 else k

theorem mem_samplingRows {state : Glm52SlotState} {k step : ℕ} :
    (k, step) ∈ state.samplingRows span ↔ Committable state span k ∧ step = samplingStep state k := by
  unfold Glm52SlotState.samplingRows Committable samplingStep
  cases hmid : state.midPrefill with
  | true =>
    have hpos : 0 < state.remainingPrompt := by
      have hlt : state.fed < state.prompt.length := of_decide_eq_true hmid
      exact Nat.sub_pos_of_lt hlt
    rw [if_pos rfl, if_pos rfl]
    split_ifs with hspan
    · simp only [List.mem_singleton, Prod.mk.injEq]
      constructor
      · rintro ⟨rfl, rfl⟩
        exact ⟨⟨by omega, fun _ => ⟨hspan, by omega⟩⟩, rfl⟩
      · rintro ⟨⟨-, hlast⟩, rfl⟩
        have := (hlast trivial).2
        exact ⟨by omega, rfl⟩
    · constructor
      · intro h
        cases h
      · rintro ⟨⟨-, hlast⟩, -⟩
        exact absurd (hlast rfl).1 hspan
  | false =>
    simp only [Bool.false_eq_true, if_false, List.mem_map, List.mem_range, Prod.mk.injEq]
    constructor
    · rintro ⟨j, hj, rfl, rfl⟩
      exact ⟨⟨hj, fun h => by cases h⟩, rfl⟩
    · rintro ⟨⟨hlt, -⟩, rfl⟩
      exact ⟨k, hlt, rfl, rfl⟩

/-- what a granted span does depends on the outputs of its committable rows alone -/
theorem advanceSpan_congr {state : Glm52SlotState} {outputs outputs' eos : List ℕ}
    (hle : outputs.length ≤ state.feedWant) (hlen : outputs.length = outputs'.length)
    (hagree : ∀ k, Committable state outputs.length k → outputs[k]? = outputs'[k]?) :
    state.advanceSpan outputs eos = state.advanceSpan outputs' eos := by
  cases hmid : state.midPrefill with
  | true =>
    unfold Glm52SlotState.advanceSpan
    rw [if_pos hmid, if_pos hmid, ← hlen]
    dsimp only
    split_ifs with hmore
    · rfl
    · -- the prompt ends here, and the last row is the committable one
      have hshort : ¬ state.fed + outputs.length < state.prompt.length := fun hlt => hmore (decide_eq_true hlt)
      have hfed : state.fed < state.prompt.length := of_decide_eq_true hmid
      rw [Glm52SlotState.feedWant, if_pos hmid, Glm52SlotState.remainingPrompt] at hle
      have hspan : outputs.length = state.remainingPrompt := by
        unfold Glm52SlotState.remainingPrompt
        omega
      have hlast : outputs.getLast? = outputs'.getLast? := by
        rw [List.getLast?_eq_getElem?, List.getLast?_eq_getElem?, ← hlen]
        exact hagree _ ⟨by omega, fun _ => ⟨hspan, by omega⟩⟩
      rw [hlast]
  | false =>
    have heq : outputs = outputs' := by
      refine List.ext_getElem? fun k => ?_
      rcases Nat.lt_or_ge k outputs.length with hlt | hge
      · exact hagree k ⟨hlt, fun h => absurd (hmid.symm.trans h) (by decide)⟩
      · rw [List.getElem?_eq_none hge, List.getElem?_eq_none (hlen ▸ hge)]
    rw [heq]

section Walk

variable {P : Type} {takesArgmax : P → Bool} {rankSlots : List (Option (RankRequest P))}

/-- the samples of the runs of the slots from `slot` on -/
def samplesFrom (takesArgmax : P → Bool) (rankSlots : List (Option (RankRequest P))) (row slot : ℕ) :
    List ℕ → List (Glm52RowSample P)
  | [] => []
  | span :: spans =>
    runSamples takesArgmax (rankSlots.getD slot none) row span ++
      samplesFrom takesArgmax rankSlots (row + span) (slot + 1) spans

theorem runSamples_zero (request : Option (RankRequest P)) : runSamples takesArgmax request row 0 = [] := by
  have hempty : ∀ state : Glm52SlotState, state.samplingRows 0 = [] := by
    intro state
    refine List.eq_nil_iff_forall_not_mem.2 fun r hr => ?_
    exact absurd (mem_samplingRows.1 hr).1.1 (Nat.not_lt_zero _)
  unfold runSamples
  cases request with
  | none => rfl
  | some active =>
    dsimp only
    rw [hempty, List.map_nil, ite_self]

/-- the walk finds exactly the runs that were laid out -/
theorem walkRuns_runsFrom (spans : List ℕ) : ∀ row slot : ℕ, slot + spans.length ≤ rankSlots.length →
    walkRuns takesArgmax rankSlots row (runsFrom slot spans) =
      .ok (samplesFrom takesArgmax rankSlots row slot spans) := by
  induction spans with
  | nil =>
    intro row slot _
    rw [runsFrom_nil, walkRuns]
    rfl
  | cons span spans ih =>
    intro row slot hlen
    rw [List.length_cons] at hlen
    have hrest := ih (row + span) (slot + 1) (by omega)
    rw [runsFrom_cons, samplesFrom]
    cases span with
    | zero =>
      rw [runSamples_zero]
      exact hrest
    | succ span =>
      have hslot : rankSlots[slot]? = some (rankSlots.getD slot none) := by
        have hlt : slot < rankSlots.length := by omega
        rw [List.getD_eq_getElem _ _ hlt, List.getElem?_eq_getElem hlt]
      have hother : (runsFrom (slot + 1) spans).takeWhile (· == slot) = [] := by
        cases hrows : runsFrom (slot + 1) spans with
        | nil => rfl
        | cons head rows =>
          have hhead : slot + 1 ≤ head := le_of_mem_runsFrom (hrows ▸ List.mem_cons_self)
          exact List.takeWhile_cons_of_neg fun heq => absurd (eq_of_beq heq) (by omega)
      have hrun : (List.replicate span slot ++ runsFrom (slot + 1) spans).takeWhile (· == slot) =
          List.replicate span slot := by
        rw [List.takeWhile_append_of_pos fun x hx => by rw [List.eq_of_mem_replicate hx]; exact beq_self_eq_true slot,
          hother, List.append_nil]
      rw [List.replicate_succ, List.cons_append, walkRuns, hslot, hrun, List.length_replicate, List.drop_left' List.length_replicate]
      dsimp only
      rw [hrest]
      rfl

theorem mem_runSamples {request : Option (RankRequest P)} {s : Glm52RowSample P} :
    s ∈ runSamples takesArgmax request row span ↔ ∃ active k, request = some active ∧ takesArgmax active.params = false ∧
      Committable active.state span k ∧ s = ⟨row + k, active.params, samplingStep active.state k⟩ := by
  unfold runSamples
  cases request with
  | none =>
    constructor
    · intro h
      cases h
    · rintro ⟨active, k, h, -⟩
      cases h
  | some active =>
    dsimp only
    split_ifs with hargmax
    · constructor
      · intro h
        cases h
      · rintro ⟨active', k, h, hno, -⟩
        cases h
        rw [hno] at hargmax
        cases hargmax
    · rw [List.mem_map]
      constructor
      · rintro ⟨⟨k, step⟩, hr, rfl⟩
        obtain ⟨hk, rfl⟩ := mem_samplingRows.1 hr
        exact ⟨active, k, rfl, Bool.eq_false_iff.2 hargmax, hk, rfl⟩
      · rintro ⟨active', k, h, -, hk, rfl⟩
        cases h
        exact ⟨(k, samplingStep active.state k), mem_samplingRows.2 ⟨hk, rfl⟩, rfl⟩

theorem mem_samplesFrom (spans : List ℕ) : ∀ (row slot : ℕ) (s : Glm52RowSample P),
    s ∈ samplesFrom takesArgmax rankSlots row slot spans ↔ ∃ i active k, i < spans.length ∧
      rankSlots.getD (slot + i) none = some active ∧ takesArgmax active.params = false ∧
      Committable active.state (spans.getD i 0) k ∧
      s = ⟨row + (spans.take i).sum + k, active.params, samplingStep active.state k⟩ := by
  induction spans with
  | nil =>
    intro row slot s
    constructor
    · intro h
      cases h
    · rintro ⟨i, active, k, hlt, -⟩
      exact absurd hlt (Nat.not_lt_zero i)
  | cons span spans ih =>
    intro row slot s
    rw [samplesFrom, List.mem_append, mem_runSamples, ih]
    constructor
    · rintro (⟨active, k, hreq, hargmax, hk, rfl⟩ | ⟨i, active, k, hlt, hreq, hargmax, hk, rfl⟩)
      · exact ⟨0, active, k, Nat.succ_pos _, hreq, hargmax, hk, rfl⟩
      · refine ⟨i + 1, active, k, Nat.succ_lt_succ hlt, ?_, hargmax, hk, ?_⟩
        · rwa [show slot + (i + 1) = slot + 1 + i by omega]
        · rw [List.take_succ_cons, List.sum_cons, Nat.add_assoc row]
    · rintro ⟨i, active, k, hlt, hreq, hargmax, hk, rfl⟩
      cases i with
      | zero => exact Or.inl ⟨active, k, hreq, hargmax, hk, rfl⟩
      | succ i =>
        refine Or.inr ⟨i, active, k, Nat.lt_of_succ_lt_succ hlt, ?_, hargmax, hk, ?_⟩
        · rwa [show slot + 1 + i = slot + (i + 1) by omega]
        · rw [List.take_succ_cons, List.sum_cons, ← Nat.add_assoc row]

theorem samplingRows_ascend (state : Glm52SlotState) (span : ℕ) :
    (state.samplingRows span).Pairwise fun a b => a.1 < b.1 := by
  unfold Glm52SlotState.samplingRows
  split_ifs
  · exact List.pairwise_singleton _ _
  · exact List.Pairwise.nil
  · rw [List.pairwise_map]
    exact List.pairwise_lt_range

theorem runSamples_ascend (request : Option (RankRequest P)) (row span : ℕ) :
    (runSamples takesArgmax request row span).Pairwise fun a b => a.row < b.row := by
  unfold runSamples
  cases request with
  | none => exact List.Pairwise.nil
  | some active =>
    dsimp only
    split_ifs
    · exact List.Pairwise.nil
    · rw [List.pairwise_map]
      exact (samplingRows_ascend active.state span).imp fun hlt => Nat.add_lt_add_left hlt row

theorem samplesFrom_ascend (spans : List ℕ) : ∀ row slot : ℕ,
    (samplesFrom takesArgmax rankSlots row slot spans).Pairwise fun a b => a.row < b.row := by
  induction spans with
  | nil => exact fun row slot => List.Pairwise.nil
  | cons span spans ih =>
    intro row slot
    refine List.pairwise_append.2 ⟨runSamples_ascend _ row span, ih _ _, fun a ha b hb => ?_⟩
    -- a run's rows end where the next run starts
    obtain ⟨active, k, -, -, hk, rfl⟩ := mem_runSamples.1 ha
    obtain ⟨i, active', k', -, -, -, -, rfl⟩ := (mem_samplesFrom spans _ _ b).1 hb
    have hlt : k < span := hk.1
    dsimp only
    omega

/-- the rows listed ascend, and are the committable rows of the slots that do not take the argmax -/
structure Sampled (takesArgmax : P → Bool) (rankSlots : List (Option (RankRequest P))) (spans : List ℕ)
    (samples : List (Glm52RowSample P)) : Prop where
  ascend : samples.Pairwise fun a b => a.row < b.row
  exactly : ∀ s, s ∈ samples ↔ ∃ slot active k, rankSlots[slot]? = some (some active) ∧
    takesArgmax active.params = false ∧ Committable active.state (spans.getD slot 0) k ∧
    s = ⟨(spans.take slot).sum + k, active.params, samplingStep active.state k⟩

theorem collectSamplingRows_exact {demand : ℕ} {shape : Glm52StepShape} (h : LaidOut demand spans shape)
    (hlen : rankSlots.length = spans.length) :
    ∃ samples, collectSamplingRows takesArgmax shape rankSlots = .ok samples ∧
      Sampled takesArgmax rankSlots spans samples := by
  have hrows : shape.slots.take shape.activeRows = runsFrom 0 spans := by
    rw [h.rows, h.active, List.take_left' length_runsFrom]
  refine ⟨samplesFrom takesArgmax rankSlots 0 0 spans, ?_, samplesFrom_ascend spans 0 0, fun s => ?_⟩
  · rw [collectSamplingRows, hrows]
    exact walkRuns_runsFrom spans 0 0 (by omega)
  · rw [mem_samplesFrom]
    have hget : ∀ (slot : ℕ) (active : RankRequest P),
        rankSlots.getD (0 + slot) none = some active ↔ rankSlots[slot]? = some (some active) := by
      intro slot active
      rw [Nat.zero_add, List.getD_eq_getElem?_getD]
      cases rankSlots[slot]? <;> simp
    constructor
    · rintro ⟨slot, active, k, -, hreq, hargmax, hk, rfl⟩
      exact ⟨slot, active, k, (hget slot active).1 hreq, hargmax, hk, by rw [Nat.zero_add]⟩
    · rintro ⟨slot, active, k, hreq, hargmax, hk, rfl⟩
      have hlt : slot < spans.length := hlen ▸ (List.getElem?_eq_some_iff.1 hreq).1
      exact ⟨slot, active, k, hlt, (hget slot active).2 hreq, hargmax, hk, by rw [Nat.zero_add]⟩

end Walk

/-- **Step planning.** The spans keep the planner's promises under every budget, and the step's layout and its sampling
walk agree on them; the demand is the sum of the wants, up to the row ceiling, unless that sum wraps. -/
theorem step_planning (wants : List ℕ) :
    (∀ maxRows, 0 < maxRows → ∃ spans, planPrefillSpans wants maxRows = .ok spans ∧ Planned wants maxRows spans) ∧
      (wants.sum < 2 ^ 64 → demand wants = min wants.sum glm52MaxStepRows) ∧
      ∃ shape spans, planStepShape wants = .ok shape ∧ planPrefillSpans wants shape.bucket = .ok spans ∧
        Planned wants shape.bucket spans ∧ LaidOut (demand wants) spans shape ∧
        ∀ {P : Type} (takesArgmax : P → Bool) (rankSlots : List (Option (RankRequest P))),
          rankSlots.length = wants.length → ∃ samples, collectSamplingRows takesArgmax shape rankSlots = .ok samples ∧
            Sampled takesArgmax rankSlots spans samples := by
  obtain ⟨shape, spans, hshape, hspans, hplan, hlaid⟩ := planStepShape_laidOut wants
  refine ⟨fun maxRows hmax => planPrefillSpans_planned hmax, fun hsum => ?_, shape, spans, hshape, hspans, hplan, hlaid,
    fun takesArgmax rankSlots hlen => collectSamplingRows_exact hlaid (hlen.trans hplan.length.symm)⟩
  rw [demand, Nat.mod_eq_of_lt hsum]

/-- a decoding slot, a long prompt and an idle slot under a budget of four rows -/
theorem step_planning_three : ∃ spans, planPrefillSpans [1, 40, 0] 4 = .ok spans ∧ Planned [1, 40, 0] 4 spans :=
  (step_planning [1, 40, 0]).1 4 (by decide)

/-- two wants of `2 ^ 63` rows wrap to no demand: the step gets the one-row bucket, not the largest -/
theorem wrapped_demand : ∃ shape, planStepShape (2 ^ 63 :: 2 ^ 63 :: List.replicate 30 0) = .ok shape ∧
    ¬ min (2 ^ 63 :: 2 ^ 63 :: List.replicate 30 0).sum glm52MaxStepRows ≤ shape.bucket := by
  obtain ⟨shape, spans, hshape, -, -, hlaid⟩ := planStepShape_laidOut (2 ^ 63 :: 2 ^ 63 :: List.replicate 30 0)
  have hbucket : shape.bucket ≤ 1 := hlaid.least 1 (by decide) (by decide)
  have hsum : min (2 ^ 63 :: 2 ^ 63 :: List.replicate 30 0).sum glm52MaxStepRows = 96 := by decide
  exact ⟨shape, hshape, by omega⟩

end Pegainfer.Glm52
