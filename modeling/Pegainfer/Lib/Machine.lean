/-
Runs of a fallible machine.

A machine is a step function `σ → ο → Except ε σ`: an operation either moves the state or is refused (a panic, an
assertion, an ended process), and a refused operation ends the run.
- `run`: the state after a list of operations, or the first refusal.
- `StepsMeet`: every operation of a run is issued in a state that meets a condition on the state before it.
- `stepsMeet_append`: allowed runs compose.
- `run_invariant`: what one step preserves, a whole run preserves. The invariant may mention the operations so far.
- `run_total`: allowed runs that never get stuck.
- `run_remaining`: the same for an invariant over the operations still ahead.
- `not_stepsMeet`: a run that breaks the condition breaks it at one of its operations, from a reached state.
-/
import Mathlib.Tactic

namespace Pegainfer.Lib

variable {σ ο ε : Type*} {step : σ → ο → Except ε σ} {P : σ → ο → Prop}

/-- the state after `ops`, or the first refusal -/
def run (step : σ → ο → Except ε σ) (s : σ) : List ο → Except ε σ
  | [] => .ok s
  | o :: ops =>
    match step s o with
    | .ok s' => run step s' ops
    | .error e => .error e

/-- each operation of the run is issued in a state where `P` allows it -/
def StepsMeet (step : σ → ο → Except ε σ) (P : σ → ο → Prop) (s : σ) : List ο → Prop
  | [] => True
  | o :: ops => P s o ∧ ∀ s', step s o = .ok s' → StepsMeet step P s' ops

instance StepsMeet.decidable [∀ s o, Decidable (P s o)] : ∀ s ops, Decidable (StepsMeet step P s ops)
  | _, [] => isTrue trivial
  | s, o :: ops =>
    match h : step s o with
    | .ok s' =>
      have := StepsMeet.decidable s' ops
      decidable_of_iff (P s o ∧ StepsMeet step P s' ops) (by simp [StepsMeet, h])
    | .error e => decidable_of_iff (P s o) (by simp [StepsMeet, h])

@[simp] theorem run_nil (s : σ) : run step s [] = .ok s := rfl

theorem run_cons_ok (s s' : σ) (o : ο) (ops : List ο) :
    run step s (o :: ops) = .ok s' ↔ ∃ m, step s o = .ok m ∧ run step m ops = .ok s' := by
  simp only [run]
  cases h : step s o with
  | ok m => simp
  | error e => simp

theorem run_append_ok (s s' : σ) (ops ops' : List ο) :
    run step s (ops ++ ops') = .ok s' ↔ ∃ m, run step s ops = .ok m ∧ run step m ops' = .ok s' := by
  induction ops generalizing s with
  | nil => simp
  | cons o ops ih =>
    rw [List.cons_append, run_cons_ok]
    constructor
    · rintro ⟨m, hm, hr⟩
      obtain ⟨n, hn, hr'⟩ := (ih m).1 hr
      exact ⟨n, (run_cons_ok s n o ops).2 ⟨m, hm, hn⟩, hr'⟩
    · rintro ⟨n, hn, hr'⟩
      obtain ⟨m, hm, hr⟩ := (run_cons_ok s n o ops).1 hn
      exact ⟨m, hm, (ih m).2 ⟨n, hr, hr'⟩⟩

/-- an allowed run goes on with a run allowed from the state it reaches -/
theorem stepsMeet_append {ops ops' : List ο} : ∀ {s m : σ}, StepsMeet step P s ops → run step s ops = .ok m →
    StepsMeet step P m ops' → StepsMeet step P s (ops ++ ops') := by
  induction ops with
  | nil =>
    intro s m _ hrun h'
    cases hrun
    exact h'
  | cons o ops ih =>
    intro s m h hrun h'
    obtain ⟨n, hn, hrun⟩ := (run_cons_ok s m o ops).1 hrun
    refine ⟨h.1, fun n' hn' => ?_⟩
    cases hn.symm.trans hn'
    exact ih (h.2 n hn) hrun h'

/-- a run is allowed as far as it goes -/
theorem stepsMeet_of_append {ops ops' : List ο} : ∀ {s : σ}, StepsMeet step P s (ops ++ ops') →
    StepsMeet step P s ops := by
  induction ops with
  | nil => exact fun _ => trivial
  | cons o ops ih => exact fun h => ⟨h.1, fun s' hs' => ih (h.2 s' hs')⟩

/-- the invariant rule over a suffix of a run, the operations before it known -/
theorem run_invariant_from {I : List ο → σ → Prop}
    (hstep : ∀ hist s o s', I hist s → P s o → step s o = .ok s' → I (hist ++ [o]) s')
    (ops : List ο) (hist : List ο) (s s' : σ) (hI : I hist s) (hP : StepsMeet step P s ops)
    (hr : run step s ops = .ok s') : I (hist ++ ops) s' := by
  induction ops generalizing hist s with
  | nil =>
    simp only [run_nil, Except.ok.injEq] at hr
    subst hr
    simpa using hI
  | cons o ops ih =>
    obtain ⟨m, hm, hr⟩ := (run_cons_ok s s' o ops).1 hr
    have h := ih (hist ++ [o]) m (hstep hist s o m hI hP.1 hm) (hP.2 m hm) hr
    simpa using h

/-- **Invariant rule.** What holds at the start and is preserved by each allowed step holds after the run. -/
theorem run_invariant {I : List ο → σ → Prop} (s₀ : σ) (h₀ : I [] s₀)
    (hstep : ∀ hist s o s', I hist s → P s o → step s o = .ok s' → I (hist ++ [o]) s')
    (ops : List ο) (s : σ) (hP : StepsMeet step P s₀ ops) (hr : run step s₀ ops = .ok s) : I ops s := by
  simpa using run_invariant_from hstep ops [] s₀ s h₀ hP hr

/-- **Progress rule.** Where every allowed step succeeds and keeps the invariant, every allowed run succeeds. -/
theorem run_total {I : σ → Prop} (hstep : ∀ s o, I s → P s o → ∃ s', step s o = .ok s' ∧ I s') (ops : List ο) :
    ∀ s, I s → StepsMeet step P s ops → ∃ s', run step s ops = .ok s' ∧ I s' := by
  induction ops with
  | nil => exact fun s h _ => ⟨s, rfl, h⟩
  | cons o ops ih =>
    intro s h hP
    obtain ⟨m, hm, hI⟩ := hstep s o h hP.1
    obtain ⟨s', hr, hI'⟩ := ih m hI (hP.2 m hm)
    exact ⟨s', (run_cons_ok s s' o ops).2 ⟨m, hm, hr⟩, hI'⟩

/-- **Worklist rule.** An invariant over the operations still ahead, kept by each of them, holds with none ahead. -/
theorem run_remaining (step : σ → ο → Except ε σ) {I : List ο → σ → Prop}
    (hstep : ∀ o ops s, I (o :: ops) s → ∃ s', step s o = .ok s' ∧ I ops s') (ops : List ο) :
    ∀ s, I ops s → ∃ s', run step s ops = .ok s' ∧ I [] s' := by
  induction ops with
  | nil => exact fun s h => ⟨s, rfl, h⟩
  | cons o ops ih =>
    intro s h
    obtain ⟨m, hm, hI⟩ := hstep o ops s h
    obtain ⟨s', hr, hI'⟩ := ih m hI
    exact ⟨s', (run_cons_ok s s' o ops).2 ⟨m, hm, hr⟩, hI'⟩

theorem stepsMeet_true (s : σ) (ops : List ο) : StepsMeet step (fun _ _ => True) s ops := by
  induction ops generalizing s with
  | nil => trivial
  | cons o ops ih => exact ⟨trivial, fun s' _ => ih s'⟩

/-- a broken condition is broken at one operation, in the state reached by the operations before it -/
theorem not_stepsMeet (s : σ) (ops : List ο) (h : ¬ StepsMeet step P s ops) :
    ∃ pre o post m, ops = pre ++ o :: post ∧ run step s pre = .ok m ∧ ¬ P m o := by
  induction ops generalizing s with
  | nil => exact absurd trivial h
  | cons o ops ih =>
    by_cases hP : P s o
    · simp only [StepsMeet, hP, true_and, not_forall] at h
      obtain ⟨s', hs', hn⟩ := h
      obtain ⟨pre, o', post, m, rfl, hm, hbad⟩ := ih s' hn
      exact ⟨o :: pre, o', post, m, rfl, (run_cons_ok s m o pre).2 ⟨s', hs', hm⟩, hbad⟩
    · exact ⟨[], o, ops, s, rfl, rfl, hP⟩

end Pegainfer.Lib
