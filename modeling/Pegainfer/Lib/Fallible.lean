/-
Sequences of steps that may fail.
- `bind_eq_ok`: a sequence of two succeeds exactly when both do.
- `mapM_ok_iff`: a list of steps succeeds exactly when each does, with their results in order.
-/
import Mathlib.Tactic

namespace Pegainfer.Lib

variable {ε α β : Type}

theorem bind_eq_ok {x : Except ε α} {f : α → Except ε β} {b : β} :
    x >>= f = .ok b ↔ ∃ a, x = .ok a ∧ f a = .ok b := by
  cases x with
  | error e => simp [bind, Except.bind]
  | ok a => simp [bind, Except.bind]

theorem mapM_ok_iff {f : α → Except ε β} {xs : List α} {ys : List β} :
    xs.mapM f = .ok ys ↔ List.Forall₂ (fun x y => f x = .ok y) xs ys := by
  induction xs generalizing ys with
  | nil =>
    rw [List.mapM_nil, List.forall₂_nil_left_iff]
    constructor
    · intro h
      exact (Except.ok.inj h).symm
    · rintro rfl
      rfl
  | cons x xs ih =>
    rw [List.mapM_cons, List.forall₂_cons_left_iff]
    constructor
    · intro h
      obtain ⟨y, hy, h⟩ := bind_eq_ok.1 h
      obtain ⟨others, hothers, h⟩ := bind_eq_ok.1 h
      exact ⟨y, others, hy, ih.1 hothers, (Except.ok.inj h).symm⟩
    · rintro ⟨y, others, hy, hothers, rfl⟩
      exact bind_eq_ok.2 ⟨y, hy, bind_eq_ok.2 ⟨others, ih.2 hothers, rfl⟩⟩

/-- steps that all succeed -/
theorem mapM_exists {f : α → Except ε β} {xs : List α} (h : ∀ x ∈ xs, ∃ y, f x = .ok y) : ∃ ys, xs.mapM f = .ok ys := by
  induction xs with
  | nil => exact ⟨[], rfl⟩
  | cons x xs ih =>
    obtain ⟨y, hy⟩ := h x List.mem_cons_self
    obtain ⟨ys, hys⟩ := ih fun x hx => h x (List.mem_cons_of_mem _ hx)
    exact ⟨y :: ys, mapM_ok_iff.2 (.cons hy (mapM_ok_iff.1 hys))⟩

/-- the result at the place of an element -/
theorem forall₂_getElem? {r : α → β → Prop} {xs : List α} {ys : List β} (h : List.Forall₂ r xs ys) {i : ℕ} {x : α}
    (hx : xs[i]? = some x) : ∃ y, ys[i]? = some y ∧ r x y := by
  induction h generalizing i with
  | nil => cases hx
  | cons hr _ ih =>
    cases i with
    | zero =>
      obtain rfl := Option.some.inj hx
      exact ⟨_, rfl, hr⟩
    | succ i => exact ih hx

/-- what a step that succeeded on a list gave for one of its elements -/
theorem forall₂_mem_left {r : α → β → Prop} {xs : List α} {ys : List β} (h : List.Forall₂ r xs ys) :
    ∀ x ∈ xs, ∃ y ∈ ys, r x y := by
  intro x hx
  obtain ⟨i, hi⟩ := List.mem_iff_getElem?.1 hx
  obtain ⟨y, hy, hr⟩ := forall₂_getElem? h hi
  exact ⟨y, List.mem_of_getElem? hy, hr⟩

theorem forall₂_mem_right {r : α → β → Prop} {xs : List α} {ys : List β} (h : List.Forall₂ r xs ys) :
    ∀ y ∈ ys, ∃ x ∈ xs, r x y := forall₂_mem_left h.flip

end Pegainfer.Lib
