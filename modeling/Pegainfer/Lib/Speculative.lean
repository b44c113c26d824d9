/-
Drafts checked against a decoder.

A decoder feeds tokens into a context one at a time and answers each with the next token. Plain decode feeds every answer
back. A draft checked in one pass is a span fed as it stands: its answers are those of plain decode as far as the drafts
agree with them, and one further.
- `answers_take`: the answers to a span, cut behind the first disagreement, are plain decode's.
- `feedAll_take`: feeding the drafts that agree leaves the context of plain decode.
- `greedy_add`: plain decode goes on from where it stopped.
-/
import Mathlib.Tactic

namespace Pegainfer.Lib

structure Decoder (C T : Type*) where
  feed : C → T → C
  next : C → T → T

variable {C T : Type*}

/-- how many drafts agree with the answers from the front on -/
def agreeing [DecidableEq T] : List T → List T → ℕ
  | draft :: drafts, answer :: answers => if answer = draft then agreeing drafts answers + 1 else 0
  | _, _ => 0

namespace Decoder

variable (d : Decoder C T)

/-- the context after a span -/
def feedAll (ctx : C) (span : List T) : C := span.foldl d.feed ctx

/-- the answers to a span, each in the context of the tokens before it -/
def answers : C → List T → List T
  | _, [] => []
  | ctx, t :: span => d.next ctx t :: answers (d.feed ctx t) span

/-- plain decode of `n` tokens -/
def greedy : C → T → ℕ → List T
  | _, _, 0 => []
  | ctx, t, n + 1 => d.next ctx t :: greedy (d.feed ctx t) (d.next ctx t) n

/-- the context after plain decode of `n` tokens, and the token to feed next -/
def after : C → T → ℕ → C × T
  | ctx, t, 0 => (ctx, t)
  | ctx, t, n + 1 => after (d.feed ctx t) (d.next ctx t) n

variable {d} {ctx : C} {t : T}

@[simp] theorem length_greedy (n : ℕ) : ∀ (ctx : C) (t : T), (d.greedy ctx t n).length = n := by
  induction n with
  | zero => exact fun _ _ => rfl
  | succ n ih => exact fun _ _ => congrArg Nat.succ (ih _ _)

@[simp] theorem length_answers (span : List T) : ∀ ctx : C, (d.answers ctx span).length = span.length := by
  induction span with
  | nil => exact fun _ => rfl
  | cons t span ih => exact fun _ => congrArg Nat.succ (ih _)

theorem feedAll_append (ctx : C) (span span' : List T) :
    d.feedAll ctx (span ++ span') = d.feedAll (d.feedAll ctx span) span' := List.foldl_append

/-- plain decode goes on from where it stopped -/
theorem greedy_add (m n : ℕ) : ∀ (ctx : C) (t : T),
    d.greedy ctx t (m + n) = d.greedy ctx t m ++ d.greedy (d.after ctx t m).1 (d.after ctx t m).2 n := by
  induction m with
  | zero => exact fun ctx t => by rw [Nat.zero_add]; rfl
  | succ m ih =>
    intro ctx t
    rw [Nat.succ_add]
    exact congrArg (d.next ctx t :: ·) (ih _ _)

theorem after_add (m n : ℕ) : ∀ (ctx : C) (t : T),
    d.after ctx t (m + n) = d.after (d.after ctx t m).1 (d.after ctx t m).2 n := by
  induction m with
  | zero => exact fun ctx t => by rw [Nat.zero_add]; rfl
  | succ m ih =>
    intro ctx t
    rw [Nat.succ_add]
    exact ih _ _

/-- the token fed next is the last one decoded -/
theorem after_last (n : ℕ) : ∀ (ctx : C) (t : T),
    (t :: d.greedy ctx t n).getLast (List.cons_ne_nil _ _) = (d.after ctx t n).2 := by
  induction n with
  | zero => exact fun _ _ => rfl
  | succ n ih =>
    intro ctx t
    rw [List.getLast_cons (by exact List.cons_ne_nil _ _)]
    exact ih _ _

variable [DecidableEq T]

theorem agreeing_le (drafts : List T) : ∀ answers : List T, agreeing drafts answers ≤ drafts.length := by
  induction drafts with
  | nil => exact fun _ => le_refl _
  | cons draft drafts ih =>
    intro answers
    rcases answers with _ | ⟨answer, answers⟩
    · exact Nat.zero_le _
    · rw [agreeing]
      split_ifs with h
      · exact Nat.succ_le_succ (ih answers)
      · exact Nat.zero_le _

theorem agreeing_cons (draft : T) (drafts : List T) (ctx : C) (t : T) :
    agreeing (draft :: drafts) (d.answers ctx (t :: draft :: drafts)) =
      if d.next ctx t = draft then agreeing drafts (d.answers (d.feed ctx t) (draft :: drafts)) + 1 else 0 := rfl

/-- **The answers behind which the drafts stop agreeing are plain decode's.** -/
theorem answers_take (drafts : List T) : ∀ (ctx : C) (t : T),
    (d.answers ctx (t :: drafts)).take (agreeing drafts (d.answers ctx (t :: drafts)) + 1) =
      d.greedy ctx t (agreeing drafts (d.answers ctx (t :: drafts)) + 1) := by
  induction drafts with
  | nil => exact fun _ _ => rfl
  | cons draft drafts ih =>
    intro ctx t
    rw [agreeing_cons]
    split_ifs with h
    · have hrest := ih (d.feed ctx t) draft
      have hnext : d.greedy (d.feed ctx t) (d.next ctx t) = d.greedy (d.feed ctx t) draft := by rw [h]
      change d.next ctx t :: _ = d.next ctx t :: d.greedy (d.feed ctx t) (d.next ctx t) _
      rw [hnext]
      exact congrArg (d.next ctx t :: ·) hrest
    · rfl

/-- **Feeding the drafts that agree leaves the context of plain decode.** -/
theorem feedAll_take (drafts : List T) : ∀ (ctx : C) (t : T),
    d.feedAll ctx (t :: drafts.take (agreeing drafts (d.answers ctx (t :: drafts)))) =
      (d.after ctx t (agreeing drafts (d.answers ctx (t :: drafts)) + 1)).1 := by
  induction drafts with
  | nil => exact fun _ _ => rfl
  | cons draft drafts ih =>
    intro ctx t
    rw [agreeing_cons]
    split_ifs with h
    · have hrest := ih (d.feed ctx t) draft
      have hnext : d.after (d.feed ctx t) (d.next ctx t) = d.after (d.feed ctx t) draft := by rw [h]
      change d.feedAll (d.feed ctx t) (draft :: drafts.take _) = (d.after (d.feed ctx t) (d.next ctx t) _).1
      rw [hnext]
      exact hrest
    · rfl

end Decoder

end Pegainfer.Lib
