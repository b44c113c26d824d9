/-
Segments laid end to end.

A segment is a start and a length. `Tiles start segments stop` says that the segments follow one another from `start` to
`stop` without a gap.
- `Tiles.existsUnique`: every place in between lies in exactly one of them.
- `Tiles.getLast_end`: the last one ends at `stop`.
-/
import Mathlib.Tactic

namespace Pegainfer.Lib

/-- the segments run from `start` to `stop`, each from where the one before it ends -/
inductive Tiles : ℕ → List (ℕ × ℕ) → ℕ → Prop
  | nil (start : ℕ) : Tiles start [] start
  | cons (start len : ℕ) {segments : List (ℕ × ℕ)} {stop : ℕ} (h : Tiles (start + len) segments stop) :
      Tiles start ((start, len) :: segments) stop

/-- a place lies in a segment -/
def Spans (segment : ℕ × ℕ) (x : ℕ) : Prop := segment.1 ≤ x ∧ x < segment.1 + segment.2

variable {start stop x : ℕ} {segments : List (ℕ × ℕ)} {segment : ℕ × ℕ}

namespace Tiles

theorem sum_lengths (h : Tiles start segments stop) : start + (segments.map Prod.snd).sum = stop := by
  induction h with
  | nil => rfl
  | cons start len h ih => rw [List.map_cons, List.sum_cons, ← Nat.add_assoc, ih]

theorem le (h : Tiles start segments stop) : start ≤ stop := h.sum_lengths ▸ Nat.le_add_right _ _

/-- every segment lies between the ends -/
theorem within (h : Tiles start segments stop) (hin : segment ∈ segments) :
    start ≤ segment.1 ∧ segment.1 + segment.2 ≤ stop := by
  induction h with
  | nil => exact absurd hin List.not_mem_nil
  | cons start len h ih =>
    rcases List.mem_cons.1 hin with rfl | hin
    · exact ⟨le_refl _, h.le⟩
    · obtain ⟨hstart, hstop⟩ := ih hin
      exact ⟨(Nat.le_add_right _ _).trans hstart, hstop⟩

theorem getLast_end (h : Tiles start segments stop) (hlast : segments.getLast? = some segment) :
    segment.1 + segment.2 = stop := by
  induction h with
  | nil => exact absurd hlast (by simp)
  | @cons start len segments stop h ih =>
    rcases segments with _ | ⟨next, segments⟩
    · obtain rfl := Option.some.inj hlast
      exact h.sum_lengths
    · exact ih (by rwa [List.getLast?_cons_cons] at hlast)

theorem covers (h : Tiles start segments stop) (hstart : start ≤ x) (hstop : x < stop) :
    ∃ (i : ℕ) (segment : ℕ × ℕ), segments[i]? = some segment ∧ Spans segment x := by
  induction h with
  | nil => exact absurd hstop (not_lt.2 hstart)
  | cons start len h ih =>
    rcases lt_or_ge x (start + len) with hlt | hge
    · exact ⟨0, _, rfl, hstart, hlt⟩
    · obtain ⟨i, segment, hi, hspans⟩ := ih hge hstop
      exact ⟨i + 1, segment, hi, hspans⟩

/-- two places of the list hold no place of the line in common -/
theorem spans_unique (h : Tiles start segments stop) : ∀ {i j : ℕ} {s t : ℕ × ℕ}, segments[i]? = some s →
    segments[j]? = some t → Spans s x → Spans t x → i = j := by
  induction h with
  | nil => exact fun hi => absurd hi (by simp)
  | cons start len h ih =>
    intro i j s t hi hj hs ht
    rcases i with _ | i <;> rcases j with _ | j
    · rfl
    · obtain rfl := Option.some.inj hi
      exact absurd hs.2 (not_lt.2 ((h.within (List.mem_of_getElem? hj)).1.trans ht.1))
    · obtain rfl := Option.some.inj hj
      exact absurd ht.2 (not_lt.2 ((h.within (List.mem_of_getElem? hi)).1.trans hs.1))
    · rw [ih hi hj hs ht]

/-- **Every place between the ends lies in exactly one segment.** -/
theorem existsUnique (h : Tiles start segments stop) (hstart : start ≤ x) (hstop : x < stop) :
    ∃! i : ℕ, ∃ segment : ℕ × ℕ, segments[i]? = some segment ∧ Spans segment x := by
  obtain ⟨i, segment, hi, hspans⟩ := h.covers hstart hstop
  refine ⟨i, ⟨segment, hi, hspans⟩, ?_⟩
  rintro j ⟨other, hj, hother⟩
  exact h.spans_unique hj hi hother hspans

end Tiles

end Pegainfer.Lib
