/-
Books over two classes of open entries.

Entries are keys with a standing: open in the first class (`some false`), open in the second (`some true`), or not open.
`Books w r f` says that the multisets `w` and `r` list exactly the open keys of each class, each key once. A system that
keeps its open entries in several queues has `w` and `r` as the sums of its queues, and a queue move is an equality
of multisets.
- `open_entry`, `enter`, `close_first`, `close_second`: what one change of a standing does to the lists.
-/
import Mathlib.Tactic

namespace Pegainfer.Lib

variable {K : Type*}

/-- `w` and `r` list the open keys of each class -/
structure Books (w r : Multiset K) (f : K → Option Bool) : Prop where
  nodup : (w + r).Nodup
  first : ∀ k, k ∈ w ↔ f k = some false
  second : ∀ k, k ∈ r ↔ f k = some true

namespace Books

variable {w r w' r' : Multiset K} {f : K → Option Bool} {k : K}

theorem nil : Books (0 : Multiset K) 0 fun _ => none := ⟨by simp, by simp, by simp⟩

theorem congr (h : Books w r f) (hw : w' = w) (hr : r' = r) : Books w' r' f := by
  rw [hw, hr]
  exact h

theorem mem_iff (h : Books w r f) (k : K) : k ∈ w + r ↔ f k ≠ none := by
  rw [Multiset.mem_add, h.first, h.second]
  cases f k with
  | none => simp
  | some b => cases b <;> simp

theorem second_standing (h : Books w (k ::ₘ r) f) : f k = some true := (h.second k).1 (Multiset.mem_cons_self k r)

theorem first_standing (h : Books (k ::ₘ w) r f) : f k = some false := (h.first k).1 (Multiset.mem_cons_self k w)

variable [DecidableEq K]

/-- a new key is opened in the first class -/
theorem open_entry (h : Books w r f) (hk : f k = none) : Books (k ::ₘ w) r (Function.update f k (some false)) := by
  have hnew : k ∉ w + r := by
    rw [h.mem_iff]
    simp [hk]
  refine ⟨by simpa [Multiset.cons_add] using ⟨by simpa using hnew, h.nodup⟩, fun j => ?_, fun j => ?_⟩
  · by_cases hj : j = k
    · simp [hj]
    · rw [Function.update_of_ne hj, Multiset.mem_cons, h.first]
      simp [hj]
  · by_cases hj : j = k
    · subst hj
      have : j ∉ r := fun hr => hnew (Multiset.mem_add.2 (Or.inr hr))
      simp [this]
    · rw [Function.update_of_ne hj, h.second]

/-- a key of the first class is closed -/
theorem close_first (h : Books (k ::ₘ w) r f) : Books w r (Function.update f k none) := by
  have hn := h.nodup
  rw [Multiset.cons_add, Multiset.nodup_cons] at hn
  refine ⟨hn.2, fun j => ?_, fun j => ?_⟩
  · by_cases hj : j = k
    · subst hj
      simpa using fun hw => hn.1 (Multiset.mem_add.2 (Or.inl hw))
    · rw [Function.update_of_ne hj, ← h.first, Multiset.mem_cons]
      simp [hj]
  · by_cases hj : j = k
    · subst hj
      simpa using fun hr => hn.1 (Multiset.mem_add.2 (Or.inr hr))
    · rw [Function.update_of_ne hj, h.second]

/-- a key of the second class is closed -/
theorem close_second (h : Books w (k ::ₘ r) f) : Books w r (Function.update f k none) := by
  have hn := h.nodup
  rw [Multiset.add_cons, Multiset.nodup_cons] at hn
  refine ⟨hn.2, fun j => ?_, fun j => ?_⟩
  · by_cases hj : j = k
    · subst hj
      simpa using fun hw => hn.1 (Multiset.mem_add.2 (Or.inl hw))
    · rw [Function.update_of_ne hj, h.first]
  · by_cases hj : j = k
    · subst hj
      simpa using fun hr => hn.1 (Multiset.mem_add.2 (Or.inr hr))
    · rw [Function.update_of_ne hj, ← h.second, Multiset.mem_cons]
      simp [hj]

/-- a key of the first class enters the second -/
theorem enter (h : Books (k ::ₘ w) r f) : Books w (k ::ₘ r) (Function.update f k (some true)) := by
  have hn := h.nodup
  rw [Multiset.cons_add, ← Multiset.add_cons] at hn
  have hc := h.close_first
  refine ⟨hn, fun j => ?_, fun j => ?_⟩
  · by_cases hj : j = k
    · subst hj
      have := (hc.first j).not.2 (by simp)
      simp [this]
    · rw [Function.update_of_ne hj, hc.first, Function.update_of_ne hj]
  · by_cases hj : j = k
    · simp [hj]
    · rw [Function.update_of_ne hj, Multiset.mem_cons, hc.second, Function.update_of_ne hj]
      simp [hj]

end Books

end Pegainfer.Lib
