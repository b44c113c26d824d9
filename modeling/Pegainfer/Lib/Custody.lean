/-
Custody of the entries of a table.

A table hands out entries by index: `none` marks an entry that is gone. Holders keep the index and the value they
expect there. `Holds l m` says that the holders' pairs `m` are what the table has, no index twice. A holder may take a
new entry, change or drop its own; nobody else's pair is disturbed.
-/
import Mathlib.Tactic

namespace Pegainfer.Lib

variable {α : Type*}

/-- the pairs `m` are entries of the table, at distinct indices -/
structure Holds (l : List (Option α)) (m : Multiset (ℕ × α)) : Prop where
  nodup : (m.map Prod.fst).Nodup
  entry : ∀ p ∈ m, l[p.1]? = some (some p.2)

namespace Holds

variable {l : List (Option α)} {m : Multiset (ℕ × α)} {i : ℕ} {a b : α}

theorem nil : Holds l 0 := ⟨by simp, by simp⟩

theorem lt (h : Holds l m) {p : ℕ × α} (hp : p ∈ m) : p.1 < l.length :=
  (List.getElem?_eq_some_iff.1 (h.entry p hp)).1

theorem get (h : Holds l ((i, a) ::ₘ m)) : l[i]? = some (some a) := h.entry _ (Multiset.mem_cons_self _ _)

theorem tail (h : Holds l ((i, a) ::ₘ m)) : Holds l m := by
  refine ⟨?_, fun p hp => h.entry p (Multiset.mem_cons_of_mem hp)⟩
  have := h.nodup
  rw [Multiset.map_cons, Multiset.nodup_cons] at this
  exact this.2

theorem notMem_tail (h : Holds l ((i, a) ::ₘ m)) : i ∉ m.map Prod.fst := by
  have := h.nodup
  rw [Multiset.map_cons, Multiset.nodup_cons] at this
  exact this.1

/-- a write to an index nobody holds -/
theorem set_other (h : Holds l m) (hi : i ∉ m.map Prod.fst) (o : Option α) : Holds (l.set i o) m := by
  refine ⟨h.nodup, ?_⟩
  intro p hp
  have hne : i ≠ p.1 := by
    rintro rfl
    exact hi (Multiset.mem_map_of_mem Prod.fst hp)
  rw [List.getElem?_set_ne hne]
  exact h.entry p hp

/-- the holder drops its entry -/
theorem drop (h : Holds l ((i, a) ::ₘ m)) (o : Option α) : Holds (l.set i o) m := h.tail.set_other h.notMem_tail o

/-- the holder changes its entry -/
theorem change (h : Holds l ((i, a) ::ₘ m)) (b : α) : Holds (l.set i (some b)) ((i, b) ::ₘ m) := by
  refine ⟨?_, ?_⟩
  · have := h.nodup
    rw [Multiset.map_cons] at this ⊢
    exact this
  · intro p hp
    rcases Multiset.mem_cons.1 hp with rfl | hp
    · exact List.getElem?_set_self (h.lt (Multiset.mem_cons_self _ _))
    · exact (h.drop (some b)).entry p hp

/-- an entry is added that nobody holds -/
theorem concat (h : Holds l m) (o : Option α) : Holds (l ++ [o]) m := by
  refine ⟨h.nodup, ?_⟩
  intro p hp
  rw [List.getElem?_append_left (h.lt hp)]
  exact h.entry p hp

/-- a holder takes a new entry -/
theorem take (h : Holds l m) (a : α) : Holds (l ++ [some a]) ((l.length, a) ::ₘ m) := by
  refine ⟨?_, ?_⟩
  · rw [Multiset.map_cons, Multiset.nodup_cons]
    refine ⟨?_, h.nodup⟩
    intro hmem
    obtain ⟨p, hp, heq⟩ := Multiset.mem_map.1 hmem
    exact absurd (h.lt hp) (by rw [heq]; exact lt_irrefl _)
  · intro p hp
    rcases Multiset.mem_cons.1 hp with rfl | hp
    · simp
    · exact (h.concat (some a)).entry p hp

end Holds

end Pegainfer.Lib
