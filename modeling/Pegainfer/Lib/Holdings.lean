/-
Units of a shared pool, and the holders of a list that hold them.

`heldUnits f l` collects what each entry of `l` holds. A pool whose free units and held units make up a fixed multiset
without duplicates hands no unit out twice; changing one entry changes the held units by that entry alone.
- `heldUnits_set`, `heldUnits_eraseIdx`, `heldUnits_append`: one entry replaced, dropped, added.
- `heldUnits_apart`: two entries of a list without duplicates in its held units share no unit.
-/
import Mathlib.Tactic

namespace Pegainfer.Lib

variable {α β : Type*}

/-- everything the entries of `l` hold -/
def heldUnits (f : α → List β) (l : List α) : Multiset β := (l.map fun a => (f a : Multiset β)).sum

variable {f : α → List β} {l l' : List α} {i j : ℕ} {a b : α}

@[simp] theorem heldUnits_nil : heldUnits f [] = 0 := rfl

@[simp] theorem heldUnits_cons (a : α) (l : List α) : heldUnits f (a :: l) = (f a : Multiset β) + heldUnits f l := rfl

@[simp] theorem heldUnits_append (l l' : List α) : heldUnits f (l ++ l') = heldUnits f l + heldUnits f l' := by
  simp [heldUnits]

/-- an entry of a list splits it, and so do the lists that replace or drop it -/
theorem split_at (h : l[i]? = some a) :
    ∃ pre post, l = pre ++ a :: post ∧ (∀ b, l.set i b = pre ++ b :: post) ∧ l.eraseIdx i = pre ++ post := by
  induction l generalizing i with
  | nil => simp at h
  | cons x l ih =>
    cases i with
    | zero =>
      simp only [List.getElem?_cons_zero, Option.some.injEq] at h
      subst h
      exact ⟨[], l, rfl, fun _ => rfl, rfl⟩
    | succ i =>
      obtain ⟨pre, post, hl, hset, herase⟩ := ih (by simpa using h)
      exact ⟨x :: pre, post, by rw [hl]; rfl, fun b => by rw [List.set_cons_succ, hset b]; rfl,
        by rw [List.eraseIdx_cons_succ, herase]; rfl⟩

/-- one entry is replaced -/
theorem heldUnits_set (h : l[i]? = some a) (b : α) :
    heldUnits f (l.set i b) + (f a : Multiset β) = heldUnits f l + (f b : Multiset β) := by
  obtain ⟨pre, post, hl, hset, -⟩ := split_at h
  rw [hset b, hl]
  simp only [heldUnits_append, heldUnits_cons]
  abel

/-- one entry is dropped -/
theorem heldUnits_eraseIdx (h : l[i]? = some a) :
    heldUnits f (l.eraseIdx i) + (f a : Multiset β) = heldUnits f l := by
  obtain ⟨pre, post, hl, -, herase⟩ := split_at h
  rw [herase, hl]
  simp only [heldUnits_append, heldUnits_cons]
  abel

theorem mem_heldUnits {x : β} : x ∈ heldUnits f l ↔ ∃ a ∈ l, x ∈ f a := by
  induction l with
  | nil => simp
  | cons a l ih => simp [ih]

/-- entries kept by a test, and the others -/
theorem heldUnits_filter (p : α → Bool) (l : List α) :
    heldUnits f (l.filter p) + heldUnits f (l.filter fun a => !p a) = heldUnits f l := by
  induction l with
  | nil => rfl
  | cons a l ih =>
    cases hp : p a with
    | true =>
      simp only [List.filter_cons, hp, if_true, Bool.not_true, Bool.false_eq_true, if_false, heldUnits_cons, ← ih]
      abel
    | false =>
      simp only [List.filter_cons, hp, Bool.false_eq_true, if_false, Bool.not_false, if_true, heldUnits_cons, ← ih]
      abel

theorem heldUnits_perm (h : l.Perm l') : heldUnits f l = heldUnits f l' := (h.map _).sum_eq

/-- two entries share no unit -/
theorem heldUnits_apart (hn : (heldUnits f l).Nodup) (hi : l[i]? = some a) (hj : l[j]? = some b) (hij : i ≠ j) {x : β}
    (ha : x ∈ f a) : x ∉ f b := by
  intro hb
  have hle := heldUnits_eraseIdx (f := f) hi
  rw [← hle, Multiset.nodup_add] at hn
  have hmem : x ∈ heldUnits f (l.eraseIdx i) := by
    refine mem_heldUnits.2 ⟨b, ?_, hb⟩
    refine List.mem_eraseIdx_iff_getElem?.2 ⟨j, Ne.symm hij, hj⟩
  exact Multiset.disjoint_left.1 hn.2.2 hmem (Multiset.mem_coe.2 ha)

/-- an entry's own units are distinct -/
theorem heldUnits_nodup (hn : (heldUnits f l).Nodup) (h : l[i]? = some a) : (f a).Nodup := by
  rw [← heldUnits_eraseIdx (f := f) h, Multiset.nodup_add] at hn
  exact Multiset.coe_nodup.1 hn.2.1

end Pegainfer.Lib
