/-
Places that belong to owners.

A list gives each place its owner, or none. Runs of places are appended one after the other.
- `ownedPlaces`: the places of an owner, in order.
- `ownedPlaces_append_replicate`: a further run is added to the places of its owner, and to no other's.
- `ownedPlaces_append`: the places of two lists, one behind the other.
- `length_ownedPlaces`: there are as many as the owner occurs.
-/
import Mathlib.Tactic

namespace Pegainfer.Lib

variable {κ : Type*} [DecidableEq κ] {owners : List (Option κ)} {key : κ} {place n : ℕ}

def ownedPlaces (owners : List (Option κ)) (key : κ) : List ℕ :=
  (List.range owners.length).filter fun place => decide (owners[place]? = some (some key))

theorem mem_ownedPlaces : place ∈ ownedPlaces owners key ↔ owners[place]? = some (some key) := by
  rw [ownedPlaces, List.mem_filter, List.mem_range, decide_eq_true_iff]
  constructor
  · exact And.right
  · intro h
    exact ⟨(List.getElem?_eq_some_iff.1 h).1, h⟩

theorem ownedPlaces_pairwise : (ownedPlaces owners key).Pairwise (· < ·) := List.pairwise_lt_range.filter _

theorem lt_of_mem_ownedPlaces (h : place ∈ ownedPlaces owners key) : place < owners.length :=
  (List.getElem?_eq_some_iff.1 (mem_ownedPlaces.1 h)).1

/-- a further run of places -/
theorem ownedPlaces_append_replicate (owner : Option κ) :
    ownedPlaces (owners ++ List.replicate n owner) key =
      ownedPlaces owners key ++ if owner = some key then List.range' owners.length n else [] := by
  have hrange : List.range (owners ++ List.replicate n owner).length =
      List.range owners.length ++ List.range' owners.length n := by
    rw [List.length_append, List.length_replicate, List.range_add, List.range'_eq_map_range]
  rw [ownedPlaces, hrange, List.filter_append, ownedPlaces]
  congr 1
  · refine List.filter_congr fun place hplace => ?_
    rw [List.getElem?_append_left (List.mem_range.1 hplace)]
  · have hrun : ∀ place ∈ List.range' owners.length n,
        (owners ++ List.replicate n owner)[place]? = some owner := by
      intro place hplace
      obtain ⟨hle, hlt⟩ := List.mem_range'_1.1 hplace
      rw [List.getElem?_append_right hle, List.getElem?_replicate, if_pos (by omega)]
    split_ifs with howner
    · refine List.filter_eq_self.2 fun place hplace => ?_
      rw [hrun place hplace, howner]
      exact decide_eq_true rfl
    · refine List.filter_eq_nil_iff.2 fun place hplace => ?_
      rw [hrun place hplace, decide_eq_true_iff]
      exact fun h => howner (Option.some.inj h)

theorem ownedPlaces_append (owners more : List (Option κ)) (key : κ) :
    ownedPlaces (owners ++ more) key = ownedPlaces owners key ++ (ownedPlaces more key).map (owners.length + ·) := by
  induction more using List.reverseRecOn with
  | nil =>
    rw [List.append_nil]
    exact (List.append_nil _).symm
  | append_singleton more owner ih =>
    rw [← List.append_assoc, ← List.replicate_one, ownedPlaces_append_replicate, ownedPlaces_append_replicate, ih,
      List.append_assoc, List.map_append, List.length_append]
    split_ifs
    · rw [List.map_add_range']
    · rfl

theorem length_ownedPlaces : (ownedPlaces owners key).length = owners.count (some key) := by
  induction owners using List.reverseRecOn with
  | nil => rfl
  | append_singleton owners owner ih =>
    rw [← List.replicate_one, ownedPlaces_append_replicate, List.length_append, ih, List.count_append,
      List.count_replicate]
    by_cases howner : owner = some key
    · rw [if_pos howner, if_pos (beq_iff_eq.2 howner), List.length_range']
    · rw [if_neg howner, if_neg fun h => howner (beq_iff_eq.1 h), List.length_nil]

end Pegainfer.Lib
