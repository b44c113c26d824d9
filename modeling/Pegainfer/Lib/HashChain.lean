/-
Chains of keys over the blocks of a sequence.

A sequence is cut into blocks of one size, a tail that fills no block is left out, and each block is hashed with the key
of the block before it.
- `chain_take`, `chain_starts`: the keys of the first blocks are the first keys.
- `chain_identifies`: two keys at the same place are equal exactly when the blocks up to there are, provided the hash
  tells apart the links met.
- `chunksExact_starts`, `take_chunksExact_eq_iff`: the same for the elements under the blocks.
-/
import Mathlib.Tactic

namespace Pegainfer.Lib

variable {H B α : Type} {link : H → B → H} {root root' key : H} {s t : List B} {i n : ℕ}

/-! ## Keys -/

/-- every block hashed with the key before it -/
def chain (link : H → B → H) : H → List B → List H
  | _, [] => []
  | parent, block :: blocks => link parent block :: chain link (link parent block) blocks

/-- what is hashed along the chain: each block with the key before it -/
def chainLinks (link : H → B → H) : H → List B → List (H × B)
  | _, [] => []
  | parent, block :: blocks => (parent, block) :: chainLinks link (link parent block) blocks

@[simp] theorem length_chain : (chain link root s).length = s.length := by
  induction s generalizing root with
  | nil => rfl
  | cons block s ih => rw [chain, List.length_cons, List.length_cons, ih]

theorem block_of_mem_chainLinks {x : H × B} (h : x ∈ chainLinks link root s) : x.2 ∈ s := by
  induction s generalizing root with
  | nil => cases h
  | cons block s ih =>
    rcases List.mem_cons.1 h with rfl | h
    · exact List.mem_cons_self
    · exact List.mem_cons_of_mem _ (ih h)

theorem chain_take (n : ℕ) : chain link root (s.take n) = (chain link root s).take n := by
  induction s generalizing root n with
  | nil => simp [chain]
  | cons block s ih =>
    cases n with
    | zero => rfl
    | succ n => rw [List.take_succ_cons, chain, chain, List.take_succ_cons, ih]

/-- the keys of the first blocks are the first keys -/
theorem chain_starts (h : s <+: t) : chain link root s <+: chain link root t := by
  rw [List.prefix_iff_eq_take.1 h, chain_take]
  exact List.take_prefix _ _

/-- equal keys at one place: equal roots, and equal blocks up to there -/
theorem chain_reflects
    (hinj : ∀ x ∈ chainLinks link root s, ∀ y ∈ chainLinks link root' t, link x.1 x.2 = link y.1 y.2 → x = y)
    (hs : (chain link root s)[i]? = some key) (ht : (chain link root' t)[i]? = some key) :
    root = root' ∧ s.take (i + 1) = t.take (i + 1) := by
  induction i generalizing root root' s t with
  | zero =>
    rcases s with _ | ⟨block, s⟩
    · cases hs
    rcases t with _ | ⟨block', t⟩
    · cases ht
    have hkey := Option.some.inj (hs.trans ht.symm)
    obtain ⟨rfl, rfl⟩ := Prod.mk.inj
      (hinj (root, block) List.mem_cons_self (root', block') List.mem_cons_self hkey)
    exact ⟨rfl, rfl⟩
  | succ i ih =>
    rcases s with _ | ⟨block, s⟩
    · cases hs
    rcases t with _ | ⟨block', t⟩
    · cases ht
    have hlater := fun x hx y hy => hinj x (List.mem_cons_of_mem _ hx) y (List.mem_cons_of_mem _ hy)
    obtain ⟨hkey, htake⟩ := ih hlater hs ht
    -- the keys handed on agree, so the links they come from do
    obtain ⟨rfl, rfl⟩ := Prod.mk.inj
      (hinj (root, block) List.mem_cons_self (root', block') List.mem_cons_self hkey)
    exact ⟨rfl, by rw [List.take_succ_cons, List.take_succ_cons, htake]⟩

/-- **Keys identify what was hashed.** -/
theorem chain_identifies
    (hinj : ∀ x ∈ chainLinks link root s, ∀ y ∈ chainLinks link root t, link x.1 x.2 = link y.1 y.2 → x = y) :
    (∃ key, (chain link root s)[i]? = some key ∧ (chain link root t)[i]? = some key) ↔
      i < s.length ∧ i < t.length ∧ s.take (i + 1) = t.take (i + 1) := by
  constructor
  · rintro ⟨key, hs, ht⟩
    obtain ⟨his, -⟩ := List.getElem?_eq_some_iff.1 hs
    obtain ⟨hit, -⟩ := List.getElem?_eq_some_iff.1 ht
    rw [length_chain] at his hit
    exact ⟨his, hit, (chain_reflects hinj hs ht).2⟩
  · rintro ⟨his, -, htake⟩
    have hkeys : (chain link root s).take (i + 1) = (chain link root t).take (i + 1) := by
      rw [← chain_take, ← chain_take, htake]
    have hin : i < (chain link root s).length := by rwa [length_chain]
    refine ⟨(chain link root s)[i], List.getElem?_eq_getElem hin, ?_⟩
    rw [← List.getElem?_take_of_lt (Nat.lt_succ_self i), ← hkeys, List.getElem?_take_of_lt (Nat.lt_succ_self i),
      List.getElem?_eq_getElem hin]

/-! ## Blocks -/

/-- the full blocks of `size` elements, in order; the tail is left out -/
def chunksExact (size : ℕ) (l : List α) : List (List α) :=
  (List.range (l.length / size)).map fun i => (l.drop (i * size)).take size

variable {size : ℕ} {l l' : List α}

@[simp] theorem length_chunksExact : (chunksExact size l).length = l.length / size := by simp [chunksExact]

theorem getElem_chunksExact (h : i < (chunksExact size l).length) :
    (chunksExact size l)[i] = (l.drop (i * size)).take size := by simp [chunksExact]

/-- a block in range is full -/
theorem block_fits (h : i < l.length / size) : i * size + size ≤ l.length := by
  have hle : (i + 1) * size ≤ l.length := (Nat.mul_le_mul_right size h).trans (Nat.div_mul_le_self _ _)
  rwa [Nat.succ_mul] at hle

theorem length_of_mem_chunksExact {block : List α} (h : block ∈ chunksExact size l) : block.length = size := by
  obtain ⟨i, hi, rfl⟩ := List.mem_map.1 h
  have hfits := block_fits (List.mem_range.1 hi)
  rw [List.length_take, List.length_drop]
  omega

theorem chunksExact_starts (h : l <+: l') : chunksExact size l <+: chunksExact size l' := by
  obtain ⟨tail, rfl⟩ := h
  rw [List.prefix_iff_getElem]
  refine ⟨?_, fun i hi => ?_⟩
  · rw [length_chunksExact, length_chunksExact, List.length_append]
    exact Nat.div_le_div_right (Nat.le_add_right _ _)
  · rw [getElem_chunksExact, getElem_chunksExact]
    rw [length_chunksExact] at hi
    have hfits := block_fits hi
    rw [List.drop_append_of_le_length (by omega), List.take_append_of_le_length (by rw [List.length_drop]; omega)]

/-- the first blocks hold the first elements -/
theorem flatten_take_chunksExact (h : n ≤ l.length / size) :
    ((chunksExact size l).take n).flatten = l.take (n * size) := by
  induction n with
  | zero => simp
  | succ n ih =>
    have hin : n < (chunksExact size l).length := by rwa [length_chunksExact]
    rw [List.take_succ_eq_append_getElem hin, List.flatten_append, ih (by omega), getElem_chunksExact, Nat.succ_mul,
      List.take_add]
    simp

theorem take_chunksExact_eq_iff (h : n ≤ l.length / size) (h' : n ≤ l'.length / size) :
    (chunksExact size l).take n = (chunksExact size l').take n ↔ l.take (n * size) = l'.take (n * size) := by
  constructor
  · intro heq
    rw [← flatten_take_chunksExact h, ← flatten_take_chunksExact h', heq]
  · intro heq
    refine List.ext_getElem (by simp [h, h']) fun i hi hi' => ?_
    rw [List.getElem_take, List.getElem_take, getElem_chunksExact, getElem_chunksExact]
    rw [List.length_take, length_chunksExact] at hi
    have hle : i * size + size ≤ n * size := by
      rw [← Nat.succ_mul]
      exact Nat.mul_le_mul_right size (by omega)
    -- both blocks are cut from the elements that agree
    have hcut : ∀ m : List α, (m.drop (i * size)).take size = ((m.take (n * size)).drop (i * size)).take size := by
      intro m
      rw [List.drop_take, List.take_take, Nat.min_eq_left (by omega)]
    rw [hcut l, hcut l', heq]

end Pegainfer.Lib
