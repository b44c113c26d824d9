/-
The conversation-tail prefix cache: where a new prompt may resume, and which tails stay.

An entry is a captured prompt with the pages its window and its whole length had then. A resume point is the longest
common prefix with the new prompt, refused when the window there would begin before the captured one.
- `resumePoint_iff`: a resume point is a common prefix short of the prompt, at least `MIN_RESUME_TOKENS` long, whose
  origin the captured window reaches.
- `resolve_best`: what is resolved is an entry's resume point, and no entry has a larger one.
- `insert_spec`, `evictLru_cases`: which entries leave, and that the cache stays within its cap.
-/
import Mathlib.Tactic
import Pegainfer.Gemma4.Account
import Pegainfer.Lib.SwapRemove

set_option linter.unusedSectionVars false

namespace Pegainfer.Gemma4

open Pegainfer.Kvbm (divCeil)
open Pegainfer.Lib

variable {T : Type} [DecidableEq T]

def MIN_RESUME_TOKENS : ℕ := 64

/-- a captured tail; its pages are the cache's own -/
structure CachedKv (T : Type) where
  tokenIds : List T
  globalPages : List ℕ
  /-- the window's pages, front to back, one to a reservation -/
  localPages : List ℕ
  localOrigin : ℕ
  id : ℕ
  stamp : ℕ
deriving DecidableEq, Repr

/-- the length of the longest common prefix -/
def commonPrefix : List T → List T → ℕ
  | a :: as, b :: bs => if a = b then commonPrefix as bs + 1 else 0
  | _, _ => 0

attribute [grind =] commonPrefix

/-- where `prompt` may resume from a captured tail -/
def resumePoint (tokenIds : List T) (localOrigin window : ℕ) (prompt : List T) : Option ℕ :=
  if prompt.length = 0 then none
  else
    let resume := min (commonPrefix tokenIds prompt) (prompt.length - 1)
    let floor := max (frontierReaching localOrigin window LOCAL_PAGE_SIZE) MIN_RESUME_TOKENS
    if floor ≤ resume then some resume else none

def CachedKv.resume (e : CachedKv T) (window : ℕ) (prompt : List T) : Option ℕ :=
  resumePoint e.tokenIds e.localOrigin window prompt

structure PrefixCache (T : Type) where
  entries : List (CachedKv T)
  cap : ℕ
  window : ℕ
  clock : ℕ
deriving DecidableEq, Repr

/-- global pages budgeted for an entry: half the serving context -/
def entryGlobalPages (maxContext : ℕ) : ℕ := divCeil maxContext GLOBAL_PAGE_SIZE / 2

/-- the index and resume point of the last entry with the largest resume point -/
def pickResume (window : ℕ) (prompt : List T) : List (CachedKv T) → Option (ℕ × ℕ)
  | [] => none
  | e :: entries =>
    match e.resume window prompt, pickResume window prompt entries with
    | none, rest => rest.map fun r => (r.1 + 1, r.2)
    | some t, none => some (0, t)
    | some t, some r => if t ≤ r.2 then some (r.1 + 1, r.2) else some (0, t)

/-- the index and stamp of the first entry with the smallest stamp -/
def lruIndex : List (CachedKv T) → Option (ℕ × ℕ)
  | [] => none
  | e :: entries =>
    match lruIndex entries with
    | none => some (0, e.stamp)
    | some r => if e.stamp ≤ r.2 then some (0, e.stamp) else some (r.1 + 1, r.2)

namespace PrefixCache

def new (cap window : ℕ) : PrefixCache T := ⟨[], cap, window, 0⟩

/-- the best resumable point across the tails, its entry marked as used -/
def resolve (c : PrefixCache T) (prompt : List T) : Option (CachedKv T × ℕ) × PrefixCache T :=
  let clock := c.clock + 1
  match pickResume c.window prompt c.entries with
  | none => (none, { c with clock := clock })
  | some (index, t) =>
    match c.entries[index]? with
    | none => (none, { c with clock := clock })
    | some e =>
      let e := { e with stamp := clock }
      (some (e, t), { c with entries := c.entries.set index e, clock := clock })

/-- drop the least recently used entry; the entry dropped comes back with the cache -/
def evictLru (c : PrefixCache T) : Option (CachedKv T) × PrefixCache T :=
  match lruIndex c.entries with
  | none => (none, c)
  | some (index, _) => (c.entries[index]?, { c with entries := swapRemove c.entries index })

/-- insert a captured tail in its ancestor's place; the entries dropped come back with the cache -/
def insert (c : PrefixCache T) (entry : CachedKv T) (ancestor : Option ℕ) : List (CachedKv T) × PrefixCache T :=
  let clock := c.clock + 1
  let entry := { entry with stamp := clock, id := clock }
  let stale : CachedKv T → Bool := fun e => decide (ancestor = some e.id)
  let kept := { c with entries := c.entries.filter fun e => !stale e, clock := clock }
  let evicted := if c.cap ≤ kept.entries.length then kept.evictLru else (none, kept)
  (c.entries.filter stale ++ evicted.1.toList, { evicted.2 with entries := evicted.2.entries ++ [entry] })

end PrefixCache

/-! ## Resume points -/

theorem commonPrefix_take (a b : List T) : a.take (commonPrefix a b) = b.take (commonPrefix a b) := by
  induction a generalizing b with
  | nil => cases b <;> rfl
  | cons x a ih =>
    cases b with
    | nil => rfl
    | cons y b =>
      simp only [commonPrefix]
      split_ifs with hxy
      · rw [List.take_succ_cons, List.take_succ_cons, hxy, ih b]
      · rfl

theorem commonPrefix_le_left (a b : List T) : commonPrefix a b ≤ a.length := by
  induction a generalizing b with
  | nil => cases b <;> exact Nat.le_refl _
  | cons x a ih =>
    cases b with
    | nil => exact Nat.zero_le _
    | cons y b =>
      simp only [commonPrefix]
      split_ifs
      · exact Nat.succ_le_succ (ih b)
      · exact Nat.zero_le _

/-- a common prefix is no longer than the longest one -/
theorem le_commonPrefix {a b : List T} {t : ℕ} (ha : t ≤ a.length) (h : a.take t = b.take t) (hb : t ≤ b.length) :
    t ≤ commonPrefix a b := by
  induction a generalizing b t with
  | nil => exact ha.trans (Nat.zero_le _)
  | cons x a ih =>
    cases t with
    | zero => exact Nat.zero_le _
    | succ t =>
      cases b with
      | nil => exact absurd hb (Nat.not_succ_le_zero t)
      | cons y b =>
        rw [List.take_succ_cons, List.take_succ_cons, List.cons.injEq] at h
        rw [commonPrefix, if_pos h.1]
        exact Nat.succ_le_succ (ih (Nat.le_of_succ_le_succ ha) h.2 (Nat.le_of_succ_le_succ hb))

/-- **Resume points.** -/
theorem resumePoint_iff {tokenIds prompt : List T} {localOrigin window t : ℕ} :
    resumePoint tokenIds localOrigin window prompt = some t ↔
      t = min (commonPrefix tokenIds prompt) (prompt.length - 1) ∧ 0 < prompt.length ∧ MIN_RESUME_TOKENS ≤ t ∧
        localOrigin ≤ originPagesAt t window LOCAL_PAGE_SIZE := by
  rw [origin_reached (by decide)]
  unfold resumePoint
  dsimp only
  split_ifs with hempty hfloor
  · simp [hempty]
  · rw [max_le_iff] at hfloor
    constructor
    · intro h
      cases h
      exact ⟨rfl, Nat.pos_of_ne_zero hempty, hfloor.2, hfloor.1⟩
    · rintro ⟨rfl, -, -, -⟩
      rfl
  · constructor
    · intro h
      cases h
    · rintro ⟨rfl, -, hmin, horigin⟩
      exact absurd (max_le horigin hmin) hfloor

/-! ## Resolution -/

theorem pickResume_spec {window : ℕ} {prompt : List T} {entries : List (CachedKv T)} {index t : ℕ}
    (h : pickResume window prompt entries = some (index, t)) :
    ∃ e, entries[index]? = some e ∧ e.resume window prompt = some t := by
  induction entries generalizing index t with
  | nil => cases h
  | cons e entries ih =>
    simp only [pickResume] at h
    split at h
    · rename_i he
      rcases hrest : pickResume window prompt entries with _ | ⟨i, t'⟩
      · rw [hrest] at h
        cases h
      · rw [hrest] at h
        cases h
        obtain ⟨e', he', hr⟩ := ih hrest
        exact ⟨e', by rw [List.getElem?_cons_succ]; exact he', hr⟩
    · rename_i t' he hrest
      cases h
      exact ⟨e, rfl, he⟩
    · rename_i t' r he hrest
      obtain ⟨i, t''⟩ := r
      split_ifs at h with hle
      · cases h
        obtain ⟨e', he', hr⟩ := ih hrest
        exact ⟨e', by rw [List.getElem?_cons_succ]; exact he', hr⟩
      · cases h
        exact ⟨e, rfl, he⟩

theorem pickResume_max {window : ℕ} {prompt : List T} {entries : List (CachedKv T)} {e : CachedKv T} {t : ℕ}
    (he : e ∈ entries) (ht : e.resume window prompt = some t) :
    ∃ r, pickResume window prompt entries = some r ∧ t ≤ r.2 := by
  induction entries with
  | nil => cases he
  | cons e' entries ih =>
    simp only [pickResume]
    rcases List.mem_cons.1 he with rfl | he
    · rw [ht]
      cases pickResume window prompt entries with
      | none => exact ⟨_, rfl, le_rfl⟩
      | some r =>
        dsimp only
        split_ifs with hle
        · exact ⟨_, rfl, hle⟩
        · exact ⟨_, rfl, le_rfl⟩
    · obtain ⟨r, hr, hle⟩ := ih he
      rw [hr]
      cases e'.resume window prompt with
      | none => exact ⟨_, rfl, hle⟩
      | some t' =>
        dsimp only
        split_ifs with hle'
        · exact ⟨_, rfl, hle⟩
        · exact ⟨_, rfl, hle.trans (Nat.le_of_not_le hle')⟩

namespace PrefixCache

variable {c c' : PrefixCache T} {prompt : List T} {e : CachedKv T} {t : ℕ}

/-- what resolving returns and leaves: an entry with a resume point, its stamp renewed -/
theorem resolve_some (h : c.resolve prompt = (some (e, t), c')) :
    ∃ index e₀, c.entries[index]? = some e₀ ∧ e₀.resume c.window prompt = some t ∧
      e = { e₀ with stamp := c.clock + 1 } ∧
      c' = { c with entries := c.entries.set index e, clock := c.clock + 1 } ∧
      ∀ e' ∈ c.entries, ∀ t', e'.resume c.window prompt = some t' → t' ≤ t := by
  unfold resolve at h
  dsimp only at h
  split at h
  · cases h
  · rename_i index t₀ hpick
    obtain ⟨e₀, he₀, hr⟩ := pickResume_spec hpick
    rw [he₀] at h
    cases h
    refine ⟨index, e₀, he₀, hr, rfl, rfl, fun e' he' t' ht' => ?_⟩
    obtain ⟨r, hr', hle⟩ := pickResume_max he' ht'
    rw [hpick] at hr'
    cases hr'
    exact hle

theorem resolve_none (h : c.resolve prompt = (none, c')) : c' = { c with clock := c.clock + 1 } := by
  unfold resolve at h
  dsimp only at h
  split at h
  · cases h
    rfl
  · rename_i index t₀ hpick
    obtain ⟨e₀, he₀, -⟩ := pickResume_spec hpick
    rw [he₀] at h
    cases h

/-- **Resolution.** The resume point is a proper prefix of the prompt that the entry shares, and no entry has a larger
one. -/
theorem resolve_best (h : c.resolve prompt = (some (e, t), c')) :
    t ≤ commonPrefix e.tokenIds prompt ∧ t < prompt.length ∧ MIN_RESUME_TOKENS ≤ t ∧
      e.localOrigin ≤ originPagesAt t c.window LOCAL_PAGE_SIZE ∧
      ∀ e' ∈ c.entries, ∀ t', e'.resume c.window prompt = some t' → t' ≤ t := by
  obtain ⟨index, e₀, -, hr, rfl, -, hmax⟩ := resolve_some h
  obtain ⟨ht, hpos, hmin, horigin⟩ := resumePoint_iff.1 hr
  have hle := min_le_left (commonPrefix e₀.tokenIds prompt) (prompt.length - 1)
  have hlt := min_le_right (commonPrefix e₀.tokenIds prompt) (prompt.length - 1)
  refine ⟨?_, ?_, hmin, horigin, hmax⟩
  · rw [ht]
    exact hle
  · omega

/-! ## Eviction and insertion -/

theorem lruIndex_lt {entries : List (CachedKv T)} {r : ℕ × ℕ} (h : lruIndex entries = some r) :
    r.1 < entries.length := by
  induction entries generalizing r with
  | nil => cases h
  | cons e entries ih =>
    simp only [lruIndex] at h
    split at h
    · cases h
      exact Nat.zero_lt_succ _
    · rename_i r' hr'
      split_ifs at h
      · cases h
        exact Nat.zero_lt_succ _
      · cases h
        exact Nat.succ_lt_succ (ih hr')

theorem lruIndex_none {entries : List (CachedKv T)} : lruIndex entries = none ↔ entries = [] := by
  cases entries with
  | nil => exact ⟨fun _ => rfl, fun _ => rfl⟩
  | cons e entries =>
    refine ⟨fun h => ?_, fun h => by cases h⟩
    simp only [lruIndex] at h
    split at h
    · cases h
    · split_ifs at h

/-- an eviction takes one entry out, if there is one -/
theorem evictLru_cases (c : PrefixCache T) :
    (c.entries = [] ∧ c.evictLru = (none, c)) ∨
      ∃ e entries, c.evictLru = (some e, { c with entries := entries }) ∧ c.entries.Perm (e :: entries) := by
  unfold evictLru
  cases h : lruIndex c.entries with
  | none => exact Or.inl ⟨lruIndex_none.1 h, rfl⟩
  | some r =>
    have hlt := lruIndex_lt h
    refine Or.inr ⟨c.entries[r.1], _, ?_, swapRemove_perm c.entries r.1 _ (List.getElem?_eq_getElem hlt)⟩
    dsimp only
    rw [List.getElem?_eq_getElem hlt]

/-- an insertion splits the old entries into those dropped and those that stay beside the new one -/
theorem insert_spec (c : PrefixCache T) (entry : CachedKv T) (ancestor : Option ℕ) :
    ∃ stay, c.entries.Perm ((c.insert entry ancestor).1 ++ stay) ∧
      (c.insert entry ancestor).2 = { c with
        entries := stay ++ [{ entry with stamp := c.clock + 1, id := c.clock + 1 }], clock := c.clock + 1 } ∧
      (0 < c.cap → c.entries.length ≤ c.cap → stay.length < c.cap) := by
  unfold insert
  dsimp only
  set stale : CachedKv T → Bool := fun e => decide (ancestor = some e.id)
  have hsplit := List.filter_append_perm stale c.entries
  split_ifs with hfull
  · rcases evictLru_cases { c with entries := c.entries.filter fun e => !stale e, clock := c.clock + 1 } with
      ⟨hempty, hev⟩ | ⟨e, entries, hev, hperm⟩
    · rw [hev]
      refine ⟨_, ?_, rfl, fun hcap _ => ?_⟩
      · simpa using hsplit.symm
      · dsimp only at hempty hfull ⊢
        rw [hempty] at hfull ⊢
        exact hcap
    · rw [hev]
      dsimp only at hperm ⊢
      refine ⟨entries, ?_, rfl, fun _ hle => ?_⟩
      · refine hsplit.symm.trans ?_
        rw [List.append_assoc]
        exact hperm.append_left _
      · have hlen := hperm.length_eq
        have hfilter := List.length_filter_le (fun e => !stale e) c.entries
        rw [List.length_cons] at hlen
        omega
  · refine ⟨_, ?_, rfl, fun _ _ => not_le.1 hfull⟩
    simpa using hsplit.symm

end PrefixCache

end Pegainfer.Gemma4
