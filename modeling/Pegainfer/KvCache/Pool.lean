/-
The logical KV pool of pegainfer-kv-cache, owned by one thread.

The pool is a block store with a leaked padding block; a `RequestKv` is a sequence over it. Pool and handles belong to
one scheduler thread, so a dropped reference is released before the next operation: `runDrops` after every call.
- `Owned`: the store accounts for the handles that exist, and no release is due.
- `call_owned`, `drop_owned`: an operation keeps the account.
- `call_available`: what an operation takes from availability is what the request holds more, and what it revives.
- `schedule_served`: a schedule within a request's lifetime is carried out when its remainder is available.
-/
import Mathlib.Tactic
import Pegainfer.Kvbm.Carried

set_option linter.unusedSectionVars false

namespace Pegainfer.Kvbm.BlockStore

variable {H : Type} [DecidableEq H]

/-- the oldest inner block whose last reference is gone -/
def dueDrop (σ : BlockStore H) : Option (ImmutableBlockInner H) := σ.inners.reverse.find? fun x => σ.strong x.ptr = 0

def runDropsUpTo : ℕ → BlockStore H → BlockStore H
  | 0, σ => σ
  | n + 1, σ =>
    match σ.dueDrop with
    | none => σ
    | some x => runDropsUpTo n (σ.dropInner x)

/-- every release that is due -/
def runDrops (σ : BlockStore H) : BlockStore H := runDropsUpTo σ.inners.length σ

/-- no release is due -/
def Quiet (σ : BlockStore H) : Prop := ∀ x ∈ σ.inners, 0 < σ.strong x.ptr

end Pegainfer.Kvbm.BlockStore

namespace Pegainfer.KvCache

open Pegainfer.Kvbm

variable {H : Type} [DecidableEq H] [BlockHash H]

abbrev RequestKv (H : Type) := SchedulableSequence H

structure BlockPool (H : Type) where
  store : BlockStore H
  blockSize : ℕ
  paddingBlockId : BlockId

namespace BlockPool

/-- the pool, and the padding block's leaked reference -/
def new [Inhabited H] (blockSize numBlocks : ℕ) : Except String (BlockPool H × ImmutableBlock H) :=
  if numBlocks < 2 then .error "need at least 2 blocks (1 for padding)"
  else if ¬ (0 < blockSize ∧ blockSize &&& (blockSize - 1) = 0 ∧ blockSize ≤ 1024) then
    .error "block_size must be a power of two in 2..=1024"
  else
    match (BlockStore.new numBlocks false : BlockStore H).allocateBlocks 1 with
    | .ok (some (b :: _, σ)) =>
      match (σ.stage b default).registerBlock b default with
      | .ok (padding, σ') => .ok (⟨σ', blockSize, b⟩, padding)
      | .error e => .error e
    | .ok _ => .error "failed to allocate padding block"
    | .error e => .error e

def availableBlocks (p : BlockPool H) : ℕ := p.store.available

/-- total minus padding -/
def maxRequestBlocks (p : BlockPool H) : ℕ := p.store.totalBlocks - 1

def newRequest (p : BlockPool H) (promptTokens : List Token) (maxOutputTokens : ℕ) (saltHash : SaltHash) : RequestKv H :=
  .new promptTokens maxOutputTokens p.blockSize saltHash

/-- a method of a request, and the releases it causes -/
def call (p : BlockPool H) (kv : RequestKv H) (c : SchedulableSequence.Call) :
    Except String (SchedulableSequence.CallResult × RequestKv H × BlockPool H) :=
  match kv.call c p.store with
  | .error e => .error e
  | .ok (r, kv', σ) => .ok (r, kv', { p with store := σ.runDrops })

/-- a request goes out of scope -/
def dropKv (p : BlockPool H) (kv : RequestKv H) : BlockPool H := { p with store := (kv.clear p.store).2.runDrops }

end BlockPool

/-- `page_indices`: every block held, in sequence order -/
def pageIndices (kv : RequestKv H) : List BlockId :=
  kv.assigned.map ImmutableBlock.blockId ++ kv.staged.map Prod.fst ++ kv.unassigned

/-- `step_page_indices`: the pages of the tokens present after a step of `newTokens` -/
def stepPageIndices (kv : RequestKv H) (newTokens : ℕ) : List BlockId :=
  (pageIndices kv).take (divCeil (kv.kvPosition + newTokens) kv.blockSize)

/-! ## Running the drops -/

section Drops

open BlockStore

variable {σ : BlockStore H} {g : Holdings H}

theorem dueDrop_some {x : ImmutableBlockInner H} (h : σ.dueDrop = some x) : x ∈ σ.inners ∧ σ.strong x.ptr = 0 := by
  have hmem := List.mem_of_find?_eq_some h
  have hdead := List.find?_some h
  exact ⟨List.mem_reverse.1 hmem, by simpa using hdead⟩

theorem dueDrop_none (h : σ.dueDrop = none) : σ.Quiet := by
  intro x hx
  have := List.find?_eq_none.1 h x (List.mem_reverse.2 hx)
  exact Nat.pos_of_ne_zero (by simpa using this)

/-- **Releases.** They keep the account, only add to what is available, and leave none due. -/
theorem runDropsUpTo_spec : ∀ (n : ℕ) {σ : BlockStore H}, Inv σ g → σ.inners.length ≤ n →
    Inv (runDropsUpTo n σ) g ∧ σ.available ≤ (runDropsUpTo n σ).available ∧ (runDropsUpTo n σ).Quiet ∧
      (runDropsUpTo n σ).totalBlocks = σ.totalBlocks := by
  intro n
  induction n with
  | zero =>
    intro σ h hlen
    have hnil : σ.inners = [] := List.length_eq_zero_iff.1 (Nat.le_zero.1 hlen)
    refine ⟨h, le_rfl, ?_, rfl⟩
    intro x hx
    rw [show runDropsUpTo 0 σ = σ from rfl, hnil] at hx
    cases hx
  | succ n ih =>
    intro σ h hlen
    simp only [runDropsUpTo]
    cases hd : σ.dueDrop with
    | none => exact ⟨h, le_rfl, dueDrop_none hd, rfl⟩
    | some x =>
      obtain ⟨hx, hs⟩ := dueDrop_some hd
      obtain ⟨hinv, hav⟩ := dropInner_spec h hx hs
      have hlen' := List.length_erase_of_mem hx
      have hpos := List.length_pos_of_mem hx
      obtain ⟨h1, h2, h3, h4⟩ := ih hinv (by rw [(dropInner_inners σ x).1]; omega)
      exact ⟨h1, hav.trans h2, h3, h4.trans (dropInner_inners σ x).2⟩

theorem runDrops_spec (h : Inv σ g) : Inv σ.runDrops g ∧ σ.available ≤ σ.runDrops.available ∧ σ.runDrops.Quiet ∧
    σ.runDrops.totalBlocks = σ.totalBlocks := runDropsUpTo_spec _ h le_rfl

end Drops

end Pegainfer.KvCache
