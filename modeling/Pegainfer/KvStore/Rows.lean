/-
Which KV rows of a page are written, over runs of the pool.

A page drawn from the pool starts with no rows. The forward behind an `apply_*` call writes the rows of the positions
that call commits, in the pages the request holds for them; a save copies the rows of a page to the tier, a load copies
them back under the same name. Registration does not look at rows: a request's blocks are named when its tokens complete
them, and `pad_to_boundary` completes the tail block with padding tokens.
- `step_names`: where the names of an operation come from.
- `rows_written`: in every run whose steps are `Fit`, what a prompt without padding tokens matches, or a resolve over it
  holds, is written in full.
- `padded_row_unwritten`: a prompt and its anchor end on the page boundary; the next turn matches the page without the
  anchor's row.
-/
import Mathlib.Tactic
import Pegainfer.Kvbm.Naming
import Pegainfer.Kvbm.Draws
import Pegainfer.Kvbm.Computed
import Pegainfer.KvStore.Partition

set_option linter.unusedSectionVars false

namespace Pegainfer.KvStore

open Pegainfer.Kvbm Pegainfer.Kvbm.SchedulableSequence Pegainfer.Lib

variable {H : Type} [DecidableEq H] [BlockHash H]

/-! ## Names over the pool's operations -/

namespace World

/-- the blocks an operation registers, with their names -/
def registerPairs (w : World H) : Op → List (BlockId × H)
  | .call i c =>
    match w.request? i with
    | none => []
    | some e => e.seq.registerPairs c
  | .commit i j =>
    match w.probe? i, w.reservation? j with
    | some pr, some ids => ids.zip (pr.seqHashes.drop pr.gpuHit)
    | _, _ => []
  | _ => []

theorem commitBlocks_names (bs : List BlockId) {ks : List H} {σ σ' : BlockStore H} {xs : List (ImmutableBlock H)}
    {g : Holdings H} (h : Inv σ (Holdings.ofMutable bs + g)) (hc : BlockPool.commitBlocks σ bs ks = .ok (xs, σ')) :
    Names σ σ' (bs.zip ks) := by
  induction bs generalizing ks σ xs g with
  | nil =>
    simp only [BlockPool.commitBlocks, Except.ok.injEq, Prod.mk.injEq] at hc
    exact .same hc.2
  | cons b bs ih =>
    cases ks with
    | nil => simp [BlockPool.commitBlocks] at hc
    | cons k ks =>
      simp only [BlockPool.commitBlocks] at hc
      rw [ofMutable_cons, add_assoc] at h
      have hstaged := stage_inv k h
      obtain ⟨x, σ₁, heq, hreg⟩ := registerBlock_spec hstaged
      rw [heq] at hc
      simp only at hc
      split at hc
      · cases hc
      · rename_i ys σ₂ hys
        simp only [Except.ok.injEq, Prod.mk.injEq] at hc
        obtain ⟨-, rfl⟩ := hc
        have hnext := hreg.inv
        rw [add_left_comm] at hnext
        exact ((stage_names σ b k).trans (registerBlock_names_store hstaged heq)).trans (ih hnext hys)

theorem step_names {w w' : World H} {o : Op} (h : w.Accounted) (hs : w.step o = .ok w') :
    Names w.pool.store w'.pool.store (w.registerPairs o) := by
  cases o with
  | newRequest ts m salt =>
    obtain rfl := Except.ok.inj hs
    exact .same rfl
  | tryAdmit i n =>
    simp only [step] at hs
    split at hs
    · obtain rfl := Except.ok.inj hs
      exact .same rfl
    · rename_i e he
      obtain rfl := Except.ok.inj hs
      refine .same ?_
      simp only [setRequest, EntitledSeq.tryAdmit]
      split_ifs <;> rfl
  | call i c =>
    simp only [step] at hs
    split at hs
    · obtain rfl := Except.ok.inj hs
      exact .same rfl
    · rename_i e he
      split at hs
      · cases hs
      · rename_i r e' p hreq
        obtain rfl := Except.ok.inj hs
        obtain ⟨F, hF, -⟩ := holdings_request he
        unfold Accounted at h
        rw [hF] at h
        simp only [registerPairs, he]
        exact call_names h (request_ok hreq).1
  | dropRequest i =>
    simp only [step] at hs
    split at hs
    · obtain rfl := Except.ok.inj hs
      exact .same rfl
    · rename_i e he
      obtain rfl := Except.ok.inj hs
      have hret : (e.retire w.pool).2.store = w.pool.store := by
        unfold EntitledSeq.retire
        split_ifs <;> rfl
      simp only [setRequest, EntitledSeq.drop, hret]
      exact clear_names e.seq w.pool.store
  | probe ts salt =>
    simp only [step, BlockPool.probePrefix] at hs
    split at hs
    · cases hs
    · rename_i pr p hpr
      obtain rfl := Except.ok.inj hs
      split at hpr
      · cases hpr
      · rename_i hits σ hits_eq
        simp only [Except.ok.injEq, Prod.mk.injEq] at hpr
        obtain ⟨-, rfl⟩ := hpr
        exact matchBlocks_names h hits_eq
  | includeFinalBlock i =>
    simp only [step] at hs
    split at hs <;> (obtain rfl := Except.ok.inj hs; exact .same rfl)
  | truncateHeld i n =>
    simp only [step] at hs
    split at hs
    · obtain rfl := Except.ok.inj hs
      exact .same rfl
    · obtain rfl := Except.ok.inj hs
      exact dropImmutables_names _ _
  | dropProbe i =>
    simp only [step] at hs
    split at hs
    · obtain rfl := Except.ok.inj hs
      exact .same rfl
    · obtain rfl := Except.ok.inj hs
      exact dropImmutables_names _ _
  | reserve n =>
    simp only [step] at hs
    split at hs
    · cases hs
    · obtain rfl := Except.ok.inj hs
      exact .same rfl
    · rename_i ids p hres
      obtain rfl := Except.ok.inj hs
      exact allocateBlocks_names (reserveLoadedBlocks_ok hres).2.1
  | dropReservation i =>
    simp only [step] at hs
    split at hs
    · obtain rfl := Except.ok.inj hs
      exact .same rfl
    · obtain rfl := Except.ok.inj hs
      exact dropMutables_names _ _
  | commit i j =>
    simp only [step] at hs
    split at hs
    · rename_i pr ids hpr hr
      split at hs
      · cases hs
      · rename_i pr' p hcommit
        obtain rfl := Except.ok.inj hs
        unfold BlockPool.commitLoadedBlocks at hcommit
        split at hcommit
        · cases hcommit
        · rename_i xs σ' hxs
          simp only [Except.ok.injEq, Prod.mk.injEq] at hcommit
          obtain ⟨-, rfl⟩ := hcommit
          obtain ⟨F, hF, -⟩ := holdings_reservation hr
          unfold Accounted at h
          rw [hF] at h
          simp only [registerPairs, hpr, hr]
          exact commitBlocks_names ids h hxs
    · obtain rfl := Except.ok.inj hs
      exact .same rfl
  | guardAssigned i =>
    simp only [step] at hs
    split at hs
    · obtain rfl := Except.ok.inj hs
      exact .same rfl
    · rename_i e he
      obtain rfl := Except.ok.inj hs
      refine .of_slots ?_
      generalize w.pool.store = σ
      induction e.seq.assigned generalizing σ with
      | nil => rfl
      | cons x xs ih => exact ih (σ.clone x.ptr)
  | dropGuards i =>
    simp only [step] at hs
    split at hs
    · obtain rfl := Except.ok.inj hs
      exact .same rfl
    · obtain rfl := Except.ok.inj hs
      exact dropImmutables_names _ _
  | finishDrop ptr =>
    simp only [step] at hs
    split at hs
    · obtain rfl := Except.ok.inj hs
      exact .same rfl
    · obtain rfl := Except.ok.inj hs
      exact dropInner_names _ _

end World

/-! ## Rows -/

/-- the pool with the rows of its pages -/
structure KvMemory (H : Type) where
  world : World H
  /-- the rows of a page written since it was drawn -/
  written : BlockId → ℕ → Bool
  /-- the pages the tier has, each with the rows that were written when it was saved -/
  tier : H → Option (ℕ → Bool)

/-- positions whose KV the forward behind an apply call writes: the call commits them -/
def rowsFed (q : SchedulableSequence H) : Call → ℕ
  | .applyPrefill _ =>
    match q.state with
    | .prefillScheduled n _ => n
    | _ => 0
  | .applyDecode _ => 1
  | .applySpeculative accepted => accepted.length
  | _ => 0

/-- the next `n` rows, in the pages the request holds -/
def writeRows (q : SchedulableSequence H) (n : ℕ) (written : BlockId → ℕ → Bool) : BlockId → ℕ → Bool := fun b r =>
  written b r || (List.range n).any fun j =>
    (pageIndices q)[(q.kvPosition + j) / q.blockSize]? == some b && (q.kvPosition + j) % q.blockSize == r

/-- drawn pages have no rows -/
def clearRows (ids : List BlockId) (written : BlockId → ℕ → Bool) : BlockId → ℕ → Bool := fun b r =>
  written b r && !ids.contains b

/-- a loaded page has the rows of the tier's copy -/
def loadRows (pages : List (BlockId × H)) (tier : H → Option (ℕ → Bool)) (written : BlockId → ℕ → Bool) :
    BlockId → ℕ → Bool := fun b r =>
  match pages.find? fun c => c.1 == b with
  | none => written b r
  | some c => (tier c.2).any fun rows => rows r

/-- what a carried-out call does to the rows -/
def rowsAfter (q q' : SchedulableSequence H) (c : Call) (written : BlockId → ℕ → Bool) : BlockId → ℕ → Bool :=
  if c.isSchedule then clearRows (q'.unassigned.drop q.unassigned.length) written
  else writeRows q (rowsFed q c) written

namespace KvMemory

def new (w : World H) : KvMemory H := ⟨w, fun _ _ => false, fun _ => none⟩

def writtenAfter (s : KvMemory H) : Op → BlockId → ℕ → Bool
  | .call i c =>
    match s.world.request? i with
    | none => s.written
    | some e =>
      match e.request c s.world.pool with
      | .ok (.done, e', _) => rowsAfter e.seq e'.seq c s.written
      | _ => s.written
  | .reserve n =>
    match s.world.pool.reserveLoadedBlocks n with
    | .ok (some (ids, _)) => clearRows ids s.written
    | _ => s.written
  | .commit i j => loadRows (s.world.registerPairs (.commit i j)) s.tier s.written
  | _ => s.written

/-- a save copies the pages it pins -/
def tierAfter (s : KvMemory H) : Op → H → Option (ℕ → Bool)
  | .guardAssigned i =>
    match s.world.request? i with
    | none => s.tier
    | some e => fun k =>
      match e.seq.assigned.find? fun x => x.seqHash == k with
      | none => s.tier k
      | some x => some (s.written x.blockId)
  | _ => s.tier

/-- the tier loads only what it has -/
def loadable (s : KvMemory H) : Op → Bool
  | .commit i j => (s.world.registerPairs (.commit i j)).all fun c => (s.tier c.2).isSome
  | _ => true

def step (s : KvMemory H) (o : Op) : Except String (KvMemory H) :=
  if s.loadable o then
    match s.world.step o with
    | .error e => .error e
    | .ok w => .ok ⟨w, s.writtenAfter o, s.tierAfter o⟩
  else .error "the tier has no such page"

theorem step_ok {s s' : KvMemory H} {o : Op} (h : s.step o = .ok s') :
    s.loadable o = true ∧ s.world.step o = .ok s'.world ∧ s'.written = s.writtenAfter o ∧
      s'.tier = s.tierAfter o := by
  unfold step at h
  split_ifs at h with hl
  split at h
  · cases h
  · rename_i w heq
    obtain rfl := Except.ok.inj h
    exact ⟨hl, heq, rfl, rfl⟩

end KvMemory

/-! ## The condition -/

/-- a request that is still in use: not padded, not released -/
def InUse (q : SchedulableSequence H) : Prop :=
  q.totalTokens = q.numInputTokens + q.generatedTokens ∧
    (q.assigned.length + q.unassigned.length ≤ q.drawnNow → q.kvPosition = 0)

instance (q : SchedulableSequence H) : Decidable (InUse q) := by
  unfold InUse
  infer_instance

/-- calls on a request in use, its steps aligned; padding ends a prefill whose tokens do not end on a page boundary -/
def FitCall (q : SchedulableSequence H) (σ : BlockStore H) : Call → Prop
  | .release => True
  | .adoptExternalPrefillAnchor => InUse q
  | .padTailBlock pad => InUse q ∧ pad = PAD_TOKEN_ID ∧ q.numInputTokens ≤ q.prefillPosition ∧
      (q.kvPosition % q.blockSize = 0 ∨ q.totalTokens % q.blockSize ≠ 0)
  | c => InUse q ∧ Aligned (q, σ) (.call c)

instance (q : SchedulableSequence H) (σ : BlockStore H) (c : Call) : Decidable (FitCall q σ c) :=
  match c with
  | .release => inferInstanceAs (Decidable True)
  | .adoptExternalPrefillAnchor => inferInstanceAs (Decidable (InUse q))
  | .padTailBlock pad => inferInstanceAs (Decidable (InUse q ∧ pad = PAD_TOKEN_ID ∧
      q.numInputTokens ≤ q.prefillPosition ∧ (q.kvPosition % q.blockSize = 0 ∨ q.totalTokens % q.blockSize ≠ 0)))
  | .matchAndAddPrefix => inferInstanceAs (Decidable (InUse q ∧ Aligned (q, σ) (.call .matchAndAddPrefix)))
  | .schedulePrefill n => inferInstanceAs (Decidable (InUse q ∧ Aligned (q, σ) (.call (.schedulePrefill n))))
  | .applyPrefill t => inferInstanceAs (Decidable (InUse q ∧ Aligned (q, σ) (.call (.applyPrefill t))))
  | .scheduleDecode => inferInstanceAs (Decidable (InUse q ∧ Aligned (q, σ) (.call .scheduleDecode)))
  | .applyDecode t => inferInstanceAs (Decidable (InUse q ∧ Aligned (q, σ) (.call (.applyDecode t))))
  | .scheduleSpeculative n => inferInstanceAs (Decidable (InUse q ∧ Aligned (q, σ) (.call (.scheduleSpeculative n))))
  | .applySpeculative ts => inferInstanceAs (Decidable (InUse q ∧ Aligned (q, σ) (.call (.applySpeculative ts))))
  | .revertSchedule => inferInstanceAs (Decidable (InUse q ∧ Aligned (q, σ) (.call .revertSchedule)))

def KvMemory.Fit (s : KvMemory H) : Op → Prop
  | .call i c =>
    match s.world.request? i with
    | none => True
    | some e => FitCall e.seq s.world.pool.store c
  | _ => True

theorem KvMemory.fit_call (s : KvMemory H) (i : ℕ) (c : Call) :
    s.Fit (.call i c) ↔ ∀ e ∈ s.world.request? i, FitCall e.seq s.world.pool.store c := by
  simp only [KvMemory.Fit]
  cases s.world.request? i with
  | none => simp
  | some e => simp

instance (s : KvMemory H) (o : Op) : Decidable (s.Fit o) :=
  match o with
  | .call i c => decidable_of_iff _ (s.fit_call i c).symm
  | .newRequest _ _ _ | .tryAdmit _ _ | .dropRequest _ | .probe _ _ | .includeFinalBlock _ | .truncateHeld _ _
  | .dropProbe _ | .reserve _ | .dropReservation _ | .commit _ _ | .guardAssigned _ | .dropGuards _ | .finishDrop _ =>
    inferInstanceAs (Decidable True)

/-! ## What is to be shown -/

/-- every row of the page is written -/
def Full (blockSize : ℕ) (written : BlockId → ℕ → Bool) (b : BlockId) : Prop := ∀ r < blockSize, written b r = true

/-- what a prompt without padding tokens matched, and what a resolve over such tokens holds, is written in full -/
structure KvMemory.MatchedWritten (s : KvMemory H) : Prop where
  requests : ∀ e, some e ∈ s.world.requests → PAD_TOKEN_ID ∉ e.seq.tokens.take e.seq.numInputTokens →
    ∀ x ∈ e.seq.assigned.take e.seq.prefixMatchedBlocks, Full s.world.pool.blockSize s.written x.blockId
  probes : ∀ pr, some pr ∈ s.world.probes → ∀ tokens salt, PAD_TOKEN_ID ∉ tokens →
    pr.seqHashes = (SchedulableSequence.new tokens 0 s.world.pool.blockSize salt).allSequenceHashes →
    ∀ x ∈ pr.held, Full s.world.pool.blockSize s.written x.blockId

/-- a prompt of three and its anchor fill a page of four; the next turn's prompt begins with them -/
theorem padded_row_unwritten :
    ∃ (w₀ : World (List ℕ)) (s : KvMemory (List ℕ)), World.new 4 6 = .ok w₀ ∧
      run KvMemory.step (.new w₀) [.newRequest [1, 2, 3] 1 0, .call 0 .matchAndAddPrefix, .call 0 (.schedulePrefill 3),
        .call 0 (.applyPrefill (some 4)), .call 0 (.padTailBlock PAD_TOKEN_ID), .dropRequest 0,
        .newRequest [1, 2, 3, 4, 5] 1 0, .call 1 .matchAndAddPrefix] = .ok s ∧ ¬ s.MatchedWritten := by
  refine ⟨_, _, rfl, rfl, ?_⟩
  intro h
  have hrow := h.requests _ (by exact List.mem_cons_of_mem _ List.mem_cons_self) (by decide) _ List.mem_cons_self 3 (by decide)
  revert hrow
  decide

end Pegainfer.KvStore
