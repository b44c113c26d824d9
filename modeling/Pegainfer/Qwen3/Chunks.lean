/-
The prefill chunks of a step partition the prefilling queue, and a request's own chunk is its own affair.

- `AdmissionBounds`: the prefill bound is positive, and no scored prompt in the queue exceeds it.
- `FairPartition`: what a selection makes of the queue; `take_fair`: every selection under the bounds does.
- `chunkEnds`: the boundaries of a prompt under request-local chunking, from its length and cached prefix alone.
- `prefillChunk_local`: a request-local chunk never sees the budget left by others.
-/
import Mathlib.Tactic
import Pegainfer.Qwen3.Standing

namespace Pegainfer.Qwen3

open Pegainfer.Frontend

/-! ## Selection -/

/-- what admission promises of the queue: a positive bound that no scored prompt exceeds -/
structure AdmissionBounds (maxPrefillTokens : ℕ) (queue : List PendingRequest) : Prop where
  budget : 0 < maxPrefillTokens
  scored : ∀ req ∈ queue, req.promptLogprobs.isSome → req.promptTokens.length ≤ maxPrefillTokens

/-- the step's chunk written into a request -/
def PendingRequest.withChunk (p : PendingRequest × ℕ) : PendingRequest := { p.1 with stepChunk := p.2 }

/-- a chunk that moves its request on, within its prompt -/
def FairChunk (p : PendingRequest × ℕ) : Prop :=
  p.2 ≤ p.1.remainingPromptTokens ∧ (1 ≤ p.1.remainingPromptTokens → 1 ≤ p.2)

/-- `chosen` are the requests taken from `queue` with their chunks, in the queue's order, and `left` the others -/
structure Chosen (budget : ℕ) (queue : List PendingRequest) (chosen : List (PendingRequest × ℕ))
    (left : List PendingRequest) : Prop where
  within : (chosen.map Prod.snd).sum ≤ budget
  fair : ∀ p ∈ chosen, FairChunk p
  partition : (chosen.map Prod.fst ++ left).Perm queue
  taken : (chosen.map Prod.fst).Sublist queue
  ordered : left.Sublist queue

/-- the selection `r` of a queue: a partition with chunks in the budget, the head taken, both sides in order -/
structure FairPartition (budget : ℕ) (queue : List PendingRequest) (r : List PendingRequest × List PendingRequest) :
    Prop where
  chosen : ∃ chosen, Chosen budget queue chosen r.2 ∧ r.1.Perm (chosen.map PendingRequest.withChunk) ∧
    ∀ req rest, queue = req :: rest → ∃ chunk, (req, chunk) ∈ chosen
  sorted : r.1.Pairwise fun a b => a.requestId ≤ b.requestId

variable {maxPrefillTokens budget chunk : ℕ} {requestLocal : Bool} {req : PendingRequest}

theorem prefillChunk_le (h : prefillChunk maxPrefillTokens requestLocal budget req = some chunk) : chunk ≤ budget := by
  simp only [prefillChunk] at h
  split_ifs at h <;> cases h <;> omega

theorem prefillChunk_fair (hm : 0 < maxPrefillTokens) (hb : 0 < budget)
    (h : prefillChunk maxPrefillTokens requestLocal budget req = some chunk) : FairChunk (req, chunk) := by
  simp only [prefillChunk] at h
  unfold FairChunk
  split_ifs at h <;> cases h <;> dsimp only <;> omega

/-- nothing is skipped at the full budget -/
theorem prefillChunk_full (hs : req.promptLogprobs.isSome → req.promptTokens.length ≤ maxPrefillTokens) :
    ∃ chunk, prefillChunk maxPrefillTokens requestLocal maxPrefillTokens req = some chunk := by
  simp only [prefillChunk]
  split_ifs with hscored hover hlocal hdesired
  · have := hs hscored
    unfold PendingRequest.remainingPromptTokens at hover
    omega
  · exact ⟨_, rfl⟩
  · omega
  · exact ⟨_, rfl⟩
  · exact ⟨_, rfl⟩

/-- **The loop.** Whatever budget is left, what it takes and what it leaves partition the queue. -/
theorem selectChunks_chosen (hm : 0 < maxPrefillTokens) (queue : List PendingRequest) (budget : ℕ) :
    ∃ chosen, Chosen budget queue chosen (selectChunks maxPrefillTokens requestLocal budget queue).2 ∧
      (selectChunks maxPrefillTokens requestLocal budget queue).1 = chosen.map PendingRequest.withChunk ∧
      ∀ req rest chunk, queue = req :: rest → 0 < budget →
        prefillChunk maxPrefillTokens requestLocal budget req = some chunk → (req, chunk) ∈ chosen := by
  induction queue generalizing budget with
  | nil =>
    refine ⟨[], ⟨by simp, fun _ hmem => absurd hmem List.not_mem_nil, by simp [selectChunks], by simp,
      by simp [selectChunks]⟩, rfl, fun _ _ _ hcons => absurd hcons.symm (List.cons_ne_nil _ _)⟩
  | cons req queue ih =>
    simp only [selectChunks]
    split_ifs with hb
    · refine ⟨[], ⟨by simp, fun _ hmem => absurd hmem List.not_mem_nil, by simp, by simp, List.Sublist.refl _⟩, rfl, ?_⟩
      intro _ _ _ _ hpos
      omega
    · cases hc : prefillChunk maxPrefillTokens requestLocal budget req with
      | none =>
        -- skipped: the request heads what is left
        obtain ⟨chosen, hch, htaken, -⟩ := ih budget
        refine ⟨chosen, ⟨hch.within, hch.fair, ?_, hch.taken.cons req, hch.ordered.cons_cons req⟩, htaken, ?_⟩
        · exact List.perm_middle.trans (hch.partition.cons req)
        · intro r rest chunk heq _ hr
          cases heq
          rw [hc] at hr
          cases hr
      | some chunk =>
        obtain ⟨chosen, hch, htaken, -⟩ := ih (budget - chunk)
        have hle := prefillChunk_le hc
        have hfair := prefillChunk_fair hm (Nat.pos_of_ne_zero hb) hc
        refine ⟨(req, chunk) :: chosen, ⟨?_, ?_, ?_, ?_, ?_⟩, ?_, ?_⟩
        · have := hch.within
          rw [List.map_cons, List.sum_cons]
          omega
        · intro p hp
          rcases List.mem_cons.1 hp with rfl | hp
          · exact hfair
          · exact hch.fair p hp
        · exact hch.partition.cons req
        · exact hch.taken.cons_cons req
        · exact hch.ordered.cons req
        · rw [List.map_cons, ← htaken]
          rfl
        · intro r rest c heq _ hr
          cases heq
          rw [hc] at hr
          cases hr
          exact List.mem_cons_self

/-- **Fair partition.** One call partitions any queue under its admission bounds, and its head is taken. -/
theorem take_fair (queue : List PendingRequest) (requestLocal : Bool) (h : AdmissionBounds maxPrefillTokens queue) :
    FairPartition maxPrefillTokens queue (takePrefillChunks queue maxPrefillTokens requestLocal) := by
  obtain ⟨chosen, hch, htaken, hhead⟩ :=
    @selectChunks_chosen maxPrefillTokens requestLocal h.budget queue maxPrefillTokens
  refine ⟨⟨chosen, hch, ?_, ?_⟩, ?_⟩
  · rw [← htaken]
    exact List.perm_insertionSort _ _
  · rintro req rest rfl
    obtain ⟨chunk, hc⟩ :=
      @prefillChunk_full maxPrefillTokens requestLocal req (h.scored req List.mem_cons_self)
    exact ⟨chunk, hhead req rest chunk rfl h.budget hc⟩
  · have : Std.Total fun a b : PendingRequest => a.requestId ≤ b.requestId := ⟨fun a b => le_total _ _⟩
    have : IsTrans PendingRequest fun a b => a.requestId ≤ b.requestId := ⟨fun a b c => le_trans⟩
    exact List.pairwise_insertionSort _ _

/-! ## Request-local chunks -/

/-- the boundaries of `m` chunks of a prompt of `n` tokens behind a cached prefix -/
def chunkEnds (maxPrefillTokens n cached m : ℕ) : List ℕ :=
  (List.range m).map fun k => min n (cached + (k + 1) * maxPrefillTokens)

theorem chunkEnds_succ (maxPrefillTokens n cached m : ℕ) :
    chunkEnds maxPrefillTokens n cached (m + 1) =
      chunkEnds maxPrefillTokens n cached m ++ [min n (cached + (m + 1) * maxPrefillTokens)] := by
  simp [chunkEnds, List.range_succ]

theorem chunkEnds_starts (maxPrefillTokens n cached : ℕ) {m k : ℕ} (h : m ≤ k) :
    chunkEnds maxPrefillTokens n cached m <+: chunkEnds maxPrefillTokens n cached k := by
  induction h with
  | refl => exact List.prefix_refl _
  | step _ ih =>
    rw [chunkEnds_succ]
    exact ih.trans (List.prefix_append _ _)

/-- a request-local chunk is that of the request alone: the budget others leave decides only whether it runs -/
theorem prefillChunk_local (h : prefillChunk maxPrefillTokens true budget req = some chunk) :
    chunk = if req.promptLogprobs.isSome then req.remainingPromptTokens
      else min req.remainingPromptTokens maxPrefillTokens := by
  simp only [prefillChunk] at h
  split_ifs at h ⊢ <;> cases h <;> rfl

end Pegainfer.Qwen3
