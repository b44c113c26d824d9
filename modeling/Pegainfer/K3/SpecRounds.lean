/-
Speculative rounds over the whole life of an executor.

Slots are taken by prefills and given back, batches are verified with drafts or drafted and split by the row budget, and any
device operation may fail. What a slot commits is compared with plain decode from the context its prefill left.
- `decodeSpecInner_ends`: a drafted batch, in however many verify steps.
- `Serves`: every slot follows plain decode of its session. `call_serves`: each call keeps it.
- `verify_rounds_greedy`: so it holds after every run.
-/
import Mathlib.Tactic
import Pegainfer.Lib.Machine
import Pegainfer.K3.VerifyRounds

namespace Pegainfer.K3

open Pegainfer.Lib K3PagedKv

variable {ρ ω κ : Type} {T : K3Target ρ ω κ} {e e' e₀ e₁ e₂ : K3Executor ρ ω κ} {slots slots' slots'' : List ℕ}
  {slot : ℕ} {committed now : ℕ → (ρ × ω) × List κ}

/-! ## Batches in several steps -/

theorem Undisturbed.mono (h : Undisturbed slots e₀ e) (hsubset : slots ⊆ slots') : Undisturbed slots' e₀ e :=
  ⟨h.owned, fun slot hslot => h.same slot fun hin => hslot (hsubset hin)⟩

theorem Undisturbed.trans (h : Undisturbed slots e₀ e₁) (h' : Undisturbed slots e₁ e₂) : Undisturbed slots e₀ e₂ :=
  ⟨h'.owned, fun slot hslot => (h.same slot hslot).trans (h'.same slot hslot)⟩

/-- **A batch in budget-sized steps** ends as in one step. -/
theorem verifySplit_ends [Inhabited κ] (steps : ℕ) : ∀ (batch : List K3VerifySlot) (e₀ : K3Executor ρ ω κ),
    batch.length ≤ steps → (batch.map K3VerifySlot.slot).Nodup → e₀.kv.Owned →
      (∀ entry ∈ batch, Follows T e₀ entry.slot (committed entry.slot) (now entry.slot)) →
        Faulty.Ends (fun e => e = e₀) (verifySplit T steps batch)
          (fun outcomes e => Undisturbed (batch.map K3VerifySlot.slot) e₀ e ∧ List.Forall₂ (fun entry tokens =>
            Settled T e entry.slot entry.anchor (now entry.slot) tokens) batch outcomes)
          (Undisturbed (batch.map K3VerifySlot.slot) e₀) := by
  induction steps with
  | zero =>
    intro batch e₀ hle _ howned _
    obtain rfl : batch = [] := List.length_eq_zero_iff.1 (Nat.le_zero.1 hle)
    exact .from_pure ⟨⟨howned, fun slot _ => .refl slot e₀⟩, .nil⟩
  | succ steps ih =>
    intro batch e₀ hle hnodup howned hfollows
    rcases batch with _ | ⟨entry, batch⟩
    · exact .from_pure ⟨⟨howned, fun slot _ => .refl slot e₀⟩, .nil⟩
    · have hstart : Undisturbed ((entry :: batch).map K3VerifySlot.slot) e₀ e₀ := ⟨howned, fun slot _ => .refl slot e₀⟩
      refine .from_get (.from_ensure (fun htaken => ?_) fun _ => hstart)
      set entries := entry :: batch with hentries
      set taken := e₀.budgeted 0 entries with htakenEq
      have hsplit : entries.map K3VerifySlot.slot =
          (entries.take taken).map K3VerifySlot.slot ++ (entries.drop taken).map K3VerifySlot.slot := by
        rw [← List.map_append, List.take_append_drop]
      rw [hsplit] at hnodup
      obtain ⟨hfirst, hsecond, hapart⟩ := List.nodup_append.1 hnodup
      have hleft : (entries.take taken).map K3VerifySlot.slot ⊆ entries.map K3VerifySlot.slot :=
        hsplit ▸ List.subset_append_left _ _
      have hright : (entries.drop taken).map K3VerifySlot.slot ⊆ entries.map K3VerifySlot.slot :=
        hsplit ▸ List.subset_append_right _ _
      have hstanding : ∀ entry ∈ entries.take taken, Follows T e₀ entry.slot (committed entry.slot) (now entry.slot) :=
        fun entry hin => hfollows entry (List.mem_of_mem_take hin)
      refine ((verifyInner_ends hfirst howned hstanding).weaken (fun _ h => h) (fun _ _ h => h)
        fun e h => h.mono hleft).from_bind ?_
      rintro outcomes e₁ ⟨hframe₁, hsettled⟩
      have hshorter : (entries.drop taken).length ≤ steps := by
        rw [List.length_drop]
        omega
      have hrest := ih (entries.drop taken) e₁ hshorter hsecond hframe₁.owned fun entry hin => by
        refine (hfollows entry (List.mem_of_mem_drop hin)).of_same (hframe₁.same entry.slot fun hin' => ?_)
        exact hapart _ hin' _ (List.mem_map_of_mem hin) rfl
      refine (hrest.weaken (fun _ h => h) (fun _ _ h => h) fun e h =>
        (hframe₁.mono hleft).trans (h.mono hright)).from_bind ?_
      rintro others e₂ ⟨hframe₂, hsettled₂⟩
      refine .from_pure ⟨(hframe₁.mono hleft).trans (hframe₂.mono hright), ?_⟩
      have hkept : List.Forall₂ (fun entry tokens => Settled T e₂ entry.slot entry.anchor (now entry.slot) tokens)
          (entries.take taken) outcomes := by
        refine List.forall₂_iff_zip.2 ⟨hsettled.length_eq, fun {entry tokens} hin => ?_⟩
        refine ((List.forall₂_iff_zip.1 hsettled).2 hin).of_same (hframe₂.same entry.slot fun hin' => ?_)
        exact hapart _ (List.mem_map_of_mem (List.of_mem_zip hin).1) _ hin' rfl
      have hboth : List.Forall₂ (fun entry tokens => Settled T e₂ entry.slot entry.anchor (now entry.slot) tokens)
          (entries.take taken ++ entries.drop taken) (outcomes ++ others) := List.rel_append hkept hsettled₂
      rwa [List.take_append_drop] at hboth

/-! ## Drafts -/

/-- handing out the draft states in slot order finds every slot once -/
theorem handOut_ok {maxBatch : ℕ} (order : List (DecodeSlot × ℕ)) : ∀ {consumed : ℕ},
    handOut maxBatch consumed order = .ok () →
      (order.map fun entry => entry.1.slot).Pairwise (· < ·) ∧ ∀ entry ∈ order, consumed ≤ entry.1.slot := by
  induction order with
  | nil => exact fun _ => ⟨.nil, fun _ hin => absurd hin List.not_mem_nil⟩
  | cons entry order ih =>
    intro consumed h
    rw [handOut] at h
    split_ifs at h with hrepeat hrange
    obtain ⟨hpairwise, hlater⟩ := ih h
    refine ⟨.cons (fun other hother => ?_) hpairwise, fun other hin => ?_⟩
    · obtain ⟨later, hin, rfl⟩ := List.mem_map.1 hother
      exact hlater later hin
    · rcases List.mem_cons.1 hin with rfl | hin
      · exact Nat.le_of_not_lt hrepeat
      · have hle := hlater other hin
        omega

theorem slots_nodup {batch : List DecodeSlot} {maxBatch : ℕ} (h : handOut maxBatch 0 (slotOrder batch) = .ok ()) :
    (batch.map DecodeSlot.slot).Nodup := by
  have hsorted : ((slotOrder batch).map fun entry => entry.1.slot).Nodup := (handOut_ok _ h).1.imp fun hlt => hlt.ne
  have hperm : (slotOrder batch).Perm batch.zipIdx := List.perm_insertionSort _ _
  have hslots : (batch.zipIdx.map fun entry => entry.1.slot) = batch.map DecodeSlot.slot := by
    have hfst : batch.zipIdx.map Prod.fst = batch := List.zipIdx_map_fst 0 batch
    rw [← congrArg (List.map DecodeSlot.slot) hfst, List.map_map]
    rfl
  rw [← hslots]
  exact (hperm.map _).nodup_iff.1 hsorted

/-- whatever is drafted, the entries keep their slots and anchors -/
theorem verifyBatch_entries (batch : List DecodeSlot) (proposed : List (List UInt32)) :
    (e.verifyBatch batch proposed).map (fun entry => (entry.slot, entry.anchor)) =
      batch.map fun entry => (entry.slot, entry.lastToken) := by
  have hfold : ∀ (drafted : List ((DecodeSlot × ℕ) × List UInt32)) (entries : List K3VerifySlot),
      (drafted.foldl (fun entries p =>
        let headroom := e.maxCtx - 1 - e.positions p.1.1.slot
        entries.modify p.1.2 fun entry => { entry with drafts := p.2.take (min p.2.length headroom) }) entries).map
          (fun entry => (entry.slot, entry.anchor)) = entries.map fun entry => (entry.slot, entry.anchor) := by
    intro drafted
    induction drafted with
    | nil => exact fun _ => rfl
    | cons p drafted ih =>
      intro entries
      rw [List.foldl_cons, ih]
      refine List.ext_getElem? fun i => ?_
      rw [List.getElem?_map, List.getElem?_map, List.getElem?_modify]
      rcases entries[i]? with _ | entry
      · split_ifs <;> rfl
      · split_ifs <;> rfl
  unfold K3Executor.verifyBatch
  rw [hfold, List.map_map]
  rfl

/-- **A drafted batch** commits what plain decode would, whatever was drafted and however the batch is split. -/
theorem decodeSpecInner_ends [Inhabited κ] {batch : List DecodeSlot}
    (propose : List (UInt32 × ℕ) → Except String (List (List UInt32))) (howned : e₀.kv.Owned)
    (hfollows : ∀ entry ∈ batch, Follows T e₀ entry.slot (committed entry.slot) (now entry.slot)) :
    Faulty.Ends (fun e => e = e₀) (decodeSpecInner T propose batch)
      (fun outcomes e => (batch.map DecodeSlot.slot).Nodup ∧ Undisturbed (batch.map DecodeSlot.slot) e₀ e ∧
        List.Forall₂ (fun entry tokens => Settled T e entry.slot entry.lastToken (now entry.slot) tokens) batch outcomes)
      (Undisturbed (batch.map DecodeSlot.slot) e₀) := by
  have hstart : Undisturbed (batch.map DecodeSlot.slot) e₀ e₀ := ⟨howned, fun slot _ => .refl slot e₀⟩
  refine .from_get (.from_ensure (fun _ => ?_) fun _ => hstart)
  by_cases hempty : batch.isEmpty = true
  · rw [if_pos hempty]
    obtain rfl : batch = [] := List.isEmpty_iff.1 hempty
    have hnone : ∀ entry ∈ ([] : List K3VerifySlot), Follows T e₀ entry.slot (committed entry.slot) (now entry.slot) :=
      fun _ hin => absurd hin List.not_mem_nil
    have hnil : (([] : List K3VerifySlot).map K3VerifySlot.slot).Nodup := List.nodup_nil
    refine (verifyInner_ends hnil howned hnone).weaken (fun _ h => h) (fun outcomes e h => ⟨.nil, h.1, ?_⟩) fun _ h => h
    obtain rfl := List.forall₂_nil_left_iff.1 h.2
    exact .nil
  · rw [if_neg hempty]
    refine .from_lift (fun handed hhanded => .from_lift (fun proposed _ => ?_) hstart) hstart
    have hnodup := slots_nodup hhanded
    have hentries := verifyBatch_entries (e := e₀) batch proposed
    have hslots : (e₀.verifyBatch batch proposed).map K3VerifySlot.slot = batch.map DecodeSlot.slot := by
      have hfst := congrArg (List.map Prod.fst) hentries
      rwa [List.map_map, List.map_map] at hfst
    have hlength : (e₀.verifyBatch batch proposed).length ≤ batch.length := by
      have hsame := congrArg List.length hslots
      rw [List.length_map, List.length_map] at hsame
      exact hsame.le
    have hstanding : ∀ entry ∈ e₀.verifyBatch batch proposed,
        Follows T e₀ entry.slot (committed entry.slot) (now entry.slot) := by
      intro entry hin
      have hslot : entry.slot ∈ batch.map DecodeSlot.slot := hslots ▸ List.mem_map_of_mem hin
      obtain ⟨decoded, hdecoded, hsame⟩ := List.mem_map.1 hslot
      rw [← hsame]
      exact hfollows decoded hdecoded
    have hsplit := verifySplit_ends batch.length _ e₀ hlength (hslots ▸ hnodup) howned hstanding
    rw [hslots] at hsplit
    refine hsplit.weaken (fun _ h => h) (fun outcomes e h => ⟨hnodup, h.1, ?_⟩) fun _ h => h
    have hpairs : List.Forall₂ (fun (p : ℕ × UInt32) tokens => Settled T e p.1 p.2 (now p.1) tokens)
        ((e₀.verifyBatch batch proposed).map fun entry => (entry.slot, entry.anchor)) outcomes :=
      List.forall₂_map_left_iff.2 h.2
    rw [hentries] at hpairs
    exact List.forall₂_map_left_iff.1 hpairs

/-! ## Sessions -/

/-- a request in a slot: the context its prefill left, the token the prefill sampled, and what was committed since -/
structure K3Session (ρ ω κ : Type) where
  origin : (ρ × ω) × List κ
  first : UInt32
  tokens : List UInt32

/-- its most recent token -/
def K3Session.last (session : K3Session ρ ω κ) : UInt32 := session.tokens.getLastD session.first

/-- the context plain decode has after the committed tokens -/
def K3Session.context (T : K3Target ρ ω κ) (session : K3Session ρ ω κ) : (ρ × ω) × List κ :=
  (T.decoder.after session.origin session.first session.tokens.length).1

/-- an executor and the requests in its slots -/
structure K3Serving (ρ ω κ : Type) where
  executor : K3Executor ρ ω κ
  session : ℕ → Option (K3Session ρ ω κ)

inductive K3Call (ρ ω κ : Type)
  | prefill (slot : ℕ) (state : ρ × ω) (latents : List κ) (first : UInt32)
  | release (slot : ℕ)
  | verify (batch : List K3VerifySlot)
  | decodeSpec (propose : List (UInt32 × ℕ) → Except String (List (List UInt32))) (batch : List DecodeSlot)

/-- the outcomes of a batch go to its slots' requests -/
def pushOutcomes (session : ℕ → Option (K3Session ρ ω κ)) (outcomes : List (ℕ × List UInt32)) :
    ℕ → Option (K3Session ρ ω κ) :=
  outcomes.foldl (fun session outcome => Function.update session outcome.1
    ((session outcome.1).map fun s => { s with tokens := s.tokens ++ outcome.2 })) session

/-- a failed step fails every request of its batch -/
def failSlots (session : ℕ → Option (K3Session ρ ω κ)) (slots : List ℕ) : ℕ → Option (K3Session ρ ω κ) :=
  fun slot => if slot ∈ slots then none else session slot

namespace K3Serving

variable [Inhabited ρ] [Inhabited ω] [Inhabited κ]

def settle (s : K3Serving ρ ω κ) (slots : List ℕ) : Except String (List (List UInt32)) → K3Executor ρ ω κ →
    K3Serving ρ ω κ
  | .ok outcomes, e => ⟨e, pushOutcomes s.session (slots.zip outcomes)⟩
  | .error _, e => ⟨e, failSlots s.session slots⟩

/-- a call with the device operations that fail in it -/
def call (T : K3Target ρ ω κ) (s : K3Serving ρ ω κ) : K3Call ρ ω κ × Faults → K3Serving ρ ω κ
  | (.prefill slot state latents first, faults) =>
    match prefillAdopt slot state latents s.executor faults with
    | (.ok (), e, _) => ⟨e, Function.update s.session slot (some ⟨(state, latents), first, []⟩)⟩
    | (.error _, e, _) => ⟨e, Function.update s.session slot none⟩
  | (.release slot, faults) => ⟨(release slot s.executor faults).2.1, Function.update s.session slot none⟩
  | (.verify batch, faults) =>
    let ended := verifyInner T batch s.executor faults
    s.settle (batch.map K3VerifySlot.slot) ended.1 ended.2.1
  | (.decodeSpec propose batch, faults) =>
    let ended := decodeSpecInner T propose batch s.executor faults
    s.settle (batch.map DecodeSlot.slot) ended.1 ended.2.1

def step (T : K3Target ρ ω κ) (s : K3Serving ρ ω κ) (c : K3Call ρ ω κ × Faults) : Except String (K3Serving ρ ω κ) :=
  .ok (s.call T c)

/-- what the callers see to: a round takes slots that hold requests, each once and with its most recent token; a drafted
batch is searched for repeats by the executor itself -/
def Fair (s : K3Serving ρ ω κ) (c : K3Call ρ ω κ × Faults) : Prop :=
  match c.1 with
  | .prefill _ _ _ _ => True
  | .release _ => True
  | .verify batch => (batch.map K3VerifySlot.slot).Nodup ∧
      ∀ entry ∈ batch, (s.session entry.slot).map K3Session.last = some entry.anchor
  | .decodeSpec _ batch => ∀ entry ∈ batch, (s.session entry.slot).map K3Session.last = some entry.lastToken

end K3Serving

/-- every slot follows plain decode of its request -/
structure Serves (T : K3Target ρ ω κ) (s : K3Serving ρ ω κ) : Prop where
  owned : s.executor.kv.Owned
  greedy : ∀ slot session, s.session slot = some session →
    session.tokens = T.decoder.greedy session.origin session.first session.tokens.length
  follows : ∀ slot session, s.session slot = some session →
    ∃ committed, Follows T s.executor slot committed (session.context T)

variable {s : K3Serving ρ ω κ} {session : K3Session ρ ω κ}

/-- the next token plain decode feeds is the request's last -/
theorem last_eq (h : session.tokens = T.decoder.greedy session.origin session.first session.tokens.length) :
    session.last = (T.decoder.after session.origin session.first session.tokens.length).2 := by
  rw [← Decoder.after_last, K3Session.last, List.getLast_eq_getLastD, ← h]

/-! ## What a call does to the requests -/

theorem pushOutcomes_other (outcomes : List (ℕ × List UInt32)) (hslot : slot ∉ outcomes.map Prod.fst) :
    ∀ session : ℕ → Option (K3Session ρ ω κ), pushOutcomes session outcomes slot = session slot := by
  induction outcomes with
  | nil => exact fun _ => rfl
  | cons outcome outcomes ih =>
    intro session
    rw [List.map_cons, List.mem_cons, not_or] at hslot
    exact (ih hslot.2 _).trans (Function.update_of_ne hslot.1 _ _)

theorem pushOutcomes_self {tokens : List UInt32} (outcomes : List (ℕ × List UInt32))
    (hnodup : (outcomes.map Prod.fst).Nodup) (hin : (slot, tokens) ∈ outcomes) :
    ∀ session : ℕ → Option (K3Session ρ ω κ), pushOutcomes session outcomes slot =
      (session slot).map fun s => { s with tokens := s.tokens ++ tokens } := by
  induction outcomes with
  | nil => exact absurd hin List.not_mem_nil
  | cons outcome outcomes ih =>
    intro session
    rw [List.map_cons, List.nodup_cons] at hnodup
    rcases List.mem_cons.1 hin with rfl | hin
    · exact (pushOutcomes_other outcomes hnodup.1 _).trans (Function.update_self _ _ _)
    · have hne : slot ≠ outcome.1 := fun heq => hnodup.1 (heq ▸ List.mem_map_of_mem hin)
      exact (ih hnodup.2 hin _).trans (congrArg (Option.map _) (Function.update_of_ne hne _ _))

/-- requests whose slots a call leaves alone -/
theorem Serves.undisturbed {session' : ℕ → Option (K3Session ρ ω κ)} (h : Serves T s)
    (hframe : Undisturbed slots s.executor e) (hout : ∀ slot, slot ∉ slots → session' slot = s.session slot)
    (hin : ∀ slot ∈ slots, ∀ session, session' slot = some session →
      session.tokens = T.decoder.greedy session.origin session.first session.tokens.length ∧
        ∃ committed, Follows T e slot committed (session.context T)) : Serves T ⟨e, session'⟩ := by
  refine ⟨hframe.owned, fun slot session hsession => ?_, fun slot session hsession => ?_⟩
  · by_cases hslot : slot ∈ slots
    · exact (hin slot hslot session hsession).1
    · exact h.greedy slot session ((hout slot hslot).symm.trans hsession)
  · by_cases hslot : slot ∈ slots
    · exact (hin slot hslot session hsession).2
    · obtain ⟨committed, hfollows⟩ := h.follows slot session ((hout slot hslot).symm.trans hsession)
      exact ⟨committed, hfollows.of_same (hframe.same slot hslot)⟩

/-- a round that failed -/
theorem Serves.failSlots (h : Serves T s) (hframe : Undisturbed slots s.executor e) :
    Serves T ⟨e, failSlots s.session slots⟩ := by
  refine h.undisturbed hframe (fun slot hslot => if_neg hslot) fun slot hslot session hsession => ?_
  rw [K3.failSlots, if_pos hslot] at hsession
  cases hsession

/-- **A round continues plain decode.** -/
theorem Serves.pushOutcomes (h : Serves T s) {outcomes : List (List UInt32)} (hnodup : slots.Nodup)
    (hframe : Undisturbed slots s.executor e) (hsettled : List.Forall₂ (fun slot tokens => ∀ session,
      s.session slot = some session → Settled T e slot session.last (session.context T) tokens) slots outcomes) :
    Serves T ⟨e, pushOutcomes s.session (slots.zip outcomes)⟩ := by
  have hfst : (slots.zip outcomes).map Prod.fst = slots := List.map_fst_zip hsettled.length_eq.le
  refine h.undisturbed hframe (fun slot hslot => pushOutcomes_other _ (hfst.symm ▸ hslot) _)
    fun slot hslot session hsession => ?_
  obtain ⟨⟨slot, tokens⟩, hin, rfl⟩ := List.mem_map.1 (hfst.symm ▸ hslot)
  dsimp only at hsession ⊢
  rw [pushOutcomes_self _ (hfst.symm ▸ hnodup) hin] at hsession
  obtain ⟨before, hbefore, rfl⟩ := Option.map_eq_some_iff.1 hsession
  have hgreedy := h.greedy slot before hbefore
  have hstep := (List.forall₂_iff_zip.1 hsettled).2 hin before hbefore
  have hnow : T.decoder.after before.origin before.first before.tokens.length = (before.context T, before.last) :=
    Prod.ext rfl (last_eq hgreedy).symm
  have hlater : T.decoder.after before.origin before.first (before.tokens ++ tokens).length =
      T.decoder.after (before.context T) before.last tokens.length := by
    rw [List.length_append, Decoder.after_add, hnow]
  refine ⟨?_, before.context T, ?_⟩
  · change before.tokens ++ tokens = T.decoder.greedy before.origin before.first (before.tokens ++ tokens).length
    rw [List.length_append, Decoder.greedy_add, hnow, ← hgreedy, ← hstep.greedy]
  · have hcontext : K3Session.context T { before with tokens := before.tokens ++ tokens } =
        (T.decoder.after (before.context T) before.last tokens.length).1 := congrArg Prod.fst hlater
    rw [hcontext]
    exact hstep.follows

/-! ## Taking and giving back a slot -/

theorem freeRow_same {other : ℕ} (hne : other ≠ slot) : SameSlot other e (e.freeRow slot) :=
  ⟨fun _ => rfl, fun _ => rfl, Function.update_of_ne hne _ _, rfl, fun _ _ hread => (releaseRow_read hne).trans hread⟩

theorem clearSpec_same {other : ℕ} (hne : other ≠ slot) : SameSlot other e (e.clearSpec slot) :=
  ⟨fun _ => rfl, fun _ => rfl, rfl, Function.update_of_ne hne _ _, fun _ _ h => h⟩

theorem adoptState_same {state : ρ × ω} {other : ℕ} (hne : other ≠ slot) :
    SameSlot other e (e.adoptState slot state) :=
  ⟨fun _ => setRow_other (.inr hne), fun _ => setRow_other (.inr hne), rfl, rfl, fun _ _ h => h⟩

theorem adopted_same {position other : ℕ} (hne : other ≠ slot) : SameSlot other e (e.adopted slot position) :=
  ⟨fun _ => rfl, fun _ => rfl, Function.update_of_ne hne _ _, Function.update_of_ne hne _ _, fun _ _ h => h⟩

section Adoption

variable {source : ℕ → κ} {tokens : ℕ}

/-- pages up to `tokens` adopted into a slot -/
structure Adopting (source : ℕ → κ) (slot tokens : ℕ) (e e' : K3Executor ρ ω κ) : Prop where
  owned : e'.kv.Owned
  reads : ∀ position < tokens, e'.kv.read slot position = some (source position)
  others : ∀ other, other ≠ slot → ∀ position latent, e.kv.read other position = some latent →
    e'.kv.read other position = some latent
  rest : e' = { e with kv := e'.kv }

theorem Adopting.mono {fewer : ℕ} (h : Adopting source slot tokens e e') (hle : fewer ≤ tokens) :
    Adopting source slot fewer e e' :=
  ⟨h.owned, fun position hlt => h.reads position (hlt.trans_le hle), h.others, h.rest⟩

theorem Adopting.same (h : Adopting source slot tokens e e') {other : ℕ} (hne : other ≠ slot) :
    SameSlot other e e' := by
  obtain ⟨-, -, hothers, hrest⟩ := h
  rw [hrest]
  exact ⟨fun _ => rfl, fun _ => rfl, rfl, rfl, hothers other hne⟩

variable [Inhabited κ]

theorem adoptPage_ends {pageSlot : ℕ} (h : Adopting source slot (pageSlot * k3KvPageTokens) e e₁) :
    Faulty.Ends (fun e => e = e₁) (adoptPage source slot pageSlot)
      (fun _ => Adopting source slot ((pageSlot + 1) * k3KvPageTokens) e) (Adopting source slot 0 e) := by
  have hslot : pageSlot * k3KvPageTokens / k3KvPageTokens = pageSlot := Nat.mul_div_cancel _ (by decide)
  refine .from_get (.from_lift (fun kv hkv => .from_modify ?_) (h.mono (Nat.zero_le _)))
  have hmapped : Adopting source slot (pageSlot * k3KvPageTokens) e (e₁.withKv kv) := by
    obtain ⟨hlt, hclaimed⟩ := ensureMapped_claimed hkv
    refine ⟨hclaimed.owned hlt h.owned, fun position hposition => hclaimed.read h.owned (h.reads position hposition),
      fun other hne position latent hread => hclaimed.read h.owned (h.others other hne position latent hread), ?_⟩
    have hrest := h.rest
    unfold K3Executor.withKv
    rw [hrest]
  have hfailed := hmapped.mono (Nat.zero_le _)
  refine .from_lift (fun target htarget => .from_operate (.modify ?_) hfailed) hfailed
  rintro e₂ rfl
  obtain ⟨hentry, -⟩ := writeIndex_ok_iff.1 htarget
  rw [hslot] at hentry
  obtain ⟨howned, hpage, hkept⟩ := copyPage_spec source hmapped.owned hentry
  refine ⟨howned, fun position hlt => ?_, fun other hne position latent hread => ?_, ?_⟩
  · rcases lt_or_ge position (pageSlot * k3KvPageTokens) with hold | hnew
    · refine hkept slot position _ (.inr ?_) (hmapped.reads position hold)
      exact (Nat.div_lt_of_lt_mul (by rwa [Nat.mul_comm] at hold)).ne
    · have htoken := hpage (position - pageSlot * k3KvPageTokens) (by rw [Nat.succ_mul] at hlt; omega)
      rwa [Nat.add_sub_cancel' hnew] at htoken
  · exact hkept other position latent (.inl hne) (hmapped.others other hne position latent hread)
  · have hrest := hmapped.rest
    unfold K3Executor.copyPage
    rw [hrest]
    rfl

/-- **An adopted row** reads its source, and no other row reads anything new. -/
theorem adoptKvRow_ends (howned : e.kv.Owned) :
    Faulty.Ends (fun e' => e' = e) (adoptKvRow source slot tokens) (fun _ => Adopting source slot tokens e)
      (Adopting source slot 0 e) := by
  have hstart : Adopting source slot 0 e e :=
    ⟨howned, fun _ hlt => absurd hlt (Nat.not_lt_zero _), fun _ _ _ _ h => h, rfl⟩
  have hloop : Faulty.Ends (Adopting source slot (0 * k3KvPageTokens) e) (adoptKvRow source slot tokens)
      (fun _ => Adopting source slot ((tokens + k3KvPageTokens - 1) / k3KvPageTokens * k3KvPageTokens) e)
      (Adopting source slot 0 e) :=
    Faulty.Ends.each_range (I := fun pages => Adopting source slot (pages * k3KvPageTokens) e) _
      fun pageSlot _ => .of_each fun e₁ h => adoptPage_ends h
  refine hloop.weaken (fun e' he => ?_) (fun _ e' h => h.mono ?_) fun _ h => h
  · rw [he, Nat.zero_mul]
    exact hstart
  · unfold k3KvPageTokens
    omega

end Adoption

section Slots

variable [Inhabited ρ] [Inhabited ω]

theorem zeroState_same {parity : Bool} {other : ℕ} (hne : other ≠ slot) : SameSlot other e (e.zeroState slot parity) :=
  ⟨fun _ => setRow_other (.inr hne), fun _ => setRow_other (.inr hne), rfl, rfl, fun _ _ h => h⟩

theorem resetRow_ends (h : Undisturbed [slot] e₀ e₁) :
    Faulty.Ends (fun e => e = e₁) (resetRow slot) (fun _ => Undisturbed [slot] e₀) (Undisturbed [slot] e₀) := by
  refine .from_get (.from_ensure (fun _ => ?_) fun _ => h)
  have hzeroed : Faulty.Ends (fun e => e = e₁) (Faulty.each (fun parity => Faulty.operate "zero a K3 state row" >>=
      fun _ => Faulty.modify (K3Executor.zeroState slot parity)) [false, true])
      (fun _ => Undisturbed [slot] e₀) (Undisturbed [slot] e₀) := by
    refine (Faulty.Ends.each (I := fun _ => Undisturbed [slot] e₀) _ fun _ parity _ _ => .of_each fun e₂ h₂ =>
      .from_operate (.modify ?_) h₂).weaken (fun e he => he ▸ h) (fun _ _ h => h) fun _ h => h
    rintro e rfl
    exact h₂.step h₂.owned (List.mem_singleton_self slot) fun other hne => zeroState_same hne
  refine hzeroed.from_bind fun _ e₂ h₂ => .from_operate (.modify ?_) h₂
  rintro e rfl
  exact h₂.step (releaseRow_owned h₂.owned) (List.mem_singleton_self slot) fun other hne => freeRow_same hne

theorem release_ends (howned : e₀.kv.Owned) :
    Faulty.Ends (fun e => e = e₀) (release slot) (fun _ => Undisturbed [slot] e₀) (Undisturbed [slot] e₀) := by
  have hstart : Undisturbed [slot] e₀ e₀ := ⟨howned, fun slot _ => .refl slot e₀⟩
  have hreset : Faulty.Ends (fun e => e = e₀)
      (Faulty.attempt (Faulty.operate "Failed to set CUDA device" >>= fun _ => resetRow slot))
      (fun _ => Undisturbed [slot] e₀) (Undisturbed [slot] e₀) := by
    refine .attempt (.from_operate ?_ fun _ => hstart)
    exact (resetRow_ends hstart).weaken (fun _ h => h) (fun _ _ h => h) fun _ h _ => h
  refine .from_get (hreset.from_bind fun _ e₁ h₁ => ?_)
  split_ifs
  · refine .modify ?_
    rintro e rfl
    exact h₁.step h₁.owned (List.mem_singleton_self slot) fun other hne => clearSpec_same hne
  · exact .from_pure h₁

/-- **A prefill's slot follows the context the prefill left.** -/
theorem prefillAdopt_ends [Inhabited κ] {state : ρ × ω} {latents : List κ} (howned : e₀.kv.Owned) :
    Faulty.Ends (fun e => e = e₀) (prefillAdopt slot state latents)
      (fun _ e => Undisturbed [slot] e₀ e ∧ Follows T e slot (state, latents) (state, latents))
      (Undisturbed [slot] e₀) := by
  have hstart : Undisturbed [slot] e₀ e₀ := ⟨howned, fun slot _ => .refl slot e₀⟩
  have hin : slot ∈ [slot] := List.mem_singleton_self slot
  refine .from_get (.from_ensure (fun _ => .from_ensure (fun _ => .from_ensure (fun _ => .from_operate (.from_operate
    ?_ hstart) hstart) fun _ => hstart) fun _ => hstart) fun _ => hstart)
  refine (resetRow_ends hstart).from_bind fun _ e₁ hreset => .from_operate (.from_modify ?_) hreset
  have hadopted : Undisturbed [slot] e₀ (e₁.adoptState slot state) :=
    hreset.step hreset.owned hin fun other hne => adoptState_same hne
  have hkept : ∀ {tokens : ℕ} (e : K3Executor ρ ω κ),
      Adopting (fun position => latents.getD position default) slot tokens (e₁.adoptState slot state) e →
        Undisturbed [slot] e₀ e := fun e h => hadopted.step h.owned hin fun other hne => h.same hne
  refine ((adoptKvRow_ends hadopted.owned).weaken (fun _ h => h) (fun _ _ h => h) hkept).from_bind ?_
  rintro - e₂ hpages
  have hframe : Undisturbed [slot] e₀ (e₂.adopted slot latents.length) :=
    (hkept e₂ hpages).step hpages.owned hin fun other hne => adopted_same hne
  refine .from_modify (.operate ?_ fun e he => he ▸ hframe)
  rintro e rfl
  have hspec : (e₂.adopted slot latents.length).spec slot = { parity := e₂.parity } := Function.update_self _ _ _
  have hparity : e₂.parity = e₁.parity :=
    (congrArg K3Executor.parity hpages.rest).trans (rfl : (e₁.adoptState slot state).parity = e₁.parity)
  refine ⟨hframe, ?_, ?_, ?_, ?_, fun position latent h => ?_⟩
  · rw [hspec, hparity]
    exact (congrFun (congrFun (congrArg K3Executor.recurrent hpages.rest) _) _).trans setRow_self
  · rw [hspec, hparity]
    exact (congrFun (congrFun (congrArg K3Executor.conv hpages.rest) _) _).trans setRow_self
  · rw [hspec]
    rfl
  · exact Function.update_self _ _ _
  · have hlt : position < latents.length := (List.getElem?_eq_some_iff.1 h).1
    refine (hpages.reads position hlt).trans (congrArg some ?_)
    rw [List.getD_eq_getElem?_getD, h]
    rfl

end Slots

/-! ## Runs -/

theorem settle_serves (h : Serves T s) {r : Except String (List (List UInt32))}
    (hok : ∀ outcomes, r = .ok outcomes → slots.Nodup ∧ Undisturbed slots s.executor e ∧
      List.Forall₂ (fun slot tokens => ∀ session, s.session slot = some session →
        Settled T e slot session.last (session.context T) tokens) slots outcomes)
    (hfail : ∀ message, r = .error message → Undisturbed slots s.executor e) : Serves T (s.settle slots r e) := by
  rcases r with message | outcomes
  · exact h.failSlots (hfail message rfl)
  · obtain ⟨hnodup, hframe, hsettled⟩ := hok outcomes rfl
    exact h.pushOutcomes hnodup hframe hsettled

/-- the entries of a batch, as the requests in their slots -/
theorem settled_sessions {ι : Type} {entrySlot : ι → ℕ} {anchor : ι → UInt32} {batch : List ι}
    {outcomes : List (List UInt32)}
    (hnow : ∀ slot session, s.session slot = some session → session.context T = now slot)
    (hlast : ∀ entry ∈ batch, (s.session (entrySlot entry)).map K3Session.last = some (anchor entry))
    (hsettled : List.Forall₂ (fun entry tokens =>
      Settled T e (entrySlot entry) (anchor entry) (now (entrySlot entry)) tokens) batch outcomes) :
    List.Forall₂ (fun slot tokens => ∀ session, s.session slot = some session →
      Settled T e slot session.last (session.context T) tokens) (batch.map entrySlot) outcomes := by
  refine List.forall₂_map_left_iff.2 (List.forall₂_iff_zip.2 ⟨hsettled.length_eq, ?_⟩)
  intro entry tokens hin session hsession
  have hentry := hlast entry (List.of_mem_zip hin).1
  rw [hsession] at hentry
  have hanchor : session.last = anchor entry := Option.some.inj hentry
  rw [hnow _ session hsession, hanchor]
  exact (List.forall₂_iff_zip.1 hsettled).2 hin

section Runs

variable [Inhabited ρ] [Inhabited ω] [Inhabited κ]

/-- **Each call keeps every slot on plain decode.** -/
theorem call_serves (h : Serves T s) {c : K3Call ρ ω κ × Faults} (hfair : s.Fair c) : Serves T (s.call T c) := by
  -- the contexts of the requests in their slots, whatever the others are
  have hcontexts : ∀ slot, ∃ now, ∀ session, s.session slot = some session → session.context T = now := by
    intro slot
    rcases s.session slot with _ | session
    · exact ⟨(default, []), fun _ h => by cases h⟩
    · exact ⟨session.context T, fun _ h => by rw [Option.some.inj h]⟩
  choose now hnow using hcontexts
  have hstates : ∀ slot, ∃ committed, ∀ session, s.session slot = some session →
      Follows T s.executor slot committed (now slot) := by
    intro slot
    rcases hsession : s.session slot with _ | session
    · exact ⟨(default, []), fun _ h => by cases h⟩
    · obtain ⟨committed, hfollows⟩ := h.follows slot session hsession
      exact ⟨committed, fun _ _ => hnow slot session hsession ▸ hfollows⟩
  choose committed hcommitted using hstates
  obtain ⟨c, faults⟩ := c
  cases c with
  | prefill slot state latents first =>
    have hadopt : Faulty.Ends (fun e => e = s.executor) (prefillAdopt slot state latents)
        (fun _ e => Undisturbed [slot] s.executor e ∧ Follows T e slot (state, latents) (state, latents))
        (Undisturbed [slot] s.executor) := prefillAdopt_ends h.owned
    have hout : ∀ (session : Option (K3Session ρ ω κ)) (other : ℕ), other ∉ [slot] →
        Function.update s.session slot session other = s.session other := fun session other hother =>
      Function.update_of_ne (List.ne_of_not_mem_cons hother) _ _
    rw [K3Serving.call]
    rcases hrun : prefillAdopt slot state latents s.executor faults with ⟨_ | _, e, rest⟩
    · refine h.undisturbed (hadopt.run_error rfl hrun) (hout _) fun other hother session hsession => ?_
      rw [List.mem_singleton.1 hother, Function.update_self] at hsession
      cases hsession
    · obtain ⟨hframe, hfollows⟩ := hadopt.run_ok rfl hrun
      refine h.undisturbed hframe (hout _) fun other hother session hsession => ?_
      obtain rfl := List.mem_singleton.1 hother
      rw [Function.update_self] at hsession
      obtain rfl := Option.some.inj hsession
      exact ⟨rfl, _, hfollows⟩
  | release slot =>
    refine h.undisturbed ((release_ends h.owned).run rfl faults) (fun other hother => Function.update_of_ne ?_ _ _) ?_
    · exact List.ne_of_not_mem_cons hother
    · intro other hother session hsession
      rw [List.mem_singleton.1 hother, Function.update_self] at hsession
      cases hsession
  | verify batch =>
    obtain ⟨hnodup, hlast⟩ := hfair
    have hstanding : ∀ entry ∈ batch, Follows T s.executor entry.slot (committed entry.slot) (now entry.slot) := by
      intro entry hin
      obtain ⟨session, hsession, -⟩ := Option.map_eq_some_iff.1 (hlast entry hin)
      exact hcommitted entry.slot session hsession
    have hround := verifyInner_ends hnodup h.owned hstanding
    rw [K3Serving.call]
    refine settle_serves h (fun outcomes hok => ?_) fun message herror => hround.run_error rfl (Prod.ext herror rfl)
    obtain ⟨hframe, hsettled⟩ := hround.run_ok rfl (Prod.ext hok rfl)
    exact ⟨hnodup, hframe, settled_sessions hnow hlast hsettled⟩
  | decodeSpec propose batch =>
    have hstanding : ∀ entry ∈ batch, Follows T s.executor entry.slot (committed entry.slot) (now entry.slot) := by
      intro entry hin
      obtain ⟨session, hsession, -⟩ := Option.map_eq_some_iff.1 (hfair entry hin)
      exact hcommitted entry.slot session hsession
    have hround := decodeSpecInner_ends propose h.owned hstanding
    rw [K3Serving.call]
    refine settle_serves h (fun outcomes hok => ?_) fun message herror => hround.run_error rfl (Prod.ext herror rfl)
    obtain ⟨hnodup, hframe, hsettled⟩ := hround.run_ok rfl (Prod.ext hok rfl)
    exact ⟨hnodup, hframe, settled_sessions hnow hfair hsettled⟩

theorem new_serves (maxBatch maxCtx numPages : ℕ) (expertParallel dspark : Bool) :
    Serves T (⟨.new maxBatch maxCtx numPages expertParallel dspark, fun _ => none⟩ : K3Serving ρ ω κ) := by
  refine ⟨⟨List.nodup_range, ?_, ?_, ?_⟩, ?_, ?_⟩
  · intro row pageSlot page hentry
    cases hentry
  · intro row pageSlot row' pageSlot' page hentry
    cases hentry
  · intro row pageSlot page hentry
    cases hentry
  · intro slot session hsession
    cases hsession
  · intro slot session hsession
    cases hsession

theorem run_calls (calls : List (K3Call ρ ω κ × Faults)) : ∀ s : K3Serving ρ ω κ,
    run (K3Serving.step T) s calls = .ok (calls.foldl (K3Serving.call T) s) := by
  induction calls with
  | nil => exact fun _ => rfl
  | cons c calls ih => exact fun s => ih (s.call T c)

theorem stepsMeet_call {c : K3Call ρ ω κ × Faults} {calls : List (K3Call ρ ω κ × Faults)} (hfair : s.Fair c)
    (h : StepsMeet (K3Serving.step T) K3Serving.Fair (s.call T c) calls) :
    StepsMeet (K3Serving.step T) K3Serving.Fair s (c :: calls) :=
  ⟨hfair, fun _ hs' => Except.ok.inj hs' ▸ h⟩

/-- **Verify rounds are plain greedy decode.** After any calls on a fresh executor, whatever was drafted, however batches
were split and whatever failed: a request's committed tokens are those of plain decode, its slot's position is past its
prompt by as many, and the committed state with the pending tokens is the context of that position. -/
theorem verify_rounds_greedy (T : K3Target ρ ω κ) (maxBatch maxCtx numPages : ℕ) (expertParallel dspark : Bool)
    (calls : List (K3Call ρ ω κ × Faults)) (s : K3Serving ρ ω κ)
    (hfair : StepsMeet (K3Serving.step T) K3Serving.Fair
      ⟨.new maxBatch maxCtx numPages expertParallel dspark, fun _ => none⟩ calls)
    (hrun : run (K3Serving.step T) ⟨.new maxBatch maxCtx numPages expertParallel dspark, fun _ => none⟩ calls = .ok s) :
    ∀ slot session, s.session slot = some session →
      session.tokens = T.decoder.greedy session.origin session.first session.tokens.length ∧
        s.executor.positions slot = session.origin.2.length + session.tokens.length ∧
        ∃ committed : (ρ × ω) × List κ,
          s.executor.recurrent (s.executor.spec slot).parity slot = committed.1.1 ∧
            s.executor.conv (s.executor.spec slot).parity slot = committed.1.2 ∧
            T.decoder.feedAll committed (s.executor.spec slot).pending =
              (T.decoder.after session.origin session.first session.tokens.length).1 ∧
            committed.2.length + (s.executor.spec slot).pending.length = s.executor.positions slot := by
  have hserves : Serves T s := by
    refine run_invariant (I := fun _ s => Serves T s) _ (new_serves _ _ _ _ _) (fun _ s c s' h hfair hstep => ?_) calls s
      hfair hrun
    obtain rfl := Except.ok.inj hstep
    exact call_serves h hfair
  intro slot session hsession
  obtain ⟨committed, hfollows⟩ := hserves.follows slot session hsession
  refine ⟨hserves.greedy slot session hsession, ?_, committed, hfollows.recurrent, hfollows.conv, hfollows.replay,
    hfollows.length_add⟩
  rw [hfollows.position, K3Session.context, latents_after]

end Runs

/-- a target that counts on from its token -/
def countingTarget : K3Target ℕ ℕ ℕ where
  latent state latents token := state.1 + latents.length + token.toNat
  forward state latents token := ((state.1 + latents.length, state.2 + token.toNat), token + 1)

def countingStart : K3Serving ℕ ℕ ℕ := ⟨.new 16 100 4 false true, fun _ => none⟩

/-- a prefill, a round with two of three drafts accepted, and one that replays them -/
def countingCalls : List (K3Call ℕ ℕ ℕ × Faults) :=
  [(.prefill 1 (0, 0) [7] 5, []), (.decodeSpec (fun _ => .ok [[6, 7, 9]]) [⟨1, 5⟩], []),
    (.decodeSpec (fun _ => .ok [[1]]) [⟨1, 8⟩], [])]

def countingEnd : K3Serving ℕ ℕ ℕ := countingCalls.foldl (K3Serving.call countingTarget) countingStart

theorem verify_rounds_greedy_counting : ∃ session, countingEnd.session 1 = some session ∧
    session.tokens = [6, 7, 8, 9] ∧
    session.tokens = countingTarget.decoder.greedy session.origin session.first session.tokens.length ∧
    countingEnd.executor.positions 1 = session.origin.2.length + session.tokens.length := by
  have hfair : StepsMeet (K3Serving.step countingTarget) K3Serving.Fair countingStart countingCalls := by
    refine stepsMeet_call trivial (stepsMeet_call (fun entry hin => ?_) (stepsMeet_call (fun entry hin => ?_) trivial))
    · rw [List.mem_singleton.1 hin]
      decide +kernel
    · rw [List.mem_singleton.1 hin]
      decide +kernel
  have htokens : (countingEnd.session 1).map K3Session.tokens = some [6, 7, 8, 9] := by decide +kernel
  obtain ⟨session, hsession, heq⟩ := Option.map_eq_some_iff.1 htokens
  obtain ⟨hgreedy, hposition, -⟩ := verify_rounds_greedy countingTarget 16 100 4 false true countingCalls countingEnd
    hfair (run_calls countingCalls countingStart) 1 session hsession
  exact ⟨session, hsession, heq, hgreedy, hposition⟩

end Pegainfer.K3
