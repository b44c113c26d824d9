/-
What a verify step's rows compute on the device.

A slot's context is its state with the latents of its tokens. Replay rows lead the committed state to the context; the
span's rows answer it token by token and leave its latents in the cache.
- `runRows_replay`, `runRows_span`: the two kinds of segment.
- `runGroup_answers`: one group, and what it leaves of the other slots.
-/
import Mathlib.Tactic
import Pegainfer.Lib.Laid
import Pegainfer.K3.Verify

namespace Pegainfer.K3

open Pegainfer.Lib

variable {ρ ω κ : Type}

/-- a target fed one token at a time -/
def K3Target.decoder (T : K3Target ρ ω κ) : Decoder ((ρ × ω) × List κ) UInt32 where
  feed ctx token :=
    let latents := ctx.2 ++ [T.latent ctx.1 ctx.2 token]
    ((T.forward ctx.1 latents token).1, latents)
  next ctx token := (T.forward ctx.1 (ctx.2 ++ [T.latent ctx.1 ctx.2 token]) token).2

variable {T : K3Target ρ ω κ}

/-- a token adds a latent -/
theorem latents_feedAll (span : List UInt32) : ∀ ctx : (ρ × ω) × List κ,
    ctx.2 <+: (T.decoder.feedAll ctx span).2 ∧ (T.decoder.feedAll ctx span).2.length = ctx.2.length + span.length := by
  induction span with
  | nil => exact fun ctx => ⟨List.prefix_refl _, rfl⟩
  | cons token span ih =>
    intro ctx
    obtain ⟨hshorter, hlength⟩ := ih (T.decoder.feed ctx token)
    have hfeed : (T.decoder.feed ctx token).2 = ctx.2 ++ [T.latent ctx.1 ctx.2 token] := rfl
    rw [hfeed] at hshorter hlength
    refine ⟨(List.prefix_append _ _).trans hshorter, ?_⟩
    rw [List.length_append, List.length_singleton] at hlength
    rw [List.length_cons, Nat.add_comm span.length, ← Nat.add_assoc]
    exact hlength

theorem latents_after (n : ℕ) : ∀ (ctx : (ρ × ω) × List κ) (token : UInt32),
    (T.decoder.after ctx token n).1.2.length = ctx.2.length + n := by
  induction n with
  | zero => exact fun _ _ => rfl
  | succ n ih =>
    intro ctx token
    have hfeed : (T.decoder.feed ctx token).2.length = ctx.2.length + 1 := List.length_append
    refine (ih (T.decoder.feed ctx token) (T.decoder.next ctx token)).trans ?_
    rw [hfeed, Nat.add_assoc, Nat.add_comm 1]

/-! ## Latents in the cache -/

namespace K3PagedKv

variable {kv kv' : K3PagedKv κ} {slot : ℕ} {latents shorter : List κ} {index : ℕ × ℕ} {latent : κ}

/-- a slot's first positions hold these latents -/
def Cached (kv : K3PagedKv κ) (slot : ℕ) (latents : List κ) : Prop :=
  ∀ position latent, latents[position]? = some latent → kv.read slot position = some latent

theorem Cached.of_prefix (h : kv.Cached slot latents) (hshorter : shorter <+: latents) : kv.Cached slot shorter := by
  intro position latent hlatent
  obtain ⟨rest, rfl⟩ := hshorter
  exact h position latent (List.getElem?_append_left (List.getElem?_eq_some_iff.1 hlatent).1 ▸ hlatent)

theorem Cached.mono (h : kv.Cached slot latents)
    (hreads : ∀ position latent, kv.read slot position = some latent → kv'.read slot position = some latent) :
    kv'.Cached slot latents := fun position latent hlatent => hreads position latent (h position latent hlatent)

/-- what a row attends to through the slot's pages -/
theorem Cached.latents_eq [Inhabited κ] (h : kv.Cached slot latents) :
    kv.latents (kv.table slot) latents.length = latents := by
  refine List.ext_getElem? fun position => ?_
  unfold K3PagedKv.latents
  rw [List.getElem?_map]
  rcases lt_or_ge position latents.length with hlt | hge
  · have hread := h position latents[position] (List.getElem?_eq_getElem hlt)
    unfold K3PagedKv.read at hread
    rw [List.getElem?_range hlt, List.getElem?_eq_getElem hlt]
    exact congrArg some (congrArg (fun found => Option.getD found default) hread)
  · rw [List.getElem?_eq_none hge, List.getElem?_eq_none (by rwa [List.length_range])]
    rfl

theorem Cached.append (howned : kv.Owned) (h : kv.Cached slot latents)
    (hindex : kv.writeIndex slot latents.length = .ok index) :
    (kv.append index latent).Cached slot (latents ++ [latent]) := by
  intro position other hother
  rcases lt_trichotomy position latents.length with hlt | rfl | hgt
  · rw [List.getElem?_append_left hlt] at hother
    rw [append_read_other howned hindex (.inr hlt.ne)]
    exact h position other hother
  · rw [List.getElem?_append_right (le_refl _), Nat.sub_self] at hother
    obtain rfl := Option.some.inj hother
    exact append_read_self hindex
  · have hnone : (latents ++ [latent])[position]? = none := List.getElem?_eq_none (by simpa using hgt)
    rw [hnone] at hother
    cases hother

/-- writes at one slot's positions -/
structure Wrote (slot : ℕ) (kv kv' : K3PagedKv κ) : Prop where
  table : kv'.table = kv.table
  owned : kv'.Owned
  reads : ∀ other, other ≠ slot → ∀ position, kv'.read other position = kv.read other position

theorem Wrote.refl (howned : kv.Owned) : Wrote slot kv kv := ⟨rfl, howned, fun _ _ _ => rfl⟩

theorem Wrote.append {position : ℕ} (howned : kv.Owned) (hindex : kv.writeIndex slot position = .ok index) :
    Wrote slot kv (kv.append index latent) :=
  ⟨rfl, append_owned howned, fun _ hne _ => append_read_other howned hindex (.inl hne)⟩

theorem Wrote.trans {kv'' : K3PagedKv κ} (h : Wrote slot kv kv') (h' : Wrote slot kv' kv'') : Wrote slot kv kv'' :=
  ⟨h'.table.trans h.table, h'.owned, fun other hne position =>
    (h'.reads other hne position).trans (h.reads other hne position)⟩

end K3PagedKv

open K3PagedKv

/-! ## Segments -/

/-- replay rows as they are staged -/
def ReplayStaged (staged : ℕ → K3Row) : (row position : ℕ) → List UInt32 → Prop
  | _, _, [] => True
  | row, position, token :: pending =>
    staged row = ⟨token, position + 1, none⟩ ∧ ReplayStaged staged (row + 1) (position + 1) pending

/-- a span's rows as they are staged, each with a mapped page -/
def SpanStaged (staged : ℕ → K3Row) (kv : K3PagedKv κ) (slot : ℕ) : (row position : ℕ) → List UInt32 → Prop
  | _, _, [] => True
  | row, position, token :: span =>
    (∃ index, kv.writeIndex slot position = .ok index ∧ staged row = ⟨token, position + 1, some index⟩) ∧
      SpanStaged staged kv slot (row + 1) (position + 1) span

/-- rows of a slot's table row -/
def TableStaged (verifyTable : ℕ → ℕ → Option ℕ) (kv : K3PagedKv κ) (slot row n : ℕ) : Prop :=
  ∀ r, row ≤ r → r < row + n → verifyTable r = kv.table slot

variable {staged : ℕ → K3Row} {verifyTable : ℕ → ℕ → Option ℕ} {slot : ℕ} {kv : K3PagedKv κ}

theorem TableStaged.tail {row n : ℕ} (h : TableStaged verifyTable kv slot row (n + 1)) :
    TableStaged verifyTable kv slot (row + 1) n :=
  fun r hle hlt => h r (by omega) (by omega)

theorem SpanStaged.of_table {kv' : K3PagedKv κ} (htable : kv'.table = kv.table) {span : List UInt32} :
    ∀ {row position : ℕ}, SpanStaged staged kv slot row position span → SpanStaged staged kv' slot row position span := by
  induction span with
  | nil => exact fun h => h
  | cons token span ih =>
    rintro row position ⟨⟨index, hindex, hrow⟩, hrest⟩
    refine ⟨⟨index, ?_, hrow⟩, ih hrest⟩
    rw [writeIndex_ok_iff] at hindex ⊢
    rwa [htable]

section Rows

variable [Inhabited κ]

/-- **Replay rows lead the committed state to the context**, and write nothing. -/
theorem runRows_replay (pending : List UInt32) : ∀ (ctx : (ρ × ω) × List κ) (row : ℕ) (w : K3Walk ρ ω κ),
    w.state = ctx.1 → ReplayStaged staged row ctx.2.length pending →
      TableStaged verifyTable w.kv slot row pending.length → w.kv.Cached slot (T.decoder.feedAll ctx pending).2 →
        (runRows T staged verifyTable row pending.length w).state = (T.decoder.feedAll ctx pending).1 ∧
          (runRows T staged verifyTable row pending.length w).kv = w.kv ∧
          ∀ r, r < row ∨ row + pending.length ≤ r →
            (runRows T staged verifyTable row pending.length w).sampled r = w.sampled r := by
  induction pending with
  | nil => exact fun ctx row w hstate _ _ _ => ⟨hstate, rfl, fun _ _ => rfl⟩
  | cons token pending ih =>
    intro ctx row w hstate hstaged htable hcached
    have hlength : (T.decoder.feed ctx token).2.length = ctx.2.length + 1 := List.length_append
    have hfed : w.kv.Cached slot (T.decoder.feed ctx token).2 :=
      hcached.of_prefix (latents_feedAll pending (T.decoder.feed ctx token)).1
    have hlatents : w.kv.latents (verifyTable row) (ctx.2.length + 1) = (T.decoder.feed ctx token).2 := by
      rw [htable row (le_refl row) (by rw [List.length_cons]; omega), ← hlength]
      exact hfed.latents_eq
    have hrow : runRow T (staged row) (verifyTable row) row w =
        ⟨(T.decoder.feed ctx token).1, w.kv, Function.update w.sampled row (T.decoder.next ctx token)⟩ := by
      rw [hstaged.1]
      change K3Walk.mk (T.forward w.state (w.kv.latents _ (ctx.2.length + 1)) token).1 w.kv
        (Function.update w.sampled row (T.forward w.state (w.kv.latents _ (ctx.2.length + 1)) token).2) = _
      rw [hlatents, hstate]
      rfl
    obtain ⟨hend, hkv, hothers⟩ := ih (T.decoder.feed ctx token) (row + 1)
      ⟨(T.decoder.feed ctx token).1, w.kv, Function.update w.sampled row (T.decoder.next ctx token)⟩ rfl
      (hlength ▸ hstaged.2) htable.tail hcached
    rw [List.length_cons, runRows, hrow]
    refine ⟨hend, hkv, fun r hr => (hothers r (by omega)).trans ?_⟩
    exact Function.update_of_ne (by omega) _ _

/-- **The span's rows answer it**, and append its latents. -/
theorem runRows_span (span : List UInt32) : ∀ (ctx : (ρ × ω) × List κ) (row : ℕ) (w : K3Walk ρ ω κ),
    w.state = ctx.1 → w.kv.Owned → SpanStaged staged w.kv slot row ctx.2.length span →
      TableStaged verifyTable w.kv slot row span.length → w.kv.Cached slot ctx.2 →
        (runRows T staged verifyTable row span.length w).state = (T.decoder.feedAll ctx span).1 ∧
          Laid (runRows T staged verifyTable row span.length w).sampled row (T.decoder.answers ctx span) ∧
          Wrote slot w.kv (runRows T staged verifyTable row span.length w).kv ∧
          (runRows T staged verifyTable row span.length w).kv.Cached slot (T.decoder.feedAll ctx span).2 ∧
          ∀ r, r < row ∨ row + span.length ≤ r →
            (runRows T staged verifyTable row span.length w).sampled r = w.sampled r := by
  induction span with
  | nil => exact fun ctx row w hstate howned _ _ hcached => ⟨hstate, trivial, .refl howned, hcached, fun _ _ => rfl⟩
  | cons token span ih =>
    intro ctx row w hstate howned hstaged htable hcached
    obtain ⟨⟨index, hindex, hrow⟩, hrest⟩ := hstaged
    have hchain : verifyTable row = w.kv.table slot := htable row (le_refl row) (by rw [List.length_cons]; omega)
    have hlatent : T.latent w.state (w.kv.latents (verifyTable row) (ctx.2.length + 1 - 1)) token =
        T.latent ctx.1 ctx.2 token := by
      rw [hstate, hchain, Nat.add_sub_cancel, hcached.latents_eq]
    have hfed : (w.kv.append index (T.latent ctx.1 ctx.2 token)).Cached slot (T.decoder.feed ctx token).2 :=
      hcached.append howned hindex
    have hlength : (T.decoder.feed ctx token).2.length = ctx.2.length + 1 := List.length_append
    have hlatents : (w.kv.append index (T.latent ctx.1 ctx.2 token)).latents (verifyTable row) (ctx.2.length + 1) =
        (T.decoder.feed ctx token).2 := by
      rw [hchain, ← hlength]
      exact hfed.latents_eq
    have hrun : runRow T (staged row) (verifyTable row) row w =
        ⟨(T.decoder.feed ctx token).1, w.kv.append index (T.latent ctx.1 ctx.2 token),
          Function.update w.sampled row (T.decoder.next ctx token)⟩ := by
      rw [hrow]
      change K3Walk.mk (T.forward w.state ((w.kv.append index (T.latent w.state _ token)).latents _ (ctx.2.length + 1))
        token).1 (w.kv.append index (T.latent w.state _ token)) (Function.update w.sampled row
          (T.forward w.state ((w.kv.append index (T.latent w.state _ token)).latents _ (ctx.2.length + 1)) token).2) = _
      rw [hlatent, hlatents, hstate]
      rfl
    have hwrote : Wrote slot w.kv (w.kv.append index (T.latent ctx.1 ctx.2 token)) := .append howned hindex
    obtain ⟨hend, hlaid, hwrote', hcached', hothers⟩ := ih (T.decoder.feed ctx token) (row + 1)
      ⟨(T.decoder.feed ctx token).1, w.kv.append index (T.latent ctx.1 ctx.2 token),
        Function.update w.sampled row (T.decoder.next ctx token)⟩ rfl hwrote.owned
      (hlength ▸ hrest.of_table hwrote.table) htable.tail hfed
    rw [List.length_cons, runRows, hrun]
    refine ⟨hend, ⟨?_, hlaid⟩, hwrote.trans hwrote', hcached', fun r hr => (hothers r (by omega)).trans ?_⟩
    · rw [hothers row (by omega)]
      exact Function.update_self _ _ _
    · exact Function.update_of_ne (by omega) _ _

end Rows

/-! ## Slots -/

section Slabs

variable {α : Type} {slab : Bool → ℕ → α} {parity parity' : Bool} {row row' : ℕ} {a : α}

@[simp] theorem setRow_self : setRow slab parity row a parity row = a := by
  rw [setRow, Function.update_self, Function.update_self]

theorem setRow_other (h : parity' ≠ parity ∨ row' ≠ row) : setRow slab parity row a parity' row' = slab parity' row' := by
  unfold setRow
  by_cases hparity : parity' = parity
  · subst hparity
    rw [Function.update_self, Function.update_of_ne (h.resolve_left fun hne => hne rfl)]
  · rw [Function.update_of_ne hparity]

end Slabs

variable {e e' e'' : K3Executor ρ ω κ} {entry : K3VerifySlot} {group : K3KdaGroup} {other row row' : ℕ}
  {committed now : (ρ × ω) × List κ}

/-- a slot whose committed state and pending tokens lead to the context `now`, with all its latents cached -/
structure Follows (T : K3Target ρ ω κ) (e : K3Executor ρ ω κ) (slot : ℕ) (committed now : (ρ × ω) × List κ) : Prop where
  recurrent : e.recurrent (e.spec slot).parity slot = committed.1.1
  conv : e.conv (e.spec slot).parity slot = committed.1.2
  replay : T.decoder.feedAll committed (e.spec slot).pending = now
  position : e.positions slot = now.2.length
  cached : e.kv.Cached slot now.2

/-- the tokens of the committed state and the pending ones are the positions -/
theorem Follows.length_add (h : Follows T e slot committed now) :
    committed.2.length + (e.spec slot).pending.length = e.positions slot := by
  rw [h.position, ← h.replay, (latents_feedAll _ committed).2]

/-- nothing of a slot changed, but that it may read more -/
structure SameSlot (slot : ℕ) (e e' : K3Executor ρ ω κ) : Prop where
  recurrent : ∀ parity, e'.recurrent parity slot = e.recurrent parity slot
  conv : ∀ parity, e'.conv parity slot = e.conv parity slot
  position : e'.positions slot = e.positions slot
  spec : e'.spec slot = e.spec slot
  reads : ∀ position latent, e.kv.read slot position = some latent → e'.kv.read slot position = some latent

theorem SameSlot.refl (slot : ℕ) (e : K3Executor ρ ω κ) : SameSlot slot e e :=
  ⟨fun _ => rfl, fun _ => rfl, rfl, rfl, fun _ _ h => h⟩

theorem SameSlot.trans (h : SameSlot slot e e') (h' : SameSlot slot e' e'') : SameSlot slot e e'' where
  recurrent parity := (h'.recurrent parity).trans (h.recurrent parity)
  conv parity := (h'.conv parity).trans (h.conv parity)
  position := h'.position.trans h.position
  spec := h'.spec.trans h.spec
  reads position latent hread := h'.reads position latent (h.reads position latent hread)

theorem Follows.of_same (h : Follows T e slot committed now) (hsame : SameSlot slot e e') :
    Follows T e' slot committed now where
  recurrent := by rw [hsame.spec, hsame.recurrent, h.recurrent]
  conv := by rw [hsame.spec, hsame.conv, h.conv]
  replay := by rw [hsame.spec, h.replay]
  position := by rw [hsame.position, h.position]
  cached := h.cached.mono hsame.reads

/-- the group of an entry: its pending tokens, then the anchor and its drafts -/
structure Packed (e : K3Executor ρ ω κ) (entry : K3VerifySlot) (group : K3KdaGroup) : Prop where
  commitRows : group.commitRows = (e.spec entry.slot).pending.length
  specRows : group.specRows = 1 + entry.drafts.length
  stateRow : group.stateRow = entry.slot
  parity : group.parity = (e.spec entry.slot).parity

def K3KdaGroup.stop (group : K3KdaGroup) : ℕ := group.row + (group.commitRows + group.specRows)

/-- the slab that holds the state of the context once the commit rows ran -/
def K3KdaGroup.landing (group : K3KdaGroup) : Bool := if 0 < group.commitRows then !group.parity else group.parity

/-- a group whose rows are fed -/
structure Primed (e : K3Executor ρ ω κ) (entry : K3VerifySlot) (group : K3KdaGroup) : Prop where
  replay : ReplayStaged e.staged group.row (e.positions entry.slot - group.commitRows) (e.spec entry.slot).pending
  span : SpanStaged e.staged e.kv entry.slot (group.row + group.commitRows) (e.positions entry.slot)
    (entry.anchor :: entry.drafts)
  table : TableStaged e.verifyTable e.kv entry.slot group.row (group.commitRows + group.specRows)

/-- a group whose rows ran: the state of the context landed, and the span is answered and cached -/
structure Answered (T : K3Target ρ ω κ) (e : K3Executor ρ ω κ) (entry : K3VerifySlot) (group : K3KdaGroup)
    (now : (ρ × ω) × List κ) : Prop where
  packed : Packed e entry group
  recurrent : e.recurrent group.landing entry.slot = now.1.1
  conv : e.conv group.landing entry.slot = now.1.2
  position : e.positions entry.slot = now.2.length
  cached : e.kv.Cached entry.slot (T.decoder.feedAll now (entry.anchor :: entry.drafts)).2
  answers : Laid e.sampled (group.row + group.commitRows) (T.decoder.answers now (entry.anchor :: entry.drafts))

/-- what a group's run leaves as it is -/
structure Ran (entry : K3VerifySlot) (group : K3KdaGroup) (e e' : K3Executor ρ ω κ) : Prop where
  owned : e'.kv.Owned
  table : e'.kv.table = e.kv.table
  same : ∀ other, other ≠ entry.slot → SameSlot other e e'
  sampled : ∀ r, r < group.row ∨ group.stop ≤ r → e'.sampled r = e.sampled r
  rest : e' = { e with recurrent := e'.recurrent, conv := e'.conv, kv := e'.kv, sampled := e'.sampled }

section Groups

variable [Inhabited κ]

/-- the slabs once a group ran: the context's state where the commit rows land, whatever the span left in the other -/
theorem runGroup_eq {commit : K3Walk ρ ω κ}
    (hcommit : runRows T e.staged e.verifyTable group.row group.commitRows
      ⟨(e.recurrent group.parity group.stateRow, e.conv group.parity group.stateRow), e.kv, e.sampled⟩ = commit)
    (hstate : commit.state = now.1) :
    ∃ recurrent conv, recurrent group.landing group.stateRow = now.1.1 ∧ conv group.landing group.stateRow = now.1.2 ∧
      (∀ parity row, row ≠ group.stateRow →
        recurrent parity row = e.recurrent parity row ∧ conv parity row = e.conv parity row) ∧
      e.runGroup T group =
        { e with
          recurrent := recurrent
          conv := conv
          kv := (runRows T e.staged e.verifyTable (group.row + group.commitRows) group.specRows
            ⟨now.1, commit.kv, commit.sampled⟩).kv
          sampled := (runRows T e.staged e.verifyTable (group.row + group.commitRows) group.specRows
            ⟨now.1, commit.kv, commit.sampled⟩).sampled } := by
  unfold K3Executor.runGroup K3KdaGroup.landing
  dsimp only
  rw [hcommit]
  by_cases hrows : 0 < group.commitRows
  · rw [if_pos hrows, if_pos hrows]
    dsimp only
    rw [setRow_self, hstate]
    refine ⟨_, _, ?_, setRow_self, fun parity row hne => ⟨?_, setRow_other (.inr hne)⟩, rfl⟩
    · rw [setRow_other (.inl (Bool.not_ne_self _).symm), setRow_self]
    · rw [setRow_other (.inr hne), setRow_other (.inr hne)]
  · have hnone : group.commitRows = 0 := Nat.eq_zero_of_not_pos hrows
    have hcarried : (e.recurrent group.parity group.stateRow, e.conv group.parity group.stateRow) = now.1 := by
      rw [← hstate, ← hcommit, hnone]
      rfl
    rw [if_neg hrows, if_neg hrows]
    have hwindow : commit.state.2 = e.conv group.parity group.stateRow := by rw [hstate, ← hcarried]
    rw [hwindow, hcarried]
    refine ⟨_, e.conv, ?_, congrArg Prod.snd hcarried, fun parity row hne => ⟨setRow_other (.inr hne), rfl⟩, rfl⟩
    rw [setRow_other (.inl (Bool.not_ne_self _).symm)]
    exact congrArg Prod.fst hcarried

/-- **A group's run** lands the state of the context and answers the span. -/
theorem runGroup_answers (hfollows : Follows T e entry.slot committed now) (hpacked : Packed e entry group)
    (hprimed : Primed e entry group) (howned : e.kv.Owned) :
    Answered T (e.runGroup T group) entry group now ∧ Ran entry group e (e.runGroup T group) := by
  have hstart : e.positions entry.slot - group.commitRows = committed.2.length := by
    have hlength := hfollows.length_add
    have hcommit := hpacked.commitRows
    omega
  have hcarried : (e.recurrent group.parity group.stateRow, e.conv group.parity group.stateRow) = committed.1 := by
    rw [hpacked.stateRow, hpacked.parity, hfollows.recurrent, hfollows.conv]
  obtain ⟨hend, hkv, hbefore⟩ := runRows_replay (T := T) (e.spec entry.slot).pending committed group.row
    ⟨(e.recurrent group.parity group.stateRow, e.conv group.parity group.stateRow), e.kv, e.sampled⟩ hcarried
    (hstart ▸ hprimed.replay) (fun r hle hlt => hprimed.table r hle (by rw [hpacked.commitRows]; omega))
    (hfollows.replay ▸ hfollows.cached)
  rw [← hpacked.commitRows, hfollows.replay] at hend
  rw [← hpacked.commitRows] at hkv hbefore
  obtain ⟨recurrent, conv, hrecurrent, hconv, hrows, hrun⟩ := runGroup_eq rfl hend
  rw [hkv] at hrun
  obtain ⟨-, hlaid, hwrote, hcached, hafter⟩ := runRows_span (T := T) (entry.anchor :: entry.drafts) now
    (group.row + group.commitRows) ⟨now.1, e.kv, _⟩ rfl howned (hfollows.position ▸ hprimed.span)
    (fun r hle hlt => hprimed.table r (by omega) (by
      have hspec := hpacked.specRows
      rw [List.length_cons] at hlt
      omega)) hfollows.cached
  have hlength : (entry.anchor :: entry.drafts).length = group.specRows := by
    rw [List.length_cons, hpacked.specRows, Nat.add_comm]
  rw [hlength] at hlaid hwrote hcached hafter
  rw [hrun]
  refine ⟨⟨⟨hpacked.commitRows, hpacked.specRows, hpacked.stateRow, hpacked.parity⟩, hpacked.stateRow ▸ hrecurrent,
    hpacked.stateRow ▸ hconv, hfollows.position, hcached, hlaid⟩, hwrote.owned, hwrote.table, fun other hne => ?_,
    fun r hr => ?_, rfl⟩
  · have hrow : other ≠ group.stateRow := hpacked.stateRow ▸ hne
    exact ⟨fun parity => (hrows parity other hrow).1, fun parity => (hrows parity other hrow).2, rfl, rfl,
      fun position latent hread => (hwrote.reads other hne position).trans hread⟩
  · unfold K3KdaGroup.stop at hr
    exact (hafter r (by omega)).trans (hbefore r (by omega))

end Groups

end Pegainfer.K3
