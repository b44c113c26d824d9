/-
One verify round over a batch of slots.

The entries of a batch have slots and row ranges of their own, so each goes through staging, the device and the commit as
if it were alone.
- `packGroups_ok`: the groups of a batch, one behind the other.
- `stageGroup_ends`: what staging a group feeds and maps.
- `commitGroup_ends`: what a group's answers commit.
- `verifyInner_ends`: a whole round, and what a failed one leaves of the other slots.
-/
import Mathlib.Tactic
import Pegainfer.K3.VerifyDevice

namespace Pegainfer.K3

open Pegainfer.Lib K3PagedKv

variable {ρ ω κ : Type} {T : K3Target ρ ω κ} {e e' e'' e₁ : K3Executor ρ ω κ} {entry : K3VerifySlot}
  {group : K3KdaGroup} {batch : List K3VerifySlot} {groups : List K3KdaGroup} {slot lo hi : ℕ}

/-! ## Packing -/

/-- **The groups of a batch** are its entries' in order, one behind the other. -/
theorem packGroups_ok (batch : List K3VerifySlot) : ∀ {rows : ℕ} {packed : List K3KdaGroup × ℕ},
    e.packGroups rows batch = .ok packed →
      List.Forall₂ (Packed e) batch packed.1 ∧ packed.1.Pairwise (fun a b => a.stop ≤ b.row) ∧
        (∀ group ∈ packed.1, rows ≤ group.row ∧ group.stop ≤ packed.2) ∧ rows ≤ packed.2 := by
  induction batch with
  | nil =>
    intro rows packed h
    obtain rfl := Except.ok.inj h
    exact ⟨.nil, .nil, fun _ hin => absurd hin List.not_mem_nil, le_refl _⟩
  | cons entry batch ih =>
    intro rows packed h
    rw [K3Executor.packGroups] at h
    split_ifs at h with hlt
    obtain ⟨rest, hrest, h⟩ := bind_eq_ok.1 h
    obtain rfl := Except.ok.inj h
    obtain ⟨hpacked, hpairwise, hwithin, hle⟩ := ih hrest
    have hstop : K3KdaGroup.stop ⟨rows, (e.spec entry.slot).pending.length, 1 + entry.drafts.length, entry.slot,
        (e.spec entry.slot).parity⟩ = rows + ((e.spec entry.slot).pending.length + 1 + entry.drafts.length) := by
      unfold K3KdaGroup.stop
      dsimp only
      omega
    refine ⟨.cons ⟨rfl, rfl, rfl, rfl⟩ hpacked, .cons (fun group hin => ?_) hpairwise, fun group hin => ?_, by omega⟩
    · rw [hstop]
      exact (hwithin group hin).1
    · rcases List.mem_cons.1 hin with rfl | hin
      · rw [hstop]
        exact ⟨le_refl _, hle⟩
      · exact ⟨le_trans (by omega) (hwithin group hin).1, (hwithin group hin).2⟩

/-- the slots and the rows of two groups of a batch -/
structure ZipApart (a b : K3VerifySlot × K3KdaGroup) : Prop where
  slot : a.1.slot ≠ b.1.slot
  rows : a.2.stop ≤ b.2.row ∨ b.2.stop ≤ a.2.row

instance : Std.Symm ZipApart where
  symm _ _ h := ⟨h.slot.symm, h.rows.symm⟩

theorem zip_apart (hnodup : (batch.map K3VerifySlot.slot).Nodup) (hlength : batch.length = groups.length)
    (hpairwise : groups.Pairwise fun a b => a.stop ≤ b.row) : (batch.zip groups).Pairwise ZipApart := by
  have hslots : (batch.zip groups).Pairwise fun a b => a.1.slot ≠ b.1.slot := by
    have hfst : (batch.zip groups).map Prod.fst = batch := List.map_fst_zip hlength.le
    rw [← hfst, List.map_map] at hnodup
    exact List.pairwise_map.1 hnodup
  have hrows : (batch.zip groups).Pairwise fun a b => a.2.stop ≤ b.2.row := by
    have hsnd : (batch.zip groups).map Prod.snd = groups := List.map_snd_zip hlength.ge
    rw [← hsnd] at hpairwise
    exact List.pairwise_map.1 hpairwise
  exact (hslots.and hrows).imp fun h => ⟨h.1, .inl h.2⟩

/-! ## Staging -/

/-- what staging a slot's rows changes: its pages, and the rows it feeds -/
structure Fed (slot lo hi : ℕ) (e e' : K3Executor ρ ω κ) : Prop where
  owned : e.kv.Owned → e'.kv.Owned
  tables : ∀ other, other ≠ slot → e'.kv.table other = e.kv.table other
  entries : ∀ pageSlot page, e.kv.table slot pageSlot = some page → e'.kv.table slot pageSlot = some page
  reads : e.kv.Owned → ∀ other position latent, e.kv.read other position = some latent →
    e'.kv.read other position = some latent
  staged : ∀ r, r < lo ∨ hi ≤ r → e'.staged r = e.staged r
  verifyTable : ∀ r, r < lo ∨ hi ≤ r → e'.verifyTable r = e.verifyTable r
  rest : e' = { e with kv := e'.kv, staged := e'.staged, verifyTable := e'.verifyTable }

theorem Fed.refl : Fed slot lo hi e e :=
  ⟨id, fun _ _ => rfl, fun _ _ h => h, fun _ _ _ _ h => h, fun _ _ => rfl, fun _ _ => rfl, rfl⟩

theorem Fed.trans (h : Fed slot lo hi e e') (h' : Fed slot lo hi e' e'') : Fed slot lo hi e e'' where
  owned howned := h'.owned (h.owned howned)
  tables other hne := (h'.tables other hne).trans (h.tables other hne)
  entries pageSlot page hentry := h'.entries pageSlot page (h.entries pageSlot page hentry)
  reads howned other position latent hread :=
    h'.reads (h.owned howned) other position latent (h.reads howned other position latent hread)
  staged r hr := (h'.staged r hr).trans (h.staged r hr)
  verifyTable r hr := (h'.verifyTable r hr).trans (h.verifyTable r hr)
  rest := by
    have hrest := h'.rest
    rw [h.rest] at hrest
    exact hrest

theorem Fed.widen {lo' hi' : ℕ} (h : Fed slot lo hi e e') (hlo : lo' ≤ lo) (hhi : hi ≤ hi') :
    Fed slot lo' hi' e e' :=
  ⟨h.owned, h.tables, h.entries, h.reads, fun r hr => h.staged r (by omega), fun r hr => h.verifyTable r (by omega),
    h.rest⟩

theorem Fed.stageRow {row : ℕ} {r : K3Row} (hlo : lo ≤ row) (hhi : row < hi) : Fed slot lo hi e (e.stageRow row r) :=
  ⟨id, fun _ _ => rfl, fun _ _ h => h, fun _ _ _ _ h => h, fun r hr => Function.update_of_ne (by omega) _ _,
    fun _ _ => rfl, rfl⟩

theorem Fed.stageVerifyRow {row : ℕ} (hlo : lo ≤ row) (hhi : row < hi) :
    Fed slot lo hi e (e.stageVerifyRow row slot) :=
  ⟨id, fun _ _ => rfl, fun _ _ h => h, fun _ _ _ _ h => h, fun _ _ => rfl,
    fun r hr => Function.update_of_ne (by omega) _ _, rfl⟩

theorem Fed.ensureMapped [Inhabited κ] {kv : K3PagedKv κ} {position : ℕ}
    (h : e.kv.ensureMapped slot position = .ok kv) : Fed slot lo hi e (e.withKv kv) := by
  obtain ⟨hlt, hclaimed⟩ := ensureMapped_claimed h
  exact ⟨fun howned => hclaimed.owned hlt howned, fun other hne => hclaimed.other_row hne,
    fun pageSlot page hentry => hclaimed.keeps hentry, fun howned other position latent hread =>
      hclaimed.read howned hread, fun _ _ => rfl, fun _ _ => rfl, rfl⟩

/-- no other slot changes, and this one only in its pages -/
theorem Fed.same (h : Fed slot lo hi e e') (howned : e.kv.Owned) (other : ℕ) : SameSlot other e e' := by
  have hrecurrent := congrArg K3Executor.recurrent h.rest
  have hconv := congrArg K3Executor.conv h.rest
  have hpositions := congrArg K3Executor.positions h.rest
  have hspec := congrArg K3Executor.spec h.rest
  exact ⟨fun parity => congrFun (congrFun hrecurrent parity) other, fun parity => congrFun (congrFun hconv parity) other,
    congrFun hpositions other, congrFun hspec other, h.reads howned other⟩

theorem ReplayStaged.congr {staged staged' : ℕ → K3Row} {pending : List UInt32} : ∀ {row position : ℕ},
    (∀ r, row ≤ r → r < row + pending.length → staged' r = staged r) → ReplayStaged staged row position pending →
      ReplayStaged staged' row position pending := by
  induction pending with
  | nil => exact fun _ h => h
  | cons token pending ih =>
    intro row position hagree h
    rw [List.length_cons] at hagree
    refine ⟨(hagree row (le_refl _) (by omega)).trans h.1, ih (fun r hle hlt => ?_) h.2⟩
    exact hagree r (by omega) (by omega)

theorem SpanStaged.congr {staged staged' : ℕ → K3Row} {kv kv' : K3PagedKv κ} {span : List UInt32}
    (hentries : ∀ pageSlot page, kv.table slot pageSlot = some page → kv'.table slot pageSlot = some page) :
    ∀ {row position : ℕ}, (∀ r, row ≤ r → r < row + span.length → staged' r = staged r) →
      SpanStaged staged kv slot row position span → SpanStaged staged' kv' slot row position span := by
  induction span with
  | nil => exact fun _ h => h
  | cons token span ih =>
    rintro row position hagree ⟨⟨index, hindex, hrow⟩, hrest⟩
    rw [List.length_cons] at hagree
    obtain ⟨hpage, htoken⟩ := writeIndex_ok_iff.1 hindex
    refine ⟨⟨index, writeIndex_ok_iff.2 ⟨hentries _ _ hpage, htoken⟩, ?_⟩, ih (fun r hle hlt => ?_) hrest⟩
    · exact (hagree row (le_refl _) (by omega)).trans hrow
    · exact hagree r (by omega) (by omega)

theorem stageReplay_ends (slot : ℕ) (pending : List UInt32) : ∀ (row position : ℕ) (e₁ : K3Executor ρ ω κ),
    Faulty.Ends (fun e => e = e₁) (stageReplay row position pending)
      (fun _ e => Fed slot row (row + pending.length) e₁ e ∧ ReplayStaged e.staged row position pending)
      (Fed slot row (row + pending.length) e₁) := by
  induction pending with
  | nil => exact fun row position e₁ => .from_pure ⟨.refl, trivial⟩
  | cons token pending ih =>
    intro row position e₁
    rw [List.length_cons]
    refine .from_ensure (fun _ => .from_modify ?_) fun _ => .refl
    have hrow : Fed slot row (row + (pending.length + 1)) e₁ (e₁.stageRow row ⟨token, position + 1, none⟩) :=
      .stageRow (le_refl _) (by omega)
    have hwiden : ∀ e, Fed slot (row + 1) (row + 1 + pending.length) (e₁.stageRow row ⟨token, position + 1, none⟩) e →
        Fed slot row (row + (pending.length + 1)) e₁ e := fun e h => hrow.trans (h.widen (by omega) (by omega))
    refine (ih (row + 1) (position + 1) _).weaken (fun _ h => h) (fun _ e h => ?_) hwiden
    refine ⟨hwiden e h.1, (h.1.staged row (by omega)).trans ?_, h.2⟩
    exact Function.update_self _ _ _

theorem stageSpan_ends [Inhabited κ] (slot : ℕ) (span : List UInt32) : ∀ (row position : ℕ) (e₁ : K3Executor ρ ω κ),
    Faulty.Ends (fun e => e = e₁) (stageSpan slot row position span)
      (fun _ e => Fed slot row (row + span.length) e₁ e ∧ SpanStaged e.staged e.kv slot row position span)
      (Fed slot row (row + span.length) e₁) := by
  induction span with
  | nil => exact fun row position e₁ => .from_pure ⟨.refl, trivial⟩
  | cons token span ih =>
    intro row position e₁
    rw [List.length_cons]
    refine .from_ensure (fun _ => .from_get (.from_lift (fun kv hkv => .from_modify ?_) .refl)) fun _ => .refl
    have hmapped : Fed slot row (row + (span.length + 1)) e₁ (e₁.withKv kv) := .ensureMapped hkv
    refine .from_lift (fun index hindex => .from_modify ?_) hmapped
    set e₂ := (e₁.withKv kv).stageRow row ⟨token, position + 1, some index⟩ with he₂
    have hrow : Fed slot row (row + (span.length + 1)) e₁ e₂ := hmapped.trans (.stageRow (le_refl _) (by omega))
    have hwiden : ∀ e, Fed slot (row + 1) (row + 1 + span.length) e₂ e → Fed slot row (row + (span.length + 1)) e₁ e :=
      fun e h => hrow.trans (h.widen (by omega) (by omega))
    refine (ih (row + 1) (position + 1) e₂).weaken (fun _ h => h) (fun _ e h => ?_) hwiden
    obtain ⟨hpage, htoken⟩ := writeIndex_ok_iff.1 hindex
    refine ⟨hwiden e h.1, ⟨index, writeIndex_ok_iff.2 ⟨h.1.entries _ _ hpage, htoken⟩, ?_⟩, h.2⟩
    rw [h.1.staged row (by omega)]
    exact Function.update_self _ _ _

theorem stageVerifyRows_ends (slot n : ℕ) : ∀ (row : ℕ) (e₁ : K3Executor ρ ω κ),
    Faulty.Ends (fun e => e = e₁) (stageVerifyRows slot row n)
      (fun _ e => Fed slot row (row + n) e₁ e ∧ TableStaged e.verifyTable e.kv slot row n ∧ e.kv = e₁.kv ∧
        e.staged = e₁.staged)
      (Fed slot row (row + n) e₁) := by
  induction n with
  | zero => exact fun row e₁ => .from_pure ⟨.refl, fun r hle hlt => absurd hlt (by omega), rfl, rfl⟩
  | succ n ih =>
    intro row e₁
    refine .from_get (.from_ensure (fun _ => .from_modify ?_) fun _ => .refl)
    have hrow : Fed slot row (row + (n + 1)) e₁ (e₁.stageVerifyRow row slot) := .stageVerifyRow (le_refl _) (by omega)
    have hwiden : ∀ e, Fed slot (row + 1) (row + 1 + n) (e₁.stageVerifyRow row slot) e →
        Fed slot row (row + (n + 1)) e₁ e := fun e h => hrow.trans (h.widen (by omega) (by omega))
    refine (ih (row + 1) _).weaken (fun _ h => h) (fun _ e h => ?_) hwiden
    obtain ⟨hfed, htable, hkv, hstaged⟩ := h
    refine ⟨hwiden e hfed, fun r hle hlt => ?_, hkv, hstaged⟩
    rcases Nat.eq_or_lt_of_le hle with rfl | hgt
    · rw [hfed.verifyTable row (by omega), hkv]
      exact Function.update_self _ _ _
    · exact htable r hgt (by omega)

/-- **Staging a group** feeds its rows, and leaves everything of the other slots. -/
theorem stageGroup_ends [Inhabited κ] (hpacked : Packed e₁ entry group) :
    Faulty.Ends (fun e => e = e₁) (stageGroup entry group)
      (fun _ e => Fed entry.slot group.row group.stop e₁ e ∧ Primed e entry group)
      (Fed entry.slot group.row group.stop e₁) := by
  have hreplay : (e₁.spec entry.slot).pending.length = group.commitRows := hpacked.commitRows.symm
  have hspan : (entry.anchor :: entry.drafts).length = group.specRows := by
    rw [List.length_cons, hpacked.specRows, Nat.add_comm]
  have hstop : group.stop = group.row + (group.commitRows + group.specRows) := rfl
  refine .from_get (.from_ensure (fun _ => .from_ensure (fun _ => ?_) fun _ => .refl) fun _ => .refl)
  have hfirst := stageReplay_ends entry.slot (e₁.spec entry.slot).pending group.row
    (e₁.positions entry.slot - group.commitRows) e₁
  rw [hreplay] at hfirst
  refine (hfirst.weaken (fun _ h => h) (fun _ _ h => h) fun e h => h.widen (le_refl _) (by omega)).from_bind ?_
  rintro - e₂ ⟨hfed₂, hreplayed⟩
  have hfed₂ : Fed entry.slot group.row group.stop e₁ e₂ := hfed₂.widen (le_refl _) (by omega)
  have hsecond := stageSpan_ends entry.slot (entry.anchor :: entry.drafts) (group.row + group.commitRows)
    (e₁.positions entry.slot) e₂
  rw [hspan] at hsecond
  refine (hsecond.weaken (fun _ h => h) (fun _ _ h => h) fun e h =>
    hfed₂.trans (h.widen (by omega) (by omega))).from_bind ?_
  rintro - e₃ ⟨hfed₃, hspanned⟩
  have hfed₁₃ : Fed entry.slot group.row group.stop e₁ e₃ := hfed₂.trans (hfed₃.widen (by omega) (by omega))
  refine (stageVerifyRows_ends entry.slot (group.commitRows + group.specRows) group.row e₃).weaken
    (fun _ h => h) (fun _ e h => ?_) fun e h => hfed₁₃.trans (h.widen (le_refl _) (by omega))
  obtain ⟨hfed₄, htable, hkv, hstaged⟩ := h
  have hfed : Fed entry.slot group.row group.stop e₁ e := hfed₁₃.trans (hfed₄.widen (le_refl _) (by omega))
  have hpositions : e.positions entry.slot = e₁.positions entry.slot :=
    congrFun (congrArg K3Executor.positions hfed.rest) entry.slot
  have hspec : e.spec entry.slot = e₁.spec entry.slot := congrFun (congrArg K3Executor.spec hfed.rest) entry.slot
  refine ⟨hfed, ⟨?_, ?_, htable⟩⟩
  · rw [hpositions, hspec, hstaged]
    refine hreplayed.congr fun r hle hlt => hfed₃.staged r (.inl ?_)
    omega
  · rw [hpositions, hstaged, hkv]
    exact hspanned

/-! ## Commits -/

/-- the drafts accepted from the samples are those that agree with the answers -/
theorem length_takeWhile_agreeing {sampled : ℕ → UInt32} {anchorRow : ℕ} (drafts : List UInt32) :
    ∀ (k : ℕ) (answers : List UInt32), Laid sampled (anchorRow + k) answers → drafts.length ≤ answers.length →
      ((drafts.zipIdx k).takeWhile fun draft => sampled (anchorRow + draft.2) == draft.1).length =
        agreeing drafts answers := by
  induction drafts with
  | nil => exact fun _ _ _ _ => rfl
  | cons draft drafts ih =>
    intro k answers hlaid hlength
    rcases answers with _ | ⟨answer, answers⟩
    · exact absurd hlength (Nat.not_succ_le_zero _)
    · obtain ⟨hanswer, hrest⟩ := hlaid
      rw [List.zipIdx_cons, List.takeWhile_cons, agreeing]
      dsimp only
      rw [hanswer]
      by_cases hagree : answer = draft
      · rw [if_pos hagree, if_pos (beq_iff_eq.2 hagree), List.length_cons]
        exact congrArg Nat.succ (ih (k + 1) answers hrest (Nat.le_of_succ_le_succ hlength))
      · rw [if_neg hagree, if_neg (fun h => hagree (beq_iff_eq.1 h))]
        rfl

/-- a slot behind a round that committed `tokens` -/
structure Settled (T : K3Target ρ ω κ) (e : K3Executor ρ ω κ) (slot : ℕ) (anchor : UInt32) (now : (ρ × ω) × List κ)
    (tokens : List UInt32) : Prop where
  nonempty : tokens ≠ []
  greedy : tokens = T.decoder.greedy now anchor tokens.length
  follows : Follows T e slot now (T.decoder.after now anchor tokens.length).1
  position : e.positions slot = now.2.length + tokens.length

theorem Settled.of_same {anchor : UInt32} {now : (ρ × ω) × List κ} {tokens : List UInt32}
    (h : Settled T e slot anchor now tokens) (hsame : SameSlot slot e e') : Settled T e' slot anchor now tokens :=
  ⟨h.nonempty, h.greedy, h.follows.of_same hsame, hsame.position.trans h.position⟩

theorem commitSlot_same {accepted other : ℕ} (hne : other ≠ entry.slot) :
    SameSlot other e (e.commitSlot entry group accepted) :=
  ⟨fun _ => rfl, fun _ => rfl, Function.update_of_ne hne _ _, Function.update_of_ne hne _ _, fun _ _ h => h⟩

/-- **What is committed is plain decode's**, and the slot follows it. -/
theorem commitSlot_settled {now : (ρ × ω) × List κ} (h : Answered T e entry group now) :
    Settled T (e.commitSlot entry group (acceptedDrafts e.sampled (group.row + group.commitRows) entry.drafts))
      entry.slot entry.anchor now
      ((List.range (acceptedDrafts e.sampled (group.row + group.commitRows) entry.drafts + 1)).map fun index =>
        e.sampled (group.row + group.commitRows + index)) := by
  set answers := T.decoder.answers now (entry.anchor :: entry.drafts) with hanswers
  have hlength : answers.length = entry.drafts.length + 1 := Decoder.length_answers _ _
  have haccepted : acceptedDrafts e.sampled (group.row + group.commitRows) entry.drafts =
      agreeing entry.drafts answers :=
    length_takeWhile_agreeing entry.drafts 0 answers h.answers (by omega)
  have hle : agreeing entry.drafts answers ≤ entry.drafts.length := Decoder.agreeing_le entry.drafts answers
  rw [haccepted, h.answers.read (by rw [Decoder.length_answers, List.length_cons]; omega)]
  set n := agreeing entry.drafts answers with hn
  have htake : (answers.take (n + 1)).length = n + 1 := by
    rw [List.length_take, hlength]
    omega
  have hfed : T.decoder.feedAll now (entry.anchor :: entry.drafts.take n) =
      (T.decoder.after now entry.anchor (n + 1)).1 := Decoder.feedAll_take entry.drafts now entry.anchor
  have hlatents := (latents_feedAll (T := T) (entry.anchor :: entry.drafts.take n) now).2
  rw [List.length_cons, List.length_take, min_eq_left hle, hfed] at hlatents
  have hparity : ((e.commitSlot entry group n).spec entry.slot).parity = group.landing := by
    change (Function.update e.spec entry.slot _ entry.slot).parity = _
    rw [Function.update_self, K3KdaGroup.landing, h.packed.parity]
  have hpending : ((e.commitSlot entry group n).spec entry.slot).pending = entry.anchor :: entry.drafts.take n := by
    change (Function.update e.spec entry.slot _ entry.slot).pending = _
    rw [Function.update_self]
  have hposition : (e.commitSlot entry group n).positions entry.slot = now.2.length + (n + 1) := by
    change Function.update e.positions entry.slot _ entry.slot = _
    rw [Function.update_self, h.position]
  have hcached : (T.decoder.after now entry.anchor (n + 1)).1.2 <+:
      (T.decoder.feedAll now (entry.anchor :: entry.drafts)).2 := by
    have hsplit : entry.anchor :: entry.drafts = (entry.anchor :: entry.drafts.take n) ++ entry.drafts.drop n := by
      rw [List.cons_append, List.take_append_drop]
    rw [hsplit, Decoder.feedAll_append, hfed]
    exact (latents_feedAll _ _).1
  refine ⟨fun hnil => ?_, ?_, ⟨?_, ?_, ?_, ?_, ?_⟩, ?_⟩
  · rw [hnil] at htake
    cases htake
  · rw [htake]
    exact Decoder.answers_take entry.drafts now entry.anchor
  · rw [hparity]
    exact h.recurrent
  · rw [hparity]
    exact h.conv
  · rw [hpending, hfed, htake]
  · rw [hposition, htake, hlatents]
  · rw [htake]
    exact h.cached.of_prefix hcached
  · rw [hposition, htake]

theorem commitGroup_ends {now : (ρ × ω) × List κ} (h : Answered T e₁ entry group now) :
    Faulty.Ends (fun e => e = e₁) (commitGroup entry group)
      (fun tokens e => Settled T e entry.slot entry.anchor now tokens ∧ e.kv = e₁.kv ∧ e.sampled = e₁.sampled ∧
        ∀ other, other ≠ entry.slot → SameSlot other e₁ e)
      (fun e => e.kv = e₁.kv ∧ ∀ other, other ≠ entry.slot → SameSlot other e₁ e) := by
  have hend := commitSlot_settled h
  refine .from_get (.from_modify ?_)
  by_cases hdspark : e₁.dspark = true
  · rw [if_pos hdspark]
    exact .from_operate (.from_pure ⟨hend, rfl, rfl, fun other hne => commitSlot_same hne⟩)
      ⟨rfl, fun other hne => commitSlot_same hne⟩
  · rw [if_neg hdspark]
    exact .from_pure ⟨hend, rfl, rfl, fun other hne => commitSlot_same hne⟩

/-! ## Neighbours

What one entry's turn leaves of the others. -/

variable {committed now : ℕ → (ρ × ω) × List κ} {slots : List ℕ} {e₀ : K3Executor ρ ω κ}
  {pair other : K3VerifySlot × K3KdaGroup}

theorem Packed.of_same (h : Packed e entry group) (hsame : SameSlot entry.slot e e') : Packed e' entry group :=
  ⟨by rw [hsame.spec, h.commitRows], h.specRows, h.stateRow, by rw [hsame.spec, h.parity]⟩

theorem Primed.congr (h : Primed e entry group) (hpacked : Packed e entry group) (hsame : SameSlot entry.slot e e')
    (htable : e'.kv.table entry.slot = e.kv.table entry.slot)
    (hrows : ∀ r, group.row ≤ r → r < group.stop → e'.staged r = e.staged r ∧ e'.verifyTable r = e.verifyTable r) :
    Primed e' entry group := by
  have hstop : group.stop = group.row + (group.commitRows + group.specRows) := rfl
  have hcommit := hpacked.commitRows
  have hspec := hpacked.specRows
  refine ⟨?_, ?_, fun r hle hlt => ?_⟩
  · rw [hsame.position, hsame.spec]
    exact h.replay.congr fun r hle hlt => (hrows r hle (by omega)).1
  · rw [hsame.position]
    refine h.span.congr (fun pageSlot page hentry => by rwa [htable]) fun r hle hlt => (hrows r (by omega) ?_).1
    rw [List.length_cons] at hlt
    omega
  · rw [(hrows r hle (by omega)).2, h.table r hle hlt, htable]

theorem Answered.congr {now : (ρ × ω) × List κ} (h : Answered T e entry group now) (hsame : SameSlot entry.slot e e')
    (hsampled : ∀ r, group.row ≤ r → r < group.stop → e'.sampled r = e.sampled r) :
    Answered T e' entry group now where
  packed := h.packed.of_same hsame
  recurrent := by rw [hsame.recurrent, h.recurrent]
  conv := by rw [hsame.conv, h.conv]
  position := by rw [hsame.position, h.position]
  cached := h.cached.mono hsame.reads
  answers := by
    refine h.answers.congr fun r hle hlt => hsampled r (by omega) ?_
    rw [Decoder.length_answers, List.length_cons] at hlt
    have hstop : group.stop = group.row + (group.commitRows + group.specRows) := rfl
    have hspec := h.packed.specRows
    omega

/-- every other slot is as it was, and the pages have one owner each -/
structure Undisturbed (slots : List ℕ) (e₀ e : K3Executor ρ ω κ) : Prop where
  owned : e.kv.Owned
  same : ∀ slot, slot ∉ slots → SameSlot slot e₀ e

theorem Undisturbed.step (h : Undisturbed slots e₀ e) (howned : e'.kv.Owned) (hin : slot ∈ slots)
    (hsame : ∀ other, other ≠ slot → SameSlot other e e') : Undisturbed slots e₀ e' :=
  ⟨howned, fun other hother => (h.same other hother).trans (hsame other fun heq => hother (heq ▸ hin))⟩

/-- an entry before its rows are staged -/
def Standing (T : K3Target ρ ω κ) (committed now : ℕ → (ρ × ω) × List κ) (pair : K3VerifySlot × K3KdaGroup)
    (e : K3Executor ρ ω κ) : Prop :=
  Packed e pair.1 pair.2 ∧ Follows T e pair.1.slot (committed pair.1.slot) (now pair.1.slot)

theorem Standing.of_same (h : Standing T committed now pair e) (hsame : SameSlot pair.1.slot e e') :
    Standing T committed now pair e' := ⟨h.1.of_same hsame, h.2.of_same hsame⟩

section Phases

variable [Inhabited κ] {pairs : List (K3VerifySlot × K3KdaGroup)} (hpairs : pairs.Pairwise ZipApart)
  (hslots : ∀ pair ∈ pairs, pair.1.slot ∈ slots)

include hpairs hslots

theorem stage_apart : Faulty.Ends.Apart (Undisturbed slots e₀) (Standing T committed now)
    (fun pair _ e => Standing T committed now pair e ∧ Primed e pair.1 pair.2) (Undisturbed slots e₀) pairs
    fun pair => stageGroup pair.1 pair.2 := by
  intro pair hin e₁ hframe hstanding
  have hkept : ∀ e, Fed pair.1.slot pair.2.row pair.2.stop e₁ e → Undisturbed slots e₀ e := fun e hfed =>
    hframe.step (hfed.owned hframe.owned) (hslots pair hin) fun other _ => hfed.same hframe.owned other
  refine (stageGroup_ends hstanding.1).weaken (fun _ h => h) (fun _ e h => ?_) hkept
  obtain ⟨hfed, hprimed⟩ := h
  refine ⟨hkept e hfed, ⟨hstanding.of_same (hfed.same hframe.owned _), hprimed⟩, fun other hother hne => ?_⟩
  have hsame := hfed.same hframe.owned other.1.slot
  have happ : ZipApart other pair := hpairs.forall hother hin hne
  refine ⟨fun h => h.of_same hsame, fun _ h => ⟨h.1.of_same hsame, h.2.congr h.1.1 hsame (hfed.tables _ happ.slot) ?_⟩⟩
  have hrows := happ.rows
  exact fun r hle hlt => ⟨hfed.staged r (by omega), hfed.verifyTable r (by omega)⟩

theorem run_apart : Faulty.Ends.Apart (Undisturbed slots e₀)
    (fun pair e => Standing T committed now pair e ∧ Primed e pair.1 pair.2)
    (fun pair _ e => Answered T e pair.1 pair.2 (now pair.1.slot)) (Undisturbed slots e₀) pairs
    fun pair => Faulty.operate "K3 verify step failed" >>= fun _ =>
      Faulty.modify (K3Executor.runGroup T pair.2) := by
  rintro pair hin e₁ hframe ⟨⟨hpacked, hfollows⟩, hprimed⟩
  obtain ⟨hanswered, hran⟩ := runGroup_answers hfollows hpacked hprimed hframe.owned
  refine .from_operate (.modify ?_) hframe
  rintro e rfl
  refine ⟨hframe.step hran.owned (hslots pair hin) hran.same, hanswered, fun other hother hne => ?_⟩
  have happ : ZipApart other pair := hpairs.forall hother hin hne
  have hsame := hran.same other.1.slot happ.slot
  have hstaged := congrArg K3Executor.staged hran.rest
  have hverify := congrArg K3Executor.verifyTable hran.rest
  have hrows := happ.rows
  refine ⟨fun h => ⟨h.1.of_same hsame, h.2.congr h.1.1 hsame (by rw [hran.table]) fun r _ _ => ?_⟩,
    fun _ h => h.congr hsame fun r hle hlt => hran.sampled r (by omega)⟩
  exact ⟨congrFun hstaged r, congrFun hverify r⟩

omit [Inhabited κ] in
theorem commit_apart : Faulty.Ends.Apart (Undisturbed slots e₀)
    (fun pair e => Answered T e pair.1 pair.2 (now pair.1.slot))
    (fun pair tokens e => Settled T e pair.1.slot pair.1.anchor (now pair.1.slot) tokens) (Undisturbed slots e₀) pairs
    fun pair => commitGroup pair.1 pair.2 := by
  intro pair hin e₁ hframe hanswered
  refine (commitGroup_ends hanswered).weaken (fun _ h => h) (fun tokens e h => ?_) fun e h => ?_
  · obtain ⟨hsettled, hkv, hsampled, hothers⟩ := h
    refine ⟨hframe.step (hkv ▸ hframe.owned) (hslots pair hin) hothers, hsettled, fun other hother hne => ?_⟩
    have hsame := hothers other.1.slot (hpairs.forall hother hin hne).slot
    exact ⟨fun h => h.congr hsame fun r _ _ => congrFun hsampled r, fun _ h => h.of_same hsame⟩
  · exact hframe.step (h.1 ▸ hframe.owned) (hslots pair hin) h.2

theorem k3VerifyStep_ends {bucket : ℕ} (hframe : Undisturbed slots e₀ e₁)
    (hprimed : ∀ pair ∈ pairs, Standing T committed now pair e₁ ∧ Primed e₁ pair.1 pair.2) :
    Faulty.Ends (fun e => e = e₁) (k3VerifyStep T bucket (pairs.map Prod.snd))
      (fun _ e => Undisturbed slots e₀ e ∧ ∀ pair ∈ pairs, Answered T e pair.1 pair.2 (now pair.1.slot))
      (Undisturbed slots e₀) := by
  have hnodup : pairs.Nodup := hpairs.imp fun h heq => h.slot (congrArg (fun pair => pair.1.slot) heq)
  have hchecked : Faulty.Ends (fun e => e = e₁) (Faulty.each (fun group : K3KdaGroup => Faulty.ensure
      (group.row + group.commitRows + group.specRows ≤ bucket ∧ 0 < group.specRows ∧ group.stateRow < e₁.maxBatch)
      (s!"K3 verify group at row {group.row} ({group.commitRows}+{group.specRows} rows, state row {group.stateRow}) " ++
        "does not fit the step")) (pairs.map Prod.snd)) (fun _ e => e = e₁) (Undisturbed slots e₀) := by
    refine Faulty.Ends.each (I := fun _ e => e = e₁) _ fun _ group _ _ => ?_
    exact .ensure (fun _ he _ => he) fun e he _ => he ▸ hframe
  refine .from_get (hchecked.from_bind ?_)
  rintro - e rfl
  rw [Faulty.Ends.each_map]
  exact Faulty.Ends.each_apart hnodup (run_apart hpairs hslots) e hframe hprimed

end Phases

/-- **A verify round.** Each slot of the batch commits what plain decode would, and no other slot is touched; a round that
fails touches no other slot either. -/
theorem verifyInner_ends [Inhabited κ] (hnodup : (batch.map K3VerifySlot.slot).Nodup) (howned : e₀.kv.Owned)
    (hfollows : ∀ entry ∈ batch, Follows T e₀ entry.slot (committed entry.slot) (now entry.slot)) :
    Faulty.Ends (fun e => e = e₀) (verifyInner T batch)
      (fun outcomes e => Undisturbed (batch.map K3VerifySlot.slot) e₀ e ∧
        List.Forall₂ (fun entry tokens => Settled T e entry.slot entry.anchor (now entry.slot) tokens) batch outcomes)
      (Undisturbed (batch.map K3VerifySlot.slot) e₀) := by
  have hstart : Undisturbed (batch.map K3VerifySlot.slot) e₀ e₀ := ⟨howned, fun slot _ => .refl slot e₀⟩
  refine .from_get ?_
  by_cases hidle : (batch.isEmpty && !e₀.expertParallel) = true
  · rw [if_pos hidle]
    obtain rfl : batch = [] := List.isEmpty_iff.1 (Bool.and_eq_true_iff.1 hidle).1
    exact .from_pure ⟨hstart, .nil⟩
  · rw [if_neg hidle]
    refine .from_operate (.from_lift (fun packed hpacked => .from_ensure (fun _ => .from_lift (fun bucket _ =>
      .from_modify ?_) hstart) fun _ => hstart) hstart) hstart
    obtain ⟨hgroups, hpairwise, -, -⟩ := packGroups_ok batch hpacked
    have hlength : batch.length = packed.1.length := hgroups.length_eq
    have hsnd : (batch.zip packed.1).map Prod.snd = packed.1 := List.map_snd_zip hlength.ge
    have hfst : (batch.zip packed.1).map Prod.fst = batch := List.map_fst_zip hlength.le
    have hpairs : (batch.zip packed.1).Pairwise ZipApart := zip_apart hnodup hlength hpairwise
    have hdistinct : (batch.zip packed.1).Nodup :=
      hpairs.imp fun h heq => h.slot (congrArg (fun pair => pair.1.slot) heq)
    have hslots : ∀ pair ∈ batch.zip packed.1, pair.1.slot ∈ batch.map K3VerifySlot.slot := fun pair hin =>
      List.mem_map_of_mem (List.of_mem_zip hin).1
    have hpadded : ∀ slot, SameSlot slot e₀ (e₀.padRows bucket) := fun slot =>
      ⟨fun _ => rfl, fun _ => rfl, rfl, rfl, fun _ _ h => h⟩
    have hstanding : ∀ pair ∈ batch.zip packed.1, Standing T committed now pair (e₀.padRows bucket) := by
      intro pair hin
      have hstood : Standing T committed now pair e₀ :=
        ⟨(List.forall₂_iff_zip.1 hgroups).2 hin, hfollows pair.1 (List.of_mem_zip hin).1⟩
      exact hstood.of_same (hpadded _)
    have hframe : Undisturbed (batch.map K3VerifySlot.slot) e₀ (e₀.padRows bucket) :=
      ⟨howned, fun slot _ => hpadded slot⟩
    refine (Faulty.Ends.each_apart hdistinct (stage_apart hpairs hslots) _ hframe hstanding).from_bind ?_
    rintro - e₂ ⟨hframe₂, hprimed⟩
    refine .from_operate (.from_operate ?_ hframe₂) hframe₂
    refine (hsnd ▸ k3VerifyStep_ends hpairs hslots hframe₂ hprimed).from_bind ?_
    rintro - e₃ ⟨hframe₃, hanswered⟩
    refine .from_operate ?_ hframe₃
    refine (Faulty.Ends.collect_apart hdistinct (commit_apart hpairs hslots) e₃ hframe₃ hanswered).weaken
      (fun _ h => h) (fun outcomes e h => ⟨h.1, ?_⟩) fun _ h => h
    have hcommitted : List.Forall₂ (fun entry tokens => Settled T e entry.slot entry.anchor (now entry.slot) tokens)
        ((batch.zip packed.1).map Prod.fst) outcomes := List.forall₂_map_left_iff.2 h.2
    rwa [hfst] at hcommitted

end Pegainfer.K3
