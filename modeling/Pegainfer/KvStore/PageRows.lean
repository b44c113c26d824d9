/-
The page row of a step, and the view a forward pass gets of it.

Attention kernels take a request's length from its page row: `(num_pages - 1) * page_size + last_page_len`. So a row
lists the pages of the positions there will be after the step, and none past them, although the request may hold more:
the eager generation block, the surplus of a speculative span.
- `KvView`: pages that cover a length exactly; `kernelLen`: the length a kernel reads off it.
- `Paged`: what every call keeps of a request's pages and positions, whatever the store does.
- `page_row_exact`: the row of the step just scheduled.
- `page_row_short`: a step of no tokens, and a span past the output budget, which the schedule cut.
-/
import Mathlib.Tactic
import Pegainfer.Kvbm.Computed
import Pegainfer.Kvbm.Draws
import Pegainfer.KvCache.Pool
import Pegainfer.KvStore.Blocks

set_option linter.unusedSectionVars false

namespace Pegainfer.KvCache

open Pegainfer.Kvbm Pegainfer.Kvbm.SchedulableSequence Pegainfer.Lib

/-! ## The view -/

/-- a request's KV for one forward pass: `pageIndices` covers `seqLen` exactly -/
structure KvView where
  pageIndices : List BlockId
  seqLen : ℕ
  pageSize : ℕ
  covers : pageIndices.length = divCeil seqLen pageSize

namespace KvView

def new (pageIndices : List BlockId) (seqLen pageSize : ℕ) : Except String KvView :=
  if h : pageIndices.length = divCeil seqLen pageSize then .ok ⟨pageIndices, seqLen, pageSize, h⟩
  else
    .error ("KvView pages must exactly cover seq_len=" ++ toString seqLen ++ " (page_size=" ++ toString pageSize ++ ")")

def numPages (v : KvView) : ℕ := v.pageIndices.length

def lastPageLen (v : KvView) : ℕ :=
  if v.seqLen = 0 then 0
  else
    let rem := v.seqLen % v.pageSize
    if rem = 0 then v.pageSize else rem

/-- the length a kernel derives -/
def kernelLen (v : KvView) : ℕ := (v.numPages - 1) * v.pageSize + v.lastPageLen

theorem lastPageLen_bounds {v : KvView} (hsize : 0 < v.pageSize) (hlen : 0 < v.seqLen) :
    1 ≤ v.lastPageLen ∧ v.lastPageLen ≤ v.pageSize := by
  have hmod := Nat.mod_lt v.seqLen hsize
  unfold lastPageLen
  dsimp only
  split_ifs <;> omega

/-- **Kernels read the length.** -/
theorem kernelLen_eq {v : KvView} (hsize : 0 < v.pageSize) (hlen : 0 < v.seqLen) : v.kernelLen = v.seqLen := by
  have hsplit := Nat.div_add_mod v.seqLen v.pageSize
  unfold kernelLen numPages lastPageLen
  rw [v.covers, if_neg (by omega)]
  by_cases hmod : v.seqLen % v.pageSize = 0
  · have hpos : 0 < v.seqLen / v.pageSize := Nat.div_pos (Nat.le_of_dvd hlen (Nat.dvd_of_mod_eq_zero hmod)) hsize
    rw [divCeil_eq_div hsize hmod]
    simp only [hmod, if_true]
    calc (v.seqLen / v.pageSize - 1) * v.pageSize + v.pageSize
        = (v.seqLen / v.pageSize - 1 + 1) * v.pageSize := (Nat.succ_mul _ _).symm
      _ = v.pageSize * (v.seqLen / v.pageSize) := by rw [Nat.sub_add_cancel hpos, Nat.mul_comm]
      _ = v.seqLen := by omega
  · have hceil : divCeil v.seqLen v.pageSize = v.seqLen / v.pageSize + 1 := by
      apply le_antisymm
      · apply (divCeil_le_iff hsize).2
        rw [Nat.add_mul, Nat.one_mul, Nat.mul_comm]
        have := Nat.mod_lt v.seqLen hsize
        omega
      · by_contra hlt
        have hle := (divCeil_le_iff hsize).1 (Nat.le_of_lt_succ (not_le.1 hlt))
        rw [Nat.mul_comm] at hle
        omega
    rw [hceil]
    simp only [hmod, if_false, Nat.add_sub_cancel]
    rw [Nat.mul_comm]
    exact hsplit

end KvView

variable {H : Type} [DecidableEq H] [BlockHash H]

/-- `step_page_indices` with its assertion -/
def stepPages (kv : RequestKv H) (newTokens : ℕ) : Except String (List BlockId) :=
  if newTokens = 0 then .error "a forward step appends at least one token"
  else .ok (stepPageIndices kv newTokens)

/-- the view of a step of `newTokens` -/
def stepView (kv : RequestKv H) (newTokens : ℕ) : Except String KvView :=
  match stepPages kv newTokens with
  | .error e => .error e
  | .ok pages => KvView.new pages (kv.kvPosition + newTokens) kv.blockSize

def prefillView (kv : RequestKv H) (promptLen : ℕ) : Except String KvView := stepView kv promptLen

def decodeView (kv : RequestKv H) : Except String KvView := stepView kv 1

def speculativeView (kv : RequestKv H) (numDraftTokens : ℕ) : Except String KvView := stepView kv numDraftTokens

end Pegainfer.KvCache

namespace Pegainfer.KvStore

open Pegainfer.Kvbm Pegainfer.Kvbm.SchedulableSequence Pegainfer.Lib

variable {H : Type} [DecidableEq H] [BlockHash H]

/-! ## Pages of a request -/

/-- **Pages stay.** A call that neither draws nor matches leaves a request leading pages of those it had. -/
theorem Effect.pages {q q' : SchedulableSequence H} {c : Call} {r : CallResult} (he : Effect q c r q')
    (hs : c.isSchedule = false) (hm : c ≠ .matchAndAddPrefix) : pageIndices q' <+: pageIndices q := by
  cases he with
  | refused => exact List.prefix_refl _
  | unmatched => exact absurd rfl hm
  | matched => exact absurd rfl hm
  | prefillScheduled => cases hs
  | decodeScheduled => cases hs
  | speculativeScheduled => cases hs
  | prefillApplied n b t xs hstate ht hf hg hx =>
    rw [← pageIndices_withRegistered hx]
    exact List.prefix_refl _
  | decodeApplied b t xs hstate hg hx =>
    rw [← pageIndices_withRegistered hx]
    exact List.prefix_refl _
  | speculativeApplied n b ts xs hstate hn hg hx =>
    have hpages : pageIndices ((q.appended ts).withRegistered xs) = pageIndices q := pageIndices_withRegistered hx
    rw [← hpages]
    exact pageIndices_keep ((q.appended ts).withRegistered xs) _
  | reverted n => exact pageIndices_keep q _
  | unpadded => exact List.prefix_refl _
  | padded pad xs hstate hk hx =>
    rw [pageIndices_withRegistered hx]
    exact List.prefix_refl _
  | adopted => exact List.prefix_refl _
  | released => exact List.nil_prefix

/-- a draw takes only blocks that the request does not hold -/
theorem validated_distinct {q : SchedulableSequence H} {ids : List BlockId} (hv : q.validateNoDuplicates ids = true)
    (h : (pageIndices q).Nodup) : (pageIndices q ++ ids).Nodup := by
  simp only [validateNoDuplicates, Bool.and_eq_true, List.all_eq_true, Bool.not_eq_true', decide_eq_true_eq] at hv
  obtain ⟨hfresh, hnodup⟩ := hv
  refine List.Nodup.append h hnodup ?_
  intro b hb hid
  have hnot := hfresh b hid
  simp only [contains, Bool.or_eq_false_iff, decide_eq_false_iff_not] at hnot
  simp only [pageIndices, List.mem_append] at hb
  tauto

theorem drawInto_distinct {q q' : SchedulableSequence H} {n : ℕ} {next : SequenceState} {σ σ' : BlockStore H}
    {r : Except ScheduleError Unit} (hd : q.drawInto n next σ = .ok (r, q', σ')) (h : (pageIndices q).Nodup) :
    (pageIndices q').Nodup := by
  unfold drawInto allocateBlocks at hd
  split_ifs at hd with h0
  · cases hd
    exact h
  · cases ha : σ.allocateBlocks n with
    | error e => simp [ha] at hd
    | ok drew =>
      cases drew with
      | none =>
        simp only [ha, Except.ok.injEq, Prod.mk.injEq] at hd
        obtain ⟨-, rfl, -⟩ := hd
        exact h
      | some p =>
        obtain ⟨ids, τ⟩ := p
        simp only [ha] at hd
        split_ifs at hd with hv
        · simp only [Except.ok.injEq, Prod.mk.injEq] at hd
          obtain ⟨-, rfl, -⟩ := hd
          exact pageIndices_drawn q ids next ▸ validated_distinct hv h
        · simp only [Except.ok.injEq, Prod.mk.injEq] at hd
          obtain ⟨-, rfl, -⟩ := hd
          exact h

theorem matchAndAddPrefix_distinct {q q' : SchedulableSequence H} {σ σ' : BlockStore H} {r : Except ScheduleError ℕ}
    (hm : q.matchAndAddPrefix σ = .ok (r, q', σ')) (h : (pageIndices q).Nodup) : (pageIndices q').Nodup := by
  unfold matchAndAddPrefix at hm
  split_ifs at hm with hs he
  · cases hm
    exact h
  · split at hm
    · cases hm
    · dsimp only at hm
      split_ifs at hm with hnil hlong hvalid
      · cases hm
        exact h
      · cases hm
        have hvoid : q.residentBlocks = 0 := by simpa using he
        unfold residentBlocks at hvoid
        have hst : q.staged = [] := List.length_eq_zero_iff.1 (by omega)
        have hu : q.unassigned = [] := List.length_eq_zero_iff.1 (by omega)
        have hnodup := validated_distinct hvalid.2 h
        have hids := (List.nodup_append.1 hnodup).2.1
        simpa [pageIndices, hst, hu] using hids

/-- **Distinct pages.** Whatever the store does, no call makes a request hold a page twice. -/
theorem call_distinct {q q' : SchedulableSequence H} {c : Call} {σ σ' : BlockStore H} {r : CallResult}
    (hc : q.call c σ = .ok (r, q', σ')) (h : (pageIndices q).Nodup) : (pageIndices q').Nodup := by
  by_cases hm : c = .matchAndAddPrefix
  · subst hm
    obtain ⟨_, hmatch, rfl⟩ := map_ok hc
    exact matchAndAddPrefix_distinct hmatch h
  · cases hs : c.isSchedule with
    | false => exact h.sublist (Effect.pages (call_effect hc) hs hm).sublist
    | true =>
      rcases schedule_eq (q := q) hs with ⟨e, -, -, hrefused⟩ | ⟨next, hdraws, -⟩
      · cases (hrefused σ).symm.trans hc
        exact h
      · obtain ⟨_, hdrew, rfl⟩ := map_ok ((hdraws σ).symm.trans hc)
        exact drawInto_distinct hdrew h

/-! ## What runs keep -/

/-- a request's pages and positions, between its calls -/
structure Paged (q : SchedulableSequence H) : Prop where
  base : q.Base
  /-- until the prompt is computed the two positions are one -/
  prefilling : q.prefillPosition < q.numInputTokens → q.kvPosition = q.prefillPosition
  inDecode : ∀ b, q.state = .decodeScheduled b → q.numInputTokens ≤ q.prefillPosition
  inSpeculative : ∀ n b, q.state = .speculativeScheduled n b → q.numInputTokens ≤ q.prefillPosition
  distinct : (pageIndices q).Nodup

theorem paged_new (tokens : List Token) (maxOutputTokens : ℕ) {blockSize : ℕ} (saltHash : SaltHash)
    (hb : 0 < blockSize) :
    Paged (SchedulableSequence.new tokens maxOutputTokens blockSize saltHash : SchedulableSequence H) where
  base := base_new tokens maxOutputTokens saltHash hb
  prefilling _ := rfl
  inDecode _ h := by cases h
  inSpeculative _ _ h := by cases h
  distinct := List.nodup_nil

theorem Paged.of_idle {q : SchedulableSequence H} (hbase : q.Base)
    (hp : q.prefillPosition < q.numInputTokens → q.kvPosition = q.prefillPosition) (hs : q.state = .idle)
    (hdistinct : (pageIndices q).Nodup) : Paged q := by
  refine ⟨hbase, hp, ?_, ?_, hdistinct⟩
  · rw [hs]
    exact nofun
  · rw [hs]
    exact nofun

/-- **A call.** Whatever the store does, a call keeps a request paged. -/
theorem call_paged {q q' : SchedulableSequence H} {c : Call} {σ σ' : BlockStore H} {r : CallResult}
    (hc : q.call c σ = .ok (r, q', σ')) (h : Paged q) : Paged q' := by
  have he := call_effect hc
  have hbase := he.base h.base
  have hdistinct := call_distinct hc h.distinct
  have hp := h.prefilling
  cases he with
  | refused => exact h
  | unmatched => exact h
  | matched xs hs => exact .of_idle hbase (fun _ => rfl) hs hdistinct
  | prefillScheduled n ids hs => exact ⟨hbase, hp, nofun, nofun, hdistinct⟩
  | prefillApplied n b t xs hs => exact .of_idle hbase (fun _ => rfl) rfl hdistinct
  | decodeScheduled ids hs hg => exact ⟨hbase, hp, fun _ _ => hg.prefilled, nofun, hdistinct⟩
  | decodeApplied b t xs hs =>
    have hdone := h.inDecode b hs
    exact .of_idle hbase (fun hlt => absurd hlt (not_lt.2 hdone)) rfl hdistinct
  | speculativeScheduled n ids hs hg => exact ⟨hbase, hp, nofun, fun _ _ _ => hg.prefilled, hdistinct⟩
  | speculativeApplied n b ts xs hs =>
    have hdone := h.inSpeculative n b hs
    exact .of_idle hbase (fun hlt => absurd hlt (not_lt.2 hdone)) rfl hdistinct
  | reverted n => exact .of_idle hbase hp rfl hdistinct
  | unpadded => exact h
  | padded pad xs hs => exact .of_idle hbase hp hs hdistinct
  | adopted hs hk hpre =>
    refine .of_idle hbase (fun hlt => ?_) hs hdistinct
    dsimp only at hlt
    omega
  | released hs => exact .of_idle hbase hp hs hdistinct

/-- **Runs.** In every state of a request's run it is paged, whatever the other holders of the store do. -/
theorem run_paged {tokens : List Token} {maxOutputTokens blockSize : ℕ} {saltHash : SaltHash} (hb : 0 < blockSize)
    {σ : BlockStore H} {ops : List (SchedulableSequence.Op H)} {s : SchedulableSequence H × BlockStore H}
    (hr : run SchedulableSequence.step (SchedulableSequence.new tokens maxOutputTokens blockSize saltHash, σ) ops =
      .ok s) : Paged s.1 := by
  refine run_invariant (P := fun _ _ => True)
    (I := fun (_ : List (SchedulableSequence.Op H)) (s : SchedulableSequence H × BlockStore H) => Paged s.1)
    (SchedulableSequence.new tokens maxOutputTokens blockSize saltHash, σ)
    (paged_new tokens maxOutputTokens saltHash hb) ?_ ops s (stepsMeet_true _ _) hr
  intro _ s o s' h _ hs
  cases o with
  | environment σ =>
    cases hs
    exact h
  | call c =>
    simp only [SchedulableSequence.step] at hs
    cases hc : s.1.call c s.2 with
    | error e =>
      rw [hc] at hs
      cases hs
    | ok answered =>
      rw [hc] at hs
      cases hs
      exact call_paged hc h

/-! ## The row of a step -/

/-- the tokens of the step a schedule call schedules; a speculative span is cut to the remaining output -/
def scheduledTokens (q : SchedulableSequence H) : Call → ℕ
  | .schedulePrefill n => n
  | .scheduleDecode => 1
  | .scheduleSpeculative n => min n q.remainingTokens
  | _ => 0

/-- `row` lists a request's pages in the order of its sequence: each registered block stands at the index of the token
block it is named after -/
structure InOrder (q : SchedulableSequence H) (row : List BlockId) : Prop where
  leading : row <+: pageIndices q
  named : ∀ i x, q.assigned[i]? = some x → i < row.length → row[i]? = some x.blockId ∧ x.seqHash = q.sequenceHash i

/-- an exact page row of `len` tokens -/
structure ExactRow (q : SchedulableSequence H) (len : ℕ) (row : List BlockId) : Prop where
  length : row.length = divCeil len q.blockSize
  distinct : row.Nodup
  order : InOrder q row
  /-- every position of the step has its page -/
  page : ∀ p < len, ∃ b, row[p / q.blockSize]? = some b ∧ (pageIndices q)[p / q.blockSize]? = some b

theorem inOrder_of_prefix {q : SchedulableSequence H} (hb : q.Base) {row : List BlockId}
    (hrow : ∀ i, i < row.length → ∀ b, (pageIndices q)[i]? = some b → row[i]? = some b) (i : ℕ) (x : ImmutableBlock H)
    (hx : q.assigned[i]? = some x) (hi : i < row.length) : row[i]? = some x.blockId ∧ x.seqHash = q.sequenceHash i := by
  refine ⟨hrow i hi x.blockId ?_, assigned_name hb hx⟩
  have hlt : i < q.assigned.length := (List.getElem?_eq_some_iff.1 hx).1
  rw [pageIndices, List.append_assoc, List.getElem?_append_left (by simpa using hlt), List.getElem?_map, hx]
  rfl

/-- the leading pages of a request, as many as cover a length it holds pages for -/
theorem Paged.exactRow {q : SchedulableSequence H} (h : Paged q) {len : ℕ}
    (hlen : divCeil len q.blockSize ≤ (pageIndices q).length) :
    ExactRow q len ((pageIndices q).take (divCeil len q.blockSize)) := by
  have hb := h.base.size_pos
  have hlength : ((pageIndices q).take (divCeil len q.blockSize)).length = divCeil len q.blockSize := by
    rw [List.length_take, Nat.min_eq_left hlen]
  have hentry : ∀ i, i < divCeil len q.blockSize →
      ((pageIndices q).take (divCeil len q.blockSize))[i]? = (pageIndices q)[i]? :=
    fun i hi => List.getElem?_take_of_lt hi
  refine ⟨hlength, h.distinct.sublist (List.take_sublist _ _), ⟨List.take_prefix _ _, ?_⟩, ?_⟩
  · apply inOrder_of_prefix h.base
    intro i hi b hpage
    rw [hlength] at hi
    rw [hentry i hi]
    exact hpage
  · intro p hp
    have hlt : p / q.blockSize < divCeil len q.blockSize := by
      rw [Nat.div_lt_iff_lt_mul hb]
      exact lt_of_lt_of_le hp (le_divCeil_mul len hb)
    have hheld := List.getElem?_eq_getElem (lt_of_lt_of_le hlt hlen)
    exact ⟨_, (hentry _ hlt).trans hheld, hheld⟩

/-- a schedule that is carried out holds the pages of its step -/
theorem Paged.scheduled_covers {q q' : SchedulableSequence H} (h : Paged q) {c : Call} (he : Effect q c .done q')
    (hc : c.isSchedule = true) :
    q'.blockSize = q.blockSize ∧ q'.kvPosition = q.kvPosition ∧
      divCeil (q.kvPosition + scheduledTokens q c) q.blockSize ≤ (pageIndices q').length := by
  have hb := h.base.size_pos
  cases he with
  | refused _ _ hr => exact absurd rfl hr
  | prefillScheduled n ids hs hp hn hids =>
    refine ⟨rfl, rfl, ?_⟩
    rw [length_pageIndices, resident_drawn, h.prefilling hp]
    simp only [scheduledTokens]
    omega
  | decodeScheduled ids hs hg hids =>
    refine ⟨rfl, rfl, ?_⟩
    have hdangling := hg.dangling
    have hassigned := h.base.assigned_le
    have hceil : divCeil q.totalTokens q.blockSize ≤ q.completeSequenceBlocks + 1 := by
      apply (divCeil_le_iff hb).2
      rw [completeSequenceBlocks, Nat.add_mul, Nat.one_mul]
      exact (Nat.lt_div_mul_add hb).le
    rw [length_pageIndices, resident_drawn]
    unfold scheduledTokens
    rw [← hdangling]
    unfold residentBlocks
    have hst : q.staged.length = 0 := by rw [h.base.staged_nil]; rfl
    omega
  | speculativeScheduled n ids hs hg hids =>
    refine ⟨rfl, rfl, ?_⟩
    have hdangling := hg.dangling
    have hmono : divCeil (q.kvPosition + min n q.remainingTokens) q.blockSize ≤
        divCeil (q.totalTokens + min n q.remainingTokens) q.blockSize := divCeil_mono hb (by omega)
    rw [length_pageIndices, resident_drawn]
    simp only [scheduledTokens]
    omega
  | _ => cases hc

/-- **Page rows.** In every state of a request's run in which a schedule of at least one token has just succeeded, the
row of the step covers its positions exactly, with distinct pages in the order of the sequence; the call that ends the
step names its blocks by that order; and a kernel reads the length off the view. -/
theorem page_row_exact {tokens : List Token} {maxOutputTokens blockSize : ℕ} {saltHash : SaltHash} (hb : 0 < blockSize)
    {σ : BlockStore H} {ops : List (SchedulableSequence.Op H)} {s : SchedulableSequence H × BlockStore H}
    (hr : run SchedulableSequence.step (SchedulableSequence.new tokens maxOutputTokens blockSize saltHash, σ) ops =
      .ok s) {c : Call} (hc : c.isSchedule = true) {q : SchedulableSequence H} {σ' : BlockStore H}
    (hcall : s.1.call c s.2 = .ok (.done, q, σ')) (hpos : 0 < scheduledTokens s.1 c) :
    ExactRow q (q.kvPosition + scheduledTokens s.1 c) (stepPageIndices q (scheduledTokens s.1 c)) ∧
    (∀ c' r q', Effect q c' r q' → c'.isSchedule = false → c' ≠ .matchAndAddPrefix → ∀ i x, q'.assigned[i]? = some x →
      i < (stepPageIndices q (scheduledTokens s.1 c)).length →
        (stepPageIndices q (scheduledTokens s.1 c))[i]? = some x.blockId ∧ x.seqHash = q'.sequenceHash i) ∧
    ∃ view, KvCache.stepView q (scheduledTokens s.1 c) = .ok view ∧
      view.pageIndices = stepPageIndices q (scheduledTokens s.1 c) ∧ view.pageSize = q.blockSize ∧
      (view.numPages - 1) * view.pageSize + view.lastPageLen = q.kvPosition + scheduledTokens s.1 c ∧
      1 ≤ view.lastPageLen ∧ view.lastPageLen ≤ view.pageSize := by
  have hpaged := run_paged hb hr
  have hpaged' := call_paged hcall hpaged
  obtain ⟨hsize, hkv, hcovers⟩ := hpaged.scheduled_covers (call_effect hcall) hc
  rw [← hsize, ← hkv] at hcovers
  set n := scheduledTokens s.1 c
  have hrow : ExactRow q (q.kvPosition + n) (stepPageIndices q n) := hpaged'.exactRow hcovers
  refine ⟨hrow, ?_, ?_⟩
  · intro c' r q' he hs hm
    apply inOrder_of_prefix (he.base hpaged'.base)
    intro i hi b hpage
    obtain ⟨rest, hrest⟩ := Effect.pages he hs hm
    obtain ⟨rest', hrest'⟩ := hrow.order.leading
    have hheld : (pageIndices q)[i]? = some b := by
      rw [← hrest, List.getElem?_append_left (List.getElem?_eq_some_iff.1 hpage).1]
      exact hpage
    rwa [← hrest', List.getElem?_append_left hi] at hheld
  · have hne : n ≠ 0 := by omega
    have hview : KvCache.stepView q n = .ok ⟨stepPageIndices q n, q.kvPosition + n, q.blockSize, hrow.length⟩ := by
      unfold KvCache.stepView KvCache.stepPages
      rw [if_neg hne]
      exact dif_pos hrow.length
    have hlen : 0 < q.kvPosition + n := by omega
    have hread := KvCache.KvView.kernelLen_eq (v := ⟨stepPageIndices q n, q.kvPosition + n, q.blockSize, hrow.length⟩)
      hpaged'.base.size_pos hlen
    exact ⟨_, hview, rfl, rfl, hread, KvCache.KvView.lastPageLen_bounds hpaged'.base.size_pos hlen⟩

/-- a prompt of three tokens and its first output token, at two tokens a block -/
def boundaryOps : List (SchedulableSequence.Op (List ℕ)) :=
  [.call (.schedulePrefill 3), .call (.applyPrefill (some 4))]

/-- a decode whose token fills its block: three pages are held, the row lists two -/
theorem page_row_exact_boundary :
    ∃ (s : SchedulableSequence (List ℕ) × BlockStore (List ℕ)) (q : SchedulableSequence (List ℕ))
      (σ' : BlockStore (List ℕ)),
      run SchedulableSequence.step (SchedulableSequence.new [1, 2, 3] 4 2 0, BlockStore.new 8 false) boundaryOps =
        .ok s ∧
      s.1.call .scheduleDecode s.2 = .ok (.done, q, σ') ∧ (pageIndices q).length = 3 ∧
      (stepPageIndices q 1).length = 2 ∧ ExactRow q (q.kvPosition + 1) (stepPageIndices q 1) :=
  ⟨_, _, _, rfl, rfl, rfl, rfl,
    (@page_row_exact (List ℕ) _ _ [1, 2, 3] 4 2 0 Nat.two_pos (BlockStore.new 8 false) boundaryOps _ rfl .scheduleDecode
      rfl _ _ rfl Nat.one_pos).1⟩

/-- a chunk of no tokens is scheduled, and its step has no row; a span of eight with one output token left is cut to one
token, and the row of eight is a page short -/
theorem page_row_short :
    (∃ (q : SchedulableSequence (List ℕ)) (σ' : BlockStore (List ℕ)),
      (SchedulableSequence.new [1] 1 4 0).call (.schedulePrefill 0) (BlockStore.new 4 false) = .ok (.done, q, σ') ∧
      KvCache.prefillView q 0 = .error "a forward step appends at least one token") ∧
    ∃ (s : SchedulableSequence (List ℕ) × BlockStore (List ℕ)) (q : SchedulableSequence (List ℕ))
      (σ' : BlockStore (List ℕ)),
      run SchedulableSequence.step (SchedulableSequence.new [1, 2, 3] 2 4 0, BlockStore.new 8 false)
        [.call (.schedulePrefill 3), .call (.applyPrefill (some 4))] = .ok s ∧
      s.1.call (.scheduleSpeculative 8) s.2 = .ok (.done, q, σ') ∧
      (stepPageIndices q 8).length = 2 ∧ divCeil (q.kvPosition + 8) q.blockSize = 3 ∧
      ∃ message, KvCache.speculativeView q 8 = .error message :=
  ⟨⟨_, _, rfl, rfl⟩, _, _, _, rfl, rfl, rfl, rfl, _, rfl⟩

end Pegainfer.KvStore
