/-
Where a request's prefill is cut does not depend on the requests beside it.

`Recorded` keeps the prefill answers of an executor. Under request-local chunking the boundaries that the answers report
for a request are `chunkEnds` of its prompt length and of the prefix the cache gave it.
- `Whole`: every block kept is a full block, so that a matched prefix is as long as it is reported.
- `schedulePrefills_chunk`, `executeUnified_rows`: what one step schedules and computes for one request.
- `Cut`, `Resumes`: the chunks cut so far and the KV behind them; `cut_stages`: the stages of the executor.
- `prefill_chunks`: each selection is a fair partition, and two runs cut two prompts of one length and one cached prefix
  at the same places.
-/
import Mathlib.Tactic
import Pegainfer.Qwen3.LoraIdentity
import Pegainfer.Qwen3.Stages

set_option linter.unusedSectionVars false

namespace Pegainfer.Qwen3

open Pegainfer.Frontend
open Pegainfer.Lib
open ModelExecutor

/-! ## The record of a run -/

/-- an executor with the prefill answers it has given -/
structure Recorded (E : Type) where
  inner : E
  answers : List PrefillRequestResult

namespace Recorded

variable {E : Type}

/-- the executor goes on, and its answers are written down -/
def note (e : Recorded E) (inner : E) (answers : List PrefillRequestResult) : Recorded E :=
  ⟨inner, e.answers ++ answers⟩

def answersTo (e : Recorded E) (i : RequestId) : List PrefillRequestResult :=
  e.answers.filter fun a => a.requestId = i

/-- the boundaries reported for a request -/
def boundaries (e : Recorded E) (i : RequestId) : List ℕ := (e.answersTo i).map PrefillRequestResult.prefillPos

/-- the prefix that the cache gave a request, by its first answer -/
def cachedPrefix (e : Recorded E) (i : RequestId) : ℕ :=
  ((e.answersTo i).head?.bind PrefillRequestResult.cachedTokens).getD 0

/-- the request's prompt is through -/
def prefilled (e : Recorded E) (i : RequestId) : Bool := (e.answersTo i).any PrefillRequestResult.completed

end Recorded

def answersOf : Except StepError (List PrefillRequestResult) → List PrefillRequestResult
  | .ok results => results
  | .error _ => []

def unifiedAnswers : Except StepError UnifiedResult → List PrefillRequestResult
  | .ok result => result.prefillRequests
  | .error _ => []

/-- the same executor, recorded -/
instance {E : Type} [ModelExecutor E] : ModelExecutor (Recorded E) where
  blockSize e := blockSize e.inner
  maxRequestBlocks e := maxRequestBlocks e.inner
  maxContextTokens e := maxContextTokens e.inner
  maxDecodeBatchSize e := maxDecodeBatchSize e.inner
  availableBlocks e := availableBlocks e.inner
  isStopToken e token := isStopToken e.inner token
  dropRequest e id := { e with inner := dropRequest e.inner id }
  executePrefill e items :=
    let r := executePrefill e.inner items
    (r.1, e.note r.2 (answersOf r.1))
  executeDecode e items :=
    let r := executeDecode e.inner items
    (r.1, { e with inner := r.2 })
  executeUnified e prefills decodes :=
    let r := executeUnified e.inner prefills decodes
    (r.1, e.note r.2 (unifiedAnswers r.1))
  executeSpeculativeDraft e items :=
    let r := executeSpeculativeDraft e.inner items
    (r.1, { e with inner := r.2 })
  executeSpeculativeVerify e items gated :=
    let r := executeSpeculativeVerify e.inner items gated
    (r.1, { e with inner := r.2 })
  speculativeEnabled e := speculativeEnabled e.inner
  speculativeRequestReady e id := speculativeRequestReady e.inner id
  maxDraftBatch e := maxDraftBatch e.inner
  handleLora e command := { e with inner := handleLora e.inner command }
  listLoraAdapters e := listLoraAdapters e.inner
  beginKvPrefetch e id prompt lora floor :=
    let r := beginKvPrefetch e.inner id prompt lora floor
    (r.1, { e with inner := r.2 })
  drainReadyPrefetch e floor :=
    let r := drainReadyPrefetch e.inner floor
    (r.1, { e with inner := r.2 })
  waitReadyPrefetch e floor :=
    let r := waitReadyPrefetch e.inner floor
    (r.1, { e with inner := r.2 })
  prefetchedBlocks e id := prefetchedBlocks e.inner id
  withholdsFinishes e := withholdsFinishes e.inner
  hasDecodeOverlap e := hasDecodeOverlap e.inner
  pollAsyncPrefill e :=
    let r := pollAsyncPrefill e.inner
    (r.1, e.note r.2 (r.1.getD []))

variable {W : Type} [DecidableEq W]

/-! ## Full blocks -/

/-- every block the executor keeps is a full block -/
structure Whole (e : LoraExecutor W) : Prop where
  registered : ∀ b ∈ e.registered, b.rows.length = e.blockSize
  hosted : ∀ b ∈ e.hosted, b.rows.length = e.blockSize
  assigned : ∀ id kv, e.requestKvs.lookup id = some kv → ∀ b ∈ kv.assigned, b.rows.length = e.blockSize
  prefetched : ∀ id state, e.prefetch.lookup id = some state →
    ∀ b ∈ state.held ++ state.loading.getD [], b.rows.length = e.blockSize

namespace Whole

variable {e : LoraExecutor W}

theorem nextCall (h : Whole e) : Whole e.nextCall :=
  { h with hosted := fun b hb => h.hosted b (List.mem_of_mem_filter hb) }

theorem evict (h : Whole e) (victims : BlockName → Bool) : Whole (e.evict victims) :=
  { h with registered := fun b hb => h.registered b (List.mem_of_mem_filter hb) }

theorem registerBlocks_size (bs : List (KvBlock W)) : ∀ e : LoraExecutor W, (e.registerBlocks bs).blockSize = e.blockSize := by
  induction bs with
  | nil => exact fun _ => rfl
  | cons b bs ih =>
    intro e
    refine (ih (e.registerBlock b)).trans ?_
    unfold LoraExecutor.registerBlock
    split_ifs <;> rfl

theorem registerBlocks (bs : List (KvBlock W)) :
    ∀ {e : LoraExecutor W}, (∀ b ∈ bs, b.rows.length = e.blockSize) → Whole e → Whole (e.registerBlocks bs) := by
  induction bs with
  | nil => exact fun _ h => h
  | cons b bs ih =>
    intro e hbs h
    have hrest : ∀ x ∈ bs, x.rows.length = e.blockSize := fun x hx => hbs x (List.mem_cons_of_mem _ hx)
    change Whole ((e.registerBlock b).registerBlocks bs)
    unfold LoraExecutor.registerBlock
    split_ifs
    · exact ih hrest h
    · refine ih hrest { h with registered := fun x hx => ?_ }
      rcases List.mem_append.1 hx with hx | hx
      · exact h.registered x hx
      · rw [List.mem_singleton.1 hx]
        exact hbs b List.mem_cons_self

theorem insertKv (h : Whole e) (id : RequestId) (kv : RequestKv W) (hkv : ∀ b ∈ kv.assigned, b.rows.length = e.blockSize) :
    Whole { e with requestKvs := e.requestKvs.insert id kv } := by
  refine { h with assigned := fun i x hx => ?_ }
  by_cases hi : i = id
  · subst hi
    rw [AList.lookup_insert, Option.some.injEq] at hx
    subst hx
    exact hkv
  · rw [AList.lookup_insert_ne hi] at hx
    exact h.assigned i x hx

theorem eraseKv (h : Whole e) (id : RequestId) : Whole { e with requestKvs := e.requestKvs.erase id } := by
  refine { h with assigned := fun i x hx => ?_ }
  by_cases hi : i = id
  · subst hi
    rw [AList.lookup_erase] at hx
    cases hx
  · rw [AList.lookup_erase_ne hi] at hx
    exact h.assigned i x hx

theorem insertPrefetch (h : Whole e) (id : RequestId) (state : PrefetchState W)
    (hstate : ∀ b ∈ state.held ++ state.loading.getD [], b.rows.length = e.blockSize) :
    Whole { e with prefetch := e.prefetch.insert id state } := by
  refine { h with prefetched := fun i x hx => ?_ }
  by_cases hi : i = id
  · subst hi
    rw [AList.lookup_insert, Option.some.injEq] at hx
    subst hx
    exact hstate
  · rw [AList.lookup_insert_ne hi] at hx
    exact h.prefetched i x hx

theorem erasePrefetch (h : Whole e) (id : RequestId) : Whole { e with prefetch := e.prefetch.erase id } := by
  refine { h with prefetched := fun i x hx => ?_ }
  by_cases hi : i = id
  · subst hi
    rw [AList.lookup_erase] at hx
    cases hx
  · rw [AList.lookup_erase_ne hi] at hx
    exact h.prefetched i x hx

theorem openRequest (h : Whole e) (req : PrefillStepItem) : Whole (e.openRequest req).2 := by
  unfold LoraExecutor.openRequest
  split
  · exact h
  · dsimp only
    split_ifs
    · obtain ⟨h₁, h₂, h₃, h₄⟩ := (h.insertKv req.requestId ((RequestKv.new req.promptTokens req.loraAdapter :
        RequestKv W).addPrefix ((e.matchBlocks ((RequestKv.new req.promptTokens req.loraAdapter :
          RequestKv W).allBlockNames e.blockSize)).take ((RequestKv.new req.promptTokens req.loraAdapter :
            RequestKv W).maxMatchedBlocks e.blockSize))) (fun b hb =>
              h.registered b (matchBlocks_mem e _ b (List.mem_of_mem_take hb)).1)).erasePrefetch req.requestId
      exact ⟨h₁, h₂, h₃, h₄⟩
    · obtain ⟨h₁, h₂, h₃, h₄⟩ := (h.insertKv req.requestId
        (RequestKv.new req.promptTokens req.loraAdapter) nofun).erasePrefetch req.requestId
      exact ⟨h₁, h₂, h₃, h₄⟩

theorem schedulePrefillChunk (h : Whole e) (req : PrefillStepItem) : Whole (e.schedulePrefillChunk req).2 := by
  have hopen := h.openRequest req
  unfold LoraExecutor.schedulePrefillChunk
  dsimp only
  generalize (if req.promptLogprobs.isSome = true then _ else _) = chunkTokens
  split_ifs
  · exact hopen
  · split
    · exact hopen
    · exact hopen.evict _

theorem schedulePrefills (reqs : List PrefillStepItem) :
    ∀ {e : LoraExecutor W}, Whole e → Whole (e.schedulePrefills reqs).2 := by
  induction reqs with
  | nil => exact fun h => h
  | cons req reqs ih =>
    intro e h
    simp only [LoraExecutor.schedulePrefills]
    split
    · exact h.schedulePrefillChunk req
    · exact ih (h.schedulePrefillChunk req)

theorem scheduleDecodes (reqs : List DecodeStepItem) :
    ∀ {e : LoraExecutor W}, Whole e → Whole (e.scheduleDecodes reqs).2 := by
  induction reqs with
  | nil => exact fun h => h
  | cons req reqs ih =>
    intro e h
    simp only [LoraExecutor.scheduleDecodes]
    split_ifs
    · exact h
    · split
      · exact h
      · exact ih (h.evict _)

theorem pendingBlocks_whole (kv : RequestKv W) (blockSize : ℕ) :
    ∀ b ∈ kv.pendingBlocks blockSize, b.rows.length = blockSize := by
  intro b hb
  obtain ⟨i, -, rfl⟩ := List.mem_map.1 hb
  simp [RequestKv.block]

theorem applyRows (h : Whole e) (id : RequestId) (lora : Option String) (n : ℕ) (token : Option TokenId) :
    Whole (e.applyRows id lora n token) := by
  unfold LoraExecutor.applyRows
  split
  · rename_i kv weights hkv hweights
    have hpending := pendingBlocks_whole (kv.write n weights) e.blockSize
    have hreg := h.registerBlocks _ hpending
    have hinsert := hreg.insertKv id (((kv.write n weights).register e.blockSize).appendToken token) ?_
    · rw [(registerBlocks_rest _ e).1] at hinsert
      exact hinsert
    · intro b hb
      rw [registerBlocks_size]
      rcases List.mem_append.1 hb with hb | hb
      · exact h.assigned id kv hkv b hb
      · exact hpending b hb
  · exact h

theorem saveSealedBlocks (h : Whole e) (id : RequestId) : Whole (e.saveSealedBlocks id) := by
  unfold LoraExecutor.saveSealedBlocks
  split_ifs
  · exact h
  · split
    · exact h
    · rename_i kv hkv
      refine { h with hosted := fun b hb => ?_ }
      rcases List.mem_append.1 hb with hb | hb
      · exact h.hosted b hb
      · exact h.assigned id kv hkv b (List.mem_of_mem_drop hb)

/-- a loop that keeps full blocks at each of its items -/
theorem fold {α : Type} {f : LoraExecutor W → α → LoraExecutor W} (hf : ∀ a e, Whole e → Whole (f e a)) (as : List α) :
    ∀ {e : LoraExecutor W}, Whole e → Whole (as.foldl f e) := by
  induction as with
  | nil => exact fun h => h
  | cons a as ih => exact fun h => ih (hf a _ h)

theorem executeUnified (h : Whole e) (prefills : List PrefillStepItem) (decodes : List DecodeStepItem) :
    Whole (e.executeUnified prefills decodes).2 := by
  have h₁ := schedulePrefills prefills h
  unfold LoraExecutor.executeUnified
  dsimp only
  split
  · exact h₁.nextCall
  · rename_i chunks hchunks
    have h₂ := scheduleDecodes decodes h₁
    split
    · exact h₂.nextCall
    · split
      · exact h₂.nextCall
      · have h₃ := fold (f := fun e' chunk => e'.applyPrefillResult e.answer chunk)
          (fun _ _ he => he.applyRows _ _ _ _) chunks h₂
        have h₄ := fold (f := fun e' req => e'.applyDecodeResult e.answer req)
          (fun _ _ he => he.applyRows _ _ _ _) decodes h₃
        exact (fold (fun id _ he => he.saveSealedBlocks id) _ h₄).nextCall

theorem dropRequest (h : Whole e) (id : RequestId) : Whole (e.dropRequest id) := by
  unfold LoraExecutor.dropRequest
  dsimp only
  obtain ⟨h₁, h₂, h₃, h₄⟩ := ((h.eraseKv id).evict _).erasePrefetch id
  exact Whole.nextCall ⟨h₁, h₂, h₃, h₄⟩

theorem beginKvPrefetch (h : Whole e) (id : RequestId) (prompt : List TokenId) (lora : Option String) (floor : ℕ) :
    Whole (e.beginKvPrefetch id prompt lora floor).2 := by
  unfold LoraExecutor.beginKvPrefetch
  dsimp only
  have h₀ : Whole (if e.l1RetentionDisabled then e.evict fun _ => true else e) := by
    split_ifs
    · exact h.evict _
    · exact h
  generalize (if e.l1RetentionDisabled then e.evict fun _ => true else e) = e₀ at h₀
  have hconsulted : Whole { e₀ with connectorConsulted := id :: e₀.connectorConsulted } := by
    obtain ⟨h₁, h₂, h₃, h₄⟩ := h₀
    exact ⟨h₁, h₂, h₃, h₄⟩
  split_ifs
  · exact h
  · exact h₀.nextCall
  · split
    · exact hconsulted.nextCall
    · split_ifs
      · exact hconsulted.nextCall
      · refine ((hconsulted.insertPrefetch id _ fun b hb => ?_).evict _).nextCall
        rcases List.mem_append.1 hb with hb | hb
        · exact h₀.registered b (matchBlocks_mem e₀ _ b hb).1
        · exact h₀.hosted b (Kept.leased_mem _ _ _ b hb).1

theorem drainLoads (landed : RequestId → Option Bool) (ids : List RequestId) :
    ∀ {e : LoraExecutor W}, Whole e → Whole (e.drainLoads landed ids).2 := by
  induction ids with
  | nil => exact fun h => h
  | cons id ids ih =>
    intro e h
    simp only [LoraExecutor.drainLoads]
    split
    · rename_i gpuHit held hit hlookup
      split
      · exact ih h
      · refine ih ?_
        have hblocks := h.prefetched id _ hlookup
        unfold LoraExecutor.settlePrefetch
        split_ifs
        · have hreg := (h.registerBlocks hit fun b hb => hblocks b (List.mem_append_right _ hb)).insertPrefetch id
            ⟨gpuHit, held ++ hit, none⟩ ?_
          · rw [(registerBlocks_rest hit e).2] at hreg
            exact hreg
          · intro b hb
            rw [registerBlocks_size]
            rw [Option.getD_none, List.append_nil] at hb
            exact hblocks b hb
        · exact h.erasePrefetch id
    · exact ih h

theorem registry (h : Whole e) (ranks : List (RankModel W)) (loaded : List String) :
    Whole { e with ranks := ranks, loadedLoraAdapters := loaded }.nextCall := by
  obtain ⟨h₁, h₂, h₃, h₄⟩ := h
  exact Whole.nextCall ⟨h₁, h₂, h₃, h₄⟩

theorem handleLora (h : Whole e) (command : LoraControl) : Whole (e.handleLora command) := by
  cases command with
  | load name path loadInplace =>
    simp only [LoraExecutor.handleLora, LoraExecutor.loadLoraAdapter]
    split
    · exact h.nextCall
    · exact h.nextCall
    · split
      · exact h.nextCall
      · split
        · exact h.registry _ _
        · exact h.registry _ _
  | unload name =>
    simp only [LoraExecutor.handleLora, LoraExecutor.unloadLoraAdapter]
    split_ifs
    · exact h.nextCall
    · exact h.registry _ _
    · exact h.registry _ e.loadedLoraAdapters
  | list => exact h

theorem cold (h : e.Cold) : Whole e := by
  refine ⟨?_, ?_, fun id kv hkv => ?_, fun id state hstate => ?_⟩
  · rw [h.registered]
    exact nofun
  · rw [h.hosted]
    exact nofun
  · rw [h.requestKvs] at hkv
    cases hkv
  · rw [h.prefetch] at hstate
    cases hstate

end Whole

/-! ## What a step schedules and computes for one request -/

namespace LoraExecutor

variable {e : LoraExecutor W} {i : RequestId}

/-- how far a request's KV is computed, `none` before its first chunk -/
def rowsOf (e : LoraExecutor W) (id : RequestId) : Option ℕ := (e.requestKvs.lookup id).map RequestKv.kvPosition

theorem rowsOf_same {e e' : LoraExecutor W} {i : RequestId} (h : e'.requestKvs = e.requestKvs) :
    e'.rowsOf i = e.rowsOf i := by rw [rowsOf, h, rowsOf]

/-- a chunk of the item: it starts behind the KV the request has, or behind the prefix matched for it -/
structure ChunkOf (e : LoraExecutor W) (item : PrefillStepItem) (chunk : ScheduledChunk) : Prop where
  requestId : chunk.requestId = item.requestId
  lora : chunk.loraAdapter = item.loraAdapter
  promptLen : chunk.promptLen = item.promptTokens.length
  resumed : ∀ p, e.rowsOf item.requestId = some p → chunk.chunkStart = p
  opened : e.rowsOf item.requestId = none → chunk.chunkStart = chunk.cachedTokens.getD 0 ∧
    (item.promptLogprobs.isSome → chunk.cachedTokens = none)
  tokens : chunk.chunkTokens = if item.promptLogprobs.isSome then item.promptTokens.length - chunk.chunkStart
    else min (item.promptTokens.length - chunk.chunkStart) item.chunkBudget
  pos : 0 < chunk.chunkTokens

theorem openRequest_other (req : PrefillStepItem) {id : RequestId} (hid : id ≠ req.requestId) :
    (e.openRequest req).2.rowsOf id = e.rowsOf id := by
  unfold openRequest
  split
  · rfl
  · simp only [rowsOf, AList.lookup_insert_ne hid]

/-- rows of a matched prefix: its blocks are full -/
theorem addPrefix_rows (h : Whole e) (prompt : List TokenId) (lora : Option String) (n : ℕ) :
    ((RequestKv.new prompt lora : RequestKv W).addPrefix ((e.matchBlocks
      ((RequestKv.new prompt lora : RequestKv W).allBlockNames e.blockSize)).take n)).kvPosition =
    ((RequestKv.new prompt lora : RequestKv W).addPrefix ((e.matchBlocks
      ((RequestKv.new prompt lora : RequestKv W).allBlockNames e.blockSize)).take n)).prefixMatchedBlocks * e.blockSize := by
  have hrows : ∀ bs : List (KvBlock W), (∀ b ∈ bs, b.rows.length = e.blockSize) →
      (bs.flatMap KvBlock.rows).length = bs.length * e.blockSize := by
    intro bs
    induction bs with
    | nil => simp
    | cons b bs ih =>
      intro hbs
      rw [List.flatMap_cons, List.length_append, ih fun x hx => hbs x (List.mem_cons_of_mem _ hx),
        hbs b List.mem_cons_self, List.length_cons]
      ring
  exact hrows _ fun b hb => h.registered b (matchBlocks_mem e _ b (List.mem_of_mem_take hb)).1

theorem openRequest_self (h : Whole e) (req : PrefillStepItem) :
    (∀ p, e.rowsOf req.requestId = some p → (e.openRequest req).2.rowsOf req.requestId = some p) ∧
      (e.rowsOf req.requestId = none →
        (e.openRequest req).2.rowsOf req.requestId = some ((e.openRequest req).1.1.getD 0) ∧
        (req.promptLogprobs.isSome → (e.openRequest req).1.1 = none)) := by
  unfold openRequest
  cases hkv : e.requestKvs.lookup req.requestId with
  | some kv =>
    refine ⟨fun p hp => hp, fun hnone => ?_⟩
    rw [rowsOf, hkv] at hnone
    cases hnone
  | none =>
    refine ⟨fun p hp => ?_, fun _ => ?_⟩
    · rw [rowsOf, hkv] at hp
      cases hp
    · dsimp only
      split_ifs with hmatch
      · refine ⟨?_, fun hscored => ?_⟩
        · simp only [rowsOf, AList.lookup_insert, Option.map_some, Option.getD_some]
          rw [addPrefix_rows h]
        · rw [Bool.and_eq_true, Option.isNone_iff_eq_none] at hmatch
          rw [hmatch.2] at hscored
          cases hscored
      · refine ⟨?_, fun _ => rfl⟩
        simp [rowsOf, AList.lookup_insert, RequestKv.new, RequestKv.kvPosition]

theorem schedulePrefillChunk_other (req : PrefillStepItem) {id : RequestId} (hid : id ≠ req.requestId) :
    (e.schedulePrefillChunk req).2.rowsOf id = e.rowsOf id := by
  have hopen := openRequest_other (e := e) req hid
  unfold schedulePrefillChunk
  dsimp only
  generalize (if req.promptLogprobs.isSome = true then _ else _) = chunkTokens
  split_ifs
  · exact hopen
  · split
    · exact hopen
    · exact hopen

theorem schedulePrefillChunk_self (h : Whole e) {req : PrefillStepItem} {chunk : ScheduledChunk}
    (hok : (e.schedulePrefillChunk req).1 = .ok chunk) :
    ChunkOf e req chunk ∧ (e.schedulePrefillChunk req).2.rowsOf req.requestId = some chunk.chunkStart := by
  obtain ⟨hresumed, hopened⟩ := openRequest_self h req
  -- the request is open from here on
  have hsome : ∃ p, (e.openRequest req).2.rowsOf req.requestId = some p := by
    cases hrows : e.rowsOf req.requestId with
    | none => exact ⟨_, (hopened hrows).1⟩
    | some p => exact ⟨p, hresumed p hrows⟩
  obtain ⟨p, hp⟩ := hsome
  have hstart : (((e.openRequest req).2.requestKvs.lookup req.requestId).map RequestKv.kvPosition).getD 0 = p := by
    have := hp
    rw [rowsOf] at this
    rw [this, Option.getD_some]
  unfold schedulePrefillChunk at hok ⊢
  dsimp only at hok ⊢
  rw [hstart] at hok ⊢
  generalize htokens : (if req.promptLogprobs.isSome = true then req.promptTokens.length - p
    else min (req.promptTokens.length - p) req.chunkBudget) = chunkTokens at hok ⊢
  split_ifs at hok ⊢ with hzero
  split at hok
  · cases hok
  · rename_i hfail
    cases hok
    refine ⟨⟨rfl, rfl, rfl, fun q hq => ?_, fun hnone => ?_, htokens.symm, Nat.pos_of_ne_zero hzero⟩, hp⟩
    · have := hresumed q hq
      rw [hp] at this
      exact Option.some.inj this
    · obtain ⟨hcached, hscored⟩ := hopened hnone
      rw [hp] at hcached
      exact ⟨Option.some.inj hcached, hscored⟩

theorem schedulePrefills_other (reqs : List PrefillStepItem) :
    ∀ {e : LoraExecutor W}, i ∉ reqs.map (·.requestId) → (e.schedulePrefills reqs).2.rowsOf i = e.rowsOf i := by
  induction reqs with
  | nil => exact fun _ => rfl
  | cons req reqs ih =>
    intro e hi
    rw [List.map_cons, List.mem_cons, not_or] at hi
    have hchunk := schedulePrefillChunk_other (e := e) req hi.1
    simp only [schedulePrefills]
    split
    · exact hchunk
    · exact (ih hi.2).trans hchunk

theorem schedulePrefillChunk_id {req : PrefillStepItem} {chunk : ScheduledChunk}
    (hok : (e.schedulePrefillChunk req).1 = .ok chunk) : chunk.requestId = req.requestId := by
  unfold schedulePrefillChunk at hok
  dsimp only at hok
  generalize (if req.promptLogprobs.isSome = true then _ else _) = chunkTokens at hok
  split_ifs at hok
  split at hok
  · cases hok
  · cases hok
    rfl

theorem schedulePrefills_ids (reqs : List PrefillStepItem) :
    ∀ {e : LoraExecutor W} {chunks : List ScheduledChunk}, (e.schedulePrefills reqs).1 = .ok chunks →
      chunks.map ScheduledChunk.requestId = reqs.map (·.requestId) := by
  induction reqs with
  | nil =>
    intro e chunks hok
    cases hok
    rfl
  | cons req reqs ih =>
    intro e chunks hok
    simp only [schedulePrefills] at hok
    split at hok
    · cases hok
    · rename_i chunk hchunk
      cases hrest : ((e.schedulePrefillChunk req).2.schedulePrefills reqs).1 with
      | error s =>
        rw [hrest] at hok
        cases hok
      | ok rest =>
        rw [hrest] at hok
        cases hok
        rw [List.map_cons, List.map_cons, ih hrest, schedulePrefillChunk_id hchunk]

/-- the state a chunk is of matters for its own request only -/
theorem ChunkOf.of_rows {e e' : LoraExecutor W} {item : PrefillStepItem} {chunk : ScheduledChunk}
    (h : ChunkOf e' item chunk) (hrows : e'.rowsOf item.requestId = e.rowsOf item.requestId) : ChunkOf e item chunk :=
  ⟨h.requestId, h.lora, h.promptLen, hrows ▸ h.resumed, hrows ▸ h.opened, h.tokens, h.pos⟩

/-- **Scheduling.** A request in the step once has one chunk, whatever is scheduled beside it. -/
theorem schedulePrefills_chunk (reqs : List PrefillStepItem) :
    ∀ {e : LoraExecutor W} {chunks : List ScheduledChunk} {req : PrefillStepItem}, Whole e →
      (reqs.map (·.requestId)).count i ≤ 1 → req ∈ reqs → req.requestId = i → (e.schedulePrefills reqs).1 = .ok chunks →
      ∃ pre chunk post, chunks = pre ++ chunk :: post ∧ i ∉ pre.map ScheduledChunk.requestId ∧
        i ∉ post.map ScheduledChunk.requestId ∧ ChunkOf e req chunk ∧
        (e.schedulePrefills reqs).2.rowsOf i = some chunk.chunkStart := by
  induction reqs with
  | nil => exact fun _ _ hreq => absurd hreq List.not_mem_nil
  | cons head reqs ih =>
    intro e chunks req h honce hreq hid hok
    simp only [schedulePrefills] at hok ⊢
    split at hok
    · cases hok
    · rename_i chunk hchunk
      dsimp only
      cases hrest : ((e.schedulePrefillChunk head).2.schedulePrefills reqs).1 with
      | error s =>
        rw [hrest] at hok
        cases hok
      | ok rest =>
        rw [hrest] at hok
        cases hok
        obtain ⟨hself, hrows⟩ := schedulePrefillChunk_self h hchunk
        have hwhole := h.schedulePrefillChunk head
        rw [List.map_cons, List.count_cons] at honce
        by_cases hhead : head.requestId = i
        · -- the head is the request: the others leave it alone
          rw [if_pos (by simpa using hhead)] at honce
          have hnone : i ∉ reqs.map (·.requestId) := List.count_eq_zero.1 (by omega)
          have heq : req = head := by
            rcases List.mem_cons.1 hreq with heq | hmem
            · exact heq
            · exact absurd (List.mem_map.2 ⟨req, hmem, hid⟩) hnone
          subst heq
          refine ⟨[], chunk, rest, rfl, List.not_mem_nil, ?_, hself, ?_⟩
          · rw [schedulePrefills_ids reqs hrest]
            exact hnone
          · rw [schedulePrefills_other reqs hnone, ← hid]
            exact hrows
        · rcases List.mem_cons.1 hreq with rfl | hmem
          · exact absurd hid hhead
          · obtain ⟨pre, c, post, rfl, hpre, hpost, hc, hfinal⟩ := ih hwhole (by omega) hmem hid hrest
            refine ⟨chunk :: pre, c, post, rfl, ?_, hpost, hc.of_rows ?_, hfinal⟩
            · rw [List.map_cons, List.mem_cons, not_or, hself.requestId]
              exact ⟨fun heq => hhead heq.symm, hpre⟩
            · rw [hid]
              exact schedulePrefillChunk_other head fun heq => hhead heq.symm

theorem scheduleDecodes_rows (reqs : List DecodeStepItem) :
    ∀ e : LoraExecutor W, (e.scheduleDecodes reqs).2.requestKvs = e.requestKvs := by
  induction reqs with
  | nil => exact fun _ => rfl
  | cons req reqs ih =>
    intro e
    simp only [scheduleDecodes]
    split_ifs
    · rfl
    · split
      · rfl
      · exact ih _

/-! ### The forward -/

theorem registerBlocks_ranks (bs : List (KvBlock W)) : ∀ e : LoraExecutor W, (e.registerBlocks bs).ranks = e.ranks := by
  induction bs with
  | nil => exact fun _ => rfl
  | cons b bs ih =>
    intro e
    refine (ih (e.registerBlock b)).trans ?_
    unfold registerBlock
    split_ifs <;> rfl

theorem applyRows_ranks (id : RequestId) (lora : Option String) (n : ℕ) (token : Option TokenId) :
    (e.applyRows id lora n token).ranks = e.ranks := by
  unfold applyRows
  split
  · exact registerBlocks_ranks _ e
  · rfl

theorem applyRows_other {id : RequestId} (lora : Option String) (n : ℕ) (token : Option TokenId) (hi : i ≠ id) :
    (e.applyRows id lora n token).rowsOf i = e.rowsOf i := by
  unfold applyRows
  split
  · simp only [rowsOf, AList.lookup_insert_ne hi]
  · rfl

theorem applyRows_self {lora : Option String} {n p : ℕ} (token : Option TokenId) (hp : e.rowsOf i = some p)
    (hinstalled : (e.installed lora).isSome) : (e.applyRows i lora n token).rowsOf i = some (p + n) := by
  obtain ⟨weights, hweights⟩ := Option.isSome_iff_exists.1 hinstalled
  obtain ⟨kv, hkv, rfl⟩ := Option.map_eq_some_iff.1 hp
  simp only [applyRows, hkv, hweights, rowsOf, AList.lookup_insert, Option.map_some]
  simp [RequestKv.kvPosition, RequestKv.appendToken, RequestKv.register, RequestKv.write]

theorem runStep_installed {loras : List (Option String)} (h : e.runStep loras = .ok ()) :
    ∀ lora ∈ loras, (e.installed lora).isSome := by
  intro lora hlora
  unfold runStep at h
  split at h
  · cases h
  · rename_i hnone
    have := List.find?_eq_none.1 hnone lora hlora
    cases hx : e.installed lora with
    | none => simp [hx] at this
    | some weights => rfl

/-- prefill rows of other requests -/
theorem applyPrefills_other (a : DeviceAnswer W) (chunks : List ScheduledChunk) :
    ∀ {e : LoraExecutor W}, i ∉ chunks.map ScheduledChunk.requestId →
      (chunks.foldl (fun e chunk => e.applyPrefillResult a chunk) e).rowsOf i = e.rowsOf i := by
  induction chunks with
  | nil => exact fun _ => rfl
  | cons chunk chunks ih =>
    intro e hi
    rw [List.map_cons, List.mem_cons, not_or] at hi
    exact (ih hi.2).trans (applyRows_other _ _ _ hi.1)

theorem applyPrefills_ranks (a : DeviceAnswer W) (chunks : List ScheduledChunk) :
    ∀ e : LoraExecutor W, (chunks.foldl (fun e chunk => e.applyPrefillResult a chunk) e).ranks = e.ranks := by
  induction chunks with
  | nil => exact fun _ => rfl
  | cons chunk chunks ih => exact fun e => (ih _).trans (applyRows_ranks _ _ _ _)

theorem applyDecodes_other (a : DeviceAnswer W) (reqs : List DecodeStepItem) :
    ∀ {e : LoraExecutor W}, i ∉ reqs.map (·.requestId) →
      (reqs.foldl (fun e req => e.applyDecodeResult a req) e).rowsOf i = e.rowsOf i := by
  induction reqs with
  | nil => exact fun _ => rfl
  | cons req reqs ih =>
    intro e hi
    rw [List.map_cons, List.mem_cons, not_or] at hi
    exact (ih hi.2).trans (applyRows_other _ _ _ hi.1)

theorem saveSealed_rows (ids : List RequestId) : ∀ e : LoraExecutor W, (ids.foldl saveSealedBlocks e).rowsOf i = e.rowsOf i := by
  induction ids with
  | nil => exact fun _ => rfl
  | cons id ids ih =>
    intro e
    refine (ih _).trans ?_
    unfold saveSealedBlocks
    split_ifs
    · rfl
    · split <;> rfl

/-- a chunk of the request among others moves its KV by the chunk -/
theorem applyPrefills_self (a : DeviceAnswer W) {pre post : List ScheduledChunk} {chunk : ScheduledChunk}
    (hpre : chunk.requestId ∉ pre.map ScheduledChunk.requestId)
    (hpost : chunk.requestId ∉ post.map ScheduledChunk.requestId)
    (hrows : e.rowsOf chunk.requestId = some chunk.chunkStart) (hinstalled : (e.installed chunk.loraAdapter).isSome) :
    ((pre ++ chunk :: post).foldl (fun e chunk => e.applyPrefillResult a chunk) e).rowsOf chunk.requestId =
      some (chunk.chunkStart + chunk.chunkTokens) := by
  rw [List.foldl_append, List.foldl_cons, applyPrefills_other a post hpost]
  refine applyRows_self _ ?_ ?_
  · rw [applyPrefills_other a pre hpre, hrows]
  · rw [installed, applyPrefills_ranks]
    exact hinstalled

@[simp] theorem prefillResult_requestId (a : DeviceAnswer W) (chunk : ScheduledChunk) :
    (prefillResult a chunk).requestId = chunk.requestId := rfl

/-- a step answers the prefills it was given -/
theorem executeUnified_answers {prefills : List PrefillStepItem} {decodes : List DecodeStepItem}
    {result : UnifiedResult} (hok : (e.executeUnified prefills decodes).1 = .ok result) :
    result.prefillRequests.map (·.requestId) = prefills.map (·.requestId) := by
  unfold executeUnified at hok
  dsimp only at hok
  split at hok
  · cases hok
  · rename_i chunks hchunks
    split at hok
    · cases hok
    · split at hok
      · cases hok
      · cases hok
        rw [← schedulePrefills_ids prefills hchunks, List.map_map]
        rfl

/-- requests that are not in the step -/
theorem executeUnified_other {prefills : List PrefillStepItem} {decodes : List DecodeStepItem}
    (hp : i ∉ prefills.map (·.requestId)) (hd : i ∉ decodes.map (·.requestId)) :
    (e.executeUnified prefills decodes).2.rowsOf i = e.rowsOf i := by
  have h₁ := schedulePrefills_other (e := e) prefills hp
  have h₂ : ((e.schedulePrefills prefills).2.scheduleDecodes decodes).2.rowsOf i = e.rowsOf i := by
    rw [rowsOf, scheduleDecodes_rows]
    exact h₁
  unfold executeUnified
  dsimp only
  split
  · exact h₁
  · rename_i chunks hchunks
    split
    · exact h₂
    · split
      · exact h₂
      · refine (saveSealed_rows _ _).trans ((applyDecodes_other _ _ hd).trans ((applyPrefills_other _ _ ?_).trans h₂))
        rw [schedulePrefills_ids prefills hchunks]
        exact hp

/-- **The step of a request.** Beside whatever else runs, it is answered once, with its own chunk, and its KV is where
the answer says. -/
theorem executeUnified_self {prefills : List PrefillStepItem} {decodes : List DecodeStepItem} {item : PrefillStepItem}
    (honce : (prefills.map (·.requestId)).count i ≤ 1) (hd : i ∉ decodes.map (·.requestId)) (h : Whole e)
    (hitem : item ∈ prefills) (hid : item.requestId = i) {result : UnifiedResult}
    (hok : (e.executeUnified prefills decodes).1 = .ok result) :
    ∃ (a : DeviceAnswer W) (chunk : ScheduledChunk), ChunkOf e item chunk ∧
      result.prefillRequests.filter (fun res => res.requestId = i) = [prefillResult a chunk] ∧
      (e.executeUnified prefills decodes).2.rowsOf i = some (chunk.chunkStart + chunk.chunkTokens) := by
  unfold executeUnified at hok ⊢
  dsimp only at hok ⊢
  split at hok
  · cases hok
  · rename_i chunks hchunks
    obtain ⟨pre, chunk, post, rfl, hpre, hpost, hc, hrows⟩ := schedulePrefills_chunk prefills h honce hitem hid hchunks
    have hci : chunk.requestId = i := hc.requestId.trans hid
    split at hok
    · cases hok
    · split at hok
      · cases hok
      · rename_i hrun
        cases hok
        refine ⟨e.answer, chunk, hc, ?_, ?_⟩
        · have hnone : ∀ cs : List ScheduledChunk, i ∉ cs.map ScheduledChunk.requestId →
              (cs.map (prefillResult e.answer)).filter (fun res => res.requestId = i) = [] := by
            intro cs hcs
            rw [List.filter_eq_nil_iff]
            intro res hres
            obtain ⟨c, hmem, rfl⟩ := List.mem_map.1 hres
            rw [prefillResult_requestId, decide_eq_true_eq]
            exact fun heq => hcs (List.mem_map.2 ⟨c, hmem, heq⟩)
          have hmine : decide ((prefillResult e.answer chunk).requestId = i) = true := decide_eq_true hci
          rw [List.map_append, List.map_cons, List.filter_append, hnone pre hpre, List.filter_cons, if_pos hmine,
            hnone post hpost, List.nil_append]
        · refine (saveSealed_rows _ _).trans ((applyDecodes_other _ _ hd).trans ?_)
          rw [← hci]
          refine applyPrefills_self _ (by rwa [hci]) (by rwa [hci]) ?_ ?_
          · rw [hci, rowsOf, scheduleDecodes_rows]
            exact hrows
          · apply runStep_installed hrun
            simp

/-! ### Calls that compute nothing -/

theorem dropRequest_rows {id : RequestId} (hi : i ≠ id) : (e.dropRequest id).rowsOf i = e.rowsOf i := by
  change ((e.requestKvs.erase id).lookup i).map _ = _
  rw [AList.lookup_erase_ne hi]
  rfl

theorem beginKvPrefetch_rows (id : RequestId) (prompt : List TokenId) (lora : Option String) (floor : ℕ) :
    (e.beginKvPrefetch id prompt lora floor).2.requestKvs = e.requestKvs := by
  unfold beginKvPrefetch
  dsimp only
  have h₀ : (if e.l1RetentionDisabled then e.evict fun _ => true else e).requestKvs = e.requestKvs := by
    split_ifs <;> rfl
  generalize (if e.l1RetentionDisabled then e.evict fun _ => true else e) = e₀ at h₀
  split_ifs
  · rfl
  · exact h₀
  · split
    · exact h₀
    · split_ifs
      · exact h₀
      · exact h₀

theorem drainLoads_rows (landed : RequestId → Option Bool) (ids : List RequestId) :
    ∀ e : LoraExecutor W, (e.drainLoads landed ids).2.requestKvs = e.requestKvs := by
  induction ids with
  | nil => exact fun _ => rfl
  | cons id ids ih =>
    intro e
    simp only [drainLoads]
    split
    · split
      · exact ih e
      · refine (ih _).trans ?_
        unfold settlePrefetch
        split_ifs
        · exact (registerBlocks_rest _ e).1
        · rfl
    · exact ih e

end LoraExecutor

/-! ## Chunks cut -/

open LoraExecutor (rowsOf)

variable {i : RequestId} {r : Request} {maxPrefillTokens m : ℕ} {e e' : Recorded (LoraExecutor W)}

/-- `m` chunks of the request were answered, each where `chunkEnds` has it -/
structure Cut (i : RequestId) (r : Request) (maxPrefillTokens : ℕ) (e : Recorded (LoraExecutor W)) (m : ℕ) : Prop where
  whole : Whole e.inner
  ends : e.boundaries i = chunkEnds maxPrefillTokens r.promptTokens.length (e.cachedPrefix i) m
  inside : m = 0 ∨ e.cachedPrefix i + (m - 1) * maxPrefillTokens < r.promptTokens.length
  done : e.prefilled i = true ↔ 0 < m ∧ r.promptTokens.length ≤ e.cachedPrefix i + m * maxPrefillTokens

/-- the executor can go on at `p`: nothing was cut and no KV is open, or the KV is where the last chunk ended -/
def Resumes (i : RequestId) (r : Request) (maxPrefillTokens : ℕ) (e : Recorded (LoraExecutor W)) (p : ℕ) : Prop :=
  (p = 0 ∧ Cut i r maxPrefillTokens e 0 ∧ e.inner.rowsOf i = none) ∨
    ∃ m, 0 < m ∧ Cut i r maxPrefillTokens e m ∧ p = e.cachedPrefix i + m * maxPrefillTokens ∧
      p < r.promptTokens.length ∧ e.inner.rowsOf i = some p

/-- the stages of a request under request-local chunking -/
def cutStage (i : RequestId) (r : Request) (maxPrefillTokens : ℕ) (e : Recorded (LoraExecutor W)) : Option ℕ → Prop
  | none => ∃ m, Cut i r maxPrefillTokens e m
  | some p => Resumes i r maxPrefillTokens e p

theorem Cut.same (h : Cut i r maxPrefillTokens e m) (ha : e'.answersTo i = e.answersTo i) (hw : Whole e'.inner) :
    Cut i r maxPrefillTokens e' m := by
  have hb : e'.boundaries i = e.boundaries i := by rw [Recorded.boundaries, ha, Recorded.boundaries]
  have hc : e'.cachedPrefix i = e.cachedPrefix i := by rw [Recorded.cachedPrefix, ha, Recorded.cachedPrefix]
  have hp : e'.prefilled i = e.prefilled i := by rw [Recorded.prefilled, ha, Recorded.prefilled]
  exact ⟨hw, by rw [hb, hc]; exact h.ends, by rw [hc]; exact h.inside, by rw [hp, hc]; exact h.done⟩

theorem cutStage_rest {o : Option ℕ} (h : cutStage i r maxPrefillTokens e o) :
    cutStage i r maxPrefillTokens e none := by
  cases o with
  | none => exact h
  | some p =>
    rcases h with ⟨-, hcut, -⟩ | ⟨m, -, hcut, -⟩
    · exact ⟨0, hcut⟩
    · exact ⟨m, hcut⟩

/-- a call without an answer to the request, that leaves its KV alone, keeps its stage -/
theorem cutStage_same {o : Option ℕ} (h : cutStage i r maxPrefillTokens e o) (ha : e'.answersTo i = e.answersTo i)
    (hw : Whole e.inner → Whole e'.inner) (hrows : e'.inner.rowsOf i = e.inner.rowsOf i) :
    cutStage i r maxPrefillTokens e' o := by
  have hc : e'.cachedPrefix i = e.cachedPrefix i := by rw [Recorded.cachedPrefix, ha, Recorded.cachedPrefix]
  cases o with
  | none =>
    obtain ⟨m, hcut⟩ := h
    exact ⟨m, hcut.same ha (hw hcut.whole)⟩
  | some p =>
    rcases h with ⟨hp, hcut, hnone⟩ | ⟨m, hm, hcut, hp, hlt, hsome⟩
    · exact Or.inl ⟨hp, hcut.same ha (hw hcut.whole), hrows.trans hnone⟩
    · exact Or.inr ⟨m, hm, hcut.same ha (hw hcut.whole), by rw [hc]; exact hp, hlt, hrows.trans hsome⟩

/-- one more chunk, cut at its place -/
theorem Cut.next (h : Cut i r maxPrefillTokens e m) {res : PrefillRequestResult}
    (ha : e'.answersTo i = e.answersTo i ++ [res]) (hw : Whole e'.inner)
    (hcached : m = 0 → res.cachedTokens.getD 0 < r.promptTokens.length ∧
      res.prefillPos = min r.promptTokens.length (res.cachedTokens.getD 0 + maxPrefillTokens))
    (hlater : 0 < m → e.cachedPrefix i + m * maxPrefillTokens < r.promptTokens.length ∧
      res.prefillPos = min r.promptTokens.length (e.cachedPrefix i + m * maxPrefillTokens + maxPrefillTokens))
    (hdone : res.completed = decide (r.promptTokens.length ≤ res.prefillPos)) :
    Cut i r maxPrefillTokens e' (m + 1) ∧ (0 < m → e'.cachedPrefix i = e.cachedPrefix i) ∧
      (m = 0 → e'.cachedPrefix i = res.cachedTokens.getD 0) := by
  have hlen : (e.answersTo i).length = m := by
    have := congrArg List.length h.ends
    simpa [Recorded.boundaries, chunkEnds] using this
  have hb : e'.boundaries i = e.boundaries i ++ [res.prefillPos] := by
    rw [Recorded.boundaries, ha, List.map_append]
    rfl
  have hp : e'.prefilled i = (e.prefilled i || res.completed) := by
    simp [Recorded.prefilled, ha]
  have hsame : 0 < m → e'.cachedPrefix i = e.cachedPrefix i := by
    intro hm
    cases hx : e.answersTo i with
    | nil =>
      rw [hx] at hlen
      simp at hlen
      omega
    | cons a as => simp [Recorded.cachedPrefix, ha, hx]
  have hfirst : m = 0 → e'.cachedPrefix i = res.cachedTokens.getD 0 := by
    intro hm
    have hnil : e.answersTo i = [] := List.length_eq_zero_iff.1 (hlen.trans hm)
    simp [Recorded.cachedPrefix, ha, hnil]
  refine ⟨⟨hw, ?_, ?_, ?_⟩, hsame, hfirst⟩
  · rw [hb, h.ends, chunkEnds_succ]
    rcases Nat.eq_zero_or_pos m with rfl | hm
    · rw [hfirst rfl, (hcached rfl).2]
      simp [chunkEnds]
    · rw [hsame hm, (hlater hm).2, Nat.succ_mul, Nat.add_assoc]
  · right
    rcases Nat.eq_zero_or_pos m with rfl | hm
    · simpa [hfirst rfl] using (hcached rfl).1
    · simpa [hsame hm] using (hlater hm).1
  · rw [hp, hdone, Bool.or_eq_true, decide_eq_true_eq, h.done]
    rcases Nat.eq_zero_or_pos m with rfl | hm
    · rw [hfirst rfl, (hcached rfl).2]
      omega
    · rw [hsame hm, (hlater hm).2, Nat.succ_mul]
      have := (hlater hm).1
      omega

/-! ## The stages of the executor -/

theorem answersTo_note (e : Recorded (LoraExecutor W)) (inner : LoraExecutor W) (answers : List PrefillRequestResult) :
    (e.note inner answers).answersTo i = e.answersTo i ++ answers.filter fun a => a.requestId = i := by
  simp [Recorded.note, Recorded.answersTo]

/-- the answer to a due chunk is at the next boundary -/
theorem Resumes.answered {p : ℕ} {item : PrefillStepItem} {chunk : LoraExecutor.ScheduledChunk} {a : DeviceAnswer W}
    (h : Resumes i r maxPrefillTokens e p) (hof : item.Of r) (hadm : Admissible r maxPrefillTokens)
    (hbudget : r.promptLogprobs = none → item.chunkBudget = min (r.promptTokens.length - p) maxPrefillTokens)
    (hid : item.requestId = i) (hc : e.inner.ChunkOf item chunk)
    (ha : e'.answersTo i = e.answersTo i ++ [LoraExecutor.prefillResult a chunk]) (hw : Whole e'.inner)
    (hrows : e'.inner.rowsOf i = some (chunk.chunkStart + chunk.chunkTokens)) :
    ∃ m, Cut i r maxPrefillTokens e' m ∧ (chunk.chunkStart + chunk.chunkTokens < r.promptTokens.length →
      Resumes i r maxPrefillTokens e' (chunk.chunkStart + chunk.chunkTokens)) := by
  have htokens := hc.tokens
  have hpos := hc.pos
  rw [hof.prompt, hof.promptLogprobs] at htokens
  have hdone : (LoraExecutor.prefillResult a chunk).completed =
      decide (r.promptTokens.length ≤ (LoraExecutor.prefillResult a chunk).prefillPos) := by
    rw [← hof.prompt, ← hc.promptLen]
    rfl
  rcases h with ⟨rfl, hcut, hnone⟩ | ⟨m, hm, hcut, hp, hlt, hsome⟩
  · -- the first chunk, behind the matched prefix
    obtain ⟨hstart, hscored⟩ := hc.opened (by rw [hid]; exact hnone)
    have hend : chunk.chunkStart < r.promptTokens.length ∧
        chunk.chunkStart + chunk.chunkTokens = min r.promptTokens.length (chunk.chunkStart + maxPrefillTokens) := by
      by_cases hs : r.promptLogprobs.isSome
      · have hzero : chunk.chunkStart = 0 := by
          rw [hstart, hscored (by rw [hof.promptLogprobs]; exact hs), Option.getD_none]
        have hfits := hadm hs
        rw [if_pos hs] at htokens
        omega
      · have hbound := hbudget (by simpa using hs)
        rw [if_neg hs, hbound] at htokens
        omega
    obtain ⟨hcut', -, hcached⟩ := hcut.next ha hw (fun _ => by
      rw [show (LoraExecutor.prefillResult a chunk).cachedTokens = chunk.cachedTokens from rfl, ← hstart]
      exact hend) (fun h => absurd h (lt_irrefl 0)) hdone
    refine ⟨1, hcut', fun hless => Or.inr ⟨1, Nat.one_pos, hcut', ?_, hless, hrows⟩⟩
    have hc' := hcached rfl
    rw [show (LoraExecutor.prefillResult a chunk).cachedTokens = chunk.cachedTokens from rfl, ← hstart] at hc'
    omega
  · -- a later chunk, behind the KV of the chunks before
    have hstart := hc.resumed p (by rw [hid]; exact hsome)
    have hend : chunk.chunkStart + chunk.chunkTokens = min r.promptTokens.length (p + maxPrefillTokens) := by
      by_cases hs : r.promptLogprobs.isSome
      · -- a scored prompt has one chunk
        have hfits := hadm hs
        have : maxPrefillTokens ≤ m * maxPrefillTokens := Nat.le_mul_of_pos_left _ hm
        omega
      · have hbound := hbudget (by simpa using hs)
        rw [if_neg hs, hbound] at htokens
        omega
    obtain ⟨hcut', hsame, -⟩ := hcut.next ha hw (fun h => absurd h hm.ne') (fun _ => ⟨by omega, by
      rw [← hp]
      exact hend⟩) hdone
    refine ⟨m + 1, hcut', fun hless => Or.inr ⟨m + 1, Nat.succ_pos m, hcut', ?_, hless, hrows⟩⟩
    rw [hsame hm, Nat.succ_mul]
    omega

/-- a step of the recorded executor, in the parts its record is made of -/
theorem unified_stages {items : List PrefillStepItem} {decodes : List DecodeStepItem}
    (honce : (items.map (·.requestId)).count i + (decodes.map (·.requestId)).count i ≤ 1)
    (hdue : ∀ item ∈ items, item.requestId = i → Due r maxPrefillTokens (cutStage i r maxPrefillTokens) e item)
    (he : e' = e.note (e.inner.executeUnified items decodes).2 (unifiedAnswers (e.inner.executeUnified items decodes).1)) :
    Touches i (cutStage i r maxPrefillTokens) (items.map (·.requestId) ++ decodes.map (·.requestId)) e e' ∧
      ∀ result, (e.inner.executeUnified items decodes).1 = .ok result →
        Advances i (cutStage i r maxPrefillTokens) e' result.prefillRequests := by
  have hinner : e'.inner = (e.inner.executeUnified items decodes).2 := by rw [he]; rfl
  have hanswers : e'.answersTo i = e.answersTo i ++
      (unifiedAnswers (e.inner.executeUnified items decodes).1).filter fun a => a.requestId = i := by
    rw [he, answersTo_note]
  have hwhole : Whole e.inner → Whole e'.inner := fun hw => by
    rw [hinner]
    exact hw.executeUnified items decodes
  -- without an answer to the request its chunks stand
  have hstands : (unifiedAnswers (e.inner.executeUnified items decodes).1).filter (fun a => a.requestId = i) = [] →
      cutStage i r maxPrefillTokens e none → cutStage i r maxPrefillTokens e' none := by
    rintro hnil ⟨m, hcut⟩
    rw [hnil, List.append_nil] at hanswers
    exact ⟨m, hcut.same hanswers (hwhole hcut.whole)⟩
  by_cases hi : i ∈ items.map (·.requestId)
  · obtain ⟨item, hitem, hid⟩ := List.mem_map.1 hi
    have hcount : 1 ≤ (items.map (·.requestId)).count i := List.one_le_count_iff.2 hi
    have hd : i ∉ decodes.map (·.requestId) := List.count_eq_zero.1 (by omega)
    obtain ⟨hof, hadm, p, hstage, hbudget⟩ := hdue item hitem hid
    have hw : Whole e.inner := by
      obtain ⟨m, hcut⟩ := cutStage_rest hstage
      exact hcut.whole
    cases hres : (e.inner.executeUnified items decodes).1 with
    | error err =>
      refine ⟨⟨hstands (by rw [hres]; rfl), fun hni => absurd (List.mem_append_left _ hi) hni⟩, nofun⟩
    | ok result =>
      obtain ⟨a, chunk, hc, hmine, hrows⟩ := LoraExecutor.executeUnified_self (by omega) hd hw hitem hid hres
      rw [hres] at hanswers
      obtain ⟨m, hcut, hresumes⟩ := Resumes.answered hstage hof hadm hbudget hid hc
        (hanswers.trans (by rw [← hmine]; rfl)) (hwhole hw) (by rw [hinner]; exact hrows)
      refine ⟨⟨fun _ => ⟨m, hcut⟩, fun hni => absurd (List.mem_append_left _ hi) hni⟩, ?_⟩
      intro result' hok res hmem hri hpart
      cases hok
      have hres' : res = LoraExecutor.prefillResult a chunk := by
        have : res ∈ result.prefillRequests.filter fun res => res.requestId = i :=
          List.mem_filter.2 ⟨hmem, decide_eq_true hri⟩
        rw [hmine] at this
        exact List.mem_singleton.1 this
      subst hres'
      refine hresumes ?_
      have hpart' : decide (chunk.promptLen ≤ chunk.chunkStart + chunk.chunkTokens) = false := hpart
      rw [hc.promptLen, hof.prompt, decide_eq_false_iff_not] at hpart'
      omega
  · have hnone : ∀ result, (e.inner.executeUnified items decodes).1 = .ok result →
        ∀ res ∈ result.prefillRequests, res.requestId ≠ i := by
      intro result hres res hmem heq
      apply hi
      rw [← LoraExecutor.executeUnified_answers hres]
      exact List.mem_map.2 ⟨res, hmem, heq⟩
    have hnil : (unifiedAnswers (e.inner.executeUnified items decodes).1).filter (fun a => a.requestId = i) = [] := by
      cases hres : (e.inner.executeUnified items decodes).1 with
      | error err => rfl
      | ok result => exact List.filter_eq_nil_iff.2 fun res hmem => by simpa using hnone result hres res hmem
    refine ⟨⟨hstands hnil, fun hni o ho => ?_⟩, fun result hres res hmem hri => absurd hri (hnone result hres res hmem)⟩
    rw [List.mem_append, not_or] at hni
    rw [hnil, List.append_nil] at hanswers
    refine cutStage_same ho hanswers hwhole ?_
    rw [hinner]
    exact LoraExecutor.executeUnified_other hni.1 hni.2

theorem prefill_note (e : Recorded (LoraExecutor W)) (items : List PrefillStepItem) :
    (executePrefill e items).2 =
      e.note (e.inner.executeUnified items []).2 (unifiedAnswers (e.inner.executeUnified items []).1) := by
  change e.note (e.inner.executeUnified items []).2
    (answersOf ((e.inner.executeUnified items []).1.map UnifiedResult.prefillRequests)) = _
  cases (e.inner.executeUnified items []).1 <;> rfl

theorem prefill_result {items : List PrefillStepItem} {results : List PrefillRequestResult}
    (h : (executePrefill e items).1 = .ok results) :
    ∃ result, (e.inner.executeUnified items []).1 = .ok result ∧ result.prefillRequests = results := by
  change (e.inner.executeUnified items []).1.map UnifiedResult.prefillRequests = .ok results at h
  cases hx : (e.inner.executeUnified items []).1 with
  | error err =>
    rw [hx] at h
    cases h
  | ok result =>
    rw [hx] at h
    exact ⟨result, rfl, Except.ok.inj h⟩

/-- **The stages of the executor.** Every call leaves a request's KV at the boundary of its last answered chunk. -/
theorem cut_stages (i : RequestId) (r : Request) (maxPrefillTokens : ℕ) :
    Stages i r maxPrefillTokens (cutStage (W := W) i r maxPrefillTokens) where
  rest := cutStage_rest
  serial _ := rfl
  drop e id := by
    refine ⟨fun ⟨m, hcut⟩ => ⟨m, hcut.same rfl (hcut.whole.dropRequest id)⟩, fun hi o ho => ?_⟩
    rw [List.mem_singleton] at hi
    exact cutStage_same ho rfl (fun hw => hw.dropRequest id) (LoraExecutor.dropRequest_rows hi)
  begun e id prompt lora floor o ho :=
    cutStage_same ho rfl (fun hw => hw.beginKvPrefetch id prompt lora floor)
      (LoraExecutor.rowsOf_same (LoraExecutor.beginKvPrefetch_rows id prompt lora floor))
  drained e floor o ho :=
    cutStage_same ho rfl (fun hw => (Whole.drainLoads _ _ hw).nextCall)
      (LoraExecutor.rowsOf_same (LoraExecutor.drainLoads_rows _ _ _))
  waited e floor o ho :=
    cutStage_same ho rfl (fun hw => (Whole.drainLoads _ _ hw).nextCall)
      (LoraExecutor.rowsOf_same (LoraExecutor.drainLoads_rows _ _ _))
  control e command o ho :=
    cutStage_same ho rfl (fun hw => hw.handleLora command)
      (LoraExecutor.rowsOf_same (handleLora_untouched e.inner command).requestKvs)
  draft _ _ := ⟨fun h => h, fun _ _ h => h⟩
  verify _ _ _ := ⟨fun h => h, fun _ _ h => h⟩
  decode e items := by
    refine ⟨fun ⟨m, hcut⟩ => ⟨m, hcut.same rfl (hcut.whole.executeUnified [] items)⟩, fun hi o ho => ?_⟩
    exact cutStage_same ho rfl (fun hw => hw.executeUnified [] items)
      (LoraExecutor.executeUnified_other List.not_mem_nil hi)
  prefill e items honce hdue := by
    have honce : (items.map (·.requestId)).count i + (([] : List DecodeStepItem).map (·.requestId)).count i ≤ 1 := by
      simpa using honce
    obtain ⟨htouches, hadv⟩ := unified_stages honce hdue (prefill_note e items)
    rw [List.map_nil, List.append_nil] at htouches
    refine ⟨htouches, fun results hok => ?_⟩
    obtain ⟨result, hresult, rfl⟩ := prefill_result hok
    exact hadv result hresult
  unified e items decodes honce hdue := unified_stages honce hdue rfl

/-! ## Runs -/

/-- two prompts of one length behind one cached prefix are cut at the same places, as far as both have come -/
structure CutAlike (e₁ e₂ : Recorded (LoraExecutor W)) (i j : RequestId) : Prop where
  comparable : e₁.boundaries i <+: e₂.boundaries j ∨ e₂.boundaries j <+: e₁.boundaries i
  complete : e₁.prefilled i = true → e₂.prefilled j = true → e₁.boundaries i = e₂.boundaries j

theorem Cut.alike {e₁ e₂ : Recorded (LoraExecutor W)} {j : RequestId} {r' : Request} {m' : ℕ}
    (h : Cut i r maxPrefillTokens e₁ m) (h' : Cut j r' maxPrefillTokens e₂ m')
    (hlen : r.promptTokens.length = r'.promptTokens.length) (hcached : e₁.cachedPrefix i = e₂.cachedPrefix j) :
    CutAlike e₁ e₂ i j := by
  have hends := h'.ends
  rw [← hlen, ← hcached] at hends
  refine ⟨?_, fun hp hp' => ?_⟩
  · rw [h.ends, hends]
    rcases le_total m m' with hle | hle
    · exact Or.inl (chunkEnds_starts _ _ _ hle)
    · exact Or.inr (chunkEnds_starts _ _ _ hle)
  · obtain ⟨hm, hthrough⟩ := h.done.1 hp
    obtain ⟨hm', hthrough'⟩ := h'.done.1 hp'
    have hin := h.inside.resolve_left hm.ne'
    have hin' := h'.inside.resolve_left hm'.ne'
    rw [← hlen, ← hcached] at hthrough' hin'
    -- a prompt is through at one chunk only
    have heq : m = m' := by
      have h₁ : (m - 1) * maxPrefillTokens < m' * maxPrefillTokens := by omega
      have h₂ : (m' - 1) * maxPrefillTokens < m * maxPrefillTokens := by omega
      have h₁' := Nat.lt_of_mul_lt_mul_right h₁
      have h₂' := Nat.lt_of_mul_lt_mul_right h₂
      omega
    rw [h.ends, hends, heq]

/-- an engine over a new recorded executor, with request-local chunking -/
def localEngine (e : LoraExecutor W) (maxPrefillTokens specMaxBatch : ℕ) : Engine (Recorded (LoraExecutor W)) :=
  Engine.new (Qwen3Scheduler.new ⟨e, []⟩ maxPrefillTokens true specMaxBatch)

/-- in every state of a run a request has been cut where its length and cached prefix say -/
theorem run_cut {e : LoraExecutor W} (he : e.Cold) {specMaxBatch : ℕ} {ops : List EngineOp}
    (hids : ((Engine.submitted ops).map Prod.fst).Nodup) {p : RequestId × Request} (hp : p ∈ Engine.submitted ops)
    {g : Engine (Recorded (LoraExecutor W))} {s : Qwen3Scheduler (Recorded (LoraExecutor W))}
    (hrun : run Engine.step (localEngine e maxPrefillTokens specMaxBatch) ops = .ok g) (hs : g.scheduler = some s) :
    ∃ m, Cut p.1 p.2 maxPrefillTokens s.executor m := by
  have hcut : Cut p.1 p.2 maxPrefillTokens (⟨e, []⟩ : Recorded (LoraExecutor W)) 0 :=
    ⟨Whole.cold he, rfl, Or.inl rfl, by simp [Recorded.prefilled, Recorded.answersTo]⟩
  have hrows : e.rowsOf p.1 = none := by
    rw [rowsOf, he.requestKvs]
    rfl
  have hfresh : cutStage p.1 p.2 maxPrefillTokens (⟨e, []⟩ : Recorded (LoraExecutor W)) (some 0) :=
    Or.inl ⟨rfl, hcut, hrows⟩
  have hone : ∀ q ∈ Engine.submitted ops, q.1 = p.1 → q.2 = p.2 := fun q hq hqi =>
    congrArg Prod.snd (List.inj_on_of_nodup_map hids hq hp hqi)
  have hnew := @Engine.new_tracked _ _ p.1 p.2 maxPrefillTokens _ _ specMaxBatch ops hids hone hfresh ⟨0, hcut⟩
  exact (Engine.run_tracked (cut_stages p.1 p.2 maxPrefillTokens) ops hnew hrun s hs).rest

/-- **Chunks.** Under its admission bounds every selection is a fair budgeted partition. With request-local chunking two
runs with arbitrary other traffic cut two prompts of one length and one cached prefix at the same places. -/
theorem prefill_chunks :
    (∀ (queue : List PendingRequest) (maxPrefillTokens : ℕ) (requestLocal : Bool),
      AdmissionBounds maxPrefillTokens queue →
        FairPartition maxPrefillTokens queue (takePrefillChunks queue maxPrefillTokens requestLocal)) ∧
    ∀ (e₁ e₂ : LoraExecutor W) (maxPrefillTokens batch₁ batch₂ : ℕ) (ops₁ ops₂ : List EngineOp)
      (g₁ g₂ : Engine (Recorded (LoraExecutor W))) (s₁ s₂ : Qwen3Scheduler (Recorded (LoraExecutor W)))
      (p₁ p₂ : RequestId × Request), e₁.Cold → e₂.Cold →
      ((Engine.submitted ops₁).map Prod.fst).Nodup → ((Engine.submitted ops₂).map Prod.fst).Nodup →
      run Engine.step (localEngine e₁ maxPrefillTokens batch₁) ops₁ = .ok g₁ → g₁.scheduler = some s₁ →
      run Engine.step (localEngine e₂ maxPrefillTokens batch₂) ops₂ = .ok g₂ → g₂.scheduler = some s₂ →
      p₁ ∈ Engine.submitted ops₁ → p₂ ∈ Engine.submitted ops₂ →
      p₁.2.promptTokens.length = p₂.2.promptTokens.length →
      s₁.executor.cachedPrefix p₁.1 = s₂.executor.cachedPrefix p₂.1 →
      CutAlike s₁.executor s₂.executor p₁.1 p₂.1 := by
  refine ⟨fun queue maxPrefillTokens requestLocal h => take_fair queue requestLocal h, ?_⟩
  intro e₁ e₂ maxPrefillTokens batch₁ batch₂ ops₁ ops₂ g₁ g₂ s₁ s₂ p₁ p₂ h₁ h₂ hids₁ hids₂ hrun₁ hs₁ hrun₂ hs₂ hp₁ hp₂ hlen
    hcached
  obtain ⟨m₁, hcut₁⟩ := run_cut h₁ hids₁ hp₁ hrun₁ hs₁
  obtain ⟨m₂, hcut₂⟩ := run_cut h₂ hids₂ hp₂ hrun₂ hs₂
  exact hcut₁.alike hcut₂ hlen hcached

/-! ## One request alone and behind others -/

/-- a prompt of `n` tokens for the base model -/
def plainPrompt (token : TokenId) (n : ℕ) : Request :=
  ⟨none, List.replicate n token, ⟨true⟩, ⟨.ignore, []⟩, 1, none, none⟩

def aloneRun : List EngineOp := [.submit 3 false 0 (plainPrompt 7 5), Engine.quiet, Engine.quiet, Engine.quiet]

def behindOthersRun : List EngineOp :=
  [.submit 1 false 0 (plainPrompt 5 1), .submit 2 false 0 (plainPrompt 6 1), .submit 3 false 0 (plainPrompt 7 5),
    Engine.quiet, Engine.quiet, Engine.quiet, Engine.quiet]

/-- five tokens in chunks of two, alone and behind two requests that fill the first step -/
theorem prefill_chunks_behind_others :
    FairPartition 2 [PendingRequest.fromRequest 1 (plainPrompt 7 5)]
      (takePrefillChunks [PendingRequest.fromRequest 1 (plainPrompt 7 5)] 2 true) ∧
    ∃ g₁ s₁ g₂ s₂, run Engine.step (localEngine (Engine.oneSlot false) 2 0) aloneRun = .ok g₁ ∧
      g₁.scheduler = some s₁ ∧
      run Engine.step (localEngine (Engine.oneSlot false) 2 0) behindOthersRun = .ok g₂ ∧ g₂.scheduler = some s₂ ∧
      CutAlike s₁.executor s₂.executor 3 3 ∧ s₁.executor.boundaries 3 = [2, 4, 5] ∧
      s₂.executor.boundaries 3 = [2, 4, 5] := by
  refine ⟨(prefill_chunks (W := ℕ)).1 _ 2 true ⟨by decide, by decide⟩, ?_⟩
  obtain ⟨g₁, s₁, h₁, hs₁, hb₁, hc₁⟩ : ∃ g s, run Engine.step (localEngine (Engine.oneSlot false) 2 0) aloneRun = .ok g ∧
      g.scheduler = some s ∧ s.executor.boundaries 3 = [2, 4, 5] ∧ s.executor.cachedPrefix 3 = 0 :=
    ⟨_, _, rfl, rfl, rfl, rfl⟩
  obtain ⟨g₂, s₂, h₂, hs₂, hb₂, hc₂⟩ : ∃ g s,
      run Engine.step (localEngine (Engine.oneSlot false) 2 0) behindOthersRun = .ok g ∧
      g.scheduler = some s ∧ s.executor.boundaries 3 = [2, 4, 5] ∧ s.executor.cachedPrefix 3 = 0 :=
    ⟨_, _, rfl, rfl, rfl, rfl⟩
  refine ⟨g₁, s₁, g₂, s₂, h₁, hs₁, h₂, hs₂, ?_, hb₁, hb₂⟩
  exact prefill_chunks.2 (Engine.oneSlot false) (Engine.oneSlot false) 2 0 0 aloneRun behindOthersRun g₁ g₂ s₁ s₂
    (3, plainPrompt 7 5) (3, plainPrompt 7 5) (Engine.oneSlot_cold false) (Engine.oneSlot_cold false) (by decide)
    (by decide) h₁ hs₁ h₂ hs₂ (by decide) (by decide) rfl (hc₁.trans hc₂.symm)

end Pegainfer.Qwen3
