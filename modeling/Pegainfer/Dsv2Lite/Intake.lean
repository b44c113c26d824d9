/-
What leaves the queue in one round of the mixed-request scheduler.

- `takeAdmissionBatch_spec`: the batch is a prefix of the queue, sorted into admitted, rejected and finished.
- `Entered`, `prefillRequest_entered`: a prefill adds what it would add to an empty scheduler, up to the slot it takes.
- `admitReadyRequests_spec`: the queue loses a prefix, and each request of it starts as it would alone.
-/
import Mathlib.Tactic
import Pegainfer.Dsv2Lite.Rounds

namespace Pegainfer.Dsv2Lite

variable {K : Type} {g : Generator K}

/-! ## The batch -/

/-- whether the gate admits a request -/
def PendingRequest.admits (ctx : ℕ) (p : PendingRequest) : Bool := admissionDecision p ctx = .admitRequest

/-- what a request the gate turns away is told -/
def PendingRequest.told (ctx : ℕ) (p : PendingRequest) : List TokenSink :=
  match admissionDecision p ctx with
  | .admitRequest => []
  | .reject message => [p.sendTerminal (.rejected message p.promptTokens.length 0)]
  | .finish .length => [p.sendTerminal (.finished .length p.promptTokens.length 0)]
  | .finish reason => [p.sendTerminal (.rejected
      s!"DeepSeek-V2-Lite unsupported admission finish reason: {reason.debug}" p.promptTokens.length 0)]

/-- what the requests turned away in a batch are told -/
def AdmissionBatch.told (batch : AdmissionBatch) : List TokenSink :=
  batch.rejected.map (fun r => r.1.sendTerminal (.rejected r.2 r.1.promptTokens.length 0)) ++
    batch.finished.map (fun r => r.sendTerminal (.finished .length r.promptTokens.length 0))

/-- what taking a batch off the queue did -/
structure Taken (activeLen maxActive ctx : ℕ) (pending : List PendingRequest) (batch batch' : AdmissionBatch)
    (rest taken : List PendingRequest) : Prop where
  queue : pending = taken ++ rest
  admitted : batch'.admitted = batch.admitted ++ taken.filter (PendingRequest.admits ctx)
  told : batch'.told.Perm (batch.told ++ taken.flatMap (PendingRequest.told ctx))
  room : activeLen + batch.admitted.length ≤ maxActive → activeLen + batch'.admitted.length ≤ maxActive
  /-- the head of the queue waits only for room -/
  full : rest = [] ∨ maxActive ≤ activeLen + batch'.admitted.length

namespace Taken

variable {activeLen maxActive ctx : ℕ} {pending rest taken : List PendingRequest} {batch batch' : AdmissionBatch}
  {p : PendingRequest}

/-- a request turned away does not wait -/
theorem turned {next : AdmissionBatch} (h : Taken activeLen maxActive ctx pending next batch' rest taken)
    (hadmits : p.admits ctx = false) (hadmitted : next.admitted = batch.admitted)
    (htold : next.told.Perm (batch.told ++ p.told ctx)) :
    Taken activeLen maxActive ctx (p :: pending) batch batch' rest (p :: taken) := by
  refine ⟨by rw [h.queue]; rfl, ?_, ?_, fun hroom => h.room (hadmitted.symm ▸ hroom), h.full⟩
  · rw [h.admitted, hadmitted, List.filter_cons_of_neg (by rw [hadmits]; exact Bool.false_ne_true)]
  · rw [List.flatMap_cons, ← List.append_assoc]
    exact h.told.trans (htold.append_right _)

theorem admitted_cons (h : Taken activeLen maxActive ctx pending { batch with admitted := batch.admitted ++ [p] } batch' rest
    taken) (hadmits : p.admits ctx = true) (hroom : activeLen + batch.admitted.length < maxActive) :
    Taken activeLen maxActive ctx (p :: pending) batch batch' rest (p :: taken) := by
  have hnone : p.told ctx = [] := by
    unfold PendingRequest.told
    rw [of_decide_eq_true hadmits]
  refine ⟨by rw [h.queue]; rfl, ?_, ?_, fun _ => h.room ?_, h.full⟩
  · rw [h.admitted, List.filter_cons_of_pos hadmits, List.append_assoc, List.singleton_append]
  · rw [List.flatMap_cons, hnone, List.nil_append]
    exact h.told
  · rw [List.length_append, List.length_singleton]
    omega

end Taken

/-- **A batch is a prefix of the queue.** -/
theorem takeAdmissionBatch_spec (activeLen maxActive ctx : ℕ) (pending : List PendingRequest) (batch : AdmissionBatch) :
    ∃ taken, Taken activeLen maxActive ctx pending batch (takeAdmissionBatch activeLen maxActive ctx pending batch).1
      (takeAdmissionBatch activeLen maxActive ctx pending batch).2 taken := by
  induction pending generalizing batch with
  | nil =>
    refine ⟨[], rfl, (List.append_nil _).symm, ?_, id, Or.inl rfl⟩
    rw [List.flatMap_nil, List.append_nil]
    exact List.Perm.refl _
  | cons p pending ih =>
    unfold takeAdmissionBatch
    have hrejected : ∀ message, p.told ctx = [p.sendTerminal (.rejected message p.promptTokens.length 0)] →
        (AdmissionBatch.told { batch with rejected := batch.rejected ++ [(p, message)] }).Perm
          (batch.told ++ p.told ctx) := by
      intro message htold
      rw [htold]
      unfold AdmissionBatch.told
      rw [List.map_append, List.append_assoc, List.append_assoc]
      exact List.perm_append_comm.append_left _
    cases hdecision : admissionDecision p ctx with
    | admitRequest =>
      dsimp only
      split_ifs with hroom
      · obtain ⟨taken, h⟩ := ih { batch with admitted := batch.admitted ++ [p] }
        exact ⟨p :: taken, h.admitted_cons (decide_eq_true hdecision) hroom⟩
      · refine ⟨[], rfl, (List.append_nil _).symm, ?_, id, Or.inr (not_lt.1 hroom)⟩
        rw [List.flatMap_nil, List.append_nil]
    | reject message =>
      obtain ⟨taken, h⟩ := ih { batch with rejected := batch.rejected ++ [(p, message)] }
      refine ⟨p :: taken, h.turned ?_ rfl (hrejected message ?_)⟩
      · exact decide_eq_false (by rw [hdecision]; nofun)
      · unfold PendingRequest.told
        rw [hdecision]
    | finish reason =>
      have hadmits : p.admits ctx = false := decide_eq_false (by rw [hdecision]; nofun)
      cases reason with
      | length =>
        obtain ⟨taken, h⟩ := ih { batch with finished := batch.finished ++ [p] }
        refine ⟨p :: taken, h.turned hadmits rfl ?_⟩
        unfold AdmissionBatch.told PendingRequest.told
        rw [hdecision, List.map_append, ← List.append_assoc]
        exact List.Perm.refl _
      | stop =>
        obtain ⟨taken, h⟩ := ih { batch with
          rejected := batch.rejected ++ [(p, s!"DeepSeek-V2-Lite unsupported admission finish reason: {FinishReason.stop.debug}")] }
        refine ⟨p :: taken, h.turned hadmits rfl (hrejected _ ?_)⟩
        unfold PendingRequest.told
        rw [hdecision]
      | error =>
        obtain ⟨taken, h⟩ := ih { batch with
          rejected := batch.rejected ++ [(p, s!"DeepSeek-V2-Lite unsupported admission finish reason: {FinishReason.error.debug}")] }
        refine ⟨p :: taken, h.turned hadmits rfl (hrejected _ ?_)⟩
        unfold PendingRequest.told
        rw [hdecision]

/-- what the gate checks of an admitted request -/
theorem admits_ok {ctx : ℕ} {p : PendingRequest} (h : p.admits ctx = true) :
    0 < p.promptTokens.length ∧ 0 < p.maxTokens ∧ p.promptTokens.length + p.maxTokens ≤ ctx := by
  have hdecision : admissionDecision p ctx = .admitRequest := of_decide_eq_true h
  unfold admissionDecision at hdecision
  dsimp only at hdecision
  split_ifs at hdecision with hgreedy hlogprobs hlora hempty hmax hoverflow hcontext
  refine ⟨?_, Nat.pos_of_ne_zero hmax, not_lt.1 hcontext⟩
  rw [List.length_pos_iff]
  exact fun hnil => hempty (List.isEmpty_iff.2 hnil)

/-! ## A prefill -/

namespace Scheduler

variable {s s' t : Scheduler K}

/-- `s'` is `s` with the rows and the closed streams of `t` -/
structure Entered (g : Generator K) (s s' t : Scheduler K) : Prop where
  rows : s'.active.map ActiveRequestState.anon = s.active.map ActiveRequestState.anon ++
    t.active.map ActiveRequestState.anon
  closed : s'.closed = s.closed ++ t.closed
  pending : s'.pending = s.pending
  inv : Inv g s'

theorem new_inv (g : Generator K) : Inv g (Scheduler.new g) := by
  refine ⟨nofun, rfl, Nat.zero_le _, ⟨fun hd => ?_, fun hd => ?_⟩⟩
  · simp [new, Generator.loadPool, hd]
  · refine ⟨List.range DEVICE_KV_SLOTS, ?_, ?_⟩
    · simp [new, Generator.loadPool, hd, DeviceKvPool.new]
    · exact List.Perm.of_eq (List.append_nil _)

/-- a row of a device generator owns one slot -/
theorem slotsOf_length (hd : g.deviceDecode = true) {rows : List (ActiveRequestState K)} (h : ∀ a ∈ rows, RowOk g a) :
    (slotsOf rows).length = rows.length := by
  induction rows with
  | nil => rfl
  | cons a rows ih =>
    obtain ⟨slot, hslot, -⟩ := (h a List.mem_cons_self).cache.device hd
    rw [slotsOf, List.flatMap_cons, List.length_append, List.length_cons]
    have hrest := ih fun b hb => h b (List.mem_cons_of_mem _ hb)
    rw [slotsOf] at hrest
    rw [hrest, DecodeCache.slots, hslot]
    exact Nat.add_comm _ _

/-- with room for a row there is a slot for its cache -/
theorem attach_ok (h : Inv g s) (hroom : s.active.length < DEFAULT_MAX_ACTIVE_REQUESTS) {n : ℕ}
    (hn : n ≤ g.supportedContext) (cache : DecodeCache K) (hnone : cache.device = none)
    (hlayers : cache.layers.length = g.config.numHiddenLayers) (hseen : ∀ layer ∈ cache.layers, layer.length = n) :
    ∃ cache' pool', g.attachDeviceKv s.pool cache = (.ok cache', pool') ∧ CacheAt g n cache' ∧
      PoolOk g pool' (cache'.slots ++ slotsOf s.active) ∧
      cache'.anon = if g.deviceDecode then ⟨[], some ⟨0, n, cache.layers.map (List.map g.toDevice)⟩⟩ else cache := by
  unfold Generator.attachDeviceKv
  cases hd : g.deviceDecode with
  | false =>
    refine ⟨cache, none, ?_, ⟨fun _ => ⟨hnone, hlayers, hseen⟩, fun hd' => ?_⟩, ⟨fun _ => rfl, fun hd' => ?_⟩, ?_⟩
    · rw [h.pool.host hd]
    · rw [hd] at hd'
      cases hd'
    · rw [hd] at hd'
      cases hd'
    · rw [DecodeCache.anon, hnone, Option.map_none, ← hnone]
      rfl
  | true =>
    obtain ⟨free, hpool, hperm⟩ := h.pool.device hd
    have hcount := hperm.length_eq
    have hheld := slotsOf_length hd h.rows
    rw [List.length_append, List.length_range] at hcount
    have hposition := DecodeCache.position_host hnone hlayers hseen
    rw [hpool]
    cases free with
    | nil =>
      rw [List.length_nil, hheld] at hcount
      exact absurd hroom (by rw [← DEVICE_KV_SLOTS]; omega)
    | cons index free =>
      dsimp only
      rw [hposition]
      dsimp only
      rw [if_neg (not_lt.2 hn)]
      refine ⟨_, _, rfl, ⟨fun hd' => ?_, fun _ => ⟨_, rfl, rfl⟩⟩, ⟨fun hd' => ?_, fun _ => ⟨free, rfl, ?_⟩⟩, rfl⟩
      · rw [hd] at hd'
        cases hd'
      · rw [hd] at hd'
        cases hd'
      · refine List.Perm.trans ?_ hperm
        exact List.perm_middle

/-- a row that differs from another in its slot only emits the same -/
theorem emit_same_anon {a b : ActiveRequestState K} (h : a.anon = b.anon) (token : ℕ) :
    (a.emitTokenOrFinish token).1 = (b.emitTokenOrFinish token).1 ∧
      (a.emitTokenOrFinish token).2.anon = (b.emitTokenOrFinish token).2.anon ∧
      (a.emitTokenOrFinish token).2.tokenTx = (b.emitTokenOrFinish token).2.tokenTx := by
  have heq := (ActiveRequestState.emit_anon a token).symm.trans (h ▸ ActiveRequestState.emit_anon b token)
  rw [Prod.mk.injEq] at heq
  have hsink := congrArg ActiveRequestState.tokenTx heq.2
  exact ⟨heq.1, heq.2, hsink⟩

/-- **A prefill adds the same wherever it lands.** -/
theorem prefillRequest_entered (h : Inv g s) (hroom : s.active.length < DEFAULT_MAX_ACTIVE_REQUESTS)
    {p : PendingRequest} (hadmits : p.admits g.supportedContext = true) :
    Entered g s (s.prefillRequest g p) ((Scheduler.new g).prefillRequest g p) := by
  obtain ⟨hprompt, hmax, hcontext⟩ := admits_ok hadmits
  have hclose : ∀ sink : TokenSink, Entered g s (s.close sink) ((Scheduler.new g).close sink) := fun sink =>
    ⟨(List.append_nil _).symm, rfl, rfl, h.rows, h.max, h.room, h.pool⟩
  unfold prefillRequest
  dsimp only
  split_ifs with hscheduled
  · exact hclose _
  unfold Generator.prefillNextToken
  rw [if_neg (by rw [DecodeCache.new, List.length_replicate]; exact not_not_intro rfl)]
  rcases hprefill : g.prefillRow p.promptTokens with message | ⟨next, entries⟩
  · exact hclose _
  dsimp only
  obtain ⟨hcount, hseen⟩ := DecodeCache.prefilled g.config p.promptTokens.length entries
  generalize DecodeCache.extend (DecodeCache.new (K := K) g.config).layers
    (fun l => (List.range p.promptTokens.length).map (entries l)) = layers at hcount hseen ⊢
  have hn : p.promptTokens.length ≤ g.supportedContext := by omega
  obtain ⟨cache, pool, hattach, hcache, hpool, hanon⟩ := attach_ok h hroom hn
    { DecodeCache.new g.config with layers := layers } rfl hcount hseen
  obtain ⟨cache₀, pool₀, hattach₀, -, -, hanon₀⟩ := attach_ok (new_inv g) (Nat.zero_lt_succ _) hn
    { DecodeCache.new g.config with layers := layers } rfl hcount hseen
  rw [hattach, hattach₀]
  dsimp only
  set row : ActiveRequestState K := ⟨p.requestId, p.sendScheduled.2, p.promptTokens.length, p.maxTokens, 0, next,
    ⟨g.config.eosTokenIds, p.params.ignoreEos⟩, cache⟩ with hrow
  set row₀ : ActiveRequestState K := ⟨p.requestId, p.sendScheduled.2, p.promptTokens.length, p.maxTokens, 0, next,
    ⟨g.config.eosTokenIds, p.params.ignoreEos⟩, cache₀⟩ with hrow₀
  have hsame : row.anon = row₀.anon := by
    rw [hrow, hrow₀, ActiveRequestState.anon, ActiveRequestState.anon]
    dsimp only
    rw [hanon, hanon₀]
  obtain ⟨hfin, hleft, hsink⟩ := emit_same_anon hsame next
  obtain ⟨hsamecache, hsameprompt, hsamemax⟩ := ActiveRequestState.emit_same row next
  rw [← hfin, ← hsink]
  split_ifs with hdone
  · exact ⟨(List.append_nil _).symm, rfl, rfl, h.rows, h.max, h.room, hpool.release⟩
  · obtain ⟨hgenerated, hlast⟩ := ActiveRequestState.emit_live (Bool.eq_false_iff.2 hdone)
    have hgen : (row.emitTokenOrFinish next).2.generated = 1 := hgenerated
    have hmaxTokens : (row.emitTokenOrFinish next).2.maxTokens = p.maxTokens := hsamemax
    have hpromptLen : (row.emitTokenOrFinish next).2.promptLen = p.promptTokens.length := hsameprompt
    have hlast' : 1 ≠ p.maxTokens := hlast
    refine ⟨?_, (List.append_nil _).symm, rfl, fun a ha => ?_, h.max, ?_, ?_⟩
    · rw [List.map_append, List.map_singleton, hleft]
      rfl
    · rcases List.mem_append.1 ha with ha | ha
      · exact h.rows a ha
      · rw [List.mem_singleton.1 ha]
        refine ⟨by omega, by omega, by omega, by omega, ?_⟩
        have hposition : (row.emitTokenOrFinish next).2.nextDecodePosition = p.promptTokens.length := by
          unfold ActiveRequestState.nextDecodePosition
          omega
        rw [hposition, hsamecache]
        exact hcache
    · rw [List.length_append, List.length_singleton]
      exact hroom
    · refine hpool.perm ?_
      rw [slotsOf, slotsOf, List.flatMap_append, List.flatMap_singleton, hsamecache]
      exact List.perm_append_comm

/-! ## The queue -/

/-- the rows an admitted request adds -/
def enteredRows (g : Generator K) (p : PendingRequest) : List (ActiveRequestState K) :=
  if p.admits g.supportedContext then ((Scheduler.new g).prefillRequest g p).active.map ActiveRequestState.anon else []

/-- the streams closed when a request leaves the queue -/
def enteredSinks (g : Generator K) (p : PendingRequest) : List TokenSink :=
  p.told g.supportedContext ++
    if p.admits g.supportedContext then ((Scheduler.new g).prefillRequest g p).closed else []

/-- what an admission that took `taken` off the queue left -/
structure Started (g : Generator K) (s s' : Scheduler K) (taken : List PendingRequest) : Prop where
  queue : s.pending = taken ++ s'.pending
  rows : s'.active.map ActiveRequestState.anon = s.active.map ActiveRequestState.anon ++ taken.flatMap (enteredRows g)
  closed : s'.closed.Perm (s.closed ++ taken.flatMap (enteredSinks g))
  inv : Inv g s'
  head : s.pending ≠ [] → s.active.length < DEFAULT_MAX_ACTIVE_REQUESTS → taken ≠ []

theorem prefillRequest_length (s : Scheduler K) (p : PendingRequest) :
    (s.prefillRequest g p).active.length ≤ s.active.length + 1 := by
  unfold prefillRequest
  dsimp only
  split_ifs
  · exact Nat.le_succ _
  · split
    · exact Nat.le_succ _
    · split
      · exact Nat.le_succ _
      · split_ifs
        · exact Nat.le_succ _
        · exact (List.length_append).le

theorem prefillAdmitted_spec (admitted : List PendingRequest) (h : Inv g s)
    (hadmits : ∀ p ∈ admitted, p.admits g.supportedContext = true)
    (hroom : s.active.length + admitted.length ≤ DEFAULT_MAX_ACTIVE_REQUESTS) :
    (s.prefillAdmitted g admitted).active.map ActiveRequestState.anon = s.active.map ActiveRequestState.anon ++
        admitted.flatMap (fun p => ((Scheduler.new g).prefillRequest g p).active.map ActiveRequestState.anon) ∧
      (s.prefillAdmitted g admitted).closed = s.closed ++
        admitted.flatMap (fun p => ((Scheduler.new g).prefillRequest g p).closed) ∧
      (s.prefillAdmitted g admitted).pending = s.pending ∧ Inv g (s.prefillAdmitted g admitted) := by
  induction admitted generalizing s with
  | nil => exact ⟨(List.append_nil _).symm, (List.append_nil _).symm, rfl, h⟩
  | cons p admitted ih =>
    rw [List.length_cons] at hroom
    have hlt : s.active.length < DEFAULT_MAX_ACTIVE_REQUESTS := by omega
    have hone := prefillRequest_entered h hlt (hadmits p List.mem_cons_self)
    have hlen := prefillRequest_length (g := g) s p
    obtain ⟨hrows, hclosed, hpending, hinv⟩ :=
      ih hone.inv (fun q hq => hadmits q (List.mem_cons_of_mem _ hq)) (by omega)
    rw [prefillAdmitted, h.max, if_neg (not_le.2 hlt)]
    refine ⟨?_, ?_, hpending.trans hone.pending, hinv⟩
    · rw [hrows, hone.rows, List.append_assoc, List.flatMap_cons]
    · rw [hclosed, hone.closed, List.append_assoc, List.flatMap_cons]

theorem foldl_close {α : Type} (f : α → TokenSink) (l : List α) (s : Scheduler K) :
    l.foldl (fun s r => s.close (f r)) s = { s with closed := s.closed ++ l.map f } := by
  induction l generalizing s with
  | nil => rw [List.foldl_nil, List.map_nil, List.append_nil]
  | cons r l ih =>
    rw [List.foldl_cons, ih, close, List.map_cons]
    simp only [List.append_assoc, List.singleton_append]

/-- the admitted ones of a list contribute what their share of the list does -/
theorem flatMap_filter_admits {β : Type} (ctx : ℕ) (f : PendingRequest → List β) (l : List PendingRequest) :
    (l.filter (PendingRequest.admits ctx)).flatMap f = l.flatMap fun p => if p.admits ctx then f p else [] := by
  induction l with
  | nil => rfl
  | cons p l ih =>
    rw [List.flatMap_cons, ← ih]
    by_cases hp : p.admits ctx = true
    · rw [List.filter_cons_of_pos hp, List.flatMap_cons, if_pos hp]
    · rw [List.filter_cons_of_neg hp, if_neg hp, List.nil_append]

/-- **Admission.** The queue loses a prefix, and each request of it starts as it would on an empty scheduler. -/
theorem admitReadyRequests_spec (h : Inv g s) : ∃ taken, Started g s (s.admitReadyRequests g) taken := by
  obtain ⟨taken, htaken⟩ := takeAdmissionBatch_spec s.active.length s.maxActiveRequests g.supportedContext s.pending
    ⟨[], [], []⟩
  unfold admitReadyRequests
  dsimp only
  generalize takeAdmissionBatch s.active.length s.maxActiveRequests g.supportedContext s.pending ⟨[], [], []⟩ = result
    at htaken ⊢
  obtain ⟨batch, rest⟩ := result
  dsimp only at htaken ⊢
  rw [foldl_close, foldl_close]
  dsimp only
  set told : Scheduler K := { s with
    pending := rest
    closed := s.closed ++ batch.rejected.map (fun r => r.1.sendTerminal (.rejected r.2 r.1.promptTokens.length 0)) ++
      batch.finished.map (fun r => r.sendTerminal (.finished .length r.promptTokens.length 0)) } with htold
  have hinv : Inv g told := ⟨h.rows, h.max, h.room, h.pool⟩
  have hadmitted : batch.admitted = taken.filter (PendingRequest.admits g.supportedContext) := htaken.admitted
  have hroom : s.active.length + batch.admitted.length ≤ DEFAULT_MAX_ACTIVE_REQUESTS := h.max ▸ htaken.room (by
    rw [h.max]
    exact h.room)
  obtain ⟨hrows, hclosed, hpending, hinv'⟩ := prefillAdmitted_spec batch.admitted hinv
    (fun p hp => (List.mem_filter.1 (hadmitted ▸ hp)).2) hroom
  refine ⟨taken, ?_, ?_, ?_, hinv', fun hne hlt htaken' => ?_⟩
  · rw [hpending]
    exact htaken.queue
  · rw [hrows, hadmitted, flatMap_filter_admits]
    rfl
  · rw [hclosed, hadmitted, flatMap_filter_admits]
    have hsinks := List.flatMap_append_perm taken (PendingRequest.told g.supportedContext) fun p =>
      if p.admits g.supportedContext then ((Scheduler.new g).prefillRequest g p).closed else []
    refine List.Perm.trans ?_ (hsinks.append_left s.closed)
    rw [htold]
    dsimp only
    rw [List.append_assoc s.closed, List.append_assoc s.closed]
    exact (htaken.told.append_right _).append_left _
  · rw [htaken', List.filter_nil] at hadmitted
    rcases htaken.full with hrest | hfull
    · exact hne (by rw [htaken.queue, htaken', hrest]; rfl)
    · rw [hadmitted, h.max] at hfull
      exact absurd hlt (not_lt.2 hfull)

end Scheduler

end Pegainfer.Dsv2Lite
