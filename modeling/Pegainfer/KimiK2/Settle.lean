/-
What settling a token does to the ledger.

The ledger of a scheduler is its pool and its outbox, read against three accounts: the guards that exist, the blocks
still owed to admitted requests, and the requests that have not ended. Whatever the scheduler has contributes a share to
each, and an operation on one request moves that request's share and leaves the rest.
- `Book`: every submitted request is at the phase its stream shows, or its stream has ended well.
- `Ledger`: the pool accounts for the guards; while no registration has revived a block, what is owed is available and no
  stream has an accounting error.
- `scheduleRequestKv_spec`, `scheduleDecode_spec`, `settleFirst_spec`, `settleDecode_spec`, `failKv_spec`: one operation
  each.
-/
import Mathlib.Tactic
import Pegainfer.KimiK2.Lifecycle

set_option linter.unusedSectionVars false

namespace Pegainfer.KimiK2

open Pegainfer.Kvbm Pegainfer.Kvbm.SchedulableSequence Pegainfer.KvCache

/-! ## Streams -/

/-- where a request that has not ended stands -/
inductive Phase
  | pending
  | admitted
  | running (completionTokens : ℕ)

/-- the stream shows the phase -/
def Phase.Holds (stops : List Token) (out : Outbox) (req : GenerateRequest) : Phase → Prop
  | .pending => out.sent req.tokenTx = [] ∧ out.sampled req.tokenTx = []
  | .admitted => out.sent req.tokenTx = [.scheduled req.promptTokens.length 0] ∧ out.sampled req.tokenTx = []
  | .running n =>
    out.sent req.tokenTx = .scheduled req.promptTokens.length 0 :: (out.sampled req.tokenTx).map .token ∧
      (out.sampled req.tokenTx).length = n ∧ ∀ t ∈ out.sampled req.tokenTx, isStop stops req t = false

/-- ended by anything but a stop token: every sampled token was sent and counted -/
def EndedPlain (stops : List Token) (out : Outbox) (req : GenerateRequest) (terminal : TokenEvent) : Prop :=
  out.sent req.tokenTx =
      .scheduled req.promptTokens.length 0 :: ((out.sampled req.tokenTx).map .token ++ [terminal]) ∧
    terminal.completionTokens = some (out.sampled req.tokenTx).length ∧
    ∀ t ∈ out.sampled req.tokenTx, isStop stops req t = false

/-- ended by a stop token: all before it were sent; it is counted unless it was the first -/
def EndedByStop (stops : List Token) (out : Outbox) (req : GenerateRequest) (terminal : TokenEvent) : Prop :=
  ∃ before t, out.sampled req.tokenTx = before ++ [t] ∧ isStop stops req t = true ∧
    (∀ u ∈ before, isStop stops req u = false) ∧
    terminal = .finished .stop req.promptTokens.length (if before = [] then 0 else before.length + 1) ∧
    out.sent req.tokenTx = .scheduled req.promptTokens.length 0 :: (before.map .token ++ [terminal])

def Ended (stops : List Token) (out : Outbox) (req : GenerateRequest) : Prop :=
  out.limit req.tokenTx = none → ∃ terminal, EndedPlain stops out req terminal ∨ EndedByStop stops out req terminal

/-- nothing changes but the streams of request `i` -/
structure Frame (out out' : Outbox) (i : ℕ) : Prop where
  limit : out'.limit = out.limit
  sent : ∀ j, j ≠ i → out'.sent j = out.sent j
  sampled : ∀ j, j ≠ i → out'.sampled j = out.sampled j
  revivals : out.revivals ≤ out'.revivals

theorem Frame.refl (out : Outbox) (i : ℕ) : Frame out out i := ⟨rfl, fun _ _ => rfl, fun _ _ => rfl, le_rfl⟩

theorem Frame.trans {o₁ o₂ o₃ : Outbox} {i : ℕ} (h : Frame o₁ o₂ i) (h' : Frame o₂ o₃ i) : Frame o₁ o₃ i :=
  ⟨h'.limit.trans h.limit, fun j hj => (h'.sent j hj).trans (h.sent j hj),
    fun j hj => (h'.sampled j hj).trans (h.sampled j hj), h.revivals.trans h'.revivals⟩

theorem frame_send (out : Outbox) (i : ℕ) (e : TokenEvent) : Frame out (out.send i e) i :=
  ⟨rfl, fun _ hj => Function.update_of_ne hj _ _, fun _ _ => rfl, le_rfl⟩

theorem frame_sample (out : Outbox) (i : ℕ) (t : Token) : Frame out (out.sample i t) i :=
  ⟨rfl, fun _ _ => rfl, fun _ hj => Function.update_of_ne hj _ _, le_rfl⟩

theorem frame_revive (out : Outbox) (i n : ℕ) : Frame out (out.revive n) i :=
  ⟨rfl, fun _ _ => rfl, fun _ _ => rfl, Nat.le_add_right _ _⟩

@[simp] theorem send_sent_self (out : Outbox) (i : ℕ) (e : TokenEvent) : (out.send i e).sent i = out.sent i ++ [e] :=
  Function.update_self _ _ _

@[simp] theorem send_sampled (out : Outbox) (i j : ℕ) (e : TokenEvent) : (out.send i e).sampled j = out.sampled j := rfl

@[simp] theorem sample_sampled_self (out : Outbox) (i : ℕ) (t : Token) :
    (out.sample i t).sampled i = out.sampled i ++ [t] := Function.update_self _ _ _

@[simp] theorem sample_sent (out : Outbox) (i j : ℕ) (t : Token) : (out.sample i t).sent j = out.sent j := rfl

@[simp] theorem revive_sent (out : Outbox) (n j : ℕ) : (out.revive n).sent j = out.sent j := rfl

@[simp] theorem revive_sampled (out : Outbox) (n j : ℕ) : (out.revive n).sampled j = out.sampled j := rfl

@[simp] theorem send_revivals (out : Outbox) (i : ℕ) (e : TokenEvent) : (out.send i e).revivals = out.revivals := rfl

@[simp] theorem sample_revivals (out : Outbox) (i : ℕ) (t : Token) : (out.sample i t).revivals = out.revivals := rfl

theorem limit_of_closed {out : Outbox} {i : ℕ} (h : out.isClosed i = true) : out.limit i ≠ none := by
  unfold Outbox.isClosed at h
  intro hn
  rw [hn] at h
  cases h

/-! ## The book -/

/-- the submitted requests: those in the bag at their phase, the others ended -/
structure Book (stops : List Token) (out : Outbox) (submitted : List GenerateRequest)
    (bag : Multiset (GenerateRequest × Phase)) : Prop where
  nodup : (bag.map fun e => e.1.tokenTx).Nodup
  phase : ∀ e ∈ bag, submitted[e.1.tokenTx]? = some e.1 ∧ e.2.Holds stops out e.1
  ended : ∀ req ∈ submitted, (∀ e ∈ bag, e.1.tokenTx ≠ req.tokenTx) → Ended stops out req
  numbered : ∀ (i : ℕ) (req : GenerateRequest), submitted[i]? = some req → req.tokenTx = i
  fresh : ∀ i, submitted.length ≤ i → out.sent i = [] ∧ out.sampled i = []

variable {stops : List Token} {out out' : Outbox} {submitted : List GenerateRequest}
  {bag : Multiset (GenerateRequest × Phase)} {req : GenerateRequest} {ph ph' : Phase}

theorem Phase.Holds.frame {i : ℕ} (h : ph.Holds stops out req) (hf : Frame out out' i) (hi : req.tokenTx ≠ i) :
    ph.Holds stops out' req := by
  cases ph <;> simpa only [Phase.Holds, hf.sent _ hi, hf.sampled _ hi] using h

theorem Ended.frame {i : ℕ} (h : Ended stops out req) (hf : Frame out out' i) (hi : req.tokenTx ≠ i) :
    Ended stops out' req := by
  intro hl
  rw [hf.limit] at hl
  simpa only [EndedPlain, EndedByStop, hf.sent _ hi, hf.sampled _ hi] using h hl

namespace Book

theorem nil (out : Outbox) : Book stops (Outbox.new out.limit) [] 0 :=
  ⟨by simp, by simp, by simp, by simp, fun _ _ => ⟨rfl, rfl⟩⟩

theorem head_ne (h : Book stops out submitted ((req, ph) ::ₘ bag)) {e : GenerateRequest × Phase} (he : e ∈ bag) :
    e.1.tokenTx ≠ req.tokenTx := by
  have hn := h.nodup
  rw [Multiset.map_cons, Multiset.nodup_cons] at hn
  intro heq
  exact hn.1 (by rw [← heq]; exact Multiset.mem_map_of_mem (fun e => e.1.tokenTx) he)

theorem lt (h : Book stops out submitted bag) {e : GenerateRequest × Phase} (he : e ∈ bag) :
    e.1.tokenTx < submitted.length := by
  obtain ⟨hi, -⟩ := List.getElem?_eq_some_iff.1 (h.phase e he).1
  exact hi

/-- a request moves to another phase -/
theorem move (h : Book stops out submitted ((req, ph) ::ₘ bag)) (hf : Frame out out' req.tokenTx)
    (hp : ph'.Holds stops out' req) : Book stops out' submitted ((req, ph') ::ₘ bag) := by
  refine ⟨by simpa using h.nodup, ?_, ?_, h.numbered, ?_⟩
  · intro e he
    rcases Multiset.mem_cons.1 he with rfl | he
    · exact ⟨(h.phase (req, ph) (Multiset.mem_cons_self _ _)).1, hp⟩
    · obtain ⟨h1, h2⟩ := h.phase e (Multiset.mem_cons_of_mem he)
      exact ⟨h1, h2.frame hf (h.head_ne he)⟩
  · intro q hq hout
    refine (h.ended q hq ?_).frame hf ?_
    · intro e he
      rcases Multiset.mem_cons.1 he with rfl | he
      · exact hout (req, ph') (Multiset.mem_cons_self _ _)
      · exact hout e (Multiset.mem_cons_of_mem he)
    · exact (hout (req, ph') (Multiset.mem_cons_self _ _)).symm
  · intro i hi
    have hne : i ≠ req.tokenTx := by
      have := h.lt (Multiset.mem_cons_self (req, ph) bag)
      simp only at this
      omega
    rw [hf.sent i hne, hf.sampled i hne]
    exact h.fresh i hi

/-- a request leaves with its stream ended -/
theorem close (h : Book stops out submitted ((req, ph) ::ₘ bag)) (hf : Frame out out' req.tokenTx)
    (he : Ended stops out' req) : Book stops out' submitted bag := by
  have hn := h.nodup
  rw [Multiset.map_cons, Multiset.nodup_cons] at hn
  refine ⟨hn.2, ?_, ?_, h.numbered, ?_⟩
  · intro e hmem
    obtain ⟨h1, h2⟩ := h.phase e (Multiset.mem_cons_of_mem hmem)
    exact ⟨h1, h2.frame hf (h.head_ne hmem)⟩
  · intro q hq hout
    by_cases hqr : q.tokenTx = req.tokenTx
    · have h1 := (h.phase (req, ph) (Multiset.mem_cons_self _ _)).1
      obtain ⟨i, hi⟩ := List.mem_iff_getElem?.1 hq
      have hqi := h.numbered i q hi
      rw [← hqr, hqi, hi] at h1
      obtain rfl := Option.some.inj h1
      exact he
    · refine (h.ended q hq ?_).frame hf hqr
      intro e hmem
      rcases Multiset.mem_cons.1 hmem with rfl | hmem
      · exact fun heq => hqr heq.symm
      · exact hout e hmem
  · intro i hi
    have hne : i ≠ req.tokenTx := by
      have := h.lt (Multiset.mem_cons_self (req, ph) bag)
      simp only at this
      omega
    rw [hf.sent i hne, hf.sampled i hne]
    exact h.fresh i hi

/-- a request is submitted -/
theorem submit (h : Book stops out submitted bag) (req : GenerateRequest) (hreq : req.tokenTx = submitted.length) :
    Book stops out (submitted ++ [req]) ((req, .pending) ::ₘ bag) := by
  have hlt : ∀ e ∈ bag, e.1.tokenTx < submitted.length := fun e he => h.lt he
  refine ⟨?_, ?_, ?_, ?_, ?_⟩
  · rw [Multiset.map_cons, Multiset.nodup_cons]
    refine ⟨?_, h.nodup⟩
    intro hmem
    obtain ⟨e, he, heq⟩ := Multiset.mem_map.1 hmem
    have := hlt e he
    simp only at heq
    omega
  · intro e he
    rcases Multiset.mem_cons.1 he with rfl | he
    · refine ⟨by simp [hreq], ?_⟩
      show out.sent req.tokenTx = [] ∧ out.sampled req.tokenTx = []
      exact h.fresh _ (by omega)
    · obtain ⟨h1, h2⟩ := h.phase e he
      exact ⟨by rw [List.getElem?_append_left (hlt e he)]; exact h1, h2⟩
  · intro q hq hout
    rcases List.mem_append.1 hq with hq | hq
    · exact h.ended q hq fun e he => hout e (Multiset.mem_cons_of_mem he)
    · obtain rfl := List.mem_singleton.1 hq
      exact absurd rfl (hout (q, .pending) (Multiset.mem_cons_self _ _))
  · intro i q hi
    by_cases hlen : i < submitted.length
    · rw [List.getElem?_append_left hlen] at hi
      exact h.numbered i q hi
    · rw [List.getElem?_append_right (by omega)] at hi
      obtain ⟨hk, rfl⟩ := List.getElem?_eq_some_iff.1 hi
      simp only [List.length_singleton] at hk
      simp only [List.getElem_singleton]
      omega
  · intro i hi
    simp only [List.length_append, List.length_singleton] at hi
    exact h.fresh i (by omega)

end Book

/-! ## The ledger -/

variable {H : Type} [DecidableEq H] [BlockHash H]

/-- no stream has an accounting error -/
def Clean (out : Outbox) : Prop := ∀ i, ∀ e ∈ out.sent i, e.isAccounting = false

theorem Clean.send (h : Clean out) (i : ℕ) {e : TokenEvent} (he : e.isAccounting = false) : Clean (out.send i e) := by
  intro j x hx
  by_cases hj : j = i
  · subst hj
    rw [send_sent_self, List.mem_append, List.mem_singleton] at hx
    rcases hx with hx | rfl
    · exact h j x hx
    · exact he
  · rw [(frame_send out i e).sent j hj] at hx
    exact h j x hx

/-- what something contributes to the accounts: the guards it holds, the blocks it is still owed, the requests it carries -/
abbrev Share (H : Type) := Holdings H × ℕ × Multiset (GenerateRequest × Phase)

/-- a request's share, once it has a sequence -/
def kvShare (req : GenerateRequest) (ph : Phase) (kv : RequestKv H) : Share H :=
  (kv.holdings, remainingBlocks kv, {(req, ph)})

/-- a request admitted with its lifetime reserved, before it has a sequence -/
def admittedShare (bs : ℕ) (req : GenerateRequest) : Share H := (0, requestLifetimeBlocks req bs, {(req, .admitted)})

def pendingShare (req : GenerateRequest) : Share H := (0, 0, {(req, .pending)})

/-- guards nobody draws on -/
def guardShare (g : Holdings H) : Share H := (g, 0, 0)

def RequestState.share (s : RequestState H) : Share H := kvShare s.req (.running s.completionTokens) s.kv

def slotShare : Option (RequestState H) → Share H
  | none => 0
  | some s => s.share

/-- the pool and the outbox against the shares of everything the scheduler has -/
structure Ledger (stops : List Token) (submitted : List GenerateRequest) (pool : BlockPool H) (out : Outbox)
    (S : Share H) : Prop where
  account : Account pool S.1
  room : out.revivals = 0 → S.2.1 ≤ pool.availableBlocks
  book : Book stops out submitted S.2.2
  clean : out.revivals = 0 → Clean out

/-- between two steps, with tokens left to generate -/
structure Live (bs : ℕ) (s : RequestState H) : Prop where
  settled : Settled bs s.promptLen s.maxTokens s.completionTokens s.kv
  more : s.completionTokens < s.maxTokens

/-- its decode is scheduled -/
structure Stepping (bs : ℕ) (s : RequestState H) : Prop where
  decoding : Decoding bs s.promptLen s.maxTokens s.completionTokens s.kv
  more : s.completionTokens < s.maxTokens

variable {pool : BlockPool H} {kv : RequestKv H} {S : Share H}

theorem Ledger.book_cons (h : Ledger stops submitted pool out (kvShare req ph kv + S)) :
    Book stops out submitted ((req, ph) ::ₘ S.2.2) := by
  have := h.book
  rwa [kvShare, Prod.snd_add, Prod.snd_add, Multiset.singleton_add] at this

theorem Ledger.phase (h : Ledger stops submitted pool out (kvShare req ph kv + S)) : ph.Holds stops out req :=
  (h.book_cons.phase (req, ph) (Multiset.mem_cons_self _ _)).2

theorem Ledger.account_kv (h : Ledger stops submitted pool out (kvShare req ph kv + S)) :
    Account pool (kv.holdings + S.1) := h.account

theorem Ledger.room_kv (h : Ledger stops submitted pool out (kvShare req ph kv + S)) :
    out.revivals = 0 → remainingBlocks kv + S.2.1 ≤ pool.availableBlocks := h.room

/-- a ledger entry by entry -/
theorem Ledger.of_kv (hacc : Account pool (kv.holdings + S.1))
    (hroom : out.revivals = 0 → remainingBlocks kv + S.2.1 ≤ pool.availableBlocks)
    (hbook : Book stops out submitted ((req, ph) ::ₘ S.2.2)) (hclean : out.revivals = 0 → Clean out) :
    Ledger stops submitted pool out (kvShare req ph kv + S) := by
  refine ⟨hacc, hroom, ?_, hclean⟩
  rwa [kvShare, Prod.snd_add, Prod.snd_add, Multiset.singleton_add]

/-- a request is submitted -/
theorem Ledger.submit (h : Ledger stops submitted pool out S) (req : GenerateRequest)
    (hreq : req.tokenTx = submitted.length) :
    Ledger stops (submitted ++ [req]) pool out (pendingShare req + S) := by
  refine ⟨?_, ?_, ?_, h.clean⟩
  · rw [pendingShare, Prod.fst_add, zero_add]
    exact h.account
  · rw [pendingShare, Prod.snd_add, Prod.fst_add, zero_add]
    exact h.room
  · rw [pendingShare, Prod.snd_add, Prod.snd_add, Multiset.singleton_add]
    exact h.book.submit req hreq

/-- the blocks of a request that has ended go away -/
theorem Ledger.release (h : Ledger stops submitted pool out (guardShare kv.holdings + S)) :
    Ledger stops submitted (pool.dropKv kv) out S ∧ SamePool pool (pool.dropKv kv) := by
  obtain ⟨hacc, hsame, hav⟩ := dropKv_served h.account
  refine ⟨⟨hacc, fun h0 => ?_, ?_, h.clean⟩, hsame⟩
  · have := h.room h0
    simp only [guardShare, Prod.snd_add, Prod.fst_add, zero_add] at this
    exact this.trans hav
  · have := h.book
    rwa [guardShare, Prod.snd_add, Prod.snd_add, zero_add] at this

/-- a request's stream ends; its blocks are still held -/
theorem Ledger.ended (h : Ledger stops submitted pool out (kvShare req ph kv + S)) (hf : Frame out out' req.tokenTx)
    (he : Ended stops out' req) (hc : out'.revivals = 0 → Clean out') :
    Ledger stops submitted pool out' (guardShare kv.holdings + S) := by
  refine ⟨h.account, fun h0 => ?_, ?_, hc⟩
  · have := h.room_kv (Nat.le_zero.1 (h0 ▸ hf.revivals))
    simp only [guardShare, Prod.snd_add, Prod.fst_add, zero_add]
    omega
  · rw [guardShare, Prod.snd_add, Prod.snd_add, zero_add]
    exact h.book_cons.close hf he

/-! ## Ends of a stream -/

theorem Ended.of_closed (h : out.limit req.tokenTx ≠ none) : Ended stops out req := fun hl => absurd hl h

theorem Ended.plain (terminal : TokenEvent) (h : EndedPlain stops out req terminal) : Ended stops out req :=
  fun _ => ⟨terminal, Or.inl h⟩

theorem Ended.byStop (terminal : TokenEvent) (h : EndedByStop stops out req terminal) : Ended stops out req :=
  fun _ => ⟨terminal, Or.inr h⟩

/-- a terminal event that counts every sampled token ends a stream that has sent them all -/
theorem Phase.Holds.ends {e : TokenEvent} {n : ℕ} (h : Phase.Holds stops out req (.running n))
    (he : e.completionTokens = some n) : Ended stops (out.send req.tokenTx e) req := by
  obtain ⟨h1, h2, h3⟩ := h
  refine Ended.plain e ⟨?_, ?_, h3⟩
  · rw [send_sent_self, h1, send_sampled, List.cons_append]
  · rw [send_sampled, h2, he]

theorem Phase.Holds.ends_admitted {e : TokenEvent} (h : Phase.Holds stops out req .admitted)
    (he : e.completionTokens = some 0) : Ended stops (out.send req.tokenTx e) req := by
  obtain ⟨h1, h2⟩ := h
  refine Ended.plain e ⟨?_, ?_, ?_⟩
  · rw [send_sent_self, h1, send_sampled, h2]
    rfl
  · rw [send_sampled, h2, he]
    rfl
  · rw [send_sampled, h2]
    simp

theorem Phase.Holds.running_zero (h : Phase.Holds stops out req .admitted) :
    Phase.Holds stops out req (.running 0) := by
  obtain ⟨h1, h2⟩ := h
  exact ⟨by rw [h1, h2]; rfl, by rw [h2]; rfl, by rw [h2]; simp⟩

/-- one more token is sampled for a running request -/
structure Sampled (stops : List Token) (out : Outbox) (req : GenerateRequest) (n : ℕ) (t : Token) : Prop where
  before : ∃ ts, out.sampled req.tokenTx = ts ++ [t] ∧ ts.length = n ∧ (∀ u ∈ ts, isStop stops req u = false) ∧
    out.sent req.tokenTx = .scheduled req.promptTokens.length 0 :: ts.map .token

theorem Phase.Holds.sample {n k : ℕ} (h : Phase.Holds stops out req (.running n)) (t : Token) :
    Sampled stops ((out.sample req.tokenTx t).revive k) req n t := by
  obtain ⟨h1, h2, h3⟩ := h
  exact ⟨out.sampled req.tokenTx, by simp, h2, h3, h1⟩

/-- a token that is sent -/
theorem Sampled.send {n : ℕ} {t : Token} (h : Sampled stops out req n t) (ht : isStop stops req t = false) :
    Phase.Holds stops (out.send req.tokenTx (.token t)) req (.running (n + 1)) := by
  obtain ⟨ts, h1, h2, h3, h4⟩ := h.before
  refine ⟨?_, ?_, ?_⟩
  · simp [h1, h4]
  · simp [h1, h2]
  · intro u hu
    rw [send_sampled, h1, List.mem_append, List.mem_singleton] at hu
    rcases hu with hu | rfl
    · exact h3 u hu
    · exact ht

/-- a stop token ends the stream without being sent -/
theorem Sampled.stop {n : ℕ} {t : Token} (h : Sampled stops out req n t) (ht : isStop stops req t = true) :
    Ended stops (out.send req.tokenTx
      (.finished .stop req.promptTokens.length (if n = 0 then 0 else n + 1))) req := by
  obtain ⟨ts, h1, h2, h3, h4⟩ := h.before
  refine Ended.byStop (.finished .stop req.promptTokens.length (if n = 0 then 0 else n + 1))
    ⟨ts, t, h1, ht, h3, ?_, ?_⟩
  · congr 1
    rw [← h2]
    simp [List.length_eq_zero_iff]
  · simp [h4]

/-! ## Operations -/

/-- **Failing a request.** Its stream ends with an error that counts its tokens, its blocks are gone. -/
theorem failKv_spec {n : ℕ} {m : Failure} (h : Ledger stops submitted pool out (kvShare req ph kv + S))
    (hn : ph = .admitted ∧ n = 0 ∨ ph = .running n) (hc : out.revivals = 0 → m.isAccounting = false) :
    Ledger stops submitted (failKv req m n pool kv out).1 (failKv req m n pool kv out).2 S ∧
      SamePool pool (failKv req m n pool kv out).1 ∧
      Frame out (failKv req m n pool kv out).2 req.tokenTx := by
  have hframe := frame_send out req.tokenTx (.error m req.promptTokens.length n)
  have hend : Ended stops (out.send req.tokenTx (.error m req.promptTokens.length n)) req := by
    have hp := h.phase
    rcases hn with ⟨rfl, rfl⟩ | rfl
    · exact hp.ends_admitted rfl
    · exact hp.ends rfl
  obtain ⟨hl, hs⟩ := (h.ended hframe hend fun h0 => (h.clean h0).send _ (hc h0)).release
  exact ⟨hl, hs, hframe⟩

/-- **Settling.** Token number `n + 1` is sent and the request goes on, or its stream ends. -/
theorem settle_spec (n stopCount : ℕ) {out₁ : Outbox} {token : Token}
    (hcount : stopCount = if n = 0 then 0 else n + 1) (hbook : Book stops out submitted ((req, ph) ::ₘ S.2.2))
    (hacc : Account pool (kv.holdings + S.1)) (hf : Frame out out₁ req.tokenTx) (hs : Sampled stops out₁ req n token)
    (hroom : out₁.revivals = 0 → remainingBlocks kv + S.2.1 ≤ pool.availableBlocks)
    (hclean : out₁.revivals = 0 → Clean out₁) :
    (∃ out', settle stops req stopCount (n + 1) token out₁ = (true, out') ∧
      Ledger stops submitted pool out' (kvShare req (.running (n + 1)) kv + S) ∧ n + 1 < req.maxTokens ∧
      Frame out out' req.tokenTx) ∨
    ∃ out', settle stops req stopCount (n + 1) token out₁ = (false, out') ∧
      Ledger stops submitted pool out' (guardShare kv.holdings + S) ∧ Frame out out' req.tokenTx := by
  have hsend := frame_send out₁ req.tokenTx
  have hends : ∀ o : Outbox, Frame out₁ o req.tokenTx → o.revivals = out₁.revivals → (Clean out₁ → Clean o) →
      Ended stops o req →
      Ledger stops submitted pool o (guardShare kv.holdings + S) ∧ Frame out o req.tokenTx := by
    intro o hfo hro hco heo
    refine ⟨⟨hacc, fun h0 => ?_, ?_, fun h0 => hco (hclean (hro ▸ h0))⟩, hf.trans hfo⟩
    · have := hroom (hro ▸ h0)
      simp only [guardShare, Prod.snd_add, Prod.fst_add, zero_add]
      omega
    · rw [guardShare, Prod.snd_add, Prod.snd_add, zero_add]
      exact hbook.close (hf.trans hfo) heo
  unfold settle
  split_ifs with hstop hclosed hmax
  · exact Or.inr ⟨_, rfl, hends _ (hsend _) rfl (fun h0 => h0.send _ rfl) (hcount ▸ hs.stop hstop)⟩
  · have hlim := limit_of_closed hclosed
    exact Or.inr ⟨_, rfl, hends _ (hsend _) rfl (fun h0 => h0.send _ rfl) (Ended.of_closed hlim)⟩
  · have hstop : isStop stops req token = false := by simpa using hstop
    exact Or.inr ⟨_, rfl, hends _ ((hsend _).trans (frame_send _ _ _)) rfl
      (fun h0 => (h0.send _ rfl).send _ rfl) ((hs.send hstop).ends rfl)⟩
  · have hstop : isStop stops req token = false := by simpa using hstop
    refine Or.inl ⟨_, rfl, ?_, not_le.1 hmax, hf.trans (hsend _)⟩
    exact .of_kv hacc hroom (hbook.move (hf.trans (hsend _)) (hs.send hstop)) fun h0 => (hclean h0).send _ rfl

/-- sampling and registering, before the events of the token -/
theorem frame_taken (out : Outbox) (i n : ℕ) (token : Token) : Frame out ((out.sample i token).revive n) i :=
  (frame_sample _ _ _).trans (frame_revive _ _ _)

theorem taken_zero {i n : ℕ} {token : Token} (h : ((out.sample i token).revive n).revivals = 0) :
    out.revivals = 0 ∧ n = 0 := by
  simp only [Outbox.revive, sample_revivals] at h
  omega

/-- **The first token.** The request runs, or its share is gone. -/
theorem settleFirst_spec (broken : CallResult → Failure) (token : Token)
    (h : Ledger stops submitted pool out (kvShare req .admitted kv + S))
    (hw : Prefilling pool.blockSize req.promptTokens.length req.maxTokens kv) (hmax : 1 ≤ req.maxTokens) :
    ∃ o pool' out', settleFirst stops broken req token pool kv out = .ok (o, pool', out') ∧
      Ledger stops submitted pool' out' (slotShare o + S) ∧ SamePool pool pool' ∧ Frame out out' req.tokenTx ∧
      ∀ s, o = some s → Live pool.blockSize s ∧ s.req = req ∧ s.completionTokens = 1 ∧ s.lastToken = token := by
  obtain ⟨kv', pool', heq, hacc, hsame, hset, hroom⟩ := applyPrefill_served h.account_kv hw token hmax
  unfold settleFirst
  simp only [heq]
  rcases settle_spec 0 0 rfl h.book_cons hacc (frame_taken out req.tokenTx _ token)
    (h.phase.running_zero.sample token) (fun h0 => hroom (taken_zero h0).2 _ (h.room_kv (taken_zero h0).1))
    (fun h0 => h.clean (taken_zero h0).1) with ⟨out', hs, hl, hlt, hf⟩ | ⟨out', hs, hl, hf⟩
  · refine ⟨some ⟨req, 1, token, kv'⟩, pool', out', by simp only [hs], hl, hsame, hf, ?_⟩
    intro s hsome
    obtain rfl := Option.some.inj hsome
    exact ⟨⟨hset, hlt⟩, rfl, rfl, rfl⟩
  · obtain ⟨hl', hs'⟩ := hl.release
    refine ⟨none, pool'.dropKv kv', out', by simp only [hs], ?_, hsame.trans hs', hf, by simp⟩
    simpa only [slotShare, zero_add] using hl'

/-- a request that has ended holds its blocks until it is dropped -/
def doneShare (more : Bool) (s : RequestState H) : Share H := if more then s.share else guardShare s.kv.holdings

/-- **A later token.** The request goes on, or it has ended and still holds its blocks. -/
theorem settleDecode_spec {s : RequestState H} (token : Token)
    (h : Ledger stops submitted pool out (s.share + S)) (hw : Stepping pool.blockSize s) :
    ∃ more s' pool' out', settleDecode stops s token pool out = .ok (more, s', pool', out') ∧
      Ledger stops submitted pool' out' (doneShare more s' + S) ∧ SamePool pool pool' ∧
      Frame out out' s.req.tokenTx ∧ s'.req = s.req ∧ s'.completionTokens = s.completionTokens + 1 ∧
      (more = true → Live pool.blockSize s' ∧ s'.lastToken = token) := by
  obtain ⟨kv', pool', heq, hacc, hsame, hset, hroom⟩ := applyDecode_served h.account_kv hw.decoding token hw.more
  have hpos := hw.decoding.positive
  have hcount : s.completionTokens + 1 = if s.completionTokens = 0 then 0 else s.completionTokens + 1 := by
    rw [if_neg (by omega)]
  unfold settleDecode
  simp only [heq, RequestState.tokenTx]
  rcases settle_spec _ _ hcount h.book_cons hacc (frame_taken out s.req.tokenTx _ token)
    (h.phase.sample token) (fun h0 => hroom (taken_zero h0).2 _ (h.room_kv (taken_zero h0).1))
    (fun h0 => h.clean (taken_zero h0).1) with ⟨out', hs, hl, hlt, hf⟩ | ⟨out', hs, hl, hf⟩
  · refine ⟨true, ⟨s.req, s.completionTokens + 1, token, kv'⟩, pool', out', by simp only [hs], hl, hsame, hf, rfl, rfl, ?_⟩
    exact fun _ => ⟨⟨hset, hlt⟩, rfl⟩
  · exact ⟨false, ⟨s.req, s.completionTokens + 1, s.lastToken, kv'⟩, pool', out', by simp only [hs], hl, hsame, hf, rfl,
      rfl, by simp⟩

/-- **Scheduling a decode.** With its remainder kept for it, a running request's step is scheduled. -/
theorem scheduleDecode_spec {s : RequestState H} (h : Ledger stops submitted pool out (s.share + S))
    (hw : Live pool.blockSize s) :
    (∃ kv' pool', pool.call s.kv .scheduleDecode = .ok (.done, kv', pool') ∧
      Ledger stops submitted pool' out ({ s with kv := kv' }.share + S) ∧ SamePool pool pool' ∧
      Stepping pool.blockSize { s with kv := kv' }) ∨
    ∃ n, pool.call s.kv .scheduleDecode = .ok (.scheduleError (.allocationFailed n), s.kv, pool) ∧
      out.revivals ≠ 0 := by
  rcases scheduleDecode_cases h.account_kv hw.settled hw.more with
    ⟨kv', pool', heq, hacc, hsame, hdec, hroom⟩ | ⟨n, heq, hav⟩
  · exact Or.inl ⟨kv', pool', heq, .of_kv hacc (fun h0 => hroom _ (h.room_kv h0)) h.book_cons h.clean, hsame,
      ⟨hdec, hw.more⟩⟩
  · refine Or.inr ⟨n, heq, fun h0 => ?_⟩
    have := h.room_kv h0
    omega

/-- **Scheduling a new request.** With its lifetime reserved its suffix is scheduled; it is failed otherwise. -/
theorem scheduleRequestKv_spec [PositionalHash H]
    (h : Ledger stops submitted pool out (admittedShare pool.blockSize req + S))
    (hb : 0 < pool.blockSize) (hp : req.promptTokens ≠ []) :
    (∃ kv pool', scheduleRequestKv req pool out = .ok (some (kv, kv.prefillPosition), pool', out) ∧
      Ledger stops submitted pool' out (kvShare req .admitted kv + S) ∧ SamePool pool pool' ∧
      Prefilling pool.blockSize req.promptTokens.length req.maxTokens kv) ∨
    ∃ pool' out', scheduleRequestKv req pool out = .ok (none, pool', out') ∧
      Ledger stops submitted pool' out' S ∧ SamePool pool pool' ∧ Frame out out' req.tokenTx := by
  have hacc₀ : Account pool S.1 := by
    have := h.account
    rwa [admittedShare, Prod.fst_add, zero_add] at this
  have hbook : Book stops out submitted ((req, .admitted) ::ₘ S.2.2) := by
    have := h.book
    rwa [admittedShare, Prod.snd_add, Prod.snd_add, Multiset.singleton_add] at this
  have hroom₀ : out.revivals = 0 → requestLifetimeBlocks req pool.blockSize + S.2.1 ≤ pool.availableBlocks := h.room
  obtain ⟨kv, pool₁, heq, hacc, hsame, hwait, hcached, hroom⟩ :=
    match_served hacc₀ req.promptTokens req.maxTokens 0 hb hp
  have hlife : divCeil (req.promptTokens.length + req.maxTokens) pool.blockSize + S.2.1 ≤
      requestLifetimeBlocks req pool.blockSize + S.2.1 := Nat.add_le_add_right (le_max_left _ _) _
  have hled : Ledger stops submitted pool₁ out (kvShare req .admitted kv + S) :=
    .of_kv hacc (fun h0 => hroom _ (hlife.trans (hroom₀ h0))) hbook h.clean
  rw [← hsame.blockSize] at hcached
  unfold scheduleRequestKv
  simp only [heq, ← hcached]
  rcases schedulePrefill_cases hacc hwait with ⟨kv', pool', heq', hacc', hsame', hpre, hpos, hroom'⟩ | ⟨n, heq', hav⟩
  · refine Or.inl ⟨kv', pool', by simp only [heq', hpos], ?_, hsame.trans hsame', hpre⟩
    exact .of_kv hacc' (fun h0 => hroom' _ (hled.room_kv h0)) hbook h.clean
  · right
    have hshort : out.revivals ≠ 0 := by
      intro h0
      have := hled.room_kv h0
      omega
    obtain ⟨hl, hs, hf⟩ := failKv_spec (n := 0) (m := .prefillAccounting (.scheduleError (.allocationFailed n))) hled
      (Or.inl ⟨rfl, rfl⟩) (fun h0 => absurd h0 hshort)
    exact ⟨_, _, by simp only [heq'], hl, hsame.trans hs, hf⟩

/-- the stream opens -/
theorem sendScheduled_spec (h : Book stops out submitted ((req, .pending) ::ₘ bag)) :
    Book stops (sendScheduled req out) submitted ((req, .admitted) ::ₘ bag) ∧
      Frame out (sendScheduled req out) req.tokenTx ∧ (Clean out → Clean (sendScheduled req out)) := by
  have hf := frame_send out req.tokenTx (.scheduled req.promptTokens.length 0)
  refine ⟨h.move hf ?_, hf, fun hc => hc.send _ rfl⟩
  obtain ⟨h1, h2⟩ := (h.phase (req, .pending) (Multiset.mem_cons_self _ _)).2
  exact ⟨by rw [sendScheduled, send_sent_self, h1]; rfl, h2⟩

/-- a stream of one `Scheduled` and a terminal that counts nothing -/
theorem terminate_spec {e : TokenEvent} (h : Book stops out submitted ((req, .pending) ::ₘ bag))
    (he : e.completionTokens = some 0) (ha : e.isAccounting = false) :
    Book stops ((sendScheduled req out).send req.tokenTx e) submitted bag ∧
      Frame out ((sendScheduled req out).send req.tokenTx e) req.tokenTx ∧
      (Clean out → Clean ((sendScheduled req out).send req.tokenTx e)) := by
  obtain ⟨hb, hf, hc⟩ := sendScheduled_spec h
  have hp := (hb.phase (req, .admitted) (Multiset.mem_cons_self _ _)).2
  have hf' := frame_send (sendScheduled req out) req.tokenTx e
  exact ⟨hb.close hf' (hp.ends_admitted he), hf.trans hf', fun h0 => (hc h0).send _ ha⟩

/-- **Preflight.** A request that goes on is untouched; one that does not has its whole stream. -/
theorem preflight_spec (h : Book stops out submitted ((req, .pending) ::ₘ bag)) :
    (preflightPrefillCandidate req out = (true, out) ∧ 1 ≤ req.maxTokens ∧ req.promptTokens ≠ []) ∨
    ∃ out', preflightPrefillCandidate req out = (false, out') ∧ out'.revivals = out.revivals ∧
      Book stops out' submitted bag ∧ Frame out out' req.tokenTx ∧ (Clean out → Clean out') := by
  unfold preflightPrefillCandidate
  cases hv : unschedulableVerdict req with
  | none =>
    left
    unfold unschedulableVerdict at hv
    split_ifs at hv with h1 h2
    exact ⟨rfl, Nat.one_le_iff_ne_zero.2 h1, h2⟩
  | some v =>
    right
    cases v with
    | finish => exact ⟨_, rfl, rfl, terminate_spec h rfl rfl⟩
    | reject message => exact ⟨_, rfl, rfl, terminate_spec h rfl rfl⟩

end Pegainfer.KimiK2
