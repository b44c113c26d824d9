/-
The books of Gemma4's requests.

The reference is `plainStream`: one token at a time, each the oracle's choice after the tokens before it, until a stop
token or the length limit. The books say of every held request which tokens it has been sent; every function of the
scheduler is a sequence of entries in them.
- `Sent`: the tokens sent so far are the front of the reference, and what is left of it.
- `Outcome`: how a closed account ended.
- `Book`: every held request's account is open and holds what the row says; every open account is held.
- `Book.settle`, `Book.fail`, `Book.retire`, `Book.drop`, `Book.enter`: one entry each.
-/
import Mathlib.Tactic
import Pegainfer.Gemma4.Pipeline

set_option linter.unusedSectionVars false

namespace Pegainfer.Gemma4.Pipeline

open Pegainfer.Lib

variable (oracle : ℕ → List ℕ → ℕ)

/-! ## The reference -/

/-- what plain decode sends after the tokens `ts`, at most `left` more tokens after the next -/
def streamFrom (req : Request) : ℕ → List ℕ → List Event
  | 0, ts =>
    let t := oracle req.id ts
    [.token t, .finish (match req.classify t with | some cause => .stop cause | none => .length)]
  | left + 1, ts =>
    let t := oracle req.id ts
    match req.classify t with
    | some cause => [.token t, .finish (.stop cause)]
    | none => .token t :: streamFrom req left (ts ++ [t])

/-- everything plain decode sends a request: its tokens, then one terminal -/
def plainStream (req : Request) : List Event := streamFrom oracle req (req.maxTokens - 1) []

/-- `ts` is the front of the reference, and plain decode goes on from it -/
def Sent (req : Request) (ts : List ℕ) : Prop :=
  plainStream oracle req = ts.map .token ++ streamFrom oracle req (req.maxTokens - 1 - ts.length) ts

/-- how a closed account ended -/
inductive Outcome (a : Acct) : Prop
  /-- the whole reference -/
  | complete (h : a.events = plainStream oracle a.req)
  /-- the client left: a front of the tokens, no terminal -/
  | left (ts : List ℕ) (hs : Sent oracle a.req ts) (ha : a.aborted = true) (h : a.events = ts.map .token)
  /-- the pools or the device failed it -/
  | failed (ts : List ℕ) (hs : Sent oracle a.req ts) (h : a.events = ts.map .token ++ [.fail])
  | rejected (h : a.events = [.reject])

/-- every account holds the front of its reference while open, and an outcome once closed -/
structure AcctOk (a : Acct) : Prop where
  whileOpen : a.isOpen = true → ∃ ts, Sent oracle a.req ts ∧ a.events = ts.map .token
  closed : a.isOpen = false → Outcome oracle a

def Accounts (ledger : Ledger) : Prop := ∀ i a, ledger i = some a → a.req.id = i ∧ AcctOk oracle a

/-! ## Ledger entries -/

theorem Ledger.modify_self (ledger : Ledger) (id : ℕ) (f : Acct → Acct) {a : Acct} (h : ledger id = some a) :
    ledger.modify id f id = some (f a) := by
  simp [Ledger.modify, h]

theorem Ledger.modify_ne (ledger : Ledger) {id i : ℕ} (f : Acct → Acct) (h : i ≠ id) :
    ledger.modify id f i = ledger i := by
  simp [Ledger.modify, h]

theorem Ledger.modify_some {ledger : Ledger} {id i : ℕ} {f : Acct → Acct} {a : Acct}
    (h : ledger.modify id f i = some a) :
    (i ≠ id ∧ ledger i = some a) ∨ (i = id ∧ ∃ a₀, ledger id = some a₀ ∧ a = f a₀) := by
  by_cases hi : i = id
  · subst hi
    refine Or.inr ⟨rfl, ?_⟩
    simp only [Ledger.modify, Function.update_self, Option.map_eq_some_iff] at h
    obtain ⟨a₀, ha₀, rfl⟩ := h
    exact ⟨a₀, ha₀, rfl⟩
  · exact Or.inl ⟨hi, by rwa [Ledger.modify_ne ledger f hi] at h⟩

theorem completionTokens_eq {ledger : Ledger} {id : ℕ} {a : Acct} {ts : List ℕ} (h : ledger id = some a)
    (he : a.events = ts.map .token) : ledger.completionTokens id = ts.length := by
  have hfilter : (a.events.filter Event.isToken).length = ts.length := by
    rw [he, List.filter_eq_self.2, List.length_map]
    intro e hmem
    obtain ⟨t, -, rfl⟩ := List.mem_map.1 hmem
    rfl
  simp [Ledger.completionTokens, h, hfilter]

theorem accounts_open {oracle : ℕ → List ℕ → ℕ} {ledger : Ledger} (h : Accounts oracle ledger) (req : Request) :
    Accounts oracle (Function.update ledger req.id (some ⟨req, [], false, true⟩)) := by
  intro i a ha
  by_cases hi : i = req.id
  · subst hi
    rw [Function.update_self] at ha
    obtain rfl := Option.some.inj ha
    refine ⟨rfl, fun _ => ⟨[], rfl, rfl⟩, fun hc => ?_⟩
    cases hc
  · rw [Function.update_of_ne hi] at ha
    exact h i a ha

theorem accounts_abort {oracle : ℕ → List ℕ → ℕ} {ledger : Ledger} (h : Accounts oracle ledger) (id : ℕ) :
    Accounts oracle (ledger.modify id fun a => { a with aborted := true }) := by
  intro i a ha
  rcases Ledger.modify_some ha with ⟨-, ha⟩ | ⟨rfl, a₀, ha₀, rfl⟩
  · exact h i a ha
  · obtain ⟨hid, hok⟩ := h i a₀ ha₀
    refine ⟨hid, hok.whileOpen, fun hc => ?_⟩
    rcases hok.closed hc with h1 | ⟨ts, hs, -, h1⟩ | ⟨ts, hs, h1⟩ | h1
    · exact .complete h1
    · exact .left ts hs rfl h1
    · exact .failed ts hs h1
    · exact .rejected h1

/-! ## The books -/

/-- a held request: the tokens it has been sent, or `none` once its account is closed -/
abbrev BookRow := Request × Option (List ℕ)

def LiveAt (ledger : Ledger) (req : Request) (ts : List ℕ) : Prop :=
  Sent oracle req ts ∧ ∃ a, ledger req.id = some a ∧ a.req = req ∧ a.isOpen = true ∧ a.events = ts.map .token

structure Book (rows : List BookRow) (ledger : Ledger) : Prop where
  nodup : (rows.map fun r => r.1.id).Nodup
  live : ∀ r ∈ rows, ∀ ts, r.2 = some ts → LiveAt oracle ledger r.1 ts
  shut : ∀ r ∈ rows, r.2 = none → ∃ a, ledger r.1.id = some a ∧ a.isOpen = false
  held : ∀ i a, ledger i = some a → a.isOpen = true → ∃ r ∈ rows, r.1.id = i ∧ r.2 ≠ none
  accts : Accounts oracle ledger

namespace Book

variable {oracle} {rows rows' : List BookRow} {ledger : Ledger} {r : BookRow} {req : Request} {ts : List ℕ}

theorem perm (h : Book oracle rows ledger) (hp : rows.Perm rows') : Book oracle rows' ledger where
  nodup := ((hp.map _).nodup_iff).1 h.nodup
  live := fun r hr => h.live r (hp.mem_iff.2 hr)
  shut := fun r hr => h.shut r (hp.mem_iff.2 hr)
  held := fun i a ha ho =>
    let ⟨r, hr, hh⟩ := h.held i a ha ho
    ⟨r, hp.mem_iff.1 hr, hh⟩
  accts := h.accts

/-- a closed account's row can go -/
theorem drop (h : Book oracle (r :: rows) ledger) (hr : r.2 = none) : Book oracle rows ledger where
  nodup := (List.nodup_cons.1 h.nodup).2
  live := fun x hx => h.live x (List.mem_cons_of_mem _ hx)
  shut := fun x hx => h.shut x (List.mem_cons_of_mem _ hx)
  held := by
    intro i a ha ho
    obtain ⟨x, hx, hid, hne⟩ := h.held i a ha ho
    rcases List.mem_cons.1 hx with rfl | hx
    · exact absurd hr hne
    · exact ⟨x, hx, hid, hne⟩
  accts := h.accts

/-- one row's account edited, its row rewritten with it -/
theorem edit (h : Book oracle ((req, some ts) :: rows) ledger) (f : Acct → Acct) (out : Option (List ℕ))
    (hf : ∀ a, a.req = req → a.isOpen = true → a.events = ts.map .token → ledger req.id = some a →
      (f a).req = req ∧ AcctOk oracle (f a) ∧
        (match out with
          | some ts' => Sent oracle req ts' ∧ (f a).isOpen = true ∧ (f a).events = ts'.map .token
          | none => (f a).isOpen = false)) :
    Book oracle ((req, out) :: rows) (ledger.modify req.id f) := by
  obtain ⟨-, a, ha, hreq, hopen, hev⟩ := h.live (req, some ts) List.mem_cons_self ts rfl
  obtain ⟨hreq', hok, hout⟩ := hf a hreq hopen hev ha
  have hself := Ledger.modify_self ledger req.id f ha
  have hother : ∀ x ∈ rows, x.1.id ≠ req.id := by
    intro x hx heq
    have hn := (List.nodup_cons.1 h.nodup).1
    exact hn (List.mem_map.2 ⟨x, hx, heq⟩)
  refine ⟨h.nodup, ?_, ?_, ?_, ?_⟩
  · intro x hx ts' hts'
    rcases List.mem_cons.1 hx with rfl | hx
    · obtain rfl : out = some ts' := hts'
      exact ⟨hout.1, f a, hself, hreq', hout.2⟩
    · obtain ⟨hs, b, hb, hrest⟩ := h.live x (List.mem_cons_of_mem _ hx) ts' hts'
      exact ⟨hs, b, by rwa [Ledger.modify_ne ledger f (hother x hx)], hrest⟩
  · intro x hx hnone
    rcases List.mem_cons.1 hx with rfl | hx
    · obtain rfl : out = none := hnone
      exact ⟨f a, hself, hout⟩
    · obtain ⟨b, hb, hsh⟩ := h.shut x (List.mem_cons_of_mem _ hx) hnone
      exact ⟨b, by rwa [Ledger.modify_ne ledger f (hother x hx)], hsh⟩
  · intro i b hb ho
    rcases Ledger.modify_some hb with ⟨hi, hb⟩ | ⟨rfl, a₀, ha₀, rfl⟩
    · obtain ⟨x, hx, hid, hne⟩ := h.held i b hb ho
      rcases List.mem_cons.1 hx with rfl | hx
      · exact absurd hid.symm hi
      · exact ⟨x, List.mem_cons_of_mem _ hx, hid, hne⟩
    · obtain rfl : a = a₀ := Option.some.inj (ha.symm.trans ha₀)
      refine ⟨(req, out), List.mem_cons_self, rfl, ?_⟩
      rintro hnone
      obtain rfl : out = none := hnone
      rw [hout] at ho
      cases ho
  · intro i b hb
    rcases Ledger.modify_some hb with ⟨-, hb⟩ | ⟨rfl, a₀, ha₀, rfl⟩
    · exact h.accts i b hb
    · obtain rfl : a = a₀ := Option.some.inj (ha.symm.trans ha₀)
      exact ⟨by rw [hreq'], hok⟩

/-- the account closes with an outcome -/
theorem shutWith (h : Book oracle ((req, some ts) :: rows) ledger) (f : Acct → Acct)
    (hf : ∀ a, a.req = req → a.events = ts.map .token → ledger req.id = some a →
      (f a).req = req ∧ (f a).isOpen = false ∧ Outcome oracle (f a)) :
    Book oracle ((req, none) :: rows) (ledger.modify req.id f) := by
  refine h.edit f none fun a hreq _ hev ha => ?_
  obtain ⟨h1, h2, h3⟩ := hf a hreq hev ha
  refine ⟨h1, ⟨fun ho => ?_, fun _ => h3⟩, h2⟩
  rw [h2] at ho
  cases ho

theorem fail (h : Book oracle ((req, some ts) :: rows) ledger) :
    Book oracle ((req, none) :: rows) (ledger.close req.id .fail) := by
  have hs := (h.live (req, some ts) List.mem_cons_self ts rfl).1
  refine h.shutWith _ fun a hreq hev _ => ⟨hreq, rfl, ?_⟩
  exact .failed ts (hreq ▸ hs) (by simp [hev])

theorem retire (h : Book oracle ((req, some ts) :: rows) ledger) (ha : ledger.isAborted req.id = true) :
    Book oracle ((req, none) :: rows) (ledger.retire req.id) := by
  have hs := (h.live (req, some ts) List.mem_cons_self ts rfl).1
  refine h.shutWith _ fun a hreq hev hget => ⟨hreq, rfl, ?_⟩
  have hab : a.aborted = true := by simpa [Ledger.isAborted, hget] using ha
  exact .left ts (hreq ▸ hs) hab hev

theorem reject (h : Book oracle ((req, some []) :: rows) ledger) :
    Book oracle ((req, none) :: rows) (ledger.close req.id .reject) := by
  refine h.shutWith _ fun a hreq hev _ => ⟨hreq, rfl, ?_⟩
  exact .rejected (by simp [hev])

/-- **One pick settled.** The oracle's choice after the tokens sent is the reference's next event; the request is done
exactly when the reference ends. -/
theorem settle (h : Book oracle ((req, some ts) :: rows) ledger) :
    Book oracle ((req, if (settleToken ledger req (oracle req.id ts)).2 then none else some (ts ++ [oracle req.id ts])) :: rows)
      (settleToken ledger req (oracle req.id ts)).1 := by
  obtain ⟨hs, a, ha, hreq, hopen, hev⟩ := h.live (req, some ts) List.mem_cons_self ts rfl
  have hcount : (ledger.pushToken req.id (oracle req.id ts)).completionTokens req.id = ts.length + 1 := by
    have hself := Ledger.modify_self ledger req.id
      (fun a => { a with events := a.events ++ [Event.token (oracle req.id ts)] }) ha
    have hlen := completionTokens_eq hself (show _ = (ts ++ [oracle req.id ts]).map Event.token by simp [hev])
    rwa [List.length_append, List.length_singleton] at hlen
  have htwo : ∀ g : Acct → Acct, (ledger.pushToken req.id (oracle req.id ts)).modify req.id g =
      ledger.modify req.id (fun a => g { a with events := a.events ++ [.token (oracle req.id ts)] }) := by
    intro g
    funext i
    by_cases hi : i = req.id
    · subst hi
      simp [Ledger.pushToken, Ledger.modify, ha]
    · simp [Ledger.pushToken, Ledger.modify, hi]
  by_cases hab : ledger.isAborted req.id = true
  · have hst : settleToken ledger req (oracle req.id ts) = (ledger.retire req.id, true) := by simp [settleToken, hab]
    rw [hst]
    exact h.retire hab
  cases hcause : req.classify (oracle req.id ts) with
  | some cause =>
    have hst : settleToken ledger req (oracle req.id ts) =
        ((ledger.pushToken req.id (oracle req.id ts)).close req.id (.finish (.stop cause)), true) := by
      simp [settleToken, hab, hcause]
    rw [hst, Ledger.close, htwo]
    refine h.shutWith _ fun b hreqb hevb _ => ⟨hreqb, rfl, .complete ?_⟩
    simp only [hevb, hreqb]
    rw [hs]
    cases hleft : req.maxTokens - 1 - ts.length with
    | zero => simp [streamFrom, hcause]
    | succ n => simp [streamFrom, hcause]
  | none =>
    by_cases hlen : req.maxTokens ≤ ts.length + 1
    · have hst : settleToken ledger req (oracle req.id ts) =
          ((ledger.pushToken req.id (oracle req.id ts)).close req.id (.finish .length), true) := by
        simp [settleToken, hab, hcause, hcount, hlen]
      rw [hst, Ledger.close, htwo]
      refine h.shutWith _ fun b hreqb hevb _ => ⟨hreqb, rfl, .complete ?_⟩
      simp only [hevb, hreqb]
      rw [hs, show req.maxTokens - 1 - ts.length = 0 by omega]
      simp [streamFrom, hcause]
    · have hst : settleToken ledger req (oracle req.id ts) = (ledger.pushToken req.id (oracle req.id ts), false) := by
        simp [settleToken, hab, hcause, hcount, hlen]
      rw [hst]
      have hs' : Sent oracle req (ts ++ [oracle req.id ts]) := by
        unfold Sent
        rw [hs, show req.maxTokens - 1 - ts.length = req.maxTokens - 1 - (ts ++ [oracle req.id ts]).length + 1 by
          simp only [List.length_append, List.length_singleton]; omega]
        simp [streamFrom, hcause]
      refine h.edit _ (some (ts ++ [oracle req.id ts])) fun b hreqb hopenb hevb _ => ?_
      refine ⟨hreqb, ⟨fun _ => ⟨ts ++ [oracle req.id ts], ?_, ?_⟩, fun hc => ?_⟩, hs', hopenb, ?_⟩
      · exact hreqb ▸ hs'
      · simp [hevb]
      · simp only [hopenb] at hc
        cases hc
      · simp [hevb]

theorem settleWith (h : Book oracle ((req, some ts) :: rows) ledger) {t : ℕ} (ht : t = oracle req.id ts) :
    Book oracle ((req, if (settleToken ledger req t).2 then none else some (ts ++ [t])) :: rows)
      (settleToken ledger req t).1 := by
  subst ht
  exact h.settle

/-- a client leaves: no row changes -/
theorem abort (h : Book oracle rows ledger) (id : ℕ) :
    Book oracle rows (ledger.modify id fun a => { a with aborted := true }) where
  nodup := h.nodup
  live := by
    intro r hr ts hts
    obtain ⟨hs, a, ha, hreq, ho, hev⟩ := h.live r hr ts hts
    by_cases hi : r.1.id = id
    · subst hi
      exact ⟨hs, { a with aborted := true }, Ledger.modify_self ledger r.1.id _ ha, hreq, ho, hev⟩
    · exact ⟨hs, a, by rwa [Ledger.modify_ne ledger _ hi], hreq, ho, hev⟩
  shut := by
    intro r hr hnone
    obtain ⟨a, ha, hc⟩ := h.shut r hr hnone
    by_cases hi : r.1.id = id
    · subst hi
      exact ⟨{ a with aborted := true }, Ledger.modify_self ledger r.1.id _ ha, hc⟩
    · exact ⟨a, by rwa [Ledger.modify_ne ledger _ hi], hc⟩
  held := by
    intro i a ha ho
    rcases Ledger.modify_some ha with ⟨-, ha⟩ | ⟨rfl, a₀, ha₀, rfl⟩
    · exact h.held i a ha ho
    · exact h.held i a₀ ha₀ ho
  accts := accounts_abort h.accts id

/-- a request that has no account gets one, and a row -/
theorem enter (h : Book oracle rows ledger) (hnew : ledger req.id = none) :
    Book oracle ((req, some []) :: rows) (Function.update ledger req.id (some ⟨req, [], false, true⟩)) := by
  have hne : ∀ r ∈ rows, r.1.id ≠ req.id := by
    intro r hr hid
    cases hr2 : r.2 with
    | none =>
      obtain ⟨a, ha, -⟩ := h.shut r hr hr2
      rw [hid, hnew] at ha
      cases ha
    | some ts =>
      obtain ⟨-, a, ha, -⟩ := h.live r hr ts hr2
      rw [hid, hnew] at ha
      cases ha
  refine ⟨?_, ?_, ?_, ?_, ?_⟩
  · refine List.nodup_cons.2 ⟨fun hmem => ?_, h.nodup⟩
    obtain ⟨r, hr, hid⟩ := List.mem_map.1 hmem
    exact hne r hr hid
  · intro r hr ts hts
    rcases List.mem_cons.1 hr with rfl | hr
    · obtain rfl : [] = ts := Option.some.inj hts
      exact ⟨rfl, _, Function.update_self .., rfl, rfl, rfl⟩
    · obtain ⟨hs, a, ha, hrest⟩ := h.live r hr ts hts
      exact ⟨hs, a, by rwa [Function.update_of_ne (hne r hr)], hrest⟩
  · intro r hr hnone
    rcases List.mem_cons.1 hr with rfl | hr
    · cases hnone
    · obtain ⟨a, ha, hc⟩ := h.shut r hr hnone
      exact ⟨a, by rwa [Function.update_of_ne (hne r hr)], hc⟩
  · intro i a ha ho
    by_cases hi : i = req.id
    · exact ⟨(req, some []), List.mem_cons_self, hi.symm, by simp⟩
    · rw [Function.update_of_ne hi] at ha
      obtain ⟨r, hr, hh⟩ := h.held i a ha ho
      exact ⟨r, List.mem_cons_of_mem _ hr, hh⟩
  · exact accounts_open h.accts req

end Book

end Pegainfer.Gemma4.Pipeline
