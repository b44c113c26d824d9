/-
Computations on a state over a device whose operations can fail.

A failed operation ends the computation where it is: what it did to the state so far stays done. Which operations fail
is a script, one entry an operation; past its end none fails.
- `Faulty`: such a computation, a monad; `operate` is one operation of the device, `attempt` catches a failure.
- `Ends`: a pre- and postcondition, and what holds of the state a failure leaves; one rule for each construct.
- `Ends.each`, `Ends.each_range`: the rule of a loop, with an invariant over the items that are done.
- `Ends.each_apart`, `Ends.collect_apart`: loops whose items do not touch each other take each from its own state before
  to its own state after.
- `Ends.from_get` and its like: the same rules from one known state.
-/
import Mathlib.Tactic
import Pegainfer.Lib.Fallible

namespace Pegainfer.Lib

/-- which of the operations to come fail -/
abbrev Faults := List Bool

/-- a computation that reads and writes a state; an error leaves the state as it stands -/
def Faulty (σ α : Type) : Type := σ → Faults → Except String α × σ × Faults

namespace Faulty

variable {σ α β ι : Type}

def pure (a : α) : Faulty σ α := fun s fs => (.ok a, s, fs)

def bind (m : Faulty σ α) (k : α → Faulty σ β) : Faulty σ β := fun s fs =>
  match m s fs with
  | (.ok a, s', fs') => k a s' fs'
  | (.error e, s', fs') => (.error e, s', fs')

instance : Monad (Faulty σ) where
  pure := pure
  bind := bind

def fail (message : String) : Faulty σ α := fun s fs => (.error message, s, fs)

def ensure (p : Prop) [Decidable p] (message : String) : Faulty σ Unit := if p then pure () else fail message

def get : Faulty σ σ := fun s fs => (.ok s, s, fs)

theorem get_bind (k : σ → Faulty σ β) (s : σ) (fs : Faults) : (get >>= k : Faulty σ β) s fs = k s s fs := rfl

def modify (f : σ → σ) : Faulty σ Unit := fun s fs => (.ok (), f s, fs)

/-- one operation of the device -/
def operate (message : String) : Faulty σ Unit := fun s fs =>
  if fs.headD false then (.error message, s, fs.tail) else (.ok (), s, fs.tail)

/-- a failure is a value -/
def attempt (m : Faulty σ α) : Faulty σ (Except String α) := fun s fs =>
  match m s fs with
  | (r, s', fs') => (.ok r, s', fs')

def each (f : ι → Faulty σ Unit) : List ι → Faulty σ Unit
  | [] => pure ()
  | i :: is => bind (f i) fun _ => each f is

/-- a loop that keeps what each item gives -/
def collect (f : ι → Faulty σ β) : List ι → Faulty σ (List β)
  | [] => pure []
  | i :: is => bind (f i) fun b => bind (collect f is) fun bs => pure (b :: bs)

/-- what does not read the state -/
def lift (r : Except String α) : Faulty σ α := fun s fs => (r, s, fs)

/-! ## Pre- and postconditions -/

/-- from `pre`, the computation ends in `post`, or fails and leaves `failed` -/
def Ends (pre : σ → Prop) (m : Faulty σ α) (post : α → σ → Prop) (failed : σ → Prop) : Prop :=
  ∀ s fs, pre s →
    match m s fs with
    | (.ok a, s', _) => post a s'
    | (.error _, s', _) => failed s'

variable {pre : σ → Prop} {post : α → σ → Prop} {failed : σ → Prop}

namespace Ends

theorem pure {a : α} (h : ∀ s, pre s → post a s) : Ends pre (Pure.pure a : Faulty σ α) post failed :=
  fun s _ hs => h s hs

theorem fail {message : String} (h : ∀ s, pre s → failed s) :
    Ends pre (Faulty.fail message : Faulty σ α) post failed := fun s _ hs => h s hs

theorem bind {m : Faulty σ α} {k : α → Faulty σ β} {mid : α → σ → Prop} {post : β → σ → Prop}
    (hm : Ends pre m mid failed) (hk : ∀ a, Ends (mid a) (k a) post failed) : Ends pre (m >>= k) post failed := by
  intro s fs hs
  have hrun := hm s fs hs
  change match Faulty.bind m k s fs with | (.ok a, s', _) => post a s' | (.error _, s', _) => failed s'
  unfold Faulty.bind
  cases hcase : m s fs with
  | mk r rest =>
    obtain ⟨s', fs'⟩ := rest
    rw [hcase] at hrun
    cases r with
    | error e => exact hrun
    | ok a => exact hk a s' fs' hrun

theorem get {post : σ → σ → Prop} (h : ∀ s, pre s → post s s) : Ends pre (Faulty.get : Faulty σ σ) post failed :=
  fun s _ hs => h s hs

theorem modify {f : σ → σ} {post : Unit → σ → Prop} (h : ∀ s, pre s → post () (f s)) :
    Ends pre (Faulty.modify f) post failed := fun s _ hs => h s hs

theorem ensure {p : Prop} [Decidable p] {message : String} {post : Unit → σ → Prop}
    (hok : ∀ s, pre s → p → post () s) (hfail : ∀ s, pre s → ¬ p → failed s) :
    Ends pre (Faulty.ensure p message) post failed := by
  intro s fs hs
  unfold Faulty.ensure
  by_cases hp : p
  · rw [if_pos hp]
    exact hok s hs hp
  · rw [if_neg hp]
    exact hfail s hs hp

/-- an operation does nothing to the state -/
theorem operate {message : String} {post : Unit → σ → Prop} (hok : ∀ s, pre s → post () s)
    (hfail : ∀ s, pre s → failed s) : Ends pre (Faulty.operate message) post failed := by
  intro s fs hs
  unfold Faulty.operate
  cases fs.headD false with
  | true => exact hfail s hs
  | false => exact hok s hs

theorem attempt {m : Faulty σ α} {post : Except String α → σ → Prop}
    (h : Ends pre m (fun a s => post (.ok a) s) fun s => ∀ e, post (.error e) s) :
    Ends pre (Faulty.attempt m) post failed := by
  intro s fs hs
  have hrun := h s fs hs
  unfold Faulty.attempt
  cases hcase : m s fs with
  | mk r rest =>
    obtain ⟨s', fs'⟩ := rest
    rw [hcase] at hrun
    cases r with
    | error e => exact hrun e
    | ok a => exact hrun

theorem weaken {m : Faulty σ α} {pre' : σ → Prop} {post' : α → σ → Prop} {failed' : σ → Prop}
    (h : Ends pre m post failed) (hpre : ∀ s, pre' s → pre s) (hpost : ∀ a s, post a s → post' a s)
    (hfail : ∀ s, failed s → failed' s) : Ends pre' m post' failed' := by
  intro s fs hs
  have hrun := h s fs (hpre s hs)
  cases hcase : m s fs with
  | mk r rest =>
    obtain ⟨s', fs'⟩ := rest
    rw [hcase] at hrun
    cases r with
    | error e => exact hfail s' hrun
    | ok a => exact hpost a s' hrun

/-- what the precondition says of no state is known throughout -/
theorem given {m : Faulty σ α} {φ : Prop} (h : φ → Ends pre m post failed) :
    Ends (fun s => φ ∧ pre s) m post failed := fun s fs hs => h hs.1 s fs hs.2

/-- from each state the precondition allows -/
theorem of_each {m : Faulty σ α} (h : ∀ s₁, pre s₁ → Ends (fun s => s = s₁) m post failed) :
    Ends pre m post failed := fun s fs hs => h s hs s fs rfl

/-- a run that ended -/
theorem run_ok {m : Faulty σ α} (h : Ends pre m post failed) {s s' : σ} {fs fs' : Faults} {a : α} (hs : pre s)
    (hrun : m s fs = (.ok a, s', fs')) : post a s' := by
  have hend := h s fs hs
  rwa [hrun] at hend

/-- a run that failed -/
theorem run_error {m : Faulty σ α} (h : Ends pre m post failed) {s s' : σ} {fs fs' : Faults} {e : String} (hs : pre s)
    (hrun : m s fs = (.error e, s', fs')) : failed s' := by
  have hend := h s fs hs
  rwa [hrun] at hend

/-- a run, however it went -/
theorem run {m : Faulty σ α} {Q : σ → Prop} (h : Ends pre m (fun _ => Q) Q) {s : σ} (hs : pre s) (fs : Faults) :
    Q (m s fs).2.1 := by
  rcases hrun : m s fs with ⟨_ | a, s', fs'⟩
  · exact h.run_error hs hrun
  · exact h.run_ok hs hrun

/-- the loop from the items `before` on -/
theorem each_from {f : ι → Faulty σ Unit} {I : List ι → σ → Prop} (is before : List ι)
    (hstep : ∀ done i rest, before ++ is = done ++ i :: rest →
      Ends (I done) (f i) (fun _ => I (done ++ [i])) failed) :
    Ends (I before) (Faulty.each f is) (fun _ => I (before ++ is)) failed := by
  induction is generalizing before with
  | nil =>
    intro s fs hs
    change I (before ++ []) s
    rwa [List.append_nil]
  | cons i is ih =>
    apply bind (hstep before i is rfl)
    intro _
    have hrest := ih (before ++ [i]) fun done j rest heq => hstep done j rest (by rw [← heq]; simp)
    rwa [List.append_assoc] at hrest

/-- **Loop rule.** An invariant over the items that are done. -/
theorem each {f : ι → Faulty σ Unit} {I : List ι → σ → Prop} (is : List ι)
    (hstep : ∀ done i rest, is = done ++ i :: rest → Ends (I done) (f i) (fun _ => I (done ++ [i])) failed) :
    Ends (I []) (Faulty.each f is) (fun _ => I is) failed := each_from is [] hstep

/-- **Loop rule over a range.** -/
theorem each_range {f : ℕ → Faulty σ Unit} {I : ℕ → σ → Prop} (n : ℕ)
    (hstep : ∀ k < n, Ends (I k) (f k) (fun _ => I (k + 1)) failed) :
    Ends (I 0) (Faulty.each f (List.range n)) (fun _ => I n) failed := by
  have hloop : Ends (I ([] : List ℕ).length) (Faulty.each f (List.range n)) (fun _ => I (List.range n).length) failed := by
    refine each (I := fun done => I done.length) _ fun done k rest hsplit => ?_
    have hat : (List.range n)[done.length]? = some k := by
      rw [hsplit, List.getElem?_append_right (le_refl _), Nat.sub_self]
      rfl
    obtain ⟨hlt, hk⟩ := List.getElem?_eq_some_iff.1 hat
    rw [List.length_range] at hlt
    rw [List.getElem_range] at hk
    rw [List.length_append]
    exact hk ▸ hstep done.length hlt
  rwa [List.length_range] at hloop

theorem lift {r : Except String α} (hok : ∀ s a, pre s → r = .ok a → post a s) (hfail : ∀ s, pre s → failed s) :
    Ends pre (Faulty.lift r : Faulty σ α) post failed := by
  intro s fs hs
  cases r with
  | error e => exact hfail s hs
  | ok a => exact hok s a hs rfl

/-- what one item of a loop does: it keeps the frame, goes from its own state before to its own state after, and leaves
the other items where they are -/
def Apart (I : σ → Prop) (P : ι → σ → Prop) (Q : ι → β → σ → Prop) (failed : σ → Prop) (is : List ι)
    (f : ι → Faulty σ β) : Prop :=
  ∀ i ∈ is, ∀ s₁, I s₁ → P i s₁ → Ends (fun s => s = s₁) (f i)
    (fun b s => I s ∧ Q i b s ∧ ∀ j ∈ is, j ≠ i → (P j s₁ → P j s) ∧ ∀ b', Q j b' s₁ → Q j b' s) failed

variable {I : σ → Prop} {P : ι → σ → Prop} {Q : ι → β → σ → Prop} {f : ι → Faulty σ β} {is : List ι}

theorem Apart.tail {i : ι} (h : Apart I P Q failed (i :: is) f) : Apart I P Q failed is f := by
  intro j hj s₁ hI hP
  refine (h j (List.mem_cons_of_mem i hj) s₁ hI hP).weaken (fun _ hs => hs) (fun b s hs => ?_) fun _ hs => hs
  exact ⟨hs.1, hs.2.1, fun k hk => hs.2.2 k (List.mem_cons_of_mem i hk)⟩

theorem collect_from {all : List ι} (hnodup : all.Nodup) (h : Apart I P Q failed all f) (is : List ι) :
    ∀ (before : List ι) (bs₁ : List β) (s₁ : σ), before ++ is = all → I s₁ →
      List.Forall₂ (fun i b => Q i b s₁) before bs₁ → (∀ i ∈ is, P i s₁) →
        Ends (fun s => s = s₁) (Faulty.collect f is)
          (fun bs s => I s ∧ List.Forall₂ (fun i b => Q i b s) all (bs₁ ++ bs)) failed := by
  induction is with
  | nil =>
    intro before bs₁ s₁ hall hI hbefore _ s fs hs
    change I s ∧ List.Forall₂ (fun i b => Q i b s) all (bs₁ ++ [])
    rw [hs, List.append_nil, ← hall, List.append_nil]
    exact ⟨hI, hbefore⟩
  | cons i is ih =>
    intro before bs₁ s₁ hall hI hbefore hP
    have hi : i ∈ all := hall ▸ List.mem_append_right before List.mem_cons_self
    have happ : (before ++ i :: is).Nodup := hall ▸ hnodup
    obtain ⟨-, hrest, hapart⟩ := List.nodup_append.1 happ
    have hin : ∀ j ∈ before, j ∈ all ∧ j ≠ i := fun j hj =>
      ⟨hall ▸ List.mem_append_left _ hj, hapart j hj i List.mem_cons_self⟩
    have hlater : ∀ j ∈ is, j ∈ all ∧ j ≠ i := fun j hj =>
      ⟨hall ▸ List.mem_append_right before (List.mem_cons_of_mem i hj), fun heq =>
        (List.nodup_cons.1 hrest).1 (heq ▸ hj)⟩
    change Ends (fun s => s = s₁) (f i >>= fun b => Faulty.collect f is >>= fun bs => Pure.pure (b :: bs)) _ failed
    refine bind (h i hi s₁ hI (hP i List.mem_cons_self)) fun b => of_each fun s₂ hs₂ => ?_
    obtain ⟨hI₂, hQ, hothers⟩ := hs₂
    have hdone : List.Forall₂ (fun i b => Q i b s₂) (before ++ [i]) (bs₁ ++ [b]) := by
      refine List.rel_append (List.forall₂_iff_zip.2 ⟨hbefore.length_eq, fun {j b'} hj => ?_⟩) (.cons hQ .nil)
      obtain ⟨hj, hne⟩ := hin j (List.of_mem_zip hj).1
      exact (hothers j hj hne).2 b' ((List.forall₂_iff_zip.1 hbefore).2 ‹_›)
    refine bind (ih (before ++ [i]) (bs₁ ++ [b]) s₂ (by rw [List.append_assoc]; exact hall) hI₂ hdone fun j hj => ?_)
      fun bs => pure fun s hs => ?_
    · obtain ⟨hj', hne⟩ := hlater j hj
      exact (hothers j hj' hne).1 (hP j (List.mem_cons_of_mem i hj))
    · rwa [List.append_assoc] at hs

/-- **Items that do not touch each other.** A loop takes each of them from its own state before to its own after. -/
theorem collect_apart (hnodup : is.Nodup) (h : Apart I P Q failed is f) (s₁ : σ) (hI : I s₁) (hP : ∀ i ∈ is, P i s₁) :
    Ends (fun s => s = s₁) (Faulty.collect f is) (fun bs s => I s ∧ List.Forall₂ (fun i b => Q i b s) is bs) failed :=
  collect_from hnodup h is [] [] s₁ rfl hI .nil hP

theorem each_eq_collect (f : ι → Faulty σ Unit) (is : List ι) :
    Faulty.each f is = Faulty.collect f is >>= fun _ => Pure.pure () := by
  induction is with
  | nil => rfl
  | cons i is ih =>
    funext s fs
    change Faulty.bind (f i) (fun _ => Faulty.each f is) s fs =
      Faulty.bind (Faulty.bind (f i) fun b => Faulty.bind (Faulty.collect f is) fun bs => Faulty.pure (b :: bs))
        (fun _ => Faulty.pure ()) s fs
    rw [ih]
    change Faulty.bind (f i) (fun _ => Faulty.bind (Faulty.collect f is) fun _ => Faulty.pure ()) s fs = _
    unfold Faulty.bind
    rcases f i s fs with ⟨_ | u, s', fs'⟩
    · rfl
    · dsimp only
      rcases Faulty.collect f is s' fs' with ⟨_ | us, s'', fs''⟩
      · rfl
      · rfl

theorem each_map {ι' : Type} (f : ι → Faulty σ Unit) (g : ι' → ι) (is : List ι') :
    Faulty.each f (is.map g) = Faulty.each (fun i => f (g i)) is := by
  induction is with
  | nil => rfl
  | cons i is ih => exact congrArg (Faulty.bind (f (g i))) (funext fun _ => ih)

theorem each_apart {f : ι → Faulty σ Unit} {Q : ι → σ → Prop} (hnodup : is.Nodup)
    (h : Apart I P (fun i _ => Q i) failed is f) (s₁ : σ) (hI : I s₁) (hP : ∀ i ∈ is, P i s₁) :
    Ends (fun s => s = s₁) (Faulty.each f is) (fun _ s => I s ∧ ∀ i ∈ is, Q i s) failed := by
  rw [each_eq_collect]
  refine bind (collect_apart hnodup h s₁ hI hP) fun us => pure fun s hs => ⟨hs.1, fun i hi => ?_⟩
  obtain ⟨k, hk⟩ := List.mem_iff_getElem?.1 hi
  obtain ⟨u, -, hQ⟩ := forall₂_getElem? hs.2 hk
  exact hQ

/-! ### From one state

A computation run from a known state, one construct at a time. -/

section Known

variable {k : α → Faulty σ β} {post : β → σ → Prop} {s₁ : σ}

theorem from_pure {b : β} (h : post b s₁) : Ends (fun s => s = s₁) (Pure.pure b : Faulty σ β) post failed :=
  pure fun _ hs => hs ▸ h

theorem from_bind {m : Faulty σ α} {mid : α → σ → Prop} (hm : Ends (fun s => s = s₁) m mid failed)
    (hk : ∀ a s₂, mid a s₂ → Ends (fun s => s = s₂) (k a) post failed) :
    Ends (fun s => s = s₁) (m >>= k) post failed := bind hm fun a => of_each fun s₂ hs₂ => hk a s₂ hs₂

theorem from_get {k : σ → Faulty σ β} (h : Ends (fun s => s = s₁) (k s₁) post failed) :
    Ends (fun s => s = s₁) (Faulty.get >>= k) post failed := by
  intro s fs hs
  have hrun := h s fs hs
  rw [get_bind, hs]
  rwa [hs] at hrun

theorem from_modify {f : σ → σ} {k : Unit → Faulty σ β} (h : Ends (fun s => s = f s₁) (k ()) post failed) :
    Ends (fun s => s = s₁) (Faulty.modify f >>= k) post failed := by
  have hm : Ends (fun s => s = s₁) (Faulty.modify f) (fun _ s => s = f s₁) failed := modify fun _ hs => congrArg f hs
  exact from_bind hm fun _ _ hs₂ => hs₂ ▸ h

theorem from_ensure {p : Prop} [Decidable p] {message : String} {k : Unit → Faulty σ β}
    (hok : p → Ends (fun s => s = s₁) (k ()) post failed) (hfail : ¬ p → failed s₁) :
    Ends (fun s => s = s₁) (Faulty.ensure p message >>= k) post failed := by
  have hm : Ends (fun s => s = s₁) (Faulty.ensure p message) (fun _ s => s = s₁ ∧ p) failed :=
    ensure (fun _ hs hp => ⟨hs, hp⟩) fun _ hs hp => hs ▸ hfail hp
  exact from_bind hm fun _ _ hs₂ => hs₂.1 ▸ hok hs₂.2

theorem from_operate {message : String} {k : Unit → Faulty σ β} (hok : Ends (fun s => s = s₁) (k ()) post failed)
    (hfail : failed s₁) : Ends (fun s => s = s₁) (Faulty.operate message >>= k) post failed := by
  have hm : Ends (fun s => s = s₁) (Faulty.operate message) (fun _ s => s = s₁) failed :=
    operate (fun _ hs => hs) fun _ hs => hs ▸ hfail
  exact from_bind hm fun _ _ hs₂ => hs₂ ▸ hok

theorem from_lift {r : Except String α} (hok : ∀ a, r = .ok a → Ends (fun s => s = s₁) (k a) post failed)
    (hfail : failed s₁) : Ends (fun s => s = s₁) (Faulty.lift r >>= k) post failed := by
  have hm : Ends (fun s => s = s₁) (Faulty.lift r) (fun a s => s = s₁ ∧ r = .ok a) failed :=
    lift (fun _ _ hs hr => ⟨hs, hr⟩) fun _ hs => hs ▸ hfail
  exact from_bind hm fun a _ hs₂ => hs₂.1 ▸ hok a hs₂.2

end Known

end Ends

end Faulty

end Pegainfer.Lib
