/-
Obligations that a run discharges.

An obligation is open with a rank, a bound on the work still ahead of it. Every operation keeps it open at no larger
rank or meets it, and a productive operation lowers the rank.
- `Ranked.eventually`: a run with as many productive operations as the rank meets the obligation on the way.
-/
import Mathlib.Tactic

namespace Pegainfer.Lib

variable {σ ο : Type*}

/-- how the operations `P` allows treat an obligation -/
structure Ranked (step : σ → ο → σ) (P : ο → Prop) (productive : ο → Bool) (Open : ℕ → σ → Prop)
    (Met : σ → Prop) : Prop where
  positive : ∀ s, ¬ Open 0 s
  keep : ∀ n s o, P o → Open n s → Met (step s o) ∨ ∃ m ≤ n, Open m (step s o)
  progress : ∀ n s o, P o → productive o = true → Open n s → Met (step s o) ∨ ∃ m < n, Open m (step s o)

variable {step : σ → ο → σ} {P : ο → Prop} {productive : ο → Bool} {Open : ℕ → σ → Prop} {Met : σ → Prop}

/-- **Ranking rule.** Enough productive operations meet an open obligation. -/
theorem Ranked.eventually (h : Ranked step P productive Open Met) (ops : List ο) :
    ∀ n s, (∀ o ∈ ops, P o) → Open n s → n ≤ ops.countP productive →
      ∃ init, init <+: ops ∧ Met (init.foldl step s) := by
  induction ops with
  | nil =>
    intro n s _ hopen hcount
    obtain rfl := Nat.le_zero.1 hcount
    exact absurd hopen (h.positive s)
  | cons o ops ih =>
    intro n s hP hopen hcount
    have hhead : P o := hP o List.mem_cons_self
    have hnext : Met (step s o) ∨ ∃ m ≤ ops.countP productive, Open m (step s o) := by
      by_cases hprod : productive o = true
      · rw [List.countP_cons_of_pos hprod] at hcount
        rcases h.progress n s o hhead hprod hopen with hmet | ⟨m, hlt, hopen'⟩
        · exact .inl hmet
        · exact .inr ⟨m, Nat.le_of_lt_succ (hlt.trans_le hcount), hopen'⟩
      · rw [List.countP_cons_of_neg hprod] at hcount
        rcases h.keep n s o hhead hopen with hmet | ⟨m, hle, hopen'⟩
        · exact .inl hmet
        · exact .inr ⟨m, hle.trans hcount, hopen'⟩
    rcases hnext with hmet | ⟨m, hle, hopen'⟩
    · exact ⟨[o], List.prefix_cons_inj o |>.2 List.nil_prefix, hmet⟩
    · obtain ⟨init, hinit, hmet⟩ := ih m (step s o) (fun o' hin => hP o' (List.mem_cons_of_mem _ hin)) hopen' hle
      exact ⟨o :: init, (List.prefix_cons_inj o).2 hinit, hmet⟩

end Pegainfer.Lib
