import Mathlib.Data.List.Infix
import Mathlib.Logic.Function.Iterate

/-!
# Executions of deterministic machines

A machine is a total step function; where it has come to rest it stays.
`Leads` follows it from a state for some number of steps at least. What a
machine has shown, as a list that only grows, can be compared along its
execution.
-/
namespace Executions

variable {σ ε : Type*} {step : σ → σ} {a b : σ} {P R : σ → Prop} {n k : Nat}

/-- After `n` steps or more the machine is where `P` holds. -/
def Leads (step : σ → σ) (n : Nat) (a : σ) (P : σ → Prop) : Prop := ∃ i, n ≤ i ∧ P (step^[i] a)

theorem Leads.here (h : P a) : Leads step 0 a P := ⟨0, Nat.le_refl 0, h⟩

theorem Leads.next (hs : step a = b) (h : Leads step n b P) : Leads step (n + 1) a P := by
  subst hs
  obtain ⟨i, hi, hp⟩ := h
  exact ⟨i + 1, by omega, hp⟩

/-- The step before counts for nothing. -/
theorem Leads.after (hs : step a = b) (h : Leads step n b P) : Leads step n a P := by
  subst hs
  obtain ⟨i, hi, hp⟩ := h
  exact ⟨i + 1, by omega, hp⟩

theorem Leads.weaken (h : Leads step n a P) (hk : k ≤ n) : Leads step k a P := by
  obtain ⟨i, hi, hp⟩ := h
  exact ⟨i, by omega, hp⟩

theorem Leads.imp (h : Leads step n a P) (himp : ∀ b, P b → R b) : Leads step n a R := by
  obtain ⟨i, hi, hp⟩ := h
  exact ⟨i, hi, himp _ hp⟩

/-- Runs follow one another. -/
theorem Leads.trans (h : Leads step n a P) (hnext : ∀ b, P b → Leads step k b R) :
    Leads step (n + k) a R := by
  obtain ⟨i, hi, hp⟩ := h
  obtain ⟨j, hj, hr⟩ := hnext _ hp
  refine ⟨j + i, by omega, ?_⟩
  rw [Function.iterate_add_apply]
  exact hr

/-- A machine at rest stays there. -/
theorem iterate_rest {i j : Nat} (hrest : step (step^[i] a) = step^[i] a) (hij : i ≤ j) :
    step^[j] a = step^[i] a := by
  induction j, hij using Nat.le_induction with
  | base => rfl
  | succ j _ ih => rw [Function.iterate_succ_apply', ih, hrest]

theorem shown_prefix {shown : σ → List ε} (hgrow : ∀ a, shown a <+: shown (step a)) {i j : Nat}
    (hij : i ≤ j) : shown (step^[i] a) <+: shown (step^[j] a) := by
  induction j, hij using Nat.le_induction with
  | base => exact List.prefix_rfl
  | succ j _ ih =>
    rw [Function.iterate_succ_apply']
    exact ih.trans (hgrow _)

end Executions
