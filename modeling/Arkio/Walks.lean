import Mathlib.Data.Set.Finite.Basic
import Mathlib.Logic.Relation
import Mathlib.Order.Preorder.Finite

/-!
# Endless walks of a relation

A relation can be walked for ever from a point if some walk never stops. Where
only finitely many points can be reached, that is so exactly when one of them
can be reached again from itself: an endless walk is then a lasso.
-/
namespace Walks

open Relation

variable {α : Type*} {r : α → α → Prop} {a : α}

/-- Some walk from the point never stops. -/
def Endless (r : α → α → Prop) (a : α) : Prop :=
  ∃ w : ℕ → α, w 0 = a ∧ ∀ i, r (w i) (w (i + 1))

/-- Some point that can be reached can be reached again from itself. -/
def Lasso (r : α → α → Prop) (a : α) : Prop := ∃ d, ReflTransGen r a d ∧ TransGen r d d

theorem reaches_of_walk {w : ℕ → α} (hw : ∀ i, r (w i) (w (i + 1))) (i : ℕ) :
    ReflTransGen r (w 0) (w i) := by
  induction i with
  | zero => exact .refl
  | succ i ih => exact ih.tail (hw i)

theorem transGen_of_walk {w : ℕ → α} (hw : ∀ i, r (w i) (w (i + 1))) {i j : ℕ} (hij : i < j) :
    TransGen r (w i) (w j) := by
  induction j, hij using Nat.le_induction with
  | base => exact .single (hw i)
  | succ j _ ih => exact ih.tail (hw j)

/-- A set of points each of which has a successor in it can be walked for ever. -/
theorem endless_of_invariant {P : α → Prop} (ha : P a) (hstep : ∀ x, P x → ∃ y, P y ∧ r x y) :
    Endless r a := by
  choose! next hnext using hstep
  let w : ℕ → α := fun i => next^[i] a
  have hw : ∀ i, P (w i) := by
    intro i
    induction i with
    | zero => exact ha
    | succ i ih =>
      simp only [w, Function.iterate_succ_apply']
      exact (hnext _ ih).1
  refine ⟨w, rfl, fun i => ?_⟩
  simp only [w, Function.iterate_succ_apply']
  exact (hnext _ (hw i)).2

/-- A lasso can be walked for ever. -/
theorem Lasso.endless (h : Lasso r a) : Endless r a := by
  obtain ⟨d, hreach, hloop⟩ := h
  refine endless_of_invariant (P := fun x => ReflTransGen r x d) hreach ?_
  intro x hx
  obtain rfl | ⟨y, hy, hyd⟩ := ReflTransGen.cases_head hx
  · obtain ⟨y, hy, hyd⟩ := TransGen.head'_iff.mp hloop
    exact ⟨y, hyd, hy⟩
  · exact ⟨y, hyd, hy⟩

/-- A lasso of one relation is a lasso of another that has its steps, as far as
they are taken where an invariant holds. -/
theorem Lasso.imp {s : α → α → Prop} {P : α → Prop} (ha : P a)
    (hstep : ∀ x y, P x → r x y → s x y ∧ P y) (h : Lasso r a) : Lasso s a := by
  have hreach : ∀ {x}, ReflTransGen r a x → ReflTransGen s a x ∧ P x := by
    intro x hx
    induction hx with
    | refl => exact ⟨.refl, ha⟩
    | tail _ hr ih =>
      obtain ⟨hs, hp⟩ := hstep _ _ ih.2 hr
      exact ⟨ih.1.tail hs, hp⟩
  have hloop : ∀ {x y}, P x → TransGen r x y → TransGen s x y ∧ P y := by
    intro x y hx hxy
    induction hxy with
    | single hr =>
      obtain ⟨hs, hp⟩ := hstep _ _ hx hr
      exact ⟨.single hs, hp⟩
    | tail _ hr ih =>
      obtain ⟨hs, hp⟩ := hstep _ _ ih.2 hr
      exact ⟨ih.1.tail hs, hp⟩
  obtain ⟨d, had, hdd⟩ := h
  obtain ⟨hs, hd⟩ := hreach had
  exact ⟨d, hs, (hloop hd hdd).1⟩

/-- Among finitely many points an endless walk is a lasso. -/
theorem endless_iff_lasso (hfin : {x | ReflTransGen r a x}.Finite) : Endless r a ↔ Lasso r a := by
  constructor
  · rintro ⟨w, rfl, hw⟩
    obtain ⟨i, j, hij, heq⟩ :=
      hfin.exists_lt_map_eq_of_forall_mem (f := w) (fun i => reaches_of_walk hw i)
    have hloop := transGen_of_walk hw hij
    rw [← heq] at hloop
    exact ⟨w i, reaches_of_walk hw i, hloop⟩
  · exact Lasso.endless

end Walks
