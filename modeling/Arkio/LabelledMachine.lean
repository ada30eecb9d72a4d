import Mathlib.Data.List.Basic
import Mathlib.Tactic.Tauto

/-!
# Labelled machines and their histories

A machine is a partial step function: in a state, an action is either not
enabled or leads to one state and emits finitely many events. All choice is in
the actions. `Run` is the set of finite executions whose steps all meet a side
condition `ok`, together with the history of the events they emitted.

Invariants relate the history to the state. `Justified` is the history form of
a precedence property: every event of a history is allowed by the events that
came before it. `Since` is the past operator: some event happened, and none of
a second kind happened after it.
-/
namespace LabelledMachine

variable {σ α ε : Type*}

/-- The executions from `s₀` whose steps all meet `ok`, with their histories. -/
inductive Run (step : σ → α → Option (σ × List ε)) (ok : σ → α → Prop) (s₀ : σ) :
    List ε → σ → Prop where
  | start : Run step ok s₀ [] s₀
  | next {h e : List ε} {s s' : σ} {a : α} :
      Run step ok s₀ h s → ok s a → step s a = some (s', e) → Run step ok s₀ (h ++ e) s'

/-- The side condition of an execution that is not restricted. -/
def Always (_ : σ) (_ : α) : Prop := True

instance (s : σ) (a : α) : Decidable (Always s a) := isTrue trivial

variable {step : σ → α → Option (σ × List ε)} {ok ok' : σ → α → Prop} {s₀ s s' : σ}
  {h h' : List ε}

/-- The invariant rule: what holds at the start and is kept by every step that
meets the side condition holds after every execution. -/
theorem Run.invariant {P : List ε → σ → Prop} (hrun : Run step ok s₀ h s)
    (hstart : P [] s₀)
    (hstep : ∀ h s a s' e, P h s → ok s a → step s a = some (s', e) → P (h ++ e) s') :
    P h s := by
  induction hrun with
  | start => exact hstart
  | next _ hok hs ih => exact hstep _ _ _ _ _ ih hok hs

/-- The rule with an invariant that is already known: each step may use it. -/
theorem Run.invariant_under {I P : List ε → σ → Prop} (hrun : Run step ok s₀ h s)
    (hI : ∀ h s, Run step ok s₀ h s → I h s) (hstart : P [] s₀)
    (hstep : ∀ h s a s' e, I h s → P h s → ok s a → step s a = some (s', e) →
      P (h ++ e) s') :
    P h s := by
  induction hrun with
  | start => exact hstart
  | next hr hok hs ih => exact hstep _ _ _ _ _ (hI _ _ hr) ih hok hs

theorem Run.mono (hrun : Run step ok s₀ h s) (hok : ∀ s a, ok s a → ok' s a) :
    Run step ok' s₀ h s := by
  induction hrun with
  | start => exact .start
  | next _ ha hs ih => exact .next ih (hok _ _ ha) hs

theorem Run.always (hrun : Run step ok s₀ h s) : Run step Always s₀ h s :=
  hrun.mono (fun _ _ _ => trivial)

theorem Run.trans (hrun : Run step ok s₀ h s) (hrun' : Run step ok s h' s') :
    Run step ok s₀ (h ++ h') s' := by
  induction hrun' with
  | start => simpa using hrun
  | next _ hok hs ih =>
    rw [← List.append_assoc]
    exact .next ih hok hs

theorem Run.single {a : α} {e : List ε} (hok : ok s a) (hs : step s a = some (s', e)) :
    Run step ok s e s' := by
  simpa using Run.next .start hok hs

/-- Execute a list of actions; `none` when one of them is not enabled. -/
def exec (step : σ → α → Option (σ × List ε)) : σ → List α → Option (σ × List ε)
  | s, [] => some (s, [])
  | s, a :: as =>
    match step s a with
    | none => none
    | some (s', e) =>
      match exec step s' as with
      | none => none
      | some (s'', e') => some (s'', e ++ e')

/-- The machine whose actions are enabled only under the side condition. -/
def restrict (step : σ → α → Option (σ × List ε)) (ok : σ → α → Prop)
    [∀ s a, Decidable (ok s a)] (s : σ) (a : α) : Option (σ × List ε) :=
  if ok s a then step s a else none

theorem exec_restrict_run [∀ s a, Decidable (ok s a)] (as : List α)
    (hx : exec (restrict step ok) s as = some (s', h)) : Run step ok s h s' := by
  induction as generalizing s h with
  | nil =>
    simp only [exec, Option.some.injEq, Prod.mk.injEq] at hx
    obtain ⟨rfl, rfl⟩ := hx
    exact .start
  | cons a as ih =>
    simp only [exec, restrict] at hx
    split at hx
    · cases hx
    next s₁ e hs =>
      split at hx
      · cases hx
      next s₂ e' hx' =>
        simp only [Option.some.injEq, Prod.mk.injEq] at hx
        obtain ⟨rfl, rfl⟩ := hx
        have hok : ok s a := by
          by_contra hno
          simp [hno] at hs
        rw [if_pos hok] at hs
        exact (Run.single hok hs).trans (ih hx')

instance : DecidablePred (Always s : α → Prop) := fun _ => isTrue trivial

theorem restrict_always : restrict step Always = step := by
  funext s a
  exact if_pos trivial

theorem exec_run (as : List α) (hx : exec step s as = some (s', h)) :
    Run step Always s h s' :=
  exec_restrict_run as (by rw [restrict_always]; exact hx)

/-- A list of actions that executes to where a decidable property holds is a run
to there. -/
theorem exists_run_of_exec [∀ s a, Decidable (ok s a)] {P : List ε → σ → Prop}
    [∀ h s, Decidable (P h s)] (as : List α)
    (hx : (exec (restrict step ok) s as).any (fun r => decide (P r.2 r.1)) = true) :
    ∃ h s', Run step ok s h s' ∧ P h s' := by
  rw [Option.any_eq_true] at hx
  obtain ⟨⟨s', h⟩, he, hp⟩ := hx
  exact ⟨h, s', exec_restrict_run as he, of_decide_eq_true hp⟩

/-- Every event of the history is allowed by the events before it. -/
def Justified (J : List ε → ε → Prop) (h : List ε) : Prop :=
  ∀ h₁ e h₂, h = h₁ ++ e :: h₂ → J h₁ e

theorem justified_nil (J : List ε → ε → Prop) : Justified J [] := by
  intro h₁ e h₂ he
  simp at he

@[simp] theorem justified_append_singleton (J : List ε → ε → Prop) (h : List ε) (e : ε) :
    Justified J (h ++ [e]) ↔ Justified J h ∧ J h e := by
  constructor
  · intro hj
    refine ⟨fun h₁ e' h₂ he => hj h₁ e' (h₂ ++ [e]) (by simp [he]), hj h e [] rfl⟩
  · rintro ⟨hj, he⟩ h₁ e' h₂ heq
    rcases List.eq_nil_or_concat h₂ with rfl | ⟨h₃, e₃, rfl⟩
    · obtain ⟨rfl, hc⟩ := List.append_inj' heq rfl
      simp only [List.cons.injEq, and_true] at hc
      exact hc ▸ he
    · rw [List.concat_eq_append, ← List.cons_append, ← List.append_assoc] at heq
      exact hj h₁ e' h₃ (List.append_inj' heq rfl).1

theorem Justified.of_append {J : List ε → ε → Prop} (hj : Justified J (h ++ h')) :
    Justified J h := by
  intro h₁ e h₂ he
  exact hj h₁ e (h₂ ++ h') (by simp [he])

theorem justified_iff_take (J : List ε → ε → Prop) (h : List ε) :
    Justified J h ↔ ∀ n : Fin h.length, J (h.take n) h[n] := by
  constructor
  · intro hj n
    exact hj _ _ (h.drop (n + 1)) (by simp)
  · rintro hj h₁ e h₂ rfl
    simpa using hj ⟨h₁.length, by simp⟩

instance (J : List ε → ε → Prop) [∀ h e, Decidable (J h e)] : DecidablePred (Justified J) :=
  fun h => decidable_of_iff _ (justified_iff_take J h).symm

theorem Justified.append {J : List ε → ε → Prop} {e : List ε} (hj : Justified J h)
    (he : ∀ h' x, x ∈ e → J h' x) : Justified J (h ++ e) := by
  induction e generalizing h with
  | nil => simpa using hj
  | cons x e ih =>
    rw [← List.singleton_append, ← List.append_assoc]
    refine ih ?_ (fun h' y hy => he h' y (List.mem_cons_of_mem x hy))
    rw [justified_append_singleton]
    exact ⟨hj, he h x List.mem_cons_self⟩

/-- An event with `P` happened, and since then none with `Q`. -/
def Since (P Q : ε → Prop) (h : List ε) : Prop :=
  ∃ h₁ e h₂, h = h₁ ++ e :: h₂ ∧ P e ∧ ∀ e' ∈ h₂, ¬Q e'

@[simp] theorem not_since_nil (P Q : ε → Prop) : ¬Since P Q [] := by
  rintro ⟨h₁, e, h₂, he, -⟩
  simp at he

@[simp] theorem since_append_singleton (P Q : ε → Prop) (h : List ε) (e : ε) :
    Since P Q (h ++ [e]) ↔ P e ∨ (Since P Q h ∧ ¬Q e) := by
  constructor
  · rintro ⟨h₁, e', h₂, heq, hp, hq⟩
    rcases List.eq_nil_or_concat h₂ with rfl | ⟨h₃, e₃, rfl⟩
    · obtain ⟨rfl, hc⟩ := List.append_inj' heq rfl
      simp only [List.cons.injEq, and_true] at hc
      exact .inl (hc ▸ hp)
    · simp only [List.concat_eq_append, List.mem_append, List.mem_singleton] at hq
      rw [List.concat_eq_append, ← List.cons_append, ← List.append_assoc] at heq
      obtain ⟨rfl, hc⟩ := List.append_inj' heq rfl
      simp only [List.cons.injEq, and_true] at hc
      refine .inr ⟨⟨h₁, e', h₃, rfl, hp, fun x hx => hq x (.inl hx)⟩, ?_⟩
      exact hc ▸ hq e₃ (.inr rfl)
  · rintro (hp | ⟨⟨h₁, e', h₂, rfl, hp, hq⟩, hn⟩)
    · exact ⟨h, e, [], rfl, hp, by simp⟩
    · refine ⟨h₁, e', h₂ ++ [e], by simp, hp, ?_⟩
      intro x hx
      rcases List.mem_append.mp hx with hx | hx
      · exact hq x hx
      · rw [List.mem_singleton.mp hx]
        exact hn

/-- Events of neither kind change nothing. -/
theorem since_append_of_forall {P Q : ε → Prop} {e : List ε} (he : ∀ x ∈ e, ¬P x ∧ ¬Q x) :
    Since P Q (h ++ e) ↔ Since P Q h := by
  induction e generalizing h with
  | nil => simp
  | cons x e ih =>
    rw [← List.singleton_append, ← List.append_assoc,
      ih (fun y hy => he y (List.mem_cons_of_mem x hy)), since_append_singleton]
    have hx := he x List.mem_cons_self
    tauto

theorem Since.exists_mem {P Q : ε → Prop} (hs : Since P Q h) : ∃ e ∈ h, P e := by
  obtain ⟨h₁, e, h₂, rfl, hp, -⟩ := hs
  exact ⟨e, by simp, hp⟩

/-- What happened and was never followed by `Q` at all holds since. -/
theorem since_of_forall_not {P Q : ε → Prop} {e : ε} (he : e ∈ h) (hp : P e)
    (hq : ∀ e' ∈ h, ¬Q e') : Since P Q h := by
  obtain ⟨h₁, h₂, rfl⟩ := List.append_of_mem he
  exact ⟨h₁, e, h₂, rfl, hp, fun x hx => hq x (by simp [hx])⟩

/-- A projection of the history that takes one kind of event. -/
theorem mem_filterMap_of {β : Type*} {f : ε → Option β} {g : β → ε}
    (hf : ∀ e b, f e = some b ↔ e = g b) {h : List ε} {b : β} :
    b ∈ h.filterMap f ↔ g b ∈ h := by
  simp [List.mem_filterMap, hf]

end LabelledMachine
