import Arkio.UringWaker

/-!
# Where a user's closure is

A closure given to `add_sqe` is held by the calling thread, then by the callback
map, then by the batch. The steps between the call and the invocation are
looked at here for what they do to the closures: where every submission that
brings one succeeds, a step leaves all of them where they are or moves one of
them one place further.
-/
namespace UringContext

open Bindings LabelledMachine

section Views

variable {θ π κ : Type}

/-- A user's closure inside `add_sqe`, before and after its SQE is taken. -/
inductive View (π κ : Type) where
  | preparing (op : Op π) (k : κ)
  | taking (tok : Nat) (k : κ)

def View.closure : View π κ → κ
  | .preparing _ k => k
  | .taking _ k => k

/-- The closure a call holds. One that is being cancelled is given up. -/
def Call.view : Call π κ → Option (View π κ)
  | .lockSubmission op (some (.user k)) => some (.preparing op k)
  | .lockCallbacks op (.user k) => some (.preparing op k)
  | .getSqe op (some (.user k)) => some (.preparing op k)
  | .wake tok (some (.user k)) => some (.taking tok k)
  | .insert tok (.user k) => some (.taking tok k)
  | _ => none

theorem Call.view_takes {c : Call π κ} {tok : Nat} {k : κ} (h : c.view = some (.taking tok k)) :
    c.Takes tok := by
  unfold Call.view at h
  split at h <;> simp_all [Call.Takes]

/-- The request and the callback of a call that has not taken its SQE. -/
def Call.Prepares : Call π κ → Op π → Option (Callback κ) → Prop
  | .lockSubmission op cb, op', cb' => op' = op ∧ cb' = cb
  | .lockCallbacks op cb, op', cb' => op' = op ∧ cb' = some cb
  | .getSqe op cb, op', cb' => op' = op ∧ cb' = cb
  | _, _, _ => False

/-- Outside the user's callbacks the loop thread holds no user's closure. -/
def Tidy (s : State θ π κ) : Prop := s.loop.inCallback = false → (s.call .loop).view = none

/-- The kernel call of a submission with a user's closure succeeds. -/
def Call.Succeeds : Call π κ → Nat → Answer → Prop
  | .getSqe _ (some (.user _)), n, _ => n < batchSize
  | .wake _ (some (.user _)), _, ans => ans = .ok
  | _, _, _ => True

/-- The steps of a context between an `add_sqe` that is entered and the
invocation of its closure, completions apart. Every submission with a closure
succeeds, and nobody cancels. -/
def Plain (s : State θ π κ) : Action θ π κ → Prop
  | .enter _ (.addSqe _ _) => False
  | .enter _ (.cancel _) => False
  | .enter _ _ => True
  | .call t ans => (s.call t).Succeeds s.sq.length ans
  | .finish _ => True
  | .loop _ => ∀ r rest k, s.loop = .dispatch (r :: rest) → r.callback ≠ .user k
  | .post _ _ => False

/-- The SQEs' payloads that a history queued. -/
def asks (h : History π κ) : List π :=
  h.filterMap fun e => match e with | .queued _ (.user p) => some p | _ => none

@[simp] theorem asks_append (h h' : History π κ) : asks (h ++ h') = asks h ++ asks h' :=
  List.filterMap_append

theorem asks_quiet {e : History π κ} (he : ∀ x ∈ e, x.Quiet) : asks e = [] :=
  filterMap_quiet he (by rintro (_ | _) <;> simp [Event.Quiet])

/-- The events that change what a call holds. -/
def Event.Hands : Event π κ → Prop
  | .queued _ _ => True
  | .added _ _ => True
  | _ => False

theorem Event.Quiet.not_hands {x : Event π κ} (hx : x.Quiet) : ¬x.Hands := by
  cases x <;> simp_all [Event.Quiet, Event.Hands]

/-- The events of an invocation change no call. -/
theorem not_hands_invoked {e : History π κ} (he : ∀ x ∈ e, x.Quiet) (r : Ready κ) :
    ∀ x ∈ .invoked r :: e, ¬x.Hands := by
  intro x hx
  rcases List.mem_cons.mp hx with rfl | hx
  · exact id
  · exact (he x hx).not_hands

variable [DecidableEq θ]

theorem view_setCall {s s₁ : State θ π κ} {t : Thread θ} {c : Call π κ} (hcall : s₁.call = s.call)
    (hc : c.view = (s.call t).view) (t' : Thread θ) :
    ((s₁.setCall t c).call t').view = (s.call t').view := by
  by_cases ht : t' = t
  · subst t'
    simpa using hc
  · simp [Function.update_of_ne ht, hcall]

theorem Tidy.view_setCall {s s₁ : State θ π κ} {c : Call π κ} (htidy : Tidy s)
    (hpc : s.loop.inCallback = false) (hcall : s₁.call = s.call) (hc : c.view = none)
    (t : Thread θ) : ((s₁.setCall .loop c).call t).view = (s.call t).view :=
  UringContext.view_setCall hcall (by rw [hc, htidy hpc]) t

/-- A submission keeps its closure until the closure is registered. -/
theorem callStep_view {s s' : State θ π κ} {t : Thread θ} {ans : Answer} {e : History π κ}
    (h : callStep s t ans = some (s', e)) (hok : (s.call t).Succeeds s.sq.length ans) :
    (∀ t', (s'.call t').view = (s.call t').view) ∨ ∃ x ∈ e, x.Hands := by
  unfold callStep at h
  cases hc : s.call t with
  | lockSubmission op cb =>
    simp only [hc, Option.ite_none_right_eq_some, Option.some.injEq, Prod.mk.injEq] at h
    obtain ⟨-, rfl, rfl⟩ := h
    refine .inl (view_setCall rfl ?_)
    rw [hc]
    rcases cb with _ | _ | k <;> rfl
  | lockCallbacks op cb =>
    simp only [hc, Option.ite_none_right_eq_some, Option.some.injEq, Prod.mk.injEq] at h
    obtain ⟨-, rfl, rfl⟩ := h
    refine .inl (view_setCall rfl ?_)
    rw [hc]
    cases cb <;> rfl
  | getSqe op cb =>
    simp only [hc] at h hok
    split at h <;> cases h
    · exact .inr ⟨_, List.mem_singleton_self _, trivial⟩
    next hfull =>
      refine .inl (view_setCall rfl ?_)
      rw [hc]
      rcases cb with _ | _ | k
      · rfl
      · rfl
      · exact absurd hok hfull
  | wake tok cb =>
    simp only [hc] at h hok
    split at h
    · split at h <;> cases h
      · refine .inl (view_setCall rfl ?_)
        rw [hc]
        next cb => cases cb <;> rfl
      · exact .inl (view_setCall rfl (by rw [hc]; rfl))
    next err =>
      cases h
      refine .inl (view_setCall rfl ?_)
      rw [hc]
      rcases cb with _ | _ | k
      · rfl
      · rfl
      · cases hok
    · cases h
  | insert tok cb =>
    simp only [hc, Option.some.injEq, Prod.mk.injEq] at h
    obtain ⟨rfl, rfl⟩ := h
    exact .inr ⟨_, List.mem_singleton_self _, trivial⟩
  | cancel tok cb err =>
    simp only [hc, Option.ite_none_right_eq_some, Option.some.injEq, Prod.mk.injEq] at h
    obtain ⟨-, rfl, rfl⟩ := h
    exact .inl (view_setCall rfl (by rw [hc]; rfl))
  | exitWake =>
    simp only [hc] at h
    split at h <;> cases h
    exact .inl (view_setCall rfl (by rw [hc]; rfl))
  | idle => simp [hc] at h
  | returned ret => simp [hc] at h

/-- The loop's own steps move no closure of a call. -/
theorem loopStep_view {s s' : State θ π κ} {ans : Answer} {e : History π κ}
    (h : loopStep s ans = some (s', e)) (htidy : Tidy s) (t : Thread θ) :
    (s'.call t).view = (s.call t).view := by
  unfold loopStep at h
  cases hpc : s.loop with
  | init =>
    simp only [hpc] at h
    split at h <;> cases h
    exact htidy.view_setCall (by rw [hpc]; rfl) rfl rfl t
  | wakerRead rest =>
    simp only [hpc] at h
    repeat' split at h
    all_goals cases h
    · exact htidy.view_setCall (by rw [hpc]; rfl) rfl rfl t
    · exact htidy.view_setCall (by rw [hpc]; rfl) rfl rfl t
  | wakerRearm rest =>
    simp only [hpc] at h
    split at h <;> cases h
    · exact htidy.view_setCall (by rw [hpc]; rfl) rfl rfl t
    · exact htidy.view_setCall (by rw [hpc]; rfl) rfl rfl t
  | dispatch ready =>
    cases ready with
    | nil =>
      simp only [hpc] at h
      cases h
      rfl
    | cons r rest =>
      simp only [hpc, invokeStep] at h
      repeat' split at h
      all_goals cases h
      · rfl
      · rfl
      · exact htidy.view_setCall (by rw [hpc]; rfl) rfl rfl t
  | collect n ready =>
    cases n with
    | zero =>
      simp only [hpc] at h
      cases h
      rfl
    | succ n =>
      simp only [hpc, collectStep] at h
      repeat' split at h
      all_goals cases h
      · rfl
      · rfl
  | check =>
    simp only [hpc, checkStep] at h
    repeat' split at h
    all_goals cases h
    all_goals rfl
  | _ =>
    simp only [hpc] at h
    repeat' split at h
    all_goals cases h
    all_goals rfl

/-- A plain step that neither queues nor registers leaves every held closure
where it is. -/
theorem step_view {s s' : State θ π κ} {a : Action θ π κ} {e : History π κ}
    (h : step s a = some (s', e)) (hp : Plain s a) (htidy : Tidy s) (he : ∀ x ∈ e, ¬x.Hands)
    (t : Thread θ) : (s'.call t).view = (s.call t).view := by
  cases a with
  | call t' ans =>
    refine (callStep_view h hp).resolve_right ?_ t
    rintro ⟨x, hx, hands⟩
    exact he x hx hands
  | loop ans => exact loopStep_view h htidy t
  | enter t' entry =>
    simp only [step, enterStep, Option.ite_none_right_eq_some, Bool.and_eq_true] at h
    obtain ⟨⟨hidle, -⟩, h⟩ := h
    rw [Call.isIdle_iff] at hidle
    cases entry with
    | addSqe op cb => exact absurd hp (by simp [Plain])
    | cancel tok => exact absurd hp (by simp [Plain])
    | wake ans =>
      cases ans with
      | ok => cases h; rfl
      | failed err => cases h; rfl
      | submitted n => cases h
    | exit err =>
      cases h
      exact view_setCall rfl (by rw [hidle]; rfl) t
  | finish t' =>
    simp only [step, finishStep, Option.ite_none_right_eq_some] at h
    obtain ⟨-, h⟩ := h
    split at h <;> cases h
    next hc => exact view_setCall rfl (by rw [hc]; rfl) t
  | post i res => exact absurd hp (by simp [Plain])

/-- A call without a closure does not come by one. -/
theorem callStep_view_none {s s' : State θ π κ} {t : Thread θ} {ans : Answer} {e : History π κ}
    (h : callStep s t ans = some (s', e)) (hnone : (s.call t).view = none) :
    (s'.call t).view = none := by
  unfold callStep at h
  cases hc : s.call t with
  | lockSubmission op cb =>
    simp only [hc, Option.ite_none_right_eq_some, Option.some.injEq, Prod.mk.injEq] at h hnone
    obtain ⟨-, rfl, rfl⟩ := h
    rcases cb with _ | _ | k <;> simp_all [Call.view]
  | lockCallbacks op cb =>
    simp only [hc, Option.ite_none_right_eq_some, Option.some.injEq, Prod.mk.injEq] at h hnone
    obtain ⟨-, rfl, rfl⟩ := h
    cases cb <;> simp_all [Call.view]
  | getSqe op cb =>
    simp only [hc] at h hnone
    split at h <;> cases h
    · rcases cb with _ | _ | k <;> simp_all [Call.view]
    · simp [Call.view]
  | wake tok cb =>
    simp only [hc] at h hnone
    rcases cb with _ | _ | k
    · split at h <;> cases h <;> simp [Call.view]
    · split at h <;> cases h <;> simp [Call.view]
    · simp [Call.view] at hnone
  | insert tok cb =>
    simp only [hc, Option.some.injEq, Prod.mk.injEq] at h
    obtain ⟨rfl, rfl⟩ := h
    simp [Call.view]
  | cancel tok cb err =>
    simp only [hc, Option.ite_none_right_eq_some, Option.some.injEq, Prod.mk.injEq] at h
    obtain ⟨-, rfl, rfl⟩ := h
    simp [Call.view]
  | exitWake =>
    simp only [hc] at h
    split at h <;> cases h
    simp [Call.view]
  | idle => simp [hc] at h
  | returned ret => simp [hc] at h

theorem step_tidy {s s' : State θ π κ} {a : Action θ π κ} {e : History π κ}
    (h : step s a = some (s', e)) (htidy : Tidy s) : Tidy s' := by
  intro hpc'
  cases a with
  | call t ans =>
    obtain ⟨-, hloop, hother⟩ := callStep_counter h
    have hnone : (s.call .loop).view = none := htidy (by rw [← hloop]; exact hpc')
    by_cases ht : t = .loop
    · subst t
      exact callStep_view_none h hnone
    · rw [hother .loop fun he => ht he.symm]
      exact hnone
  | loop ans =>
    rw [loopStep_view h htidy]
    by_cases hpc : s.loop.inCallback = false
    · exact htidy hpc
    · simp only [step, loopStep] at h
      cases hl : s.loop with
      | callback rest =>
        simp only [hl, Option.ite_none_right_eq_some, Call.isIdle_iff] at h
        rw [h.1]
        rfl
      | _ => simp [hl, LoopPc.inCallback] at hpc
  | enter t entry =>
    simp only [step, enterStep, Option.ite_none_right_eq_some, Bool.and_eq_true] at h
    obtain ⟨⟨-, hmay⟩, h⟩ := h
    cases t with
    | loop =>
      repeat' split at h
      all_goals cases h
      all_goals simp_all [State.mayCall]
    | user t =>
      repeat' split at h
      all_goals cases h
      all_goals exact htidy hpc'
  | finish t =>
    simp only [step, finishStep, Option.ite_none_right_eq_some] at h
    obtain ⟨hmay, h⟩ := h
    split at h <;> cases h
    cases t with
    | loop => simp_all [State.mayCall]
    | user t => exact htidy hpc'
  | post i res =>
    simp only [step, postStep] at h
    split at h <;> cases h
    exact htidy hpc'

theorem tidy_start : Tidy (start : State θ π κ) := by
  intro _
  rfl

/-- The loop calls `add_sqe` or `exit`, or lets a callback do so. -/
def LoopPc.Calls : LoopPc κ → Prop
  | .init => True
  | .callback _ => True
  | .wakerRearm _ => True
  | .wakerExit _ => True
  | _ => False

/-- Everywhere else the loop thread is inside no call. -/
def Attends (s : State θ π κ) : Prop := ¬s.loop.Calls → s.call .loop = .idle

theorem step_attends {s s' : State θ π κ} {a : Action θ π κ} {e : History π κ}
    (h : step s a = some (s', e)) (hat : Attends s) : Attends s' := by
  intro hpc'
  cases a with
  | call t ans =>
    obtain ⟨-, hloop, hother⟩ := callStep_counter h
    have hidle : s.call .loop = .idle := hat (by rwa [hloop] at hpc')
    have hne : t ≠ .loop := by
      rintro rfl
      simp [step, callStep, hidle] at h
    rw [hother .loop hne.symm, hidle]
  | loop ans =>
    simp only [step, loopStep] at h
    cases hpc : s.loop with
    | callback rest =>
      simp only [hpc, Option.ite_none_right_eq_some, Option.some.injEq, Prod.mk.injEq] at h
      obtain ⟨hidle, rfl, -⟩ := h
      exact Call.isIdle_iff.mp hidle
    | wakerExit rest =>
      simp only [hpc, Option.ite_none_right_eq_some, Option.some.injEq, Prod.mk.injEq] at h
      obtain ⟨hidle, rfl, -⟩ := h
      exact Call.isIdle_iff.mp hidle
    | init =>
      simp only [hpc] at h
      split at h <;> cases h
      simp
    | wakerRearm rest =>
      simp only [hpc] at h
      split at h <;> cases h
      · simp
      · exact absurd trivial hpc'
    | wakerRead rest =>
      simp only [hpc] at h
      repeat' split at h
      all_goals cases h
      · exact absurd trivial hpc'
      · exact absurd trivial hpc'
    | collect n ready =>
      have hidle : s.call .loop = .idle := hat (by rw [hpc]; exact id)
      cases n with
      | zero =>
        simp only [hpc] at h
        cases h
        exact hidle
      | succ n =>
        simp only [hpc, collectStep] at h
        repeat' split at h
        all_goals cases h
        all_goals exact hidle
    | dispatch ready =>
      have hidle : s.call .loop = .idle := hat (by rw [hpc]; exact id)
      cases ready with
      | nil =>
        simp only [hpc] at h
        cases h
        exact hidle
      | cons r rest =>
        simp only [hpc, invokeStep] at h
        repeat' split at h
        all_goals cases h
        · exact hidle
        · exact hidle
        · exact absurd trivial hpc'
    | _ =>
      have hidle : s.call .loop = .idle := hat (by rw [hpc]; exact id)
      simp only [hpc, checkStep] at h
      repeat' split at h
      all_goals cases h
      all_goals exact hidle
  | enter t entry =>
    simp only [step, enterStep, Option.ite_none_right_eq_some, Bool.and_eq_true] at h
    obtain ⟨⟨-, hmay⟩, h⟩ := h
    cases t with
    | loop =>
      have hcalls : s.loop.Calls := by
        cases hpc : s.loop <;> simp_all [State.mayCall, LoopPc.inCallback, LoopPc.Calls]
      repeat' split at h
      all_goals cases h
      all_goals exact absurd hcalls hpc'
    | user t =>
      repeat' split at h
      all_goals cases h
      all_goals exact hat hpc'
  | finish t =>
    simp only [step, finishStep, Option.ite_none_right_eq_some] at h
    obtain ⟨hmay, h⟩ := h
    split at h <;> cases h
    cases t with
    | loop => simp
    | user t => exact hat hpc'
  | post i res =>
    simp only [step, postStep] at h
    split at h <;> cases h
    exact hat hpc'

theorem attends_start : Attends (start : State θ π κ) := fun hpc => absurd trivial hpc

/-- What a plain step drops from the map was never in it: only a submission
that failed cancels, before it has registered anything. -/
theorem step_cancelled {s s' : State θ π κ} {a : Action θ π κ} {tok : Nat}
    (h : step s a = some (s', [.cancelled tok])) (hp : Plain s a) :
    ∃ t, (s.call t).Takes tok := by
  cases a with
  | call t ans =>
    simp only [step, callStep] at h
    cases hc : s.call t with
    | cancel tok' cb err =>
      simp only [hc, Option.ite_none_right_eq_some, Option.some.injEq, Prod.mk.injEq,
        List.cons.injEq, Event.cancelled.injEq, and_true] at h
      exact ⟨t, by simp [hc, Call.Takes, h.2.2]⟩
    | _ =>
      simp only [hc] at h
      repeat' split at h
      all_goals simp at h
  | loop ans =>
    simp only [step, loopStep, checkStep, collectStep, invokeStep] at h
    repeat' split at h
    all_goals simp at h
  | enter t entry =>
    cases entry with
    | cancel tok => exact absurd hp (by simp [Plain])
    | wake ans => cases ans <;> simp [step, enterStep] at h
    | _ => simp [step, enterStep] at h
  | finish t =>
    simp only [step, finishStep] at h
    repeat' split at h
    all_goals simp at h
  | post i res => exact absurd hp (by simp [Plain])

theorem prepares_setCall {s s₁ : State θ π κ} {t t' : Thread θ} {c : Call π κ} {op : Op π}
    {cb : Option (Callback κ)} (h : ((s₁.setCall t c).call t').Prepares op cb)
    (hcall : s₁.call = s.call) (hc : ∀ op cb, c.Prepares op cb → (s.call t).Prepares op cb) :
    (s.call t').Prepares op cb := by
  by_cases ht : t' = t
  · subst t'
    exact hc op cb (by simpa using h)
  · simpa [Function.update_of_ne ht, hcall] using h

theorem callStep_prepares {s s' : State θ π κ} {t t' : Thread θ} {ans : Answer} {e : History π κ}
    (h : callStep s t ans = some (s', e)) {op : Op π} {cb : Option (Callback κ)}
    (ht : (s'.call t').Prepares op cb) : (s.call t').Prepares op cb := by
  unfold callStep at h
  cases hc : s.call t with
  | lockSubmission op' cb' =>
    simp only [hc, Option.ite_none_right_eq_some, Option.some.injEq, Prod.mk.injEq] at h
    obtain ⟨-, rfl, rfl⟩ := h
    refine prepares_setCall ht rfl fun op cb hop => ?_
    rw [hc]
    cases cb' <;> exact hop
  | lockCallbacks op' cb' =>
    simp only [hc, Option.ite_none_right_eq_some, Option.some.injEq, Prod.mk.injEq] at h
    obtain ⟨-, rfl, rfl⟩ := h
    refine prepares_setCall ht rfl fun op cb hop => ?_
    rw [hc]
    exact hop
  | _ =>
    simp only [hc] at h
    repeat' split at h
    all_goals cases h
    all_goals exact prepares_setCall ht rfl (by simp [Call.Prepares])

/-- A request comes into a call with the call, or it is the waker's. -/
theorem step_prepares {s s' : State θ π κ} {a : Action θ π κ} {e : History π κ}
    (h : step s a = some (s', e)) {t : Thread θ} {op : Op π} {cb : Option (Callback κ)}
    (ht : (s'.call t).Prepares op cb) :
    (s.call t).Prepares op cb ∨ (op = .pollWaker ∧ cb = some .waker) ∨
      ∃ p k, a = .enter t (.addSqe p k) ∧ op = .user p ∧ cb = k.map .user := by
  cases a with
  | call t' ans => exact .inl (callStep_prepares h ht)
  | loop ans =>
    simp only [step, loopStep, checkStep, collectStep, invokeStep] at h
    repeat' split at h
    all_goals cases h
    all_goals
      by_cases hl : t = .loop
      · subst t
        first
          | exact .inl ht
          | exact .inr (.inl ht)
          | exact absurd ht (by simp [Call.Prepares])
      · exact .inl (by simpa [Function.update_of_ne hl] using ht)
  | enter t' entry =>
    simp only [step, enterStep, Option.ite_none_right_eq_some] at h
    obtain ⟨-, h⟩ := h
    repeat' split at h
    all_goals cases h
    · next p k =>
      by_cases hl : t = t'
      · subst t'
        exact .inr (.inr ⟨p, k, rfl, by simpa [Call.Prepares] using ht⟩)
      · exact .inl (by simpa [Function.update_of_ne hl] using ht)
    · exact .inl ht
    · exact .inl ht
    · exact .inl ht
    · exact .inl (prepares_setCall ht rfl (by simp [Call.Prepares]))
  | finish t' =>
    simp only [step, finishStep, Option.ite_none_right_eq_some] at h
    obtain ⟨-, h⟩ := h
    split at h <;> cases h
    exact .inl (prepares_setCall ht rfl (by simp [Call.Prepares]))
  | post i res =>
    simp only [step, postStep] at h
    split at h <;> cases h
    exact .inl ht

end Views

section Places

variable {θ π κ : Type}

/-- The places a closure passes through. -/
inductive Place (θ : Type) where
  | call (t : Thread θ)
  | map (tok : Nat)
  | batch (tok : Nat)

/-- The closure is at this place. -/
def Holds (s : State θ π κ) : Place θ → κ → Prop
  | .call t, k => (s.call t).view.map View.closure = some k
  | .map tok, k => s.callbacks tok = some (.user k)
  | .batch tok, k => ∃ ret, ⟨tok, .user k, ret⟩ ∈ s.loop.pending

theorem holds_of_view {s : State θ π κ} {t : Thread θ} {v : View π κ}
    (h : (s.call t).view = some v) : Holds s (.call t) v.closure := by
  simp [Holds, h]

/-- Steps that put no closure anywhere. -/
theorem holds_frame {s s' : State θ π κ} {l : Place θ} {k : κ} (h : Holds s' l k)
    (hview : ∀ t, (s'.call t).view.map View.closure = (s.call t).view.map View.closure)
    (hcallbacks : ∀ tok k, s'.callbacks tok = some (.user k) → s.callbacks tok = some (.user k))
    (hpending : ∀ tok k ret, ⟨tok, .user k, ret⟩ ∈ s'.loop.pending →
      ⟨tok, .user k, ret⟩ ∈ s.loop.pending) : Holds s l k := by
  cases l with
  | call t =>
    simp only [Holds, hview] at h
    exact h
  | map tok => exact hcallbacks tok k h
  | batch tok =>
    obtain ⟨ret, hret⟩ := h
    exact ⟨ret, hpending tok k ret hret⟩

/-- Every closure stays, or one of them moves. -/
def Moves (s s' : State θ π κ) : Prop :=
  (∀ l k, Holds s' l k → Holds s l k) ∨
    ∃ l₁ l₂ k₀, Holds s l₁ k₀ ∧ ∀ l k, Holds s' l k → (Holds s l k ∧ l ≠ l₁) ∨ (l = l₂ ∧ k = k₀)

variable [DecidableEq θ]

theorem moves_inserted {s : State θ π κ} {t : Thread θ} {tok : Nat} {cb : Callback κ}
    (hcall : s.call t = .insert tok cb) :
    Moves s (({ s with callbacks := Function.update s.callbacks tok (some cb) }.unlock
      (some cb)).setCall t (.returned (.ok tok))) := by
  cases cb with
  | waker =>
    refine .inl fun l k hl => holds_frame hl ?_ ?_ fun _ _ _ hr => hr
    · intro t'
      have hnone : (Call.returned (.ok tok) : Call π κ).view = (s.call t).view := by
        rw [hcall]
        rfl
      exact congrArg _ (view_setCall (s := s) rfl hnone t')
    · intro tok' k' hk
      by_cases ht : tok' = tok
      · simp [ht] at hk
      · simpa [Function.update_of_ne ht] using hk
  | user k₀ =>
    refine .inr ⟨.call t, .map tok, k₀, by simp [Holds, hcall, Call.view, View.closure], ?_⟩
    intro l k hl
    cases l with
    | call t' =>
      by_cases ht : t' = t
      · simp [ht, Holds, Call.view] at hl
      · refine .inl ⟨by simpa [Holds, Function.update_of_ne ht] using hl, ?_⟩
        simpa using ht
    | map tok' =>
      by_cases ht : tok' = tok
      · refine .inr ⟨by rw [ht], ?_⟩
        simp only [Holds, ht, State.setCall_callbacks, State.unlock_callbacks,
          Function.update_self, Option.some.injEq, Callback.user.injEq] at hl
        exact hl.symm
      · exact .inl ⟨by simpa [Holds, Function.update_of_ne ht] using hl, by simp⟩
    | batch tok' => exact .inl ⟨hl, by simp⟩

omit [DecidableEq θ] in
theorem moves_collected {s : State θ π κ} {c : Cqe} {cq : List Cqe} {n : Nat}
    {ready : List (Ready κ)} (hpc : s.loop = .collect (n + 1) ready) :
    Moves s { s with
      callbacks := Function.update s.callbacks c.userData none
      cq := cq
      loop := .collect n (ready ++
        (s.callbacks c.userData).toList.map (⟨c.userData, ·, toResult c.res⟩)) } := by
  have hmap : ∀ tok k, Function.update s.callbacks c.userData none tok = some (.user k) →
      tok ≠ c.userData ∧ s.callbacks tok = some (.user k) := by
    intro tok k hk
    by_cases ht : tok = c.userData
    · simp [ht] at hk
    · exact ⟨ht, by simpa [Function.update_of_ne ht] using hk⟩
  by_cases huser : ∃ k₀, s.callbacks c.userData = some (.user k₀)
  · obtain ⟨k₀, hk₀⟩ := huser
    refine .inr ⟨.map c.userData, .batch c.userData, k₀, hk₀, ?_⟩
    intro l k hl
    cases l with
    | call t => exact .inl ⟨hl, by simp⟩
    | map tok =>
      obtain ⟨hne, hk⟩ := hmap tok k hl
      exact .inl ⟨hk, by simpa using hne⟩
    | batch tok =>
      obtain ⟨ret, hret⟩ := hl
      simp only [LoopPc.pending, hk₀, Option.toList_some, List.map_cons, List.map_nil,
        List.mem_append, List.mem_singleton, Ready.mk.injEq, Callback.user.injEq] at hret
      rcases hret with hret | ⟨htok, hk, -⟩
      · exact .inl ⟨⟨ret, by rw [hpc]; exact hret⟩, by simp⟩
      · exact .inr ⟨by rw [htok], hk⟩
  · refine .inl fun l k hl => holds_frame hl (fun _ => rfl) (fun tok k hk => (hmap tok k hk).2) ?_
    intro tok k ret hret
    simp only [LoopPc.pending, List.mem_append, List.mem_map, Option.mem_toList] at hret
    rw [hpc]
    rcases hret with hret | ⟨cb, hcb, heq⟩
    · exact hret
    · simp only [Ready.mk.injEq] at heq
      exact absurd ⟨k, by rw [hcb, heq.2.1]⟩ huser

theorem step_moves {s s' : State θ π κ} {a : Action θ π κ} {e : History π κ}
    (h : step s a = some (s', e)) (hp : Plain s a) (htidy : Tidy s) : Moves s s' := by
  cases step_change h with
  | quiet e he hsame =>
    have hv := step_view h hp htidy fun x hx => (he x hx).not_hands
    refine .inl fun l k hl => holds_frame hl (fun t => by rw [hv]) ?_ ?_
    · rw [hsame.callbacks]
      exact fun _ _ hk => hk
    · rw [hsame.pending]
      exact fun _ _ _ hr => hr
  | took t op cb hcall hroom hs =>
    subst hs
    refine .inl fun l k hl => holds_frame hl ?_ (fun _ _ hk => hk) fun _ _ _ hr => hr
    intro t'
    by_cases ht : t' = t
    · rw [ht, hcall]
      rcases cb with _ | _ | k <;> simp [Call.view, View.closure]
    · simp [Function.update_of_ne ht]
  | inserted t tok cb hcall hs =>
    subst hs
    exact moves_inserted hcall
  | erased tok hcallbacks hsq hinflight hcq hidx hpending htakes =>
    have hv := step_view h hp htidy (by simp [Event.Hands])
    refine .inl fun l k hl => holds_frame hl (fun t => by rw [hv]) ?_ ?_
    · intro tok' k' hk
      rw [hcallbacks] at hk
      by_cases ht : tok' = tok
      · simp [ht] at hk
      · simpa [Function.update_of_ne ht] using hk
    · rw [hpending]
      exact fun _ _ _ hr => hr
  | submitted n hfree hpc hs =>
    subst hs
    refine .inl fun l k hl => holds_frame hl (fun _ => rfl) (fun _ _ hk => hk) ?_
    simp [LoopPc.pending]
  | posted i q res hq hs =>
    subst hs
    exact .inl fun l k hl => hl
  | collected c cq n ready hcq hpc hs =>
    subst hs
    exact moves_collected hpc
  | invoked r rest e he hpc hpending hsq hinflight hcq hcallbacks hidx htakes =>
    have hv := step_view h hp htidy (not_hands_invoked he r)
    refine .inl fun l k hl => holds_frame hl (fun t => by rw [hv]) ?_ ?_
    · rw [hcallbacks]
      exact fun _ _ hk => hk
    · rw [hpending, hpc]
      exact fun _ _ _ hr => List.mem_cons_of_mem r hr

end Places

end UringContext
