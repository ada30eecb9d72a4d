import Arkio.UringWakeup

/-!
# What `run` returns

The exit flag and the exit error are written by the user's calls of `exit`, and
also by the waker's callback when it cannot go on. `asked` says what the user's
calls since the last return of `run` ask for. Where no call of the kernel fails
and every re-arm of the waker finds a free SQE, `run` returns that and nothing
else; where a re-arm finds the ring full, it returns an error nobody asked for.
-/
namespace UringContext

open Bindings LabelledMachine

variable {θ π κ : Type}

/-- What one event does to the pending request. An `exit` without an error keeps
the error of an earlier one. -/
def askedStep (asked : Option (Result Unit)) : Event π κ → Option (Result Unit)
  | .returned _ => none
  | .exitCalled (some e) => some (.error e)
  | .exitCalled none => some (asked.getD (.ok ()))
  | _ => asked

/-- What the user's calls of `exit` since the last return of `run` ask for. -/
def asked (h : History π κ) : Option (Result Unit) := h.foldl askedStep none

@[simp] theorem asked_nil : asked ([] : History π κ) = none := rfl

@[simp] theorem asked_append_singleton (h : History π κ) (e : Event π κ) :
    asked (h ++ [e]) = askedStep (asked h) e := by
  simp [asked]

/-- The events that leave the request alone. -/
def Event.Unasked : Event π κ → Prop
  | .returned _ => False
  | .exitCalled _ => False
  | .wakerExited _ => False
  | _ => True

theorem asked_append_unasked {h e : History π κ} (he : ∀ x ∈ e, x.Unasked) :
    asked (h ++ e) = asked h := by
  induction e generalizing h with
  | nil => simp
  | cons x e ih =>
    have hx := he x List.mem_cons_self
    rw [← List.singleton_append, ← List.append_assoc,
      ih fun y hy => he y (List.mem_cons_of_mem x hy), asked_append_singleton]
    cases x with
    | returned ret => exact hx.elim
    | exitCalled err => exact hx.elim
    | wakerExited err => exact hx.elim
    | _ => rfl

def Event.IsExit : Event π κ → Prop
  | .exitCalled _ => True
  | _ => False

def Event.IsReturn : Event π κ → Prop
  | .returned _ => True
  | _ => False

/-- Something is asked exactly when `exit` was called since the last return. -/
theorem asked_isSome_iff (h : History π κ) :
    (asked h).isSome = true ↔ Since Event.IsExit Event.IsReturn h := by
  induction h using List.reverseRecOn with
  | nil => simp
  | append_singleton h e ih =>
    rw [asked_append_singleton, since_append_singleton, ← ih]
    cases e with
    | exitCalled err => cases err <;> simp [askedStep, Event.IsExit]
    | _ => simp [askedStep, Event.IsExit, Event.IsReturn]

/-- What a step does to the exit flag and the exit error. -/
inductive ExitChange (s s' : State θ π κ) : Action θ π κ → History π κ → Prop where
  | kept (a : Action θ π κ) (e : History π κ) (he : ∀ x ∈ e, x.Unasked)
      (hexiting : s'.exiting = s.exiting) (herror : s'.exitingError = s.exitingError) :
      ExitChange s s' a e
  | called (t : Thread θ) (err : Option ErrorCode) (hexiting : s'.exiting = true)
      (herror : s'.exitingError = err.getD s.exitingError) :
      ExitChange s s' (.enter t (.exit err)) [.exitCalled err]
  | returned (ans : Answer) (hpc : s.loop = .check) (hasked : s.exiting = true)
      (hexiting : s'.exiting = false)
      (herror : s'.exitingError = if s.exitingError.isError then .none else s.exitingError) :
      ExitChange s s' (.loop ans)
        [.returned (if s.exitingError.isError then .error s.exitingError else .ok ())]
  | waitFailed (err : ErrorCode) (hpc : s.loop = .wait) :
      ExitChange s s' (.loop (.failed err)) [.returned (.error err)]
  | wakerExited (a : Action θ π κ) (e : History π κ) (rest : List (Ready κ))
      (hpc : s'.loop = .wakerExit rest) : ExitChange s s' a e

variable [DecidableEq θ]

theorem callStep_exit {s s' : State θ π κ} {t : Thread θ} {ans : Answer} {e : History π κ}
    (h : callStep s t ans = some (s', e)) : ExitChange s s' (.call t ans) e := by
  unfold callStep at h
  repeat' split at h
  all_goals cases h
  all_goals exact .kept _ _ (by simp [Event.Unasked]) rfl rfl

theorem enterStep_exit {s s' : State θ π κ} {t : Thread θ} {entry : Entry π κ}
    {e : History π κ} (h : enterStep s t entry = some (s', e)) :
    ExitChange s s' (.enter t entry) e := by
  simp only [enterStep, Option.ite_none_right_eq_some] at h
  obtain ⟨-, h⟩ := h
  repeat' split at h
  all_goals cases h
  all_goals first
    | exact .kept _ _ (by simp [Event.Unasked]) rfl rfl
    | exact .called _ _ rfl rfl

omit [DecidableEq θ] in
theorem checkStep_exit {s : State θ π κ} (hpc : s.loop = .check) (ans : Answer) :
    ExitChange s (checkStep s).1 (.loop ans) (checkStep s).2 := by
  cases hexit : s.exiting with
  | false =>
    have hs : checkStep s = ({ s with loop := .submit }, []) := by simp [checkStep, hexit]
    rw [hs]
    exact .kept _ _ (by simp) rfl rfl
  | true =>
    have hevent : (checkStep s).2 =
        [.returned (if s.exitingError.isError then .error s.exitingError else .ok ())] := by
      cases herr : s.exitingError.isError <;> simp [checkStep, hexit, herr]
    rw [hevent]
    refine .returned ans hpc hexit ?_ ?_
    · cases herr : s.exitingError.isError <;> simp [checkStep, hexit, herr]
    · cases herr : s.exitingError.isError <;> simp [checkStep, hexit, herr]

theorem loopStep_exit {s s' : State θ π κ} {ans : Answer} {e : History π κ}
    (h : loopStep s ans = some (s', e)) : ExitChange s s' (.loop ans) e := by
  unfold loopStep at h
  cases hpc : s.loop with
  | check =>
    simp only [hpc, Option.some.injEq] at h
    have hch := checkStep_exit hpc ans
    rw [h] at hch
    exact hch
  | wait =>
    simp only [hpc] at h
    repeat' split at h
    all_goals cases h
    · exact .kept _ _ (by simp) rfl rfl
    · exact .waitFailed _ hpc
  | collect n ready =>
    cases n <;> simp only [hpc, collectStep] at h
    all_goals
      repeat' split at h
      all_goals cases h
      all_goals exact .kept _ _ (by simp [Event.Unasked]) rfl rfl
  | dispatch ready =>
    cases ready <;> simp only [hpc, invokeStep] at h
    all_goals
      repeat' split at h
      all_goals cases h
      all_goals first
        | exact .kept _ _ (by simp [Event.Unasked]) rfl rfl
        | exact .wakerExited _ _ _ rfl
  | _ =>
    simp only [hpc] at h
    repeat' split at h
    all_goals cases h
    all_goals first
      | exact .kept _ _ (by simp [Event.Unasked]) rfl rfl
      | exact .wakerExited _ _ _ rfl

/-- The exit flag and error change in the user's `exit`, in the exit check of
`run` and in the waker's own `exit` only. -/
theorem step_exit {s s' : State θ π κ} {a : Action θ π κ} {e : History π κ}
    (h : step s a = some (s', e)) : ExitChange s s' a e := by
  cases a with
  | enter t entry => exact enterStep_exit h
  | call t ans => exact callStep_exit h
  | loop ans => exact loopStep_exit h
  | finish t =>
    simp only [step, finishStep] at h
    repeat' split at h
    all_goals cases h
    exact .kept _ _ (by simp) rfl rfl
  | post i res =>
    simp only [step, postStep] at h
    split at h <;> cases h
    exact .kept _ _ (by simp [Event.Unasked]) rfl rfl

/-- `wait` does not fail. -/
def WaitOk (s : State θ π κ) : Action θ π κ → Prop
  | .loop (.failed _) => s.loop ≠ .wait
  | _ => True

/-- No call of the kernel fails. -/
structure Faultless (s : State θ π κ) (a : Action θ π κ) : Prop where
  kernel : KernelOk s a
  wait : WaitOk s a

omit [DecidableEq θ] in
theorem faultless_iff {s : State θ π κ} {a : Action θ π κ} :
    Faultless s a ↔ KernelOk s a ∧ WaitOk s a :=
  ⟨fun h => ⟨h.kernel, h.wait⟩, fun h => ⟨h.1, h.2⟩⟩

/-- The error handed to `exit` is one: its `error_code` tests true. -/
def ExitsWithError : Action θ π κ → Prop
  | .enter _ (.exit (some err)) => err.isError = true
  | _ => True

/-- The steps that keep `run` to what was asked. -/
structure Orderly (s : State θ π κ) (a : Action θ π κ) : Prop where
  faultless : Faultless s a
  room : RearmRoom s a
  exits : ExitsWithError a

omit [DecidableEq θ] in
theorem Orderly.healthy {s : State θ π κ} {a : Action θ π κ} (h : Orderly s a) : Healthy s a :=
  ⟨h.faultless.kernel, h.room⟩

/-- A return of `run` gives what was asked for, which includes that `exit` was
called since the previous one, and leaves no collected callback behind. -/
def ReturnsAsked (h : History π κ) (e : Event π κ) : Prop :=
  ∀ ret, e = .returned ret → asked h = some ret ∧ invoked h = extracted h

/-- The error that a request carries. -/
def askedError : Option (Result Unit) → ErrorCode
  | some (.error e) => e
  | _ => .none

/-- The exit flag and the exit error are what the history asks for. -/
structure ExitState (h : History π κ) (s : State θ π κ) : Prop where
  flag : s.exiting = (asked h).isSome
  error : s.exitingError = askedError (asked h)
  genuine : ∀ e, asked h = some (.error e) → e.isError = true
  returned : Justified ReturnsAsked h

omit [DecidableEq θ] in
/-- The exit check answers the request. -/
theorem ExitState.answer {h : History π κ} {s : State θ π κ} (hi : ExitState h s)
    (hexit : s.exiting = true) :
    asked h = some (if s.exitingError.isError then .error s.exitingError else .ok ()) := by
  have hsome := hi.flag
  rw [hexit] at hsome
  obtain ⟨ret, hret⟩ := Option.isSome_iff_exists.mp hsome.symm
  have herr := hi.error
  rw [hret] at herr ⊢
  cases ret with
  | ok v => simp [herr, askedError, ErrorCode.isError, ErrorCode.none]
  | error e =>
    have hgen := hi.genuine e hret
    simp only [askedError] at herr
    simp [herr, hgen]

omit [DecidableEq θ] in
theorem ExitState.kept {h e : History π κ} {s s' : State θ π κ} (hi : ExitState h s)
    (he : ∀ x ∈ e, x.Unasked) (hexiting : s'.exiting = s.exiting)
    (herror : s'.exitingError = s.exitingError) : ExitState (h ++ e) s' where
  flag := by rw [hexiting, asked_append_unasked he, hi.flag]
  error := by rw [herror, asked_append_unasked he, hi.error]
  genuine := by rw [asked_append_unasked he]; exact hi.genuine
  returned := by
    refine hi.returned.append fun h' x hx ret hr => ?_
    have := he x hx
    simp [hr, Event.Unasked] at this

omit [DecidableEq θ] in
theorem ExitState.called {h : History π κ} {s s' : State θ π κ} (hi : ExitState h s)
    {err : Option ErrorCode} (herr : ∀ e, err = some e → e.isError = true)
    (hexiting : s'.exiting = true) (herror : s'.exitingError = err.getD s.exitingError) :
    ExitState (h ++ [.exitCalled err]) s' := by
  have hjust : Justified ReturnsAsked (h ++ [.exitCalled err]) := by
    rw [justified_append_singleton]
    exact ⟨hi.returned, by simp [ReturnsAsked]⟩
  cases err with
  | some e =>
    refine ⟨by simp [hexiting, askedStep], by simp [herror, askedStep, askedError], ?_, hjust⟩
    intro e' he'
    simp only [asked_append_singleton, askedStep, Option.some.injEq, Except.error.injEq] at he'
    exact he' ▸ herr e rfl
  | none =>
    refine ⟨by simp [hexiting, askedStep], ?_, ?_, hjust⟩
    · rw [herror, Option.getD_none, hi.error, asked_append_singleton]
      cases ha : asked h with
      | none => rfl
      | some r => rfl
    · intro e' he'
      rw [asked_append_singleton] at he'
      cases ha : asked h with
      | none => simp [ha, askedStep] at he'
      | some r => exact hi.genuine e' (by simpa [ha, askedStep] using he')

omit [DecidableEq θ] in
theorem ExitState.checked {h : History π κ} {s s' : State θ π κ} (hi : ExitState h s)
    (hr : Routing h s) (hpc : s.loop = .check) (hexit : s.exiting = true)
    (hexiting : s'.exiting = false)
    (herror : s'.exitingError = if s.exitingError.isError then .none else s.exitingError) :
    ExitState (h ++ [.returned (if s.exitingError.isError then .error s.exitingError else .ok ())])
      s' := by
  have hans := hi.answer hexit
  refine ⟨by simp [hexiting, askedStep], ?_, by simp [askedStep], ?_⟩
  · rw [herror, asked_append_singleton]
    split
    · rfl
    · rename_i hno
      have herr := hi.error
      rw [hans, if_neg hno] at herr
      simpa [askedStep, askedError] using herr
  · rw [justified_append_singleton]
    refine ⟨hi.returned, fun ret hret => ?_⟩
    obtain rfl := Event.returned.inj hret
    have hbatch := hr.batch
    simp only [hpc, LoopPc.pending, List.append_nil] at hbatch
    exact ⟨hans, hbatch⟩

/-- Orderly steps keep the exit state to the history. -/
theorem step_exitState {h e : History π κ} {s s' : State θ π κ} {a : Action θ π κ}
    (hs : step s a = some (s', e)) (hok : Orderly s a) (hr : Routing h s) (hw : WakerCycle h s)
    (hi : ExitState h s) : ExitState (h ++ e) s' := by
  have hctl := (step_cycle hs hok.healthy hr hw).control
  cases step_exit hs with
  | kept _ _ he hexiting herror => exact hi.kept he hexiting herror
  | called t err hexiting herror =>
    refine hi.called ?_ hexiting herror
    rintro err rfl
    exact hok.exits
  | returned ans hpc hasked hexiting herror => exact hi.checked hr hpc hasked hexiting herror
  | waitFailed err hpc => exact absurd hpc hok.faultless.wait
  | wakerExited _ _ rest hpc => simp [hpc, Control] at hctl

theorem exitState_start : ExitState ([] : History π κ) (start : State θ π κ) where
  flag := rfl
  error := rfl
  genuine := by simp
  returned := justified_nil _

theorem ExitState.of_run {h : History π κ} {s : State θ π κ}
    (hrun : Run step Orderly start h s) : ExitState h s := by
  refine hrun.invariant_under (I := fun h s => Routing h s ∧ WakerCycle h s) ?_ exitState_start ?_
  · intro h s hr
    exact ⟨.of_run hr, .of_run (hr.mono fun _ _ ha => ha.healthy)⟩
  · rintro h s a s' e ⟨hr, hw⟩ hi hok hs
    exact step_exitState hs hok hr hw hi

/-- `run` does what `exit` asked for, and nothing before it is asked again. -/
structure RunContract (h : History π κ) (s : State θ π κ) : Prop where
  returns_asked : Justified ReturnsAsked h
  returns_after_exit : Justified
    (fun h₁ e => e.IsReturn → Since Event.IsExit Event.IsReturn h₁) h
  cleared : ¬Since Event.IsExit Event.IsReturn h → s.exiting = false ∧ s.exitingError = .none

section Decidable

variable [DecidableEq π] [DecidableEq κ]

omit [DecidableEq θ]

instance (s : State θ π κ) (a : Action θ π κ) : Decidable (WaitOk s a) :=
  match a with
  | .loop (.failed _) => inferInstanceAs (Decidable (s.loop ≠ .wait))
  | .loop .ok | .loop (.submitted _) | .enter _ _ | .call _ _ | .finish _ | .post _ _ =>
    isTrue trivial

omit [DecidableEq π] [DecidableEq κ] in
instance (a : Action θ π κ) : Decidable (ExitsWithError a) :=
  match a with
  | .enter _ (.exit (some err)) => inferInstanceAs (Decidable (err.isError = true))
  | .enter _ (.exit none) | .enter _ (.addSqe _ _) | .enter _ (.cancel _) | .enter _ (.wake _)
  | .call _ _ | .finish _ | .loop _ | .post _ _ => isTrue trivial

instance (s : State θ π κ) (a : Action θ π κ) : Decidable (Faultless s a) :=
  decidable_of_iff _ faultless_iff.symm

instance (s : State θ π κ) (a : Action θ π κ) : Decidable (Orderly s a) :=
  decidable_of_iff (Faultless s a ∧ RearmRoom s a ∧ ExitsWithError a)
    ⟨fun h => ⟨h.1, h.2.1, h.2.2⟩, fun h => ⟨h.faultless, h.room, h.exits⟩⟩

end Decidable

/-- A user thread asks for an error while the loop is at its exit check. -/
theorem exists_asked_return :
    ∃ (h : History Unit Unit) (s : State Unit Unit Unit), Run step Orderly start h s ∧
      returns h = [.error (asEc 32)] :=
  ⟨_, _, exec_restrict_run
    [.call .loop .ok, .call .loop .ok, .call .loop .ok, .call .loop .ok, .call .loop .ok,
      .loop .ok, .loop .ok, .enter (.user ()) (.exit (some (asEc 32))), .call (.user ()) .ok,
      .enter (.user ()) (.exit none), .call (.user ()) .ok, .loop .ok] rfl, rfl⟩

/-- The loop is about to invoke the waker, `n` SQEs are queued and the user's
thread is outside. -/
structure BeforeWaker (n : Nat) (s : State Unit Unit Unit) : Prop where
  loop : s.loop = .dispatch [⟨0, .waker, .ok 1⟩]
  userCall : s.call (.user ()) = .idle
  submission : s.mSubmission = none
  callbacks : s.mCallbacks = none
  queued : s.sq.length = n
  counter : s.counter ≠ 0

/-- A thread adds an SQE without a callback while the loop is dispatching. -/
theorem BeforeWaker.add {n : Nat} {s : State Unit Unit Unit} (hb : BeforeWaker n s)
    (hn : n < batchSize) :
    ∃ (h : History Unit Unit) (s' : State Unit Unit Unit), Run step Faultless s h s' ∧
      BeforeWaker (n + 1) s' ∧ ∀ e ∈ h, e.Unasked := by
  have hx : ∃ s', exec (restrict step Faultless) s
      [.enter (.user ()) (.addSqe () none), .call (.user ()) .ok, .call (.user ()) .ok,
        .call (.user ()) .ok, .finish (.user ())] =
      some (s', [.queued s.callbacksIdx (.user ())]) ∧ BeforeWaker (n + 1) s' := by
    simp [exec, restrict, faultless_iff, KernelOk, WaitOk, step, enterStep, callStep, finishStep,
      hb.loop, hb.userCall, hb.submission, hb.queued, hn, Call.isIdle, State.mayCall,
      LoopPc.inited]
    exact ⟨rfl, by simp, rfl, hb.callbacks, by simp [hb.queued], by simp⟩
  obtain ⟨s', hx, hb'⟩ := hx
  exact ⟨_, s', exec_restrict_run _ hx, hb', by simp [Event.Unasked]⟩

/-- Other threads fill the submission ring while the loop is dispatching. -/
theorem BeforeWaker.fill {s : State Unit Unit Unit} (hb : BeforeWaker 0 s) (n : Nat)
    (hn : n ≤ batchSize) :
    ∃ (h : History Unit Unit) (s' : State Unit Unit Unit), Run step Faultless s h s' ∧
      BeforeWaker n s' ∧ ∀ e ∈ h, e.Unasked := by
  induction n with
  | zero => exact ⟨[], s, .start, hb, by simp⟩
  | succ n ih =>
    obtain ⟨h₁, s₁, hrun₁, hb₁, he₁⟩ := ih (by omega)
    obtain ⟨h₂, s₂, hrun₂, hb₂, he₂⟩ := hb₁.add (by omega)
    refine ⟨h₁ ++ h₂, s₂, hrun₁.trans hrun₂, hb₂, ?_⟩
    intro e he
    rcases List.mem_append.mp he with he | he
    · exact he₁ e he
    · exact he₂ e he

/-- With the ring full the waker cannot re-arm; it calls `exit`, and `run`
returns its error. -/
theorem BeforeWaker.rearm_fails {s : State Unit Unit Unit} (hb : BeforeWaker batchSize s) :
    ∃ s', Run step Faultless s [.invoked ⟨0, .waker, .ok 1⟩, .wakerExited (asEc ENOBUFS),
      .returned (.error (asEc ENOBUFS))] s' := by
  have hx : ∃ s', exec (restrict step Faultless) s
      [.loop .ok, .loop .ok, .call .loop .ok, .call .loop .ok, .call .loop .ok, .loop .ok,
        .call .loop .ok, .loop .ok, .loop .ok, .loop .ok] =
      some (s', [.invoked ⟨0, .waker, .ok 1⟩, .wakerExited (asEc ENOBUFS),
        .returned (.error (asEc ENOBUFS))]) := by
    simp [exec, restrict, faultless_iff, KernelOk, WaitOk, LoopPc.Served, step, loopStep,
      invokeStep, callStep, checkStep, hb.loop, hb.submission, hb.callbacks,
      hb.queued, hb.counter, Call.isIdle, asEc, ENOBUFS, ErrorCode.isError]
  obtain ⟨s', hx⟩ := hx
  exact ⟨s', exec_restrict_run _ hx⟩

/-- A fresh context whose poll has just fired. -/
theorem exists_beforeWaker :
    ∃ (h : History Unit Unit) (s : State Unit Unit Unit), Run step Faultless start h s ∧
      BeforeWaker 0 s ∧ asked h = none :=
  ⟨_, _, exec_restrict_run
    [.call .loop .ok, .call .loop .ok, .call .loop .ok, .call .loop .ok, .call .loop .ok,
      .loop .ok, .loop .ok, .loop .ok, .loop (.submitted 1), .post 0 1, .loop .ok, .loop .ok,
      .loop .ok, .loop .ok, .loop .ok] rfl,
    ⟨rfl, rfl, rfl, rfl, rfl, by decide⟩, rfl⟩

end UringContext
