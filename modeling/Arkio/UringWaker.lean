import Arkio.UringRouting

/-!
# The waker

The waker is a poll of the eventfd that re-arms itself: its callback reads the
eventfd, which clears the counter, and adds the next poll through `add_sqe`,
whose `wake` writes the counter again. So outside the few steps between the read
and that write the counter is never 0. The first half of the module is about
this fact and what it means for an idle loop.
-/
namespace UringContext

open Bindings LabelledMachine

variable {θ π κ : Type}

/-- Inside `add_sqe`, before its `wake` has written the eventfd. -/
def Call.Unwoken : Call π κ → Prop
  | .lockSubmission _ _ => True
  | .lockCallbacks _ _ => True
  | .getSqe _ _ => True
  | .wake _ _ => True
  | .cancel _ _ _ => True
  | .returned (.error _) => True
  | _ => False

/-- The places of the loop thread at which the counter can be 0. -/
def Drained : LoopPc κ → Call π κ → Prop
  | .init, c => c.Unwoken
  | .wakerRearm _, c => c.Unwoken
  | .wakerExit _, c => c = .exitWake
  | _, _ => False

/-- Everywhere else the eventfd is readable. -/
def Awake (s : State θ π κ) : Prop := s.counter = 0 → Drained s.loop (s.call .loop)

theorem Awake.one_le {s : State θ π κ} (ha : Awake s) (hd : ¬Drained s.loop (s.call .loop)) :
    1 ≤ s.counter := by
  by_contra hc
  exact hd (ha (by omega))

/-- Steps that leave the loop thread where it is and do not read the eventfd. -/
theorem Awake.frame {s s' : State θ π κ} (ha : Awake s) (hcounter : s.counter ≤ s'.counter)
    (hloop : s'.loop = s.loop) (hcall : s'.call .loop = s.call .loop) : Awake s' := by
  intro hc
  rw [hloop, hcall]
  exact ha (by omega)

variable [DecidableEq θ]

/-- A step inside `add_sqe` or `exit` never lowers the counter. -/
theorem callStep_counter {s s' : State θ π κ} {t : Thread θ} {ans : Answer}
    {e : List (Event π κ)} (h : callStep s t ans = some (s', e)) :
    s.counter ≤ s'.counter ∧ s'.loop = s.loop ∧ ∀ t', t' ≠ t → s'.call t' = s.call t' := by
  unfold callStep at h
  repeat' split at h
  all_goals cases h
  all_goals
    refine ⟨by simp, rfl, fun t' ht => ?_⟩
    simp [Function.update_of_ne ht]

theorem Drained.next {pc : LoopPc κ} {c c' : Call π κ} (hd : Drained pc c)
    (hc : c ≠ .exitWake) (hc' : c.Unwoken → c'.Unwoken) : Drained pc c' := by
  cases pc with
  | init => exact hc' hd
  | wakerRearm rest => exact hc' hd
  | wakerExit rest => exact absurd hd hc
  | _ => exact hd

/-- The loop thread's own calls: the write leaves the drained places. -/
theorem callStep_loop_awake {s s' : State θ π κ} {ans : Answer} {e : List (Event π κ)}
    (h : callStep s .loop ans = some (s', e)) (ha : Awake s) : Awake s' := by
  intro hcounter
  obtain ⟨hle, hloop, -⟩ := callStep_counter h
  have hd := ha (by omega)
  rw [hloop]
  unfold callStep at h
  cases hc : s.call .loop with
  | lockSubmission op cb =>
    simp only [hc, Option.ite_none_right_eq_some, Option.some.injEq, Prod.mk.injEq] at h hd
    obtain ⟨-, rfl, rfl⟩ := h
    refine hd.next (by simp) fun _ => ?_
    cases cb <;> simp [Call.Unwoken]
  | lockCallbacks op cb =>
    simp only [hc, Option.ite_none_right_eq_some, Option.some.injEq, Prod.mk.injEq] at h hd
    obtain ⟨-, rfl, rfl⟩ := h
    exact hd.next (by simp) (by simp [Call.Unwoken])
  | getSqe op cb =>
    simp only [hc] at h hd
    split at h <;> cases h
    · exact hd.next (by simp) (by simp [Call.Unwoken])
    · exact hd.next (by simp) (by simp [Call.Unwoken])
  | wake tok cb =>
    simp only [hc] at h hd
    split at h
    · split at h <;> cases h <;> simp at hcounter
    · cases h
      exact hd.next (by simp) (by simp [Call.Unwoken])
    · cases h
  | cancel tok cb err =>
    simp only [hc, Option.ite_none_right_eq_some, Option.some.injEq, Prod.mk.injEq] at h hd
    obtain ⟨-, rfl, rfl⟩ := h
    exact hd.next (by simp) (by simp [Call.Unwoken])
  | exitWake =>
    simp only [hc] at h
    split at h <;> cases h
    simp at hcounter
  | insert tok cb =>
    rw [hc] at hd
    cases hpc : s.loop <;> simp [hpc, Drained, Call.Unwoken] at hd
  | idle => simp [hc] at h
  | returned ret => simp [hc] at h

/-- The steps of the loop: the read enters the drained places, and leaving them
needs a re-arm or an `exit` that has woken. -/
theorem loopStep_awake {s s' : State θ π κ} {ans : Answer} {e : List (Event π κ)}
    (h : loopStep s ans = some (s', e)) (ha : Awake s) : Awake s' := by
  intro hcounter
  unfold loopStep at h
  cases hpc : s.loop with
  | init =>
    simp only [hpc] at h
    split at h <;> cases h
    next hc =>
      have hd := ha hcounter
      simp [hpc, hc, Drained, Call.Unwoken] at hd
  | wakerRead rest =>
    simp only [hpc] at h
    repeat' split at h
    all_goals cases h
    · simp [Drained, Call.Unwoken]
    · simp [Drained, State.wakerExit]
  | wakerRearm rest =>
    simp only [hpc] at h
    split at h <;> cases h
    next hc =>
      have hd := ha hcounter
      simp [hpc, hc, Drained, Call.Unwoken] at hd
    next => simp [Drained, State.wakerExit]
  | wakerExit rest =>
    simp only [hpc] at h
    split at h <;> cases h
    next hc =>
      have hd := ha hcounter
      rw [Call.isIdle_iff] at hc
      simp [hpc, hc, Drained] at hd
  | dispatch ready =>
    cases ready with
    | nil =>
      simp only [hpc] at h
      cases h
      have hd := ha hcounter
      simp [hpc, Drained] at hd
    | cons r rest =>
      simp only [hpc, invokeStep] at h
      repeat' split at h
      all_goals cases h
      · have hd := ha hcounter
        simp [hpc, Drained] at hd
      · have hd := ha hcounter
        simp [hpc, Drained] at hd
      · simp [Drained, State.wakerExit]
  | collect n ready =>
    cases n <;> simp only [hpc, collectStep] at h
    all_goals
      repeat' split at h
      all_goals cases h
      all_goals
        have hd := ha hcounter
        simp [hpc, Drained] at hd
  | _ =>
    simp only [hpc, checkStep] at h
    repeat' split at h
    all_goals cases h
    all_goals
      have hd := ha hcounter
      simp [hpc, Drained] at hd

omit [DecidableEq θ] in
/-- A callback of the user runs with the counter up. -/
theorem Awake.of_mayCall {s s' : State θ π κ} (ha : Awake s) (hmay : s.mayCall .loop = true)
    (hcounter : s.counter ≤ s'.counter) : Awake s' := by
  intro hc
  have hd := ha (by omega)
  cases hpc : s.loop <;> simp_all [State.mayCall, LoopPc.inCallback, Drained]

theorem enterStep_awake {s s' : State θ π κ} {t : Thread θ} {entry : Entry π κ}
    {e : List (Event π κ)} (h : enterStep s t entry = some (s', e)) (ha : Awake s) :
    Awake s' := by
  simp only [enterStep, Option.ite_none_right_eq_some, Bool.and_eq_true] at h
  obtain ⟨⟨-, hmay⟩, h⟩ := h
  have hle : s.counter ≤ s'.counter ∧ s'.loop = s.loop ∧
      ∀ t', t' ≠ t → s'.call t' = s.call t' := by
    repeat' split at h
    all_goals cases h
    all_goals
      refine ⟨by simp, rfl, fun t' ht => ?_⟩
      simp [Function.update_of_ne ht]
  cases t with
  | loop => exact ha.of_mayCall hmay hle.1
  | user t => exact ha.frame hle.1 hle.2.1 (hle.2.2 .loop (by simp))

theorem step_awake {s s' : State θ π κ} {a : Action θ π κ} {e : List (Event π κ)}
    (h : step s a = some (s', e)) (ha : Awake s) : Awake s' := by
  cases a with
  | call t ans =>
    cases t with
    | loop => exact callStep_loop_awake h ha
    | user t =>
      obtain ⟨hle, hloop, hcall⟩ := callStep_counter h
      exact ha.frame hle hloop (hcall .loop (by simp))
  | loop ans => exact loopStep_awake h ha
  | enter t entry => exact enterStep_awake h ha
  | finish t =>
    simp only [step, finishStep, Option.ite_none_right_eq_some] at h
    obtain ⟨hmay, h⟩ := h
    split at h <;> cases h
    cases t with
    | loop => exact ha.of_mayCall hmay le_rfl
    | user t => exact ha.frame le_rfl rfl (by simp)
  | post i res =>
    simp only [step, postStep] at h
    split at h <;> cases h
    exact ha

/-- The counter is up in every reachable state, the drained places apart. -/
theorem Awake.of_run {ok : State θ π κ → Action θ π κ → Prop} {h : History π κ}
    {s : State θ π κ} (hrun : Run step ok start h s) : Awake s :=
  hrun.invariant (P := fun _ s => Awake s) (by simp [Awake, start, Drained, Call.Unwoken])
    fun _ _ _ _ _ ha _ hs => step_awake hs ha

/-- Steps of an iteration that nobody disturbs: the loop thread runs, and the
only operation that completes is the waker's poll. -/
def Undisturbed (s : State θ π κ) : Action θ π κ → Prop
  | .loop _ => True
  | .call t _ => t = .loop
  | .post i _ => s.inflight[i]?.map Sqe.op = some .pollWaker
  | _ => False

instance [DecidableEq π] (s : State θ π κ) : DecidablePred (Undisturbed s)
  | .loop _ => inferInstanceAs (Decidable True)
  | .call t _ => inferInstanceAs (Decidable (t = .loop))
  | .post i _ => inferInstanceAs (Decidable (s.inflight[i]?.map Sqe.op = some .pollWaker))
  | .enter _ _ => inferInstanceAs (Decidable False)
  | .finish _ => inferInstanceAs (Decidable False)

/-- What `run` returned, call by call. -/
def returns (h : History π κ) : List (Result Unit) :=
  h.filterMap fun e => match e with | .returned ret => some ret | _ => none

/-- One iteration of `run`, from exit check to exit check, that dispatches the
waker's callback and nothing else. -/
structure IdleIteration (s : State θ π κ) (h : History π κ) (s' : State θ π κ) : Prop where
  run : Run step Undisturbed s h s'
  first : s.loop = .check
  last : s'.loop = .check
  stays : returns h = []
  dispatched : (invoked h).map Ready.callback = [.waker]

/-- The next `wait` has nothing to find: the counter is 0 and the poll that
would notice a write is queued or in flight. -/
def Asleep (s : State θ π κ) : Prop :=
  s.counter = 0 ∧ ∃ q ∈ s.sq ++ s.inflight, q.op = .pollWaker

/-- No idle iteration puts the loop to sleep: the re-armed poll finds the
counter that its own `add_sqe` has written. -/
theorem idle_iteration_stays_awake {h₀ h : History π κ} {s s' : State θ π κ}
    (hrun : Run step Always start h₀ s) (hidle : IdleIteration s h s') :
    1 ≤ s'.counter ∧ ¬Asleep s' := by
  have ha := Awake.of_run (hrun.trans hidle.run.always)
  have hle : 1 ≤ s'.counter := ha.one_le (by simp [hidle.last, Drained])
  refine ⟨hle, fun hsleep => ?_⟩
  have := hsleep.1
  omega

/-- The loop of a fresh context in its first iteration, with nothing to do but
to submit the waker's poll, see it fire, read the eventfd and re-arm. -/
theorem exists_idle_iteration :
    ∃ (h₀ h : History Unit Unit) (s s' : State Unit Unit Unit),
      Run step Always start h₀ s ∧ IdleIteration s h s' ∧ s'.counter = 1 ∧
        s'.sq = [⟨.pollWaker, 1⟩] := by
  exact ⟨_, _, _, _, exec_run [.call .loop .ok, .call .loop .ok, .call .loop .ok,
    .call .loop .ok, .call .loop .ok, .loop .ok, .loop .ok] rfl,
    ⟨exec_restrict_run [.loop .ok, .loop (.submitted 1), .post 0 1, .loop .ok, .loop .ok,
      .loop .ok, .loop .ok, .loop .ok, .loop .ok, .loop .ok, .call .loop .ok, .call .loop .ok,
      .call .loop .ok, .call .loop .ok, .call .loop .ok, .loop .ok, .loop .ok] rfl,
      rfl, rfl, rfl, rfl⟩, rfl, rfl⟩

theorem idle_iteration_stays_awake_fresh :
    ∃ (h₀ h : History Unit Unit) (s s' : State Unit Unit Unit),
      Run step Always start h₀ s ∧ IdleIteration s h s' ∧ 1 ≤ s'.counter ∧ ¬Asleep s' := by
  obtain ⟨h₀, h, s, s', hrun, hidle, -⟩ := exists_idle_iteration
  exact ⟨h₀, h, s, s', hrun, hidle, idle_iteration_stays_awake hrun hidle⟩

theorem not_asleep_after_idle_iteration :
    ¬∀ (h₀ h : History Unit Unit) (s s' : State Unit Unit Unit),
      Run step Always start h₀ s → IdleIteration s h s' → Asleep s' := by
  intro hall
  obtain ⟨h₀, h, s, s', hrun, hidle, hcounter, -⟩ := exists_idle_iteration
  have := (hall h₀ h s s' hrun hidle).1
  omega

end UringContext
