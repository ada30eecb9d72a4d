import Arkio.UringRollback

/-!
# The two mutexes

`add_sqe` takes `m_submission_` before `m_callbacks_`, and the loop takes one of
them at a time. Whoever holds one of them gets out with steps of its own, so every
call can return, unless a `wake` has failed below an `add_sqe` with a callback:
its `cancel` then waits for the mutex that it holds, and nobody gets one any more.
-/
namespace UringContext

open Bindings LabelledMachine

variable {θ π κ : Type}

/-- The number of CQEs that are still to be collected. -/
def LoopPc.batch : LoopPc κ → Nat
  | .lock n => n
  | .collect n _ => n
  | _ => 0

/-- Who has a mutex is in its critical section, and the batch is in the ring. -/
structure Manned (s : State θ π κ) : Prop where
  submission : ∀ t, s.mSubmission = some t → (s.call t).HoldsSubmission
  callbacks : ∀ t, s.mCallbacks = some t → s.Guards t
  batch : s.loop.batch ≤ s.cq.length

theorem Call.HoldsCallbacks.submission {c : Call π κ} (h : c.HoldsCallbacks) :
    c.HoldsSubmission := by
  cases c with
  | getSqe op cb => trivial
  | wake tok cb => trivial
  | insert tok cb => trivial
  | cancel tok cb err => trivial
  | _ => exact h.elim

section Steps

variable {s s' : State θ π κ} {t : Thread θ}

/-- One thread moves, and leaves a mutex, takes it, or stays inside. -/
theorem Manned.move (hm : Manned s) (hloop : s'.loop = s.loop) (hcq : s'.cq = s.cq)
    (hother : ∀ t', t' ≠ t → s'.call t' = s.call t')
    (hsub : s'.mSubmission = none ∨ s'.mSubmission = some t ∧ (s'.call t).HoldsSubmission ∨
      s'.mSubmission = s.mSubmission ∧
        ((s.call t).HoldsSubmission → (s'.call t).HoldsSubmission))
    (hcb : s'.mCallbacks = none ∨ s'.mCallbacks = some t ∧ (s'.call t).HoldsCallbacks ∨
      s'.mCallbacks = s.mCallbacks ∧
        ((s.call t).HoldsCallbacks → (s'.call t).HoldsCallbacks)) : Manned s' := by
  constructor
  · intro t' ht'
    rcases hsub with hnone | ⟨hsome, hin⟩ | ⟨hsame, hkeep⟩
    · rw [hnone] at ht'
      cases ht'
    · rw [hsome] at ht'
      cases ht'
      exact hin
    · rw [hsame] at ht'
      by_cases heq : t' = t
      · subst heq
        exact hkeep (hm.submission t' ht')
      · rw [hother t' heq]
        exact hm.submission t' ht'
  · intro t' ht'
    rcases hcb with hnone | ⟨hsome, hin⟩ | ⟨hsame, hkeep⟩
    · rw [hnone] at ht'
      cases ht'
    · rw [hsome] at ht'
      cases ht'
      exact .inl hin
    · rw [hsame] at ht'
      unfold State.Guards
      rw [hloop]
      refine (hm.callbacks t' ht').imp_left fun hin => ?_
      by_cases heq : t' = t
      · subst heq
        exact hkeep hin
      · rwa [hother t' heq]
  · rw [hloop, hcq]
    exact hm.batch

/-- The loop moves on, outside the collecting loop. -/
theorem Manned.advance (hm : Manned s) (hpc : ∀ n ready, s.loop ≠ .collect n ready)
    (hsub : s'.mSubmission = s.mSubmission) (hcb : s'.mCallbacks = s.mCallbacks)
    (hcall : ∀ t, s'.call t = s.call t ∨ ¬(s.call t).HoldsSubmission)
    (hbatch : s'.loop.batch ≤ s'.cq.length) : Manned s' := by
  have hkeep : ∀ t, (s.call t).HoldsSubmission → s'.call t = s.call t := fun t ht =>
    (hcall t).resolve_right fun hnot => hnot ht
  constructor
  · intro t ht
    have hin := hm.submission t (hsub ▸ ht)
    rwa [hkeep t hin]
  · intro t ht
    rcases hm.callbacks t (hcb ▸ ht) with hin | ⟨-, n, ready, hcollect⟩
    · exact .inl (by rwa [hkeep t hin.submission])
    · exact absurd hcollect (hpc n ready)
  · exact hbatch

variable [DecidableEq θ] {e : History π κ} {a : Action θ π κ} {ans : Answer}

theorem callStep_manned (hs : callStep s t ans = some (s', e)) (hm : Manned s) : Manned s' := by
  obtain ⟨-, hloop, hother⟩ := callStep_counter hs
  unfold callStep at hs
  cases hc : s.call t with
  | idle => simp [hc] at hs
  | lockSubmission op cb =>
    simp only [hc, Option.ite_none_right_eq_some, Option.some.injEq, Prod.mk.injEq] at hs
    obtain ⟨-, rfl, -⟩ := hs
    refine hm.move hloop rfl hother (.inr (.inl ⟨rfl, ?_⟩)) (.inr (.inr ⟨rfl, ?_⟩))
    · cases cb <;> simp [Call.HoldsSubmission]
    · simp [hc, Call.HoldsCallbacks]
  | lockCallbacks op cb =>
    simp only [hc, Option.ite_none_right_eq_some, Option.some.injEq, Prod.mk.injEq] at hs
    obtain ⟨-, rfl, -⟩ := hs
    refine hm.move hloop rfl hother (.inr (.inr ⟨rfl, ?_⟩)) (.inr (.inl ⟨rfl, ?_⟩))
    · simp [Call.HoldsSubmission]
    · simp [Call.HoldsCallbacks]
  | getSqe op cb =>
    simp only [hc] at hs
    split at hs <;> cases hs
    · refine hm.move hloop rfl hother (.inr (.inr ⟨rfl, ?_⟩)) (.inr (.inr ⟨rfl, ?_⟩))
      · simp [Call.HoldsSubmission]
      · cases cb <;> simp [hc, Call.HoldsCallbacks]
    · refine hm.move hloop rfl hother (.inl rfl) ?_
      cases cb with
      | some cb => exact .inl rfl
      | none => exact .inr (.inr ⟨rfl, by simp [hc, Call.HoldsCallbacks]⟩)
  | wake tok cb =>
    simp only [hc] at hs
    split at hs
    · split at hs <;> cases hs
      · refine hm.move hloop rfl hother (.inr (.inr ⟨rfl, ?_⟩)) (.inr (.inr ⟨rfl, ?_⟩))
        · simp [Call.HoldsSubmission]
        · simp [Call.HoldsCallbacks]
      · exact hm.move hloop rfl hother (.inl rfl)
          (.inr (.inr ⟨rfl, by simp [hc, Call.HoldsCallbacks]⟩))
    · cases hs
      refine hm.move hloop rfl hother (.inr (.inr ⟨rfl, ?_⟩)) (.inr (.inr ⟨rfl, ?_⟩))
      · simp [Call.HoldsSubmission]
      · cases cb <;> simp [hc, Call.HoldsCallbacks]
    · cases hs
  | insert tok cb =>
    simp only [hc] at hs
    cases hs
    exact hm.move hloop rfl hother (.inl rfl) (.inl rfl)
  | cancel tok cb err =>
    simp only [hc, Option.ite_none_right_eq_some, Option.some.injEq, Prod.mk.injEq] at hs
    obtain ⟨hfree, rfl, -⟩ := hs
    refine hm.move hloop rfl hother (.inl rfl) (.inl ?_)
    simp [hfree]
  | exitWake =>
    simp only [hc] at hs
    split at hs <;> cases hs
    refine hm.move hloop rfl hother (.inr (.inr ⟨rfl, ?_⟩)) (.inr (.inr ⟨rfl, ?_⟩))
    · simp [hc, Call.HoldsSubmission]
    · simp [hc, Call.HoldsCallbacks]
  | returned ret => simp [hc] at hs

theorem loopStep_manned (hs : loopStep s ans = some (s', e)) (hm : Manned s) (hat : Attends s) :
    Manned s' := by
  have hset : ∀ c, s.call .loop = c → ¬c.HoldsSubmission → ∀ (s₁ : State θ π κ) (c' : Call π κ),
      s₁.call = s.call → ∀ u, (s₁.setCall .loop c').call u = s.call u ∨
        ¬(s.call u).HoldsSubmission := by
    intro c hc hnot s₁ c' hcall u
    by_cases hu : u = .loop
    · subst hu
      exact .inr (hc ▸ hnot)
    · exact .inl (by simp [Function.update_of_ne hu, hcall])
  unfold loopStep at hs
  cases hpc : s.loop with
  | init =>
    simp only [hpc] at hs
    split at hs <;> cases hs
    next n hc =>
      exact hm.advance (by simp [hpc]) rfl rfl
        (hset _ hc (by simp [Call.HoldsSubmission]) { s with loop := .outside } _ rfl)
        (Nat.zero_le _)
  | lock n =>
    simp only [hpc, Option.ite_none_right_eq_some, Option.some.injEq, Prod.mk.injEq] at hs
    obtain ⟨-, rfl, -⟩ := hs
    refine ⟨hm.submission, ?_, ?_⟩
    · rintro t ⟨⟩
      exact .inr ⟨rfl, n, [], rfl⟩
    · have hbatch := hm.batch
      rwa [hpc] at hbatch
  | collect n ready =>
    cases n with
    | zero =>
      simp only [hpc] at hs
      cases hs
      exact ⟨hm.submission, by simp, Nat.zero_le _⟩
    | succ n =>
      have hbatch := hm.batch
      rw [hpc] at hbatch
      have hguards : ∀ t, s.mCallbacks = some t →
          (s.call t).HoldsCallbacks ∨ t = .loop := fun t ht =>
        (hm.callbacks t ht).imp_right And.left
      cases hcq : s.cq with
      | nil => simp [hpc, hcq] at hs
      | cons c cq =>
        have hrest : n ≤ cq.length := by
          rw [hcq] at hbatch
          exact Nat.le_of_succ_le_succ hbatch
        simp only [hpc, hcq, collectStep] at hs
        split at hs <;> cases hs
        · exact ⟨hm.submission, fun t ht => (hguards t ht).imp_right fun hl => ⟨hl, n, _, rfl⟩,
            hrest⟩
        · exact ⟨hm.submission, fun t ht => (hguards t ht).imp_right fun hl => ⟨hl, n, _, rfl⟩,
            hrest⟩
  | dispatch ready =>
    have hidle : s.call .loop = .idle := hat (by rw [hpc]; exact id)
    have hidle' : ¬(Call.idle : Call π κ).HoldsSubmission := id
    cases ready with
    | nil =>
      simp only [hpc] at hs
      cases hs
      exact hm.advance (by simp [hpc]) rfl rfl (fun _ => .inl rfl) (Nat.zero_le _)
    | cons r rest =>
      simp only [hpc, invokeStep] at hs
      repeat' split at hs
      all_goals cases hs
      · exact hm.advance (by simp [hpc]) rfl rfl (fun _ => .inl rfl) (Nat.zero_le _)
      · exact hm.advance (by simp [hpc]) rfl rfl (fun _ => .inl rfl) (Nat.zero_le _)
      · exact hm.advance (by simp [hpc]) rfl rfl
          (hset _ hidle hidle' { s with exiting := true, exitingError := _, loop := _ } _ rfl)
          (Nat.zero_le _)
  | wakerRead rest =>
    have hidle : s.call .loop = .idle := hat (by rw [hpc]; exact id)
    have hidle' : ¬(Call.idle : Call π κ).HoldsSubmission := id
    simp only [hpc] at hs
    repeat' split at hs
    all_goals cases hs
    · exact hm.advance (by simp [hpc]) rfl rfl
        (hset _ hidle hidle' { s with counter := 0, loop := _ } _ rfl) (Nat.zero_le _)
    · exact hm.advance (by simp [hpc]) rfl rfl
        (hset _ hidle hidle' { s with exiting := true, exitingError := _, loop := _ } _ rfl)
        (Nat.zero_le _)
  | wakerRearm rest =>
    simp only [hpc] at hs
    split at hs <;> cases hs
    next n hc =>
      exact hm.advance (by simp [hpc]) rfl rfl
        (hset _ hc (by simp [Call.HoldsSubmission]) { s with loop := _ } _ rfl) (Nat.zero_le _)
    next err hc =>
      exact hm.advance (by simp [hpc]) rfl rfl
        (hset _ hc (by simp [Call.HoldsSubmission])
          { s with exiting := true, exitingError := _, loop := _ } _ rfl) (Nat.zero_le _)
  | peek =>
    simp only [hpc] at hs
    cases hs
    exact hm.advance (by simp [hpc]) rfl rfl (fun _ => .inl rfl) (Nat.min_le_right _ _)
  | _ =>
    simp only [hpc, checkStep] at hs
    repeat' split at hs
    all_goals cases hs
    all_goals
      exact hm.advance (by simp [hpc]) rfl rfl (fun _ => .inl rfl) (Nat.zero_le _)

theorem step_manned (hs : step s a = some (s', e)) (hm : Manned s) (hat : Attends s) :
    Manned s' := by
  cases a with
  | call t ans => exact callStep_manned hs hm
  | loop ans => exact loopStep_manned hs hm hat
  | enter t entry =>
    simp only [step, enterStep, Option.ite_none_right_eq_some, Bool.and_eq_true,
      Call.isIdle_iff] at hs
    obtain ⟨⟨hidle, -⟩, hs⟩ := hs
    have hother : ∀ (s₁ : State θ π κ) (c : Call π κ), s₁.call = s.call →
        ∀ t', t' ≠ t → (s₁.setCall t c).call t' = s.call t' := by
      intro s₁ c hcall t' ht'
      simp [Function.update_of_ne ht', hcall]
    have hout : ∀ s₁ : State θ π κ, ((s.call t).HoldsSubmission → (s₁.call t).HoldsSubmission) ∧
        ((s.call t).HoldsCallbacks → (s₁.call t).HoldsCallbacks) := by
      intro s₁
      simp [hidle, Call.HoldsSubmission, Call.HoldsCallbacks]
    repeat' split at hs
    all_goals cases hs
    · exact hm.move rfl rfl (hother s _ rfl) (.inr (.inr ⟨rfl, (hout _).1⟩))
        (.inr (.inr ⟨rfl, (hout _).2⟩))
    · exact ⟨hm.submission, hm.callbacks, hm.batch⟩
    · exact ⟨hm.submission, hm.callbacks, hm.batch⟩
    · exact hm
    · exact hm.move rfl rfl (hother { s with exiting := true, exitingError := _ } _ rfl)
        (.inr (.inr ⟨rfl, (hout _).1⟩)) (.inr (.inr ⟨rfl, (hout _).2⟩))
  | finish t =>
    simp only [step, finishStep, Option.ite_none_right_eq_some] at hs
    obtain ⟨-, hs⟩ := hs
    split at hs <;> cases hs
    next ret hc =>
      refine hm.move (t := t) rfl rfl ?_ (.inr (.inr ⟨rfl, ?_⟩)) (.inr (.inr ⟨rfl, ?_⟩))
      · intro t' ht'
        simp [Function.update_of_ne ht']
      · simp [hc, Call.HoldsSubmission]
      · simp [hc, Call.HoldsCallbacks]
  | post i res =>
    simp only [step, postStep] at hs
    split at hs <;> cases hs
    refine ⟨hm.submission, hm.callbacks, hm.batch.trans ?_⟩
    simp

theorem manned_start : Manned (start : State θ π κ) :=
  ⟨nofun, nofun, Nat.zero_le _⟩

theorem Manned.of_run {h : History π κ} (hrun : Run step Always start h s) :
    Manned s ∧ Attends s := by
  refine hrun.invariant (P := fun _ s => Manned s ∧ Attends s) ⟨manned_start, attends_start⟩ ?_
  rintro _ s₁ a s₂ e ⟨hm, hat⟩ _ hs
  exact ⟨step_manned hs hm hat, step_attends hs hat⟩

end Steps

section Unwinding

/-- Steps of those who are inside: of a call whose system calls succeed, and of the
collecting loop. -/
def Unwinds (s : State θ π κ) : Action θ π κ → Prop
  | .call _ ans => ans = .ok
  | .loop ans => ans = .ok ∧ ∃ n ready, s.loop = .collect n ready
  | _ => False

/-- The call has not returned. -/
def Call.Inside : Call π κ → Prop
  | .idle => False
  | .returned _ => False
  | _ => True

/-- A `cancel` waits for the mutex of its own `add_sqe`. -/
def Stuck (s : State θ π κ) : Prop := ∃ t tok cb err, s.call t = .cancel tok (some cb) err

/-- Nobody has a mutex. -/
structure Unlocked (s : State θ π κ) : Prop where
  submission : s.mSubmission = none
  callbacks : s.mCallbacks = none

/-- The call of one thread has returned, and both mutexes are free. -/
structure Left (s : State θ π κ) (t : Thread θ) (s' : State θ π κ) : Prop where
  returned : ∃ ret, s'.call t = .returned ret
  others : ∀ t', t' ≠ t → s'.call t' = s.call t'
  unlocked : Unlocked s'

variable [DecidableEq θ] {s s₁ s' : State θ π κ} {t : Thread θ}

/-- The steps of those who are inside lead there. -/
def Leaves (s s' : State θ π κ) : Prop := ∃ h, Run step Unwinds s h s'

theorem Leaves.refl (s : State θ π κ) : Leaves s s := ⟨[], .start⟩

theorem Leaves.trans (h : Leaves s s₁) (h' : Leaves s₁ s') : Leaves s s' := by
  obtain ⟨e, hrun⟩ := h
  obtain ⟨e', hrun'⟩ := h'
  exact ⟨e ++ e', hrun.trans hrun'⟩

theorem Leaves.call {e : History π κ} (hs : callStep s t .ok = some (s', e)) : Leaves s s' :=
  ⟨e, .single (show Unwinds s (.call t .ok) from rfl) hs⟩

/-- A step of the thread, and what it leads to. -/
theorem Left.after {e : History π κ} (hs : callStep s t .ok = some (s₁, e))
    (h : ∃ s', Leaves s₁ s' ∧ Left s₁ t s') : ∃ s', Leaves s s' ∧ Left s t s' := by
  obtain ⟨s', hleaves, hleft⟩ := h
  obtain ⟨-, -, hother⟩ := callStep_counter hs
  refine ⟨s', (Leaves.call hs).trans hleaves, hleft.returned, ?_, hleft.unlocked⟩
  intro t' ht'
  rw [hleft.others t' ht', hother t' ht']

theorem Left.here {e : History π κ} {ret : Result Nat} (hs : callStep s t .ok = some (s', e))
    (hret : s'.call t = .returned ret) (hfree : Unlocked s') : ∃ s', Leaves s s' ∧ Left s t s' := by
  obtain ⟨-, -, hother⟩ := callStep_counter hs
  exact ⟨s', .call hs, ⟨ret, hret⟩, hother, hfree⟩

section Exits

variable {op : Op π} {tok : Nat}

theorem insert_leaves {cb : Callback κ} (hc : s.call t = .insert tok cb) :
    ∃ s', Leaves s s' ∧ Left s t s' := by
  have hs : callStep s t .ok = some (({ s with
      callbacks := Function.update s.callbacks tok (some cb) }.unlock (some cb)).setCall t
        (.returned (.ok tok)), [.added tok cb]) := by
    simp [callStep, hc]
  exact Left.here hs (Function.update_self _ _ _) ⟨rfl, rfl⟩

theorem wake_leaves {cb : Option (Callback κ)} (hc : s.call t = .wake tok cb)
    (hfree : cb = none → s.mCallbacks = none) : ∃ s', Leaves s s' ∧ Left s t s' := by
  cases cb with
  | none =>
    have hs : callStep s t .ok =
        some ((s.write.unlock none).setCall t (.returned (.ok tok)), []) := by
      simp [callStep, hc]
    exact Left.here hs (Function.update_self _ _ _) ⟨rfl, hfree rfl⟩
  | some cb =>
    have hs : callStep s t .ok = some (s.write.setCall t (.insert tok cb), []) := by
      simp [callStep, hc]
    exact Left.after hs (insert_leaves (Function.update_self _ _ _))

theorem getSqe_leaves {cb : Option (Callback κ)} (hc : s.call t = .getSqe op cb)
    (hfree : cb = none → s.mCallbacks = none) : ∃ s', Leaves s s' ∧ Left s t s' := by
  by_cases hroom : s.sq.length < batchSize
  · have hs : callStep s t .ok = some ((s.takeSqe op).setCall t (.wake s.callbacksIdx cb),
        [.queued s.callbacksIdx op]) := by
      simp [callStep, hc, hroom]
    exact Left.after hs (wake_leaves (Function.update_self _ _ _) hfree)
  · have hs : callStep s t .ok = some ((s.unlock cb).setCall t
        (.returned (.error (asEc ENOBUFS))), []) := by
      simp [callStep, hc, hroom]
    refine Left.here hs (Function.update_self _ _ _) ⟨rfl, ?_⟩
    cases cb with
    | none => exact hfree rfl
    | some cb => rfl

theorem lockCallbacks_leaves {cb : Callback κ} (hc : s.call t = .lockCallbacks op cb)
    (hfree : s.mCallbacks = none) : ∃ s', Leaves s s' ∧ Left s t s' := by
  have hs : callStep s t .ok = some ({ s with mCallbacks := some t }.setCall t
      (.getSqe op (some cb)), []) := by
    simp [callStep, hc, hfree]
  exact Left.after hs (getSqe_leaves (Function.update_self _ _ _) (by simp))

theorem cancel_leaves {err : ErrorCode} (hc : s.call t = .cancel tok none err)
    (hfree : s.mCallbacks = none) : ∃ s', Leaves s s' ∧ Left s t s' := by
  have hs : callStep s t .ok = some (((s.erase tok).unlock none).setCall t
      (.returned (.error err)), [.cancelled tok]) := by
    simp [callStep, hc, hfree]
  exact Left.here hs (Function.update_self _ _ _) ⟨rfl, hfree⟩

theorem lockSubmission_leaves {cb : Option (Callback κ)} (hc : s.call t = .lockSubmission op cb)
    (hfree : Unlocked s) : ∃ s', Leaves s s' ∧ Left s t s' := by
  cases cb with
  | none =>
    have hs : callStep s t .ok = some ({ s with mSubmission := some t }.setCall t
        (.getSqe op none), []) := by
      simp [callStep, hc, hfree.submission]
    exact Left.after hs (getSqe_leaves (Function.update_self _ _ _) fun _ => hfree.callbacks)
  | some cb =>
    have hs : callStep s t .ok = some ({ s with mSubmission := some t }.setCall t
        (.lockCallbacks op cb), []) := by
      simp [callStep, hc, hfree.submission]
    exact Left.after hs (lockCallbacks_leaves (Function.update_self _ _ _) hfree.callbacks)

/-- Whoever is past the first `lock_guard` gets out, if nobody else has the second
mutex. -/
theorem holder_leaves (hstuck : ¬Stuck s) (hin : (s.call t).HoldsSubmission)
    (hfree : ¬(s.call t).HoldsCallbacks → s.mCallbacks = none) :
    ∃ s', Leaves s s' ∧ Left s t s' := by
  cases hc : s.call t with
  | lockCallbacks op cb =>
    exact lockCallbacks_leaves hc (hfree (by simp [hc, Call.HoldsCallbacks]))
  | getSqe op cb =>
    refine getSqe_leaves hc ?_
    rintro rfl
    exact hfree (by simp [hc, Call.HoldsCallbacks])
  | wake tok cb =>
    refine wake_leaves hc ?_
    rintro rfl
    exact hfree (by simp [hc, Call.HoldsCallbacks])
  | insert tok cb => exact insert_leaves hc
  | cancel tok cb err =>
    cases cb with
    | none => exact cancel_leaves hc (hfree (by simp [hc, Call.HoldsCallbacks]))
    | some cb => exact absurd ⟨t, tok, cb, err, hc⟩ hstuck
  | _ => simp [hc, Call.HoldsSubmission] at hin

end Exits

/-- The loop collects its batch, by induction on what is left of it. -/
theorem collect_leaves {n : Nat} {ready : List (Ready κ)} (hpc : s.loop = .collect n ready)
    (hbatch : n ≤ s.cq.length) : ∃ s', Leaves s s' ∧ s'.call = s.call ∧
      s'.mSubmission = s.mSubmission ∧ s'.mCallbacks = none ∧
      ∃ ready', s'.loop = .dispatch ready' := by
  have hok : Unwinds s (.loop .ok) := ⟨rfl, n, ready, hpc⟩
  induction n generalizing s ready with
  | zero =>
    have hs : step s (.loop .ok) =
        some ({ s with mCallbacks := none, loop := .dispatch ready }, []) := by
      simp [step, loopStep, hpc]
    exact ⟨_, ⟨_, .single hok hs⟩, rfl, rfl, rfl, ready, rfl⟩
  | succ n ih =>
    cases hcq : s.cq with
    | nil => simp [hcq] at hbatch
    | cons c cq =>
      have hs : step s (.loop .ok) = some (collectStep s c cq n ready) := by
        simp [step, loopStep, hpc, hcq]
      obtain ⟨⟨s₁, e⟩, hcollect⟩ : ∃ r, collectStep s c cq n ready = r := ⟨_, rfl⟩
      rw [hcollect] at hs
      have hshape : s₁.call = s.call ∧ s₁.mSubmission = s.mSubmission ∧ s₁.cq = cq ∧
          ∃ ready', s₁.loop = .collect n ready' := by
        unfold collectStep at hcollect
        split at hcollect <;> cases hcollect
        · exact ⟨rfl, rfl, rfl, _, rfl⟩
        · exact ⟨rfl, rfl, rfl, _, rfl⟩
      obtain ⟨hcall, hsub, hcq', ready', hpc'⟩ := hshape
      have hbatch' : n ≤ s₁.cq.length := by
        rw [hcq']
        rw [hcq] at hbatch
        exact Nat.le_of_succ_le_succ hbatch
      obtain ⟨s', hleaves, hcall', hsub', hrest⟩ := ih hpc' hbatch' ⟨rfl, n, ready', hpc'⟩
      exact ⟨s', .trans ⟨e, .single hok hs⟩ hleaves, hcall'.trans hcall, hsub'.trans hsub, hrest⟩

/-- Nobody but those who have returned has moved. -/
def Frees (s s' : State θ π κ) : Prop :=
  Unlocked s' ∧ ∀ t, s'.call t = s.call t ∨ ∃ ret, s'.call t = .returned ret

theorem Left.frees (h : Left s t s') : Frees s s' := by
  refine ⟨h.unlocked, fun t' => ?_⟩
  by_cases heq : t' = t
  · subst heq
    exact .inr h.returned
  · exact .inl (h.others t' heq)

theorem submission_freed (hm : ∀ t, s.mSubmission = some t → (s.call t).HoldsSubmission)
    (hstuck : ¬Stuck s) (hcb : s.mCallbacks = none) : ∃ s', Leaves s s' ∧ Frees s s' := by
  cases hsub : s.mSubmission with
  | none => exact ⟨s, .refl s, ⟨hsub, hcb⟩, fun _ => .inl rfl⟩
  | some t =>
    obtain ⟨s', hleaves, hleft⟩ := holder_leaves hstuck (hm t hsub) fun _ => hcb
    exact ⟨s', hleaves, hleft.frees⟩

/-- Both mutexes become free. -/
theorem mutexes_freed (hm : Manned s) (hstuck : ¬Stuck s) : ∃ s', Leaves s s' ∧ Frees s s' := by
  cases hcb : s.mCallbacks with
  | none => exact submission_freed hm.submission hstuck hcb
  | some t =>
    rcases hm.callbacks t hcb with hin | ⟨-, n, ready, hpc⟩
    · obtain ⟨s', hleaves, hleft⟩ := holder_leaves hstuck hin.submission fun hnot => absurd hin hnot
      exact ⟨s', hleaves, hleft.frees⟩
    · have hbatch : n ≤ s.cq.length := by
        have hbatch := hm.batch
        rwa [hpc] at hbatch
      obtain ⟨s₁, hleaves, hcall, hsub, hfree, -⟩ := collect_leaves hpc hbatch
      have hsubmission : ∀ t, s₁.mSubmission = some t → (s₁.call t).HoldsSubmission := by
        intro t ht
        rw [hcall]
        exact hm.submission t (hsub ▸ ht)
      have hstuck₁ : ¬Stuck s₁ := by
        unfold Stuck
        rwa [hcall]
      obtain ⟨s', hleaves', hfrees⟩ := submission_freed hsubmission hstuck₁ hfree
      refine ⟨s', hleaves.trans hleaves', hfrees.1, ?_⟩
      rw [← hcall]
      exact hfrees.2

/-- A call of `add_sqe`. -/
def Call.Adds (c : Call π κ) : Prop := c ≠ .idle ∧ c ≠ .exitWake

/-- The call has returned, with a result if it was one of `add_sqe`. -/
def Over (c c' : Call π κ) : Prop := ¬c'.Inside ∧ (c.Adds → ∃ ret, c' = .returned ret)

/-- With both mutexes free a call returns. -/
theorem call_returns (hstuck : ¬Stuck s) (hfree : Unlocked s) (t : Thread θ) :
    ∃ s', Leaves s s' ∧ Unlocked s' ∧ Over (s.call t) (s'.call t) := by
  have hleft : (∃ s', Leaves s s' ∧ Left s t s') →
      ∃ s', Leaves s s' ∧ Unlocked s' ∧ Over (s.call t) (s'.call t) := by
    rintro ⟨s', hleaves, hleft⟩
    obtain ⟨ret, hret⟩ := hleft.returned
    exact ⟨s', hleaves, hleft.unlocked, by simp [hret, Call.Inside], fun _ => ⟨ret, hret⟩⟩
  cases hc : s.call t with
  | idle =>
    refine ⟨s, .refl s, hfree, by simp [hc, Call.Inside], ?_⟩
    rintro ⟨hidle, -⟩
    exact absurd rfl hidle
  | returned ret => exact ⟨s, .refl s, hfree, by simp [hc, Call.Inside], fun _ => ⟨ret, hc⟩⟩
  | exitWake =>
    have hs : callStep s t .ok = some (s.write.setCall t .idle, []) := by
      simp [callStep, hc]
    refine ⟨_, .call hs, ⟨hfree.submission, hfree.callbacks⟩, by simp [Call.Inside], ?_⟩
    rintro ⟨-, hexit⟩
    exact absurd rfl hexit
  | lockSubmission op cb =>
    rw [← hc]
    exact hleft (lockSubmission_leaves hc hfree)
  | _ =>
    rw [← hc]
    exact hleft (holder_leaves hstuck (by simp [hc, Call.HoldsSubmission]) fun _ => hfree.callbacks)

/-- From any state that is not stuck, the call of a thread can return. -/
theorem call_gets_out (hm : Manned s) (hstuck : ¬Stuck s) (t : Thread θ) :
    ∃ s', Leaves s s' ∧ Unlocked s' ∧ Over (s.call t) (s'.call t) := by
  obtain ⟨s₁, hleaves, hfree, hcalls⟩ := mutexes_freed hm hstuck
  have hstuck₁ : ¬Stuck s₁ := by
    rintro ⟨t, tok, cb, err, hc⟩
    rcases hcalls t with hsame | ⟨ret, hret⟩
    · exact hstuck ⟨t, tok, cb, err, hsame ▸ hc⟩
    · rw [hret] at hc
      cases hc
  obtain ⟨s', hleaves', hfree', hout, hret⟩ := call_returns hstuck₁ hfree t
  refine ⟨s', hleaves.trans hleaves', hfree', hout, fun hadds => hret ?_⟩
  rcases hcalls t with hsame | ⟨ret, hret⟩
  · rwa [hsame]
  · rw [hret]
    exact ⟨nofun, nofun⟩

/-- A call that is stuck keeps both mutexes for ever. -/
theorem stuck_keeps {h₀ h : History π κ} (hreach : Run step Always start h₀ s)
    (hstuck : Stuck s) (hrun : Run step Always s h s') :
    s'.mSubmission ≠ none ∧ s'.mCallbacks ≠ none := by
  obtain ⟨t, tok, cb, err, hc⟩ := hstuck
  obtain ⟨hcb, hc'⟩ := cancel_never_returns hreach hc hrun
  have hlocked : Locked s' := (Routing.of_run (hreach.trans hrun)).locked
  have hsub : s'.mSubmission = some t := hlocked t (by simp [hc', Call.HoldsSubmission])
  simp [hsub, hcb]

/-- When there is a deadlock, in every reachable state. -/
theorem deadlock_iff {h : History π κ} (hreach : Run step Always start h s) :
    (Stuck s ↔ ∀ h' s', Run step Always s h' s' → s'.mSubmission ≠ none ∧ s'.mCallbacks ≠ none) ∧
      (¬Stuck s → ∀ t, ∃ h' s', Run step Unwinds s h' s' ∧ Unlocked s' ∧ ¬(s'.call t).Inside) := by
  obtain ⟨hm, -⟩ := Manned.of_run hreach
  have hreturns : ¬Stuck s → ∀ t, ∃ h' s', Run step Unwinds s h' s' ∧ Unlocked s' ∧
      ¬(s'.call t).Inside := by
    intro hstuck t
    obtain ⟨s', ⟨h', hrun⟩, hfree, hout, -⟩ := call_gets_out hm hstuck t
    exact ⟨h', s', hrun, hfree, hout⟩
  refine ⟨⟨fun hstuck h' s' hrun => stuck_keeps hreach hstuck hrun, fun hkept => ?_⟩, hreturns⟩
  by_contra hstuck
  obtain ⟨h', s', hrun, hfree, -⟩ := hreturns hstuck .loop
  exact (hkept h' s' hrun.always).1 hfree.submission

end Unwinding

section Example

/-- The loop collects a batch, one thread waits for its mutex inside `add_sqe`, and
another one waits for that thread's. -/
theorem exists_contended :
    ∃ (h : History Unit Unit) (s : State Bool Unit Unit), Run step Always start h s ∧
      (s.mSubmission = some (.user true) ∧ s.mCallbacks = some .loop ∧ s.call .loop = .idle ∧
        s.call (.user true) = .lockCallbacks (.user ()) (.user ()) ∧
        s.call (.user false) = .lockSubmission (.user ()) none) := by
  apply exists_run_of_exec (List.replicate 5 (.call .loop .ok) ++
    [.loop .ok, .loop .ok, .loop .ok, .loop (.submitted 1), .enter (.user true) (.wake .ok),
      .post 0 1, .loop .ok, .loop .ok, .enter (.user true) (.addSqe () (some ())),
      .call (.user true) .ok, .loop .ok, .enter (.user false) (.addSqe () none)])
  decide +kernel

theorem deadlock_iff_contended :
    ∃ s : State Bool Unit Unit,
      s.mSubmission = some (.user true) ∧ s.mCallbacks = some .loop ∧
        ∀ t, ∃ h' s', Run step Unwinds s h' s' ∧ Unlocked s' ∧ ¬(s'.call t).Inside := by
  obtain ⟨_, s, hrun, hsub, hcb, hloop, htrue, hfalse⟩ := exists_contended
  refine ⟨s, hsub, hcb, (deadlock_iff hrun).2 ?_⟩
  rintro ⟨t, tok, cb, err, hc⟩
  rcases t with _ | (_ | _)
  · rw [hloop] at hc
    cases hc
  · rw [hfalse] at hc
    cases hc
  · rw [htrue] at hc
    cases hc

end Example

end UringContext
