import Arkio.UringRounds

/-!
# `exit` gets through

From every state of a healthy context in which `run` is under way and `exit` was
called, `run` can return, wherever the loop and the other threads are. The loop comes
round to the exit check, or the waker's callback calls `exit` itself and the batch
ends there too.
-/
namespace UringContext

open Bindings LabelledMachine

variable {θ π κ : Type} [DecidableEq θ]

/-- `run` returns. -/
def Returns (s : State θ π κ) : Prop :=
  ∃ h s' ret, Run step Serves s (h ++ [.returned ret]) s' ∧ s'.loop = .outside

variable {s s' : State θ π κ} {e h : History π κ} {ans : Answer} {rest : List (Ready κ)}

theorem Returns.of_run (hrun : Run step Serves s h s') (hr : Returns s') : Returns s := by
  obtain ⟨h', s'', ret, hrun', hout⟩ := hr
  refine ⟨h ++ h', s'', ret, ?_, hout⟩
  rw [List.append_assoc]
  exact hrun.trans hrun'

theorem Returns.of_loop (hs : step s (.loop ans) = some (s', e)) (hout : s.loop ≠ .outside)
    (hserved : s.loop.Served s.sq.length ans) (hwait : s.loop = .wait → ans = .ok)
    (hr : Returns s') : Returns s :=
  .of_run (.single (show Serves s (.loop ans) from ⟨hout, hserved, hwait⟩) hs) hr

/-- The exit check. -/
theorem check_returns (hexit : s.exiting = true) (hpc : s.loop = .check) : Returns s := by
  obtain ⟨ret, s', hcheck, hout⟩ : ∃ ret s', checkStep s = (s', [.returned ret]) ∧
      s'.loop = .outside := by
    unfold checkStep
    rw [if_pos hexit]
    split
    · exact ⟨_, _, rfl, rfl⟩
    · exact ⟨_, _, rfl, rfl⟩
  have hs : step s (.loop .ok) = some (s', [.returned ret]) := by
    simp [step, loopStep, hpc, hcheck]
  have hok : Serves s (.loop .ok) := by simp [Serves, hpc, LoopPc.Served]
  exact ⟨[], s', ret, .single hok hs, hout⟩

/-- A batch without the waker, by induction on what is left of it. -/
theorem dispatch_returns {ready : List (Ready κ)} (hc : Calm s) (hexit : s.exiting = true)
    (hpc : s.loop = .dispatch ready) (hno : ∀ r ∈ ready, r.callback ≠ .waker) : Returns s := by
  induction ready generalizing s with
  | nil =>
    have hs : step s (.loop .ok) = some ({ s with loop := .check }, []) := by
      simp [step, loopStep, hpc]
    exact .of_loop hs (by simp [hpc]) (by simp [hpc, LoopPc.Served]) (fun _ => rfl)
      (check_returns hexit rfl)
  | cons r ready ih =>
    have hidle : s.call .loop = .idle := hc.attends (by rw [hpc]; exact id)
    cases hcb : r.callback with
    | waker => exact absurd hcb (hno r List.mem_cons_self)
    | user k =>
      have hs : step s (.loop .ok) = some ({ s with loop := .callback ready }, [.invoked r]) := by
        simp [step, loopStep, hpc, invokeStep, hcb]
      have hc' : Calm { s with loop := .callback ready } := hc.goOn hs rfl
      have hs' : step { s with loop := .callback ready } (.loop .ok) =
          some ({ s with loop := .dispatch ready }, []) := by
        simp [step, loopStep, hidle, Call.isIdle]
      have hc'' : Calm { s with loop := .dispatch ready } := hc'.goOn hs' rfl
      refine .of_loop hs (by simp [hpc]) (by simp [hpc, LoopPc.Served]) (fun _ => rfl) ?_
      refine .of_loop hs' (by simp) (by simp [LoopPc.Served]) (fun _ => rfl) ?_
      exact ih hc'' hexit rfl fun r hr => hno r (List.mem_cons_of_mem _ hr)

/-- The waker's callback has called `exit`. -/
theorem wakerExit_returns (hc : Calm s) (hexit : s.exiting = true) (hpc : s.loop = .wakerExit rest)
    (hcall : s.call .loop = .exitWake) (hno : ∀ r ∈ rest, r.callback ≠ .waker) : Returns s := by
  have hs : callStep s .loop .ok = some (s.write.setCall .loop .idle, []) := by
    simp [callStep, hcall]
  have hc' := hc.of_leaves (.call hs)
  have hs' : step (s.write.setCall .loop .idle) (.loop .ok) =
      some ({ s.write.setCall .loop .idle with loop := .dispatch rest }, []) := by
    simp [step, loopStep, hpc, Call.isIdle]
  have hc'' := hc'.goOn hs' rfl
  refine .of_run (.single (show Serves s (.call .loop .ok) from rfl) hs) ?_
  exact .of_loop hs' (by simp [hpc]) (by simp [hpc, LoopPc.Served]) (fun _ => rfl)
    (dispatch_returns hc'' hexit rfl hno)

/-- The waker could not be armed again: its callback calls `exit`. -/
theorem overfull_returns (hc : Calm s) (ho : Overfull s) (hpc : s.loop = .wakerRearm rest)
    (hno : ∀ r ∈ rest, r.callback ≠ .waker) : Returns s := by
  have hs : step s (.loop .ok) =
      some (s.wakerExit (asEc ENOBUFS) rest, [.wakerExited (asEc ENOBUFS)]) := by
    simp [step, loopStep, hpc, ho.call]
  have hc' := hc.next hs (not_stuck_setCall hc.stuck rfl (by simp))
  exact .of_loop hs (by simp [hpc]) (by simp [hpc, LoopPc.Served]) (fun _ => rfl)
    (wakerExit_returns hc' rfl rfl (by simp [State.wakerExit]) hno)

/-- Wherever the loop is inside `run`, once `exit` was called `run` can return. -/
theorem exit_gets_through (hrun : Run step Assumed start h s) (hexit : s.exiting = true)
    (hin : s.loop ≠ .init ∧ s.loop ≠ .outside) :
    ∃ h' s' ret, Run step Serves s (h' ++ [.returned ret]) s' ∧ s'.loop = .outside := by
  obtain ⟨h₁, s₁, hrun₁, hround, hexit₁⟩ := loop_comes_round ⟨h, hrun⟩ hin
  refine Returns.of_run hrun₁ ?_
  cases hround with
  | check hl hpc => exact check_returns (hexit₁.trans hexit) hpc
  | overfull hc ho rest hpc hno => exact overfull_returns hc ho hpc hno

/-- The loop sleeps, with an operation that a thread has added and its call of `exit`. -/
theorem exit_gets_through_late_add :
    ∃ s : State Unit Unit Unit, s.loop = .wait ∧ s.cq = [] ∧
      ∃ h' s' ret, Run step Serves s (h' ++ [.returned ret]) s' ∧ s'.loop = .outside := by
  obtain ⟨h, s, hrun, hpc, -, hexit, hcq⟩ := exists_late_add
  exact ⟨s, hpc, hcq, exit_gets_through hrun hexit ⟨by simp [hpc], by simp [hpc]⟩⟩

end UringContext
