import Arkio.CoroProcesses
import Arkio.UringExit

/-!
# Waiting for a coroutine

The pattern of `context_exit_guard`: the main coroutine has a guard, so that `exit`
is called at its end, `co_async` starts it, and `run()` is called. Then `run()`
returns when the main coroutine has returned and not before, and the future has the
value that the blocking flavour of the coroutine returns.
-/
namespace UringContext

open Bindings LabelledMachine

variable {θ π κ : Type} [DecidableEq θ] {s s' : State θ π κ} {h e : History π κ} {G : Prop}

/-- `exit` is called without an error, and where `G` holds. -/
def ExitsWhen (G : Prop) : Action θ π κ → Prop
  | .enter _ (.exit err) => err = none ∧ G
  | _ => True

/-- What was asked of `run`, and what it returned, is success, and then `G` holds. -/
structure Succeeded (G : Prop) (h : History π κ) : Prop where
  asked : ∀ ret, asked h = some ret → ret = .ok () ∧ G
  returned : ∀ ret, .returned ret ∈ h → ret = .ok () ∧ G

theorem mem_returns {ret : Result Unit} : ret ∈ returns h ↔ .returned ret ∈ h := by
  rw [returns, List.mem_filterMap]
  constructor
  · rintro ⟨e, he, heq⟩
    split at heq <;> cases heq
    exact he
  · exact fun he => ⟨_, he, rfl⟩

omit [DecidableEq θ] in
theorem Succeeded.imp {G' : Prop} (hg : Succeeded G h) (himp : G → G') : Succeeded G' h :=
  ⟨fun ret hr => (hg.asked ret hr).imp_right himp,
    fun ret hr => (hg.returned ret hr).imp_right himp⟩

theorem step_succeeded {a : Action θ π κ} (hrun : Run step Orderly start h s) (hok : Orderly s a)
    (hex : ExitsWhen G a) (hs : step s a = some (s', e)) (hg : Succeeded G h) :
    Succeeded G (h ++ e) := by
  have hhealthy := hrun.mono fun _ _ ha => ha.healthy
  have hctl := (step_cycle hs hok.healthy (.of_run hrun) (.of_run hhealthy)).control
  cases step_exit hs with
  | kept _ _ he _ _ =>
    constructor
    · intro ret hret
      rw [asked_append_unasked he] at hret
      exact hg.asked ret hret
    · intro ret hret
      rcases List.mem_append.mp hret with hret | hret
      · exact hg.returned ret hret
      · exact (he _ hret).elim
  | called t err _ _ =>
    obtain ⟨rfl, hG⟩ := hex
    constructor
    · intro ret hret
      rw [asked_append_singleton] at hret
      cases hasked : asked h with
      | none =>
        simp only [askedStep, hasked, Option.getD_none, Option.some.injEq] at hret
        exact ⟨hret.symm, hG⟩
      | some ret' =>
        simp only [askedStep, hasked, Option.getD_some, Option.some.injEq] at hret
        subst hret
        exact hg.asked _ hasked
    · intro ret hret
      simp only [List.mem_append, List.mem_singleton, reduceCtorEq, or_false] at hret
      exact hg.returned ret hret
  | returned ans hpc hasked _ _ =>
    have hanswer := hg.asked _ ((ExitState.of_run hrun).answer hasked)
    constructor
    · intro ret hret
      simp [askedStep] at hret
    · intro ret hret
      rcases List.mem_append.mp hret with hret | hret
      · exact hg.returned ret hret
      · rw [List.mem_singleton] at hret
        rw [Event.returned.inj hret]
        exact hanswer
  | waitFailed err hpc => exact absurd hpc hok.faultless.wait
  | wakerExited _ _ rest hpc => simp [hpc, Control] at hctl

theorem run_succeeded (hrun : Run step Orderly start h s)
    (hrun' : Run step (fun s a => Orderly s a ∧ ExitsWhen G a) s e s') (hg : Succeeded G h) :
    Succeeded G (h ++ e) := by
  induction hrun' with
  | start =>
    rw [List.append_nil]
    exact hg
  | next hprev hok hs ih =>
    rw [← List.append_assoc]
    exact step_succeeded (hrun.trans (hprev.mono fun _ _ ha => ha.1)) hok.1 hok.2 hs ih

end UringContext

namespace Processes

open Bindings LabelledMachine UringContext

variable {θ ι σ ρ χ : Type} {τ : ι → Type}

/-- `exit` is called without an error, and where `G` holds. -/
def ExitsWhen (G : Prop) : Action θ ι → Prop
  | .exit _ err => err = none ∧ G
  | _ => True

instance (G : Prop) [Decidable G] : DecidablePred (ExitsWhen G : Action θ ι → Prop) := fun a =>
  match a with
  | .exit _ err => inferInstanceAs (Decidable (err = none ∧ G))
  | .start _ _ | .complete _ | .poll _ _ | .loop _ | .call _ _ | .finish _ | .wake _ _ =>
    isTrue trivial

/-- No call of the kernel fails below the context. -/
def Tended (w : World θ ι σ τ ρ χ) : Action θ ι → Prop
  | .poll n res => w.ctx.inflight[n]?.map Sqe.op = some .pollWaker → 1 ≤ w.ctx.counter ∧ 0 ≤ res
  | .loop ans => w.ctx.loop.Served w.ctx.sq.length ans ∧ WaitOk w.ctx (.loop ans)
  | .call t ans => ans = .ok ∧ ((w.ctx.call t).GetsPoll → w.ctx.sq.length < batchSize)
  | .wake _ ans => ans = .ok
  | _ => True

instance [DecidableEq ι] [DecidableEq ρ] (w : World θ ι σ τ ρ χ) : DecidablePred (Tended w) :=
  fun a =>
    match a with
    | .poll n res => inferInstanceAs (Decidable
        (w.ctx.inflight[n]?.map Sqe.op = some .pollWaker → 1 ≤ w.ctx.counter ∧ 0 ≤ res))
    | .loop ans => inferInstanceAs (Decidable
        (w.ctx.loop.Served w.ctx.sq.length ans ∧ WaitOk w.ctx (.loop ans)))
    | .call t ans => inferInstanceAs (Decidable
        (ans = .ok ∧ ((w.ctx.call t).GetsPoll → w.ctx.sq.length < batchSize)))
    | .wake _ ans => inferInstanceAs (Decidable (ans = .ok))
    | .start _ _ | .complete _ | .finish _ | .exit _ _ => isTrue trivial

section Context

variable [DecidableEq θ] [DecidableEq ι] {W : Workload ι σ τ ρ χ} {w w' : World θ ι σ τ ρ χ}
  {h e : History (ι × ρ) (ι × Unit)} {t : Thread θ} {i : ι} {G : Prop}

/-- The condition on the steps of the context. -/
abbrev Minded (G : Prop) (s : Tagged θ ι ρ Unit) (a : UringContext.Action θ (ι × ρ) (ι × Unit)) :
    Prop :=
  Orderly s a ∧ UringContext.ExitsWhen G a

omit [DecidableEq ι] in
theorem lift_run {a : UringContext.Action θ (ι × ρ) (ι × Unit)} (hok : Minded G w.ctx a)
    (hs : w.lift a = some (w', e)) : Run UringContext.step (Minded G) w.ctx e w'.ctx := by
  obtain ⟨ctx, hstep, rfl⟩ := World.lift_eq_some hs
  exact .single hok hstep

theorem activate_run {v : Option (Result Int)} (hs : w.activate W t i v = some (w', e)) :
    Run UringContext.step (Minded G) w.ctx e w'.ctx := by
  obtain ⟨r, ctx, hr, rfl, hctx⟩ := World.activate_eq_some hs
  cases hq : r.request with
  | none =>
    rw [hq] at hctx
    obtain ⟨rfl, rfl⟩ := hctx
    exact .start
  | some q =>
    rw [hq] at hctx
    have hok : Minded G w.ctx (.enter t (.addSqe (i, q) (some (i, ())))) :=
      ⟨⟨⟨trivial, trivial⟩, trivial, trivial⟩, trivial⟩
    exact .single hok hctx

/-- A step of the world is a step or two of the context. -/
theorem step_run {a : Action θ ι} (ht : Tended w a) (hex : ExitsWhen G a)
    (hs : Processes.step W w a = some (w', e)) :
    Run UringContext.step (Minded G) w.ctx e w'.ctx := by
  cases a with
  | start t i =>
    simp only [Processes.step, World.start] at hs
    split at hs
    · exact activate_run (w := { w with started := Function.update w.started i true }) hs
    · cases hs
  | complete n =>
    simp only [Processes.step, World.complete] at hs
    split at hs
    next i q tok hq =>
      split at hs
      next => cases hs
      next x answers hanswers =>
        obtain ⟨ctx, hctx, rfl⟩ := World.lift_eq_some hs
        have hok : Minded G w.ctx (.post n (W.res x)) := by
          refine ⟨⟨⟨fun hop => ?_, trivial⟩, trivial, trivial⟩, trivial⟩
          simp [hq] at hop
        exact .single hok hctx
    next => cases hs
  | poll n res =>
    simp only [Processes.step] at hs
    split at hs
    · exact lift_run (a := .post n res) ⟨⟨⟨ht, trivial⟩, trivial, trivial⟩, trivial⟩ hs
    · cases hs
  | loop ans =>
    have hok : Minded G w.ctx (.loop ans) := ⟨⟨⟨ht.1, ht.2⟩, trivial, trivial⟩, trivial⟩
    simp only [Processes.step, World.loop] at hs
    split at hs
    next tok i x ret rest hpc =>
      split at hs
      next w₁ e₁ hs₁ =>
        obtain ⟨⟨w₂, e₂⟩, hs₂, heq⟩ := Option.map_eq_some_iff.mp hs
        obtain ⟨rfl, rfl⟩ := Prod.mk.inj heq
        exact (lift_run hok hs₁).trans (activate_run hs₂)
      next => cases hs
    next => exact lift_run hok hs
  | call t ans =>
    exact lift_run (a := .call t ans) ⟨⟨⟨ht.1, trivial⟩, ht.2, trivial⟩, trivial⟩ hs
  | finish t =>
    exact lift_run (a := .finish t) ⟨⟨⟨trivial, trivial⟩, trivial, trivial⟩, trivial⟩ hs
  | wake t ans =>
    exact lift_run (a := .enter t (.wake ans)) ⟨⟨⟨ht, trivial⟩, trivial, trivial⟩, trivial⟩ hs
  | exit t err =>
    obtain ⟨rfl, hG⟩ := hex
    exact lift_run (a := .enter t (.exit none))
      ⟨⟨⟨trivial, trivial⟩, trivial, trivial⟩, rfl, hG⟩ hs

/-- What activates a process. -/
inductive Activates (w : World θ ι σ τ ρ χ) (i : ι) : Action θ ι → Prop where
  | start (t : Thread θ) (hnew : w.started i = false) : Activates w i (.start t i)
  | loop (ans : Answer) (tok : Nat) (x : Unit) (ret : Result Int)
      (rest : List (Ready (ι × Unit)))
      (hpc : w.ctx.loop = .dispatch (⟨tok, .user (i, x), ret⟩ :: rest)) : Activates w i (.loop ans)

omit [DecidableEq ι] in
theorem lift_proc {a : UringContext.Action θ (ι × ρ) (ι × Unit)}
    (hs : w.lift a = some (w', e)) : w'.proc = w.proc := by
  obtain ⟨ctx, -, rfl⟩ := World.lift_eq_some hs
  rfl

theorem activate_proc {v : Option (Result Int)} {j : ι} (hs : w.activate W t j v = some (w', e))
    (hne : i ≠ j) : w'.proc i = w.proc i := by
  obtain ⟨r, ctx, -, rfl, -⟩ := World.activate_eq_some hs
  simp [World.settle, Function.update_of_ne hne]

/-- A process changes when it is activated only. -/
theorem step_proc {a : Action θ ι} (hs : Processes.step W w a = some (w', e))
    (hna : ¬Activates w i a) : w'.proc i = w.proc i := by
  cases a with
  | start t j =>
    simp only [Processes.step, World.start] at hs
    split at hs
    next hcall =>
      simp only [Bool.and_eq_true, Bool.not_eq_true'] at hcall
      refine activate_proc (w := { w with started := Function.update w.started j true }) hs ?_
      rintro rfl
      exact hna (.start t hcall.2)
    next => cases hs
  | complete n =>
    simp only [Processes.step, World.complete] at hs
    split at hs
    next =>
      split at hs
      next => cases hs
      next =>
        obtain ⟨ctx, -, rfl⟩ := World.lift_eq_some hs
        rfl
    next => cases hs
  | poll n res =>
    simp only [Processes.step] at hs
    split at hs
    · exact congrFun (lift_proc hs) i
    · cases hs
  | loop ans =>
    simp only [Processes.step, World.loop] at hs
    split at hs
    next tok j x ret rest hpc =>
      split at hs
      next w₁ e₁ hs₁ =>
        obtain ⟨⟨w₂, e₂⟩, hs₂, heq⟩ := Option.map_eq_some_iff.mp hs
        obtain ⟨rfl, rfl⟩ := Prod.mk.inj heq
        have hne : i ≠ j := by
          rintro rfl
          exact hna (.loop ans tok x ret rest hpc)
        rw [activate_proc hs₂ hne, lift_proc hs₁]
      next => cases hs
    next => exact congrFun (lift_proc hs) i
  | call t ans => exact congrFun (lift_proc hs) i
  | finish t => exact congrFun (lift_proc hs) i
  | wake t ans => exact congrFun (lift_proc hs) i
  | exit t err => exact congrFun (lift_proc hs) i

end Context

end Processes

namespace Coro

open Bindings SyncIo LabelledMachine UringContext
open Processes (Submits Tended)

variable {θ ι φ Q υ : Type} [DecidableEq θ] [DecidableEq ι] [DecidableEq φ] {R : Roots ι φ Q υ}
  {h e : History (ι × Fd × Request) (ι × Unit)}
  {w w' : Processes.World θ ι (Store φ) (fun i => Parked (R.region i) Q υ) (Fd × Request) Response}
  {main : ι}

/-- `exit` is called by the guard of the main coroutine, which goes at its end, and by
nobody else. The guard goes within the last activation, which is one step here: its
call of `exit` follows that step. -/
structure Guarded (main : ι)
    (w : Processes.World θ ι (Store φ) (fun i => Parked (R.region i) Q υ) (Fd × Request) Response)
    (a : Processes.Action θ ι) : Prop where
  submits : Submits w a
  tended : Tended w a
  exits : Processes.ExitsWhen ((w.proc main).future ≠ []) a

instance : DecidablePred (Guarded main w) := fun a =>
  decidable_of_iff (Submits w a ∧ Tended w a ∧ Processes.ExitsWhen ((w.proc main).future ≠ []) a)
    ⟨fun h => ⟨h.1, h.2.1, h.2.2⟩, fun h => ⟨h.submits, h.tended, h.exits⟩⟩

omit [DecidableEq θ] in
/-- A coroutine that has returned is not activated again. -/
theorem Matches.not_activates (hm : Matches R h w main (w.proc main).future) (hf : (w.proc main).future ≠ [])
    (a : Processes.Action θ ι) : ¬Processes.Activates w main a := by
  cases hm with
  | returned n k wb v hblocking hstarted hfuture hanswers hstore hmade hv =>
    rintro (⟨t, hnew⟩ | ⟨ans, tok, x, ret, rest, hpc⟩)
    · rw [hstarted] at hnew
      cases hnew
    · refine hv (.batch tok) x ⟨ret, ?_⟩
      rw [hpc]
      exact List.mem_cons_self
  | fresh hstarted hfuture => exact absurd hfuture hf
  | waiting n k wb q phase l hblocking hstarted hfuture => exact absurd hfuture hf
  | answered n k wb q response l hblocking hresponse hstarted hfuture => exact absurd hfuture hf

section Example

/-- The main coroutine is the second one: the guard of it ends `run`, while the first
one still waits. -/
theorem exists_ended_reader :
    ∃ (h : History (Bool × Fd × Request) (Bool × Unit))
      (w : Processes.World Unit Bool (Store Bool)
        (fun i => Parked (twoReaders.region i) (Option (Result Nat)) (Result Nat))
        (Fd × Request) Response),
      Run (Processes.step twoReaders.workload) (Guarded true)
          (Processes.start twoReaders.workload) h w ∧
        (returns h = [.ok ()] ∧ (w.proc false).future = []) := by
  apply exists_run_of_exec
    (List.replicate 5 (.call .loop .ok) ++ .loop .ok ::
      .start (.user ()) false :: List.replicate 5 (.call (.user ()) .ok) ++ .finish (.user ()) ::
      .start (.user ()) true :: List.replicate 5 (.call (.user ()) .ok) ++ .finish (.user ()) ::
      [.loop .ok, .loop .ok, .loop (.submitted 3), .complete 2] ++ List.replicate 6 (.loop .ok) ++
      [.exit .loop none, .call .loop .ok, .loop .ok, .loop .ok, .loop .ok])
  decide +kernel

end Example

end Coro
