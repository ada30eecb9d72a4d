import Arkio.UringProactor

/-!
# Processes on a context

Any confined processes on one context. The world is the context with its threads,
rings and callbacks, the store, and for each process its state and what it will
still be answered. A thread starts a process; the loop thread activates it again
from inside its closure. What the context does between them is `UringContext`.

Every run is one of the proactor, so that each process goes through the states of
its own `alone`, whatever the threads, the kernel and the other processes do.
-/
namespace Processes

open Bindings LabelledMachine UringContext
open Proactor (Slot Turn Solo)

/-- Processes that are answered with the results of CQEs. -/
structure Workload (ι σ : Type) (τ : ι → Type) (ρ χ : Type) where
  system : Proactor.System ι σ τ ρ χ (Result Int)
  setup : Proactor.Setup ι σ τ χ
  res : χ → Int
  value_eq : ∀ x, system.value x = toResult (res x)

structure World (θ ι σ : Type) (τ : ι → Type) (ρ χ : Type) where
  ctx : Tagged θ ι ρ Unit
  store : σ
  proc : (i : ι) → τ i
  started : ι → Bool
  answers : ι → List χ

/-- `start` begins a process on a thread. `complete` and `poll` are the kernel's: it
answers a process, or the waker's poll. The rest are the steps of the context. -/
inductive Action (θ ι : Type) where
  | start (t : Thread θ) (i : ι)
  | complete (n : Nat)
  | poll (n : Nat) (res : Int)
  | loop (ans : Answer)
  | call (t : Thread θ) (ans : Answer)
  | finish (t : Thread θ)
  | wake (t : Thread θ) (ans : Answer)
  | exit (t : Thread θ) (err : Option ErrorCode)
  deriving DecidableEq, Repr

section Machine

variable {θ ι σ ρ χ : Type} {τ : ι → Type} [DecidableEq θ] [DecidableEq ι]

abbrev Outcome (θ ι σ : Type) (τ : ι → Type) (ρ χ : Type) :=
  Option (World θ ι σ τ ρ χ × History (ι × ρ) (ι × Unit))

/-- A step of the context alone. -/
def World.lift (w : World θ ι σ τ ρ χ) (a : UringContext.Action θ (ι × ρ) (ι × Unit)) :
    Outcome θ ι σ τ ρ χ :=
  (UringContext.step w.ctx a).map fun r => ({ w with ctx := r.1 }, r.2)

/-- An activation of a process is over. -/
def World.settle (w : World θ ι σ τ ρ χ) (i : ι) (r : Turn σ (τ i) ρ) : World θ ι σ τ ρ χ :=
  { w with store := r.store, proc := Function.update w.proc i r.proc }

/-- An activation of a process on a thread. If it asks, the thread is then inside
`add_sqe` with the request and the closure. -/
def World.activate (W : Workload ι σ τ ρ χ) (w : World θ ι σ τ ρ χ) (t : Thread θ) (i : ι)
    (v : Option (Result Int)) : Outcome θ ι σ τ ρ χ :=
  match W.system.activate i (w.proc i) v w.store with
  | none => none
  | some r =>
    match r.request with
    | none => some (w.settle i r, [])
    | some q => (w.settle i r).lift (.enter t (.addSqe (i, q) (some (i, ()))))

/-- A thread that is free to call starts a process. -/
def World.start (W : Workload ι σ τ ρ χ) (w : World θ ι σ τ ρ χ) (t : Thread θ) (i : ι) :
    Outcome θ ι σ τ ρ χ :=
  if (w.ctx.call t).isIdle && w.ctx.mayCall t && !w.started i then
    { w with started := Function.update w.started i true }.activate W t i none
  else none

/-- The kernel completes a request with the next answer it has for that process. -/
def World.complete (W : Workload ι σ τ ρ χ) (w : World θ ι σ τ ρ χ) (n : Nat) :
    Outcome θ ι σ τ ρ χ :=
  match w.ctx.inflight[n]? with
  | some ⟨.user (i, q), _⟩ =>
    match w.answers i with
    | [] => none
    | x :: answers =>
      { w with
        store := W.system.serve q x w.store
        answers := Function.update w.answers i answers }.lift (.post n (W.res x))
  | _ => none

/-- The next step of the loop thread. Invoking the closure of a process activates it
with its answer. -/
def World.loop (W : Workload ι σ τ ρ χ) (w : World θ ι σ τ ρ χ) (ans : Answer) :
    Outcome θ ι σ τ ρ χ :=
  match w.ctx.loop with
  | .dispatch (⟨_, .user (i, _), ret⟩ :: _) =>
    match w.lift (.loop ans) with
    | some (w', e) => (w'.activate W .loop i (some ret)).map fun r => (r.1, e ++ r.2)
    | none => none
  | _ => w.lift (.loop ans)

def step (W : Workload ι σ τ ρ χ) (w : World θ ι σ τ ρ χ) : Action θ ι → Outcome θ ι σ τ ρ χ
  | .start t i => w.start W t i
  | .complete n => w.complete W n
  | .poll n res =>
    match w.ctx.inflight[n]? with
    | some ⟨.pollWaker, _⟩ => w.lift (.post n res)
    | _ => none
  | .loop ans => w.loop W ans
  | .call t ans => w.lift (.call t ans)
  | .finish t => w.lift (.finish t)
  | .wake t ans => w.lift (.enter t (.wake ans))
  | .exit t err => w.lift (.enter t (.exit err))

/-- The context is being initialised, and no process was started. -/
def start (W : Workload ι σ τ ρ χ) : World θ ι σ τ ρ χ where
  ctx := UringContext.start
  store := W.setup.store
  proc := W.setup.proc
  started := fun _ => false
  answers := W.setup.answers

/-- Every submission succeeds: there is room for its SQE, and the eventfd is written. -/
def Submits (w : World θ ι σ τ ρ χ) : Action θ ι → Prop
  | .call t ans => (w.ctx.call t).Succeeds w.ctx.sq.length ans
  | _ => True

omit [DecidableEq ι] in
theorem World.lift_eq_some {w w' : World θ ι σ τ ρ χ} {e : History (ι × ρ) (ι × Unit)}
    {a : UringContext.Action θ (ι × ρ) (ι × Unit)} (hs : w.lift a = some (w', e)) :
    ∃ ctx, UringContext.step w.ctx a = some (ctx, e) ∧ w' = { w with ctx := ctx } := by
  obtain ⟨⟨ctx, e'⟩, hstep, heq⟩ := Option.map_eq_some_iff.mp hs
  obtain ⟨rfl, rfl⟩ := Prod.mk.inj heq
  exact ⟨ctx, hstep, rfl⟩

/-- What an activation does: it settles, and the thread enters `add_sqe` with what
the process asks. -/
theorem World.activate_eq_some {W : Workload ι σ τ ρ χ} {w w' : World θ ι σ τ ρ χ}
    {t : Thread θ} {i : ι} {v : Option (Result Int)} {e : History (ι × ρ) (ι × Unit)}
    (hs : w.activate W t i v = some (w', e)) :
    ∃ r ctx, W.system.activate i (w.proc i) v w.store = some r ∧
      w' = { w.settle i r with ctx := ctx } ∧
      match r.request with
      | none => ctx = w.ctx ∧ e = []
      | some q =>
        UringContext.step w.ctx (.enter t (.addSqe (i, q) (some (i, ())))) = some (ctx, e) := by
  unfold World.activate at hs
  split at hs
  next => cases hs
  next r hr =>
    split at hs
    next hnone =>
      obtain ⟨rfl, rfl⟩ := Prod.mk.inj (Option.some.inj hs)
      exact ⟨r, w.ctx, hr, rfl, by rw [hnone]; exact ⟨rfl, rfl⟩⟩
    next q hq =>
      obtain ⟨ctx, hstep, rfl⟩ := World.lift_eq_some hs
      exact ⟨r, ctx, hr, rfl, by rw [hq]; exact hstep⟩

end Machine

section Simulation

variable {θ ι σ ρ χ : Type} {τ : ι → Type} [DecidableEq θ] [DecidableEq ι] {W : Workload ι σ τ ρ χ}
  {h e : History (ι × ρ) (ι × Unit)} {w w' : World θ ι σ τ ρ χ} {i : ι}

/-- The world as a state of the proactor. -/
def World.abstract (w : World θ ι σ τ ρ χ) (slot : ι → Slot ρ (Result Int)) :
    Proactor.State ι σ τ ρ χ (Result Int) :=
  ⟨w.store, w.proc, slot, w.started, w.answers⟩

/-- The proactor has come to where the world is. -/
def Simulated (W : Workload ι σ τ ρ χ) (h : History (ι × ρ) (ι × Unit))
    (w : World θ ι σ τ ρ χ) : Prop :=
  ∃ m slot, Run (Proactor.step W.system) Always W.setup.start m (w.abstract slot) ∧
    Proactive h w.ctx slot (Proactor.requests m)

theorem simulated_start (W : Workload ι σ τ ρ χ) :
    Simulated W [] (start W : World θ ι σ τ ρ χ) :=
  ⟨[], fun _ => .idle, .start, proactive_start⟩

/-- A step of the context that is none of the proactor. -/
theorem Simulated.lift {a : UringContext.Action θ (ι × ρ) (ι × Unit)} (hw : Simulated W h w)
    (hp : Plain w.ctx a) (hs : w.lift a = some (w', e)) : Simulated W (h ++ e) w' := by
  obtain ⟨m, slot, hrun, hi⟩ := hw
  obtain ⟨ctx, hstep, rfl⟩ := World.lift_eq_some hs
  exact ⟨m, slot, hrun, hi.plain hstep hp⟩

/-- The activation of a process that has nothing outstanding. -/
theorem Simulated.activate {m : List (Proactor.Event ι ρ (Result Int))}
    {slot : ι → Slot ρ (Result Int)} {t : Thread θ} {v : Option (Result Int)}
    (hidle : slot i = .idle) (hi : Proactive h w.ctx slot (Proactor.requests m))
    (hs : w.activate W t i v = some (w', e)) :
    ∃ r, W.system.activate i (w.proc i) v w.store = some r ∧
      (∀ slot', w'.abstract slot' = { w.abstract slot' with
        store := r.store, proc := Function.update w.proc i r.proc }) ∧
      Proactive (h ++ e) w'.ctx (Function.update slot i (r.slot (Result Int)))
        (Proactor.requests (m ++ r.asks i)) := by
  obtain ⟨r, ctx, hr, rfl, hctx⟩ := World.activate_eq_some hs
  refine ⟨r, hr, fun _ => rfl, ?_⟩
  cases hq : r.request with
  | none =>
    rw [hq] at hctx
    obtain ⟨rfl, rfl⟩ := hctx
    have hslot : Function.update slot i (r.slot (Result Int)) = slot := by
      rw [← Function.update_eq_self i slot, hidle]
      simp [Turn.slot, hq]
    rw [hslot]
    simpa [Turn.asks, hq] using hi
  | some q =>
    rw [hq] at hctx
    have hentered := hi.entered hidle hctx
    simpa [Turn.asks, Turn.slot, hq, Proactor.requests_append_asked] using hentered

theorem Simulated.start {t : Thread θ} (hw : Simulated W h w)
    (hs : w.start W t i = some (w', e)) : Simulated W (h ++ e) w' := by
  obtain ⟨m, slot, hrun, hi⟩ := hw
  unfold World.start at hs
  split at hs
  next hcall =>
    simp only [Bool.and_eq_true, Bool.not_eq_true'] at hcall
    have hidle : slot i = .idle := (Proactor.Following.of_run hrun i).slot_of_fresh hcall.2
    let w₁ : World θ ι σ τ ρ χ := { w with started := Function.update w.started i true }
    obtain ⟨r, hr, habstract, hi'⟩ := Simulated.activate (w := w₁) hidle hi hs
    have hr' : W.system.activate i (w.proc i) none w.store = some r := hr
    have hstep : Proactor.step W.system (w.abstract slot) (.start i) =
        some (w'.abstract (Function.update slot i (r.slot _)), r.asks i) := by
      rw [habstract]
      simp [Proactor.step, World.abstract, hcall.2, hr', w₁, Proactor.State.settle]
    exact ⟨_, _, hrun.next trivial hstep, hi'⟩
  next => cases hs

theorem Simulated.complete {n : Nat} (hw : Simulated W h w)
    (hs : w.complete W n = some (w', e)) : Simulated W (h ++ e) w' := by
  obtain ⟨m, slot, hrun, hi⟩ := hw
  unfold World.complete at hs
  split at hs
  next i q tok hq =>
    split at hs
    next => cases hs
    next x answers hanswers =>
      obtain ⟨ctx, hctx, rfl⟩ := World.lift_eq_some hs
      obtain ⟨hslot, hi'⟩ := hi.answered hq hctx
      have hstep : Proactor.step W.system (w.abstract slot) (.serve i) =
          some (World.abstract ⟨ctx, W.system.serve q x w.store, w.proc, w.started,
            Function.update w.answers i answers⟩
            (Function.update slot i (.answered q (W.system.value x))),
            [.answered i (W.system.value x)]) := by
        simp [Proactor.step, World.abstract, hslot, hanswers]
      refine ⟨_, _, hrun.next trivial hstep, ?_⟩
      rw [Proactor.requests_append_answered, W.value_eq]
      exact hi'
  next => cases hs

theorem Simulated.loop {ans : Answer} (hw : Simulated W h w)
    (hs : w.loop W ans = some (w', e)) : Simulated W (h ++ e) w' := by
  unfold World.loop at hs
  split at hs
  next tok i x ret rest hpc =>
    obtain ⟨m, slot, hrun, hi⟩ := hw
    split at hs
    next w₁ e₁ hs₁ =>
      obtain ⟨⟨w₂, e₂⟩, hs₂, heq⟩ := Option.map_eq_some_iff.mp hs
      obtain ⟨rfl, rfl⟩ := Prod.mk.inj heq
      obtain ⟨ctx, hctx, rfl⟩ := World.lift_eq_some hs₁
      obtain ⟨⟨y, hslot⟩, hi₁⟩ := hi.dispatched hpc hctx
      have hi₁' : Proactive (h ++ e₁) ctx (Function.update slot i .idle)
          (Proactor.requests (m ++ [.delivered i ret])) := by
        rw [Proactor.requests_append_delivered]
        exact hi₁
      obtain ⟨r, hr, habstract, hi₂⟩ :=
        Simulated.activate (w := { w with ctx := ctx }) (Function.update_self _ _ _) hi₁' hs₂
      rw [Function.update_idem, List.append_assoc, List.append_assoc] at hi₂
      have hr' : W.system.activate i (w.proc i) (some ret) w.store = some r := hr
      have hstep : Proactor.step W.system (w.abstract slot) (.deliver i) =
          some (w₂.abstract (Function.update slot i (r.slot _)), [.delivered i ret] ++ r.asks i) := by
        rw [habstract]
        simp [Proactor.step, World.abstract, hslot, hr', Proactor.State.settle]
      exact ⟨_, _, hrun.next trivial hstep, hi₂⟩
    next => cases hs
  next hother =>
    refine hw.lift ?_ hs
    rintro ⟨tok, cb, ret⟩ rest ⟨i, x⟩ hpc rfl
    exact hother tok i x ret rest hpc

/-- Each step of the world is one of the proactor, or none. -/
theorem Simulated.step {a : Action θ ι} (hw : Simulated W h w) (hok : Submits w a)
    (hs : Processes.step W w a = some (w', e)) : Simulated W (h ++ e) w' := by
  cases a with
  | start t i => exact hw.start hs
  | complete n => exact hw.complete hs
  | poll n res =>
    simp only [Processes.step] at hs
    split at hs
    next tok hq =>
      obtain ⟨m, slot, hrun, hi⟩ := hw
      obtain ⟨ctx, hctx, rfl⟩ := World.lift_eq_some hs
      exact ⟨m, slot, hrun, hi.polled hq hctx⟩
    next => cases hs
  | loop ans => exact hw.loop hs
  | call t ans => exact hw.lift (a := .call t ans) hok hs
  | finish t => exact hw.lift (a := .finish t) trivial hs
  | wake t ans => exact hw.lift (a := .enter t (.wake ans)) trivial hs
  | exit t err => exact hw.lift (a := .enter t (.exit err)) trivial hs

theorem Simulated.of_run (hrun : Run (Processes.step W) Submits (Processes.start W) h w) :
    Simulated W h w :=
  hrun.invariant (simulated_start W) fun _ _ _ _ _ hw hok hs => hw.step hok hs

end Simulation

section Independence

variable {θ ι σ ρ χ : Type} {τ : ι → Type} [DecidableEq ι] {W : Workload ι σ τ ρ χ}
  {h : History (ι × ρ) (ι × Unit)} {w : World θ ι σ τ ρ χ} {i : ι}

/-- Where a process of the world stands, by its run alone. -/
inductive Standing (W : Workload ι σ τ ρ χ) (h : History (ι × ρ) (ι × Unit))
    (w : World θ ι σ τ ρ χ) (i : ι) : Prop where
  | fresh (hstarted : w.started i = false) (hproc : w.proc i = W.setup.proc i)
      (hanswers : w.answers i = W.setup.answers i)
      (hstore : W.system.Agree i w.store W.setup.store) (hasked : asksOf h i = [])
      (hv : Vacant w.ctx i)
  /-- It has returned and waits for nothing. -/
  | ended (n : Nat) (p : Solo σ (τ i) ρ) (halone : W.system.alone W.setup i n = some p)
      (hended : p.request = none) (hstarted : w.started i = true) (hproc : w.proc i = p.proc)
      (hanswers : w.answers i = (W.setup.answers i).drop n)
      (hstore : W.system.Agree i w.store p.store) (hasked : asksOf h i = p.requests)
      (hv : Vacant w.ctx i)
  /-- It has asked: a thread submits the request, or the kernel has it. -/
  | waiting (n : Nat) (p : Solo σ (τ i) ρ) (q : ρ) (phase : Phase) (l : Place θ)
      (halone : W.system.alone W.setup i n = some p) (hrequest : p.request = some q)
      (hstarted : w.started i = true) (hproc : w.proc i = p.proc)
      (hanswers : w.answers i = (W.setup.answers i).drop n)
      (hstore : W.system.Agree i w.store p.store) (hst : Stage w.ctx (i, ()) (i, q) phase l)
      (hasked : phase = .preparing ∧ asksOf h i ++ [q] = p.requests ∨
        phase = .queued ∧ asksOf h i = p.requests)
  /-- It was answered, and its closure is not invoked yet. -/
  | answered (n : Nat) (p : Solo σ (τ i) ρ) (q : ρ) (x : χ) (l : Place θ)
      (halone : W.system.alone W.setup i n = some p) (hrequest : p.request = some q)
      (hx : (W.setup.answers i)[n]? = some x) (hstarted : w.started i = true)
      (hproc : w.proc i = p.proc) (hanswers : w.answers i = (W.setup.answers i).drop (n + 1))
      (hstore : W.system.Agree i w.store (W.system.serve q x p.store))
      (hst : Stage w.ctx (i, ()) (i, q) (.completed (W.res x)) l)
      (hasked : asksOf h i = p.requests)

/-- A process that waits for an answer has asked for it, and its closure is there. -/
theorem standing_settled {m : List (Proactor.Event ι ρ (Result Int))}
    {slot : ι → Slot ρ (Result Int)} {n : Nat} {p : Solo σ (τ i) ρ}
    (hs : Stands h w.ctx i (slot i) (Proactor.requests m i))
    (halone : W.system.alone W.setup i n = some p)
    (hstarted : w.started i = true) (hproc : w.proc i = p.proc)
    (hslot : slot i = match p.request with | none => .idle | some q => .asked q)
    (hanswers : w.answers i = (W.setup.answers i).drop n)
    (hstore : W.system.Agree i w.store p.store) (hrequests : Proactor.requests m i = p.requests) :
    Standing W h w i := by
  rw [hslot, hrequests] at hs
  cases hp : p.request with
  | none =>
    rw [hp] at hs
    cases hs with
    | idle hv hasked =>
      exact .ended n p halone hp hstarted hproc hanswers hstore hasked.symm hv
  | some q =>
    rw [hp] at hs
    cases hs with
    | preparing x y l hst hasked =>
      exact .waiting n p q .preparing l halone hp hstarted hproc hanswers hstore hst
        (.inl ⟨rfl, hasked.symm⟩)
    | queued x y l hst hasked =>
      exact .waiting n p q .queued l halone hp hstarted hproc hanswers hstore hst
        (.inr ⟨rfl, hasked.symm⟩)

theorem Standing.of_simulated [DecidableEq θ] (hw : Simulated W h w) (i : ι) :
    Standing W h w i := by
  obtain ⟨m, slot, hrun, hi⟩ := hw
  have hs := hi.stands i
  cases Proactor.Following.of_run hrun i with
  | fresh hstarted hproc hslot hanswers hstore hrequests =>
    rw [show slot i = .idle from hslot, hrequests] at hs
    cases hs with
    | idle hv hasked => exact .fresh hstarted hproc hanswers hstore hasked.symm hv
  | settled n p halone hstarted hproc hslot hanswers hstore hrequests =>
    exact standing_settled hs halone hstarted hproc hslot hanswers hstore hrequests
  | served n p q x halone hrequest hx hstarted hproc hslot hanswers hstore hrequests =>
    rw [show slot i = .answered q (W.system.value x) from hslot, hrequests] at hs
    generalize hv : W.system.value x = v at hs
    cases hs with
    | completed _ _ res l hst hasked =>
      obtain rfl : res = W.res x := toResult_injective (hv.symm.trans (W.value_eq x))
      exact .answered n p q x l halone hrequest hx hstarted hproc hanswers hstore hst hasked.symm

/-- Confined processes do not interfere: in every run each is where its run alone
has been, and what it waits for is on its way. -/
theorem processes_independent [DecidableEq θ]
    (hrun : Run (step W) Submits (start W) h w) (i : ι) : Standing W h w i :=
  .of_simulated (.of_run hrun) i

end Independence

instance {θ ι σ ρ χ : Type} {τ : ι → Type} (w : World θ ι σ τ ρ χ) : DecidablePred (Submits w) :=
  fun a =>
    match a with
    | .call t ans => inferInstanceAs (Decidable ((w.ctx.call t).Succeeds w.ctx.sq.length ans))
    | .start _ _ | .complete _ | .poll _ _ | .loop _ | .finish _ | .wake _ _ | .exit _ _ =>
      isTrue trivial

end Processes
