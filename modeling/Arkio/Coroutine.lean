import Mathlib.Logic.Function.Basic
import Arkio.LabelledMachine

/-!
# Coroutine frames

`task.hpp`, `co_async.hpp`, `fire_and_forget.hpp` and `awaitable_op.hpp`, with
what the language does about a coroutine: it has a frame, which is suspended,
running or being destroyed, and a handle to a frame can be resumed and
destroyed. What goes wrong when either is done at the wrong time is an event of
its own.

The bodies of `task` coroutines are the user's. All that is said of them is what
they do with tasks: they call coroutines, move and drop the `task` objects that
they have, or that live outside of all coroutines, await them, await operations
and return. Any frame that is running may take the next step, so that every
order of events that the native stack allows is among the runs, and the
completions come in any order, at once in `await_suspend` or later.
-/
namespace Coroutine

open LabelledMachine

/-- Where a frame stands. `entry` is a root before its `co_await`, `onTask` and
`onOp` are suspended at one; in `returning` the result is set and the locals go
out of scope. -/
inductive Point where
  | absent
  | entry
  | initial
  | running
  | onTask (g : Nat)
  | onOp (k : Nat)
  | returning
  | final
  | destroying
  | destroyed
  deriving DecidableEq, Repr

/-- Where a handle may be resumed. -/
def Point.resumable : Point → Bool
  | .initial => true
  | .onTask _ => true
  | .onOp _ => true
  | _ => false

/-- Where a handle may be destroyed: the frame is suspended. -/
def Point.suspended : Point → Bool
  | .final => true
  | p => p.resumable

/-- `task_promise<T>`: `value_` is alive while `state_` says so. -/
structure Promise (υ : Type) where
  continuation : Option Nat
  value : Option υ

def Promise.clear {υ : Type} (p : Promise υ) : Promise υ := { p with value := none }

def Promise.returnValue {υ : Type} (p : Promise υ) (v : υ) : Promise υ :=
  { p.clear with value := some v }

/-- The coroutines that return a `task`, and the lambda of `co_async`, which
returns `fire_and_forget` and has its task as a parameter. -/
inductive Kind where
  | task
  | root (tsk : Nat)
  deriving DecidableEq, Repr

structure Frame (υ : Type) where
  kind : Kind
  point : Point
  promise : Promise υ

/-- Where a `task` object lives: outside of all coroutines, or in a frame, as a
parameter, a local or a temporary. -/
inductive Place where
  | nowhere
  | outside
  | frame (f : Nat)
  deriving DecidableEq, Repr

structure Task where
  coro : Option Nat
  place : Place
  deriving DecidableEq, Repr

/-- The `future` of `co_async` and the state it shares with the promise. -/
structure Future where
  discarded : Bool
  ready : Bool
  deriving DecidableEq, Repr

structure State (υ : Type) where
  frames : Nat → Frame υ
  tasks : Nat → Task
  futures : Nat → Future
  pending : List (Nat × Nat)
  nextFrame : Nat
  nextTask : Nat
  nextOp : Nat

/-- What is undefined: resuming or destroying a frame that does not wait for it,
reading a result that is not there, using a null handle, and setting a promise
twice. -/
inductive Fault where
  | resume (f : Nat)
  | destroy (f : Nat)
  | read (f : Nat)
  | nullHandle
  | satisfied (f : Nat)
  deriving DecidableEq, Repr

inductive Event where
  | created (f : Nat)
  | awaited (f g : Nat)
  | resumed (f : Nat)
  | constructed (f : Nat)
  | read (f : Nat)
  | destructed (f : Nat)
  | transferred (f c : Nat)
  | destroyed (f : Nat)
  | settled (f : Nat)
  | fault (x : Fault)
  deriving DecidableEq, Repr

abbrev History := List Event

inductive Action (υ : Type) where
  | call (p : Place) (args : List Nat)
  | move (p : Place) (o : Nat) (q : Place)
  | drop (p : Place) (o : Nat)
  | await (f o : Nat)
  | awaitOp (f : Nat)
  | complete (k : Nat)
  | returnValue (f : Nat) (v : υ)
  | finalSuspend (f : Nat)
  | coAsync (p : Place) (o : Nat)
  | setValue (r : Nat)
  | returnVoid (r : Nat)
  | free (f : Nat)
  | discard (r : Nat)

section Machine

variable {υ : Type}

abbrev Outcome (υ : Type) := State υ × History

def State.setFrame (s : State υ) (f : Nat) (fr : Frame υ) : State υ :=
  { s with frames := Function.update s.frames f fr }

def State.setTask (s : State υ) (o : Nat) (t : Task) : State υ :=
  { s with tasks := Function.update s.tasks o t }

/-- The frame moves on. -/
def State.goTo (s : State υ) (f : Nat) (p : Point) : State υ :=
  s.setFrame f { s.frames f with point := p }

/-- `get()` of a promise, by `await_resume` of the awaiter that has its handle. Of
a `task<void>` there is nothing to move out, but it is called all the same. -/
def State.get (s : State υ) (g : Nat) : History :=
  if (s.frames g).point ≠ .destroyed ∧ (s.frames g).promise.value.isSome then [.read g]
  else [.fault (.read g)]

/-- What the frame does first when it is resumed: the `await_resume` of the
`co_await` it is suspended at. An operation's result is in the frame itself. -/
def State.awaitResume (s : State υ) : Point → History
  | .onTask g => s.get g
  | _ => []

/-- `resume()` of a handle. -/
def State.resume (s : State υ) (f : Nat) : Outcome υ :=
  if (s.frames f).point.resumable then
    (s.goTo f .running, .resumed f :: s.awaitResume (s.frames f).point)
  else (s, [.fault (.resume f)])

/-- `destroy()` of a handle begins. -/
def State.destroy (s : State υ) (f : Nat) : Outcome υ :=
  if (s.frames f).point.suspended then (s.goTo f .destroying, [])
  else (s, [.fault (.destroy f)])

/-- `task(task &&)`. -/
def State.moveTask (s : State υ) (o : Nat) (p : Place) : State υ :=
  { (s.setTask o { s.tasks o with coro := none }).setTask s.nextTask ⟨(s.tasks o).coro, p⟩ with
    nextTask := s.nextTask + 1 }

/-- `~task()`. -/
def State.dropTask (s : State υ) (o : Nat) : Outcome υ :=
  let s' := s.setTask o ⟨none, .nowhere⟩
  match (s.tasks o).coro with
  | some g => s'.destroy g
  | none => (s', [])

/-- A call of a coroutine that returns a `task`: the frame is suspended before
its body, and the caller has the object of `get_return_object`. -/
def State.makeTask (s : State υ) (p : Place) : State υ :=
  { (s.setFrame s.nextFrame ⟨.task, .initial, ⟨none, none⟩⟩).setTask s.nextTask
      ⟨some s.nextFrame, p⟩ with
    nextFrame := s.nextFrame + 1
    nextTask := s.nextTask + 1 }

/-- `co_await move(tsk)`: the coroutine is suspended, `await_suspend` links it to
the promise and control goes over to the task's own coroutine. -/
def State.awaitTask (s : State υ) (f o : Nat) : Outcome υ :=
  match (s.tasks o).coro with
  | some g =>
    let s' := s.goTo f (.onTask g)
    let gr := s'.frames g
    let r := (s'.setFrame g { gr with promise := { gr.promise with continuation := some f } }).resume g
    (r.1, .awaited f g :: r.2)
  | none => (s, [.fault .nullHandle])

/-- `final_suspend`: control goes over to `continuation_`. -/
def State.finalSuspend (s : State υ) (f : Nat) : Outcome υ :=
  match (s.frames f).promise.continuation with
  | some c =>
    let r := (s.goTo f .final).resume c
    (r.1, .transferred f c :: r.2)
  | none => (s.goTo f .final, [.fault .nullHandle])

/-- The call of the lambda of `co_async`. Its frame starts at once and has the
promise and the task, which came through the parameters of `co_async`. -/
def State.coAsync (s : State υ) (o : Nat) : State υ :=
  let s' := s.setFrame s.nextFrame ⟨.root s.nextTask, .entry, ⟨none, none⟩⟩
  { (s'.moveTask o (.frame s.nextFrame)) with
    futures := Function.update s.futures s.nextFrame ⟨false, false⟩
    nextFrame := s.nextFrame + 1 }

/-- Code that may do what it likes with the tasks it has: outside of coroutines,
or the body of a task that is running. -/
def State.Acts (s : State υ) : Place → Prop
  | .outside => True
  | .frame f => (s.frames f).kind = .task ∧ (s.frames f).point = .running
  | .nowhere => False

/-- The task objects such code can name: its own, and those outside. -/
def State.Has (s : State υ) (p : Place) (o : Nat) : Prop :=
  o < s.nextTask ∧ ((s.tasks o).place = p ∨ (s.tasks o).place = .outside)

instance (s : State υ) (p : Place) (o : Nat) : Decidable (s.Has p o) := by
  unfold State.Has
  infer_instance

/-- Code that may drop them: as well a body that is left, and a frame that is
destroyed. -/
def State.Drops (s : State υ) : Place → Prop
  | .frame f => (s.frames f).kind = .task ∧
      ((s.frames f).point = .running ∨ (s.frames f).point = .returning) ∨
        (s.frames f).point = .destroying
  | p => s.Acts p

instance (s : State υ) (p : Place) : Decidable (s.Acts p) := by
  cases p <;> unfold State.Acts <;> infer_instance

instance (s : State υ) (p : Place) : Decidable (s.Drops p) := by
  cases p <;> unfold State.Drops <;> infer_instance

/-- A root awaits its parameter, any other body a task that it has. -/
def State.Awaits (s : State υ) (f o : Nat) : Prop :=
  match (s.frames f).kind with
  | .task => (s.frames f).point = .running ∧ s.Has (.frame f) o
  | .root tsk => (s.frames f).point = .entry ∧ o = tsk

instance (s : State υ) (f o : Nat) : Decidable (s.Awaits f o) := by
  unfold State.Awaits
  cases (s.frames f).kind <;> infer_instance

/-- The tasks of a frame are gone, but for those that were moved from. -/
def State.Vacated (s : State υ) (f : Nat) : Prop :=
  ∀ o < s.nextTask, (s.tasks o).place = .frame f → (s.tasks o).coro = none

instance (s : State υ) (f : Nat) : Decidable (s.Vacated f) := by
  unfold State.Vacated
  infer_instance

def step (s : State υ) : Action υ → Option (Outcome υ)
  | .call p args =>
    if s.Acts p ∧ ∀ o ∈ args, s.Has p o then
      some (args.foldl (fun s' o => s'.moveTask o (.frame s.nextFrame)) (s.makeTask p),
        [.created s.nextFrame])
    else none
  | .move p o q =>
    if s.Acts p ∧ s.Has p o ∧ (q = p ∨ q = .outside) then some (s.moveTask o q, []) else none
  | .drop p o => if s.Drops p ∧ (s.tasks o).place = p then some (s.dropTask o) else none
  | .await f o => if s.Awaits f o then some (s.awaitTask f o) else none
  | .awaitOp f =>
    if s.Acts (.frame f) then
      some ({ s.goTo f (.onOp s.nextOp) with
        pending := (s.nextOp, f) :: s.pending, nextOp := s.nextOp + 1 }, [])
    else none
  | .complete k =>
    match s.pending.find? (fun x => x.1 = k) with
    | some x => some ({ s with pending := s.pending.erase x }.resume x.2)
    | none => none
  | .returnValue f v =>
    if s.Acts (.frame f) then
      let fr := s.frames f
      some (s.setFrame f { fr with point := .returning, promise := fr.promise.returnValue v },
        (if fr.promise.value.isSome then [.destructed f] else []) ++ [.constructed f])
    else none
  | .finalSuspend f =>
    if (s.frames f).kind = .task ∧ (s.frames f).point = .returning then some (s.finalSuspend f)
    else none
  | .coAsync p o =>
    if s.Acts p ∧ s.Has p o then some (s.coAsync o, [.created s.nextFrame]) else none
  | .setValue r =>
    if (s.frames r).kind ≠ .task ∧ (s.frames r).point = .running then
      let s' := s.goTo r .returning
      if (s.futures r).ready then some (s', [.fault (.satisfied r)])
      else
        some ({ s' with futures := Function.update s.futures r { s.futures r with ready := true } },
          [.settled r])
    else none
  | .returnVoid r =>
    if (s.frames r).kind ≠ .task ∧ (s.frames r).point = .returning then
      some (s.goTo r .destroying, [])
    else none
  | .free f =>
    if (s.frames f).point = .destroying ∧ s.Vacated f then
      let fr := s.frames f
      some (s.setFrame f { fr with point := .destroyed, promise := fr.promise.clear },
        (if fr.promise.value.isSome then [.destructed f] else []) ++ [.destroyed f])
    else none
  | .discard r =>
    some ({ s with futures := Function.update s.futures r { s.futures r with discarded := true } }, [])

/-- Nothing has been called yet. -/
def start : State υ where
  frames := fun _ => ⟨.task, .absent, ⟨none, none⟩⟩
  tasks := fun _ => ⟨none, .nowhere⟩
  futures := fun _ => ⟨false, false⟩
  pending := []
  nextFrame := 0
  nextTask := 0
  nextOp := 0

/-- The task of the object has not been awaited: it has a coroutine, and nobody
is linked to its promise. -/
def State.Fresh (s : State υ) (o : Nat) : Prop :=
  ∃ g, (s.tasks o).coro = some g ∧ (s.frames g).promise.continuation = none

/-- Started and not finished. -/
def Point.InProgress : Point → Prop
  | .running => True
  | .onTask _ => True
  | .onOp _ => True
  | .returning => True
  | _ => False

/-- An object outside, whose task anyone may await, has one that is not under
way. -/
def State.Idle (s : State υ) (o : Nat) : Prop :=
  (s.tasks o).place = .outside → ∀ g ∈ (s.tasks o).coro, ¬(s.frames g).point.InProgress

instance (s : State υ) (o : Nat) : Decidable (s.Fresh o) :=
  match h : (s.tasks o).coro with
  | none => isFalse fun ⟨_, hg, _⟩ => by simp [h] at hg
  | some g => decidable_of_iff ((s.frames g).promise.continuation = none) (by simp [State.Fresh, h])

instance : DecidablePred Point.InProgress := fun p => by
  cases p <;> unfold Point.InProgress <;> infer_instance

instance (s : State υ) (o : Nat) : Decidable (s.Idle o) := by
  unfold State.Idle
  infer_instance

/-- A program awaits a task at most once, and none that it has moved from. A
task handed to `co_async` is awaited there. What is awaited outside of the
coroutine that awaits it stays there until it is finished. -/
def Disciplined (s : State υ) : Action υ → Prop
  | .call _ args => ∀ o ∈ args, s.Idle o
  | .move _ o _ => s.Idle o
  | .drop _ o => s.Idle o
  | .await f o => (s.frames f).kind = .task → s.Fresh o
  | .coAsync _ o => s.Fresh o
  | _ => True

instance (s : State υ) (a : Action υ) : Decidable (Disciplined s a) := by
  cases a <;> unfold Disciplined <;> infer_instance

end Machine

end Coroutine
