import Mathlib.Logic.Function.Iterate
import Arkio.AsyncIo
import Arkio.Coroutine

/-!
# Sequential programs in two flavours

A program is what the bodies of its functions do: they compute, read and write
through descriptors, call other functions and return, and what they do next may
depend in any way on the results.

The blocking flavour calls `sync::read` and `sync::write`, and its calls are
calls. In the coroutine flavour the functions return tasks, which are awaited,
and reads and writes are operations of `coro::`, awaited as well; `co_async`
starts the first task and `run()` waits for the completions. There the state is
one of suspended frames, handles and callbacks. When frames are freed is left to
`Coroutine`; here those that have finished stay where they are.
-/
namespace Coro

open Bindings Buffer SyncIo AsyncIo
open Coroutine (Promise)

/-- What a program works on. -/
structure Store (φ : Type) where
  mem : Memory
  fds : φ → Fd

/-- What a body does next, and how it goes on from there. -/
inductive Command (φ Q υ : Type) where
  | compute (q : Q)
  | io (kind : IoOperation) (fd : φ) (b : List ConstBuffer) (cond : CompletionCondition)
      (k : Result Nat → Q)
  | call (q : Q) (k : υ → Q)
  | ret (v : υ)

/-- The bodies of all functions. A point of a body is a `Q`, with its locals. -/
abbrev Program (φ Q υ : Type) := Q → Store φ → Store φ × Command φ Q υ

section Blocking

variable {φ Q υ : Type} [DecidableEq φ]

/-- A store, what the kernel will answer, and what it was asked. -/
structure World (φ : Type) where
  store : Store φ
  responses : List Response
  requests : List Request

inductive Outcome (υ : Type) where
  | returned (v : υ)
  | blocked
  | running

/-- `sync::read` or `sync::write` of a descriptor. -/
def World.sync (w : World φ) (kind : IoOperation) (fd : φ) (b : List ConstBuffer)
    (cond : CompletionCondition) : World φ × Option (Result Nat) :=
  let t := kind.sync (w.store.fds fd) b cond w.store.mem w.responses
  (⟨⟨t.mem, Function.update w.store.fds fd t.fd⟩, w.responses.drop t.requests.length,
    w.requests ++ t.requests⟩, t.ret)

/-- The blocking flavour, for as long as the fuel lasts. -/
def blocking (next : Program φ Q υ) : Nat → Q → World φ → World φ × Outcome υ
  | 0, _, w => (w, .running)
  | n + 1, q, w =>
    let (store, cmd) := next q w.store
    let w := { w with store := store }
    match cmd with
    | .compute q => blocking next n q w
    | .io kind fd b cond k =>
      match w.sync kind fd b cond with
      | (w, some ret) => blocking next n (k ret) w
      | (w, none) => (w, .blocked)
    | .call q k =>
      match blocking next n q w with
      | (w, .returned v) => blocking next n (k v) w
      | (w, o) => (w, o)
    | .ret v => (w, .returned v)

end Blocking

/-- `read_awaitable` and `write_awaitable`, by their kind. -/
structure Awaitable (φ : Type) where
  kind : IoOperation
  fd : φ
  b : List ConstBuffer
  cond : CompletionCondition
  ret : Option (Result Nat)

/-- What a coroutine does with the value of the task that it awaits: a body goes
on, the lambda of `co_async` sets its promise. -/
inductive Receiver (Q υ : Type) where
  | body (k : υ → Q)
  | setValue

/-- Where a frame is suspended. The awaitable is in the frame. -/
inductive Suspension (φ Q υ : Type) where
  | initial (q : Q)
  | onTask (g : Nat) (k : Receiver Q υ)
  | onOp (op : Awaitable φ) (k : Result Nat → Q)

/-- A frame is suspended, or running or finished. -/
structure Frame (φ Q υ : Type) where
  suspension : Option (Suspension φ Q υ)
  promise : Promise υ

/-- An operation that the kernel works on. Its locals refer to the awaitable in
the frame, its callback has the handle of the frame. -/
structure Outstanding where
  frame : Nat
  request : Request
  op : IoOp Nat

inductive Control (Q : Type) where
  | body (f : Nat) (q : Q)
  | finalSuspend (f : Nat)
  | resume (f : Nat)
  | toCaller
  | fault

/-- The coroutine flavour under way. `native` has the frames whose
`await_suspend` is on the native stack, the innermost first. -/
structure Machine (φ Q υ : Type) where
  store : Store φ
  responses : List Response
  sqes : List (Fd × Request)
  frames : Nat → Frame φ Q υ
  nextFrame : Nat
  native : List Nat
  outstanding : Option Outstanding
  future : List υ
  control : Control Q

section Coroutines

variable {φ Q υ : Type} [DecidableEq φ]

/-- The requests as the kernel takes them. -/
def Machine.requests (m : Machine φ Q υ) : List Request := m.sqes.map fun x => view x.1 x.2

def Machine.setFrame (m : Machine φ Q υ) (f : Nat) (fr : Frame φ Q υ) : Machine φ Q υ :=
  { m with frames := Function.update m.frames f fr }

/-- The frame is suspended, or not any more. -/
def Machine.suspend (m : Machine φ Q υ) (f : Nat) (sus : Option (Suspension φ Q υ)) :
    Machine φ Q υ :=
  m.setFrame f { m.frames f with suspension := sus }

/-- A call of a coroutine that returns a `task`. -/
def Machine.makeTask (m : Machine φ Q υ) (q : Q) : Machine φ Q υ :=
  { m.setFrame m.nextFrame ⟨some (.initial q), ⟨none, none⟩⟩ with nextFrame := m.nextFrame + 1 }

/-- `co_await` of a task: `await_suspend` links the coroutine to the promise, and
control goes over to the task's own one. -/
def Machine.awaitTask (m : Machine φ Q υ) (f g : Nat) (k : Receiver Q υ) : Machine φ Q υ :=
  let m := m.suspend f (some (.onTask g k))
  let gr := m.frames g
  { m.setFrame g { gr with promise := { gr.promise with continuation := some f } } with
    control := .resume g }

/-- The callback of `awaitable_op::await_suspend`: it keeps the result and resumes. -/
def Machine.complete (m : Machine φ Q υ) (f : Nat) (ret : Result Nat) : Machine φ Q υ :=
  match (m.frames f).suspension with
  | some (.onOp op k) =>
    { m.suspend f (some (.onOp { op with ret := some ret } k)) with control := .resume f }
  | _ => { m with control := .fault }

/-- What an activation of an operation leads to. -/
def Machine.apply (m : Machine φ Q υ) (f : Nat) (fd : φ) (turn : Turn Nat) : Machine φ Q υ :=
  let m : Machine φ Q υ := { m with
    store := { m.store with fds := Function.update m.store.fds fd turn.fd }
    sqes := m.sqes ++ (turn.attempt.map fun a => (turn.fd, a.1)).toList
    outstanding := turn.attempt.bind fun a => turn.closure.map fun op => ⟨f, a.1, op⟩ }
  match turn.effects with
  | [] => { m with control := .toCaller }
  | [.call cb ret] => m.complete cb ret
  | _ => { m with control := .fault }

/-- `co_await` of an operation: the frame is suspended, `await_suspend` is on the
stack, and `invoke` starts it with the handle in its callback. -/
def Machine.awaitOp (m : Machine φ Q υ) (f : Nat) (op : Awaitable φ) (k : Result Nat → Q) :
    Machine φ Q υ :=
  { m.suspend f (some (.onOp op k)) with native := f :: m.native }.apply f op.fd
    (AsyncIo.run op.kind (m.store.fds op.fd) op.b ⟨some f, ⟨op.cond, 0, []⟩⟩ (.ok 0))

/-- `resume()` of a handle: the `await_resume` of what the frame awaits. -/
def Machine.resume (m : Machine φ Q υ) (f : Nat) : Machine φ Q υ :=
  let m' := m.suspend f none
  match (m.frames f).suspension with
  | some (.initial q) => { m' with control := .body f q }
  | some (.onTask g k) =>
    match (m.frames g).promise.value, k with
    | some v, .body k => { m' with control := .body f (k v) }
    | some v, .setValue => { m' with future := m.future ++ [v], control := .toCaller }
    | none, _ => { m with control := .fault }
  | some (.onOp op k) =>
    match op.ret with
    | some ret => { m' with control := .body f (k ret) }
    | none => { m with control := .fault }
  | none => { m with control := .fault }

/-- An iteration of `run()`: it takes the completion of the operation and calls
the closure that `add_sqe` kept. Where there is none it waits. -/
def Machine.runLoop (m : Machine φ Q υ) : Machine φ Q υ :=
  match m.outstanding, m.responses with
  | some o, response :: responses =>
    match (m.frames o.frame).suspension with
    | some (.onOp op _) =>
      let mem := deliver op.kind o.request.iov response m.store.mem
      { m with store := { m.store with mem := mem }, responses := responses }.apply o.frame op.fd
        (goOn op.kind (m.store.fds op.fd) op.b o.op (toResult response.res) (.ok 0))
    | _ => { m with control := .fault }
  | _, _ => m

/-- The next thing that happens. All submissions succeed. -/
def Machine.step (next : Program φ Q υ) (m : Machine φ Q υ) : Machine φ Q υ :=
  match m.control with
  | .body f q =>
    let (store, cmd) := next q m.store
    let m := { m with store := store }
    match cmd with
    | .compute q => { m with control := .body f q }
    | .io kind fd b cond k => m.awaitOp f ⟨kind, fd, b, cond, none⟩ k
    | .call q k => (m.makeTask q).awaitTask f m.nextFrame (.body k)
    | .ret v =>
      let fr := m.frames f
      { m.setFrame f { fr with promise := fr.promise.returnValue v } with
        control := .finalSuspend f }
  | .finalSuspend f =>
    match (m.frames f).promise.continuation with
    | some c => { m with control := .resume c }
    | none => { m with control := .fault }
  | .resume f => m.resume f
  | .toCaller =>
    match m.native with
    | _ :: native => { m with native := native }
    | [] => m.runLoop
  | .fault => m

/-- `co_async` of the task of a call: the frame 0 is the task's, 1 that of the lambda. -/
def coAsync (q : Q) (store : Store φ) (responses : List Response) : Machine φ Q υ :=
  let m : Machine φ Q υ :=
    ⟨store, responses, [], fun _ => ⟨none, ⟨none, none⟩⟩, 0, [], none, [], .toCaller⟩
  { m.makeTask q with nextFrame := 2 }.awaitTask 1 0 .setValue

/-- The coroutine flavour after some steps. -/
def after (next : Program φ Q υ) (q : Q) (store : Store φ) (responses : List Response) (i : Nat) :
    Machine φ Q υ :=
  (Machine.step next)^[i] (coAsync q store responses)

/-- `run()` waits, for an answer of the kernel or for ever. -/
def Machine.Idle (m : Machine φ Q υ) : Prop :=
  m.control = .toCaller ∧ m.native = [] ∧ (m.outstanding = none ∨ m.responses = [])

end Coroutines

end Coro
