import Mathlib.Logic.Function.Basic
import Mathlib.Tactic.Simps.Basic
import Arkio.LabelledMachine
import Arkio.Bindings

/-!
# The io_uring event loop

`base_singlethread_uring_async_context` as a machine. Every thread that is
inside `add_sqe`, `exit` or `run` has a program counter, and the two mutexes
have owners, so a step of one thread can fall between any two steps of the
others. The kernel side is the submission ring, the requests it has accepted,
the completion ring and the eventfd counter.

Payloads are arbitrary: `π` is what `prep_sqe` writes into an SQE and `κ` is the
user's callback. The token counter is a `uintptr_t` that needs 2^64 additions to
wrap; it is unbounded here.
-/
namespace UringContext

open Bindings

/-- `batch_size`: the entries of the submission ring and the limit of one peek. -/
def batchSize : Nat := 1024

/-- The thread that calls `init` and `run`, and every other one. Calls made
inside a callback are calls of `loop`. -/
inductive Thread (θ : Type) where
  | loop : Thread θ
  | user : θ → Thread θ
  deriving DecidableEq, Repr

/-- What an SQE asks for: the waker's `prep_poll_add(waker_evfd_, POLLIN)`, or
what the caller's `prep_sqe` wrote. -/
inductive Op (π : Type) where
  | pollWaker : Op π
  | user : π → Op π
  deriving DecidableEq, Repr

inductive Callback (κ : Type) where
  | waker : Callback κ
  | user : κ → Callback κ
  deriving DecidableEq, Repr

structure Sqe (π : Type) where
  op : Op π
  userData : Nat
  deriving DecidableEq, Repr

structure Cqe where
  userData : Nat
  res : Int
  deriving DecidableEq, Repr

/-- An element of `run_callbacks`. The source keeps the pair; the token is kept
beside it so that a history can name the registration. -/
structure Ready (κ : Type) where
  token : Nat
  callback : Callback κ
  ret : Result Int
  deriving DecidableEq, Repr

/-- Where a thread stands inside `add_sqe` or `exit`. The optional callback
tells the two overloads of `add_sqe` apart. -/
inductive Call (π κ : Type) where
  | idle
  | lockSubmission (op : Op π) (cb : Option (Callback κ))
  | lockCallbacks (op : Op π) (cb : Callback κ)
  | getSqe (op : Op π) (cb : Option (Callback κ))
  | wake (tok : Nat) (cb : Option (Callback κ))
  | insert (tok : Nat) (cb : Callback κ)
  | cancel (tok : Nat) (cb : Option (Callback κ)) (err : ErrorCode)
  | exitWake
  | returned (ret : Result Nat)
  deriving DecidableEq, Repr

/-- Where the loop thread stands inside `init` or `run`. The lists are the
callbacks of `run_callbacks` that are still to be invoked. -/
inductive LoopPc (κ : Type) where
  | init
  | outside
  | check
  | submit
  | wait
  | peek
  | lock (n : Nat)
  | collect (n : Nat) (ready : List (Ready κ))
  | dispatch (ready : List (Ready κ))
  | callback (rest : List (Ready κ))
  | wakerRead (rest : List (Ready κ))
  | wakerRearm (rest : List (Ready κ))
  | wakerExit (rest : List (Ready κ))
  deriving DecidableEq, Repr

/-- The part of `run_callbacks` that has not been invoked yet. -/
def LoopPc.pending {κ : Type} : LoopPc κ → List (Ready κ)
  | .collect _ ready => ready
  | .dispatch ready => ready
  | .callback rest => rest
  | .wakerRead rest => rest
  | .wakerRearm rest => rest
  | .wakerExit rest => rest
  | _ => []

/-- Whether the loop thread is inside a user's callback. -/
def LoopPc.inCallback {κ : Type} : LoopPc κ → Bool
  | .callback _ => true
  | _ => false

/-- `inited_`, seen from outside: `init` has returned. -/
def LoopPc.inited {κ : Type} : LoopPc κ → Bool
  | .init => false
  | _ => true

def Call.isIdle {π κ : Type} : Call π κ → Bool
  | .idle => true
  | _ => false

theorem Call.isIdle_iff {π κ : Type} {c : Call π κ} : c.isIdle = true ↔ c = .idle := by
  cases c <;> simp [Call.isIdle]

structure State (θ π κ : Type) where
  sq : List (Sqe π)
  inflight : List (Sqe π)
  cq : List Cqe
  callbacks : Nat → Option (Callback κ)
  callbacksIdx : Nat
  mSubmission : Option (Thread θ)
  mCallbacks : Option (Thread θ)
  counter : Nat
  exiting : Bool
  exitingError : ErrorCode
  loop : LoopPc κ
  call : Thread θ → Call π κ

/-- What the kernel answers to the system call a step makes, if it makes one. -/
inductive Answer where
  | ok
  | failed (err : ErrorCode)
  | submitted (n : Nat)
  deriving DecidableEq, Repr

/-- The public functions other than `init` and `run`. -/
inductive Entry (π κ : Type) where
  | addSqe (op : π) (cb : Option κ)
  | cancel (tok : Nat)
  | wake (ans : Answer)
  | exit (err : Option ErrorCode)
  deriving DecidableEq, Repr

inductive Action (θ π κ : Type) where
  | enter (t : Thread θ) (entry : Entry π κ)
  | call (t : Thread θ) (ans : Answer)
  | finish (t : Thread θ)
  | loop (ans : Answer)
  | post (i : Nat) (res : Int)
  deriving DecidableEq, Repr

inductive Event (π κ : Type) where
  | queued (tok : Nat) (op : Op π)
  | added (tok : Nat) (cb : Callback κ)
  | cancelled (tok : Nat)
  | posted (c : Cqe)
  | collected (c : Cqe) (cb : Option (Callback κ))
  | invoked (r : Ready κ)
  | exitCalled (err : Option ErrorCode)
  | wakerExited (err : ErrorCode)
  | returned (ret : Result Unit)
  deriving DecidableEq, Repr

section Machine

variable {θ π κ : Type} [DecidableEq θ]

abbrev Outcome (θ π κ : Type) := Option (State θ π κ × List (Event π κ))

/-- Move the program counter of one thread. -/
@[simps] def State.setCall (s : State θ π κ) (t : Thread θ) (c : Call π κ) : State θ π κ :=
  { s with call := Function.update s.call t c }

/-- The `lock_guard`s of `add_sqe` go out of scope. -/
@[simps] def State.unlock (s : State θ π κ) (cb : Option (Callback κ)) : State θ π κ :=
  { s with
    mSubmission := none
    mCallbacks := if cb.isSome then none else s.mCallbacks }

/-- `get_sqe` hands out the next slot, which is prepared and gets the token. -/
@[simps] def State.takeSqe (s : State θ π κ) (op : Op π) : State θ π κ :=
  { s with
    sq := s.sq ++ [⟨op, s.callbacksIdx⟩]
    callbacksIdx := s.callbacksIdx + 1 }

/-- A successful `write(waker_evfd_, 1)`. -/
@[simps] def State.write (s : State θ π κ) : State θ π κ := { s with counter := s.counter + 1 }

/-- `callbacks_.erase(token)`. -/
@[simps] def State.erase (s : State θ π κ) (tok : Nat) : State θ π κ :=
  { s with callbacks := Function.update s.callbacks tok none }

/-- User threads may call in once `init` has returned; the loop thread calls in
only from a user's callback. -/
def State.mayCall (s : State θ π κ) : Thread θ → Bool
  | .user _ => s.loop.inited
  | .loop => s.loop.inCallback

/-- The next step of a thread inside `add_sqe` (`base_add_sqe` included) or
inside `exit`. When `wake` fails, `cancel` locks `m_callbacks_` again, which the
overload with a callback already holds. -/
def callStep (s : State θ π κ) (t : Thread θ) (ans : Answer) : Outcome θ π κ :=
  match s.call t with
  | .idle => none
  | .lockSubmission op cb =>
    if s.mSubmission = none then
      let next : Call π κ :=
        match cb with
        | some cb => .lockCallbacks op cb
        | none => .getSqe op none
      some ({ s with mSubmission := some t }.setCall t next, [])
    else none
  | .lockCallbacks op cb =>
    if s.mCallbacks = none then
      some ({ s with mCallbacks := some t }.setCall t (.getSqe op (some cb)), [])
    else none
  | .getSqe op cb =>
    if s.sq.length < batchSize then
      some ((s.takeSqe op).setCall t (.wake s.callbacksIdx cb), [.queued s.callbacksIdx op])
    else
      some ((s.unlock cb).setCall t (.returned (.error (asEc ENOBUFS))), [])
  | .wake tok cb =>
    match ans with
    | .ok =>
      match cb with
      | some cb => some (s.write.setCall t (.insert tok cb), [])
      | none => some ((s.write.unlock none).setCall t (.returned (.ok tok)), [])
    | .failed e => some (s.setCall t (.cancel tok cb e), [])
    | .submitted _ => none
  | .insert tok cb =>
    some (({ s with callbacks := Function.update s.callbacks tok (some cb) }.unlock
        (some cb)).setCall t (.returned (.ok tok)),
      [.added tok cb])
  | .cancel tok cb e =>
    if s.mCallbacks = none then
      some (((s.erase tok).unlock cb).setCall t (.returned (.error e)), [.cancelled tok])
    else none
  | .exitWake =>
    match ans with
    | .ok => some (s.write.setCall t .idle, [])
    | _ => none
  | .returned _ => none

/-- A thread enters a public function. `cancel` and `wake` take effect at once;
`exit` first writes the flag and wakes the loop in a second step. The flag and
the error are plain members: races on them are undefined, so their two writes
are one step here. -/
def enterStep (s : State θ π κ) (t : Thread θ) (entry : Entry π κ) : Outcome θ π κ :=
  if (s.call t).isIdle && s.mayCall t then
    match entry with
    | .addSqe op cb =>
      some (s.setCall t (.lockSubmission (.user op) (cb.map .user)), [])
    | .cancel tok =>
      if s.mCallbacks = none then some (s.erase tok, [.cancelled tok]) else none
    | .wake .ok => some (s.write, [])
    | .wake (.failed _) => some (s, [])
    | .wake (.submitted _) => none
    | .exit err =>
      some ({ s with
          exiting := true
          exitingError := err.getD s.exitingError }.setCall t .exitWake,
        [.exitCalled err])
  else none

/-- The caller takes the result of `add_sqe`. -/
def finishStep (s : State θ π κ) (t : Thread θ) : Outcome θ π κ :=
  if s.mayCall t then
    match s.call t with
    | .returned _ => some (s.setCall t .idle, [])
    | _ => none
  else none

/-- `this->exit(err)` inside the waker's callback. -/
@[simps!] def State.wakerExit (s : State θ π κ) (err : ErrorCode) (rest : List (Ready κ)) :
    State θ π κ :=
  { s with exiting := true, exitingError := err, loop := .wakerExit rest }.setCall .loop .exitWake

/-- One round of the collecting loop: the callback under the CQE's token moves
into `run_callbacks`, and the slot is released. -/
def collectStep (s : State θ π κ) (c : Cqe) (cq : List Cqe) (n : Nat)
    (ready : List (Ready κ)) : State θ π κ × List (Event π κ) :=
  match s.callbacks c.userData with
  | some cb =>
    ({ s.erase c.userData with
        cq := cq
        loop := .collect n (ready ++ [⟨c.userData, cb, toResult c.res⟩]) },
      [.collected c (some cb)])
  | none => ({ s with cq := cq, loop := .collect n ready }, [.collected c none])

/-- `it.first(it.second)`. The waker's callback starts here too: an errored poll
goes straight to `exit`. -/
def invokeStep (s : State θ π κ) (r : Ready κ) (rest : List (Ready κ)) :
    State θ π κ × List (Event π κ) :=
  match r.callback with
  | .user _ => ({ s with loop := .callback rest }, [.invoked r])
  | .waker =>
    match r.ret with
    | .ok _ => ({ s with loop := .wakerRead rest }, [.invoked r])
    | .error e => (s.wakerExit e rest, [.invoked r, .wakerExited e])

/-- The exit check at the top of the loop of `run`. -/
def checkStep (s : State θ π κ) : State θ π κ × List (Event π κ) :=
  if s.exiting then
    if s.exitingError.isError then
      ({ s with exiting := false, exitingError := .none, loop := .outside },
        [.returned (.error s.exitingError)])
    else ({ s with exiting := false, loop := .outside }, [.returned (.ok ())])
  else ({ s with loop := .submit }, [])

/-- The next step of the loop thread inside `init`, `run` or the waker's
callback. `outside` enters `run`. -/
def loopStep (s : State θ π κ) (ans : Answer) : Outcome θ π κ :=
  match s.loop with
  | .init =>
    match s.call .loop with
    | .returned (.ok _) => some ({ s with loop := .outside }.setCall .loop .idle, [])
    | _ => none
  | .outside => some ({ s with loop := .check }, [])
  | .check => some (checkStep s)
  | .submit =>
    match ans with
    | .submitted n =>
      if s.mSubmission = none ∧ n ≤ s.sq.length then
        some ({ s with
            sq := s.sq.drop n
            inflight := s.inflight ++ s.sq.take n
            loop := .wait }, [])
      else none
    | _ => none
  | .wait =>
    match ans with
    | .ok => if s.cq = [] then none else some ({ s with loop := .peek }, [])
    | .failed e => some ({ s with loop := .outside }, [.returned (.error e)])
    | .submitted _ => none
  | .peek => some ({ s with loop := .lock (min batchSize s.cq.length) }, [])
  | .lock n =>
    if s.mCallbacks = none then
      some ({ s with mCallbacks := some .loop, loop := .collect n [] }, [])
    else none
  | .collect 0 ready => some ({ s with mCallbacks := none, loop := .dispatch ready }, [])
  | .collect (n + 1) ready =>
    match s.cq with
    | c :: cq => some (collectStep s c cq n ready)
    | [] => none
  | .dispatch (r :: rest) => some (invokeStep s r rest)
  | .dispatch [] => some ({ s with loop := .check }, [])
  | .callback rest =>
    if (s.call .loop).isIdle then some ({ s with loop := .dispatch rest }, []) else none
  | .wakerRead rest =>
    match ans with
    | .ok =>
      if s.counter = 0 then none
      else
        some ({ s with counter := 0, loop := .wakerRearm rest }.setCall .loop
          (.lockSubmission .pollWaker (some .waker)), [])
    | .failed e => some (s.wakerExit e rest, [.wakerExited e])
    | .submitted _ => none
  | .wakerRearm rest =>
    match s.call .loop with
    | .returned (.ok _) => some ({ s with loop := .dispatch rest }.setCall .loop .idle, [])
    | .returned (.error e) => some (s.wakerExit e rest, [.wakerExited e])
    | _ => none
  | .wakerExit rest =>
    if (s.call .loop).isIdle then some ({ s with loop := .dispatch rest }, []) else none

/-- The kernel completes one accepted request and posts its only CQE. -/
def postStep (s : State θ π κ) (i : Nat) (res : Int) : Outcome θ π κ :=
  match s.inflight[i]? with
  | some q =>
    some ({ s with
        inflight := s.inflight.eraseIdx i
        cq := s.cq ++ [⟨q.userData, res⟩] },
      [.posted ⟨q.userData, res⟩])
  | none => none

def step (s : State θ π κ) : Action θ π κ → Outcome θ π κ
  | .enter t entry => enterStep s t entry
  | .call t ans => callStep s t ans
  | .finish t => finishStep s t
  | .loop ans => loopStep s ans
  | .post i res => postStep s i res

/-- `init` has made the eventfd and the ring and is entering `add_waker`. -/
def start : State θ π κ where
  sq := []
  inflight := []
  cq := []
  callbacks := fun _ => none
  callbacksIdx := 0
  mSubmission := none
  mCallbacks := none
  counter := 0
  exiting := false
  exitingError := .none
  loop := .init
  call := Function.update (fun _ => .idle) .loop (.lockSubmission .pollWaker (some .waker))

end Machine

end UringContext
