import Arkio.CoroConfinement
import Arkio.Proactor
import Arkio.Wire

/-!
# Programs in the callback flavour

The third flavour of a program: `async::read` and `async::write`, with a callback
that goes on with it. Nobody waits for anything. An activation is a call of the
first function, or of the closure of a completed operation, and it ends with the
next operation under way or for good. In between, all that is left of the program is
its operation with the callback in it. The buffer sequence of an operation has to
stay as it is until the callback is called, as the closure only has a reference to it.

After each response it is where the blocking flavour returns or blocks.
-/
namespace Callback

open Bindings Buffer SyncIo AsyncIo Coro
open Proactor (Turn Solo)

/-- An operation under way. Its closure refers to the sequence `b`, which its caller
keeps. -/
structure Operation (φ Q : Type) where
  kind : IoOperation
  fd : φ
  b : List ConstBuffer
  op : IoOp (Result Nat → Q)

/-- Where a program is between two activations. -/
inductive Point (φ Q υ : Type) where
  | fresh
  | waiting (o : Operation φ Q)
  | ended (v : υ)

/-- What the program has returned. -/
def Point.value {φ Q υ : Type} : Point φ Q υ → List υ
  | .ended v => [v]
  | _ => []

section Activation

variable {φ Q υ : Type} [DecidableEq φ]

abbrev Activated (φ Q υ : Type) := Option (Turn (Store φ) (Point φ Q υ) (Fd × Request))

/-- What an activation of an operation leads to. Where it completes it calls its
callback. -/
def settle (call : Q → Store φ → Activated φ Q υ) (kind : IoOperation) (fd : φ)
    (b : List ConstBuffer) (s : Store φ) (turn : AsyncIo.Turn (Result Nat → Q)) :
    Activated φ Q υ :=
  let s := { s with fds := Function.update s.fds fd turn.fd }
  match turn.effects, turn.attempt, turn.closure with
  | [], some (req, _), some op => some ⟨s, .waiting ⟨kind, fd, b, op⟩, some (turn.fd, req)⟩
  | [.call k ret], _, _ => call (k ret) s
  | _, _, _ => none

/-- The program goes on until it has called `async::read` or `async::write` or is at
its end. All submissions succeed, and what needs more than `n` calls does not return.
A function that is called for its value cannot wait for an operation. -/
def perform (next : Program φ Q υ) : Nat → Q → Store φ → Activated φ Q υ
  | 0, _, _ => none
  | n + 1, q, s =>
    let (s, cmd) := next q s
    match cmd with
    | .compute q => perform next n q s
    | .io kind fd b cond k =>
      settle (perform next n) kind fd b s
        (AsyncIo.run kind (s.fds fd) b ⟨some k, ⟨cond, 0, []⟩⟩ (.ok 0))
    | .call _ _ => none
    | .ret v => some ⟨s, .ended v, none⟩

/-- The first call, or the closure of the operation with the result of its CQE. -/
def activate (next : Program φ Q υ) (n : Nat) (entry : Q) (p : Point φ Q υ)
    (ret : Option (Result Int)) (s : Store φ) : Activated φ Q υ :=
  match ret, p with
  | none, _ => perform next n entry s
  | some ret, .waiting o =>
    settle (perform next n) o.kind o.fd o.b s
      (goOn o.kind (s.fds o.fd) o.b o.op ret (.ok 0))
  | some _, _ => none

end Activation

section Blocking

variable {φ Q υ : Type} [DecidableEq φ] {next : Program φ Q υ} {n : Nat} {s : Store φ}
  {turn : Turn (Store φ) (Point φ Q υ) (Fd × Request)}

/-- The rest of the blocking operation from here, and what comes after it. -/
def Operation.loop (o : Operation φ Q) (w : World φ) : Trace :=
  o.kind.loop o.b o.op.locals.cond (w.store.fds o.fd) w.store.mem o.op.locals.doneSz w.responses

/-- What the blocking flavour does when an operation has come so far. -/
def goesOn (next : Program φ Q υ) (n : Nat) (k : Result Nat → Q) (fd : φ) (t : Trace)
    (w : World φ) : World φ × Outcome υ :=
  match t.ret with
  | some ret => blocking (recast next) n (k (inSystem ret)) (w.during fd t)
  | none => (w.during fd t, .blocked)

/-- What the blocking flavour does from a point on. -/
def resumed (next : Program φ Q υ) (n : Nat) (p : Point φ Q υ) (w : World φ) :
    World φ × Outcome υ :=
  match p with
  | .ended v => (w, .returned v)
  | .waiting o =>
    match o.op.cb with
    | some k => goesOn next n k o.fd (o.loop w) w
    | none => (w, .running)
  | .fresh => (w, .running)

/-- The operation has a callback and more to do, and its request is out. -/
structure Operation.Asks (o : Operation φ Q) (s : Store φ) (x : Fd × Request) : Prop where
  callback : ∃ k, o.op.cb = some k
  more : o.op.locals.cond (bufferSize o.b) o.op.locals.doneSz ≠ 0
  view : view x.1 x.2 =
    o.kind.request o.b o.op.locals.cond (s.fds o.fd) o.op.locals.doneSz
  op : x.2.op = o.kind
  iov : x.2.iov = (o.kind.request o.b o.op.locals.cond (s.fds o.fd) o.op.locals.doneSz).iov

/-- A program has ended, or it waits for the operation whose request is out. -/
inductive Rests (s : Store φ) : Point φ Q υ → Option (Fd × Request) → Prop where
  | ended (v : υ) : Rests s (.ended v) none
  | waiting (o : Operation φ Q) (x : Fd × Request) (hasks : o.Asks s x) :
      Rests s (.waiting o) (some x)

/-- What the blocking flavour does before the activation, it does after it, when it has
made these requests. -/
structure Continues (next : Program φ Q υ) (before : Nat → List Response → List Request →
    World φ × Outcome υ) (made : List Request)
    (turn : Turn (Store φ) (Point φ Q υ) (Fd × Request)) : Prop where
  rests : Rests turn.store turn.proc turn.request
  same : ∃ m, ∀ j rs reqs,
    before (m + j) rs reqs = resumed next j turn.proc ⟨turn.store, rs, reqs ++ made⟩

/-- A function of the program that is called. -/
def Calls (next : Program φ Q υ) (n : Nat) : Prop :=
  ∀ q s turn, perform next n q s = some turn →
    Continues next (fun j rs reqs => blocking (recast next) j q ⟨s, rs, reqs⟩) [] turn

/-- An activation of an operation. -/
theorem settle_run {kind : IoOperation} {fd : φ} {b : List ConstBuffer} {f : Fd}
    {op : IoOp (Result Nat → Q)} {k : Result Nat → Q} (hcalls : Calls next n)
    (hcb : op.cb = some k)
    (h : settle (perform next n) kind fd b s (run kind f b op (.ok 0)) = some turn) :
    Continues next (fun j rs reqs => goesOn next j k fd
      (kind.loop b op.locals.cond f s.mem op.locals.doneSz rs) ⟨s, rs, reqs⟩) [] turn := by
  by_cases hcond : op.locals.cond (bufferSize b) op.locals.doneSz = 0
  · rw [run_done hcond, hcb] at h
    obtain ⟨hrests, m, hm⟩ := hcalls _ _ _ h
    refine ⟨hrests, m, fun j rs reqs => ?_⟩
    rw [← hm j rs reqs, loop_done hcond]
    simp [goesOn, World.during, inSystem, Except.mapError]
  · rw [run_submitted hcond] at h
    obtain rfl := Option.some.inj h
    refine ⟨.waiting _ _ ⟨⟨k, hcb⟩, hcond, ?_, rfl, ?_⟩, 0, fun j rs reqs => ?_⟩
    · simpa [IoOp.submitted] using view_request (f := f) rfl kind b op
    · simp [IoOp.submitted, IoOp.request, IoOperation.request]
    · simp [resumed, goesOn, Operation.loop, IoOp.submitted, hcb, World.during]

theorem perform_continues (next : Program φ Q υ) (n : Nat) : Calls next n := by
  induction n with
  | zero => exact fun q s turn h => nomatch h
  | succ n ih =>
    intro q s turn h
    obtain ⟨store, cmd, hcmd⟩ : ∃ store cmd, next q s = (store, cmd) := ⟨_, _, rfl⟩
    simp only [perform, hcmd] at h
    cases cmd with
    | compute q' =>
      obtain ⟨hrests, m, hm⟩ := ih q' store turn h
      refine ⟨hrests, m + 1, fun j rs reqs => ?_⟩
      rw [← hm j rs reqs, Nat.add_right_comm]
      exact blocking_of_compute (by simp [recast, hcmd])
    | io kind fd b cond k =>
      obtain ⟨hrests, m, hm⟩ := settle_run ih rfl h
      refine ⟨hrests, m + 1, fun j rs reqs => ?_⟩
      rw [← hm j rs reqs, Nat.add_right_comm]
      exact blocking_of_io (by simp [recast, hcmd]) (kind.sync_eq_loop _ b cond _ rs)
    | call q' k => cases h
    | ret v =>
      obtain rfl := Option.some.inj h
      refine ⟨.ended v, 1, fun j rs reqs => ?_⟩
      rw [Nat.add_comm 1 j, List.append_nil]
      exact blocking_of_ret (by simp [recast, hcmd])

theorem resumed_waiting {o : Operation φ Q} {k : Result Nat → Q} {w : World φ}
    (hcb : o.op.cb = some k) :
    resumed next n (.waiting o) w = goesOn next n k o.fd (o.loop w) w := by
  simp [resumed, hcb]

/-- A round of the loop was answered. -/
theorem goesOn_after {k : Result Nat → Q} {fd : φ} {t : Trace} {req : Request}
    {response : Response} {rs : List Response} {reqs : List Request} {mem : Memory} :
    goesOn next n k fd (t.after req) ⟨s, response :: rs, reqs⟩ =
      goesOn next n k fd t ⟨⟨mem, s.fds⟩, rs, reqs ++ [req]⟩ := by
  have hduring : World.during ⟨s, response :: rs, reqs⟩ fd (t.after req) =
      World.during ⟨⟨mem, s.fds⟩, rs, reqs ++ [req]⟩ fd t := by
    simp [World.during, Trace.after]
  rw [goesOn, goesOn, hduring]
  rfl

/-- The closure is called with the answer to the operation's request. -/
theorem activate_continues {entry : Q} {o : Operation φ Q} {x : Fd × Request}
    {response : Response} (hasks : o.Asks s x)
    (h : activate next n entry (.waiting o) (some (toResult response.res))
      (Region.serve x.2 response s) = some turn) :
    Continues next (fun j rs reqs => resumed next j (.waiting o) ⟨s, response :: rs, reqs⟩)
      [view x.1 x.2] turn := by
  obtain ⟨⟨k, hcb⟩, hmore, hview, hop, hiov⟩ := hasks
  have hserved : Region.serve x.2 response s =
      ⟨deliver o.kind (view x.1 x.2).iov response s.mem, s.fds⟩ := by
    rw [Region.serve, hop, hiov, hview]
  rw [hserved] at h
  simp only [activate] at h
  cases response with
  | failed errno pos =>
    rw [goOn_failed, hcb] at h
    obtain ⟨hrests, m, hm⟩ := perform_continues next n _ _ _ h
    refine ⟨hrests, m, fun j rs reqs => ?_⟩
    have hj := hm j rs (reqs ++ [view x.1 x.2])
    rw [List.append_nil] at hj
    rw [resumed_waiting hcb, ← hj, Operation.loop, loop_failed hmore, hview]
    cases o.kind <;> rfl
  | transferred bytes =>
    by_cases heof : o.kind = .read ∧ bytes.length = 0
    · rw [goOn_eof heof, hcb] at h
      obtain ⟨hrests, m, hm⟩ := perform_continues next n _ _ _ h
      refine ⟨hrests, m, fun j rs reqs => ?_⟩
      have hj := hm j rs (reqs ++ [view x.1 x.2])
      rw [List.append_nil] at hj
      rw [resumed_waiting hcb, ← hj, Operation.loop, loop_eof hmore heof, hview]
      obtain ⟨hread, hlen⟩ := heof
      rw [List.eq_nil_of_length_eq_zero hlen, hread, deliver, scatter_nil]
      rfl
    · rw [goOn_transferred heof] at h
      obtain ⟨hrests, m, hm⟩ := settle_run (perform_continues next n) (by exact hcb) h
      refine ⟨hrests, m, fun j rs reqs => ?_⟩
      have hj := hm j rs (reqs ++ [view x.1 x.2])
      rw [List.append_nil] at hj
      rw [resumed_waiting hcb, ← hj, Operation.loop, loop_transferred hmore heof, ← hview]
      exact goesOn_after

end Blocking

end Callback
