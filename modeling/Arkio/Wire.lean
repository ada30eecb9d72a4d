import Arkio.CoroRefinement
import Arkio.SyncStreams

/-!
# What passes over the descriptors of a program

`Wire` replays the exchanges of a program with the kernel: the memory as reads
fill it, the bytes that were received and the bytes that were sent. For one
operation it is what `SyncStreams` says; in a blocking program the exchanges of
its operations follow one another, and a request that is pending comes last.
-/
namespace SyncIo

open Bindings Buffer

/-- What was received and sent so far, and the memory by then. -/
structure Wire where
  mem : Memory
  received : List UInt8
  sent : List UInt8

namespace Wire

def start (mem : Memory) : Wire := ⟨mem, [], []⟩

/-- A request is answered. -/
def pass (w : Wire) (x : Exchange) : Wire :=
  match x.1.op with
  | .read => { w with
      mem := deliver .read x.1.iov x.2 w.mem
      received := w.received ++ x.2.bytes }
  | .write => { w with sent := w.sent ++ accepted w.mem x }

theorem pass_mem (w : Wire) (x : Exchange) :
    (w.pass x).mem = deliver x.1.op x.1.iov x.2 w.mem := by
  unfold pass
  split
  next hop => rw [hop]
  next hop =>
    rw [hop]
    rfl

def after (w : Wire) (xs : List Exchange) : Wire := xs.foldl pass w

@[simp] theorem after_nil (w : Wire) : w.after [] = w := rfl

@[simp] theorem after_cons (w : Wire) (x : Exchange) (xs : List Exchange) :
    w.after (x :: xs) = (w.pass x).after xs := rfl

@[simp] theorem after_append (w : Wire) (xs ys : List Exchange) :
    w.after (xs ++ ys) = (w.after xs).after ys := List.foldl_append

end Wire

section Operations

variable {b : List ConstBuffer} {cond : CompletionCondition}

/-- What a read receives. -/
theorem read_loop_wire (f : Fd) (w : Wire) (d : Nat) (rs : List Response) :
    w.after ((IoOperation.read.loop b cond f w.mem d rs).exchanges rs) =
      ⟨(IoOperation.read.loop b cond f w.mem d rs).mem,
        w.received ++ delivered ((IoOperation.read.loop b cond f w.mem d rs).exchanges rs),
        w.sent⟩ := by
  refine loop_induction (P := fun _ mem _ rs t => ∀ received,
    Wire.after ⟨mem, received, w.sent⟩ (t.exchanges rs) =
      ⟨t.mem, received ++ delivered (t.exchanges rs), w.sent⟩) ?_ ?_ ?_ ?_ ?_ f w.mem d rs w.received
  · intro f mem d rs _ received
    simp [Trace.exchanges]
  · intro f mem d _ received
    simp [Trace.exchanges]
  · intro f mem d errno pos rs _ received
    simp [Trace.exchanges, Wire.pass, IoOperation.request, deliver, Response.bytes]
  · intro f mem d rs _ _ received
    simp [Trace.exchanges, Wire.pass, IoOperation.request, deliver, Response.bytes]
  · intro f mem d bytes rs t _ _ ih received
    rw [exchanges_after, Wire.after_cons, delivered_cons, ← List.append_assoc]
    exact ih (received ++ bytes)

/-- What a write sends. -/
theorem write_loop_wire (f : Fd) (w : Wire) (d : Nat) (rs : List Response) :
    w.after ((IoOperation.write.loop b cond f w.mem d rs).exchanges rs) =
      ⟨w.mem, w.received, w.sent ++
        ((IoOperation.write.loop b cond f w.mem d rs).exchanges rs).flatMap (accepted w.mem)⟩ := by
  refine loop_induction (P := fun _ mem _ rs t => ∀ sent,
    Wire.after ⟨mem, w.received, sent⟩ (t.exchanges rs) =
      ⟨mem, w.received, sent ++ (t.exchanges rs).flatMap (accepted mem)⟩)
    ?_ ?_ ?_ ?_ ?_ f w.mem d rs w.sent
  · intro f mem d rs _ sent
    simp [Trace.exchanges]
  · intro f mem d _ sent
    simp [Trace.exchanges]
  · intro f mem d errno pos rs _ sent
    simp [Trace.exchanges, Wire.pass, IoOperation.request]
  · intro f mem d rs _ hread
    cases hread
  · intro f mem d bytes rs t _ _ ih sent
    rw [exchanges_after, Wire.after_cons, List.flatMap_cons, ← List.append_assoc]
    exact ih _

variable {kind : IoOperation} {f : Fd} {mem : Memory} {d : Nat} {rs : List Response}

/-- An operation that returns has all its requests answered. -/
theorem loop_answered {ret : Result Nat} (h : (kind.loop b cond f mem d rs).ret = some ret) :
    (kind.loop b cond f mem d rs).requests.length ≤ rs.length := by
  revert h
  refine loop_induction (P := fun _ _ _ rs t => t.ret = some ret → t.requests.length ≤ rs.length)
    ?_ ?_ ?_ ?_ ?_ f mem d rs
  · intros; simp
  · intro f mem d _ h
    cases h
  · intros; simp
  · intros; simp
  · intro f mem d bytes rs t _ _ ih h
    exact Nat.succ_le_succ (ih h)

/-- An operation that blocks has used up the responses, and waits for one more. -/
theorem loop_pending (h : (kind.loop b cond f mem d rs).ret = none) :
    (kind.loop b cond f mem d rs).requests.length = rs.length + 1 := by
  revert h
  refine loop_induction (P := fun _ _ _ rs t => t.ret = none → t.requests.length = rs.length + 1)
    ?_ ?_ ?_ ?_ ?_ f mem d rs
  · intro f mem d rs _ h
    cases h
  · intros; simp
  · intro f mem d errno pos rs _ h
    cases h
  · intro f mem d rs _ _ h
    cases h
  · intro f mem d bytes rs t _ _ ih h
    exact congrArg Nat.succ (ih h)

/-- An operation that asks for nothing has nothing to do. -/
theorem loop_nothing (h : (kind.loop b cond f mem d rs).requests = []) :
    (kind.loop b cond f mem d rs).ret = some (.ok d) := by
  revert h
  refine loop_induction (P := fun _ _ d _ t => t.requests = [] → t.ret = some (.ok d))
    ?_ ?_ ?_ ?_ ?_ f mem d rs
  · intro f mem d rs _ _
    rfl
  · intro f mem d _ h
    cases h
  · intro f mem d errno pos rs _ h
    cases h
  · intro f mem d rs _ _ h
    cases h
  · intro f mem d bytes rs t _ _ _ h
    cases h

/-- All requests of an operation are for its descriptor. -/
theorem loop_fildes (f : Fd) (mem : Memory) (d : Nat) (rs : List Response) :
    (kind.loop b cond f mem d rs).fd.fildes = f.fildes ∧
      ∀ req ∈ (kind.loop b cond f mem d rs).requests, req.fildes = f.fildes := by
  refine loop_induction (P := fun f _ _ _ t =>
    t.fd.fildes = f.fildes ∧ ∀ req ∈ t.requests, req.fildes = f.fildes) ?_ ?_ ?_ ?_ ?_ f mem d rs
  · intros
    exact ⟨rfl, nofun⟩
  · intros
    simp [IoOperation.request]
  · intros
    simp [IoOperation.request]
  · intros
    simp [IoOperation.request]
  · intro f mem d bytes rs t _ _ ih
    refine ⟨ih.1, ?_⟩
    intro req hreq
    rcases List.mem_cons.mp hreq with rfl | hreq
    · rfl
    · exact ih.2 req hreq

end Operations

end SyncIo

namespace Coro

open Bindings Buffer SyncIo

variable {φ Q υ : Type}

/-- The exchanges of a program, from the responses it began with. -/
def World.exchanges (w : World φ) (rs : List Response) : List Exchange := w.requests.zip rs

/-- Nothing but responses from the front are gone. -/
structure World.Answers (w : World φ) (rs : List Response) : Prop where
  le : w.requests.length ≤ rs.length
  responses : w.responses = rs.drop w.requests.length

theorem zip_append_drop {α β : Type} (l l' : List α) (rs : List β) :
    (l ++ l').zip rs = l.zip rs ++ l'.zip (rs.drop l.length) := by
  induction l generalizing rs with
  | nil => rfl
  | cons x l ih =>
    cases rs with
    | nil => simp
    | cons r rs => simp [ih]

variable [DecidableEq φ] {next : Program φ Q υ}

section Commands

variable {n : Nat} {q q' : Q} {w : World φ} {store : Store φ}

theorem blocking_of_io {kind : IoOperation} {fd : φ} {b : List ConstBuffer}
    {cond : CompletionCondition} {k : Result Nat → Q} {t : Trace}
    (hcmd : next q w.store = (store, .io kind fd b cond k))
    (ht : kind.sync (store.fds fd) b cond store.mem w.responses = t) :
    blocking next (n + 1) q w =
      match t.ret with
      | some ret => blocking next n (k ret) (({ w with store := store } : World φ).during fd t)
      | none => (({ w with store := store } : World φ).during fd t, .blocked) := by
  subst ht
  simp only [blocking, hcmd, World.sync, World.during]
  cases (kind.sync (store.fds fd) b cond store.mem w.responses).ret <;> rfl

theorem blocking_of_compute (hcmd : next q w.store = (store, .compute q')) :
    blocking next (n + 1) q w = blocking next n q' { w with store := store } := by
  simp [blocking, hcmd]

theorem blocking_of_ret {v : υ} (hcmd : next q w.store = (store, .ret v)) :
    blocking next (n + 1) q w = ({ w with store := store }, .returned v) := by
  simp [blocking, hcmd]

theorem blocking_of_call {k : υ → Q} (hcmd : next q w.store = (store, .call q' k)) :
    blocking next (n + 1) q w =
      match blocking next n q' { w with store := store } with
      | (w, .returned v) => blocking next n (k v) w
      | (w, o) => (w, o) := by
  obtain ⟨⟨w', o⟩, hr⟩ : ∃ r, blocking next n q' { w with store := store } = r := ⟨_, rfl⟩
  cases o <;> simp [blocking, hcmd, hr]

end Commands

/-- The requests of a program are those of its operations, one after the other. -/
theorem blocking_requests (next : Program φ Q υ) (n : Nat) (q : Q) (w : World φ) :
    w.requests <+: (blocking next n q w).1.requests := by
  induction n generalizing q w with
  | zero => exact List.prefix_rfl
  | succ n ih =>
    obtain ⟨store, cmd, hcmd⟩ : ∃ store cmd, next q w.store = (store, cmd) := ⟨_, _, rfl⟩
    cases cmd with
    | compute q' =>
      rw [blocking_of_compute hcmd]
      exact ih q' { w with store := store }
    | io kind fd b cond k =>
      rw [blocking_of_io hcmd rfl]
      have hfirst : w.requests <+: (({ w with store := store } : World φ).during fd
          (kind.sync (store.fds fd) b cond store.mem w.responses)).requests :=
        List.prefix_append _ _
      split
      · exact hfirst.trans (ih _ _)
      · exact hfirst
    | call q' k =>
      rw [blocking_of_call hcmd]
      have hcall := ih q' { w with store := store }
      split
      next w' v hr =>
        rw [hr] at hcall
        exact hcall.trans (ih _ w')
      next w' o _ hr =>
        rw [hr] at hcall
        exact hcall
    | ret v =>
      rw [blocking_of_ret hcmd]

variable {w : World φ} {rs : List Response} {fd : φ} {t : Trace}

omit [DecidableEq φ] in
theorem exchanges_grow {w w' : World φ} (h : w.requests <+: w'.requests) (rs : List Response) :
    w.exchanges rs <+: w'.exchanges rs := by
  obtain ⟨l, hl⟩ := h
  rw [World.exchanges, World.exchanges, ← hl, zip_append_drop]
  exact List.prefix_append _ _

/-- The exchanges of an operation follow those before it. -/
theorem exchanges_during (hw : w.Answers rs) :
    (w.during fd t).exchanges rs = w.exchanges rs ++ t.exchanges w.responses := by
  rw [World.exchanges, World.during, zip_append_drop, hw.responses]
  rfl

theorem answers_during (hw : w.Answers rs) (ht : t.requests.length ≤ w.responses.length) :
    (w.during fd t).Answers rs := by
  have hle := hw.le
  have hlen := congrArg List.length hw.responses
  rw [List.length_drop] at hlen
  constructor
  · simp only [World.during, List.length_append]
    omega
  · simp only [World.during, List.length_append, hw.responses, List.drop_drop]

/-- A program that blocks waits for one more response, any other one has had all the
answers to its requests. -/
def World.Asked (w : World φ) (rs : List Response) : Outcome υ → Prop
  | .blocked => w.requests.length = rs.length + 1
  | _ => w.Answers rs

theorem blocking_asked (next : Program φ Q υ) (n : Nat) (q : Q) {w : World φ} (hw : w.Answers rs) :
    (blocking next n q w).1.Asked rs (blocking next n q w).2 := by
  induction n generalizing q w with
  | zero => exact hw
  | succ n ih =>
    obtain ⟨store, cmd, hcmd⟩ : ∃ store cmd, next q w.store = (store, cmd) := ⟨_, _, rfl⟩
    have hw' : ({ w with store := store } : World φ).Answers rs := ⟨hw.le, hw.responses⟩
    cases cmd with
    | compute q' =>
      rw [blocking_of_compute hcmd]
      exact ih q' hw'
    | io kind fd b cond k =>
      obtain ⟨t, ht⟩ : ∃ t, kind.sync (store.fds fd) b cond store.mem w.responses = t := ⟨_, rfl⟩
      rw [blocking_of_io hcmd ht]
      rw [kind.sync_eq_loop] at ht
      obtain hret | ⟨ret, hret⟩ : t.ret = none ∨ ∃ ret, t.ret = some ret := by
        cases t.ret <;> simp
      · have hlen : t.requests.length = w.responses.length + 1 := by
          subst ht
          exact loop_pending hret
        rw [hw.responses, List.length_drop] at hlen
        have hle := hw.le
        simp only [hret, World.Asked, World.during, List.length_append]
        omega
      · have hlen : t.requests.length ≤ w.responses.length := by
          subst ht
          exact loop_answered hret
        simp only [hret]
        exact ih (k ret) (answers_during hw' hlen)
    | call q' k =>
      have hcall := ih q' hw'
      rw [blocking_of_call hcmd]
      split
      next w' v hr =>
        rw [hr] at hcall
        exact ih (k v) hcall
      next w' o hne hr =>
        rw [hr] at hcall
        exact hcall
    | ret v =>
      rw [blocking_of_ret hcmd]
      exact hw'

end Coro
