import Arkio.Bindings
import Arkio.Buffer

/-!
# The blocking reads and writes

`sync::read` and `sync::write` loop over vectored system calls until their
completion condition is met. The kernel is the list of its responses; a call
that has used them up blocks. What a call does is the requests it made, the
value it returned if it did, and the descriptor and memory it leaves.
-/
namespace SyncIo

open Bindings Buffer

inductive IoOperation where
  | read | write
  deriving DecidableEq, Repr

/-- An `fd` has no offset, a `seekable_fd` keeps one. -/
structure Fd where
  fildes : Int
  offset : Option Int
  deriving DecidableEq, Repr

/-- `feed`, where the descriptor is `Seekable`. -/
def Fd.feed (f : Fd) (n : Nat) : Fd := { f with offset := f.offset.map (· + n) }

/-- `seek`, of a `Seekable` descriptor. -/
def Fd.seek (f : Fd) (off : Int) : Fd := { f with offset := some off }

/-- A vectored request. `offset` is there when the system call takes one. -/
structure Request where
  op : IoOperation
  fildes : Int
  iov : List Iovec
  offset : Option Int
  deriving DecidableEq, Repr

/-- How the kernel answers a request. A write transfers as many bytes as the
list has; which ones is up to the memory. -/
inductive Response where
  | failed (errno : Nat) (pos : 0 < errno)
  | transferred (bytes : List UInt8)
  deriving DecidableEq, Repr

/-- `res` of the CQE that answers a request. -/
def Response.res : Response → Int
  | .failed errno _ => -errno
  | .transferred bytes => bytes.length

/-- What a response does to the memory. -/
def deliver (kind : IoOperation) (iov : List Iovec) (response : Response) (mem : Memory) : Memory :=
  match kind, response with
  | .read, .transferred bytes => scatter iov bytes mem
  | _, _ => mem

/-- What a call of `read` or `write` does. -/
structure Trace where
  requests : List Request
  ret : Option (Result Nat)
  fd : Fd
  mem : Memory

/-- One round of the loop comes before the rest. -/
def Trace.after (t : Trace) (req : Request) : Trace := { t with requests := req :: t.requests }

/-- The loop of `sync::read` from `done_sz` bytes on: `preadv2` at the offset of
a seekable descriptor, `readv` otherwise. -/
def readLoop (b : List ConstBuffer) (cond : CompletionCondition) :
    Fd → Memory → Nat → List Response → Trace
  | f, mem, doneSz, responses =>
    let toTransferMax := cond (bufferSize b) doneSz
    if toTransferMax = 0 then ⟨[], some (.ok doneSz), f, mem⟩
    else
      let iov := toIovecs b doneSz toTransferMax
      let req : Request := ⟨.read, f.fildes, iov, f.offset⟩
      match responses with
      | [] => ⟨[req], none, f, mem⟩
      | .failed errno _ :: _ => ⟨[req], some (.error (asEc errno)), f, mem⟩
      | .transferred bytes :: responses =>
        if bytes.length = 0 then ⟨[req], some (.ok doneSz), f, mem⟩
        else
          (readLoop b cond (f.feed bytes.length) (scatter iov bytes mem)
            ((doneSz + bytes.length) % sizeMod) responses).after req

/-- The loop of `sync::write`, which has no end of file. -/
def writeLoop (b : List ConstBuffer) (cond : CompletionCondition) :
    Fd → Memory → Nat → List Response → Trace
  | f, mem, doneSz, responses =>
    let toTransferMax := cond (bufferSize b) doneSz
    if toTransferMax = 0 then ⟨[], some (.ok doneSz), f, mem⟩
    else
      let iov := toIovecs b doneSz toTransferMax
      let req : Request := ⟨.write, f.fildes, iov, f.offset⟩
      match responses with
      | [] => ⟨[req], none, f, mem⟩
      | .failed errno _ :: _ => ⟨[req], some (.error (asEc errno)), f, mem⟩
      | .transferred bytes :: responses =>
        (writeLoop b cond (f.feed bytes.length) mem ((doneSz + bytes.length) % sizeMod)
          responses).after req

def read (f : Fd) (b : List ConstBuffer) (cond : CompletionCondition) (mem : Memory)
    (responses : List Response) : Trace :=
  readLoop b cond f mem 0 responses

def write (f : Fd) (b : List ConstBuffer) (cond : CompletionCondition) (mem : Memory)
    (responses : List Response) : Trace :=
  writeLoop b cond f mem 0 responses

/-- The blocking operation by its kind. -/
def IoOperation.loop : IoOperation → List ConstBuffer → CompletionCondition →
    Fd → Memory → Nat → List Response → Trace
  | .read => readLoop
  | .write => writeLoop

def IoOperation.sync : IoOperation → Fd → List ConstBuffer → CompletionCondition → Memory →
    List Response → Trace
  | .read => SyncIo.read
  | .write => SyncIo.write

theorem IoOperation.sync_eq_loop (kind : IoOperation) (f : Fd) (b : List ConstBuffer)
    (cond : CompletionCondition) (mem : Memory) (responses : List Response) :
    kind.sync f b cond mem responses = kind.loop b cond f mem 0 responses := by
  cases kind <;> rfl

section Rounds

variable {kind : IoOperation} {b : List ConstBuffer} {cond : CompletionCondition} {f : Fd}
  {mem : Memory} {doneSz : Nat}

/-- The request of a round. -/
def IoOperation.request (kind : IoOperation) (b : List ConstBuffer) (cond : CompletionCondition)
    (f : Fd) (doneSz : Nat) : Request :=
  ⟨kind, f.fildes, transformToIovecs b doneSz (cond (bufferSize b) doneSz), f.offset⟩

theorem loop_done (h : cond (bufferSize b) doneSz = 0) (responses : List Response) :
    kind.loop b cond f mem doneSz responses = ⟨[], some (.ok doneSz), f, mem⟩ := by
  cases kind <;> cases responses <;> simp [IoOperation.loop, readLoop, writeLoop, h]

theorem loop_blocked (h : cond (bufferSize b) doneSz ≠ 0) :
    kind.loop b cond f mem doneSz [] = ⟨[kind.request b cond f doneSz], none, f, mem⟩ := by
  cases kind <;>
    simp [IoOperation.loop, readLoop, writeLoop, h, IoOperation.request, toIovecs]

theorem loop_failed (h : cond (bufferSize b) doneSz ≠ 0) (errno : Nat) (pos : 0 < errno)
    (responses : List Response) :
    kind.loop b cond f mem doneSz (.failed errno pos :: responses) =
      ⟨[kind.request b cond f doneSz], some (.error (asEc errno)), f, mem⟩ := by
  cases kind <;>
    simp [IoOperation.loop, readLoop, writeLoop, h, IoOperation.request, toIovecs]

/-- The end of file, which only `read` knows. -/
theorem loop_eof (h : cond (bufferSize b) doneSz ≠ 0) {bytes : List UInt8}
    (heof : kind = .read ∧ bytes.length = 0) (responses : List Response) :
    kind.loop b cond f mem doneSz (.transferred bytes :: responses) =
      ⟨[kind.request b cond f doneSz], some (.ok doneSz), f, mem⟩ := by
  obtain ⟨rfl, hlen⟩ := heof
  simp [IoOperation.loop, readLoop, h, hlen, IoOperation.request, toIovecs]

theorem loop_transferred (h : cond (bufferSize b) doneSz ≠ 0) {bytes : List UInt8}
    (hmore : ¬(kind = .read ∧ bytes.length = 0)) (responses : List Response) :
    kind.loop b cond f mem doneSz (.transferred bytes :: responses) =
      (kind.loop b cond (f.feed bytes.length)
        (deliver kind (kind.request b cond f doneSz).iov (.transferred bytes) mem)
        ((doneSz + bytes.length) % sizeMod) responses).after (kind.request b cond f doneSz) := by
  cases kind with
  | read =>
    have hlen : ¬bytes.length = 0 := fun hlen => hmore ⟨rfl, hlen⟩
    rw [IoOperation.loop, readLoop]
    simp only [h, hlen, if_false]
    rfl
  | write =>
    rw [IoOperation.loop, writeLoop]
    simp only [h, if_false]
    rfl

end Rounds

end SyncIo
