import Arkio.Bindings

/-!
# The asynchronous tcp operations

`tcp::async::connect` and the two `tcp::async::accept`. Each hands a closure
with the user's callback to `add_sqe` and has a completion handler of its own.
The handlers report an error and then go on to report success, without a return
between the two.
-/
namespace TcpAsync

open Bindings

variable {κ γ α : Type}

/-- The storage of an address, as far as a system call sees it. -/
structure Address where
  saPtr : Nat
  saLen : Nat
  deriving DecidableEq, Repr

/-- A `socket` or an `acceptor` bound to an asynchronous context. -/
structure Socket (γ : Type) where
  fildes : Int
  ctx : γ
  deriving DecidableEq, Repr

/-- What the SQE of an operation asks for. -/
inductive Request where
  | connect (fildes : Int) (addr : Address)
  | accept (fildes : Int) (addr : Option Address) (flags : Int)
  deriving DecidableEq, Repr

/-- What an initiating call does: the request it prepares, the completion handler
that `add_sqe` keeps if it succeeds, and the effects inside the call. -/
structure Started (κ α : Type) where
  request : Request
  handler : Option (Result Int → List (Effect κ α))
  effects : List (Effect κ α)

/-- The lambda of `connect`. -/
def connectDone (cb : Option κ) (ret : Result Int) : List (Effect κ Unit) :=
  (match ret with
    | .error e => invoke cb (.error e)
    | .ok _ => []) ++ invoke cb (.ok ())

/-- The lambda takes the callback by move, so `cb` is empty when the submission
has failed. -/
def connect (f : Socket γ) (endpoint : Address) (cb : κ) (answer : Result Nat) :
    Started κ Unit :=
  let (captured, cb) : Option κ × Option κ := (some cb, none)
  let request := Request.connect f.fildes endpoint
  match answer with
  | .ok _ => ⟨request, some (connectDone captured), []⟩
  | .error e => ⟨request, none, invoke cb (.error e)⟩

/-- `wrap_accepted_socket`. -/
def wrapAcceptedSocket (ctx : γ) (fildes : Int) : Socket γ := ⟨fildes, ctx⟩

/-- The statement after the error branch of both accepts: `ret.value()` ends the
process where there is no value. -/
def callWithAccepted (ctx : γ) (cb : Option κ) (ret : Result Int) : List (Effect κ (Socket γ)) :=
  match ret with
  | .error _ => [.errorValue]
  | .ok v => invoke cb (.ok (wrapAcceptedSocket ctx v))

/-- The lambda of `accept(srv, cb)`. -/
def acceptDone (ctx : γ) (cb : Option κ) (ret : Result Int) : List (Effect κ (Socket γ)) :=
  (match ret with
    | .error e => invoke cb (.error e)
    | .ok _ => []) ++ callWithAccepted ctx cb ret

def accept (srv : Socket γ) (cb : κ) (answer : Result Nat) : Started κ (Socket γ) :=
  let (captured, cb) : Option κ × Option κ := (some cb, none)
  let request := Request.accept srv.fildes none 0
  match answer with
  | .ok _ => ⟨request, some (acceptDone srv.ctx captured), []⟩
  | .error e => ⟨request, none, invoke cb (.error e)⟩

/-- `accept_with_address_impl::locals_t`, without the reference to the acceptor. -/
structure AcceptLocals where
  endpoint : Address
  addrlenBuf : Nat
  deriving DecidableEq, Repr

/-- `accept_with_address_impl::finish`. -/
def finish (ctx : γ) (op : AsyncOp κ AcceptLocals) (ret : Result Int) :
    List (Effect κ (Socket γ)) :=
  (match ret with
    | .error e => op.complete (.error e)
    | .ok _ => []) ++ callWithAccepted ctx op.cb ret

/-- `accept_with_address_impl::run`. -/
def run (srv : Socket γ) (op : AsyncOp κ AcceptLocals) (answer : Result Nat) :
    Started κ (Socket γ) :=
  let addr : Address := ⟨op.locals.endpoint.saPtr, op.locals.addrlenBuf⟩
  let request := Request.accept srv.fildes (some addr) 0
  let (moved, cb) := op.yield
  match answer with
  | .ok _ => ⟨request, some (finish srv.ctx moved), []⟩
  | .error e => ⟨request, none, invoke cb (.error e)⟩

/-- `accept(srv, endpoint, cb)`. -/
def acceptWithAddress (srv : Socket γ) (endpoint : Address) (cb : κ) (answer : Result Nat) :
    Started κ (Socket γ) :=
  run srv ⟨some cb, ⟨endpoint, endpoint.saLen⟩⟩ answer

/-- The effects of a completion with this `res`. -/
def Started.completion (s : Started κ α) (res : Int) : List (Effect κ α) :=
  match s.handler with
  | some handler => handler (toResult res)
  | none => []

/-- `awaitable_op`: the value of the awaited operation, and how often its
coroutine was resumed. -/
structure AwaitableOp (α : Type) where
  ret : Option (Result α)
  resumed : Nat

/-- The callback that `await_suspend` passes to the operation. -/
def AwaitableOp.callback (w : AwaitableOp α) (ret : Result α) : AwaitableOp α :=
  ⟨some ret, w.resumed + 1⟩

/-- What a completion does to the coroutine that awaits the operation. -/
def awaited (es : List (Effect κ α)) : AwaitableOp α :=
  (calls es).foldl (fun w c => w.callback c.2) ⟨none, 0⟩

/-- The kernel's verdict reaches the callback once, and nothing else happens. -/
structure Delivers (cb : κ) (ret : Result α) (es : List (Effect κ α)) : Prop where
  once : calls es = [(cb, ret)]
  noEmptyCall : .emptyCall ∉ es
  noErrorValue : .errorValue ∉ es
  resumesOnce : (awaited es).resumed = 1

/-- The whole duty of an operation whose submission succeeded. -/
def CompletesOnce (s : Started κ α) (cb : κ) (value : Int → α) (res : Int) : Prop :=
  s.effects = [] ∧ Delivers cb ((toResult res).map value) (s.completion res)

theorem delivers_call (cb : κ) (ret : Result α) : Delivers cb ret [.call cb ret] :=
  ⟨rfl, by simp, by simp, rfl⟩

/-- A successful completion is reported as one by every handler. -/
theorem connect_success (f : Socket γ) (endpoint : Address) (cb : κ) (tok : Nat) {res : Int}
    (h : 0 ≤ res) : CompletesOnce (connect f endpoint cb (.ok tok)) cb (fun _ => ()) res := by
  refine ⟨rfl, ?_⟩
  simp only [Started.completion, connect, toResult_nonneg h]
  exact delivers_call cb (.ok ())

theorem accept_success (srv : Socket γ) (cb : κ) (tok : Nat) {res : Int} (h : 0 ≤ res) :
    CompletesOnce (accept srv cb (.ok tok)) cb (wrapAcceptedSocket srv.ctx) res := by
  refine ⟨rfl, ?_⟩
  simp only [Started.completion, accept, toResult_nonneg h]
  exact delivers_call cb (.ok (wrapAcceptedSocket srv.ctx res))

theorem acceptWithAddress_success (srv : Socket γ) (endpoint : Address) (cb : κ) (tok : Nat)
    {res : Int} (h : 0 ≤ res) : CompletesOnce (acceptWithAddress srv endpoint cb (.ok tok)) cb
      (wrapAcceptedSocket srv.ctx) res := by
  refine ⟨rfl, ?_⟩
  simp only [Started.completion, acceptWithAddress, run, AsyncOp.yield, toResult_nonneg h]
  exact delivers_call cb (.ok (wrapAcceptedSocket srv.ctx res))

/-- A failed `connect` calls back twice, first with the error and then with
success, and so resumes its coroutine twice. -/
theorem connect_failure (f : Socket γ) (endpoint : Address) (cb : κ) (tok : Nat) {res : Int}
    (h : res < 0) : (connect f endpoint cb (.ok tok)).completion res =
      [.call cb (.error ⟨-res, .system⟩), .call cb (.ok ())] := by
  simp only [Started.completion, connect, toResult_neg h]
  rfl

/-- A failed `accept` calls back with the error and then takes the value of it. -/
theorem accept_failure (srv : Socket γ) (cb : κ) (tok : Nat) {res : Int} (h : res < 0) :
    (accept srv cb (.ok tok)).completion res =
      [.call cb (.error ⟨-res, .system⟩), .errorValue] := by
  simp only [Started.completion, accept, toResult_neg h]
  rfl

theorem acceptWithAddress_failure (srv : Socket γ) (endpoint : Address) (cb : κ) (tok : Nat)
    {res : Int} (h : res < 0) : (acceptWithAddress srv endpoint cb (.ok tok)).completion res =
      [.call cb (.error ⟨-res, .system⟩), .errorValue] := by
  simp only [Started.completion, acceptWithAddress, run, AsyncOp.yield, toResult_neg h]
  rfl

/-- Each operation keeps its duty exactly on the completions that succeed. -/
theorem tcp_completes_once_iff (f srv : Socket γ) (endpoint : Address) (cb : κ) (tok : Nat)
    (res : Int) :
    (CompletesOnce (connect f endpoint cb (.ok tok)) cb (fun _ => ()) res ↔ 0 ≤ res) ∧
    (CompletesOnce (accept srv cb (.ok tok)) cb (wrapAcceptedSocket srv.ctx) res ↔ 0 ≤ res) ∧
    (CompletesOnce (acceptWithAddress srv endpoint cb (.ok tok)) cb (wrapAcceptedSocket srv.ctx)
      res ↔ 0 ≤ res) := by
  refine ⟨⟨fun h => ?_, connect_success f endpoint cb tok⟩, ⟨fun h => ?_, accept_success srv cb tok⟩,
    ⟨fun h => ?_, acceptWithAddress_success srv endpoint cb tok⟩⟩
  · by_contra hneg
    have honce := h.2.resumesOnce
    rw [connect_failure f endpoint cb tok (by omega)] at honce
    simp [awaited, calls, AwaitableOp.callback] at honce
  · by_contra hneg
    have hvalue := h.2.noErrorValue
    rw [accept_failure srv cb tok (by omega)] at hvalue
    simp at hvalue
  · by_contra hneg
    have hvalue := h.2.noErrorValue
    rw [acceptWithAddress_failure srv endpoint cb tok (by omega)] at hvalue
    simp at hvalue

/-- A refused connection is reported and then reported as established. -/
theorem refused_connect_reports_success :
    ¬∀ (f : Socket Unit) (endpoint : Address) (cb : Nat) (tok : Nat) (res : Int),
      CompletesOnce (connect f endpoint cb (.ok tok)) cb (fun _ => ()) res := by
  intro hall
  have honce := (hall ⟨3, ()⟩ ⟨4096, 16⟩ 7 0 (-111)).2.once
  rw [connect_failure _ _ _ _ (by decide)] at honce
  simp [calls] at honce

end TcpAsync
