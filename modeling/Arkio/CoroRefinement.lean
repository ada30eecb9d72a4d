import Arkio.CoroPrograms
import Arkio.Executions

/-!
# The coroutine flavour refines the blocking one

By induction on what the blocking flavour does: a body that runs in a frame gets
to where it returns the same value, with the same requests made, or it waits
where the blocking one waits, and the frames that were there before it are as
they were. A call is a task in a frame of its own, so that the induction
hypothesis holds of it, and a read or write is an induction on the responses.

The errors of the kernel are the one difference. A coroutine sees them in the
system category, a blocking caller in the generic one.
-/
namespace Coro

open Bindings Buffer SyncIo AsyncIo Executions
open Coroutine (Promise)

/-- The result as `to_result` would give it: errors in the system category. -/
def inSystem (ret : Result Nat) : Result Nat := ret.mapError fun e => ⟨e.value, .system⟩

section Refinement

variable {φ Q υ : Type}

attribute [simp] Machine.setFrame Machine.suspend Machine.makeTask Machine.awaitTask

/-- The program that sees its errors in the system category. -/
def recast (next : Program φ Q υ) : Program φ Q υ := fun q store =>
  match next q store with
  | (store, .io kind fd b cond k) => (store, .io kind fd b cond fun ret => k (inSystem ret))
  | (store, cmd) => (store, cmd)

/-- The machine has come to where the blocking flavour is. -/
structure Agrees (m : Machine φ Q υ) (w : World φ) : Prop where
  store : m.store = w.store
  responses : m.responses = w.responses
  requests : m.requests = w.requests

/-- The frames that were there are as they were, but for the frame `f`, which keeps
its link. -/
structure Extends (f : Nat) (m m' : Machine φ Q υ) : Prop where
  frames : ∀ g < m.nextFrame, g ≠ f → m'.frames g = m.frames g
  link : (m'.frames f).promise.continuation = (m.frames f).promise.continuation
  nextFrame : m.nextFrame ≤ m'.nextFrame
  future : m'.future = m.future

theorem Extends.trans {f : Nat} {m m' m'' : Machine φ Q υ} (h : Extends f m m')
    (h' : Extends f m' m'') : Extends f m m'' where
  frames g hg hne := (h'.frames g (Nat.lt_of_lt_of_le hg h.nextFrame) hne).trans (h.frames g hg hne)
  link := h'.link.trans h.link
  nextFrame := Nat.le_trans h.nextFrame h'.nextFrame
  future := h'.future.trans h.future

/-- What a call does in a new frame leaves the frames of its caller alone. -/
theorem Extends.callee {f g : Nat} {m m' m'' : Machine φ Q υ} (h : Extends f m m')
    (hg : m.nextFrame ≤ g) (hf : f < m.nextFrame) (hf' : f < m'.nextFrame)
    (h' : Extends g m' m'') : Extends f m m'' where
  frames x hx hne :=
    (h'.frames x (Nat.lt_of_lt_of_le hx h.nextFrame) (by omega)).trans (h.frames x hx hne)
  link := (congrArg (fun fr => fr.promise.continuation) (h'.frames f hf' (by omega))).trans h.link
  nextFrame := Nat.le_trans h.nextFrame h'.nextFrame
  future := h'.future.trans h.future

/-- Only the suspension of the frame is another. -/
theorem extends_suspend {f : Nat} {m m' : Machine φ Q υ} (sus : Option (Suspension φ Q υ))
    (hframes : m'.frames = (m.suspend f sus).frames) (hnext : m'.nextFrame = m.nextFrame)
    (hfuture : m'.future = m.future) : Extends f m m' := by
  refine ⟨fun g _ hne => ?_, ?_, Nat.le_of_eq hnext.symm, hfuture⟩
  · simp [hframes, hne]
  · simp [hframes]

/-- An operation is over: its frame has the result, and is about to be resumed. -/
structure Completes (f : Nat) (aw : Awaitable φ) (k : Result Nat → Q) (w : World φ)
    (ret : Result Nat) (m m' : Machine φ Q υ) : Prop where
  control : m'.control = .resume f
  suspension : (m'.frames f).suspension = some (.onOp { aw with ret := some (inSystem ret) } k)
  outstanding : m'.outstanding = none
  extends_ : Extends f m m'
  agrees : Agrees m' w

theorem Completes.of_extends {f : Nat} {aw : Awaitable φ} {k : Result Nat → Q} {w : World φ}
    {ret : Result Nat} {m m' m'' : Machine φ Q υ} (he : Extends f m m')
    (h : Completes f aw k w ret m' m'') : Completes f aw k w ret m m'' :=
  { h with extends_ := he.trans h.extends_ }

/-- The machine waits where the blocking flavour waits. -/
structure Blocks (w : World φ) (m m' : Machine φ Q υ) : Prop where
  idle : m'.Idle
  outstanding : m'.outstanding ≠ none
  future : m'.future = m.future
  agrees : Agrees m' w

theorem Blocks.of_future {w : World φ} {m m' m'' : Machine φ Q υ} (hf : m'.future = m.future)
    (h : Blocks w m' m'') : Blocks w m m'' :=
  { h with future := h.future.trans hf }

variable [DecidableEq φ] {next : Program φ Q υ}

/-- Control goes back through the calls of `await_suspend` on the native stack, and
nothing comes of it. -/
theorem unwinds {m : Machine φ Q υ} (h : m.control = .toCaller) :
    Leads (Machine.step next) 0 m (· = { m with native := [] }) := by
  induction hn : m.native generalizing m with
  | nil => exact .here (by rw [← hn])
  | cons f native ih =>
    have hstep : m.step next = { m with native := native } := by simp [Machine.step, h, hn]
    exact .after hstep (ih (m := { m with native := native }) h rfl)

/-- The descriptor is that of the turn, whatever it was before. -/
theorem apply_fds (m : Machine φ Q υ) (f : Nat) (fd : φ) (x : Fd) (turn : Turn Nat) :
    { m with store := { m.store with fds := Function.update m.store.fds fd x } }.apply f fd turn =
      m.apply f fd turn := by
  simp [Machine.apply]

/-- A turn that completes the operation. -/
theorem apply_complete {m : Machine φ Q υ} {f : Nat} {aw : Awaitable φ} {k : Result Nat → Q}
    (hsus : (m.frames f).suspension = some (.onOp aw k)) (ret : Result Nat) (w : World φ)
    (hw : Agrees m w) :
    Completes f aw k w ret m
      (m.apply f aw.fd ⟨m.store.fds aw.fd, none, none, invoke (some f) (inSystem ret)⟩) := by
  have happly : m.apply f aw.fd ⟨m.store.fds aw.fd, none, none, invoke (some f) (inSystem ret)⟩ =
      { m.suspend f (some (.onOp { aw with ret := some (inSystem ret) } k)) with
        outstanding := none, control := .resume f } := by
    simp [Machine.apply, Machine.complete, invoke, hsus]
  rw [happly]
  constructor
  · rfl
  · simp
  · rfl
  · exact extends_suspend (some (.onOp { aw with ret := some (inSystem ret) } k)) rfl rfl rfl
  · exact ⟨hw.store, hw.responses, hw.requests⟩

/-- What the blocking operation leaves, from some point of its loop on. -/
def World.during (w : World φ) (fd : φ) (t : Trace) : World φ :=
  ⟨⟨t.mem, Function.update w.store.fds fd t.fd⟩, w.responses.drop t.requests.length,
    w.requests ++ t.requests⟩

def Machine.world (m : Machine φ Q υ) : World φ := ⟨m.store, m.responses, m.requests⟩

/-- The operation has done what the loop did: its frame is resumed with what the
loop returned, or it waits. -/
def Settles (f : Nat) (aw : Awaitable φ) (k : Result Nat → Q) (t : Trace)
    (m m' : Machine φ Q υ) : Prop :=
  match t.ret with
  | some ret => Completes f aw k (m.world.during aw.fd t) ret m m'
  | none => Blocks (m.world.during aw.fd t) m m'

theorem settles_some {f : Nat} {aw : Awaitable φ} {k : Result Nat → Q} {t : Trace}
    {m m' : Machine φ Q υ} {ret : Result Nat} (h : t.ret = some ret) :
    Settles f aw k t m m' ↔ Completes f aw k (m.world.during aw.fd t) ret m m' := by
  simp [Settles, h]

theorem settles_none {f : Nat} {aw : Awaitable φ} {k : Result Nat → Q} {t : Trace}
    {m m' : Machine φ Q υ} (h : t.ret = none) :
    Settles f aw k t m m' ↔ Blocks (m.world.during aw.fd t) m m' := by
  simp [Settles, h]

section Activation

variable {m : Machine φ Q υ} {f : Nat} {aw : Awaitable φ} {k : Result Nat → Q} {op : IoOp Nat}

/-- The condition is satisfied already: the coroutine is resumed from `await_suspend`. -/
theorem activation_done (hsus : (m.frames f).suspension = some (.onOp aw k))
    (hcb : op.cb = some f) (h : op.locals.cond (bufferSize aw.b) op.locals.doneSz = 0) :
    Completes f aw k
      (m.world.during aw.fd ⟨[], some (.ok op.locals.doneSz), m.store.fds aw.fd, m.store.mem⟩)
      (.ok op.locals.doneSz) m
      (m.apply f aw.fd (AsyncIo.run aw.kind (m.store.fds aw.fd) aw.b op (.ok 0))) := by
  rw [run_done h, hcb]
  refine apply_complete hsus _ _ ⟨?_, ?_, ?_⟩ <;> simp [World.during, Machine.world]

/-- The machine while the kernel works on the request. -/
def Machine.waiting (m : Machine φ Q υ) (f : Nat) (aw : Awaitable φ) (op : IoOp Nat) :
    Machine φ Q υ :=
  { m with
    sqes := m.sqes ++ [(m.store.fds aw.fd, op.request aw.kind (m.store.fds aw.fd) aw.b)]
    native := []
    outstanding := some ⟨f, op.request aw.kind (m.store.fds aw.fd) aw.b,
      op.submitted aw.kind (m.store.fds aw.fd) aw.b⟩
    control := .toCaller }

omit [DecidableEq φ] in
theorem waiting_requests (hcond : op.locals.cond = aw.cond) : (m.waiting f aw op).requests =
    m.requests ++ [aw.kind.request aw.b aw.cond (m.store.fds aw.fd) op.locals.doneSz] := by
  have hview := view_request (f := m.store.fds aw.fd) rfl aw.kind aw.b op
  simp [Machine.requests, Machine.waiting, hview, hcond]

/-- The operation is submitted, and control goes back to the loop. -/
theorem activation_submitted (h : op.locals.cond (bufferSize aw.b) op.locals.doneSz ≠ 0) :
    Leads (Machine.step next) 0
      (m.apply f aw.fd (AsyncIo.run aw.kind (m.store.fds aw.fd) aw.b op (.ok 0)))
      (· = m.waiting f aw op) := by
  rw [run_submitted h]
  refine (unwinds (by simp [Machine.apply])).imp ?_
  rintro m' rfl
  simp [Machine.apply, Machine.waiting]

/-- The machine after the completion, before the operation is activated again. -/
def Machine.received (m : Machine φ Q υ) (f : Nat) (aw : Awaitable φ) (op : IoOp Nat)
    (response : Response) (responses : List Response) : Machine φ Q υ :=
  { m.waiting f aw op with
    store := { m.store with
      mem := deliver aw.kind (op.request aw.kind (m.store.fds aw.fd) aw.b).iov response
        m.store.mem }
    responses := responses }

omit [DecidableEq φ] in
theorem extends_received (r : Response) (rs : List Response) :
    Extends f m (m.received f aw op r rs) :=
  ⟨fun _ _ _ => rfl, rfl, Nat.le_refl _, rfl⟩

/-- Where the loop ends with this response. -/
theorem agrees_received (hcond : op.locals.cond = aw.cond) {r : Response} {rs : List Response}
    (hrs : m.responses = r :: rs) (ret : Option (Result Nat))
    (hmem : deliver aw.kind (op.request aw.kind (m.store.fds aw.fd) aw.b).iov r m.store.mem =
      m.store.mem) :
    Agrees (m.received f aw op r rs) (m.world.during aw.fd
      ⟨[aw.kind.request aw.b aw.cond (m.store.fds aw.fd) op.locals.doneSz], ret,
        m.store.fds aw.fd, m.store.mem⟩) := by
  refine ⟨?_, ?_, ?_⟩
  · simp [Machine.received, World.during, Machine.world, hmem]
  · simp [Machine.received, World.during, Machine.world, hrs]
  · exact waiting_requests (f := f) hcond

/-- A completion of the operation that is outstanding. -/
theorem waiting_step (hsus : (m.frames f).suspension = some (.onOp aw k)) {r : Response}
    {rs : List Response} (hrs : m.responses = r :: rs) :
    (m.waiting f aw op).step next = (m.received f aw op r rs).apply f aw.fd
      (goOn aw.kind (m.store.fds aw.fd) aw.b (op.submitted aw.kind (m.store.fds aw.fd) aw.b)
        (toResult r.res) (.ok 0)) := by
  simp [Machine.step, Machine.runLoop, Machine.waiting, Machine.received, hsus, hrs]

/-- The machine when the descriptor has been fed. -/
def Machine.fed (m : Machine φ Q υ) (fd : φ) (n : Nat) : Machine φ Q υ :=
  { m with store := { m.store with
    fds := Function.update m.store.fds fd ((m.store.fds fd).feed n) } }

theorem apply_run_fed (m : Machine φ Q υ) (f : Nat) (fd : φ) (n : Nat) (kind : IoOperation)
    (b : List ConstBuffer) (op : IoOp Nat) (answer : Result Nat) :
    m.apply f fd (AsyncIo.run kind ((m.store.fds fd).feed n) b op answer) =
      (m.fed fd n).apply f fd (AsyncIo.run kind ((m.fed fd n).store.fds fd) b op answer) := by
  rw [Machine.fed, apply_fds]
  simp

/-- One round of the loop comes before the rest. -/
theorem during_fed (hcond : op.locals.cond = aw.cond) {r : Response} {rs : List Response}
    (hrs : m.responses = r :: rs) (n : Nat) (t : Trace) :
    ((m.received f aw op r rs).fed aw.fd n).world.during aw.fd t = m.world.during aw.fd
      (t.after (aw.kind.request aw.b aw.cond (m.store.fds aw.fd) op.locals.doneSz)) := by
  have hrequests : ((m.received f aw op r rs).fed aw.fd n).requests = m.requests ++
      [aw.kind.request aw.b aw.cond (m.store.fds aw.fd) op.locals.doneSz] :=
    waiting_requests (f := f) hcond
  simp only [World.during, Machine.world, hrequests, Trace.after]
  simp [Machine.received, Machine.fed, hrs]

theorem Settles.round (hcond : op.locals.cond = aw.cond) {r : Response} {rs : List Response}
    (hrs : m.responses = r :: rs) {n : Nat} {t : Trace} {m' : Machine φ Q υ}
    (h : Settles f aw k t ((m.received f aw op r rs).fed aw.fd n) m') :
    Settles f aw k
      (t.after (aw.kind.request aw.b aw.cond (m.store.fds aw.fd) op.locals.doneSz)) m m' := by
  have he : Extends f m ((m.received f aw op r rs).fed aw.fd n) :=
    ⟨fun _ _ _ => rfl, rfl, Nat.le_refl _, rfl⟩
  cases hret : t.ret with
  | some ret =>
    rw [settles_some hret, during_fed hcond hrs] at h
    exact (settles_some (t := t.after _) hret).mpr (h.of_extends he)
  | none =>
    rw [settles_none hret, during_fed hcond hrs] at h
    exact (settles_none (t := t.after _) hret).mpr (h.of_future he.future)

/-- From an activation on the coroutine flavour does what the loop does. -/
theorem activation_leads (op : IoOp Nat) (hsus : (m.frames f).suspension = some (.onOp aw k))
    (hcb : op.cb = some f) (hcond : op.locals.cond = aw.cond) :
    Leads (Machine.step next) 0
      (m.apply f aw.fd (AsyncIo.run aw.kind (m.store.fds aw.fd) aw.b op (.ok 0)))
      (Settles f aw k (aw.kind.loop aw.b aw.cond (m.store.fds aw.fd) m.store.mem
        op.locals.doneSz m.responses) m) := by
  induction hrs : m.responses generalizing m op with
  | nil =>
    by_cases h : op.locals.cond (bufferSize aw.b) op.locals.doneSz = 0
    · rw [loop_done (hcond ▸ h)]
      exact .here (activation_done hsus hcb h)
    · rw [loop_blocked (hcond ▸ h)]
      refine (activation_submitted h).imp ?_
      rintro m' rfl
      refine ⟨⟨rfl, rfl, .inr hrs⟩, by simp [Machine.waiting], rfl, ?_, ?_, ?_⟩
      · simp [Machine.waiting, World.during, Machine.world]
      · simp [Machine.waiting, World.during, Machine.world, hrs]
      · exact waiting_requests hcond
  | cons r rs ih =>
    by_cases h : op.locals.cond (bufferSize aw.b) op.locals.doneSz = 0
    · rw [loop_done (hcond ▸ h)]
      exact .here (activation_done hsus hcb h)
    · refine (activation_submitted h).trans (k := 0) ?_
      rintro m' rfl
      refine .after (waiting_step hsus hrs) ?_
      have hcb' : (op.submitted aw.kind (m.store.fds aw.fd) aw.b).cb = some f := hcb
      cases r with
      | failed errno pos =>
        rw [goOn_failed, loop_failed (hcond ▸ h), hcb']
        have hagrees := agrees_received (f := f) hcond hrs (some (.error (asEc errno)))
          (by cases aw.kind <;> rfl)
        exact .here ((apply_complete (m := m.received f aw op _ rs) hsus _ _ hagrees).of_extends
          (extends_received _ _))
      | transferred bytes =>
        by_cases heof : aw.kind = .read ∧ bytes.length = 0
        · rw [goOn_eof heof, loop_eof (hcond ▸ h) heof, hcb']
          have hagrees := agrees_received (f := f) hcond hrs (some (.ok op.locals.doneSz))
            (by simp [deliver, heof.1, List.eq_nil_of_length_eq_zero heof.2])
          exact .here ((apply_complete (m := m.received f aw op _ rs) hsus _ _ hagrees).of_extends
            (extends_received _ _))
        · rw [goOn_transferred heof, loop_transferred (hcond ▸ h) heof]
          have hiov : (op.request aw.kind (m.store.fds aw.fd) aw.b).iov =
              (aw.kind.request aw.b aw.cond (m.store.fds aw.fd) op.locals.doneSz).iov := by
            simp [IoOp.request, IoOperation.request, hcond]
          have hround := ih (m := (m.received f aw op (.transferred bytes) rs).fed aw.fd
            bytes.length) ((op.submitted aw.kind (m.store.fds aw.fd) aw.b).advance
            bytes.length) hsus hcb' hcond rfl
          rw [← apply_run_fed] at hround
          refine hround.imp fun m' hm' => Settles.round hcond hrs (n := bytes.length) ?_
          rw [← hiov]
          simpa [Machine.fed, Machine.received, Machine.waiting, IoOp.advance,
            IoOp.submitted] using hm'

end Activation

section Bodies

variable {f : Nat}

omit [DecidableEq φ] in
theorem Agrees.eq {m : Machine φ Q υ} {w : World φ} (h : Agrees m w) : m.world = w := by
  cases w
  simp [Machine.world, h.store, h.responses, h.requests]

/-- The machine has come as far as the blocking flavour with its fuel: to where the
body in `f` returns the value, to where it waits, or on its way. -/
def Follows (f : Nat) (m : Machine φ Q υ) (r : World φ × Outcome υ) (m' : Machine φ Q υ) : Prop :=
  Agrees m' r.1 ∧
    match r.2 with
    | .returned v => m'.control = .finalSuspend f ∧ (m'.frames f).promise.value = some v ∧
        m'.outstanding = none ∧ Extends f m m'
    | .blocked => m'.Idle ∧ m'.outstanding ≠ none ∧ m'.future = m.future
    | .running => m'.control ≠ .fault ∧ ¬m'.Idle ∧ m'.future = m.future

/-- A run that is cut off has taken as many steps as there was fuel. -/
def Outcome.steps (n : Nat) : Outcome υ → Nat
  | .running => n
  | _ => 0

omit [DecidableEq φ] in
theorem Follows.of_extends {m m' m'' : Machine φ Q υ} {r : World φ × Outcome υ}
    (he : Extends f m m') (h : Follows f m' r m'') : Follows f m r m'' := by
  obtain ⟨w, o⟩ := r
  cases o with
  | returned v => exact ⟨h.1, h.2.1, h.2.2.1, h.2.2.2.1, he.trans h.2.2.2.2⟩
  | blocked => exact ⟨h.1, h.2.1, h.2.2.1, h.2.2.2.trans he.future⟩
  | running => exact ⟨h.1, h.2.1, h.2.2.1, h.2.2.2.trans he.future⟩

theorem Outcome.steps_succ_le (n : Nat) (o : Outcome υ) : o.steps (n + 1) ≤ o.steps n + 1 := by
  cases o <;> simp [Outcome.steps]

theorem leads_next {m b : Machine φ Q υ} {n : Nat} {r : World φ × Outcome υ}
    (hs : m.step next = b) (he : Extends f m b)
    (h : Leads (Machine.step next) (r.2.steps n) b (Follows f b r)) :
    Leads (Machine.step next) (r.2.steps (n + 1)) m (Follows f m r) := by
  exact ((Leads.next hs h).weaken (r.2.steps_succ_le n)).imp fun _ => Follows.of_extends he

/-- The result of an operation is there. -/
theorem resume_completed {aw : Awaitable φ} {k : Result Nat → Q} {w : World φ}
    {ret : Result Nat} {m m' : Machine φ Q υ} (h : Completes f aw k w ret m m') :
    m'.step next = { m'.suspend f none with control := .body f (k (inSystem ret)) } := by
  simp [Machine.step, h.control, Machine.resume, h.suspension]

/-- An operation that is awaited. -/
theorem awaitOp_leads {m : Machine φ Q υ} (aw : Awaitable φ) (k : Result Nat → Q) :
    Leads (Machine.step next) 0 (m.awaitOp f aw k)
      (Settles f aw k (aw.kind.sync (m.store.fds aw.fd) aw.b aw.cond m.store.mem m.responses)
        m) := by
  let m₁ : Machine φ Q υ := { m.suspend f (some (.onOp aw k)) with native := f :: m.native }
  have he : Extends f m m₁ := extends_suspend (some (.onOp aw k)) rfl rfl rfl
  have hsus : (m₁.frames f).suspension = some (.onOp aw k) := by
    simp [m₁]
  rw [IoOperation.sync_eq_loop]
  refine (activation_leads ⟨some f, ⟨aw.cond, 0, []⟩⟩ hsus rfl rfl).imp fun m' hm' => ?_
  cases hret : (aw.kind.loop aw.b aw.cond (m.store.fds aw.fd) m.store.mem 0 m.responses).ret with
  | some ret => exact (settles_some hret).mpr (((settles_some hret).mp hm').of_extends he)
  | none => exact (settles_none hret).mpr (((settles_none hret).mp hm').of_future he.future)

/-- With this much fuel a body that runs in a frame follows the blocking flavour. -/
def Simulates (next : Program φ Q υ) (n : Nat) : Prop :=
  ∀ (q : Q) (m : Machine φ Q υ) (f : Nat), m.control = .body f q → f < m.nextFrame →
    m.outstanding = none →
    Leads (Machine.step next) ((blocking (recast next) n q m.world).2.steps n) m
      (Follows f m (blocking (recast next) n q m.world))

section Tasks

variable {m : Machine φ Q υ} {f g : Nat} {k : Receiver Q υ}

/-- The task that is awaited starts at once. -/
theorem task_starts {q : Q} (k : Receiver Q υ) (hne : f ≠ g)
    (hq : (m.frames g).suspension = some (.initial q)) :
    (m.awaitTask f g k).step next =
      { (m.awaitTask f g k).suspend g none with control := .body g q } := by
  simp [Machine.step, Machine.resume, Ne.symm hne, hq]

/-- A task that is done resumes the coroutine that awaits it, which takes the value. -/
theorem task_returns {v : υ} (hcontrol : m.control = .finalSuspend g)
    (hlink : (m.frames g).promise.continuation = some f)
    (hsus : (m.frames f).suspension = some (.onTask g k))
    (hvalue : (m.frames g).promise.value = some v) :
    (m.step next).step next =
      match k with
      | .body k => { m.suspend f none with control := .body f (k v) }
      | .setValue =>
        { m.suspend f none with future := m.future ++ [v], control := .toCaller } := by
  cases k with
  | body k => simp [Machine.step, hcontrol, hlink, Machine.resume, hsus, hvalue]
  | setValue => simp [Machine.step, hcontrol, hlink, Machine.resume, hsus, hvalue]

end Tasks

section Commands

theorem blocking_io {n : Nat} {q : Q} {w : World φ} {store : Store φ} {kind : IoOperation} {fd : φ}
    {b : List ConstBuffer} {cond : CompletionCondition} {k : Result Nat → Q}
    (hcmd : next q w.store = (store, .io kind fd b cond k)) {t : Trace}
    (ht : kind.sync (store.fds fd) b cond store.mem w.responses = t) :
    blocking (recast next) (n + 1) q w =
      match t.ret with
      | some ret => blocking (recast next) n (k (inSystem ret))
          (({ w with store := store } : World φ).during fd t)
      | none => (({ w with store := store } : World φ).during fd t, .blocked) := by
  subst ht
  simp only [blocking, recast, hcmd, World.sync, World.during]
  cases (kind.sync (store.fds fd) b cond store.mem w.responses).ret <;> rfl

theorem blocking_call {n : Nat} {q : Q} {w : World φ} {store : Store φ} {q' : Q} {k : υ → Q}
    (hcmd : next q w.store = (store, .call q' k)) :
    blocking (recast next) (n + 1) q w =
      match blocking (recast next) n q' { w with store := store } with
      | (w, .returned v) => blocking (recast next) n (k v) w
      | (w, o) => (w, o) := by
  obtain ⟨⟨w', o⟩, hr⟩ : ∃ r, blocking (recast next) n q' { w with store := store } = r := ⟨_, rfl⟩
  cases o <;> simp [blocking, recast, hcmd, hr]

variable {n : Nat} {q : Q} {m : Machine φ Q υ} {store : Store φ}

theorem compute_simulates (ih : Simulates next n) (hm : m.control = .body f q)
    (hf : f < m.nextFrame) (hout : m.outstanding = none) {q' : Q}
    (hcmd : next q m.store = (store, .compute q')) :
    Leads (Machine.step next) ((blocking (recast next) (n + 1) q m.world).2.steps (n + 1)) m
      (Follows f m (blocking (recast next) (n + 1) q m.world)) := by
  have hblocking : blocking (recast next) (n + 1) q m.world =
      blocking (recast next) n q' { m.world with store := store } := by
    simp [blocking, recast, Machine.world, hcmd]
  have hstep : m.step next = { m with store := store, control := .body f q' } := by
    simp [Machine.step, hm, hcmd]
  rw [hblocking]
  exact leads_next hstep ⟨fun _ _ _ => rfl, rfl, Nat.le_refl _, rfl⟩
    (ih q' { m with store := store, control := .body f q' } f rfl hf hout)

theorem ret_simulates (hm : m.control = .body f q) (hout : m.outstanding = none) {v : υ}
    (hcmd : next q m.store = (store, .ret v)) :
    Leads (Machine.step next) ((blocking (recast next) (n + 1) q m.world).2.steps (n + 1)) m
      (Follows f m (blocking (recast next) (n + 1) q m.world)) := by
  have hblocking : blocking (recast next) (n + 1) q m.world =
      ({ m.world with store := store }, .returned v) := by
    simp [blocking, recast, Machine.world, hcmd]
  have hstep : m.step next = { m.setFrame f { m.frames f with
      promise := (m.frames f).promise.returnValue v } with
        store := store, control := .finalSuspend f } := by
    simp [Machine.step, hm, hcmd]
  rw [hblocking]
  refine .after hstep (.here ⟨⟨rfl, rfl, rfl⟩, rfl, ?_, hout, ?_⟩)
  · simp [Promise.returnValue]
  · refine ⟨fun g _ hne => ?_, ?_, Nat.le_refl _, rfl⟩
    · simp [hne]
    · simp [Promise.returnValue, Promise.clear]

theorem io_simulates (ih : Simulates next n) (hm : m.control = .body f q)
    (hf : f < m.nextFrame) {kind : IoOperation} {fd : φ} {b : List ConstBuffer}
    {cond : CompletionCondition} {k : Result Nat → Q}
    (hcmd : next q m.store = (store, .io kind fd b cond k)) :
    Leads (Machine.step next) ((blocking (recast next) (n + 1) q m.world).2.steps (n + 1)) m
      (Follows f m (blocking (recast next) (n + 1) q m.world)) := by
  let m₀ : Machine φ Q υ := { m with store := store }
  let aw : Awaitable φ := ⟨kind, fd, b, cond, none⟩
  obtain ⟨t, ht⟩ : ∃ t, kind.sync (store.fds fd) b cond store.mem m.responses = t := ⟨_, rfl⟩
  have hstep : m.step next = m₀.awaitOp f aw k := by simp [Machine.step, hm, hcmd, m₀, aw]
  have hlead : Leads (Machine.step next) 0 (m₀.awaitOp f aw k) (Settles f aw k t m₀) :=
    ht ▸ awaitOp_leads aw k
  rw [blocking_io (w := m.world) hcmd ht]
  cases hret : t.ret with
  | none =>
    refine .after hstep (hlead.imp fun m' hm' => ?_)
    have hblocks := (settles_none hret).mp hm'
    exact ⟨hblocks.agrees, hblocks.idle, hblocks.outstanding, hblocks.future⟩
  | some ret =>
    refine ((Leads.next hstep hlead).trans fun m₁ hm₁ => ?_).weaken
      (Nat.le_trans (Outcome.steps_succ_le n _) (Nat.le_of_eq (Nat.add_comm _ _)))
    have hdone := (settles_some hret).mp hm₁
    let m₂ : Machine φ Q υ := { m₁.suspend f none with control := .body f (k (inSystem ret)) }
    have hworld : m₂.world = m₀.world.during fd t := hdone.agrees.eq
    have he₀ : Extends f m m₀ := ⟨fun _ _ _ => rfl, rfl, Nat.le_refl _, rfl⟩
    have he : Extends f m m₂ := he₀.trans (hdone.extends_.trans (extends_suspend none rfl rfl rfl))
    have hih := ih _ m₂ f rfl (Nat.lt_of_lt_of_le hf hdone.extends_.nextFrame) hdone.outstanding
    rw [hworld] at hih
    exact .after (resume_completed hdone) (hih.imp fun _ => Follows.of_extends he)

theorem call_simulates (ih : Simulates next n) (hm : m.control = .body f q)
    (hf : f < m.nextFrame) (hout : m.outstanding = none) {q' : Q} {k : υ → Q}
    (hcmd : next q m.store = (store, .call q' k)) :
    Leads (Machine.step next) ((blocking (recast next) (n + 1) q m.world).2.steps (n + 1)) m
      (Follows f m (blocking (recast next) (n + 1) q m.world)) := by
  have hne : m.nextFrame ≠ f := Nat.ne_of_gt hf
  let m₁ : Machine φ Q υ :=
    ({ m with store := store }.makeTask q').awaitTask f m.nextFrame (.body k)
  let m₂ : Machine φ Q υ :=
    { m₁.suspend m.nextFrame none with control := .body m.nextFrame q' }
  have hstep : m.step next = m₁ := by simp [Machine.step, hm, hcmd, m₁]
  have hstep' : m₁.step next = m₂ := task_starts _ (Ne.symm hne) (by simp)
  have hlink : (m₂.frames m.nextFrame).promise.continuation = some f := by
    simp [m₂, m₁]
  have hsus : (m₂.frames f).suspension = some (.onTask m.nextFrame (.body k)) := by
    simp [m₂, m₁, Ne.symm hne]
  have he : Extends f m m₂ := by
    refine ⟨fun g hg hgf => ?_, ?_, Nat.le_succ _, rfl⟩
    · simp [m₂, m₁, Nat.ne_of_lt hg, hgf]
    · simp [m₂, m₁, Ne.symm hne]
  have hlead := ih q' m₂ m.nextFrame rfl (Nat.lt_succ_self _) hout
  have hworld : m₂.world = { m.world with store := store } := rfl
  rw [hworld] at hlead
  rw [blocking_call (w := m.world) hcmd]
  obtain ⟨⟨w, o⟩, hr⟩ : ∃ r, blocking (recast next) n q' { m.world with store := store } = r :=
    ⟨_, rfl⟩
  rw [hr] at hlead ⊢
  cases o with
  | returned v =>
    have hsteps := Outcome.steps_succ_le n (blocking (recast next) n (k v) w).2
    refine (((Leads.next hstep (.after hstep' hlead)).trans fun m₃ hm₃ => ?_).weaken
      (Nat.le_trans hsteps (Nat.le_of_eq (Nat.add_comm _ _))))
    obtain ⟨hagrees, hcontrol, hvalue, hout₃, he₃⟩ := hm₃
    let m₄ : Machine φ Q υ := { m₃.suspend f none with control := .body f (k v) }
    have hf₂ : f < m₂.nextFrame := Nat.lt_succ_of_lt hf
    have hsus₃ := (congrArg Frame.suspension (he₃.frames f hf₂ (Ne.symm hne))).trans hsus
    have hstep₃ : (m₃.step next).step next = m₄ :=
      task_returns hcontrol (he₃.link.trans hlink) hsus₃ hvalue
    have he₄ : Extends f m m₄ :=
      (he.callee (Nat.le_refl _) hf hf₂ he₃).trans (extends_suspend none rfl rfl rfl)
    have hih := ih (k v) m₄ f rfl (Nat.lt_of_lt_of_le hf₂ he₃.nextFrame) hout₃
    have hworld₄ : m₄.world = w := hagrees.eq
    rw [hworld₄] at hih
    exact .after rfl (.after hstep₃ (hih.imp fun _ => Follows.of_extends he₄))
  | blocked =>
    refine .after hstep (.after hstep' (hlead.imp fun m' hm' => ?_))
    exact ⟨hm'.1, hm'.2.1, hm'.2.2.1, hm'.2.2.2.trans he.future⟩
  | running =>
    refine (Leads.next hstep (.after hstep' hlead)).imp fun m' hm' => ?_
    exact ⟨hm'.1, hm'.2.1, hm'.2.2.1, hm'.2.2.2.trans he.future⟩

end Commands

theorem body_simulates (next : Program φ Q υ) (n : Nat) : Simulates next n := by
  induction n with
  | zero =>
    intro q m f hm hf hout
    refine .here ⟨⟨rfl, rfl, rfl⟩, by simp [hm], ?_, rfl⟩
    simp [Machine.Idle, hm]
  | succ n ih =>
    intro q m f hm hf hout
    obtain ⟨store, cmd, hcmd⟩ : ∃ store cmd, next q m.store = (store, cmd) := ⟨_, _, rfl⟩
    cases cmd with
    | compute q' => exact compute_simulates ih hm hf hout hcmd
    | io kind fd b cond k => exact io_simulates ih hm hf hcmd
    | call q' k => exact call_simulates ih hm hf hout hcmd
    | ret v => exact ret_simulates hm hout hcmd

end Bodies

end Refinement

end Coro
