import Arkio.SyncIo

/-!
# The asynchronous reads and writes

`async_op` and `async_io_impl`. An operation owns its callback and its locals
and moves itself into the closure of every submission, so what is left behind
in `run` has an empty callback. The descriptor and the buffer sequence are held
by reference: they are read anew at every activation.

`Progress` runs one operation alone. Each turn says what the caller has put into
the sequence object by then, how the kernel answers the outstanding request and
what `add_sqe` answers to the next one. The operation refines `sync::read` and
`sync::write` as long as the sequence object keeps its value and every
submission succeeds.
-/
namespace AsyncIo

open Bindings Buffer SyncIo

variable {κ : Type}

/-- `locals_t`, without the references `f_` and `b_`. -/
structure Locals where
  cond : CompletionCondition
  doneSz : Nat
  iov : List Iovec

/-- A read or write under way. -/
abbrev IoOp (κ : Type) := AsyncOp κ Locals

/-- What one activation of an operation does: the submission it attempts and its
answer, the closure that `add_sqe` keeps, and the calls of the callback. -/
structure Turn (κ : Type) where
  fd : Fd
  attempt : Option (Request × Result Nat)
  closure : Option (IoOp κ)
  effects : List (Effect κ Nat)

/-- `async_io_impl::run`. The SQE always takes an offset, 0 for a descriptor
that has none. -/
def run (kind : IoOperation) (f : Fd) (b : List ConstBuffer) (op : IoOp κ)
    (answer : Result Nat) : Turn κ :=
  let toTransferMax := op.locals.cond (bufferSize b) op.locals.doneSz
  if toTransferMax = 0 then ⟨f, none, none, op.complete (.ok op.locals.doneSz)⟩
  else
    let iov := transformToIovecs b op.locals.doneSz toTransferMax
    let req : Request := ⟨kind, f.fildes, iov, some (f.offset.getD 0)⟩
    let (moved, left) := AsyncOp.yield { op with locals := { op.locals with iov := iov } }
    match answer with
    | .ok _ => ⟨f, some (req, answer), some moved, []⟩
    | .error e => ⟨f, some (req, answer), none, invoke left (.error e)⟩

/-- `async_io_impl::go_on`. -/
def goOn (kind : IoOperation) (f : Fd) (b : List ConstBuffer) (op : IoOp κ)
    (ret : Result Int) (answer : Result Nat) : Turn κ :=
  match ret with
  | .error e => ⟨f, none, none, op.complete (.error e)⟩
  | .ok v =>
    let retSz := v.toNat
    if kind = .read ∧ retSz = 0 then ⟨f, none, none, op.complete (.ok op.locals.doneSz)⟩
    else
      let doneSz := (op.locals.doneSz + retSz) % sizeMod
      run kind (f.feed retSz) b { op with locals := { op.locals with doneSz := doneSz } } answer

/-- One operation alone with the kernel, up to some point. -/
structure Progress (κ : Type) where
  fd : Fd
  mem : Memory
  attempts : List (Request × Result Nat)
  effects : List (Effect κ Nat)
  waiting : Option (Request × IoOp κ)

/-- The activation is over. -/
def Progress.apply (p : Progress κ) (turn : Turn κ) : Progress κ where
  fd := turn.fd
  mem := p.mem
  attempts := p.attempts ++ turn.attempt.toList
  effects := p.effects ++ turn.effects
  waiting := turn.attempt.bind fun a => turn.closure.map (a.1, ·)

/-- `async::read` and `async::write` by their kind. -/
def start (kind : IoOperation) (f : Fd) (b : List ConstBuffer) (cond : CompletionCondition)
    (cb : κ) (mem : Memory) (answer : Result Nat) : Progress κ :=
  Progress.apply ⟨f, mem, [], [], none⟩ (run kind f b ⟨some cb, ⟨cond, 0, []⟩⟩ answer)

/-- What meets the operation when its outstanding request completes. -/
structure Resume where
  cell : List ConstBuffer
  response : Response
  answer : Result Nat

def Progress.resume (kind : IoOperation) (p : Progress κ) (r : Resume) : Progress κ :=
  match p.waiting with
  | none => p
  | some (req, op) =>
    Progress.apply { p with mem := deliver kind req.iov r.response p.mem }
      (goOn kind p.fd r.cell op (toResult r.response.res) r.answer)

/-- The completions of an operation, one after the other. -/
def drive (kind : IoOperation) (p : Progress κ) (turns : List Resume) : Progress κ :=
  turns.foldl (Progress.resume kind) p

/-- The requests the kernel got. -/
def Progress.requests (p : Progress κ) : List Request :=
  p.attempts.filterMap fun a => match a with | (req, .ok _) => some req | _ => none

@[simp] theorem drive_nil (kind : IoOperation) (p : Progress κ) : drive kind p [] = p := rfl

@[simp] theorem drive_cons (kind : IoOperation) (p : Progress κ) (r : Resume)
    (turns : List Resume) : drive kind p (r :: turns) = drive kind (p.resume kind r) turns := rfl

/-- An operation with nothing outstanding is over. -/
theorem drive_idle (kind : IoOperation) {p : Progress κ} (hp : p.waiting = none)
    (turns : List Resume) : drive kind p turns = p := by
  induction turns with
  | nil => rfl
  | cons r turns ih =>
    have hr : p.resume kind r = p := by simp [Progress.resume, hp]
    rw [drive_cons, hr, ih]

section Activations

variable {kind : IoOperation} {f : Fd} {b : List ConstBuffer} {op : IoOp κ}
  {answer : Result Nat}

/-- The SQE of an activation. -/
def IoOp.request (kind : IoOperation) (f : Fd) (b : List ConstBuffer) (op : IoOp κ) :
    Request :=
  ⟨kind, f.fildes,
    transformToIovecs b op.locals.doneSz (op.locals.cond (bufferSize b) op.locals.doneSz),
    some (f.offset.getD 0)⟩

/-- The operation as its closure holds it: the iovecs of the request are its own. -/
def IoOp.submitted (kind : IoOperation) (f : Fd) (b : List ConstBuffer) (op : IoOp κ) :
    IoOp κ :=
  { op with locals := { op.locals with iov := (op.request kind f b).iov } }

theorem run_done (h : op.locals.cond (bufferSize b) op.locals.doneSz = 0) :
    run kind f b op answer = ⟨f, none, none, invoke op.cb (.ok op.locals.doneSz)⟩ := by
  simp [run, h, AsyncOp.complete]

theorem run_submitted (h : op.locals.cond (bufferSize b) op.locals.doneSz ≠ 0) (tok : Nat) :
    run kind f b op (.ok tok) =
      ⟨f, some (op.request kind f b, .ok tok), some (op.submitted kind f b), []⟩ := by
  simp [run, h, AsyncOp.yield, IoOp.request, IoOp.submitted]

theorem run_rejected (h : op.locals.cond (bufferSize b) op.locals.doneSz ≠ 0) (e : ErrorCode) :
    run kind f b op (.error e) =
      ⟨f, some (op.request kind f b, .error e), none, [.emptyCall]⟩ := by
  simp [run, h, AsyncOp.yield, IoOp.request, invoke]

theorem goOn_failed (errno : Nat) (pos : 0 < errno) :
    goOn kind f b op (toResult (Response.failed errno pos).res) answer =
      ⟨f, none, none, invoke op.cb (.error ⟨errno, .system⟩)⟩ := by
  rw [toResult_neg (by simp only [Response.res]; omega)]
  simp [goOn, Response.res, AsyncOp.complete]

theorem goOn_eof {bytes : List UInt8} (heof : kind = .read ∧ bytes.length = 0) :
    goOn kind f b op (toResult (Response.transferred bytes).res) answer =
      ⟨f, none, none, invoke op.cb (.ok op.locals.doneSz)⟩ := by
  rw [toResult_nonneg (by simp [Response.res])]
  simp [goOn, Response.res, heof, AsyncOp.complete]

/-- The operation after `n` more bytes. -/
def IoOp.advance (op : IoOp κ) (n : Nat) : IoOp κ :=
  { op with locals := { op.locals with doneSz := (op.locals.doneSz + n) % sizeMod } }

theorem goOn_transferred {bytes : List UInt8} (hmore : ¬(kind = .read ∧ bytes.length = 0)) :
    goOn kind f b op (toResult (Response.transferred bytes).res) answer =
      run kind (f.feed bytes.length) b (op.advance bytes.length) answer := by
  rw [toResult_nonneg (by simp [Response.res])]
  simp only [goOn, Response.res, Int.toNat_natCast, IoOp.advance]
  exact if_neg hmore

end Activations

/-- What an observer compares of an effect: the callback and its value, or the
errno of its error. `none` is an effect that is no call of the user's function. -/
def verdict : Effect κ Nat → Option (κ × Except Int Nat)
  | .call cb ret => some (cb, ret.mapError ErrorCode.value)
  | .emptyCall => none
  | .errorValue => none

/-- The request as the kernel takes it: the offset of a descriptor that is not
seekable is ignored. -/
def view (f : Fd) (r : Request) : Request :=
  if f.offset.isSome then r else { r with offset := none }

/-- The asynchronous operation did, on top of `p`, what the blocking one did. -/
structure Refines (f : Fd) (cb : κ) (p a : Progress κ) (s : Trace) : Prop where
  requests : a.requests.map (view f) = p.requests.map (view f) ++ s.requests
  effects : a.effects.map verdict = p.effects.map verdict ++
    s.ret.toList.map fun ret => some (cb, ret.mapError ErrorCode.value)
  mem : a.mem = s.mem
  fd : a.fd = s.fd

theorem view_request {f f' : Fd} (hf : f'.offset.isSome = f.offset.isSome) (kind : IoOperation)
    (b : List ConstBuffer) (op : IoOp κ) :
    view f (op.request kind f' b) = kind.request b op.locals.cond f' op.locals.doneSz := by
  cases ho : f'.offset with
  | none => simp [view, ← hf, ho, IoOp.request, IoOperation.request]
  | some o => simp [view, ← hf, ho, IoOp.request, IoOperation.request]

theorem isSome_feed (f : Fd) (n : Nat) : (f.feed n).offset.isSome = f.offset.isSome := by
  simp [Fd.feed]

/-- An activation that finds its condition met completes at once. -/
theorem refines_done {kind : IoOperation} {b : List ConstBuffer} {f f' : Fd} {cb : κ}
    {op : IoOp κ} (h : op.locals.cond (bufferSize b) op.locals.doneSz = 0)
    (hcb : op.cb = some cb) (p : Progress κ) (answer : Result Nat) (turns : List Resume) :
    Refines f cb p (drive kind (p.apply (run kind f' b op answer)) turns)
      (kind.loop b op.locals.cond f' p.mem op.locals.doneSz (turns.map Resume.response)) := by
  rw [run_done h, drive_idle kind (by rfl), loop_done h, hcb]
  exact ⟨by simp [Progress.apply, Progress.requests], by simp [Progress.apply, invoke, verdict],
    rfl, rfl⟩

/-- The state between a successful submission and its completion. -/
theorem resume_submitted {kind : IoOperation} {b : List ConstBuffer} {f : Fd} {op : IoOp κ}
    (h : op.locals.cond (bufferSize b) op.locals.doneSz ≠ 0) (p : Progress κ) (tok : Nat)
    (r : Resume) :
    (p.apply (run kind f b op (.ok tok))).resume kind r =
      Progress.apply ⟨f, deliver kind (op.request kind f b).iov r.response p.mem,
        p.attempts ++ [(op.request kind f b, .ok tok)], p.effects, none⟩
      (goOn kind f r.cell (op.submitted kind f b) (toResult r.response.res) r.answer) := by
  simp [run_submitted h, Progress.resume, Progress.apply]

/-- A submission was rejected. Up to there the operation made the requests of the
blocking one with the responses `rs`, and it does not call its callback. -/
structure Rejected (f : Fd) (p a : Progress κ) (s : Trace) (rs responses : List Response)
    (made : List Request) : Prop where
  requests : a.requests.map (view f) = p.requests.map (view f) ++ made
  front : made <+: s.requests
  exchanges : made.zip responses = s.requests.zip rs
  silent : calls a.effects = calls p.effects

/-- The state after a completion that transferred something, before the next
activation. -/
def Progress.received (p : Progress κ) (kind : IoOperation) (f : Fd) (b : List ConstBuffer)
    (op : IoOp κ) (tok : Nat) (bytes : List UInt8) : Progress κ :=
  ⟨f, deliver kind (op.request kind f b).iov (.transferred bytes) p.mem,
    p.attempts ++ [(op.request kind f b, .ok tok)], p.effects, none⟩

@[simp] theorem received_requests (p : Progress κ) (kind : IoOperation) (f : Fd)
    (b : List ConstBuffer) (op : IoOp κ) (tok : Nat) (bytes : List UInt8) :
    (p.received kind f b op tok bytes).requests = p.requests ++ [op.request kind f b] := by
  simp [Progress.requests, Progress.received]

theorem Refines.after {kind : IoOperation} {b : List ConstBuffer} {f f' : Fd} {cb : κ}
    {p a : Progress κ} {s : Trace} {op : IoOp κ} {tok : Nat} {bytes : List UInt8}
    (hf : f'.offset.isSome = f.offset.isSome)
    (h : Refines f cb (p.received kind f' b op tok bytes) a s) :
    Refines f cb p a (s.after (kind.request b op.locals.cond f' op.locals.doneSz)) := by
  refine ⟨?_, h.effects, h.mem, h.fd⟩
  rw [h.requests, received_requests, List.map_append, List.map_singleton, view_request hf,
    List.append_assoc]
  rfl

theorem Rejected.after {kind : IoOperation} {b : List ConstBuffer} {f f' : Fd}
    {p a : Progress κ} {s : Trace} {op : IoOp κ} {tok : Nat} {bytes : List UInt8}
    {rs responses : List Response} {made : List Request}
    (hf : f'.offset.isSome = f.offset.isSome)
    (h : Rejected f (p.received kind f' b op tok bytes) a s rs responses made)
    (response : Response) :
    Rejected f p a (s.after (kind.request b op.locals.cond f' op.locals.doneSz))
      (response :: rs) (response :: responses)
      (kind.request b op.locals.cond f' op.locals.doneSz :: made) := by
  constructor
  · rw [h.requests, received_requests, List.map_append, List.map_singleton, view_request hf,
      List.append_assoc]
    rfl
  · exact List.cons_prefix_cons.mpr ⟨rfl, h.front⟩
  · rw [Trace.after, List.zip_cons_cons, List.zip_cons_cons, h.exchanges]
  · exact h.silent

/-- From any activation on, by induction on the completions that follow. -/
theorem drive_kept {kind : IoOperation} {b : List ConstBuffer} {f f' : Fd} {cb : κ}
    {turns : List Resume} (hkept : ∀ t ∈ turns, t.cell = b)
    (hf : f'.offset.isSome = f.offset.isSome) (p : Progress κ) (op : IoOp κ)
    (hcb : op.cb = some cb) (answer : Result Nat) :
    Refines f cb p (drive kind (p.apply (run kind f' b op answer)) turns)
        (kind.loop b op.locals.cond f' p.mem op.locals.doneSz (turns.map Resume.response)) ∨
      (∃ e, .error e ∈ answer :: turns.map Resume.answer) ∧
        ∃ rs made, Rejected f p (drive kind (p.apply (run kind f' b op answer)) turns)
          (kind.loop b op.locals.cond f' p.mem op.locals.doneSz rs) rs
          (turns.map Resume.response) made := by
  induction turns generalizing f' p op answer with
  | nil =>
    by_cases h : op.locals.cond (bufferSize b) op.locals.doneSz = 0
    · exact .inl (refines_done h hcb p answer [])
    · cases answer with
      | ok tok =>
        rw [run_submitted h, drive_nil, List.map_nil, loop_blocked h]
        exact .inl ⟨by simp [Progress.apply, Progress.requests, view_request hf],
          by simp [Progress.apply], rfl, rfl⟩
      | error e =>
        refine .inr ⟨⟨e, List.mem_cons_self⟩, [], [], ?_⟩
        rw [run_rejected h, drive_nil]
        exact ⟨by simp [Progress.apply, Progress.requests], List.nil_prefix, by simp,
          by simp [Progress.apply, calls]⟩
  | cons t turns ih =>
    by_cases h : op.locals.cond (bufferSize b) op.locals.doneSz = 0
    · exact .inl (refines_done h hcb p answer (t :: turns))
    · cases answer with
      | error e =>
        refine .inr ⟨⟨e, List.mem_cons_self⟩, [], [], ?_⟩
        rw [run_rejected h, drive_idle kind (by rfl)]
        exact ⟨by simp [Progress.apply, Progress.requests], List.nil_prefix, by simp,
          by simp [Progress.apply, calls]⟩
      | ok tok =>
        have hcell : t.cell = b := hkept t List.mem_cons_self
        have hrest : ∀ t ∈ turns, t.cell = b := fun t ht => hkept t (List.mem_cons_of_mem _ ht)
        rw [drive_cons, resume_submitted h, hcell, List.map_cons]
        cases t.response with
        | failed errno pos =>
          rw [goOn_failed, drive_idle kind (by rfl), loop_failed h]
          refine .inl ⟨?_, ?_, ?_, rfl⟩
          · simp [Progress.apply, Progress.requests, view_request hf]
          · simp [Progress.apply, IoOp.submitted, hcb, invoke, verdict, asEc, Except.mapError]
          · cases kind <;> rfl
        | transferred bytes =>
          by_cases heof : kind = .read ∧ bytes.length = 0
          · rw [goOn_eof heof, drive_idle kind (by rfl), loop_eof h heof]
            refine .inl ⟨?_, ?_, ?_, rfl⟩
            · simp [Progress.apply, Progress.requests, view_request hf]
            · simp [Progress.apply, IoOp.submitted, hcb, invoke, verdict]
            · obtain ⟨rfl, hlen⟩ := heof
              simp [Progress.apply, deliver, List.eq_nil_of_length_eq_zero hlen]
          · have hfeed : (f'.feed bytes.length).offset.isSome = f.offset.isSome := by
              rw [isSome_feed, hf]
            rw [goOn_transferred heof, loop_transferred h heof]
            obtain hi | ⟨⟨e, he⟩, rs, made, hi⟩ := ih hrest hfeed
              (p.received kind f' b op tok bytes)
              ((op.submitted kind f' b).advance bytes.length) hcb t.answer
            · exact .inl (hi.after hf)
            · refine .inr ⟨⟨e, List.mem_cons_of_mem _ he⟩, .transferred bytes :: rs,
                kind.request b op.locals.cond f' op.locals.doneSz :: made, ?_⟩
              rw [loop_transferred h heof]
              exact hi.after hf _

/-- Where no submission is rejected, the operation refines the blocking one. -/
theorem drive_run {kind : IoOperation} {b : List ConstBuffer} {f f' : Fd} {cb : κ}
    {turns : List Resume} (hturns : ∀ t ∈ turns, t.cell = b ∧ ∃ tok, t.answer = .ok tok)
    (hf : f'.offset.isSome = f.offset.isSome) (p : Progress κ) (op : IoOp κ)
    (hcb : op.cb = some cb) (tok : Nat) :
    Refines f cb p (drive kind (p.apply (run kind f' b op (.ok tok))) turns)
      (kind.loop b op.locals.cond f' p.mem op.locals.doneSz (turns.map Resume.response)) := by
  refine (drive_kept (fun t ht => (hturns t ht).1) hf p op hcb (.ok tok)).resolve_right ?_
  rintro ⟨⟨e, he⟩, -⟩
  obtain he | he := List.mem_cons.mp he
  · cases he
  · obtain ⟨t, ht, hanswer⟩ := List.mem_map.mp he
    obtain ⟨-, tok', hok⟩ := hturns t ht
    rw [hok] at hanswer
    cases hanswer

/-- An asynchronous operation whose submissions all succeed and whose buffer
sequence is left alone does what the blocking one does: the same requests, the
same memory and offset, and one call of the callback with the same value or
errno, at the completion at which the blocking one returns. -/
theorem async_refines_sync (kind : IoOperation) (f : Fd) (b : List ConstBuffer)
    (cond : CompletionCondition) (cb : κ) (mem : Memory) (tok : Nat) (turns : List Resume)
    (hturns : ∀ t ∈ turns, t.cell = b ∧ ∃ tok, t.answer = .ok tok) :
    let a := drive kind (start kind f b cond cb mem (.ok tok)) turns
    let s := kind.sync f b cond mem (turns.map Resume.response)
    a.requests.map (view f) = s.requests ∧
      a.effects.map verdict = (s.ret.toList.map fun ret =>
        some (cb, ret.mapError ErrorCode.value)) ∧
      a.mem = s.mem ∧ a.fd = s.fd := by
  have hr : Refines f cb ⟨f, mem, [], [], none⟩
      (drive kind (start kind f b cond cb mem (.ok tok)) turns)
      (kind.loop b cond f mem 0 (turns.map Resume.response)) :=
    drive_run hturns rfl _ ⟨some cb, ⟨cond, 0, []⟩⟩ rfl tok
  rw [IoOperation.sync_eq_loop]
  exact ⟨hr.requests, hr.effects, hr.mem, hr.fd⟩

/-- A read of five bytes into three buffers, one of them empty, in two short
transfers from offset 10. -/
theorem async_refines_sync_short_reads :
    let b : List ConstBuffer := [⟨100, 3, by decide⟩, ⟨150, 0, by decide⟩, ⟨200, 2, by decide⟩]
    let f : Fd := ⟨4, some 10⟩
    let turns : List Resume :=
      [⟨b, .transferred [1, 2], .ok 1⟩, ⟨b, .transferred [3, 4, 5], .ok 2⟩]
    let a := drive .read (start .read f b transferAll () (fun _ => 0) (.ok 0)) turns
    let s := IoOperation.read.sync f b transferAll (fun _ => 0) (turns.map Resume.response)
    s.ret = some (.ok 5) ∧ s.requests = [⟨.read, 4, [⟨100, 3⟩, ⟨200, 2⟩], some 10⟩,
        ⟨.read, 4, [⟨102, 1⟩, ⟨200, 2⟩], some 12⟩] ∧
      a.requests.map (view f) = s.requests ∧
      a.effects.map verdict = (s.ret.toList.map fun ret =>
        some ((), ret.mapError ErrorCode.value)) ∧
      a.mem = s.mem ∧ a.fd = s.fd := by
  intro b f turns a s
  refine ⟨rfl, rfl, async_refines_sync .read f b transferAll () (fun _ => 0) 0 turns ?_⟩
  intro t ht
  simp only [turns, List.mem_cons, List.not_mem_nil, or_false] at ht
  rcases ht with rfl | rfl
  · exact ⟨rfl, 1, rfl⟩
  · exact ⟨rfl, 2, rfl⟩

end AsyncIo
