import Arkio.AsyncIo
import Arkio.UringStages

/-!
# Operations that share a context

Any number of `async::read` and `async::write` operations on one context, over
distinct descriptors and disjoint buffers. The world is the context with its
threads, rings and callbacks, the descriptors, the memory and, for each
operation, the responses the kernel still has for it and the calls of its
callback. An operation is started by a thread, goes on in the loop when its
completion is dispatched, and otherwise lives in a closure of the context.

`Config.alone` is the operation with the kernel and nobody else. Whatever the
others do and in which order, every operation goes through the states of its
own `alone`.
-/
namespace Interleaving

open Bindings Buffer SyncIo AsyncIo UringContext LabelledMachine

/-- The operations and what each of them meets: `ι` are the operations, `φ` the
descriptor objects. -/
structure Config (ι φ : Type) where
  kind : ι → IoOperation
  file : ι → φ
  bufs : ι → List ConstBuffer
  cond : ι → CompletionCondition
  responses : ι → List Response
  fds : φ → Fd
  mem : Memory
  distinct : ∀ i j, file i = file j → i = j
  disjoint : ∀ i j, i ≠ j → ∀ b ∈ bufs i, ∀ b' ∈ bufs j, ∀ a, b.Covers a → ¬b'.Covers a

/-- What is kept of an operation outside the context. -/
structure Task (ι : Type) where
  started : Bool
  responses : List Response
  effects : List (Effect ι Nat)

structure World (θ ι φ : Type) where
  ctx : Tagged θ ι Request (IoOp ι)
  mem : Memory
  fds : φ → Fd
  task : ι → Task ι

/-- `start` calls `async::read` or `async::write` on a thread. `complete` and
`poll` are the kernel's: it answers an operation, or the waker's poll. The rest
are the steps of the context. -/
inductive Action (θ ι : Type) where
  | start (t : Thread θ) (i : ι)
  | complete (n : Nat)
  | poll (n : Nat) (res : Int)
  | loop (ans : Answer)
  | call (t : Thread θ) (ans : Answer)
  | finish (t : Thread θ)
  | wake (t : Thread θ) (ans : Answer)
  | exit (t : Thread θ) (err : Option ErrorCode)

section Machine

variable {θ ι φ : Type} [DecidableEq θ] [DecidableEq ι] [DecidableEq φ]

abbrev Outcome (θ ι φ : Type) :=
  Option (World θ ι φ × History (ι × Request) (ι × IoOp ι))

/-- A step of the context alone. -/
def World.lift (w : World θ ι φ)
    (a : UringContext.Action θ (ι × Request) (ι × IoOp ι)) : Outcome θ ι φ :=
  (UringContext.step w.ctx a).map fun r => ({ w with ctx := r.1 }, r.2)

omit [DecidableEq ι] [DecidableEq φ] in
theorem World.lift_eq_some {w w' : World θ ι φ} {e : History (ι × Request) (ι × IoOp ι)}
    {a : UringContext.Action θ (ι × Request) (ι × IoOp ι)} (hs : w.lift a = some (w', e)) :
    ∃ ctx, UringContext.step w.ctx a = some (ctx, e) ∧ w' = { w with ctx := ctx } := by
  simp only [World.lift, Option.map_eq_some_iff] at hs
  obtain ⟨⟨ctx, e'⟩, hs, heq⟩ := hs
  obtain ⟨rfl, rfl⟩ := Prod.mk.inj heq
  exact ⟨ctx, hs, rfl⟩

/-- What an activation leaves behind: the offset it fed and the calls it made. -/
def World.settle (C : Config ι φ) (w : World θ ι φ) (i : ι) (turn : Turn ι) : World θ ι φ :=
  { w with
    fds := Function.update w.fds (C.file i) turn.fd
    task := Function.update w.task i
      { w.task i with effects := (w.task i).effects ++ turn.effects } }

/-- An activation of an operation on a thread. If it submits, the thread is then
inside `add_sqe` with the request and the closure. -/
def World.activate (C : Config ι φ) (w : World θ ι φ) (t : Thread θ) (i : ι) (turn : Turn ι) :
    Outcome θ ι φ :=
  match turn.attempt, turn.closure with
  | some (req, _), some op =>
    (w.settle C i turn).lift (.enter t (.addSqe (i, req) (some (i, op))))
  | _, _ => some (w.settle C i turn, [])

/-- A thread that is free to call starts an operation. The submission is one
that succeeds; its token is ignored. -/
def World.start (C : Config ι φ) (w : World θ ι φ) (t : Thread θ) (i : ι) : Outcome θ ι φ :=
  if (w.ctx.call t).isIdle && w.ctx.mayCall t && !(w.task i).started then
    { w with task := Function.update w.task i { w.task i with started := true } }.activate C t i
      (run (C.kind i) (w.fds (C.file i)) (C.bufs i) ⟨some i, ⟨C.cond i, 0, []⟩⟩ (.ok 0))
  else none

/-- The kernel completes a request of an operation with the next response it has
for that operation. -/
def World.complete (w : World θ ι φ) (n : Nat) : Outcome θ ι φ :=
  match w.ctx.inflight[n]? with
  | some ⟨.user (i, req), _⟩ =>
    match (w.task i).responses with
    | [] => none
    | r :: rs =>
      { w with
        mem := deliver req.op req.iov r w.mem
        task := Function.update w.task i { w.task i with responses := rs } }.lift (.post n r.res)
  | _ => none

/-- The next step of the loop thread. Invoking an operation's closure runs its
`go_on`. -/
def World.loop (C : Config ι φ) (w : World θ ι φ) (ans : Answer) : Outcome θ ι φ :=
  match w.ctx.loop with
  | .dispatch (⟨_, .user (i, op), ret⟩ :: _) =>
    match w.lift (.loop ans) with
    | some (w', e) =>
      (w'.activate C .loop i
        (goOn (C.kind i) (w.fds (C.file i)) (C.bufs i) op ret (.ok 0))).map fun r =>
          (r.1, e ++ r.2)
    | none => none
  | _ => w.lift (.loop ans)

def step (C : Config ι φ) (w : World θ ι φ) : Action θ ι → Outcome θ ι φ
  | .start t i => w.start C t i
  | .complete n => w.complete n
  | .poll n res =>
    match w.ctx.inflight[n]? with
    | some ⟨.pollWaker, _⟩ => w.lift (.post n res)
    | _ => none
  | .loop ans => w.loop C ans
  | .call t ans => w.lift (.call t ans)
  | .finish t => w.lift (.finish t)
  | .wake t ans => w.lift (.enter t (.wake ans))
  | .exit t err => w.lift (.enter t (.exit err))

/-- The context is being initialised, and no operation was started. -/
def start (C : Config ι φ) : World θ ι φ where
  ctx := UringContext.start
  mem := C.mem
  fds := C.fds
  task := fun i => ⟨false, C.responses i, []⟩

/-- Every submission of an operation succeeds: there is room for its SQE, and the
eventfd is written. -/
def Submits (w : World θ ι φ) : Action θ ι → Prop
  | .call t ans => (w.ctx.call t).Succeeds w.ctx.sq.length ans
  | _ => True

end Machine

section Alone

variable {ι φ : Type}

/-- The address lies in a buffer of the operation. -/
def Config.Owns (C : Config ι φ) (i : ι) (a : Nat) : Prop := ∃ b ∈ C.bufs i, b.Covers a

theorem Config.owns_unique {C : Config ι φ} {i j : ι} {a : Nat} (hi : C.Owns i a)
    (hj : C.Owns j a) : i = j := by
  obtain ⟨b, hb, hba⟩ := hi
  obtain ⟨b', hb', hba'⟩ := hj
  by_contra hne
  exact C.disjoint i j hne b hb b' hb' a hba hba'

/-- The operation run alone, until it has reacted to `n` responses. -/
def Config.alone (C : Config ι φ) (i : ι) (n : Nat) : Progress ι :=
  drive (C.kind i)
    (AsyncIo.start (C.kind i) (C.fds (C.file i)) (C.bufs i) (C.cond i) i C.mem (.ok 0))
    (((C.responses i).take n).map fun r => ⟨C.bufs i, r, .ok 0⟩)

theorem alone_zero (C : Config ι φ) (i : ι) :
    C.alone i 0 = Progress.apply ⟨C.fds (C.file i), C.mem, [], [], none⟩
      (run (C.kind i) (C.fds (C.file i)) (C.bufs i) ⟨some i, ⟨C.cond i, 0, []⟩⟩ (.ok 0)) := rfl

theorem alone_succ {C : Config ι φ} {i : ι} {n : Nat} {r : Response}
    (hr : (C.responses i)[n]? = some r) :
    C.alone i (n + 1) = (C.alone i n).resume (C.kind i) ⟨C.bufs i, r, .ok 0⟩ := by
  simp [Config.alone, drive, List.take_add_one, hr]

/-- The next response meets the closure that waits. -/
theorem alone_resumed {C : Config ι φ} {i : ι} {n : Nat} {r : Response} {req : Request}
    {op : IoOp ι} (hwait : (C.alone i n).waiting = some (req, op))
    (hr : (C.responses i)[n]? = some r) :
    C.alone i (n + 1) = Progress.apply
      { C.alone i n with mem := deliver (C.kind i) req.iov r (C.alone i n).mem }
      (goOn (C.kind i) (C.alone i n).fd (C.bufs i) op (toResult r.res) (.ok 0)) := by
  rw [alone_succ hr]
  simp [Progress.resume, hwait]

theorem alone_resumed_mem {C : Config ι φ} {i : ι} {n : Nat} {r : Response} {req : Request}
    {op : IoOp ι} (hwait : (C.alone i n).waiting = some (req, op))
    (hr : (C.responses i)[n]? = some r) :
    (C.alone i (n + 1)).mem = deliver (C.kind i) req.iov r (C.alone i n).mem := by
  rw [alone_resumed hwait hr]
  rfl

theorem alone_exhausted {C : Config ι φ} {i : ι} {n : Nat} (hn : (C.responses i)[n]? = none) :
    C.alone i (n + 1) = C.alone i n := by
  simp [Config.alone, List.take_add_one, hn]

/-- Once nothing is outstanding, further responses change nothing. -/
theorem alone_idle {C : Config ι φ} {i : ι} {n m : Nat} (hidle : (C.alone i n).waiting = none)
    (hnm : n ≤ m) : C.alone i m = C.alone i n := by
  induction m, hnm using Nat.le_induction with
  | base => rfl
  | succ m _ ih =>
    cases hr : (C.responses i)[m]? with
    | none => rw [alone_exhausted hr, ih]
    | some r => rw [alone_succ hr, ih, Progress.resume, hidle]

/-- A request that goes with its closure: it is of the operation's kind, its
iovecs are the closure's and lie in the operation's buffers. -/
structure Fits (C : Config ι φ) (i : ι) (req : Request) (op : IoOp ι) : Prop where
  kind : req.op = C.kind i
  iov : op.locals.iov = req.iov
  inside : ∀ v ∈ req.iov, ∀ a, v.Covers a → C.Owns i a

/-- An activation calls the callback, or it submits. -/
inductive Sound (C : Config ι φ) (i : ι) (turn : Turn ι) : Prop where
  | completed (hattempt : turn.attempt = none) (hclosure : turn.closure = none)
      (heffects : turn.effects ≠ [])
  | submitted (req : Request) (op : IoOp ι) (hattempt : turn.attempt = some (req, .ok 0))
      (hclosure : turn.closure = some op) (heffects : turn.effects = []) (hfits : Fits C i req op)

theorem invoke_ne_nil {κ α : Type} (slot : Option κ) (ret : Result α) : invoke slot ret ≠ [] := by
  cases slot <;> simp [invoke]

theorem run_sound (C : Config ι φ) (i : ι) (f : Fd) (op : IoOp ι) :
    Sound C i (run (C.kind i) f (C.bufs i) op (.ok 0)) := by
  by_cases h : op.locals.cond (bufferSize (C.bufs i)) op.locals.doneSz = 0
  · rw [run_done h]
    exact .completed rfl rfl (invoke_ne_nil _ _)
  · rw [run_submitted h]
    refine .submitted _ _ rfl rfl rfl ⟨rfl, rfl, ?_⟩
    intro v hv a ha
    exact transformToIovecs_covers hv ha

theorem goOn_sound (C : Config ι φ) (i : ι) (f : Fd) (op : IoOp ι) (ret : Result Int) :
    Sound C i (goOn (C.kind i) f (C.bufs i) op ret (.ok 0)) := by
  cases ret with
  | error e => exact .completed rfl rfl (invoke_ne_nil _ _)
  | ok v =>
    simp only [goOn]
    split
    · exact .completed rfl rfl (invoke_ne_nil _ _)
    · exact run_sound C i _ _

/-- An operation is over, or waits for a request that goes with its closure. -/
def Waits (C : Config ι φ) (i : ι) (p : Progress ι) : Prop :=
  (p.waiting = none ∧ p.effects ≠ []) ∨
    ∃ req op, p.waiting = some (req, op) ∧ p.effects = [] ∧ Fits C i req op

theorem Sound.waits {C : Config ι φ} {i : ι} {turn : Turn ι} (h : Sound C i turn)
    {p : Progress ι} (hp : p.effects = []) : Waits C i (p.apply turn) := by
  cases h with
  | completed hattempt hclosure heffects =>
    exact .inl ⟨by simp [Progress.apply, hattempt], by simp [Progress.apply, heffects]⟩
  | submitted req op hattempt hclosure heffects hfits =>
    exact .inr ⟨req, op, by simp [Progress.apply, hattempt, hclosure],
      by simp [Progress.apply, hp, heffects], hfits⟩

theorem alone_waits (C : Config ι φ) (i : ι) (n : Nat) : Waits C i (C.alone i n) := by
  induction n with
  | zero =>
    rw [alone_zero]
    exact (run_sound C i _ _).waits rfl
  | succ n ih =>
    cases hr : (C.responses i)[n]? with
    | none =>
      rw [alone_exhausted hr]
      exact ih
    | some r =>
      rw [alone_succ hr]
      rcases ih with ⟨hwait, heffects⟩ | ⟨req, op, hwait, heffects, -⟩
      · rw [Progress.resume, hwait]
        exact .inl ⟨hwait, heffects⟩
      · rw [Progress.resume, hwait]
        exact (goOn_sound C i _ _ _).waits heffects

theorem fits_of_waiting {C : Config ι φ} {i : ι} {n : Nat} {req : Request} {op : IoOp ι}
    (h : (C.alone i n).waiting = some (req, op)) :
    (C.alone i n).effects = [] ∧ Fits C i req op := by
  rcases alone_waits C i n with ⟨hwait, -⟩ | ⟨req', op', hwait, heffects, hfits⟩
  · simp [hwait] at h
  · rw [hwait] at h
    simp only [Option.some.injEq, Prod.mk.injEq] at h
    obtain ⟨rfl, rfl⟩ := h
    exact ⟨heffects, hfits⟩

/-- A response fills the operation's own buffers only. -/
theorem Fits.deliver_frame {C : Config ι φ} {i : ι} {req : Request} {op : IoOp ι}
    (hfits : Fits C i req op) {a : Nat} (ha : ¬C.Owns i a) (r : Response) (mem : Memory) :
    deliver req.op req.iov r mem a = mem a := by
  cases req.op with
  | write => rfl
  | read =>
    cases r with
    | failed errno pos => rfl
    | transferred bytes => exact scatter_frame fun v hv hc => ha (hfits.inside v hv a hc)

theorem deliver_congr {mem mem' : Memory} {a : Nat} (h : mem a = mem' a) (kind : IoOperation)
    (iov : List Iovec) (r : Response) : deliver kind iov r mem a = deliver kind iov r mem' a := by
  cases kind with
  | write => exact h
  | read =>
    cases r with
    | failed errno pos => exact h
    | transferred bytes => exact scatter_congr h iov bytes

end Alone

section Invariant

variable {θ ι φ : Type} [DecidableEq ι] {C : Config ι φ}
  {h e : History (ι × Request) (ι × IoOp ι)} {w w' : World θ ι φ} {i : ι}

/-- The requests of an operation that were queued, in order. -/
def requests (h : History (ι × Request) (ι × IoOp ι)) (i : ι) : List Request :=
  (asks h).filterMap fun p => if p.1 = i then some p.2 else none

@[simp] theorem requests_append (h h' : History (ι × Request) (ι × IoOp ι)) (i : ι) :
    requests (h ++ h') i = requests h i ++ requests h' i := by
  simp [requests]

theorem requests_of_not_mem (he : ∀ req, (i, req) ∉ asks e) : requests e i = [] := by
  simp only [requests, List.filterMap_eq_nil_iff]
  rintro ⟨j, req⟩ hmem
  apply if_neg
  rintro rfl
  exact he req hmem

/-- What is seen of a started operation is what it shows alone after `n`
responses. -/
structure Seen (C : Config ι φ) (w : World θ ι φ) (i : ι) (n : Nat) : Prop where
  started : (w.task i).started = true
  effects : (w.task i).effects = (C.alone i n).effects
  fd : w.fds (C.file i) = (C.alone i n).fd

/-- The kernel has given the operation its first `m` responses. -/
structure Given (C : Config ι φ) (w : World θ ι φ) (i : ι) (m : Nat) : Prop where
  le : m ≤ (C.responses i).length
  responses : (w.task i).responses = (C.responses i).drop m
  mem : ∀ a, C.Owns i a → w.mem a = (C.alone i m).mem a

/-- The operation has reacted to `n` responses, and its next request is as far as
the phase says. -/
def InPhase (C : Config ι φ) (h : History (ι × Request) (ι × IoOp ι)) (w : World θ ι φ) (i : ι)
    (n : Nat) (req : Request) : Phase → Prop
  | .preparing => Given C w i n ∧ requests h i ++ [req] = (C.alone i n).requests
  | .queued => Given C w i n ∧ requests h i = (C.alone i n).requests
  | .completed res => Given C w i (n + 1) ∧ requests h i = (C.alone i n).requests ∧
      ∃ r, (C.responses i)[n]? = some r ∧ res = r.res

/-- The operation follows its own `alone`. -/
inductive Following (C : Config ι φ) (h : History (ι × Request) (ι × IoOp ι))
    (w : World θ ι φ) (i : ι) : Prop where
  | fresh (hstarted : (w.task i).started = false)
      (hresponses : (w.task i).responses = C.responses i) (heffects : (w.task i).effects = [])
      (hfd : w.fds (C.file i) = C.fds (C.file i)) (hmem : ∀ a, C.Owns i a → w.mem a = C.mem a)
      (hrequests : requests h i = []) (hvacant : Vacant w.ctx i)
  | waiting (n : Nat) (req : Request) (op : IoOp ι) (phase : Phase) (l : Place θ)
      (hwait : (C.alone i n).waiting = some (req, op)) (hseen : Seen C w i n)
      (hphase : InPhase C h w i n req phase) (hstage : Stage w.ctx (i, op) (i, req) phase l)
  | finished (n : Nat) (hwait : (C.alone i n).waiting = none) (hseen : Seen C w i n)
      (hgiven : Given C w i n) (hrequests : requests h i = (C.alone i n).requests)
      (hvacant : Vacant w.ctx i)

/-- Everything together. -/
structure Inv (C : Config ι φ) (h : History (ι × Request) (ι × IoOp ι)) (w : World θ ι φ) :
    Prop where
  routing : Routing h w.ctx
  tidy : Tidy w.ctx
  attends : Attends w.ctx
  paired : Paired w.ctx
  sole : ∀ i, Sole w.ctx i
  follows : ∀ i, Following C h w i

/-- What an operation owns in two worlds is the same. -/
structure SameOwn (C : Config ι φ) (i : ι) (w w' : World θ ι φ) : Prop where
  task : w'.task i = w.task i
  fd : w'.fds (C.file i) = w.fds (C.file i)
  mem : ∀ a, C.Owns i a → w'.mem a = w.mem a

omit [DecidableEq ι] in
theorem SameOwn.seen {n : Nat} (hsame : SameOwn C i w w') (hs : Seen C w i n) : Seen C w' i n where
  started := by rw [hsame.task, hs.started]
  effects := by rw [hsame.task, hs.effects]
  fd := by rw [hsame.fd, hs.fd]

omit [DecidableEq ι] in
theorem SameOwn.given {n : Nat} (hsame : SameOwn C i w w') (hg : Given C w i n) :
    Given C w' i n where
  le := hg.le
  responses := by rw [hsame.task, hg.responses]
  mem := by
    intro a ha
    rw [hsame.mem a ha, hg.mem a ha]

theorem SameOwn.inPhase {n : Nat} {req : Request} {phase : Phase} (hsame : SameOwn C i w w')
    {h' : History (ι × Request) (ι × IoOp ι)} (hrequests : requests h' i = requests h i)
    (hp : InPhase C h w i n req phase) : InPhase C h' w' i n req phase := by
  cases phase with
  | preparing => exact ⟨hsame.given hp.1, by rw [hrequests, hp.2]⟩
  | queued => exact ⟨hsame.given hp.1, by rw [hrequests, hp.2]⟩
  | completed res => exact ⟨hsame.given hp.1, by rw [hrequests, hp.2.1], hp.2.2⟩

/-- A step that leaves the operation, its closure and its request alone. -/
theorem Following.frame {h' : History (ι × Request) (ι × IoOp ι)} (hf : Following C h w i)
    (hsame : SameOwn C i w w') (hrequests : requests h' i = requests h i)
    (hvacant : Vacant w.ctx i → Vacant w'.ctx i)
    (hstage : ∀ op req phase l, Stage w.ctx (i, op) (i, req) phase l →
      ∃ l', Stage w'.ctx (i, op) (i, req) phase l') : Following C h' w' i := by
  cases hf with
  | fresh hstarted hresponses heffects hfd hmem hreq hv =>
    refine .fresh (by rw [hsame.task, hstarted]) (by rw [hsame.task, hresponses])
      (by rw [hsame.task, heffects]) (by rw [hsame.fd, hfd]) ?_ (by rw [hrequests, hreq])
      (hvacant hv)
    intro a ha
    rw [hsame.mem a ha, hmem a ha]
  | waiting n req op phase l hwait hseen hphase hst =>
    obtain ⟨l', hst'⟩ := hstage op req phase l hst
    exact .waiting n req op phase l' hwait (hsame.seen hseen) (hsame.inPhase hrequests hphase) hst'
  | finished n hwait hseen hgiven hreq hv =>
    exact .finished n hwait (hsame.seen hseen) (hsame.given hgiven) (by rw [hrequests, hreq])
      (hvacant hv)

/-- A plain step of the context, for one operation. -/
theorem Following.plain [DecidableEq θ] {ctx : Tagged θ ι Request (IoOp ι)}
    {a : UringContext.Action θ (ι × Request) (ι × IoOp ι)} (hf : Following C h w i)
    (hinv : Inv C h w) (hs : UringContext.step w.ctx a = some (ctx, e)) (hp : Plain w.ctx a) :
    Following C (h ++ e) { w with ctx := ctx } i := by
  have hsame : SameOwn C i w { w with ctx := ctx } := ⟨rfl, rfl, fun _ _ => rfl⟩
  have hvacant : Vacant w.ctx i → Vacant ctx i := (step_moves hs hp hinv.tidy).vacant
  have hframe : (∀ req, (i, req) ∉ asks e) → requests (h ++ e) i = requests h i := by
    intro he
    rw [requests_append, requests_of_not_mem he, List.append_nil]
  cases hf with
  | fresh hstarted hresponses heffects hfd hmem hreq hv =>
    refine .fresh hstarted hresponses heffects hfd hmem ?_ (hvacant hv)
    rw [hframe (hv.asks hs hinv.paired), hreq]
  | finished n hwait hseen hgiven hreq hv =>
    refine .finished n hwait (hsame.seen hseen) (hsame.given hgiven) ?_ (hvacant hv)
    rw [hframe (hv.asks hs hinv.paired), hreq]
  | waiting n req op phase l hwait hseen hphase hst =>
    rcases hst.step hs hp hinv.tidy hinv.routing (hinv.sole i) hinv.paired with
      ⟨⟨l', hst'⟩, he⟩ | ⟨rfl, ⟨l', hst'⟩, he⟩
    · exact .waiting n req op phase l' hwait (hsame.seen hseen)
        (hsame.inPhase (hframe he) hphase) hst'
    · refine .waiting n req op .queued l' hwait (hsame.seen hseen) ⟨hsame.given hphase.1, ?_⟩ hst'
      rw [← hphase.2, requests_append]
      simp [requests, he]

theorem Inv.plain [DecidableEq θ] {ctx : Tagged θ ι Request (IoOp ι)}
    {a : UringContext.Action θ (ι × Request) (ι × IoOp ι)} (hinv : Inv C h w)
    (hs : UringContext.step w.ctx a = some (ctx, e)) (hp : Plain w.ctx a) :
    Inv C (h ++ e) { w with ctx := ctx } where
  routing := (step_change hs).routing hinv.routing (step_locked hs hinv.routing.locked)
  tidy := step_tidy hs hinv.tidy
  attends := step_attends hs hinv.attends
  paired := hinv.paired.step hs hp hinv.tidy hinv.routing
  sole := fun i => (step_moves hs hp hinv.tidy).sole (hinv.sole i)
  follows := fun i => (hinv.follows i).plain hinv hs hp

/-- The waker's poll completes. -/
theorem Inv.polled [DecidableEq θ] (hinv : Inv C h w) {n : Nat} {tok : Nat} {res : Int}
    (hq : w.ctx.inflight[n]? = some ⟨.pollWaker, tok⟩)
    (hs : w.lift (.post n res) = some (w', e)) : Inv C (h ++ e) w' := by
  obtain ⟨ctx, hstep, rfl⟩ := World.lift_eq_some hs
  have hctx : ctx = { w.ctx with
      inflight := w.ctx.inflight.eraseIdx n, cq := w.ctx.cq ++ [⟨tok, res⟩] } ∧
      e = [.posted ⟨tok, res⟩] := by
    simpa [UringContext.step, postStep, hq, eq_comm] using hstep
  obtain ⟨rfl, rfl⟩ := hctx
  refine ⟨(step_change hstep).routing hinv.routing (step_locked hstep hinv.routing.locked),
    step_tidy hstep hinv.tidy, step_attends hstep hinv.attends, hinv.paired.of_posted n _,
    hinv.sole, fun i => ?_⟩
  refine (hinv.follows i).frame ⟨rfl, rfl, fun _ _ => rfl⟩ (by simp [requests, asks])
    (fun hv => hv) ?_
  intro op req phase l hst
  exact ⟨l, hst.of_posted hq (by simp) res⟩

/-- An operation with a request outstanding has a closure. -/
theorem Inv.not_vacant (hinv : Inv C h w) {q : Sqe (ι × Request)} {req : Request}
    (hq : q ∈ w.ctx.sq ++ w.ctx.inflight) (hop : q.op = .user (i, req)) :
    ¬Vacant w.ctx i := by
  intro hv
  obtain ⟨op, hown⟩ := hinv.paired.sqes q hq i req hop
  rcases hown with hmap | ⟨t, hview⟩
  · exact hv (.map q.userData) op hmap
  · exact hv (.call t) op (holds_of_view hview)

omit [DecidableEq ι] in
/-- The next response is what the kernel has for the operation. -/
theorem Given.next {n : Nat} {r : Response} {rs : List Response} (hg : Given C w i n)
    (hr : (w.task i).responses = r :: rs) :
    (C.responses i)[n]? = some r ∧ rs = (C.responses i).drop (n + 1) := by
  rw [hg.responses] at hr
  have hget := congrArg (fun l => l[0]?) hr
  have htail := congrArg List.tail hr
  simp only [List.getElem?_drop, Nat.add_zero, List.getElem?_cons_zero] at hget
  simp only [List.tail_drop, List.tail_cons] at htail
  exact ⟨hget, htail.symm⟩

/-- The world after the kernel has answered a request of the operation. -/
def World.answered (w : World θ ι φ) (i : ι) (req : Request) (n tok : Nat) (r : Response)
    (rs : List Response) : World θ ι φ where
  ctx := { w.ctx with
    inflight := w.ctx.inflight.eraseIdx n, cq := w.ctx.cq ++ [⟨tok, r.res⟩] }
  mem := deliver req.op req.iov r w.mem
  fds := w.fds
  task := Function.update w.task i { w.task i with responses := rs }

/-- The response reaches the operation it is for, and no other notices. -/
theorem Inv.answered (hinv : Inv C h w) {n tok : Nat} {req : Request} {r : Response}
    {rs : List Response} (hq : w.ctx.inflight[n]? = some ⟨.user (i, req), tok⟩)
    (hr : (w.task i).responses = r :: rs) (j : ι) :
    Following C (h ++ [.posted ⟨tok, r.res⟩]) (w.answered i req n tok r rs) j := by
  have hmem : ⟨.user (i, req), tok⟩ ∈ w.ctx.sq ++ w.ctx.inflight :=
    List.mem_append_right _ (List.mem_of_getElem? hq)
  have hbusy : ¬Vacant w.ctx i := hinv.not_vacant hmem rfl
  cases hinv.follows i with
  | fresh _ _ _ _ _ _ hv => exact absurd hv hbusy
  | finished _ _ _ _ _ hv => exact absurd hv hbusy
  | waiting m req' op phase l hwait hseen hphase hst =>
    obtain ⟨rfl, rfl, hst'⟩ :=
      hst.own_posted hinv.routing (hinv.sole i) hinv.paired hq rfl r.res
    have hfits := (fits_of_waiting hwait).2
    obtain ⟨hget, hdrop⟩ := hphase.1.next hr
    by_cases hj : j = i
    · subst hj
      refine .waiting m req op (.completed r.res) _ hwait ⟨?_, ?_, hseen.fd⟩ ⟨⟨?_, ?_, ?_⟩, ?_, ?_⟩
        hst'
      · simp [World.answered, hseen.started]
      · simp [World.answered, hseen.effects]
      · have hlt := (List.getElem?_eq_some_iff.mp hget).1
        omega
      · simp [World.answered, hdrop]
      · intro a ha
        rw [alone_resumed_mem hwait hget, ← hfits.kind]
        exact deliver_congr (hphase.1.mem a ha) req.op req.iov r
      · rw [← hphase.2, requests_append]
        simp [requests, asks]
      · exact ⟨r, hget, rfl⟩
    · refine (hinv.follows j).frame ⟨?_, rfl, ?_⟩ (by simp [requests, asks]) (fun hv => hv) ?_
      · simp [World.answered, Function.update_of_ne hj]
      · intro a ha
        exact hfits.deliver_frame (fun hi => hj (C.owns_unique ha hi)) r w.mem
      · intro op' req' phase l' hst''
        refine ⟨l', hst''.of_posted hq ?_ r.res⟩
        simp only [ne_eq, Op.user.injEq, Prod.mk.injEq, not_and]
        exact fun hi => absurd hi.symm hj

/-- The kernel answers an operation. -/
theorem Inv.completed [DecidableEq θ] (hinv : Inv C h w) {n : Nat}
    (hs : w.complete n = some (w', e)) : Inv C (h ++ e) w' := by
  unfold World.complete at hs
  split at hs
  next i req tok hq =>
    split at hs
    · cases hs
    next r rs hr =>
      obtain ⟨ctx, hstep, rfl⟩ := World.lift_eq_some hs
      have hctx : ctx = { w.ctx with
          inflight := w.ctx.inflight.eraseIdx n, cq := w.ctx.cq ++ [⟨tok, r.res⟩] } ∧
          e = [.posted ⟨tok, r.res⟩] := by
        simpa [UringContext.step, postStep, hq, eq_comm] using hstep
      obtain ⟨rfl, rfl⟩ := hctx
      exact ⟨(step_change hstep).routing hinv.routing (step_locked hstep hinv.routing.locked),
        step_tidy hstep hinv.tidy, step_attends hstep hinv.attends, hinv.paired.of_posted n _,
        hinv.sole, hinv.answered hq hr⟩
  · cases hs

/-- An operation between two activations: its closure is taken out of the
context, and what was seen of it is in `p`. -/
structure Between (C : Config ι φ) (h : History (ι × Request) (ι × IoOp ι)) (w : World θ ι φ)
    (i : ι) (p : Progress ι) : Prop where
  routing : Routing h w.ctx
  tidy : Tidy w.ctx
  attends : Attends w.ctx
  paired : Paired w.ctx
  sole : ∀ j, Sole w.ctx j
  others : ∀ j, j ≠ i → Following C h w j
  vacant : Vacant w.ctx i
  started : (w.task i).started = true
  effects : (w.task i).effects = p.effects
  requests : requests h i = p.requests

variable [DecidableEq θ] [DecidableEq φ]

omit [DecidableEq θ] in
theorem Seen.of_settle {n : Nat} {p : Progress ι} {turn : Turn ι}
    (hn : C.alone i n = p.apply turn) (hstarted : (w.task i).started = true)
    (heffects : (w.task i).effects = p.effects) : Seen C (w.settle C i turn) i n where
  started := by simp [World.settle, hstarted]
  effects := by simp [World.settle, hn, Progress.apply, heffects]
  fd := by simp [World.settle, hn, Progress.apply]

omit [DecidableEq θ] in
theorem Given.of_settle {n : Nat} (hg : Given C w i n) (turn : Turn ι) :
    Given C (w.settle C i turn) i n where
  le := hg.le
  responses := by simp [World.settle, hg.responses]
  mem := hg.mem

omit [DecidableEq θ] in
theorem sameOwn_settle {j : ι} (hj : j ≠ i) (turn : Turn ι) :
    SameOwn C j w (w.settle C i turn) where
  task := by simp [World.settle, Function.update_of_ne hj]
  fd := by
    have hne : C.file j ≠ C.file i := fun he => hj (C.distinct j i he)
    simp [World.settle, Function.update_of_ne hne]
  mem := fun _ _ => rfl

/-- An activation takes the operation to the next state of its `alone`. -/
theorem Between.activate {p : Progress ι} {t : Thread θ} {turn : Turn ι} {n : Nat}
    (hb : Between C h w i p) (hsound : Sound C i turn) (hn : C.alone i n = p.apply turn)
    (hgiven : Given C w i n) (hs : w.activate C t i turn = some (w', e)) : Inv C (h ++ e) w' := by
  have hseen := Seen.of_settle hn hb.started hb.effects
  have hgiven' := hgiven.of_settle turn
  cases hsound with
  | completed hattempt hclosure heffects =>
    simp only [World.activate, hattempt, Option.some.injEq, Prod.mk.injEq] at hs
    obtain ⟨rfl, rfl⟩ := hs
    rw [List.append_nil]
    refine ⟨hb.routing, hb.tidy, hb.attends, hb.paired, hb.sole, fun j => ?_⟩
    by_cases hj : j = i
    · subst hj
      refine .finished n ?_ hseen hgiven' ?_ hb.vacant
      · simp [hn, Progress.apply, hattempt]
      · simp [hn, Progress.apply, Progress.requests, hattempt, hb.requests]
    · exact (hb.others j hj).frame (sameOwn_settle hj turn) rfl (fun hv => hv)
        fun _ _ _ l hst => ⟨l, hst⟩
  | submitted req op hattempt hclosure heffects hfits =>
    simp only [World.activate, hattempt, hclosure] at hs
    obtain ⟨ctx, hstep, rfl⟩ := World.lift_eq_some hs
    have hctx : w.ctx.call t = .idle ∧ ctx = w.ctx.setCall t (submission i op req) ∧ e = [] := by
      simp only [UringContext.step, enterStep, Option.ite_none_right_eq_some, Bool.and_eq_true,
        Option.some.injEq, Prod.mk.injEq] at hstep
      exact ⟨Call.isIdle_iff.mp hstep.1.1, hstep.2.1.symm, hstep.2.2.symm⟩
    obtain ⟨hidle, rfl, rfl⟩ := hctx
    refine ⟨(step_change hstep).routing hb.routing (step_locked hstep hb.routing.locked),
      step_tidy hstep hb.tidy, step_attends hstep hb.attends, hb.paired.of_enter hidle i op req,
      fun j => (hb.sole j).of_enter fun _ => hb.vacant, fun j => ?_⟩
    by_cases hj : j = i
    · subst hj
      refine .waiting n req op .preparing (.call t) ?_ ⟨hseen.started, hseen.effects, hseen.fd⟩
        ⟨⟨hgiven'.le, hgiven'.responses, hgiven'.mem⟩, ?_⟩ (.enter t j op req)
      · simp [hn, Progress.apply, hattempt, hclosure]
      · simp [hn, Progress.apply, Progress.requests, hattempt, hb.requests]
    · have hsame := sameOwn_settle (C := C) (w := w) hj turn
      refine (hb.others j hj).frame ⟨hsame.task, hsame.fd, hsame.mem⟩ (by simp)
        (fun hv => hv.of_enter hj) ?_
      intro op' req' phase l hst
      exact ⟨l, hst.of_enter hidle _⟩

/-- A thread starts an operation. -/
theorem Inv.started (hinv : Inv C h w) {t : Thread θ} (hs : w.start C t i = some (w', e)) :
    Inv C (h ++ e) w' := by
  simp only [World.start, Option.ite_none_right_eq_some, Bool.and_eq_true, Bool.not_eq_true'] at hs
  obtain ⟨⟨-, hnew⟩, hs⟩ := hs
  cases hinv.follows i with
  | waiting n req op phase l hwait hseen => simp [hseen.started] at hnew
  | finished n hwait hseen => simp [hseen.started] at hnew
  | fresh hstarted hresponses heffects hfd hmem hreq hv =>
    rw [hfd] at hs
    refine Between.activate (p := ⟨C.fds (C.file i), C.mem, [], [], none⟩) ?_
      (run_sound C i _ _) (alone_zero C i) ?_ hs
    · refine ⟨hinv.routing, hinv.tidy, hinv.attends, hinv.paired, hinv.sole, fun j hj => ?_, hv,
        by simp, by simp [heffects], hreq⟩
      exact (hinv.follows j).frame ⟨by simp [Function.update_of_ne hj], rfl, fun _ _ => rfl⟩ rfl
        (fun hv => hv) fun _ _ _ l hst => ⟨l, hst⟩
    · exact ⟨Nat.zero_le _, by simp [hresponses], hmem⟩

/-- The loop invokes an operation's closure. -/
theorem Inv.dispatched (hinv : Inv C h w) {tok : Nat} {op : IoOp ι} {ret : Result Int}
    {rest : List (Ready (ι × IoOp ι))}
    (hpc : w.ctx.loop = .dispatch (⟨tok, .user (i, op), ret⟩ :: rest)) {ans : Answer}
    {w₁ : World θ ι φ} {e₁ : History (ι × Request) (ι × IoOp ι)}
    (hs₁ : w.lift (.loop ans) = some (w₁, e₁))
    (hs : w₁.activate C .loop i (goOn (C.kind i) (w.fds (C.file i)) (C.bufs i) op ret (.ok 0)) =
      some (w', e)) : Inv C (h ++ (e₁ ++ e)) w' := by
  obtain ⟨ctx, hstep, rfl⟩ := World.lift_eq_some hs₁
  have hctx : ctx = { w.ctx with loop := .callback rest } ∧
      e₁ = [.invoked ⟨tok, .user (i, op), ret⟩] := by
    simpa [UringContext.step, loopStep, invokeStep, hpc, eq_comm] using hstep
  obtain ⟨rfl, rfl⟩ := hctx
  have hbusy : ¬Vacant w.ctx i :=
    fun hv => hv (.batch tok) op ⟨ret, by rw [hpc]; exact List.mem_cons_self⟩
  cases hinv.follows i with
  | fresh _ _ _ _ _ _ hv => exact absurd hv hbusy
  | finished _ _ _ _ _ hv => exact absurd hv hbusy
  | waiting n req op' phase l hwait hseen hphase hst =>
    obtain ⟨rfl, res, rfl, rfl⟩ := hst.of_head hinv.routing (hinv.sole i) hpc
    obtain ⟨hgiven, hrequests, r, hget, rfl⟩ := hphase
    rw [← List.append_assoc]
    refine Between.activate (n := n + 1)
      (p := { C.alone i n with mem := deliver (C.kind i) req.iov r (C.alone i n).mem }) ?_
      (goOn_sound C i _ _ _) ?_ ?_ hs
    · refine ⟨(step_change hstep).routing hinv.routing (step_locked hstep hinv.routing.locked),
        step_tidy hstep hinv.tidy, step_attends hstep hinv.attends, hinv.paired.of_dispatch _,
        fun j => (moves_dispatch hpc).sole (hinv.sole j), fun j hj => ?_,
        vacant_dispatch hinv.routing (hinv.sole i) hpc, hseen.started, hseen.effects, ?_⟩
      · refine (hinv.follows j).frame ⟨rfl, rfl, fun _ _ => rfl⟩ (by simp [requests, asks])
          (moves_dispatch hpc).vacant ?_
        intro op' req' phase l' hst'
        refine ⟨l', hst'.of_dispatch hpc ?_⟩
        simp only [ne_eq, Callback.user.injEq, Prod.mk.injEq, not_and]
        exact fun hi => absurd hi.symm hj
      · rw [requests_append, hrequests]
        simp [requests, asks, Progress.requests]
    · rw [alone_resumed hwait hget, hseen.fd]
    · exact ⟨hgiven.le, hgiven.responses, hgiven.mem⟩

omit [DecidableEq ι] [DecidableEq φ] in
theorem vacant_start (i : ι) : Vacant (UringContext.start : Tagged θ ι Request (IoOp ι)) i := by
  intro l op hl
  cases l with
  | call t => cases t <;> simp [Holds, UringContext.start, Call.view] at hl
  | map tok => simp [Holds, UringContext.start] at hl
  | batch tok => simp [Holds, UringContext.start, LoopPc.pending] at hl

/-- Every step of the world keeps every operation on the way of its `alone`. -/
theorem Inv.step {a : Action θ ι} (hinv : Inv C h w) (hok : Submits w a)
    (hs : Interleaving.step C w a = some (w', e)) : Inv C (h ++ e) w' := by
  have hplain : ∀ a, Plain w.ctx a → w.lift a = some (w', e) → Inv C (h ++ e) w' := by
    intro a hp hs
    obtain ⟨ctx, hstep, rfl⟩ := World.lift_eq_some hs
    exact hinv.plain hstep hp
  cases a with
  | start t i => exact hinv.started hs
  | complete n => exact hinv.completed hs
  | poll n res =>
    simp only [Interleaving.step] at hs
    split at hs
    next tok hq => exact hinv.polled hq hs
    next => cases hs
  | loop ans =>
    simp only [Interleaving.step, World.loop] at hs
    split at hs
    next tok i op ret rest hpc =>
      split at hs
      next w₁ e₁ hs₁ =>
        simp only [Option.map_eq_some_iff] at hs
        obtain ⟨⟨w₂, e₂⟩, hs₂, heq⟩ := hs
        obtain ⟨rfl, rfl⟩ := Prod.mk.inj heq
        exact hinv.dispatched hpc hs₁ hs₂
      next => cases hs
    next hother =>
      refine hplain _ ?_ hs
      rintro ⟨tok, cb, ret⟩ rest ⟨i, op⟩ hpc rfl
      exact hother tok i op ret rest hpc
  | call t ans => exact hplain (.call t ans) hok hs
  | finish t => exact hplain (.finish t) trivial hs
  | wake t ans => exact hplain (.enter t (.wake ans)) trivial hs
  | exit t err => exact hplain (.enter t (.exit err)) trivial hs

omit [DecidableEq φ] in
theorem inv_start (C : Config ι φ) : Inv C [] (start C : World θ ι φ) where
  routing := routing_start
  tidy := tidy_start
  attends := attends_start
  paired := by
    refine ⟨?_, by simp [start, UringContext.start]⟩
    intro t op cb ht
    cases t with
    | loop =>
      obtain ⟨rfl, rfl⟩ : op = .pollWaker ∧ cb = some .waker := ht
      trivial
    | user t => exact ht.elim
  sole := fun i => (vacant_start i).sole
  follows := fun i => .fresh rfl rfl rfl rfl (fun _ _ => rfl) rfl (vacant_start i)

/-- The batch never gets stuck: the closure at its head can always be invoked. -/
theorem Inv.dispatches (hinv : Inv C h w) {r : Ready (ι × IoOp ι)}
    {rest : List (Ready (ι × IoOp ι))} (hpc : w.ctx.loop = .dispatch (r :: rest)) (ans : Answer) :
    ∃ w' e, Interleaving.step C w (.loop ans) = some (w', e) := by
  have hidle : w.ctx.call .loop = .idle := hinv.attends (by rw [hpc]; exact id)
  have hlift : w.lift (.loop ans) =
      some ({ w with ctx := (invokeStep w.ctx r rest).1 }, (invokeStep w.ctx r rest).2) := by
    simp [World.lift, UringContext.step, loopStep, hpc]
  obtain ⟨tok, cb, ret⟩ := r
  cases cb with
  | waker =>
    simp only [Interleaving.step, World.loop, hpc, hlift]
    exact ⟨_, _, rfl⟩
  | user k =>
    obtain ⟨i, op⟩ := k
    simp only [Interleaving.step, World.loop, hpc, hlift]
    cases goOn_sound C i (w.fds (C.file i)) op ret with
    | completed hattempt hclosure heffects =>
      simp only [World.activate, hattempt]
      exact ⟨_, _, rfl⟩
    | submitted req op' hattempt hclosure heffects hfits =>
      simp only [World.activate, hattempt, hclosure, World.lift, World.settle, UringContext.step,
        enterStep, invokeStep, hidle, Call.isIdle, State.mayCall, LoopPc.inCallback]
      exact ⟨_, _, rfl⟩

theorem Inv.of_run (hrun : Run (Interleaving.step C) Submits (start C) h w) : Inv C h w :=
  hrun.invariant (inv_start C) fun _ _ _ _ _ hinv hok hs => hinv.step hok hs

/-- In no run does a completion wait for the loop thread at the head of the batch. -/
theorem batch_dispatches (hrun : Run (Interleaving.step C) Submits (start C) h w)
    {r : Ready (ι × IoOp ι)} {rest : List (Ready (ι × IoOp ι))}
    (hpc : w.ctx.loop = .dispatch (r :: rest)) (ans : Answer) :
    ∃ w' e, Interleaving.step C w (.loop ans) = some (w', e) :=
  (Inv.of_run hrun).dispatches hpc ans

end Invariant

section Independence

variable {θ ι φ : Type} [DecidableEq ι] {C : Config ι φ}
  {h : History (ι × Request) (ι × IoOp ι)} {w : World θ ι φ} {i : ι}

/-- The SQE carries a request of this operation. -/
def belongs (i : ι) (q : Sqe (ι × Request)) : Bool :=
  match q.op with
  | .user (j, _) => j = i
  | .pollWaker => false

/-- The submissions of the operation that have no completion yet. -/
def outstanding (s : Tagged θ ι Request (IoOp ι)) (i : ι) : List (Sqe (ι × Request)) :=
  (s.sq ++ s.inflight).filter (belongs i)

theorem mem_outstanding {s : Tagged θ ι Request (IoOp ι)} {q : Sqe (ι × Request)}
    (hq : q ∈ outstanding s i) : q ∈ s.sq ++ s.inflight ∧ ∃ req, q.op = .user (i, req) := by
  obtain ⟨hmem, hb⟩ := List.mem_filter.mp hq
  refine ⟨hmem, ?_⟩
  unfold belongs at hb
  split at hb
  next j req hop =>
    obtain rfl : j = i := by simpa using hb
    exact ⟨req, hop⟩
  next => cases hb

/-- A thread is inside `add_sqe` with this request. -/
def Submitting (s : Tagged θ ι Request (IoOp ι)) (i : ι) (req : Request) : Prop :=
  ∃ t op, (s.call t).view = some (.preparing (.user (i, req)) (i, op))

/-- What is seen of an operation is what it shows alone: its requests, the calls
of its callback, its descriptor and its buffers. -/
structure AsAlone (C : Config ι φ) (h : History (ι × Request) (ι × IoOp ι)) (w : World θ ι φ)
    (i : ι) (p : Progress ι) : Prop where
  requests : requests h i = p.requests
  effects : (w.task i).effects = p.effects
  fd : w.fds (C.file i) = p.fd
  buffers : ∀ a, C.Owns i a → w.mem a = p.mem a

/-- What the operations owe each other, for one of them at one moment. -/
structure Independent (C : Config ι φ) (h : History (ι × Request) (ι × IoOp ι))
    (w : World θ ι φ) (i : ι) : Prop where
  /-- Before it is started nothing happens to it. -/
  untouched : (w.task i).started = false →
    AsAlone C h w i ⟨C.fds (C.file i), C.mem, [], [], none⟩
  /-- It has reacted to its first `n` responses as it does alone; one more may be
  on its way to it. A request it is just submitting is not queued yet. -/
  progress : (w.task i).started = true → ∃ n m, n ≤ m ∧ m ≤ n + 1 ∧
    m ≤ (C.responses i).length ∧ (w.task i).responses = (C.responses i).drop m ∧
    (requests h i = (C.alone i n).requests ∨
      ∃ req, Submitting w.ctx i req ∧ requests h i ++ [req] = (C.alone i n).requests) ∧
    (w.task i).effects = (C.alone i n).effects ∧ w.fds (C.file i) = (C.alone i n).fd ∧
    ∀ a, C.Owns i a → w.mem a = (C.alone i m).mem a
  /-- Once its callback was called, everything is as at the end of its run alone. -/
  final : (w.task i).effects ≠ [] → AsAlone C h w i (C.alone i (C.responses i).length)
  /-- Until then it is not lost: it is submitting a request, or waits for one, or
  its completion is on the way to it. -/
  pending : (w.task i).started = true → (w.task i).effects = [] →
    ∃ op req phase l, Stage w.ctx (i, op) (i, req) phase l
  one_outstanding : (outstanding w.ctx i).length ≤ 1
  /-- While a submission is outstanding, the iovecs of its operation are those it
  was made with. -/
  iovecs_kept : ∀ q ∈ outstanding w.ctx i, ∃ req op, q.op = .user (i, req) ∧
    (∃ l, Holds w.ctx l (i, op)) ∧ (∀ l op', Holds w.ctx l (i, op') → op' = op) ∧
    op.locals.iov = req.iov

theorem Inv.untouched (hinv : Inv C h w) (hstarted : (w.task i).started = false) :
    AsAlone C h w i ⟨C.fds (C.file i), C.mem, [], [], none⟩ := by
  cases hinv.follows i with
  | fresh _ hresponses heffects hfd hmem hreq hv => exact ⟨hreq, heffects, hfd, hmem⟩
  | waiting n req op phase l hwait hseen => simp [hseen.started] at hstarted
  | finished n hwait hseen => simp [hseen.started] at hstarted

theorem Inv.progress (hinv : Inv C h w) (hstarted : (w.task i).started = true) :
    ∃ n m, n ≤ m ∧ m ≤ n + 1 ∧ m ≤ (C.responses i).length ∧
      (w.task i).responses = (C.responses i).drop m ∧
      (requests h i = (C.alone i n).requests ∨
        ∃ req, Submitting w.ctx i req ∧ requests h i ++ [req] = (C.alone i n).requests) ∧
      (w.task i).effects = (C.alone i n).effects ∧ w.fds (C.file i) = (C.alone i n).fd ∧
      ∀ a, C.Owns i a → w.mem a = (C.alone i m).mem a := by
  cases hinv.follows i with
  | fresh hnew => simp [hnew] at hstarted
  | finished n hwait hseen hgiven hreq hv =>
    exact ⟨n, n, le_rfl, by omega, hgiven.le, hgiven.responses, .inl hreq, hseen.effects,
      hseen.fd, hgiven.mem⟩
  | waiting n req op phase l hwait hseen hphase hst =>
    cases phase with
    | preparing =>
      obtain ⟨hgiven, hreq⟩ := hphase
      cases hst with
      | preparing t hview =>
        exact ⟨n, n, le_rfl, by omega, hgiven.le, hgiven.responses,
          .inr ⟨req, ⟨t, op, hview⟩, hreq⟩, hseen.effects, hseen.fd, hgiven.mem⟩
    | queued =>
      obtain ⟨hgiven, hreq⟩ := hphase
      exact ⟨n, n, le_rfl, by omega, hgiven.le, hgiven.responses, .inl hreq, hseen.effects,
        hseen.fd, hgiven.mem⟩
    | completed res =>
      obtain ⟨hgiven, hreq, -⟩ := hphase
      exact ⟨n, n + 1, by omega, le_rfl, hgiven.le, hgiven.responses, .inl hreq, hseen.effects,
        hseen.fd, hgiven.mem⟩

theorem Inv.final (hinv : Inv C h w) (hdone : (w.task i).effects ≠ []) :
    AsAlone C h w i (C.alone i (C.responses i).length) := by
  cases hinv.follows i with
  | fresh _ _ heffects => exact absurd heffects hdone
  | waiting n req op phase l hwait hseen =>
    rw [hseen.effects] at hdone
    exact absurd (fits_of_waiting hwait).1 hdone
  | finished n hwait hseen hgiven hreq hv =>
    rw [alone_idle hwait hgiven.le]
    exact ⟨hreq, hseen.effects, hseen.fd, hgiven.mem⟩

theorem Inv.pending (hinv : Inv C h w) (hstarted : (w.task i).started = true)
    (hundone : (w.task i).effects = []) : ∃ op req phase l, Stage w.ctx (i, op) (i, req) phase l := by
  cases hinv.follows i with
  | fresh hnew => simp [hnew] at hstarted
  | waiting n req op phase l hwait hseen hphase hst => exact ⟨op, req, phase, l, hst⟩
  | finished n hwait hseen =>
    rw [hseen.effects] at hundone
    rcases alone_waits C i n with ⟨-, heffects⟩ | ⟨req, op, hwait', -⟩
    · exact absurd hundone heffects
    · simp [hwait] at hwait'

theorem Inv.one_outstanding (hinv : Inv C h w) (i : ι) : (outstanding w.ctx i).length ≤ 1 := by
  have hn : (outstanding w.ctx i).Nodup := (hinv.routing.sqes_nodup.of_map _).filter _
  match hout : outstanding w.ctx i with
  | [] => simp
  | [q] => simp
  | q :: q' :: rest =>
    have hq : q ∈ outstanding w.ctx i := by simp [hout]
    have hq' : q' ∈ outstanding w.ctx i := by simp [hout]
    obtain ⟨hmem, req, hop⟩ := mem_outstanding hq
    obtain ⟨hmem', req', hop'⟩ := mem_outstanding hq'
    have heq := hinv.paired.sqe_sole hinv.routing (hinv.sole i) hmem hop hmem' hop'
    rw [hout] at hn
    simp [heq] at hn

theorem Inv.iovecs_kept (hinv : Inv C h w) {q : Sqe (ι × Request)}
    (hq : q ∈ outstanding w.ctx i) : ∃ req op, q.op = .user (i, req) ∧
      (∃ l, Holds w.ctx l (i, op)) ∧ (∀ l op', Holds w.ctx l (i, op') → op' = op) ∧
      op.locals.iov = req.iov := by
  obtain ⟨hmem, req, hop⟩ := mem_outstanding hq
  have hbusy : ¬Vacant w.ctx i := hinv.not_vacant hmem hop
  cases hinv.follows i with
  | fresh _ _ _ _ _ _ hv => exact absurd hv hbusy
  | finished _ _ _ _ _ hv => exact absurd hv hbusy
  | waiting n req' op phase l hwait hseen hphase hst =>
    obtain ⟨rfl, -⟩ := hst.of_sqe hinv.routing (hinv.sole i) hinv.paired hmem hop
    refine ⟨req, op, hop, ⟨l, hst.holds⟩, ?_, (fits_of_waiting hwait).2.iov⟩
    intro l' op' hl'
    exact (hinv.sole i l' l op' op hl' hst.holds).2

/-- Concurrent operations do not interfere: over every run, for every operation. -/
theorem operations_independent [DecidableEq θ] [DecidableEq φ]
    (hrun : Run (step C) Submits (start C) h w) (i : ι) : Independent C h w i := by
  have hinv := Inv.of_run hrun
  exact ⟨hinv.untouched, hinv.progress, hinv.final, hinv.pending, hinv.one_outstanding i,
    fun q hq => hinv.iovecs_kept hq⟩

end Independence

section Example

instance {π κ : Type} (c : Call π κ) (n : Nat) (ans : Answer) : Decidable (c.Succeeds n ans) :=
  match c with
  | .getSqe _ (some (.user _)) => inferInstanceAs (Decidable (n < batchSize))
  | .wake _ (some (.user _)) => inferInstanceAs (Decidable (ans = .ok))
  | .getSqe _ none | .getSqe _ (some .waker) | .wake _ none | .wake _ (some .waker) | .idle
  | .lockSubmission _ _ | .lockCallbacks _ _ | .insert _ _ | .cancel _ _ _ | .exitWake
  | .returned _ => isTrue trivial

instance {θ ι φ : Type} (w : World θ ι φ) (a : Action θ ι) : Decidable (Submits w a) :=
  match a with
  | .call t ans => inferInstanceAs (Decidable ((w.ctx.call t).Succeeds w.ctx.sq.length ans))
  | .start _ _ | .complete _ | .poll _ _ | .loop _ | .finish _ | .wake _ _ | .exit _ _ =>
    isTrue trivial

/-- The buffer of the write, and the buffer of the read. -/
def twoBuffers (i : Bool) : List ConstBuffer :=
  if i then [⟨8192, 2, by decide⟩] else [⟨4096, 3, by decide⟩]

theorem twoBuffers_disjoint (i j : Bool) (hne : i ≠ j) (b : ConstBuffer) (hb : b ∈ twoBuffers i)
    (b' : ConstBuffer) (hb' : b' ∈ twoBuffers j) (a : Nat) (ha : b.Covers a) : ¬b'.Covers a := by
  cases i with
  | false =>
    cases j with
    | false => exact absurd rfl hne
    | true =>
      simp only [twoBuffers, if_pos, Bool.false_eq_true, if_false, List.mem_singleton] at hb hb'
      subst hb hb'
      simp only [ConstBuffer.Covers] at ha ⊢
      omega
  | true =>
    cases j with
    | false =>
      simp only [twoBuffers, if_pos, Bool.false_eq_true, if_false, List.mem_singleton] at hb hb'
      subst hb hb'
      simp only [ConstBuffer.Covers] at ha ⊢
      omega
    | true => exact absurd rfl hne

/-- A read of three bytes that comes in two parts, and a write of two. -/
def readAndWrite : Config Bool Bool where
  kind := fun i => if i then .write else .read
  file := id
  bufs := twoBuffers
  cond := fun _ => transferAll
  responses := fun i =>
    if i then [.transferred [8, 9]] else [.transferred [1, 2], .transferred [3]]
  fds := fun i => if i then ⟨5, none⟩ else ⟨4, some 10⟩
  mem := fun _ => 0
  distinct := fun _ _ h => h
  disjoint := twoBuffers_disjoint

/-- Both are started before the loop submits, the write completes first, and the
read submits its second part from inside the batch. -/
theorem exists_read_and_write :
    ∃ (h : History (Bool × Request) (Bool × IoOp Bool)) (w : World Unit Bool Bool),
      Run (step readAndWrite) Submits (start readAndWrite) h w ∧
        (calls (w.task false).effects = [(false, .ok 3)] ∧
          calls (w.task true).effects = [(true, .ok 2)]) := by
  apply exists_run_of_exec
    [.call .loop .ok, .call .loop .ok, .call .loop .ok, .call .loop .ok, .call .loop .ok,
      .loop .ok, .start (.user ()) false, .call (.user ()) .ok, .call (.user ()) .ok,
      .call (.user ()) .ok, .call (.user ()) .ok, .call (.user ()) .ok, .finish (.user ()),
      .start (.user ()) true, .call (.user ()) .ok, .call (.user ()) .ok, .call (.user ()) .ok,
      .call (.user ()) .ok, .call (.user ()) .ok, .finish (.user ()), .loop .ok, .loop .ok,
      .loop (.submitted 3), .complete 2, .complete 1, .loop .ok, .loop .ok, .loop .ok, .loop .ok,
      .loop .ok, .loop .ok, .loop .ok, .loop .ok, .loop .ok, .call .loop .ok, .call .loop .ok,
      .call .loop .ok, .call .loop .ok, .call .loop .ok, .finish .loop, .loop .ok, .loop .ok,
      .loop .ok, .loop (.submitted 1), .complete 1, .loop .ok, .loop .ok, .loop .ok, .loop .ok,
      .loop .ok, .loop .ok]
  decide +kernel

theorem operations_independent_read_and_write :
    ∃ (h : History (Bool × Request) (Bool × IoOp Bool)) (w : World Unit Bool Bool),
      Run (step readAndWrite) Submits (start readAndWrite) h w ∧
        calls (w.task false).effects = [(false, .ok 3)] ∧
        calls (w.task true).effects = [(true, .ok 2)] ∧
        ∀ i, Independent readAndWrite h w i := by
  obtain ⟨h, w, hrun, hread, hwrite⟩ := exists_read_and_write
  exact ⟨h, w, hrun, hread, hwrite, operations_independent hrun⟩

end Example

end Interleaving
