import Arkio.SyncIo
import Arkio.Slices

/-!
# What passes between an operation and the kernel

An exchange is a request with the kernel's answer to it, and the exchanges of a
call are all there is to know about its traffic. `loop_induction` is the
induction rule of the two loops: a property of a call holds if it holds of the
four ways to stop and is carried over one more round. From it `Counted` derives
the bookkeeping of every call: what each request asks for, how far the count and
the offset are, and why the call returned.
-/
namespace SyncIo

open Bindings Buffer

/-- The bytes a response transfers. -/
def Response.bytes : Response → List UInt8
  | .failed _ _ => []
  | .transferred bytes => bytes

def Response.count (r : Response) : Nat := r.bytes.length

@[simp] theorem Response.count_failed (errno : Nat) (pos : 0 < errno) :
    (Response.failed errno pos).count = 0 := rfl

@[simp] theorem Response.count_transferred (bytes : List UInt8) :
    (Response.transferred bytes).count = bytes.length := rfl

/-- A request and the answer to it. -/
abbrev Exchange := Request × Response

/-- The kernel transfers no more than it was asked for. -/
def Fits (x : Exchange) : Prop := x.2.count ≤ iovSize x.1.iov

instance (x : Exchange) : Decidable (Fits x) := inferInstanceAs (Decidable (_ ≤ _))

/-- The bytes moved over all exchanges. -/
def moved (xs : List Exchange) : Nat := (xs.map fun x => x.2.count).sum

@[simp] theorem moved_nil : moved [] = 0 := rfl

@[simp] theorem moved_cons (x : Exchange) (xs : List Exchange) :
    moved (x :: xs) = x.2.count + moved xs := by
  simp [moved]

@[simp] theorem moved_append (xs ys : List Exchange) :
    moved (xs ++ ys) = moved xs + moved ys := by
  simp [moved]

/-- The exchanges of a call: a request without an answer is none. -/
def Trace.exchanges (t : Trace) (responses : List Response) : List Exchange :=
  t.requests.zip responses

@[simp] theorem exchanges_after (t : Trace) (req : Request) (r : Response)
    (responses : List Response) :
    (t.after req).exchanges (r :: responses) = (req, r) :: t.exchanges responses := rfl

@[simp] theorem Trace.after_requests (t : Trace) (req : Request) :
    (t.after req).requests = req :: t.requests := rfl

@[simp] theorem Trace.after_ret (t : Trace) (req : Request) : (t.after req).ret = t.ret := rfl

@[simp] theorem Trace.after_fd (t : Trace) (req : Request) : (t.after req).fd = t.fd := rfl

@[simp] theorem Trace.after_mem (t : Trace) (req : Request) : (t.after req).mem = t.mem := rfl

@[simp] theorem Fd.feed_zero (f : Fd) : f.feed 0 = f := by
  cases f with
  | mk fildes offset => cases offset <;> simp [Fd.feed]

theorem Fd.feed_feed (f : Fd) (m n : Nat) : (f.feed m).feed n = f.feed (m + n) := by
  cases f with
  | mk fildes offset => cases offset <;> simp [Fd.feed, Int.add_assoc]

@[simp] theorem Fd.feed_offset (f : Fd) (n : Nat) :
    (f.feed n).offset = f.offset.map (· + (n : Int)) := rfl

@[simp] theorem Fd.feed_fildes (f : Fd) (n : Nat) : (f.feed n).fildes = f.fildes := rfl

@[simp] theorem IoOperation.request_iov (kind : IoOperation) (b : List ConstBuffer)
    (cond : CompletionCondition) (f : Fd) (doneSz : Nat) :
    (kind.request b cond f doneSz).iov =
      transformToIovecs b doneSz (cond (bufferSize b) doneSz) := rfl

section Loop

variable {kind : IoOperation} {b : List ConstBuffer} {cond : CompletionCondition}

/-- The induction rule of `sync::read` and `sync::write`. -/
theorem loop_induction {P : Fd → Memory → Nat → List Response → Trace → Prop}
    (done : ∀ f mem d rs, cond (bufferSize b) d = 0 → P f mem d rs ⟨[], some (.ok d), f, mem⟩)
    (blocked : ∀ f mem d, cond (bufferSize b) d ≠ 0 →
      P f mem d [] ⟨[kind.request b cond f d], none, f, mem⟩)
    (failed : ∀ f mem d errno pos rs, cond (bufferSize b) d ≠ 0 →
      P f mem d (.failed errno pos :: rs)
        ⟨[kind.request b cond f d], some (.error (asEc errno)), f, mem⟩)
    (eof : ∀ f mem d rs, cond (bufferSize b) d ≠ 0 → kind = .read →
      P f mem d (.transferred [] :: rs) ⟨[kind.request b cond f d], some (.ok d), f, mem⟩)
    (transferred : ∀ f mem d bytes rs t, cond (bufferSize b) d ≠ 0 →
      ¬(kind = .read ∧ bytes.length = 0) →
      P (f.feed bytes.length)
        (deliver kind (kind.request b cond f d).iov (.transferred bytes) mem)
        ((d + bytes.length) % sizeMod) rs t →
      P f mem d (.transferred bytes :: rs) (t.after (kind.request b cond f d)))
    (f : Fd) (mem : Memory) (d : Nat) (rs : List Response) :
    P f mem d rs (kind.loop b cond f mem d rs) := by
  induction rs generalizing f mem d with
  | nil =>
    by_cases h : cond (bufferSize b) d = 0
    · rw [loop_done h]
      exact done f mem d [] h
    · rw [loop_blocked h]
      exact blocked f mem d h
  | cons r rs ih =>
    by_cases h : cond (bufferSize b) d = 0
    · rw [loop_done h]
      exact done f mem d (r :: rs) h
    · cases r with
      | failed errno pos =>
        rw [loop_failed h]
        exact failed f mem d errno pos rs h
      | transferred bytes =>
        by_cases heof : kind = .read ∧ bytes.length = 0
        · obtain rfl := List.eq_nil_of_length_eq_zero heof.2
          rw [loop_eof h heof]
          exact eof f mem d rs h heof.1
        · rw [loop_transferred h heof]
          exact transferred f mem d bytes rs _ h heof (ih _ _ _)

/-- Up to `limit`, no count of bytes done can wrap. -/
structure Unwrapped (b : List ConstBuffer) (cond : CompletionCondition) (limit : Nat) : Prop where
  limit_lt : limit < sizeMod
  limit_le : limit ≤ (addresses b).length
  step : ∀ d ≤ limit, d + min (cond (bufferSize b) d) ((addresses b).length - d) ≤ limit

/-- A sequence that fits the address space never wraps, whatever the condition. -/
theorem unwrapped_of_lt (cond : CompletionCondition) (h : (addresses b).length < sizeMod) :
    Unwrapped b cond (addresses b).length :=
  ⟨h, Nat.le_refl _, fun d hd => by omega⟩

/-- A condition that asks for no more than the size of the sequence never wraps. -/
theorem unwrapped_of_cond (h : ∀ d ≤ bufferSize b, d + cond (bufferSize b) d ≤ bufferSize b) :
    Unwrapped b cond (bufferSize b) :=
  ⟨bufferSize_lt b, bufferSize_le b, fun d hd => by have := h d hd; omega⟩

/-- The bookkeeping of a call that has `d` bytes done. -/
structure Counted (kind : IoOperation) (b : List ConstBuffer) (cond : CompletionCondition)
    (limit : Nat) (f : Fd) (d : Nat) (rs : List Response) (t : Trace) : Prop where
  within : d + moved (t.exchanges rs) ≤ limit
  room : moved (t.exchanges rs) ≤ (addresses b).length - d
  request : ∀ i req, t.requests[i]? = some req →
    cond (bufferSize b) (d + moved ((t.exchanges rs).take i)) ≠ 0 ∧
      req = kind.request b cond (f.feed (moved ((t.exchanges rs).take i)))
        (d + moved ((t.exchanges rs).take i))
  fd : t.fd = f.feed (moved (t.exchanges rs))
  ret : ∀ n, t.ret = some (.ok n) → n = d + moved (t.exchanges rs) ∧
    (cond (bufferSize b) n = 0 ∨
      kind = .read ∧ (t.exchanges rs).getLast?.map Prod.snd = some (.transferred []))

/-- A call that stops after at most one request and transfers nothing. -/
theorem counted_stop {limit d : Nat} {f : Fd} {rs : List Response} {t : Trace}
    (hd : d ≤ limit) (hfd : t.fd = f) (hmoved : moved (t.exchanges rs) = 0)
    (hreq : ∀ req ∈ t.requests, cond (bufferSize b) d ≠ 0 ∧ req = kind.request b cond f d)
    (hret : ∀ n, t.ret = some (.ok n) → n = d ∧ (cond (bufferSize b) n = 0 ∨
      kind = .read ∧ (t.exchanges rs).getLast?.map Prod.snd = some (.transferred []))) :
    Counted kind b cond limit f d rs t := by
  have htake : ∀ i, moved ((t.exchanges rs).take i) = 0 := by
    intro i
    have hsplit := congrArg moved (List.take_append_drop i (t.exchanges rs))
    rw [moved_append, hmoved] at hsplit
    omega
  constructor
  · omega
  · omega
  · intro i req hi
    rw [htake i, Fd.feed_zero]
    exact hreq req (List.mem_of_getElem? hi)
  · rw [hmoved, Fd.feed_zero, hfd]
  · intro n hn
    rw [hmoved]
    exact hret n hn

/-- Every call keeps its books, by induction on the responses. -/
theorem loop_counted {limit : Nat} (hb : Unwrapped b cond limit) (f : Fd) (mem : Memory)
    (d : Nat) (rs : List Response) (hd : d ≤ limit)
    (hfits : ∀ x ∈ (kind.loop b cond f mem d rs).exchanges rs, Fits x) :
    Counted kind b cond limit f d rs (kind.loop b cond f mem d rs) := by
  revert hd hfits
  refine loop_induction (P := fun f _ d rs t => d ≤ limit → (∀ x ∈ t.exchanges rs, Fits x) →
    Counted kind b cond limit f d rs t) ?_ ?_ ?_ ?_ ?_ f mem d rs
  · intro f mem d rs h hd _
    exact counted_stop hd rfl rfl (by simp) (by simp [h])
  · intro f mem d h hd _
    exact counted_stop hd rfl rfl (by simp [h]) (by simp)
  · intro f mem d errno pos rs h hd _
    exact counted_stop hd rfl rfl (by simp [h]) (by simp)
  · intro f mem d rs h hread hd _
    exact counted_stop hd rfl rfl (by simp [h]) (by simp [hread, Trace.exchanges])
  · intro f mem d bytes rs t h hmore ih hd hfits
    simp only [exchanges_after, List.mem_cons, forall_eq_or_imp] at hfits
    obtain ⟨hfirst, hrest⟩ := hfits
    have hcount : bytes.length ≤ min (cond (bufferSize b) d) ((addresses b).length - d) := by
      simpa [Fits, iovSize_slice] using hfirst
    have hstep := hb.step d hd
    have hwrap : (d + bytes.length) % sizeMod = d + bytes.length := by
      have := hb.limit_lt
      exact Nat.mod_eq_of_lt (by omega)
    rw [hwrap] at ih
    have hi := ih (by omega) hrest
    constructor
    · have := hi.within
      simp only [exchanges_after, moved_cons, Response.count_transferred]
      omega
    · have := hi.room
      simp only [exchanges_after, moved_cons, Response.count_transferred]
      omega
    · intro i req hreq
      cases i with
      | zero =>
        simp only [Trace.after_requests, List.getElem?_cons_zero, Option.some.injEq] at hreq
        simp [h, hreq]
      | succ i =>
        have hi' := hi.request i req (by simpa using hreq)
        simpa [Fd.feed_feed, Nat.add_assoc] using hi'
    · rw [exchanges_after, moved_cons, Response.count_transferred, ← Fd.feed_feed]
      exact hi.fd
    · intro n hn
      obtain ⟨hval, hwhy⟩ := hi.ret n hn
      refine ⟨by simp [hval, Nat.add_assoc], hwhy.imp_right ?_⟩
      rintro ⟨hread, hlast⟩
      refine ⟨hread, ?_⟩
      rw [exchanges_after, List.getLast?_cons]
      cases hx : (t.exchanges rs).getLast? with
      | none => simp [hx] at hlast
      | some x => simpa [hx] using hlast

end Loop

end SyncIo
