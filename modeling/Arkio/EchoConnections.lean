import Arkio.AsyncTransfers
import Arkio.CoroProcesses
import Arkio.EchoServer

/-!
# Connections of the coroutine echo server

Any number of connections on one context, each with a coroutine of `handle_conn`
that has a buffer of 1024 bytes in its frame. In every run each of them has sent a
prefix of what it has received, and is at most 1024 bytes behind.
-/
namespace EchoServer

open Bindings Buffer SyncIo AsyncIo Coro LabelledMachine

/-- The connections, with their buffers and what the kernel has for them. -/
structure Connections (ι : Type) where
  buf : ι → ConstBuffer
  store : Store ι
  responses : ι → List Response
  fuel : Nat
  size : ∀ i, (buf i).size = 1024
  apart : ∀ i j, i ≠ j → (buf i).Apart (buf j)

section Region

variable {ι : Type}

/-- The buffer of a connection and its socket. -/
def region (i : ι) (buf : ConstBuffer) : Region ι := ⟨buf.Covers, (· = i)⟩

theorem buffer_covers {buf : ConstBuffer} {n a : Nat} (h : (buffer buf n).Covers a) :
    buf.Covers a := by
  simp only [ConstBuffer.Covers, buffer] at h ⊢
  omega

theorem handleConn_confined (i : ι) (buf : ConstBuffer) :
    Confined (region i buf) (handleConn i buf) where
  keeps q s := .refl _ s
  looks q s s' h := ⟨rfl, h⟩
  asks q s store kind fd b cond k hcmd := by
    have hwithin : ∀ b' : ConstBuffer, (∀ a, b'.Covers a → buf.Covers a) →
        Awaitable.Within ⟨kind, i, [b'], cond, none⟩ (region i buf) := by
      intro b' hb'
      refine ⟨rfl, ?_⟩
      intro b hb
      rw [List.mem_singleton.mp hb]
      exact hb'
    cases q with
    | top =>
      cases hcmd
      exact hwithin buf fun _ ha => ha
    | readDone ret =>
      cases ret with
      | error e => cases hcmd
      | ok sz =>
        simp only [handleConn] at hcmd
        split at hcmd
        · cases hcmd
        · cases hcmd
          exact hwithin (buffer buf sz) fun _ => buffer_covers
    | writeDone ret => cases ret <;> cases hcmd

end Region

variable {θ ι : Type} [DecidableEq θ] [DecidableEq ι]

def Connections.roots (C : Connections ι) : Roots ι ι Conn (Result Unit) where
  region i := region i (C.buf i)
  next i := handleConn i (C.buf i)
  entry _ := .top
  store := C.store
  responses := C.responses
  fuel := C.fuel
  confined i := handleConn_confined i (C.buf i)
  disjoint i j hne := by
    refine ⟨C.apart i j hne, ?_⟩
    rintro x rfl heq
    exact hne heq

abbrev Net (θ : Type) (C : Connections ι) :=
  Processes.World θ ι (Store ι) (fun i => Parked (C.roots.region i) Conn (Result Unit))
    (Fd × Request) Response

section Served

variable {τ : ι → Type} {C : Connections ι}
  {h : UringContext.History (ι × Fd × Request) (ι × Unit)}
  {w : Processes.World θ ι (Store ι) τ (Fd × Request) Response} {i : ι} {value : List (Result Unit)}

/-- The responses that the kernel has given to a connection so far. -/
def Connections.given (C : Connections ι)
    (w : Processes.World θ ι (Store ι) τ (Fd × Request) Response) (i : ι) : List Response :=
  (C.responses i).take ((C.responses i).length - (w.answers i).length)

/-- What a connection has seen. -/
def Connections.wire (C : Connections ι)
    (h : UringContext.History (ι × Fd × Request) (ι × Unit))
    (w : Processes.World θ ι (Store ι) τ (Fd × Request) Response) (i : ι) : Wire :=
  (Wire.start C.store.mem).after ((made h i).zip (C.given w i))

/-- A connection of the running server, whose handler has returned so much. `idle` is
the request that the kernel has and has not answered yet. -/
structure Echoes (C : Connections ι) (h : UringContext.History (ι × Fd × Request) (ι × Unit))
    (w : Processes.World θ ι (Store ι) τ (Fd × Request) Response) (i : ι)
    (value : List (Result Unit)) : Prop where
  fildes : ∀ req ∈ made h i, req.fildes = (C.store.fds i).fildes
  behind : Behind 1024 (C.wire h w i)
  mem : ∀ a, (C.buf i).Covers a → w.store.mem a = (C.wire h w i).mem a
  idle : ∀ req, (made h i)[(C.given w i).length]? = some req → Pending 1024 (C.wire h w i) req
  done : value = [.ok ()] → (C.wire h w i).received = (C.wire h w i).sent

section Blocking

variable {n k : Nat} {wb : Coro.World ι} {o : Coro.Outcome (Result Unit)}

omit [DecidableEq θ] [DecidableEq ι] in
theorem given_of_drop (h : w.answers i = (C.responses i).drop n) :
    C.given w i = (C.responses i).take n := by
  rw [Connections.given, h, List.length_drop]
  rcases Nat.le_total n (C.responses i).length with hle | hle
  · rw [Nat.sub_sub_self hle]
  · rw [Nat.sub_eq_zero_of_le hle, Nat.sub_zero, List.take_length, List.take_of_length_le hle]

/-- The blocking handler of the connection, by itself. -/
theorem serving_of_blocking (hb : C.roots.blocking i n k = (wb, o))
    (hfits : ∀ x ∈ wb.exchanges ((C.responses i).take n), Fits x) :
    Serving (C.store.fds i).fildes 1024 C.store.mem ((C.responses i).take n) (wb, o) := by
  have hsize : (C.buf i).size < sizeMod := by
    rw [C.size i]
    decide
  have hblocking : blocking (echoing inSystem i (C.buf i)) k .top
      ⟨C.store, (C.responses i).take n, []⟩ = (wb, o) := by
    rw [← recast_handleConn]
    exact hb
  have hserving := serving_of_start sees_inSystem hsize i C.store ((C.responses i).take n) k
  rw [hblocking, C.size i] at hserving
  exact hserving hfits

theorem asked_of_blocking (hb : C.roots.blocking i n k = (wb, o)) :
    wb.Asked ((C.responses i).take n) o := by
  have hstart : ({ store := C.store, responses := (C.responses i).take n, requests := [] } :
      Coro.World ι).Answers ((C.responses i).take n) := ⟨Nat.zero_le _, rfl⟩
  have hasked := blocking_asked (recast (handleConn i (C.buf i))) k Conn.top hstart
  have hblocking : blocking (recast (handleConn i (C.buf i))) k .top
      ⟨C.store, (C.responses i).take n, []⟩ = (wb, o) := hb
  rwa [hblocking] at hasked

end Blocking

theorem view_op (f : Fd) (req : Request) : (view f req).op = req.op := by
  unfold view
  split <;> rfl

theorem mem_zip_of_take {α β : Type} {l : List α} {rs : List β} {n : Nat} {x : α × β}
    (hx : x ∈ l.zip (rs.take n)) : x ∈ l.zip rs := by
  obtain ⟨k, hk⟩ := List.mem_iff_getElem?.mp hx
  obtain ⟨hl, hr⟩ := List.getElem?_zip_eq_some.mp hk
  have hlt : k < n := by
    by_contra hge
    rw [List.getElem?_take_eq_none (Nat.le_of_not_lt hge)] at hr
    cases hr
  rw [List.getElem?_take_of_lt hlt] at hr
  exact List.mem_iff_getElem?.mpr ⟨k, List.getElem?_zip_eq_some.mpr ⟨hl, hr⟩⟩

omit [DecidableEq θ] in
/-- Where the blocking handler is by itself, the connection is. -/
theorem Echoes.of_matches (hm : Matches C.roots h w i value)
    (hfits : ∀ x ∈ (made h i).zip (C.responses i), Fits x) : Echoes C h w i value := by
  cases hm with
  | fresh hstarted hvalue hanswers hstore hmade hv =>
    have hwire : C.wire h w i = Wire.start C.store.mem := by
      rw [Connections.wire, hmade]
      rfl
    constructor
    · simp [hmade]
    · rw [hwire]
      exact .of_eq rfl
    · intro a ha
      rw [hwire]
      exact hstore.mem a ha
    · simp [hmade]
    · simp [hvalue]
  | returned n k wb v hblocking hstarted hvalue hanswers hstore hmade hv =>
    have hwire : C.wire h w i = wire C.store.mem ((C.responses i).take n) wb := by
      rw [Connections.wire, hmade, given_of_drop hanswers]
      rfl
    have hle : wb.requests.length ≤ ((C.responses i).take n).length :=
      (asked_of_blocking hblocking).le
    have hs := serving_of_blocking hblocking fun x hx => hfits x <| by
      rw [hmade]
      exact mem_zip_of_take hx
    constructor
    · rw [hmade]
      exact hs.asked
    · rw [hwire]
      exact hs.served.behind
    · intro a ha
      rw [hwire, hs.mem]
      exact hstore.mem a ha
    · intro req hreq
      rw [hmade, given_of_drop hanswers, List.getElem?_eq_none hle] at hreq
      cases hreq
    · intro hdone
      rw [hvalue] at hdone
      cases hdone
      rw [hwire]
      exact hs.served
  | waiting n k wb q phase l hblocking hstarted hvalue hanswers hstore hlast hst hmade =>
    have hlen : wb.requests.length = ((C.responses i).take n).length + 1 :=
      asked_of_blocking hblocking
    have hexchanges : (made h i).zip ((C.responses i).take n) =
        wb.exchanges ((C.responses i).take n) := by
      rcases hmade with ⟨-, hmade⟩ | ⟨-, hmade⟩
      · have hlen' : (made h i).length = ((C.responses i).take n).length := by
          rw [← hmade, List.length_append] at hlen
          exact Nat.succ.inj hlen
        rw [World.exchanges, ← hmade, zip_append_drop, hlen', List.drop_length, List.zip_nil_right,
          List.append_nil]
      · rw [hmade]
        rfl
    have hwire : C.wire h w i = wire C.store.mem ((C.responses i).take n) wb := by
      rw [Connections.wire, given_of_drop hanswers, hexchanges]
      rfl
    have hs := serving_of_blocking hblocking fun x hx => hfits x <| by
      rw [← hexchanges] at hx
      exact mem_zip_of_take hx
    have hqueued : made h i <+: wb.requests := by
      rcases hmade with ⟨-, hmade⟩ | ⟨-, hmade⟩
      · exact ⟨_, hmade⟩
      · rw [hmade]
    constructor
    · intro req hreq
      exact hs.asked req (hqueued.subset hreq)
    · rw [hwire]
      exact hs.served.behind
    · intro a ha
      rw [hwire, hs.mem]
      exact hstore.mem a ha
    · intro req hreq
      obtain ⟨front, req', hconcat, hfront, hpending⟩ := hs.served
      rw [given_of_drop hanswers] at hreq
      have hreq' : wb.requests[((C.responses i).take n).length]? = some req := by
        obtain ⟨hlt, hget⟩ := List.getElem?_eq_some_iff.mp hreq
        rw [← hget]
        exact List.prefix_iff_getElem?.mp hqueued _ hlt
      have hlast' : wb.requests[((C.responses i).take n).length]? = some req' := by
        rw [← hfront, show wb.requests = front ++ [req'] from hconcat]
        exact List.getElem?_concat_length
      rw [hwire, ← Option.some.inj (hlast'.symm.trans hreq')]
      exact hpending
    · simp [hvalue]
  | answered n k wb q response l hblocking hresponse hstarted hvalue hanswers hstore hlast hst
      hmade =>
    have hresponse' : (C.responses i)[n]? = some response := hresponse
    have hgiven : C.given w i = (C.responses i).take n ++ [response] := by
      rw [given_of_drop hanswers, List.take_add_one, hresponse']
      rfl
    have hexchanged : ∀ x ∈ wb.exchanges ((C.responses i).take n), Fits x := by
      intro x hx
      apply hfits
      rw [hmade]
      exact mem_zip_of_take hx
    have hs := serving_of_blocking hblocking hexchanged
    obtain ⟨front, req, hconcat, hfront, hpending⟩ := hs.served
    have hconcat' : wb.requests = front ++ [req] := hconcat
    have hview : req = view q.1 q.2 := by
      obtain ⟨front', hlast⟩ := hlast
      exact List.singleton_inj.mp (List.append_inj' (hconcat'.symm.trans hlast) rfl).2
    have hzip : (made h i).zip (C.given w i) =
        wb.exchanges ((C.responses i).take n) ++ [(req, response)] := by
      rw [hmade, hgiven, World.exchanges, hconcat', List.zip_append hfront, zip_append_drop, hfront,
        List.drop_length, List.zip_nil_right, List.append_nil]
      rfl
    have hwire : C.wire h w i =
        (wire C.store.mem ((C.responses i).take n) wb).pass (req, response) := by
      rw [Connections.wire, hzip, Wire.after_append]
      rfl
    have hfit : Fits (req, response) := by
      have hmem : (req, response) ∈ (made h i).zip (C.given w i) := by
        rw [hzip]
        exact List.mem_append_right _ (List.mem_singleton_self _)
      exact hfits _ (mem_zip_of_take hmem)
    constructor
    · rw [hmade]
      exact hs.asked
    · rw [hwire]
      exact hpending.pass hfit
    · intro a ha
      rw [hwire, Wire.pass_mem, hs.mem, hview, view_op, view_iov]
      exact hstore.mem a ha
    · intro req' hreq'
      have hlen : (made h i).length ≤ (C.given w i).length := by
        rw [hmade, hgiven, hconcat', List.length_append, List.length_append, hfront]
        exact le_rfl
      rw [List.getElem?_eq_none hlen] at hreq'
      cases hreq'
    · simp [hvalue]

end Served

/-- The coroutine echo server, in every run. -/
theorem connections_echo {C : Connections ι}
    {h : UringContext.History (ι × Fd × Request) (ι × Unit)} {w : Net θ C}
    (hrun : Run (Processes.step C.roots.workload) Processes.Submits
      (Processes.start C.roots.workload) h w)
    (i : ι) (hfits : ∀ x ∈ (made h i).zip (C.responses i), Fits x) :
    Echoes C h w i (w.proc i).future :=
  .of_matches (coroutines_stand hrun i) hfits

section Example

/-- The first peer sends a byte and closes, the second one sends two, of which the
kernel takes one. -/
def twoPeers : Connections Bool where
  buf i := ⟨i.toNat * 1024, 1024, by cases i <;> decide⟩
  store := ⟨fun _ => 0, fun i => ⟨if i then 7 else 6, none⟩⟩
  responses i :=
    if i then [.transferred [8, 9], .transferred [0]]
    else [.transferred [7], .transferred [0], .transferred []]
  fuel := 12
  size _ := rfl
  apart i j hne := by
    cases i <;> cases j <;> first | exact absurd rfl hne | decide

/-- A user thread starts the coroutine of a connection. -/
def opening (i : Bool) : List (Processes.Action Unit Bool) :=
  .start (.user ()) i :: List.replicate 5 (.call (.user ()) .ok) ++ [.finish (.user ())]

/-- A request of a connection completes, its coroutine makes the next one, and the
loop submits that. -/
def round : List (Processes.Action Unit Bool) :=
  .complete 1 :: List.replicate 6 (.loop .ok) ++ List.replicate 5 (.call .loop .ok) ++
    .finish .loop :: List.replicate 3 (.loop .ok) ++ [.loop (.submitted 1)]

theorem exists_two_peers :
    ∃ (h : UringContext.History (Bool × Fd × Request) (Bool × Unit)) (w : Net Unit twoPeers),
      Run (Processes.step twoPeers.roots.workload) Processes.Submits
          (Processes.start twoPeers.roots.workload) h w ∧
        ((∀ i, ∀ x ∈ (made h i).zip (twoPeers.responses i), Fits x) ∧
          (w.proc false).future = [.ok ()] ∧ (twoPeers.wire h w false).sent = [7] ∧
          (twoPeers.wire h w true).received = [8, 9] ∧ (twoPeers.wire h w true).sent = [8]) := by
  apply exists_run_of_exec (List.replicate 5 (.call .loop .ok) ++ [.loop .ok] ++ opening false ++
    opening true ++ [.loop .ok, .loop .ok, .loop (.submitted 3)] ++ round ++ round ++ round ++
    round ++ .complete 1 :: List.replicate 9 (.loop .ok))
  decide +kernel

theorem connections_echo_two_peers :
    ∃ (h : UringContext.History (Bool × Fd × Request) (Bool × Unit)) (w : Net Unit twoPeers),
      (w.proc false).future = [.ok ()] ∧ (twoPeers.wire h w false).sent = [7] ∧
        (twoPeers.wire h w true).received = [8, 9] ∧ (twoPeers.wire h w true).sent = [8] ∧
        ∀ i, Echoes twoPeers h w i (w.proc i).future := by
  obtain ⟨h, w, hrun, hfits, hdone, hfalse, hreceived, hsent⟩ := exists_two_peers
  exact ⟨h, w, hdone, hfalse, hreceived, hsent, fun i => connections_echo hrun i (hfits i)⟩

end Example

end EchoServer
