import Arkio.Wire

/-!
# The echo servers

The handler of a connection in `sync_echo_server.cpp` and `coro_echo_server.cpp`:
it reads at least a byte into its buffer, writes all it has read, and starts
again, until the peer has sent everything. What it has sent is always a prefix of
what it has received, it is a buffer behind at most, and where it returns without
an error it has sent everything back. It never waits in vain: with every response
it gets closer to the next one.
-/
namespace EchoServer

open Bindings Buffer SyncIo Coro

variable {φ : Type}

/-- Where the handler is: at the top of its loop, or where a read or write has
returned. -/
inductive Conn where
  | top
  | readDone (ret : Result Nat)
  | writeDone (ret : Result Nat)

/-- The loop of `handle_conn`, and the inner loop of the blocking server. -/
def handleConn (s : φ) (buf : ConstBuffer) : Program φ Conn (Result Unit) := fun q store =>
  (store, match q with
    | .top => .io .read s [buf] (transferAtLeast 1) .readDone
    | .readDone (.error e) => .ret (.error e)
    | .readDone (.ok sz) =>
      if sz = 0 then .ret (.ok ()) else .io .write s [buffer buf sz] transferAll .writeDone
    | .writeDone (.error e) => .ret (.error e)
    | .writeDone (.ok _) => .compute .top)

/-- The handler that sees its errors as `see` shows them. -/
def echoing (see : Result Nat → Result Nat) (s : φ) (buf : ConstBuffer) :
    Program φ Conn (Result Unit) := fun q store =>
  (store, match q with
    | .top => .io .read s [buf] (transferAtLeast 1) fun ret => .readDone (see ret)
    | .readDone (.error e) => .ret (.error e)
    | .readDone (.ok sz) =>
      if sz = 0 then .ret (.ok ())
      else .io .write s [buffer buf sz] transferAll fun ret => .writeDone (see ret)
    | .writeDone (.error e) => .ret (.error e)
    | .writeDone (.ok _) => .compute .top)

theorem handleConn_eq (s : φ) (buf : ConstBuffer) : handleConn s buf = echoing id s buf := rfl

theorem recast_handleConn (s : φ) (buf : ConstBuffer) :
    recast (handleConn s buf) = echoing inSystem s buf := by
  funext q store
  cases q with
  | top => rfl
  | readDone ret =>
    cases ret with
    | error e => rfl
    | ok sz =>
      by_cases hsz : sz = 0
      · simp [recast, handleConn, echoing, hsz]
      · simp [recast, handleConn, echoing, hsz]
  | writeDone ret => cases ret <;> rfl

/-- Errors are seen as errors. -/
structure Sees (see : Result Nat → Result Nat) : Prop where
  ok : ∀ n, see (.ok n) = .ok n
  error : ∀ e, ∃ e', see (.error e) = .error e'

theorem sees_id : Sees id := ⟨fun _ => rfl, fun e => ⟨e, rfl⟩⟩

theorem sees_inSystem : Sees inSystem := ⟨fun _ => rfl, fun e => ⟨⟨e.value, .system⟩, rfl⟩⟩

/-- What was received and is not sent back is at most so much. -/
def Behind (n : Nat) (w : Wire) : Prop := ∃ rest, w.received = w.sent ++ rest ∧ rest.length ≤ n

theorem Behind.of_eq {n : Nat} {w : Wire} (h : w.received = w.sent) : Behind n w :=
  ⟨[], by simp [h], Nat.zero_le n⟩

/-- What the handler waits for: more bytes with all of them sent, or the kernel to
send the rest. -/
inductive Pending (n : Nat) (w : Wire) (req : Request) : Prop where
  | read (hop : req.op = .read) (hall : w.received = w.sent) (hroom : iovSize req.iov ≤ n)
  | write (hop : req.op = .write) (hrest : w.received = w.sent ++ gather req.iov w.mem)
      (hlen : iovSize req.iov ≤ n)

theorem Pending.behind {n : Nat} {w : Wire} {req : Request} (h : Pending n w req) :
    Behind n w := by
  cases h with
  | read hop hall hroom => exact .of_eq hall
  | write hop hrest hlen =>
    refine ⟨_, hrest, ?_⟩
    rwa [gather, List.length_map, length_iovAddresses]

/-- The answer to what the handler waits for. -/
theorem Pending.pass {n : Nat} {w : Wire} {x : Exchange} (h : Pending n w x.1) (hfits : Fits x) :
    Behind n (w.pass x) := by
  cases h with
  | read hop hall hroom =>
    refine ⟨x.2.bytes, ?_, hfits.trans hroom⟩
    simp [Wire.pass, hop, hall]
  | write hop hrest hlen =>
    refine ⟨(gather x.1.iov w.mem).drop x.2.count, ?_, ?_⟩
    · simp [Wire.pass, hop, hrest, accepted]
    · rw [List.length_drop, gather, List.length_map, length_iovAddresses]
      omega

/-- What the handler has done by then. -/
def Ready (buf : ConstBuffer) (w : Wire) : Conn → Prop
  | .top => w.received = w.sent
  | .readDone (.ok sz) => sz ≤ buf.size ∧ w.received = w.sent ++ (content w.mem [buf]).take sz
  | .readDone (.error _) => Behind buf.size w
  | .writeDone (.ok _) => w.received = w.sent
  | .writeDone (.error _) => Behind buf.size w

section Operations

variable {kind : IoOperation} {buf : ConstBuffer} {cond : CompletionCondition} {w : Wire} {f : Fd}
  {mem : Memory} {rs : List Response} {t : Trace}

theorem length_addresses_single (buf : ConstBuffer) : (addresses [buf]).length = buf.size := by
  simp

theorem unwrapped_single (hsize : buf.size < sizeMod) (cond : CompletionCondition) :
    Unwrapped [buf] cond (addresses [buf]).length :=
  unwrapped_of_lt cond (by rwa [length_addresses_single])

/-- The request that an operation is left with asks for what comes after those that
were answered. -/
theorem exists_pending (hsize : buf.size < sizeMod)
    (ht : kind.loop [buf] cond f mem 0 rs = t) (hfits : ∀ x ∈ t.exchanges rs, Fits x)
    (hret : t.ret = none) :
    ∃ front req f', t.requests = front ++ [req] ∧ front.length = rs.length ∧
      cond (bufferSize [buf]) (moved (t.exchanges rs)) ≠ 0 ∧
      req = kind.request [buf] cond f' (moved (t.exchanges rs)) := by
  have hlen : t.requests.length = rs.length + 1 := by
    subst ht
    exact loop_pending hret
  have hc : Counted kind [buf] cond (addresses [buf]).length f 0 rs t := by
    subst ht
    exact loop_counted (unwrapped_single hsize cond) f mem 0 rs (Nat.zero_le _) hfits
  rcases List.eq_nil_or_concat t.requests with hnil | ⟨front, req, hconcat⟩
  · simp [hnil] at hlen
  · rw [List.concat_eq_append] at hconcat
    have hfront : front.length = rs.length := by
      simpa [hconcat] using hlen
    have hall : (t.exchanges rs).take front.length = t.exchanges rs := by
      apply List.take_of_length_le
      simp [Trace.exchanges, hconcat, hfront]
    have hreq := hc.request front.length req (by simp [hconcat])
    rw [hall, Nat.zero_add] at hreq
    exact ⟨front, req, _, hconcat, hfront, hreq.1, hreq.2⟩

/-- How an operation of the handler ends, or what it waits for. -/
def Ends (buf : ConstBuffer) (after : Nat → Conn) (rs : List Response) (t : Trace) (w : Wire) :
    Prop :=
  match t.ret with
  | some (.ok n) => Ready buf w (after n)
  | some (.error _) => Behind buf.size w
  | none => ∃ front req, t.requests = front ++ [req] ∧ front.length = rs.length ∧
      Pending buf.size w req

/-- The read at the top of the loop. -/
theorem read_ends (hsize : buf.size < sizeMod) (hw : w.received = w.sent)
    (ht : IoOperation.read.loop [buf] (transferAtLeast 1) f w.mem 0 rs = t)
    (hfits : ∀ x ∈ t.exchanges rs, Fits x) :
    (w.after (t.exchanges rs)).mem = t.mem ∧
      Ends buf (fun n => .readDone (.ok n)) rs t (w.after (t.exchanges rs)) := by
  have hb := unwrapped_single hsize (transferAtLeast 1)
  have hnodup : (addresses [buf]).Nodup := nodup_addresses (List.pairwise_singleton _ _)
  have hwire : w.after (t.exchanges rs) =
      ⟨t.mem, w.received ++ delivered (t.exchanges rs), w.sent⟩ := by
    subst ht
    exact read_loop_wire f w 0 rs
  have hc : Counted .read [buf] (transferAtLeast 1) (addresses [buf]).length f 0 rs t := by
    subst ht
    exact loop_counted hb f w.mem 0 rs (Nat.zero_le _) hfits
  have hroom : moved (t.exchanges rs) ≤ buf.size := by
    have := hc.room
    rwa [length_addresses_single, Nat.sub_zero] at this
  have hfilled : (content t.mem [buf]).take (moved (t.exchanges rs)) =
      delivered (t.exchanges rs) := by
    subst ht
    rw [read_loop_content hb hnodup f w.mem 0 rs (Nat.zero_le _) hfits, List.take_zero,
      List.nil_append, ← length_delivered, List.take_left']
    rfl
  rw [hwire]
  refine ⟨rfl, ?_⟩
  unfold Ends
  split
  next n hret =>
    obtain ⟨hn, -⟩ := hc.ret n hret
    rw [Nat.zero_add] at hn
    subst hn
    exact ⟨hroom, by rw [hw, hfilled]⟩
  next e hret =>
    exact ⟨delivered (t.exchanges rs), by rw [hw], by rwa [length_delivered]⟩
  next hret =>
    obtain ⟨front, req, f', hconcat, hfront, hcond, hreq⟩ := exists_pending hsize ht hfits hret
    have hnone : moved (t.exchanges rs) = 0 := by
      by_contra hne
      apply hcond
      simp only [transferAtLeast]
      exact if_neg (by omega)
    have hempty : delivered (t.exchanges rs) = [] := by
      rw [← List.length_eq_zero_iff, length_delivered, hnone]
    refine ⟨front, req, hconcat, hfront, .read (by rw [hreq]; rfl) ?_ ?_⟩
    · rw [hempty, List.append_nil, hw]
    · rw [hreq, IoOperation.request_iov, iovSize_slice, length_addresses_single]
      omega

theorem content_buffer {sz : Nat} (hsz : sz ≤ buf.size) (mem : Memory) :
    content mem [buffer buf sz] = (content mem [buf]).take sz := by
  simp only [content, addresses_cons, addresses_nil, List.append_nil, ConstBuffer.addresses, buffer,
    ← List.map_take, Nat.min_eq_right hsz]
  rw [List.take_range'_of_length_ge hsz]

theorem transferAll_zero {n d : Nat} (h : transferAll n d = 0) : n ≤ d := by
  simp only [transferAll] at h
  split at h <;> omega

/-- The write of what was read. -/
theorem write_ends (hsize : buf.size < sizeMod) {sz : Nat}
    (hw : sz ≤ buf.size ∧ w.received = w.sent ++ (content w.mem [buf]).take sz)
    (ht : IoOperation.write.loop [buffer buf sz] transferAll f w.mem 0 rs = t)
    (hfits : ∀ x ∈ t.exchanges rs, Fits x) :
    (w.after (t.exchanges rs)).mem = t.mem ∧
      Ends buf (fun n => .writeDone (.ok n)) rs t (w.after (t.exchanges rs)) := by
  obtain ⟨hsz, hw⟩ := hw
  have hcut : (buffer buf sz).size = sz := Nat.min_eq_right hsz
  have hsize' : (buffer buf sz).size < sizeMod := by omega
  have hb := unwrapped_single hsize' transferAll
  have htotal : bufferSize [buffer buf sz] = sz := by
    rw [bufferSize_of_lt (by rwa [length_addresses_single]), length_addresses_single, hcut]
  have hc : Counted .write [buffer buf sz] transferAll (addresses [buffer buf sz]).length f 0 rs
      t := by
    subst ht
    exact loop_counted hb f w.mem 0 rs (Nat.zero_le _) hfits
  let rest := (content w.mem [buf]).take sz
  have hrest : rest.length = sz := by
    rw [List.length_take, length_content, length_addresses_single, Nat.min_eq_left hsz]
  have hwire : w.after (t.exchanges rs) =
      ⟨t.mem, w.received, w.sent ++ rest.take (moved (t.exchanges rs))⟩ := by
    have haccepted : (t.exchanges rs).flatMap (accepted w.mem) =
        rest.take (moved (t.exchanges rs)) := by
      subst ht
      rw [write_loop_accepted hb f w.mem 0 rs (Nat.zero_le _) hfits, List.drop_zero,
        content_buffer hsz]
    have hmem : t.mem = w.mem := by
      subst ht
      exact write_loop_mem f w.mem 0 rs
    rw [hmem, ← haccepted]
    subst ht
    exact write_loop_wire f w 0 rs
  rw [hwire]
  refine ⟨rfl, ?_⟩
  have hsplit : w.received = w.sent ++ rest.take (moved (t.exchanges rs)) ++
      rest.drop (moved (t.exchanges rs)) := by
    rw [List.append_assoc, List.take_append_drop, hw]
  unfold Ends
  split
  next n hret =>
    obtain ⟨hn, hwhy⟩ := hc.ret n hret
    rw [Nat.zero_add] at hn
    have hdone : transferAll (bufferSize [buffer buf sz]) n = 0 := by
      rcases hwhy with hcond | ⟨hread, -⟩
      · exact hcond
      · cases hread
    have hle := transferAll_zero hdone
    rw [htotal, hn] at hle
    have hall : rest.take (moved (t.exchanges rs)) = rest :=
      List.take_of_length_le (hrest.trans_le hle)
    rw [hall]
    exact hw
  next e hret =>
    refine ⟨rest.drop (moved (t.exchanges rs)), hsplit, ?_⟩
    rw [List.length_drop]
    omega
  next hret =>
    obtain ⟨front, req, f', hconcat, hfront, -, hreq⟩ := exists_pending hsize' ht hfits hret
    have hiov : gather req.iov t.mem = rest.drop (moved (t.exchanges rs)) := by
      have hmem : t.mem = w.mem := by
        subst ht
        exact write_loop_mem f w.mem 0 rs
      have hall : (rest.drop (moved (t.exchanges rs))).length ≤
          transferAll (bufferSize [buffer buf sz]) (moved (t.exchanges rs)) := by
        rw [List.length_drop, hrest, htotal]
        simp only [transferAll]
        split <;> omega
      rw [hreq, IoOperation.request_iov, gather_slice, hmem, content_buffer hsz]
      exact List.take_of_length_le hall
    refine ⟨front, req, hconcat, hfront, .write (by rw [hreq]; rfl) ?_ ?_⟩
    · rw [hiov]
      exact hsplit
    · rw [hreq, IoOperation.request_iov, iovSize_slice, length_addresses_single, hcut]
      omega

end Operations

section Handler

variable {see : Result Nat → Result Nat} {fd : φ} {buf : ConstBuffer} {s : Int}
  {rs : List Response} {mem : Memory} {w : World φ} {o : Outcome (Result Unit)}

/-- What the connection has seen when the program is there. -/
def wire (mem : Memory) (rs : List Response) (w : World φ) : Wire :=
  (Wire.start mem).after (w.exchanges rs)

/-- What the handler has done when it returned, blocks or is under way. -/
def Served (n : Nat) (rs : List Response) (wire : Wire) (w : World φ) :
    Outcome (Result Unit) → Prop
  | .returned (.ok _) => wire.received = wire.sent
  | .returned (.error _) => Behind n wire
  | .blocked => ∃ front req, w.requests = front ++ [req] ∧ front.length = rs.length ∧
      Pending n wire req
  | .running => Behind n wire

theorem Served.behind {n : Nat} {wire : Wire} (h : Served n rs wire w o) : Behind n wire := by
  cases o with
  | returned v =>
    cases v with
    | ok u => exact .of_eq h
    | error e => exact h
  | blocked =>
    obtain ⟨front, req, -, -, hpending⟩ := h
    exact hpending.behind
  | running => exact h

/-- The handler of the connection `s` is there: it has asked for nothing but its
socket, the replay has the memory, and it has served the connection so far. -/
structure Serving (s : Int) (n : Nat) (mem : Memory) (rs : List Response)
    (r : World φ × Outcome (Result Unit)) : Prop where
  asked : ∀ req ∈ r.1.requests, req.fildes = s
  served : Served n rs (wire mem rs r.1) r.1 r.2
  mem : (wire mem rs r.1).mem = r.1.store.mem

theorem Ready.behind {q : Conn} {w : Wire} (h : Ready buf w q) : Behind buf.size w := by
  cases q with
  | top => exact .of_eq h
  | readDone ret =>
    cases ret with
    | error e => exact h
    | ok sz =>
      refine ⟨(content w.mem [buf]).take sz, h.2, ?_⟩
      rw [List.length_take]
      exact (Nat.min_le_left _ _).trans h.1
  | writeDone ret =>
    cases ret with
    | error e => exact h
    | ok n => exact .of_eq h

/-- The state of the replay. -/
structure Tracks (fd : φ) (s : Int) (mem : Memory) (rs : List Response) (w : World φ) : Prop where
  answers : w.Answers rs
  fildes : (w.store.fds fd).fildes = s
  asked : ∀ req ∈ w.requests, req.fildes = s
  mem : (wire mem rs w).mem = w.store.mem

theorem Tracks.serving (hw : Tracks fd s mem rs w) {n : Nat} (h : Served n rs (wire mem rs w) w o) :
    Serving s n mem rs (w, o) :=
  ⟨hw.asked, h, hw.mem⟩

variable [DecidableEq φ]

/-- An operation of the handler, and what comes after it. -/
theorem io_serves {n : Nat} {q : Conn} {kind : IoOperation} {b : List ConstBuffer}
    {cond : CompletionCondition} {k : Result Nat → Conn} {g : Nat → Conn} {t : Trace}
    (ih : ∀ q w, Tracks fd s mem rs w → Ready buf (wire mem rs w) q →
      (∀ x ∈ (blocking (echoing see fd buf) n q w).1.exchanges rs, Fits x) →
      Serving s buf.size mem rs (blocking (echoing see fd buf) n q w))
    (hcmd : echoing see fd buf q w.store = (w.store, .io kind fd b cond k))
    (hok : ∀ n, k (.ok n) = g n)
    (herror : ∀ e wire, Behind buf.size wire → Ready buf wire (k (.error e)))
    (hw : Tracks fd s mem rs w)
    (ht : kind.loop b cond (w.store.fds fd) (wire mem rs w).mem 0 w.responses = t)
    (hends : (∀ x ∈ t.exchanges w.responses, Fits x) →
      ((wire mem rs w).after (t.exchanges w.responses)).mem = t.mem ∧
        Ends buf g w.responses t ((wire mem rs w).after (t.exchanges w.responses)))
    (hfits : ∀ x ∈ (blocking (echoing see fd buf) (n + 1) q w).1.exchanges rs, Fits x) :
    Serving s buf.size mem rs (blocking (echoing see fd buf) (n + 1) q w) := by
  rw [hw.mem] at ht
  rw [blocking_of_io hcmd (ht ▸ kind.sync_eq_loop _ b cond _ _)] at hfits ⊢
  have hwire : wire mem rs (w.during fd t) =
      (wire mem rs w).after (t.exchanges w.responses) := by
    rw [wire, exchanges_during hw.answers, Wire.after_append]
    rfl
  have hfildes : t.fd.fildes = s ∧ ∀ req ∈ t.requests, req.fildes = s := by
    subst ht
    rw [← hw.fildes]
    exact loop_fildes _ _ 0 _
  have hasked : ∀ req ∈ (w.during fd t).requests, req.fildes = s := by
    intro req hreq
    rcases List.mem_append.mp hreq with hreq | hreq
    · exact hw.asked req hreq
    · exact hfildes.2 req hreq
  -- the exchanges of the operation are among those of the run
  have hmine : ∀ w' : World φ, w.requests ++ t.requests <+: w'.requests →
      (∀ x ∈ w'.exchanges rs, Fits x) → ∀ x ∈ t.exchanges w.responses, Fits x := by
    intro w' hle hall x hx
    refine hall x ((exchanges_grow (w := w.during fd t) hle rs).subset ?_)
    rw [exchanges_during hw.answers]
    exact List.mem_append_right _ hx
  obtain hret | ⟨ret, hret⟩ : t.ret = none ∨ ∃ ret, t.ret = some ret := by
    cases t.ret <;> simp
  · simp only [hret] at hfits ⊢
    obtain ⟨hmem, hends⟩ := hends (hmine _ List.prefix_rfl hfits)
    simp only [Ends, hret] at hends
    rw [← hwire] at hmem hends
    obtain ⟨front, req, hconcat, hfront, hpending⟩ := hends
    refine ⟨hasked, ⟨w.requests ++ front, req, by simp [World.during, hconcat], ?_, hpending⟩, hmem⟩
    have hle := hw.answers.le
    rw [List.length_append, hfront, hw.answers.responses, List.length_drop]
    omega
  · simp only [hret] at hfits ⊢
    have hle := blocking_requests (echoing see fd buf) n (k ret) (w.during fd t)
    obtain ⟨hmem, hends⟩ := hends (hmine _ hle hfits)
    rw [← hwire] at hmem hends
    have hanswered : t.requests.length ≤ w.responses.length := by
      subst ht
      exact loop_answered hret
    have hready : Ready buf (wire mem rs (w.during fd t)) (k ret) := by
      cases ret with
      | ok m =>
        simp only [Ends, hret] at hends
        rwa [hok m]
      | error e =>
        simp only [Ends, hret] at hends
        exact herror e _ hends
    refine ih (k ret) _ ⟨answers_during hw.answers hanswered, ?_, hasked, hmem⟩ hready hfits
    simpa [World.during] using hfildes.1

/-- Wherever the handler is, what it does from there on. -/
theorem serves (hsees : Sees see) (hsize : buf.size < sizeMod) {n : Nat} {q : Conn}
    (hw : Tracks fd s mem rs w) (hq : Ready buf (wire mem rs w) q)
    (hfits : ∀ x ∈ (blocking (echoing see fd buf) n q w).1.exchanges rs, Fits x) :
    Serving s buf.size mem rs (blocking (echoing see fd buf) n q w) := by
  induction n generalizing q w with
  | zero => exact hw.serving hq.behind
  | succ n ih =>
    cases q with
    | top =>
      refine io_serves (g := fun n => .readDone (.ok n)) (fun q w => ih (q := q)) rfl ?_ ?_ hw
        rfl (read_ends hsize hq rfl) hfits
      · intro n
        rw [hsees.ok]
      · intro e wire hbehind
        obtain ⟨e', he⟩ := hsees.error e
        rwa [he]
    | readDone ret =>
      cases ret with
      | error e =>
        rw [blocking_of_ret rfl]
        exact hw.serving hq
      | ok sz =>
        by_cases hsz : sz = 0
        · subst hsz
          rw [blocking_of_ret rfl]
          have hall : (wire mem rs w).received = (wire mem rs w).sent := by
            simpa [Ready] using hq
          exact hw.serving hall
        · have hcmd : echoing see fd buf (.readDone (.ok sz)) w.store =
              (w.store, .io .write fd [buffer buf sz] transferAll fun ret =>
                .writeDone (see ret)) := by
            simp [echoing, hsz]
          refine io_serves (g := fun n => .writeDone (.ok n)) (fun q w => ih (q := q)) hcmd
            ?_ ?_ hw rfl (write_ends hsize hq rfl) hfits
          · intro n
            rw [hsees.ok]
          · intro e wire hbehind
            obtain ⟨e', he⟩ := hsees.error e
            rwa [he]
    | writeDone ret =>
      cases ret with
      | error e =>
        rw [blocking_of_ret rfl]
        exact hw.serving hq
      | ok m =>
        rw [blocking_of_compute rfl] at hfits ⊢
        exact ih hw hq hfits

/-- The handler from its start. -/
theorem serving_of_start (hsees : Sees see) (hsize : buf.size < sizeMod) (fd : φ)
    (store : Store φ) (rs : List Response) (n : Nat)
    (hfits : ∀ x ∈ (blocking (echoing see fd buf) n .top ⟨store, rs, []⟩).1.exchanges rs, Fits x) :
    Serving (store.fds fd).fildes buf.size store.mem rs
      (blocking (echoing see fd buf) n .top ⟨store, rs, []⟩) := by
  have hw : Tracks fd (store.fds fd).fildes store.mem rs ⟨store, rs, []⟩ :=
    ⟨⟨Nat.zero_le _, rfl⟩, rfl, nofun, rfl⟩
  exact serves hsees hsize hw rfl hfits

/-- Steps until the handler waits or returns, where so many responses are left. -/
def Conn.cost (left : Nat) : Conn → Nat
  | .top => 3 * left + 2
  | .readDone (.ok sz) => if sz = 0 then 1 else 3 * left + 4
  | .writeDone (.ok _) => 3 * left + 3
  | .readDone (.error _) | .writeDone (.error _) => 1

theorem Conn.cost_le (left : Nat) (q : Conn) : q.cost left ≤ 3 * left + 4 := by
  cases q with
  | top => simp [Conn.cost]
  | readDone ret =>
    cases ret with
    | error e => simp [Conn.cost]
    | ok sz =>
      simp only [Conn.cost]
      split <;> omega
  | writeDone ret => cases ret <;> simp [Conn.cost]

theorem Conn.cost_pos (left : Nat) (q : Conn) : 0 < q.cost left := by
  cases q with
  | top => simp [Conn.cost]
  | readDone ret =>
    cases ret with
    | error e => simp [Conn.cost]
    | ok sz =>
      simp only [Conn.cost]
      split <;> omega
  | writeDone ret => cases ret <;> simp [Conn.cost]

/-- Every round has a response less to wait for. -/
theorem blocking_ends (hsees : Sees see) {n : Nat} {q : Conn}
    (hn : q.cost w.responses.length ≤ n) :
    (blocking (echoing see fd buf) n q w).2 ≠ .running := by
  induction n generalizing q w with
  | zero =>
    have hpos := q.cost_pos w.responses.length
    omega
  | succ n ih =>
    cases q with
    | top =>
      obtain ⟨t, ht⟩ : ∃ t, IoOperation.read.sync (w.store.fds fd) [buf] (transferAtLeast 1)
        w.store.mem w.responses = t := ⟨_, rfl⟩
      rw [blocking_of_io rfl ht]
      rw [IoOperation.sync_eq_loop] at ht
      split
      next ret hret =>
        apply ih
        have hanswered : t.requests.length ≤ w.responses.length := by
          subst ht
          exact loop_answered hret
        have hleft : (w.during fd t).responses.length = w.responses.length - t.requests.length :=
          List.length_drop
        rw [hleft]
        simp only [Conn.cost] at hn
        rcases List.eq_nil_or_concat t.requests with hnil | ⟨front, req, hconcat⟩
        · have hzero : t.ret = some (.ok 0) := by
            subst ht
            exact loop_nothing hnil
          obtain rfl := Option.some.inj (hret.symm.trans hzero)
          simp only [hsees.ok, Conn.cost, if_true]
          omega
        · have hlen : t.requests.length = front.length + 1 := by simp [hconcat]
          have hcost := Conn.cost_le (w.responses.length - t.requests.length)
            (.readDone (see ret))
          omega
      next => simp
    | readDone ret =>
      cases ret with
      | error e =>
        rw [blocking_of_ret rfl]
        simp
      | ok sz =>
        by_cases hsz : sz = 0
        · subst hsz
          rw [blocking_of_ret rfl]
          simp
        · have hcmd : echoing see fd buf (.readDone (.ok sz)) w.store =
              (w.store, .io .write fd [buffer buf sz] transferAll fun ret =>
                .writeDone (see ret)) := by
            simp [echoing, hsz]
          obtain ⟨t, ht⟩ : ∃ t, IoOperation.write.sync (w.store.fds fd) [buffer buf sz]
            transferAll w.store.mem w.responses = t := ⟨_, rfl⟩
          rw [blocking_of_io hcmd ht]
          simp only [Conn.cost, hsz, if_false] at hn
          split
          next ret hret =>
            apply ih
            have hleft : (w.during fd t).responses.length =
                w.responses.length - t.requests.length := List.length_drop
            have hcost : Conn.cost (w.during fd t).responses.length (.writeDone (see ret)) ≤
                3 * (w.during fd t).responses.length + 3 := by
              cases see ret <;> simp [Conn.cost]
            exact hcost.trans (by omega)
          next => simp
    | writeDone ret =>
      cases ret with
      | error e =>
        rw [blocking_of_ret rfl]
        simp
      | ok m =>
        rw [blocking_of_compute rfl]
        apply ih
        simp only [Conn.cost] at hn ⊢
        omega

/-- The blocking handler, whatever the kernel answers. -/
theorem handleConn_serves (fd : φ) (buf : ConstBuffer) (store : Store φ) (rs : List Response)
    (n : Nat) (hsize : buf.size < sizeMod)
    (hfits : ∀ x ∈ (blocking (handleConn fd buf) n .top ⟨store, rs, []⟩).1.exchanges rs, Fits x) :
    Serving (store.fds fd).fildes buf.size store.mem rs
        (blocking (handleConn fd buf) n .top ⟨store, rs, []⟩) ∧
      (3 * rs.length + 2 ≤ n →
        (blocking (handleConn fd buf) n .top ⟨store, rs, []⟩).2 ≠ .running) :=
  ⟨serving_of_start sees_id hsize fd store rs n hfits,
    fun hn => blocking_ends (q := .top) sees_id hn⟩

/-- The peer sends three bytes in two pieces, and the kernel takes the first one byte
by byte. -/
def pieces : List Response :=
  [.transferred [1, 2], .transferred [0], .transferred [0], .transferred [3], .transferred [0],
    .transferred []]

theorem handleConn_serves_pieces :
    let r := blocking (handleConn () ⟨16, 4, by decide⟩) 20 .top
      ⟨⟨fun _ => 0, fun _ => ⟨5, none⟩⟩, pieces, []⟩
    Serving 5 4 (fun _ => 0) pieces r ∧ r.2 ≠ .running ∧
      (wire (fun _ => 0) pieces r.1).sent = [1, 2, 3] := by
  intro r
  have hserves := handleConn_serves () ⟨16, 4, by decide⟩ ⟨fun _ => 0, fun _ => ⟨5, none⟩⟩ pieces 20
    (by decide) (by decide +kernel)
  exact ⟨hserves.1, hserves.2 (by decide), by decide +kernel⟩

end Handler

end EchoServer
