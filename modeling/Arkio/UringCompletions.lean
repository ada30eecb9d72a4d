import Arkio.UringRouting
import Arkio.RingBuffer

/-!
# The completion ring

How `run` consumes completions, in single steps: `peek_batch_cqe` fills an array
of `owning_cqe_ref`s, the collecting loop reads the CQEs and resets the
references, and the array is destroyed. Every `seen()` of a reference that is not
null moves the head of the ring, whichever CQE it refers to. The kernel may post
between any two steps, as long as there is room.
-/
namespace UringCompletions

open Bindings LabelledMachine RingBuffer
open UringContext (Cqe batchSize)

variable {m : Nat}

/-- The completion side of `ring_`. The indices are `unsigned`. -/
abbrev CqRing (m : Nat) := Ring 32 m Cqe

/-- `owning_cqe_ref`: `cqe_`, and whether `parent_` points to the ring. -/
structure CqeRef (m : Nat) where
  cqe : Option (Slot m)
  parent : Bool
  deriving DecidableEq, Repr

/-- The default constructor, and what a move leaves behind. -/
def CqeRef.null : CqeRef m := ⟨none, false⟩

/-- `owning_cqe_ref{cqe, *this}`. -/
def CqeRef.owning (cqe : Slot m) : CqeRef m := ⟨some cqe, true⟩

/-- Where the loop thread stands. `it` is an index into `cqe_buffer`, `temp` the
temporary on the right of an assignment once it has been moved from. -/
inductive Pc (m : Nat) where
  | outside
  | peek
  | fill (peeked : List (Slot m)) (it : Nat)
  | fillTemp (peeked : List (Slot m)) (it : Nat) (temp : CqeRef m)
  | getData (it : Nat)
  | find (it : Nat) (cqe : Slot m) (tok : Nat)
  | toResult (it : Nat) (cqe : Slot m)
  | reset (it : Nat)
  | resetTemp (it : Nat) (temp : CqeRef m)
  | dispatch
  | destroy (alive : Nat)
  | faulted
  deriving DecidableEq, Repr

structure State (m : Nat) where
  ring : CqRing m
  buffer : List (CqeRef m)
  cqeEnd : Nat
  pc : Pc m

inductive Action where
  | next
  | peek (n : Nat)
  | find (found : Bool)
  | post (c : Cqe)
  deriving DecidableEq, Repr

inductive Event (m : Nat) where
  | posted (c : Cqe)
  | peeked (cqes : List (Slot m))
  | data (cqe : Slot m) (tok : Nat)
  | result (cqe : Slot m) (ret : Result Int)
  | seen (cqe : Slot m)
  deriving DecidableEq, Repr

abbrev Outcome (m : Nat) := Option (State m × List (Event m))

/-- The loop thread goes on, and touches nothing. -/
def State.goto (s : State m) (pc : Pc m) : State m × List (Event m) := ({ s with pc := pc }, [])

/-- `seen()`. A null reference does nothing; without a parent there is no ring. -/
def State.seen (s : State m) (ref : CqeRef m) (pc : Pc m) : State m × List (Event m) :=
  match ref.cqe with
  | none => s.goto pc
  | some cqe =>
    if ref.parent then ({ s with ring := s.ring.advance, pc := pc }, [.seen cqe])
    else s.goto .faulted

/-- `cqe_buffer[it] = other`: the old reference is marked, `other` is moved, and
a null reference stays in its place. -/
def State.assign (s : State m) (it : Nat) (other : CqeRef m) (pc : CqeRef m → Pc m) :
    State m × List (Event m) :=
  match s.buffer[it]? with
  | some old => { s with buffer := s.buffer.set it other }.seen old (pc .null)
  | none => s.goto .faulted

/-- The next step of the loop thread. Only `peek` and `find` wait for an answer. -/
def nextStep (s : State m) : Outcome m :=
  match s.pc with
  | .outside => some ({ s with buffer := List.replicate batchSize .null, pc := .peek }, [])
  | .peek => none
  | .fill peeked it =>
    match peeked[it]? with
    | some cqe => some (s.assign it (.owning cqe) (.fillTemp peeked it))
    | none => some ({ s with cqeEnd := it, pc := .getData 0 }, [])
  | .fillTemp peeked it temp => some (s.seen temp (.fill peeked (it + 1)))
  | .getData it =>
    if it = s.cqeEnd then some (s.goto .dispatch)
    else
      match s.buffer[it]?.bind CqeRef.cqe with
      | some cqe =>
        let tok := (s.ring.entries cqe).userData
        some ({ s with pc := .find it cqe tok }, [.data cqe tok])
      | none => some (s.goto .faulted)
  | .find _ _ _ => none
  | .toResult it cqe =>
    some ({ s with pc := .reset it }, [.result cqe (Bindings.toResult (s.ring.entries cqe).res)])
  | .reset it => some (s.assign it .null (.resetTemp it))
  | .resetTemp it temp => some (s.seen temp (.getData (it + 1)))
  | .dispatch => some (s.goto (.destroy batchSize))
  | .destroy 0 => some (s.goto .outside)
  | .destroy (alive + 1) =>
    match s.buffer[alive]? with
    | some ref => some (s.seen ref (.destroy alive))
    | none => some (s.goto .faulted)
  | .faulted => none

/-- `io_uring_peek_batch_cqe` answers with some CQEs, the oldest ones, and
`callbacks_.find` with either. -/
def step (s : State m) : Action → Outcome m
  | .next => nextStep s
  | .peek n =>
    match s.pc with
    | .peek =>
      if n ≤ min batchSize s.ring.ready then
        let peeked := slots s.ring.head n
        some ({ s with pc := .fill peeked 0 }, [.peeked peeked])
      else none
    | _ => none
  | .find found =>
    match s.pc with
    | .find it cqe _ => some (s.goto (if found then .toResult it cqe else .reset it))
    | _ => none
  | .post c =>
    if s.ring.ready < 2 ^ m then some ({ s with ring := s.ring.push c }, [.posted c]) else none

/-- `run` is about to make its next array. -/
def start (r : CqRing m) : State m := ⟨r, [], 0, .outside⟩

/-- The CQEs the kernel posted. -/
def posted (h : List (Event m)) : List Cqe :=
  h.filterMap fun e => match e with | .posted c => some c | _ => none

/-- Whether it is the kernel's event. -/
def Event.isPosted : Event m → Bool
  | .posted _ => true
  | _ => false

/-- What the loop thread did. -/
def consumption (h : List (Event m)) : List (Event m) := h.filter (!·.isPosted)

/-- How often the head was moved. -/
def released (h : List (Event m)) : Nat :=
  h.countP fun e => match e with | .seen _ => true | _ => false

@[simp] theorem posted_append (h h' : List (Event m)) :
    posted (h ++ h') = posted h ++ posted h' := List.filterMap_append

@[simp] theorem consumption_append (h h' : List (Event m)) :
    consumption (h ++ h') = consumption h ++ consumption h' := List.filter_append h h'

@[simp] theorem released_append (h h' : List (Event m)) :
    released (h ++ h') = released h + released h' := List.countP_append

/-- One CQE is consumed: its data is read, its result if there is a callback for
it, and then it is released. -/
def round (i : BitVec 32) (c : Cqe) (found : Bool) : List (Event m) :=
  .data (slot i) c.userData ::
    ((if found then [.result (slot i) (toResult c.res)] else []) ++ [.seen (slot i)])

/-- Successive CQEs are consumed, from the index on. -/
def rounds (i : BitVec 32) : List (Cqe × Bool) → List (Event m)
  | [] => []
  | (c, found) :: batch => round i c found ++ rounds (after i 1) batch

/-- An iteration of `run`: as many CQEs are consumed as were peeked. -/
def iteration (i : BitVec 32) (batch : List (Cqe × Bool)) : List (Event m) :=
  .peeked (slots i batch.length) :: rounds i batch

/-- Iterations of `run` one after another. -/
def iterations (i : BitVec 32) : List (List (Cqe × Bool)) → List (Event m)
  | [] => []
  | batch :: batches => iteration i batch ++ iterations (after i batch.length) batches

theorem rounds_append (i : BitVec 32) (l l' : List (Cqe × Bool)) :
    (rounds i (l ++ l') : List (Event m)) = rounds i l ++ rounds (after i l.length) l' := by
  induction l generalizing i with
  | nil => simp [rounds]
  | cons p l ih =>
    obtain ⟨c, found⟩ := p
    simp [rounds, ih, after_after, Nat.add_comm]

theorem iterations_append (i : BitVec 32) (l l' : List (List (Cqe × Bool))) :
    (iterations i (l ++ l') : List (Event m)) =
      iterations i l ++ iterations (after i l.flatten.length) l' := by
  induction l generalizing i with
  | nil => simp [iterations]
  | cons batch l ih => simp [iterations, ih, after_after]

theorem released_round (i : BitVec 32) (c : Cqe) (found : Bool) :
    released (round i c found : List (Event m)) = 1 := by
  cases found <;> rfl

theorem released_rounds (i : BitVec 32) (l : List (Cqe × Bool)) :
    released (rounds i l : List (Event m)) = l.length := by
  induction l generalizing i with
  | nil => rfl
  | cons p l ih => rw [rounds, released_append, released_round, ih, List.length_cons, Nat.add_comm]

theorem released_consumption (h : List (Event m)) : released (consumption h) = released h := by
  rw [released, consumption, List.countP_filter]
  refine List.countP_congr fun e _ => ?_
  cases e <;> simp [Event.isPosted]

/-- The references from `lo` on and below `hi` own the CQEs that lie so far
behind the index `i`; the others are null. -/
def Holds (buffer : List (CqeRef m)) (i : BitVec 32) (lo hi : Nat) : Prop :=
  ∀ j < batchSize, buffer[j]? =
    some (if lo ≤ j ∧ j < hi then .owning (slot (after i j)) else .null)

theorem holds_replicate (i : BitVec 32) (n : Nat) :
    Holds (List.replicate batchSize .null : List (CqeRef m)) i n n := by
  intro j hj
  rw [List.getElem?_replicate_of_lt hj, if_neg (by omega)]

theorem Holds.lt_length {buffer : List (CqeRef m)} {i : BitVec 32} {lo hi j : Nat}
    (hb : Holds buffer i lo hi) (hj : j < batchSize) : j < buffer.length :=
  (List.getElem?_eq_some_iff.mp (hb j hj)).1

theorem Holds.set_owning {buffer : List (CqeRef m)} {i : BitVec 32} {j : Nat}
    (hb : Holds buffer i 0 j) (hj : j < batchSize) :
    Holds (buffer.set j (.owning (slot (after i j)))) i 0 (j + 1) := by
  intro k hk
  rw [List.getElem?_set, if_pos (hb.lt_length hj)]
  split
  next heq => rw [← heq, if_pos (by omega)]
  next hne =>
    rw [hb k hk]
    congr 2
    simp only [eq_iff_iff]
    omega

theorem Holds.set_null {buffer : List (CqeRef m)} {i : BitVec 32} {lo hi : Nat}
    (hb : Holds buffer i lo hi) (hlo : lo < batchSize) :
    Holds (buffer.set lo .null) i (lo + 1) hi := by
  intro k hk
  rw [List.getElem?_set, if_pos (hb.lt_length hlo)]
  split
  next heq => rw [← heq, if_neg (by omega)]
  next hne =>
    rw [hb k hk]
    congr 2
    simp only [eq_iff_iff]
    omega

/-- The references of the CQEs that are still to be consumed are in the array. -/
structure Collecting (i : BitVec 32) (buffer : List (CqeRef m)) (cqeEnd it total : Nat) : Prop where
  cqeEnd : cqeEnd = total
  buffer : Holds buffer i it total

/-- The events of an iteration that is under way. -/
def begun (i : BitVec 32) (taken : List (Cqe × Bool)) (left : List Cqe) : List (Event m) :=
  .peeked (slots i (taken.length + left.length)) :: rounds i taken

theorem begun_nil (i : BitVec 32) (left : List Cqe) :
    (begun i [] left : List (Event m)) = [.peeked (slots i left.length)] := by
  simp [begun, rounds]

theorem begun_append (i : BitVec 32) (taken : List (Cqe × Bool)) (c : Cqe) (found : Bool)
    (left : List Cqe) :
    (begun i (taken ++ [(c, found)]) left : List (Event m)) =
      begun i taken (c :: left) ++ round (after i taken.length) c found := by
  have hlength : taken.length + 1 + left.length = taken.length + (left.length + 1) := by omega
  simp [begun, rounds_append, rounds, hlength]

/-- The place of a run in its current iteration, which began at the index `i`:
the CQEs consumed so far, those that were peeked with them, and the events. -/
inductive Place (i : BitVec 32) (pc : Pc m) (buffer : List (CqeRef m)) (cqeEnd : Nat) :
    List (Cqe × Bool) → List Cqe → List (Event m) → Prop where
  | outside (hpc : pc = .outside) : Place i pc buffer cqeEnd [] [] []
  | peek (hpc : pc = .peek) (hbuf : Holds buffer i 0 0) : Place i pc buffer cqeEnd [] [] []
  | fill (left : List Cqe) (it : Nat) (hpc : pc = .fill (slots i left.length) it)
      (hit : it ≤ left.length) (hbuf : Holds buffer i 0 it) :
      Place i pc buffer cqeEnd [] left [.peeked (slots i left.length)]
  | fillTemp (left : List Cqe) (it : Nat)
      (hpc : pc = .fillTemp (slots i left.length) it .null)
      (hit : it < left.length) (hbuf : Holds buffer i 0 (it + 1)) :
      Place i pc buffer cqeEnd [] left [.peeked (slots i left.length)]
  | getData (taken : List (Cqe × Bool)) (left : List Cqe) (hpc : pc = .getData taken.length)
      (hcol : Collecting i buffer cqeEnd taken.length (taken.length + left.length)) :
      Place i pc buffer cqeEnd taken left (begun i taken left)
  | find (taken : List (Cqe × Bool)) (c : Cqe) (left : List Cqe)
      (hpc : pc = .find taken.length (slot (after i taken.length)) c.userData)
      (hcol : Collecting i buffer cqeEnd taken.length (taken.length + (c :: left).length)) :
      Place i pc buffer cqeEnd taken (c :: left)
        (begun i taken (c :: left) ++ [.data (slot (after i taken.length)) c.userData])
  | toResult (taken : List (Cqe × Bool)) (c : Cqe) (left : List Cqe)
      (hpc : pc = .toResult taken.length (slot (after i taken.length)))
      (hcol : Collecting i buffer cqeEnd taken.length (taken.length + (c :: left).length)) :
      Place i pc buffer cqeEnd taken (c :: left)
        (begun i taken (c :: left) ++ [.data (slot (after i taken.length)) c.userData])
  | reset (taken : List (Cqe × Bool)) (c : Cqe) (found : Bool) (left : List Cqe)
      (hpc : pc = .reset taken.length)
      (hcol : Collecting i buffer cqeEnd taken.length (taken.length + (c :: left).length)) :
      Place i pc buffer cqeEnd taken (c :: left)
        (begun i taken (c :: left) ++ .data (slot (after i taken.length)) c.userData ::
          (if found then [.result (slot (after i taken.length)) (toResult c.res)] else []))
  | resetTemp (taken : List (Cqe × Bool)) (left : List Cqe) (it : Nat)
      (hit : taken.length = it + 1) (hpc : pc = .resetTemp it .null)
      (hcol : Collecting i buffer cqeEnd taken.length (taken.length + left.length)) :
      Place i pc buffer cqeEnd taken left (begun i taken left)
  | dispatch (taken : List (Cqe × Bool)) (hpc : pc = .dispatch)
      (hbuf : Holds buffer i taken.length taken.length) :
      Place i pc buffer cqeEnd taken [] (begun i taken [])
  | destroy (taken : List (Cqe × Bool)) (alive : Nat) (halive : alive ≤ batchSize)
      (hpc : pc = .destroy alive) (hbuf : Holds buffer i taken.length taken.length) :
      Place i pc buffer cqeEnd taken [] (begun i taken [])

/-- What a run owes the ring it began with, `r`, after finished iterations and in
one that is under way since the index `i`. -/
structure Ledger (r : CqRing m) (h : List (Event m)) (ring : CqRing m)
    (done : List (List (Cqe × Bool))) (i : BitVec 32) (taken : List (Cqe × Bool))
    (left : List Cqe) (cur : List (Event m)) : Prop where
  wellFormed : ring.WellFormed
  start : i = after r.head done.flatten.length
  head : ring.head = after i taken.length
  queue : r.contents ++ posted h =
    done.flatten.map Prod.fst ++ taken.map Prod.fst ++ ring.contents
  small : ∀ batch ∈ done, batch.length ≤ batchSize
  fits : taken.length + left.length ≤ batchSize
  oldest : left <+: ring.contents
  events : consumption h = iterations r.head done ++ cur

section Ledger

variable {r ring : CqRing m} {h : List (Event m)} {done : List (List (Cqe × Bool))}
  {i : BitVec 32} {taken : List (Cqe × Bool)} {left : List Cqe} {cur : List (Event m)}

theorem Ledger.silent (hl : Ledger r h ring done i taken left cur) :
    Ledger r (h ++ []) ring done i taken left cur := by
  rw [List.append_nil]
  exact hl

/-- The loop thread reads. -/
theorem Ledger.emit (hl : Ledger r h ring done i taken left cur) {x : Event m}
    (hx : x.isPosted = false) : Ledger r (h ++ [x]) ring done i taken left (cur ++ [x]) := by
  have hposted : posted [x] = [] := by
    cases x <;> first | rfl | cases hx
  refine ⟨hl.wellFormed, hl.start, hl.head, ?_, hl.small, hl.fits, hl.oldest, ?_⟩
  · rw [posted_append, hposted, List.append_nil]
    exact hl.queue
  · rw [consumption_append, hl.events, List.append_assoc]
    congr 2
    simp [consumption, hx]

/-- The kernel appends, and the CQEs that were peeked stay the oldest ones. -/
theorem Ledger.post (hl : Ledger r h ring done i taken left cur) (c : Cqe)
    (hroom : ring.ready < 2 ^ m) :
    Ledger r (h ++ [.posted c]) (ring.push c) done i taken left cur := by
  have hpush := Ring.contents_push c hl.wellFormed hroom
  refine ⟨hl.wellFormed.push c hroom, hl.start, hl.head, ?_, hl.small, hl.fits, ?_, ?_⟩
  · rw [posted_append, ← List.append_assoc, hl.queue, hpush, List.append_assoc]
    rfl
  · rw [hpush]
    exact hl.oldest.trans (List.prefix_append _ _)
  · rw [consumption_append, hl.events]
    exact List.append_nil _

/-- A new iteration peeks the oldest CQEs. -/
theorem Ledger.peek (hl : Ledger r h ring done i [] [] []) {n : Nat}
    (hn : n ≤ min batchSize ring.ready) :
    Ledger r (h ++ [.peeked (slots i n)]) ring done i [] (ring.contents.take n)
      [.peeked (slots i n)] := by
  have hwider : Ledger r h ring done i [] (ring.contents.take n) [] := by
    refine ⟨hl.wellFormed, hl.start, hl.head, hl.queue, hl.small, ?_, List.take_prefix _ _,
      hl.events⟩
    simp
    omega
  exact hwider.emit rfl

theorem Ledger.front {c : Cqe} (hl : Ledger r h ring done i taken (c :: left) cur) :
    0 < ring.ready ∧ ring.entries (slot (after i taken.length)) = c ∧
      left <+: ring.advance.contents := by
  have hsome : 0 < ring.ready := by
    have := hl.oldest.length_le
    simp only [List.length_cons, Ring.length_contents] at this
    omega
  have hfirst := hl.oldest
  rw [Ring.contents_eq_cons hsome, List.cons_prefix_cons, hl.head] at hfirst
  exact ⟨hsome, hfirst.1.symm, hfirst.2⟩

theorem Ledger.lt_batchSize {c : Cqe} (hl : Ledger r h ring done i taken (c :: left) cur) :
    taken.length < batchSize := by
  have := hl.fits
  simp only [List.length_cons] at this
  omega

/-- The next reference owns the oldest CQE. -/
theorem Ledger.owning {c : Cqe} {buffer : List (CqeRef m)} {cqeEnd : Nat}
    (hl : Ledger r h ring done i taken (c :: left) cur)
    (hcol : Collecting i buffer cqeEnd taken.length (taken.length + (c :: left).length)) :
    buffer[taken.length]? = some (.owning (slot (after i taken.length))) := by
  rw [hcol.buffer _ hl.lt_batchSize, if_pos (by simp)]

/-- The oldest CQE is released, and with it leaves the queue. -/
theorem Ledger.release {c : Cqe} {cqe : Slot m}
    (hl : Ledger r h ring done i taken (c :: left) cur) (found : Bool) :
    Ledger r (h ++ [.seen cqe]) ring.advance done i (taken ++ [(c, found)]) left
      (cur ++ [.seen cqe]) := by
  obtain ⟨hsome, hfirst, hleft⟩ := hl.front
  have hseen := hl.emit (x := .seen cqe) rfl
  refine ⟨hl.wellFormed.advance hsome, hl.start, ?_, ?_, hl.small, ?_, hleft, hseen.events⟩
  · rw [Ring.head_advance, hl.head, after_after, List.length_append, List.length_singleton]
  · rw [hseen.queue, Ring.contents_eq_cons hsome, hl.head, hfirst]
    simp
  · have := hl.fits
    simp only [List.length_append, List.length_cons, List.length_nil] at this ⊢
    omega

/-- The iteration is over, and the next one begins behind it. -/
theorem Ledger.close (hl : Ledger r h ring done i taken [] (begun i taken [])) :
    Ledger r h ring (done ++ [taken]) (after i taken.length) [] [] [] := by
  have hstart := hl.start
  refine ⟨hl.wellFormed, ?_, hl.head.trans (after_zero _).symm, ?_, ?_, Nat.zero_le _,
    List.nil_prefix, ?_⟩
  · rw [hstart, after_after]
    simp
  · rw [hl.queue]
    simp
  · intro batch hbatch
    rcases List.mem_append.mp hbatch with hbatch | hbatch
    · exact hl.small batch hbatch
    · rw [List.mem_singleton.mp hbatch]
      exact hl.fits
  · rw [hl.events, iterations_append, hstart]
    simp [iterations, iteration, begun]

end Ledger

/-- A run is exact so far: its ledger is kept, and it is somewhere in an iteration. -/
def Exact (r : CqRing m) (h : List (Event m)) (s : State m) : Prop :=
  ∃ done i taken left cur, Ledger r h s.ring done i taken left cur ∧
    Place i s.pc s.buffer s.cqeEnd taken left cur

theorem assign_of_getElem? {s : State m} {it : Nat} {old : CqeRef m} (other : CqeRef m)
    (pc : CqeRef m → Pc m) (hold : s.buffer[it]? = some old) :
    s.assign it other pc = { s with buffer := s.buffer.set it other }.seen old (pc .null) := by
  rw [State.assign, hold]

/-- An upper bound of the steps to the end of the iteration. -/
def remaining (s : State m) : Nat :=
  match s.pc with
  | .outside => 0
  | .peek => batchSize + 5
  | .fill peeked it => batchSize + 4 + 5 * peeked.length + 2 * (peeked.length - it)
  | .fillTemp peeked it _ => batchSize + 3 + 5 * peeked.length + 2 * (peeked.length - it)
  | .getData it => batchSize + 3 + 5 * (s.cqeEnd - it)
  | .find it _ _ => batchSize + 2 + 5 * (s.cqeEnd - it)
  | .toResult it _ => batchSize + 1 + 5 * (s.cqeEnd - it)
  | .reset it => batchSize + 5 * (s.cqeEnd - it)
  | .resetTemp it _ => batchSize - 1 + 5 * (s.cqeEnd - it)
  | .dispatch => batchSize + 2
  | .destroy alive => alive + 1
  | .faulted => 0

/-- The loop thread goes on, exactly and towards the end of the iteration. -/
def Advances (r : CqRing m) (h : List (Event m)) (s : State m) : Prop :=
  ∃ s' e, nextStep s = some (s', e) ∧ Exact r (h ++ e) s' ∧
    (s.pc = .outside ∨ remaining s' < remaining s)

section Advances

variable {r : CqRing m} {h : List (Event m)} {s : State m} {done : List (List (Cqe × Bool))}
  {i : BitVec 32} {taken : List (Cqe × Bool)} {left : List Cqe} {cur : List (Event m)}

/-- `*(it++) = owning_cqe_ref{peeked[i], *this}`: the reference there was null. -/
theorem Ledger.advances_fill {it : Nat} (hl : Ledger r h s.ring done i [] left cur)
    (hcur : cur = [.peeked (slots i left.length)]) (hpc : s.pc = .fill (slots i left.length) it)
    (hlt : it < left.length) (hbuf : Holds s.buffer i 0 it) : Advances r h s := by
  subst hcur
  have hfits : it < batchSize := by
    have := hl.fits
    simp only [List.length_nil] at this
    omega
  have hnull : s.buffer[it]? = some .null := by
    rw [hbuf it hfits, if_neg (by omega)]
  have hnext : nextStep s = some ({ s with
      buffer := s.buffer.set it (.owning (slot (after i it))) }.goto
        (.fillTemp (slots i left.length) it .null)) := by
    simp only [nextStep, hpc, getElem?_slots hlt, assign_of_getElem? _ _ hnull]
    rfl
  refine ⟨_, _, hnext, ?_, .inr ?_⟩
  · exact ⟨done, i, [], left, _, hl.silent, .fillTemp left it rfl hlt (hbuf.set_owning hfits)⟩
  · simp only [remaining, hpc]
    omega

/-- The array is filled, and `cqe_end` stands behind the last reference. -/
theorem Ledger.advances_filled (hl : Ledger r h s.ring done i [] left cur)
    (hcur : cur = [.peeked (slots i left.length)])
    (hpc : s.pc = .fill (slots i left.length) left.length)
    (hbuf : Holds s.buffer i 0 left.length) : Advances r h s := by
  subst hcur
  have hnone : (slots i left.length : List (Slot m))[left.length]? = none := by simp
  have hnext : nextStep s = some ({ s with cqeEnd := left.length, pc := .getData 0 }, []) := by
    simp only [nextStep, hpc, hnone]
  refine ⟨_, _, hnext, ?_, .inr ?_⟩
  · refine ⟨done, i, [], left, _, hl.silent, ?_⟩
    rw [← begun_nil]
    refine .getData [] left rfl ⟨?_, ?_⟩
    · exact (Nat.zero_add _).symm
    · rw [List.length_nil, Nat.zero_add]
      exact hbuf
  · simp only [remaining, hpc, length_slots]
    omega

/-- The data is read from the slot of the head, which the kernel leaves alone. -/
theorem Ledger.nextStep_getData {c : Cqe} (hl : Ledger r h s.ring done i taken (c :: left) cur)
    (hpc : s.pc = .getData taken.length)
    (hcol : Collecting i s.buffer s.cqeEnd taken.length (taken.length + (c :: left).length)) :
    nextStep s = some ({ s with pc := .find taken.length (slot (after i taken.length)) c.userData },
      [.data (slot (after i taken.length)) c.userData]) := by
  have hne : taken.length ≠ s.cqeEnd := by
    rw [hcol.cqeEnd, List.length_cons]
    omega
  simp only [nextStep, hpc, if_neg hne, hl.owning hcol, CqeRef.owning, Option.bind_some,
    hl.front.2.1]

theorem Ledger.advances_getData {c : Cqe}
    (hl : Ledger r h s.ring done i taken (c :: left) (begun i taken (c :: left)))
    (hpc : s.pc = .getData taken.length)
    (hcol : Collecting i s.buffer s.cqeEnd taken.length (taken.length + (c :: left).length)) :
    Advances r h s := by
  refine ⟨_, _, hl.nextStep_getData hpc hcol, ?_, .inr ?_⟩
  · exact ⟨done, i, taken, c :: left, _, hl.emit rfl, .find taken c left rfl hcol⟩
  · simp only [remaining, hpc]
    omega

/-- `*it = {}` marks the reference that is there, and leaves a null one. -/
theorem nextStep_reset {it : Nat} {cqe : Slot m} (hpc : s.pc = .reset it)
    (howning : s.buffer[it]? = some (.owning cqe)) :
    nextStep s = some ({ s with
      buffer := s.buffer.set it .null
      ring := s.ring.advance
      pc := .resetTemp it .null }, [.seen cqe]) := by
  simp only [nextStep, hpc, assign_of_getElem? _ _ howning]
  rfl

theorem Ledger.advances_reset {c : Cqe} (found : Bool)
    (hl : Ledger r h s.ring done i taken (c :: left) cur)
    (hcur : cur ++ [.seen (slot (after i taken.length))] =
      begun i taken (c :: left) ++ round (after i taken.length) c found)
    (hpc : s.pc = .reset taken.length)
    (hcol : Collecting i s.buffer s.cqeEnd taken.length (taken.length + (c :: left).length)) :
    Advances r h s := by
  have hlength : (taken ++ [(c, found)]).length + left.length =
      taken.length + (c :: left).length := by
    simp only [List.length_append, List.length_cons, List.length_nil]
    omega
  refine ⟨_, _, nextStep_reset hpc (hl.owning hcol),
    ⟨done, i, taken ++ [(c, found)], left, _, hl.release found, ?_⟩, .inr ?_⟩
  · rw [hcur, ← begun_append]
    refine .resetTemp _ left taken.length (by simp) rfl ?_
    rw [hlength, List.length_append, List.length_singleton]
    exact ⟨hcol.cqeEnd, hcol.buffer.set_null hl.lt_batchSize⟩
  · simp only [remaining, hpc, batchSize]
    omega

end Advances

/-- Where the loop thread waits for no answer, it goes on. -/
theorem Exact.next {r : CqRing m} {h : List (Event m)} {s : State m} (hi : Exact r h s)
    (hpeek : s.pc ≠ .peek) (hfind : ∀ it cqe tok, s.pc ≠ .find it cqe tok) : Advances r h s := by
  obtain ⟨done, i, taken, left, cur, hl, hp⟩ := hi
  have hsilent := hl.silent
  cases hp with
  | outside hpc =>
    refine ⟨_, _, by rw [nextStep, hpc], ?_, .inl hpc⟩
    exact ⟨done, i, [], [], [], hsilent, .peek rfl (holds_replicate _ 0)⟩
  | peek hpc hbuf => exact absurd hpc hpeek
  | fill left it hpc hit hbuf =>
    rcases Nat.lt_or_eq_of_le hit with hlt | rfl
    · exact hl.advances_fill rfl hpc hlt hbuf
    · exact hl.advances_filled rfl hpc hbuf
  | fillTemp left it hpc hit hbuf =>
    refine ⟨_, _, by rw [nextStep, hpc], ?_, .inr ?_⟩
    · exact ⟨done, i, [], left, _, hsilent, .fill left (it + 1) rfl hit hbuf⟩
    · simp only [remaining, hpc, State.seen, State.goto, CqeRef.null, length_slots]
      omega
  | getData taken left hpc hcol =>
    cases left with
    | nil =>
      have hend : taken.length = s.cqeEnd := hcol.cqeEnd.symm
      have hnext : nextStep s = some (s.goto .dispatch) := by
        simp only [nextStep, hpc, if_pos hend]
      refine ⟨_, _, hnext, ?_, .inr ?_⟩
      · exact ⟨done, i, taken, [], _, hsilent, .dispatch taken rfl hcol.buffer⟩
      · simp only [remaining, hpc]
        omega
    | cons c left => exact hl.advances_getData hpc hcol
  | find taken c left hpc hcol => exact absurd hpc (hfind _ _ _)
  | toResult taken c left hpc hcol =>
    have hnext : nextStep s = some ({ s with pc := .reset taken.length },
        [.result (slot (after i taken.length)) (toResult c.res)]) := by
      simp only [nextStep, hpc, hl.front.2.1]
    refine ⟨_, _, hnext, ?_, .inr ?_⟩
    · refine ⟨done, i, taken, c :: left, _, hl.emit rfl, ?_⟩
      rw [List.append_assoc]
      exact .reset taken c true left rfl hcol
    · simp only [remaining, hpc]
      omega
  | reset taken c found left hpc hcol =>
    exact hl.advances_reset found (by simp [round]) hpc hcol
  | resetTemp taken left it hit hpc hcol =>
    refine ⟨_, _, by rw [nextStep, hpc], ?_, .inr ?_⟩
    · exact ⟨done, i, taken, left, _, hsilent,
        .getData taken left (congrArg Pc.getData hit.symm) hcol⟩
    · have hend := hcol.cqeEnd
      simp only [remaining, hpc, State.seen, State.goto, CqeRef.null, batchSize]
      omega
  | dispatch taken hpc hbuf =>
    refine ⟨_, _, by rw [nextStep, hpc], ?_, .inr ?_⟩
    · exact ⟨done, i, taken, [], _, hsilent, .destroy taken batchSize le_rfl rfl hbuf⟩
    · simp only [remaining, hpc, State.goto]
      omega
  | destroy taken alive halive hpc hbuf =>
    cases alive with
    | zero =>
      refine ⟨_, _, by rw [nextStep, hpc], ?_, .inr ?_⟩
      · exact ⟨done ++ [taken], _, [], [], [], hsilent.close, .outside rfl⟩
      · simp only [remaining, hpc, State.goto]
        omega
    | succ alive =>
      have hnull : s.buffer[alive]? = some .null := by
        rw [hbuf alive halive, if_neg (by omega)]
      have hnext : nextStep s = some (s.goto (.destroy alive)) := by
        simp only [nextStep, hpc, hnull]
        rfl
      refine ⟨_, _, hnext, ?_, .inr ?_⟩
      · exact ⟨done, i, taken, [], _, hsilent,
          .destroy taken alive (Nat.le_of_succ_le halive) rfl hbuf⟩
      · simp only [remaining, hpc]
        omega

theorem step_exact {r : CqRing m} {h e : List (Event m)} {s s' : State m} {a : Action}
    (hs : step s a = some (s', e)) (hi : Exact r h s) : Exact r (h ++ e) s' := by
  cases a with
  | next =>
    have hpeek : s.pc ≠ .peek := by
      intro hpc
      simp [step, nextStep, hpc] at hs
    have hfind : ∀ it cqe tok, s.pc ≠ .find it cqe tok := by
      intro it cqe tok hpc
      simp [step, nextStep, hpc] at hs
    obtain ⟨s₁, e₁, hnext, hi', -⟩ := hi.next hpeek hfind
    cases hnext.symm.trans hs
    exact hi'
  | peek n =>
    obtain ⟨done, i, taken, left, cur, hl, hp⟩ := hi
    simp only [step] at hs
    split at hs
    next hpc =>
      simp only [Option.ite_none_right_eq_some, Option.some.injEq, Prod.mk.injEq] at hs
      obtain ⟨hn, rfl, rfl⟩ := hs
      cases hp with
      | peek _ hbuf =>
        have hlength : (s.ring.contents.take n).length = n := by
          simp only [List.length_take, Ring.length_contents]
          omega
        have hhead : s.ring.head = i := hl.head.trans (after_zero i)
        have hplace : Place i (.fill (slots i (s.ring.contents.take n).length) 0) s.buffer s.cqeEnd
            [] (s.ring.contents.take n) [.peeked (slots i (s.ring.contents.take n).length)] :=
          .fill _ 0 rfl (Nat.zero_le _) hbuf
        rw [hlength] at hplace
        rw [hhead]
        exact ⟨done, i, [], _, _, hl.peek hn, hplace⟩
      | _ => simp_all only [reduceCtorEq]
    next => cases hs
  | find found =>
    obtain ⟨done, i, taken, left, cur, hl, hp⟩ := hi
    simp only [step] at hs
    split at hs
    next it cqe tok hpc =>
      cases hs
      refine ⟨done, i, taken, left, cur, by rw [List.append_nil]; exact hl, ?_⟩
      cases hp with
      | find taken c left hpc' hcol =>
        obtain ⟨rfl, rfl, rfl⟩ := Pc.find.inj (hpc.symm.trans hpc')
        cases found with
        | true => exact .toResult taken c left rfl hcol
        | false => exact .reset taken c false left rfl hcol
      | _ => simp_all only [reduceCtorEq]
    next => cases hs
  | post c =>
    obtain ⟨done, i, taken, left, cur, hl, hp⟩ := hi
    simp only [step, Option.ite_none_right_eq_some, Option.some.injEq, Prod.mk.injEq] at hs
    obtain ⟨hroom, rfl, rfl⟩ := hs
    exact ⟨done, i, taken, left, cur, hl.post c hroom, hp⟩

theorem exact_start {r : CqRing m} (hwf : r.WellFormed) : Exact r [] (start r) := by
  refine ⟨[], r.head, [], [], [], ?_, .outside rfl⟩
  exact ⟨hwf, (after_zero _).symm, (after_zero _).symm, by simp [posted, start], by simp,
    Nat.zero_le _, List.nil_prefix, rfl⟩

theorem Exact.of_run {r : CqRing m} {ok : State m → Action → Prop} {h : List (Event m)}
    {s : State m} (hwf : r.WellFormed) (hrun : Run step ok (start r) h s) : Exact r h s :=
  hrun.invariant (exact_start hwf) fun _ _ _ _ _ hi _ hs => step_exact hs hi

/-- The steps of the loop thread. -/
def ByLoop (_ : State m) : Action → Prop
  | .post _ => False
  | _ => True

/-- Inside an iteration the loop thread can always go on, towards its end. -/
theorem Exact.progress {r : CqRing m} {h : List (Event m)} {s : State m} (hi : Exact r h s)
    (hpc : s.pc ≠ .outside) :
    ∃ a s' e, ByLoop s a ∧ step s a = some (s', e) ∧ remaining s' < remaining s := by
  by_cases hpeek : s.pc = .peek
  · have hstep : step s (.peek 0) = some ({ s with pc := .fill (slots s.ring.head 0) 0 },
        [.peeked (slots s.ring.head 0)]) := by
      simp only [step, hpeek, if_pos (Nat.zero_le _)]
    refine ⟨.peek 0, _, _, trivial, hstep, ?_⟩
    simp [remaining, hpeek]
  by_cases hfind : ∃ it cqe tok, s.pc = .find it cqe tok
  · obtain ⟨it, cqe, tok, hfind⟩ := hfind
    have hstep : step s (.find false) = some (s.goto (.reset it)) := by
      simp only [step, hfind]
      rfl
    refine ⟨.find false, _, _, trivial, hstep, ?_⟩
    simp only [remaining, hfind]
    omega
  obtain ⟨s', e, hstep, -, hless⟩ := hi.next hpeek fun it cqe tok h => hfind ⟨it, cqe, tok, h⟩
  exact ⟨.next, s', e, trivial, hstep, hless.resolve_left hpc⟩

/-- The loop thread ends its iteration by itself. -/
theorem Exact.returns {r : CqRing m} {h : List (Event m)} {s : State m} (hi : Exact r h s) :
    ∃ h' s', Run step ByLoop s h' s' ∧ s'.pc = .outside := by
  induction hn : remaining s using Nat.strongRecOn generalizing h s with
  | _ n ih =>
    by_cases hpc : s.pc = .outside
    · exact ⟨[], s, .start, hpc⟩
    obtain ⟨a, s₁, e, hok, hs, hless⟩ := hi.progress hpc
    obtain ⟨h', s', hrun, hend⟩ := ih _ (hn ▸ hless) (step_exact hs hi) rfl
    exact ⟨e ++ h', s', (Run.single hok hs).trans hrun, hend⟩

theorem begun_append_begins {i : BitVec 32} {taken more : List (Cqe × Bool)} {left : List Cqe}
    {cur : List (Event m)} (hmore : more.map Prod.fst = left)
    (hcur : cur <+: rounds (after i taken.length) more) :
    begun i taken left ++ cur <+: iteration i (taken ++ more) := by
  have hlength : left.length = more.length := by rw [← hmore, List.length_map]
  rw [begun, iteration, rounds_append, List.length_append, hlength, List.cons_append]
  exact (List.prefix_cons_inj _).mpr ((List.prefix_append_right_inj _).mpr hcur)

/-- The events of the iteration under way are the first ones of an iteration. -/
theorem Place.begins {i : BitVec 32} {pc : Pc m} {buffer : List (CqeRef m)} {cqeEnd : Nat}
    {taken : List (Cqe × Bool)} {left : List Cqe} {cur : List (Event m)}
    (hp : Place i pc buffer cqeEnd taken left cur) :
    ∃ more, more.map Prod.fst = left ∧ cur <+: iteration i (taken ++ more) := by
  have hmap : ∀ left : List Cqe, (left.map (·, false)).map Prod.fst = left := by
    intro left
    rw [List.map_map]
    exact List.map_id left
  have hbegun : ∀ taken left, ∃ more : List (Cqe × Bool), more.map Prod.fst = left ∧
      (begun i taken left : List (Event m)) <+: iteration i (taken ++ more) := by
    intro taken left
    have hbegins : begun i taken left ++ ([] : List (Event m)) <+: iteration i (taken ++ _) :=
      begun_append_begins (hmap left) List.nil_prefix
    rw [List.append_nil] at hbegins
    exact ⟨_, hmap left, hbegins⟩
  have hround : ∀ taken c left found (cur : List (Event m)),
      cur <+: round (after i taken.length) c found →
      ∃ more : List (Cqe × Bool), more.map Prod.fst = c :: left ∧
        begun i taken (c :: left) ++ cur <+: iteration i (taken ++ more) := by
    intro taken c left found cur hcur
    have hmore : ((c, found) :: left.map (·, false)).map Prod.fst = c :: left :=
      congrArg (c :: ·) (hmap left)
    exact ⟨_, hmore, begun_append_begins hmore (hcur.trans (List.prefix_append _ _))⟩
  cases hp with
  | outside hpc => exact ⟨[], rfl, List.nil_prefix⟩
  | peek hpc hbuf => exact ⟨[], rfl, List.nil_prefix⟩
  | fill left it hpc hit hbuf => exact begun_nil (m := m) i left ▸ hbegun [] left
  | fillTemp left it hpc hit hbuf => exact begun_nil (m := m) i left ▸ hbegun [] left
  | find taken c left hpc hcol =>
    exact hround taken c left false _ (List.prefix_append [_] _)
  | toResult taken c left hpc hcol =>
    exact hround taken c left true _ (List.prefix_append [_] _)
  | reset taken c found left hpc hcol =>
    exact hround taken c left found _ (List.prefix_append (_ :: _) _)
  | _ => exact hbegun _ _

theorem Place.released {i : BitVec 32} {pc : Pc m} {buffer : List (CqeRef m)} {cqeEnd : Nat}
    {taken : List (Cqe × Bool)} {left : List Cqe} {cur : List (Event m)}
    (hp : Place i pc buffer cqeEnd taken left cur) :
    UringCompletions.released cur = taken.length := by
  have hbegun : UringCompletions.released (begun i taken left : List (Event m)) = taken.length :=
    released_rounds i taken
  cases hp with
  | outside hpc => rfl
  | peek hpc hbuf => rfl
  | fill left it hpc hit hbuf => rfl
  | fillTemp left it hpc hit hbuf => rfl
  | find taken c left hpc hcol =>
    rw [released_append, hbegun]
    rfl
  | toResult taken c left hpc hcol =>
    rw [released_append, hbegun]
    rfl
  | reset taken c found left hpc hcol =>
    rw [released_append, hbegun]
    cases found <;> rfl
  | _ => exact hbegun

theorem released_iterations (i : BitVec 32) (batches : List (List (Cqe × Bool))) :
    released (iterations i batches : List (Event m)) = batches.flatten.length := by
  induction batches generalizing i with
  | nil => rfl
  | cons batch batches ih =>
    have hbatch : released (iteration i batch : List (Event m)) = batch.length :=
      released_rounds i batch
    rw [iterations, released_append, hbatch, ih, List.flatten_cons, List.length_append]

/-- What a run of the loop thread and the kernel does to the ring it finds. -/
structure ConsumesExactly (r : CqRing m) (h : List (Event m)) (s : State m) : Prop where
  /-- No reference is null where it is used, none without a ring is marked, and
  the array is not overrun. -/
  faultless : s.pc ≠ .faulted
  wellFormed : s.ring.WellFormed
  /-- Each release moves the head by one and takes the oldest CQE; nothing is
  lost and nothing comes twice. -/
  head : s.ring.head = after r.head (released h)
  contents : s.ring.contents = (r.contents ++ posted h).drop (released h)
  /-- The loop thread has done exact iterations, on all CQEs in order, and the
  first part of one if it is in the middle of it. -/
  iterations : ∃ batches : List (List (Cqe × Bool)),
    (∀ batch ∈ batches, batch.length ≤ batchSize) ∧
    batches.flatten.map Prod.fst <+: r.contents ++ posted h ∧
    consumption h <+: UringCompletions.iterations r.head batches ∧
    (s.pc = .outside → consumption h = UringCompletions.iterations r.head batches ∧
      released h = batches.flatten.length)
  /-- It ends the iteration by itself. -/
  returns : ∃ h' s', Run step ByLoop s h' s' ∧ s'.pc = .outside

theorem Exact.consumes {r : CqRing m} {h : List (Event m)} {s : State m} (hi : Exact r h s) :
    ConsumesExactly r h s := by
  have hreturns := hi.returns
  obtain ⟨done, i, taken, left, cur, hl, hp⟩ := hi
  have hreleased : released h = done.flatten.length + taken.length := by
    rw [← released_consumption, hl.events, released_append, released_iterations, hp.released]
  refine ⟨?_, hl.wellFormed, ?_, ?_, ?_, hreturns⟩
  · cases hp <;> simp_all
  · rw [hl.head, hl.start, after_after, hreleased]
  · rw [hl.queue, hreleased, List.drop_left']
    rw [List.length_append, List.length_map, List.length_map]
  · by_cases hpc : s.pc = .outside
    · cases hp with
      | outside _ =>
        have hevents := hl.events
        rw [List.append_nil] at hevents
        refine ⟨done, hl.small, ?_, hevents ▸ List.prefix_rfl, fun _ => ⟨hevents, hreleased⟩⟩
        rw [hl.queue, List.append_assoc]
        exact List.prefix_append _ _
      | _ => simp_all only [reduceCtorEq]
    · obtain ⟨more, hmore, hbegins⟩ := hp.begins
      refine ⟨done ++ [taken ++ more], ?_, ?_, ?_, fun hout => absurd hout hpc⟩
      · intro batch hbatch
        rcases List.mem_append.mp hbatch with hbatch | hbatch
        · exact hl.small batch hbatch
        · have hfits := hl.fits
          rw [← hmore, List.length_map] at hfits
          rw [List.mem_singleton.mp hbatch, List.length_append]
          exact hfits
      · rw [hl.queue, List.flatten_append, List.flatten_singleton, List.map_append,
          List.map_append, hmore, ← List.append_assoc]
        exact (List.prefix_append_right_inj _).mpr hl.oldest
      · rw [hl.events, iterations_append, ← hl.start]
        refine (List.prefix_append_right_inj _).mpr ?_
        rw [UringCompletions.iterations, UringCompletions.iterations, List.append_nil]
        exact hbegins

/-- The completion queue is consumed exactly, from every state of the ring and
with the kernel posting at any time. -/
theorem completions_consumed_exactly {r : CqRing m} {h : List (Event m)} {s : State m}
    (hwf : r.WellFormed) (hrun : Run step Always (start r) h s) : ConsumesExactly r h s :=
  (Exact.of_run hwf hrun).consumes

/-- The queue the event loop is modelled with is the one the ring stands for: it
holds the same CQEs once the same were posted and as many were collected. -/
theorem cq_eq_contents {θ π κ : Type} [DecidableEq θ] {h : UringContext.History π κ}
    {s : UringContext.State θ π κ} (hrun : Run UringContext.step Always UringContext.start h s)
    {r : CqRing m} {h' : List (Event m)} {s' : State m} (hwf : r.WellFormed)
    (hempty : r.contents = []) (hrun' : Run step Always (start r) h' s')
    (hposted : UringContext.posted h = posted h')
    (hcollected : (UringContext.collected h).length = released h') :
    s.cq = s'.ring.contents := by
  have hqueue := (UringContext.Routing.of_run hrun).posted_eq
  rw [(Exact.of_run hwf hrun').consumes.contents, hempty, List.nil_append, ← hposted, hqueue,
    ← hcollected, List.drop_left]

/-- The loop thread's round, by itself, for either answer of the callback map. -/
theorem Ledger.run_round {r : CqRing m} {h : List (Event m)} {s : State m}
    {done : List (List (Cqe × Bool))} {i : BitVec 32} {taken : List (Cqe × Bool)} {c : Cqe}
    {left : List Cqe} {cur : List (Event m)}
    (hl : Ledger r h s.ring done i taken (c :: left) cur) (hpc : s.pc = .getData taken.length)
    (hcol : Collecting i s.buffer s.cqeEnd taken.length (taken.length + (c :: left).length))
    (found : Bool) :
    ∃ s', Run step ByLoop s (round (after i taken.length) c found) s' ∧
      s'.pc = .getData (taken.length + 1) ∧ s'.ring = s.ring.advance := by
  have hdata : step s .next = some ({ s with
      pc := .find taken.length (slot (after i taken.length)) c.userData },
      [.data (slot (after i taken.length)) c.userData]) := hl.nextStep_getData hpc hcol
  have hreset : step { s with pc := .reset taken.length } .next = some ({ s with
      buffer := s.buffer.set taken.length .null
      ring := s.ring.advance
      pc := .resetTemp taken.length .null }, [.seen (slot (after i taken.length))]) :=
    nextStep_reset (s := { s with pc := .reset taken.length }) rfl (hl.owning hcol)
  have hread₀ : Run step ByLoop s [.data (slot (after i taken.length)) c.userData]
      { s with pc := .find taken.length (slot (after i taken.length)) c.userData } :=
    Run.single (a := Action.next) trivial hdata
  have hread : Run step ByLoop s (.data (slot (after i taken.length)) c.userData ::
      (if found then [.result (slot (after i taken.length)) (toResult c.res)] else []))
      { s with pc := .reset taken.length } := by
    cases found with
    | false => exact hread₀.next (a := Action.find false) trivial rfl
    | true =>
      have hresult : step { s with pc := .toResult taken.length (slot (after i taken.length)) }
          .next = some ({ s with pc := .reset taken.length },
            [.result (slot (after i taken.length)) (toResult c.res)]) := by
        simp only [step, nextStep, hl.front.2.1]
      have hfound := hread₀.next (a := Action.find true) trivial rfl
      exact hfound.next (a := Action.next) trivial hresult
  have hreleased := hread.next (a := Action.next) trivial hreset
  have hround := hreleased.next (a := Action.next) trivial rfl
  rw [List.append_nil] at hround
  exact ⟨{ s with
    buffer := s.buffer.set taken.length .null
    ring := s.ring.advance
    pc := .getData (taken.length + 1) }, hround, rfl, rfl⟩

/-- One round of the loop thread does to the ring what `collectStep` does to the
queue, with the answer the callback map gives there. -/
theorem exists_round {θ π κ : Type} [DecidableEq θ] {r : CqRing m} {h : List (Event m)}
    {s : State m} {it n : Nat} {ctx : UringContext.State θ π κ}
    {ready : List (UringContext.Ready κ)} (hi : Exact r h s) (hpc : s.pc = .getData it)
    (hmore : it ≠ s.cqeEnd) (hcq : ctx.cq = s.ring.contents)
    (hloop : ctx.loop = .collect (n + 1) ready) :
    ∃ c s' ctx', UringContext.step ctx (.loop .ok) =
        some (ctx', [.collected c (ctx.callbacks c.userData)]) ∧
      Run step ByLoop s (round s.ring.head c (ctx.callbacks c.userData).isSome) s' ∧
      s'.pc = .getData (it + 1) ∧ ctx'.cq = s'.ring.contents := by
  obtain ⟨done, i, taken, left, cur, hl, hp⟩ := hi
  cases hp with
  | getData taken left hpc' hcol =>
    obtain rfl := Pc.getData.inj (hpc.symm.trans hpc')
    cases left with
    | nil => exact absurd hcol.cqeEnd.symm hmore
    | cons c left =>
      obtain ⟨hsome, hfirst, -⟩ := hl.front
      obtain ⟨s', hrun, hpc₁, hring⟩ := hl.run_round hpc hcol (ctx.callbacks c.userData).isSome
      have hcons : ctx.cq = c :: s.ring.advance.contents := by
        rw [hcq, Ring.contents_eq_cons hsome, hl.head, hfirst]
      have hstep : UringContext.step ctx (.loop .ok) =
          some (UringContext.collectStep ctx c s.ring.advance.contents n ready) := by
        simp only [UringContext.step, UringContext.loopStep, hloop, hcons]
      have hcollect : (UringContext.collectStep ctx c s.ring.advance.contents n ready).1.cq =
          s.ring.advance.contents ∧
          (UringContext.collectStep ctx c s.ring.advance.contents n ready).2 =
            [.collected c (ctx.callbacks c.userData)] := by
        cases hcb : ctx.callbacks c.userData <;> simp [UringContext.collectStep, hcb]
      refine ⟨c, s', (UringContext.collectStep ctx c s.ring.advance.contents n ready).1, ?_, ?_,
        hpc₁, ?_⟩
      · rw [hstep, ← hcollect.2]
      · rw [hl.head]
        exact hrun
      · rw [hring]
        exact hcollect.1
  | _ => simp_all only [reduceCtorEq]

/-- Two slots, both taken; the head is about to wrap. -/
def fullRing : CqRing 1 := ⟨-1, 1, fun k => if k = 1 then ⟨7, 3⟩ else ⟨8, 4⟩⟩

theorem fullRing_wellFormed : fullRing.WellFormed := ⟨by decide, by decide⟩

/-- The loop collects two CQEs, of which only the first has a callback. The
kernel posts another one as soon as the first slot is released. -/
def twoRounds : List Action :=
  [.next, .peek 2, .next, .next, .next, .next, .next, .next, .find true, .next, .next, .post ⟨9, 5⟩,
    .next, .next, .find false, .next, .next]

theorem exists_two_rounds :
    ∃ (h : List (Event 1)) (s : State 1), Run step Always (start fullRing) h s ∧
      (consumption h = iteration (-1) [(⟨7, 3⟩, true), (⟨8, 4⟩, false)] ∧
        s.ring.contents = [⟨9, 5⟩]) :=
  exists_run_of_exec twoRounds (by decide)

theorem completions_consumed_exactly_full :
    ∃ (h : List (Event 1)) (s : State 1), ConsumesExactly fullRing h s ∧
      consumption h = iteration (-1) [(⟨7, 3⟩, true), (⟨8, 4⟩, false)] ∧
      s.ring.contents = [⟨9, 5⟩] := by
  obtain ⟨h, s, hrun, hevents, hcontents⟩ := exists_two_rounds
  exact ⟨h, s, completions_consumed_exactly fullRing_wellFormed hrun, hevents, hcontents⟩

/-- The result of a CQE that has no callback is not read. -/
theorem not_result_of_every_seen :
    ¬∀ (m : Nat) (r : CqRing m) (h : List (Event m)) (s : State m), r.WellFormed →
      Run step Always (start r) h s → ∀ cqe, .seen cqe ∈ h → ∃ ret, .result cqe ret ∈ h := by
  intro hall
  obtain ⟨h, s, hrun, hevents, -⟩ := exists_two_rounds
  have hseen : .seen 0 ∈ consumption h := by
    rw [hevents]
    decide
  obtain ⟨ret, hret⟩ := hall 1 fullRing h s fullRing_wellFormed hrun 0 (List.mem_filter.mp hseen).1
  have hread : .result 0 ret ∈ consumption h := List.mem_filter.mpr ⟨hret, rfl⟩
  rw [hevents] at hread
  simp only [iteration, rounds, round, List.mem_cons, List.mem_append, reduceCtorEq, if_true,
    Bool.false_eq_true, if_false, List.not_mem_nil, Event.result.injEq, or_false, false_or] at hread
  exact absurd hread.1 (by decide)

end UringCompletions
