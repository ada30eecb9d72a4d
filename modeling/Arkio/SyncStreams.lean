import Arkio.Transfers

/-!
# The blocking operations as streams

Whatever short transfers the kernel chooses, `sync::write` sends the
concatenation of its buffers from the first byte on, and `sync::read` fills the
concatenation of its buffers with what arrives. Both keep the offset of a
seekable descriptor at the number of bytes that passed, on every exit.
-/
namespace SyncIo

open Bindings Buffer ScatteredStore

/-- The bytes that a write accepts: a prefix of what the iovecs denote. -/
def accepted (mem : Memory) (x : Exchange) : List UInt8 := (gather x.1.iov mem).take x.2.count

/-- The bytes that the kernel delivers. -/
def delivered (xs : List Exchange) : List UInt8 := xs.flatMap fun x => x.2.bytes

@[simp] theorem delivered_nil : delivered [] = [] := rfl

@[simp] theorem delivered_cons (x : Exchange) (xs : List Exchange) :
    delivered (x :: xs) = x.2.bytes ++ delivered xs := rfl

theorem length_delivered (xs : List Exchange) : (delivered xs).length = moved xs := by
  induction xs with
  | nil => rfl
  | cons x xs ih => simp [ih, Response.count]

section Loop

variable {b : List ConstBuffer} {cond : CompletionCondition} {limit : Nat}

/-- The number of bytes one round moves. -/
theorem fits_round {kind : IoOperation} {f : Fd} {d : Nat} {bytes : List UInt8}
    (h : Fits (kind.request b cond f d, .transferred bytes)) :
    bytes.length ≤ cond (bufferSize b) d ∧ bytes.length ≤ (addresses b).length - d := by
  have hmin : bytes.length ≤ min (cond (bufferSize b) d) ((addresses b).length - d) := by
    simpa [Fits, iovSize_slice] using h
  omega

theorem Unwrapped.next {d n : Nat} (hb : Unwrapped b cond limit) (hd : d ≤ limit)
    (hcond : n ≤ cond (bufferSize b) d) (hroom : n ≤ (addresses b).length - d) :
    d + n ≤ limit ∧ (d + n) % sizeMod = d + n := by
  have hstep := hb.step d hd
  have hlt := hb.limit_lt
  exact ⟨by omega, Nat.mod_eq_of_lt (by omega)⟩

/-- The writing loop leaves the memory alone. -/
theorem write_loop_mem (f : Fd) (mem : Memory) (d : Nat) (rs : List Response) :
    (IoOperation.write.loop b cond f mem d rs).mem = mem := by
  refine loop_induction (P := fun _ mem _ _ t => t.mem = mem) ?_ ?_ ?_ ?_ ?_ f mem d rs
  · intros; rfl
  · intros; rfl
  · intros; rfl
  · intros; rfl
  · intro f mem d bytes rs t _ _ ih
    exact ih

/-- From `d` bytes done on, what the kernel accepts continues the content. -/
theorem write_loop_accepted (hb : Unwrapped b cond limit) (f : Fd) (mem : Memory) (d : Nat)
    (rs : List Response) (hd : d ≤ limit)
    (hfits : ∀ x ∈ (IoOperation.write.loop b cond f mem d rs).exchanges rs, Fits x) :
    ((IoOperation.write.loop b cond f mem d rs).exchanges rs).flatMap (accepted mem) =
      ((content mem b).drop d).take
        (moved ((IoOperation.write.loop b cond f mem d rs).exchanges rs)) := by
  revert hd hfits
  refine loop_induction (P := fun _ mem d rs t => d ≤ limit →
    (∀ x ∈ t.exchanges rs, Fits x) → (t.exchanges rs).flatMap (accepted mem) =
      ((content mem b).drop d).take (moved (t.exchanges rs))) ?_ ?_ ?_ ?_ ?_ f mem d rs
  · intro f mem d rs _ _ _
    simp [Trace.exchanges]
  · intro f mem d _ _ _
    simp [Trace.exchanges]
  · intro f mem d errno pos rs _ _ _
    simp [Trace.exchanges, accepted]
  · intro f mem d rs _ hread
    cases hread
  · intro f mem d bytes rs t _ _ ih hd hfits
    simp only [exchanges_after, List.mem_cons, forall_eq_or_imp] at hfits
    obtain ⟨hcond, hroom⟩ := fits_round hfits.1
    obtain ⟨hnext, hwrap⟩ := hb.next hd hcond hroom
    have hi := ih (by omega) hfits.2
    rw [hwrap] at hi
    simp only [deliver] at hi
    have hfirst : accepted mem (IoOperation.write.request b cond f d, .transferred bytes) =
        ((content mem b).drop d).take bytes.length := by
      rw [accepted, IoOperation.request_iov, gather_slice, List.take_take,
        Response.count_transferred, Nat.min_eq_left hcond]
    rw [exchanges_after, List.flatMap_cons, hfirst, hi, moved_cons, Response.count_transferred,
      List.take_add, List.drop_drop]

/-- One round of the reading loop on the memory. -/
theorem deliver_content (hnodup : (addresses b).Nodup) (f : Fd) (mem : Memory) {d : Nat}
    {bytes : List UInt8} (hd : d ≤ (addresses b).length)
    (hcond : bytes.length ≤ cond (bufferSize b) d)
    (hroom : bytes.length ≤ (addresses b).length - d) :
    content (deliver .read (IoOperation.read.request b cond f d).iov (.transferred bytes) mem) b =
      (content mem b).take d ++ bytes ++ (content mem b).drop (d + bytes.length) := by
  rw [content, deliver, scatter_eq_storeAt, IoOperation.request_iov, transformToIovecs_addresses,
    storeAt_take_left hcond, map_storeAt_drop hnodup (by omega)]
  rfl

/-- From `d` bytes done on, what the kernel delivers continues the filled part. -/
theorem read_loop_content (hb : Unwrapped b cond limit) (hnodup : (addresses b).Nodup) (f : Fd)
    (mem : Memory) (d : Nat) (rs : List Response) (hd : d ≤ limit)
    (hfits : ∀ x ∈ (IoOperation.read.loop b cond f mem d rs).exchanges rs, Fits x) :
    content (IoOperation.read.loop b cond f mem d rs).mem b = (content mem b).take d ++
      delivered ((IoOperation.read.loop b cond f mem d rs).exchanges rs) ++
      (content mem b).drop
        (d + moved ((IoOperation.read.loop b cond f mem d rs).exchanges rs)) := by
  revert hd hfits
  refine loop_induction (P := fun _ mem d rs t => d ≤ limit →
    (∀ x ∈ t.exchanges rs, Fits x) → content t.mem b = (content mem b).take d ++
      delivered (t.exchanges rs) ++ (content mem b).drop (d + moved (t.exchanges rs)))
    ?_ ?_ ?_ ?_ ?_ f mem d rs
  · intro f mem d rs _ _ _
    simp [Trace.exchanges]
  · intro f mem d _ _ _
    simp [Trace.exchanges]
  · intro f mem d errno pos rs _ _ _
    simp [Trace.exchanges, Response.bytes]
  · intro f mem d rs _ _ _ _
    simp [Trace.exchanges, Response.bytes]
  · intro f mem d bytes rs t _ _ ih hd hfits
    simp only [exchanges_after, List.mem_cons, forall_eq_or_imp] at hfits
    obtain ⟨hcond, hroom⟩ := fits_round hfits.1
    obtain ⟨hnext, hwrap⟩ := hb.next hd hcond hroom
    have hle := hb.limit_le
    have hround := deliver_content hnodup f mem (by omega) hcond hroom
    have hi := ih (by omega) hfits.2
    rw [hwrap, hround] at hi
    have hlen : d + bytes.length ≤ (content mem b).length := by
      rw [length_content]
      omega
    rw [Trace.after_mem, hi, take_overwrite hlen, drop_overwrite hlen, exchanges_after,
      delivered_cons, moved_cons, Response.count_transferred, Nat.add_assoc]
    simp [Response.bytes]

/-- The reading loop writes nothing outside the sequence. -/
theorem read_loop_frame {a : Nat} (ha : a ∉ addresses b) (f : Fd) (mem : Memory) (d : Nat)
    (rs : List Response) : (IoOperation.read.loop b cond f mem d rs).mem a = mem a := by
  refine loop_induction (P := fun _ mem _ _ t => t.mem a = mem a) ?_ ?_ ?_ ?_ ?_ f mem d rs
  · intros; rfl
  · intros; rfl
  · intros; rfl
  · intros; rfl
  · intro f mem d bytes rs t _ _ ih
    have hout : a ∉ iovAddresses (IoOperation.read.request b cond f d).iov := by
      rw [IoOperation.request_iov, transformToIovecs_addresses]
      exact fun hmem => ha (List.mem_of_mem_drop (List.mem_of_mem_take hmem))
    rw [Trace.after_mem, ih, deliver, scatter_eq_storeAt, storeAt_of_notMem hout]

end Loop

/-- What a write has done when it returns or blocks: the stream it sent, the
value it returned and the offsets it used. -/
structure WrittenAsStream (f : Fd) (b : List ConstBuffer) (mem : Memory) (t : Trace)
    (xs : List Exchange) : Prop where
  room : moved xs ≤ (content mem b).length
  stream : xs.flatMap (accepted mem) = (content mem b).take (moved xs)
  ret : ∀ n, t.ret = some (.ok n) → n = moved xs
  offsets : ∀ i req, t.requests[i]? = some req →
    req.offset = f.offset.map (· + (moved (xs.take i) : Int))
  offset : t.fd.offset = f.offset.map (· + (moved xs : Int))
  mem : t.mem = mem

/-- `sync::write` loses, repeats and reorders nothing, whatever prefixes the
kernel accepts and whatever the condition asks for. -/
theorem write_stream (f : Fd) (b : List ConstBuffer) (cond : CompletionCondition) (mem : Memory)
    (responses : List Response) (hsize : (b.map ConstBuffer.size).sum < sizeMod)
    (hfits : ∀ x ∈ (write f b cond mem responses).exchanges responses, Fits x) :
    WrittenAsStream f b mem (write f b cond mem responses)
      ((write f b cond mem responses).exchanges responses) := by
  have hb : Unwrapped b cond (addresses b).length :=
    unwrapped_of_lt cond (by rwa [length_addresses])
  have hc : Counted .write b cond (addresses b).length f 0 responses
      (write f b cond mem responses) :=
    loop_counted hb f mem 0 responses (Nat.zero_le _) hfits
  constructor
  · simpa using hc.room
  · have hstream := write_loop_accepted hb f mem 0 responses (Nat.zero_le _) hfits
    rw [List.drop_zero] at hstream
    exact hstream
  · intro n hn
    simpa using (hc.ret n hn).1
  · intro i req hi
    rw [(hc.request i req hi).2]
    rfl
  · rw [hc.fd]
    rfl
  · exact write_loop_mem f mem 0 responses

/-- Two buffers in three short writes, the last of them ended by an error. -/
theorem write_stream_short_writes :
    let b : List ConstBuffer := [⟨100, 3, by decide⟩, ⟨150, 0, by decide⟩, ⟨200, 2, by decide⟩]
    let mem : Memory := fun a => UInt8.ofNat a
    let responses : List Response :=
      [.transferred [100], .transferred [101, 102, 200], .failed 5 (by decide)]
    let t := write ⟨4, some 10⟩ b transferAll mem responses
    t.fd.offset = some 14 ∧ WrittenAsStream ⟨4, some 10⟩ b mem t (t.exchanges responses) := by
  intro b mem responses t
  exact ⟨rfl, write_stream ⟨4, some 10⟩ b transferAll mem responses (by decide) (by decide)⟩

/-- What a read has done when it returns or blocks: the stream it received, the
value it returned and why, and the offsets it used. -/
structure ReadAsStream (f : Fd) (b : List ConstBuffer) (cond : CompletionCondition) (mem : Memory)
    (t : Trace) (xs : List Exchange) : Prop where
  room : moved xs ≤ (content mem b).length
  stream : content t.mem b = delivered xs ++ (content mem b).drop (moved xs)
  ret : ∀ n, t.ret = some (.ok n) → n = (delivered xs).length ∧
    (xs.getLast?.map Prod.snd = some (.transferred []) ∨ cond (bufferSize b) n = 0)
  offsets : ∀ i req, t.requests[i]? = some req →
    req.offset = f.offset.map (· + (moved (xs.take i) : Int))
  offset : t.fd.offset = f.offset.map (· + (moved xs : Int))
  outside : ∀ a, (∀ v ∈ b, ¬v.Covers a) → t.mem a = mem a

/-- `sync::read` fills the buffers as one contiguous stream, whatever the kernel
delivers at a time and whatever the condition asks for. -/
theorem read_stream (f : Fd) (b : List ConstBuffer) (cond : CompletionCondition) (mem : Memory)
    (responses : List Response) (hsize : (b.map ConstBuffer.size).sum < sizeMod)
    (hapart : b.Pairwise ConstBuffer.Apart)
    (hfits : ∀ x ∈ (read f b cond mem responses).exchanges responses, Fits x) :
    ReadAsStream f b cond mem (read f b cond mem responses)
      ((read f b cond mem responses).exchanges responses) := by
  have hb : Unwrapped b cond (addresses b).length :=
    unwrapped_of_lt cond (by rwa [length_addresses])
  have hc : Counted .read b cond (addresses b).length f 0 responses
      (read f b cond mem responses) :=
    loop_counted hb f mem 0 responses (Nat.zero_le _) hfits
  constructor
  · simpa using hc.room
  · have hstream :=
      read_loop_content hb (nodup_addresses hapart) f mem 0 responses (Nat.zero_le _) hfits
    rw [List.take_zero, List.nil_append, Nat.zero_add] at hstream
    exact hstream
  · intro n hn
    obtain ⟨hval, hwhy⟩ := hc.ret n hn
    rw [Nat.zero_add] at hval
    refine ⟨by rw [length_delivered, hval], ?_⟩
    obtain hcond | ⟨-, heof⟩ := hwhy
    · exact .inr hcond
    · exact .inl heof
  · intro i req hi
    rw [(hc.request i req hi).2]
    rfl
  · rw [hc.fd]
    rfl
  · intro a ha
    refine read_loop_frame (fun hmem => ?_) f mem 0 responses
    obtain ⟨v, hv, hcovers⟩ := mem_addresses.mp hmem
    exact ha v hv hcovers

/-- Three buffers, one of them empty, filled by two short reads; the third finds
the end of the file. -/
theorem read_stream_short_reads :
    let b : List ConstBuffer := [⟨100, 3, by decide⟩, ⟨150, 0, by decide⟩, ⟨200, 4, by decide⟩]
    let mem : Memory := fun _ => 7
    let responses : List Response := [.transferred [1, 2], .transferred [3, 4, 5], .transferred []]
    let t := read ⟨4, some 10⟩ b transferAll mem responses
    t.ret = some (.ok 5) ∧ content t.mem b = [1, 2, 3, 4, 5, 7, 7] ∧
      ReadAsStream ⟨4, some 10⟩ b transferAll mem t (t.exchanges responses) := by
  intro b mem responses t
  have hread := read_stream ⟨4, some 10⟩ b transferAll mem responses (by decide) (by decide) (by decide)
  exact ⟨rfl, hread.stream, hread⟩

end SyncIo
