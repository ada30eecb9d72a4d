import Arkio.SyncStreams

/-!
# Byte files and pipes

What the kernel has behind a descriptor. A regular file is a byte for each
position below its size, written and read at the offset of the request; a pipe
is a queue of bytes. Both are streams to whoever only appends and then reads
from where the appending began: `StreamDevice` says so, and is all that the
round trip needs to know of them.
-/
namespace Devices

open Bindings Buffer SyncIo ScatteredStore

/-- Take the bytes of a read off the front of a stream: as many as the kernel
likes, at most what is asked for, none only at the end. -/
def takeFront (s : List UInt8) (x : Exchange) : Option (List UInt8) :=
  match x.2 with
  | .failed _ _ => none
  | .transferred bytes =>
    if bytes <+: s ∧ Fits x ∧ (bytes = [] → s = []) then some (s.drop bytes.length) else none

theorem takeFront_eq_some {s s' : List UInt8} {x : Exchange} (h : takeFront s x = some s') :
    (∃ bytes, x.2 = .transferred bytes) ∧ Fits x ∧ s = x.2.bytes ++ s' ∧
      (x.2.bytes = [] → s = []) := by
  obtain ⟨req, r⟩ := x
  cases r with
  | failed errno pos => simp [takeFront] at h
  | transferred bytes =>
    simp only [takeFront] at h
    split at h
    next hok =>
      obtain ⟨⟨rest, rfl⟩, hfits, hend⟩ := hok
      simp only [List.drop_left, Option.some.injEq] at h
      exact ⟨⟨bytes, rfl⟩, hfits, by rw [← h]; rfl, hend⟩
    · cases h

/-- A regular file, with zeros beyond its end. -/
structure ByteFile where
  byte : Nat → UInt8
  size : Nat
  beyond : ∀ i, size ≤ i → byte i = 0

namespace ByteFile

def empty : ByteFile := ⟨fun _ => 0, 0, fun _ _ => rfl⟩

/-- Store bytes from a position on; the file grows where they reach past its end. -/
def write (file : ByteFile) (o : Nat) (bytes : List UInt8) : ByteFile where
  byte := storeAt (List.range' o bytes.length) bytes file.byte
  size := if bytes = [] then file.size else max file.size (o + bytes.length)
  beyond := by
    intro i hi
    have hout : i ∉ List.range' o bytes.length := by
      intro hmem
      rw [List.mem_range'_1] at hmem
      split at hi
      next hnil =>
        simp only [hnil, List.length_nil] at hmem
        omega
      next => omega
    have hsize : file.size ≤ i := by split at hi <;> omega
    rw [storeAt_of_notMem hout]
    exact file.beyond i hsize

/-- The bytes from a position to the end of the file. -/
def stream (file : ByteFile) (p : Nat) : List UInt8 :=
  (List.range' p (file.size - p)).map file.byte

/-- `pwritev2` and `preadv2`: `none` where the kernel does not answer so. A
write stores what it accepts of the memory, and a failed one nothing. -/
def serve (mem : Memory) (file : ByteFile) (x : Exchange) : Option ByteFile :=
  match x.1.op, x.1.offset with
  | .write, some (.ofNat o) => if Fits x then some (file.write o (accepted mem x)) else none
  | .read, some (.ofNat o) => (takeFront (file.stream o) x).map fun _ => file
  | _, _ => none

section Serve

variable {mem : Memory} {file : ByteFile} {x : Exchange} {o : Nat}

theorem serve_write (hop : x.1.op = .write) (ho : x.1.offset = some (o : Int)) :
    serve mem file x = if Fits x then some (file.write o (accepted mem x)) else none := by
  rw [serve, hop, ho]

theorem serve_read (hop : x.1.op = .read) (ho : x.1.offset = some (o : Int)) :
    serve mem file x = (takeFront (file.stream o) x).map fun _ => file := by
  rw [serve, hop, ho]

end Serve

theorem stream_drop (file : ByteFile) (p n : Nat) :
    (file.stream p).drop n = file.stream (p + n) := by
  rw [stream, stream, ← List.map_drop, List.drop_range', Nat.mul_one, Nat.sub_sub]

/-- The bytes of a store are found where they were stored. -/
theorem map_write_self (file : ByteFile) (o : Nat) (bytes : List UInt8) :
    (List.range' o bytes.length).map (file.write o bytes).byte = bytes := by
  have hlen : (List.range' o bytes.length).length = bytes.length := List.length_range'
  have hrest : ((List.range' o bytes.length).map file.byte).drop bytes.length = [] :=
    List.drop_eq_nil_of_le (by simp)
  rw [write, map_storeAt List.nodup_range' (Nat.le_of_eq hlen.symm), hrest, List.append_nil]

/-- A store leaves the bytes before it alone. -/
theorem map_write_before (file : ByteFile) {o p n : Nat} (h : p + n ≤ o) (bytes : List UInt8) :
    (List.range' p n).map (file.write o bytes).byte = (List.range' p n).map file.byte := by
  refine map_storeAt_of_disjoint (fun a ha hb => ?_) bytes file.byte
  rw [List.mem_range'_1] at ha hb
  omega

/-- The bytes written since position `o` lie in the file from there on, and the
descriptor stands behind them. -/
structure Holds (o : Nat) (w : List UInt8) (f : Fd) (file : ByteFile) : Prop where
  offset : f.offset = some ((o + w.length : Nat) : Int)
  stored : (List.range' o w.length).map file.byte = w
  inside : w = [] ∨ o + w.length ≤ file.size

theorem holds_nil {o : Nat} {f : Fd} (h : f.offset = some (o : Int)) (file : ByteFile) :
    Holds o [] f file :=
  ⟨by simpa using h, by simp, .inl rfl⟩

/-- What was written is what the file has from there on. -/
theorem Holds.prefix_stream {o : Nat} {w : List UInt8} {f : Fd} {file : ByteFile}
    (h : Holds o w f file) : w <+: file.stream o := by
  obtain hnil | hsize := h.inside
  · rw [hnil]
    exact List.nil_prefix
  · have hsplit : file.size - o = w.length + (file.size - o - w.length) := by omega
    rw [stream, hsplit, ← List.range'_append_1, List.map_append, h.stored]
    exact List.prefix_append w _

/-- The file has these bytes from the offset of the descriptor on. -/
def Offers (s : List UInt8) (f : Fd) (file : ByteFile) : Prop :=
  ∃ p : Nat, f.offset = some (p : Int) ∧ file.stream p = s

end ByteFile

namespace Pipe

/-- `writev` and `readv` on a pipe, which is the queue of its bytes. -/
def serve (mem : Memory) (queue : List UInt8) (x : Exchange) : Option (List UInt8) :=
  match x.1.op, x.1.offset with
  | .write, none => if Fits x then some (queue ++ accepted mem x) else none
  | .read, none => takeFront queue x
  | _, some _ => none

/-- The queue, seen from a descriptor without an offset. -/
def Queued (w : List UInt8) (f : Fd) (queue : List UInt8) : Prop := f.offset = none ∧ queue = w

end Pipe

/-- A device that appends what it is given and hands out what it has from the
front: `Holds` is what was appended, `Offers` what is still to be read. -/
structure StreamDevice {σ : Type*} (serve : Memory → σ → Exchange → Option σ)
    (Holds Offers : List UInt8 → Fd → σ → Prop) : Prop where
  write : ∀ {w f s s' mem x}, Holds w f s → x.1.op = .write → x.1.offset = f.offset →
    serve mem s x = some s' → Fits x ∧ Holds (w ++ accepted mem x) (f.feed x.2.count) s'
  read : ∀ {w f s s' mem x}, Offers w f s → x.1.op = .read → x.1.offset = f.offset →
    serve mem s x = some s' → ∃ w', takeFront w x = some w' ∧ Offers w' (f.feed x.2.count) s'

theorem length_accepted (mem : Memory) {x : Exchange} (h : Fits x) :
    (accepted mem x).length = x.2.count := by
  rw [accepted, List.length_take, gather, List.length_map, length_iovAddresses]
  exact Nat.min_eq_left h

theorem ByteFile.streamDevice (o : Nat) :
    StreamDevice ByteFile.serve (ByteFile.Holds o) ByteFile.Offers := by
  constructor
  · intro w f file file' mem x hholds hop hoffset hserve
    rw [ByteFile.serve_write hop (hoffset.trans hholds.offset)] at hserve
    split at hserve
    next hfits =>
      obtain rfl := Option.some.inj hserve
      have hlen := length_accepted mem hfits
      refine ⟨hfits, ?_, ?_, ?_⟩
      · rw [Fd.feed_offset, hholds.offset, List.length_append, hlen]
        simp [Int.add_assoc]
      · rw [List.length_append, ← List.range'_append_1, List.map_append,
          map_write_before file (Nat.le_refl _), hholds.stored, map_write_self]
      · by_cases hnil : accepted mem x = []
        · simpa [ByteFile.write, hnil] using hholds.inside
        · right
          rw [List.length_append]
          simp only [ByteFile.write, hnil, if_false]
          omega
    · cases hserve
  · intro s f file file' mem x hoffers hop hoffset hserve
    obtain ⟨p, hp, rfl⟩ := hoffers
    rw [ByteFile.serve_read hop (hoffset.trans hp)] at hserve
    obtain ⟨w', hw', rfl⟩ := Option.map_eq_some_iff.mp hserve
    obtain ⟨-, -, hstream, -⟩ := takeFront_eq_some hw'
    refine ⟨w', hw', p + x.2.count, by simp [hp], ?_⟩
    rw [← ByteFile.stream_drop]
    exact (congrArg (List.drop x.2.count) hstream).trans List.drop_left

theorem Pipe.streamDevice : StreamDevice Pipe.serve Pipe.Queued Pipe.Queued := by
  constructor
  · rintro w f queue queue' mem x ⟨hf, rfl⟩ hop hoffset hserve
    rw [Pipe.serve, hop, hoffset, hf] at hserve
    simp only at hserve
    split at hserve
    next hfits =>
      obtain rfl := Option.some.inj hserve
      exact ⟨hfits, by simp [hf], rfl⟩
    · cases hserve
  · rintro w f queue queue' mem x ⟨hf, rfl⟩ hop hoffset hserve
    rw [Pipe.serve, hop, hoffset, hf] at hserve
    exact ⟨queue', hserve, by simp [hf], rfl⟩

end Devices
