import Mathlib.Algebra.Group.Nat.Defs
import Mathlib.Data.List.Basic
import Mathlib.Logic.Function.Basic

/-!
# Buffers, buffer sequences and iovecs

`buffer.hpp`, `sequence.hpp`, `iovecs.hpp` and `completion_condition.hpp`. A
buffer is a view of a range of the address space, a buffer sequence is the list
of buffers it iterates over, and the memory itself is apart from both. A
`size_t` is a natural number below 2^64; sums of sizes are taken modulo 2^64.
-/
namespace Buffer

/-- The number of values of a `size_t`. -/
def sizeMod : Nat := 2 ^ 64

/-- `const_buffer` and `mutable_buffer`: the range it views ends inside the
address space. -/
structure ConstBuffer where
  data : Nat
  size : Nat
  fits : data + size ≤ sizeMod
  deriving DecidableEq, Repr

/-- `b += offset`, which is `subspan(offset)`. -/
def ConstBuffer.advance (b : ConstBuffer) (offset : Nat) (h : offset ≤ b.size) : ConstBuffer where
  data := b.data + offset
  size := b.size - offset
  fits := by
    have := b.fits
    omega

/-- `buffer(b, n)`: at most the first `n` bytes. -/
def buffer (b : ConstBuffer) (n : Nat) : ConstBuffer where
  data := b.data
  size := min b.size n
  fits := by
    have := b.fits
    omega

/-- `buffer_size`. -/
def bufferSize (bseq : List ConstBuffer) : Nat :=
  bseq.foldl (fun total b => (total + b.size) % sizeMod) 0

theorem foldl_size_lt (bseq : List ConstBuffer) (total : Nat) (h : total < sizeMod) :
    bseq.foldl (fun total b => (total + b.size) % sizeMod) total < sizeMod := by
  induction bseq generalizing total with
  | nil => exact h
  | cons b bseq ih => exact ih _ (Nat.mod_lt _ (by decide))

/-- The sum of the sizes is a `size_t`. -/
theorem bufferSize_lt (bseq : List ConstBuffer) : bufferSize bseq < sizeMod :=
  foldl_size_lt bseq 0 (by decide)

structure Iovec where
  base : Nat
  len : Nat
  deriving DecidableEq, Repr

def toIovec (b : ConstBuffer) : Iovec := ⟨b.data, b.size⟩

/-- The buffer that one round of `transform_to_iovecs` emits: past the bytes to
skip, and cut to what is left of `max_len`. -/
def ConstBuffer.slice (b : ConstBuffer) (skip maxLen : Nat) (h : skip ≤ b.size) : ConstBuffer :=
  let b := b.advance skip h
  if maxLen < b.size then buffer b maxLen else b

@[simp] theorem ConstBuffer.slice_data (b : ConstBuffer) (skip maxLen : Nat) (h : skip ≤ b.size) :
    (b.slice skip maxLen h).data = b.data + skip := by
  simp only [ConstBuffer.slice]
  split <;> rfl

@[simp] theorem ConstBuffer.slice_size (b : ConstBuffer) (skip maxLen : Nat) (h : skip ≤ b.size) :
    (b.slice skip maxLen h).size = min (b.size - skip) maxLen := by
  simp only [ConstBuffer.slice]
  split
  · simp only [buffer, ConstBuffer.advance]
  next hlt =>
    simp only [ConstBuffer.advance] at hlt ⊢
    omega

/-- `transform_to_iovecs`, with the output iterator as the list it appends. -/
def transformToIovecs : List ConstBuffer → Nat → Nat → List Iovec
  | [], _, _ => []
  | b :: bseq, skip, maxLen =>
    if h : b.size ≤ skip then transformToIovecs bseq (skip - b.size) maxLen
    else
      let b := b.slice skip maxLen (by omega)
      let left := maxLen - b.size
      toIovec b :: if left = 0 then [] else transformToIovecs bseq 0 left

/-- `to_iovecs`. -/
def toIovecs (bseq : List ConstBuffer) (skip maxLen : Nat) : List Iovec :=
  transformToIovecs bseq skip maxLen

/-- The address lies inside the iovec. -/
def Iovec.Covers (v : Iovec) (a : Nat) : Prop := v.base ≤ a ∧ a < v.base + v.len

/-- The address lies inside the buffer. -/
def ConstBuffer.Covers (b : ConstBuffer) (a : Nat) : Prop := b.data ≤ a ∧ a < b.data + b.size

/-- The iovecs of a slice denote bytes of the sequence only. -/
theorem transformToIovecs_covers {bseq : List ConstBuffer} {skip maxLen : Nat} {v : Iovec}
    {a : Nat} (hv : v ∈ transformToIovecs bseq skip maxLen) (ha : v.Covers a) :
    ∃ b ∈ bseq, b.Covers a := by
  induction bseq generalizing skip maxLen with
  | nil => simp [transformToIovecs] at hv
  | cons b bseq ih =>
    simp only [transformToIovecs] at hv
    split at hv
    · obtain ⟨b', hb', hc⟩ := ih hv
      exact ⟨b', List.mem_cons_of_mem b hb', hc⟩
    next hskip =>
      rcases List.mem_cons.mp hv with rfl | hv
      · refine ⟨b, List.mem_cons_self, ?_⟩
        simp only [Iovec.Covers, toIovec, ConstBuffer.slice_data, ConstBuffer.slice_size] at ha
        simp only [ConstBuffer.Covers]
        omega
      · split at hv
        · simp at hv
        · obtain ⟨b', hb', hc⟩ := ih hv
          exact ⟨b', List.mem_cons_of_mem b hb', hc⟩

/-- A completion condition, as a function of the size of the sequence and the
bytes done. -/
abbrev CompletionCondition := Nat → Nat → Nat

def transferAll : CompletionCondition := fun bufferSz done =>
  if done < bufferSz then bufferSz - done else 0

def transferAtLeast (n : Nat) : CompletionCondition := fun bufferSz done =>
  if done < min n bufferSz then bufferSz - done else 0

def transferExactly (n : Nat) : CompletionCondition := fun bufferSz done =>
  if done < min n bufferSz then min n bufferSz - done else 0

/-- The bytes of the address space. -/
abbrev Memory := Nat → UInt8

/-- Store bytes from an address on. -/
def store (mem : Memory) (addr : Nat) : List UInt8 → Memory
  | [] => mem
  | x :: bytes => store (Function.update mem addr x) (addr + 1) bytes

/-- What the kernel does with the bytes of a vectored read: it fills the iovecs
in order. -/
def scatter : List Iovec → List UInt8 → Memory → Memory
  | [], _, mem => mem
  | v :: iov, bytes, mem =>
    scatter iov (bytes.drop v.len) (store mem v.base (bytes.take v.len))

@[simp] theorem scatter_nil (iov : List Iovec) (mem : Memory) : scatter iov [] mem = mem := by
  induction iov with
  | nil => rfl
  | cons v iov ih => simpa [scatter, store] using ih

theorem store_frame {mem : Memory} {addr a : Nat} {bytes : List UInt8}
    (h : a < addr ∨ addr + bytes.length ≤ a) : store mem addr bytes a = mem a := by
  induction bytes generalizing mem addr with
  | nil => rfl
  | cons x bytes ih =>
    simp only [List.length_cons] at h
    rw [store, ih (by omega), Function.update_of_ne (by omega)]

/-- A scattered read leaves every byte outside its iovecs alone. -/
theorem scatter_frame {iov : List Iovec} {bytes : List UInt8} {mem : Memory} {a : Nat}
    (h : ∀ v ∈ iov, ¬v.Covers a) : scatter iov bytes mem a = mem a := by
  induction iov generalizing bytes mem with
  | nil => rfl
  | cons v iov ih =>
    rw [scatter, ih fun w hw => h w (List.mem_cons_of_mem v hw)]
    have hv := h v List.mem_cons_self
    simp only [Iovec.Covers, not_and, Nat.not_lt] at hv
    apply store_frame
    have hlen : (bytes.take v.len).length ≤ v.len := List.length_take_le _ _
    omega

theorem store_congr {mem mem' : Memory} {a : Nat} (h : mem a = mem' a) (addr : Nat)
    (bytes : List UInt8) : store mem addr bytes a = store mem' addr bytes a := by
  induction bytes generalizing mem mem' addr with
  | nil => exact h
  | cons x bytes ih =>
    apply ih
    by_cases ha : a = addr
    · simp [ha]
    · simp [Function.update_of_ne ha, h]

/-- What a scattered read leaves at an address depends on that address only. -/
theorem scatter_congr {mem mem' : Memory} {a : Nat} (h : mem a = mem' a) (iov : List Iovec)
    (bytes : List UInt8) : scatter iov bytes mem a = scatter iov bytes mem' a := by
  induction iov generalizing bytes mem mem' with
  | nil => exact h
  | cons v iov ih =>
    apply ih
    exact store_congr h v.base (bytes.take v.len)

end Buffer
