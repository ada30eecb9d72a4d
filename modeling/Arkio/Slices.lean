import Mathlib.Algebra.GroupWithZero.Nat
import Arkio.Buffer
import Arkio.ScatteredStore

/-!
# What sequences and slices denote

A buffer sequence denotes the addresses of its bytes, in order, and so does a
list of iovecs. `transform_to_iovecs` is slicing: its iovecs denote the
addresses from `skip` on, `max_len` of them at most. Everything that the kernel
does through iovecs is then a matter of one list of addresses: a gathered write
reads through it, a scattered read stores to it.
-/
namespace Buffer

open ScatteredStore

/-- The addresses a buffer views. -/
def ConstBuffer.addresses (b : ConstBuffer) : List Nat := List.range' b.data b.size

/-- The addresses an iovec denotes. -/
def Iovec.addresses (v : Iovec) : List Nat := List.range' v.base v.len

/-- The concatenated sequence. -/
def addresses (bseq : List ConstBuffer) : List Nat := bseq.flatMap ConstBuffer.addresses

def iovAddresses (iov : List Iovec) : List Nat := iov.flatMap Iovec.addresses

@[simp] theorem ConstBuffer.length_addresses (b : ConstBuffer) : b.addresses.length = b.size := by
  simp [ConstBuffer.addresses]

@[simp] theorem ConstBuffer.mem_addresses {b : ConstBuffer} {a : Nat} :
    a ∈ b.addresses ↔ b.Covers a := by
  simp [ConstBuffer.addresses, ConstBuffer.Covers]

@[simp] theorem Iovec.length_addresses (v : Iovec) : v.addresses.length = v.len := by
  simp [Iovec.addresses]

@[simp] theorem addresses_nil : addresses [] = [] := rfl

@[simp] theorem addresses_cons (b : ConstBuffer) (bseq : List ConstBuffer) :
    addresses (b :: bseq) = b.addresses ++ addresses bseq := rfl

@[simp] theorem iovAddresses_nil : iovAddresses [] = [] := rfl

@[simp] theorem iovAddresses_cons (v : Iovec) (iov : List Iovec) :
    iovAddresses (v :: iov) = v.addresses ++ iovAddresses iov := rfl

theorem length_addresses (bseq : List ConstBuffer) :
    (addresses bseq).length = (bseq.map ConstBuffer.size).sum := by
  simp [addresses, List.length_flatMap]

theorem mem_addresses {bseq : List ConstBuffer} {a : Nat} :
    a ∈ addresses bseq ↔ ∃ b ∈ bseq, b.Covers a := by
  simp [addresses]

/-- `buffer_size` is the number of bytes of the sequence, as far as a `size_t`
can hold it. -/
theorem bufferSize_eq (bseq : List ConstBuffer) :
    bufferSize bseq = (addresses bseq).length % sizeMod := by
  have hfold : ∀ total, bseq.foldl (fun total b => (total + b.size) % sizeMod) (total % sizeMod) =
      (total + (addresses bseq).length) % sizeMod := by
    induction bseq with
    | nil => simp
    | cons b bseq ih =>
      intro total
      rw [List.foldl_cons, Nat.mod_add_mod, ih]
      simp [Nat.add_assoc]
  simpa [bufferSize] using hfold 0

theorem bufferSize_of_lt {bseq : List ConstBuffer} (h : (addresses bseq).length < sizeMod) :
    bufferSize bseq = (addresses bseq).length := by
  rw [bufferSize_eq, Nat.mod_eq_of_lt h]

theorem bufferSize_le (bseq : List ConstBuffer) : bufferSize bseq ≤ (addresses bseq).length := by
  rw [bufferSize_eq]
  exact Nat.mod_le _ _

/-- The iovecs of a slice denote the addresses of the slice. -/
theorem transformToIovecs_addresses (bseq : List ConstBuffer) (skip maxLen : Nat) :
    iovAddresses (transformToIovecs bseq skip maxLen) =
      ((addresses bseq).drop skip).take maxLen := by
  induction bseq generalizing skip maxLen with
  | nil => simp [transformToIovecs]
  | cons b bseq ih =>
    simp only [transformToIovecs]
    split
    next hskip =>
      have hnone : b.addresses.drop skip = [] := List.drop_eq_nil_of_le (by simpa using hskip)
      rw [ih, addresses_cons, List.drop_append, hnone, ConstBuffer.length_addresses,
        List.nil_append]
    next hskip =>
      have hslice : (toIovec (b.slice skip maxLen (by omega))).addresses =
          (b.addresses.drop skip).take maxLen := by
        simp only [Iovec.addresses, toIovec, ConstBuffer.slice_data, ConstBuffer.slice_size,
          ConstBuffer.addresses, List.drop_range', Nat.mul_one]
        by_cases hcut : maxLen ≤ b.size - skip
        · rw [List.take_range'_of_length_ge hcut, Nat.min_eq_right hcut]
        · rw [List.take_range'_of_length_le (by omega), Nat.min_eq_left (by omega)]
      have hrest : iovAddresses (if maxLen - (b.slice skip maxLen (by omega)).size = 0 then []
          else transformToIovecs bseq 0 (maxLen - (b.slice skip maxLen (by omega)).size)) =
          (addresses bseq).take (maxLen - (b.size - skip)) := by
        rw [ConstBuffer.slice_size]
        split
        next hleft => rw [show maxLen - (b.size - skip) = 0 by omega]; rfl
        next hleft =>
          rw [ih, List.drop_zero]
          congr 1
          omega
      rw [iovAddresses_cons, hslice, hrest, addresses_cons, List.drop_append, List.take_append]
      simp [show skip - b.size = 0 by omega]

/-- A slice of a slice's continuation: slicing composes. -/
theorem transformToIovecs_append (bseq : List ConstBuffer) (skip m k : Nat) :
    iovAddresses (transformToIovecs bseq skip (m + k)) =
      iovAddresses (transformToIovecs bseq skip m) ++
        iovAddresses (transformToIovecs bseq (skip + m) k) := by
  simp only [transformToIovecs_addresses, List.take_add, List.drop_drop]

/-- The number of bytes a list of iovecs denotes. -/
def iovSize (iov : List Iovec) : Nat := (iov.map Iovec.len).sum

theorem length_iovAddresses (iov : List Iovec) : (iovAddresses iov).length = iovSize iov := by
  induction iov with
  | nil => rfl
  | cons v iov ih => simp [iovSize, ih]

/-- The number of bytes a slice denotes. -/
theorem iovSize_slice (bseq : List ConstBuffer) (skip maxLen : Nat) :
    iovSize (transformToIovecs bseq skip maxLen) =
      min maxLen ((addresses bseq).length - skip) := by
  rw [← length_iovAddresses, transformToIovecs_addresses]
  simp

/-- The bytes that a sequence holds. -/
def content (mem : Memory) (bseq : List ConstBuffer) : List UInt8 := (addresses bseq).map mem

/-- The bytes that the kernel finds through iovecs. -/
def gather (iov : List Iovec) (mem : Memory) : List UInt8 := (iovAddresses iov).map mem

@[simp] theorem length_content (mem : Memory) (bseq : List ConstBuffer) :
    (content mem bseq).length = (addresses bseq).length := by
  simp [content]

/-- A gathered slice is a slice of the content. -/
theorem gather_slice (bseq : List ConstBuffer) (skip maxLen : Nat) (mem : Memory) :
    gather (transformToIovecs bseq skip maxLen) mem =
      ((content mem bseq).drop skip).take maxLen := by
  simp [gather, content, transformToIovecs_addresses, List.map_take, List.map_drop]

/-- A plain store as a scattered one. -/
theorem store_eq_storeAt {n : Nat} {bytes : List UInt8} (h : bytes.length ≤ n) (addr : Nat)
    (mem : Memory) : store mem addr bytes = storeAt (List.range' addr n) bytes mem := by
  induction bytes generalizing addr mem n with
  | nil => simp [store]
  | cons x bytes ih =>
    simp only [List.length_cons] at h
    obtain ⟨n, rfl⟩ : ∃ k, n = k + 1 := ⟨n - 1, by omega⟩
    rw [store, List.range'_succ, storeAt_cons]
    exact ih (by omega) _ _

/-- The kernel's scattered read is one store to the addresses of the iovecs. -/
theorem scatter_eq_storeAt (iov : List Iovec) (bytes : List UInt8) (mem : Memory) :
    scatter iov bytes mem = storeAt (iovAddresses iov) bytes mem := by
  induction iov generalizing bytes mem with
  | nil => simp [scatter]
  | cons v iov ih =>
    have hfirst : store mem v.base (bytes.take v.len) = storeAt v.addresses bytes mem := by
      rw [store_eq_storeAt (List.length_take_le v.len bytes)]
      exact storeAt_take_right (by simp) bytes mem
    rw [scatter, ih, iovAddresses_cons, storeAt_append, hfirst, Iovec.length_addresses]

/-- No byte belongs to both buffers. -/
def ConstBuffer.Apart (b c : ConstBuffer) : Prop := ∀ a, b.Covers a → ¬c.Covers a

theorem ConstBuffer.apart_iff {b c : ConstBuffer} : b.Apart c ↔
    b.size = 0 ∨ c.size = 0 ∨ b.data + b.size ≤ c.data ∨ c.data + c.size ≤ b.data := by
  constructor
  · intro h
    have hmax := h (max b.data c.data)
    simp only [Covers] at hmax
    omega
  · intro h a hb hc
    simp only [Covers] at hb hc
    omega

instance (b c : ConstBuffer) : Decidable (b.Apart c) := decidable_of_iff _ ConstBuffer.apart_iff.symm

/-- The addresses of buffers that do not overlap are distinct. -/
theorem nodup_addresses {bseq : List ConstBuffer} (h : bseq.Pairwise ConstBuffer.Apart) :
    (addresses bseq).Nodup := by
  rw [addresses, List.nodup_flatMap]
  refine ⟨fun b _ => List.nodup_range', h.imp ?_⟩
  intro b c hapart a hb hc
  exact hapart a (ConstBuffer.mem_addresses.mp hb) (ConstBuffer.mem_addresses.mp hc)

end Buffer
