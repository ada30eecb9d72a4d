import Mathlib.Data.List.Forall2
import Arkio.TransferBounds
import Arkio.TransferEnds

/-!
# What `transform_to_iovecs` promises

The iovecs of a slice denote the bytes from `skip` on, up to `max_len` of them
or to the end of the sequence, each in a buffer of its own. The end of the
sequence is where the sizes sum up to, which is `buffer_size` as long as a
`size_t` can hold it.
-/
namespace SliceContract

open Buffer TransferBounds TransferEnds

/-- The sum of the sizes, which no `size_t` cuts off. -/
def totalSize (bseq : List ConstBuffer) : Nat := (bseq.map ConstBuffer.size).sum

/-- The bytes of the concatenated sequence at the positions `first` to `last - 1`. -/
def between (bseq : List ConstBuffer) (first last : Nat) : List Nat :=
  ((addresses bseq).take last).drop first

/-- The iovec lies inside the buffer. -/
def Within (v : Iovec) (b : ConstBuffer) : Prop :=
  b.data ≤ v.base ∧ v.base + v.len ≤ b.data + b.size

/-- An exact slice of a sequence that is taken to end at `size`. -/
structure SlicesExactly (size : Nat) (bseq : List ConstBuffer) (skip maxLen : Nat)
    (iov : List Iovec) : Prop where
  denotes : iovAddresses iov = between bseq skip (min (skip + maxLen) size)
  /-- In order, each iovec lies in a buffer of its own. -/
  within : List.SublistForall₂ Within iov bseq
  length_le : iov.length ≤ bseq.length
  nonempty : 0 < maxLen → ∀ v ∈ iov, 0 < v.len
  /-- Neither counter wraps, and `subspan` gets no offset beyond its buffer. -/
  checked : checkedIovecs bseq skip maxLen = some iov
  composes : ∀ m k, maxLen = m + k → iovAddresses iov =
    iovAddresses (transformToIovecs bseq skip m) ++
      iovAddresses (transformToIovecs bseq (skip + m) k)

theorem transformToIovecs_between (bseq : List ConstBuffer) (skip maxLen : Nat) :
    iovAddresses (transformToIovecs bseq skip maxLen) =
      between bseq skip (min (skip + maxLen) (totalSize bseq)) := by
  have htotal : (addresses bseq).length = totalSize bseq := length_addresses bseq
  rw [transformToIovecs_addresses, between, ← htotal, ← List.take_take, List.take_length,
    List.drop_take, Nat.add_sub_cancel_left]

/-- Whole buffers are skipped, the others give an iovec each. -/
theorem transformToIovecs_within (bseq : List ConstBuffer) (skip maxLen : Nat) :
    List.SublistForall₂ Within (transformToIovecs bseq skip maxLen) bseq := by
  induction bseq generalizing skip maxLen with
  | nil => exact .nil
  | cons b bseq ih =>
    simp only [transformToIovecs]
    split
    next => exact .cons_right (ih _ _)
    next hskip =>
      refine .cons ?_ ?_
      · simp only [Within, toIovec, ConstBuffer.slice_data, ConstBuffer.slice_size]
        omega
      · split
        next => exact .nil
        next => exact ih _ _

theorem length_le_of_within {iov : List Iovec} {bseq : List ConstBuffer}
    (h : List.SublistForall₂ Within iov bseq) : iov.length ≤ bseq.length := by
  obtain ⟨touched, hwithin, hsub⟩ := List.sublistForall₂_iff.mp h
  rw [hwithin.length_eq]
  exact hsub.length_le

theorem bufferSize_eq_totalSize {bseq : List ConstBuffer} (h : totalSize bseq < sizeMod) :
    bufferSize bseq = totalSize bseq := by
  rw [totalSize, ← length_addresses] at h ⊢
  exact bufferSize_of_lt h

/-- Slicing is exact, for every sequence, every `skip` and every `max_len`. -/
theorem transformToIovecs_exact (bseq : List ConstBuffer) (skip maxLen : Nat) :
    SlicesExactly (totalSize bseq) bseq skip maxLen (transformToIovecs bseq skip maxLen) ∧
      (totalSize bseq < sizeMod → bufferSize bseq = totalSize bseq) := by
  refine ⟨⟨?_, ?_, ?_, ?_, ?_, ?_⟩, bufferSize_eq_totalSize⟩
  · exact transformToIovecs_between bseq skip maxLen
  · exact transformToIovecs_within bseq skip maxLen
  · exact length_le_of_within (transformToIovecs_within bseq skip maxLen)
  · intro h v hv
    exact transformToIovecs_pos h hv
  · exact checkedIovecs_eq bseq skip maxLen
  · rintro m k rfl
    exact transformToIovecs_append bseq skip m k

/-- A slice that skips one buffer and a part of the next, and cuts the last. -/
theorem transformToIovecs_exact_cut :
    let bseq : List ConstBuffer := [⟨100, 3, by decide⟩, ⟨150, 0, by decide⟩, ⟨200, 4, by decide⟩,
      ⟨300, 5, by decide⟩]
    SlicesExactly 12 bseq 4 5 [⟨201, 3⟩, ⟨300, 2⟩] ∧ bufferSize bseq = 12 := by
  intro bseq
  have hexact := transformToIovecs_exact bseq 4 5
  exact ⟨hexact.1, hexact.2 (by decide)⟩

/-- A region of 64 TiB, viewed 2^18 times. -/
def views : List ConstBuffer := List.replicate (2 ^ 18) ⟨2 ^ 20, 2 ^ 46, by decide⟩

theorem totalSize_views : totalSize views = sizeMod := by
  rw [totalSize, views, List.map_replicate, List.sum_replicate_nat, ← Nat.pow_add]
  rfl

/-- `buffer_size` of the views is 0, and the slices are not empty. -/
theorem not_exact_to_buffer_size :
    ¬∀ (bseq : List ConstBuffer) (skip maxLen : Nat),
      SlicesExactly (bufferSize bseq) bseq skip maxLen (transformToIovecs bseq skip maxLen) := by
  intro hall
  have hwrapped : bufferSize views = 0 := by
    rw [bufferSize_eq, length_addresses, ← totalSize, totalSize_views, Nat.mod_self]
  have hnone : iovAddresses (transformToIovecs views 0 1) = [] := by
    rw [(hall views 0 1).denotes, hwrapped]
    rfl
  have hone : (iovAddresses (transformToIovecs views 0 1)).length = 1 := by
    rw [length_iovAddresses, iovSize_slice, length_addresses, ← totalSize, totalSize_views]
    rfl
  rw [hnone] at hone
  cases hone

end SliceContract
