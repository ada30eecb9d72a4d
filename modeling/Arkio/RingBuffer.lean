import Mathlib.Data.BitVec
import Mathlib.Data.Nat.ModEq
import Mathlib.Logic.Function.Basic
import Mathlib.Data.List.Range

/-!
# Ring buffers with free-running indices

A producer and a consumer share `2 ^ m` slots. Each owns an index, a machine word
that runs freely and wraps: its residue modulo `2 ^ m` is a slot, and the
difference of the two is the number of entries. `contents` is the queue the ring
stands for. A push appends to it; advancing the head drops its first entry,
whichever entry the consumer had in mind.
-/
namespace RingBuffer

variable {w m : Nat} {α : Type*}

abbrev Slot (m : Nat) := Fin (2 ^ m)

/-- The slot an index points to. -/
def slot (i : BitVec w) : Slot m := ⟨i.toNat % 2 ^ m, Nat.mod_lt _ (Nat.two_pow_pos m)⟩

/-- The index that many steps on. -/
def after (i : BitVec w) (n : Nat) : BitVec w := i + BitVec.ofNat w n

@[simp] theorem after_zero (i : BitVec w) : after i 0 = i := by simp [after]

theorem after_after (i : BitVec w) (n k : Nat) : after (after i n) k = after i (n + k) := by
  rw [after, after, after, BitVec.ofNat_add, BitVec.add_assoc]

theorem after_toNat_sub (i j : BitVec w) : after i (j - i).toNat = j := by
  rw [after, BitVec.ofNat_toNat, BitVec.setWidth_eq, BitVec.add_comm, BitVec.sub_add_cancel]

theorem slot_after_val (hm : m ≤ w) (i : BitVec w) (n : Nat) :
    (slot (after i n) : Slot m).val = (i.toNat + n) % 2 ^ m := by
  have hdvd : 2 ^ m ∣ 2 ^ w := Nat.pow_dvd_pow 2 hm
  simp only [slot, after, BitVec.toNat_add, BitVec.toNat_ofNat, Nat.mod_mod_of_dvd _ hdvd]
  rw [Nat.add_mod, Nat.mod_mod_of_dvd _ hdvd, ← Nat.add_mod]

/-- Fewer than `2 ^ m` steps apart, two indices have different slots. -/
theorem slot_after_ne (hm : m ≤ w) (i : BitVec w) {j k : Nat} (hjk : j < k) (hk : k < 2 ^ m) :
    (slot (after i j) : Slot m) ≠ slot (after i k) := by
  intro heq
  have hmod : i.toNat + j ≡ i.toNat + k [MOD 2 ^ m] := by
    rw [Nat.ModEq, ← slot_after_val hm, ← slot_after_val hm, heq]
  have hsame := Nat.ModEq.add_left_cancel' _ hmod
  rw [Nat.ModEq, Nat.mod_eq_of_lt (hjk.trans hk), Nat.mod_eq_of_lt hk] at hsame
  omega

/-- The slots of `n` successive indices. -/
def slots (i : BitVec w) (n : Nat) : List (Slot m) := (List.range n).map fun j => slot (after i j)

@[simp] theorem length_slots (i : BitVec w) (n : Nat) : (slots i n : List (Slot m)).length = n := by
  simp [slots]

theorem getElem?_slots {i : BitVec w} {n j : Nat} (hj : j < n) :
    (slots i n : List (Slot m))[j]? = some (slot (after i j)) := by
  simp [slots, hj]

structure Ring (w m : Nat) (α : Type*) where
  head : BitVec w
  tail : BitVec w
  entries : Slot m → α

namespace Ring

/-- The number of entries. -/
def ready (r : Ring w m α) : Nat := (r.tail - r.head).toNat

/-- The entry that many places behind the head. -/
def entry (r : Ring w m α) (i : Nat) : α := r.entries (slot (after r.head i))

/-- The queue the ring stands for. -/
def contents (r : Ring w m α) : List α := (List.range r.ready).map r.entry

/-- The producer fills the slot of the tail and then moves the tail. -/
def push (r : Ring w m α) (a : α) : Ring w m α :=
  { r with
    entries := Function.update r.entries (slot r.tail) a
    tail := r.tail + 1 }

/-- The consumer releases the slot of the head. -/
def advance (r : Ring w m α) : Ring w m α := { r with head := r.head + 1 }

@[simp] theorem head_push (r : Ring w m α) (a : α) : (r.push a).head = r.head := rfl

@[simp] theorem head_advance (r : Ring w m α) : r.advance.head = after r.head 1 := rfl

/-- There are no more entries than slots, and a full ring differs from an empty one. -/
structure WellFormed (r : Ring w m α) : Prop where
  ready_le : r.ready ≤ 2 ^ m
  bits : m < w

@[simp] theorem length_contents (r : Ring w m α) : r.contents.length = r.ready := by
  simp [contents]

theorem ready_push {r : Ring w m α} (a : α) (hwf : r.WellFormed) (hroom : r.ready < 2 ^ m) :
    (r.push a).ready = r.ready + 1 := by
  have hpow : 2 ^ m < 2 ^ w := Nat.pow_lt_pow_right (by decide) hwf.bits
  have hone : (1 : BitVec w).toNat = 1 := BitVec.toNat_one (by have := hwf.bits; omega)
  have hsub : r.tail + 1 - r.head = r.tail - r.head + 1 := BitVec.sub_add_comm.symm
  rw [ready] at hroom
  simp only [ready, push, hsub]
  rw [BitVec.toNat_add_of_lt (by omega), hone]

theorem ready_advance {r : Ring w m α} (hsome : 0 < r.ready) : r.advance.ready + 1 = r.ready := by
  rw [ready] at hsome
  have hlt := (r.tail - r.head).isLt
  have hone : (1 : BitVec w).toNat = 1 := by
    refine BitVec.toNat_one (Nat.pos_of_ne_zero ?_)
    rintro rfl
    omega
  have hle : 1 ≤ r.tail - r.head := by
    rw [BitVec.le_def, hone]
    exact hsome
  simp only [ready, advance]
  rw [← BitVec.sub_sub, BitVec.toNat_sub_of_le hle, hone]
  exact Nat.sub_add_cancel hsome

theorem WellFormed.push {r : Ring w m α} (a : α) (hwf : r.WellFormed) (hroom : r.ready < 2 ^ m) :
    (r.push a).WellFormed := by
  refine ⟨?_, hwf.bits⟩
  rw [ready_push a hwf hroom]
  omega

theorem WellFormed.advance {r : Ring w m α} (hwf : r.WellFormed) (hsome : 0 < r.ready) :
    r.advance.WellFormed := by
  have hready := ready_advance hsome
  have hle := hwf.ready_le
  exact ⟨by omega, hwf.bits⟩

/-- A push into a free slot appends to the queue. -/
theorem contents_push {r : Ring w m α} (a : α) (hwf : r.WellFormed) (hroom : r.ready < 2 ^ m) :
    (r.push a).contents = r.contents ++ [a] := by
  have htail : after r.head r.ready = r.tail := after_toNat_sub r.head r.tail
  have hlast : (r.push a).entry r.ready = a := by
    simp [entry, Ring.push, htail]
  have hfirst : ∀ i ∈ List.range r.ready, (r.push a).entry i = r.entry i := by
    intro i hi
    have hne := slot_after_ne hwf.bits.le r.head (List.mem_range.mp hi) hroom
    rw [htail] at hne
    exact Function.update_of_ne hne ..
  rw [contents, ready_push a hwf hroom, List.range_succ, List.map_append,
    List.map_congr_left hfirst, List.map_singleton, hlast]
  rfl

/-- Advancing the head drops the first entry. -/
theorem contents_eq_cons {r : Ring w m α} (hsome : 0 < r.ready) :
    r.contents = r.entries (slot r.head) :: r.advance.contents := by
  rw [contents, ← ready_advance hsome, List.range_succ_eq_map, List.map_cons, List.map_map,
    contents, entry, after_zero]
  congr 1
  refine List.map_congr_left fun i _ => ?_
  simp only [Function.comp, entry, head_advance, after_after, Nat.add_comm 1 i]
  rfl

end Ring

end RingBuffer
