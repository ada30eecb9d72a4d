import Mathlib.Data.List.Nodup
import Mathlib.Data.List.Flatten
import Mathlib.Data.List.TakeDrop
import Mathlib.Logic.Function.Basic

/-!
# Stores to scattered addresses

A memory is a function from addresses to values. A scattered store writes a list
of values to a list of addresses, one each, until either list ends. Where the
addresses are distinct it is a plain overwrite of the values seen through them:
`map_storeAt_drop` says so for a store that starts somewhere inside the list.
-/
namespace ScatteredStore

variable {α β : Type*} [DecidableEq α] {as as' : List α} {xs ys : List β} {m : α → β} {a : α}

/-- Store the values at the addresses. -/
def storeAt : List α → List β → (α → β) → α → β
  | a :: as, x :: xs, m => storeAt as xs (Function.update m a x)
  | _, _, m => m

@[simp] theorem storeAt_nil_left (xs : List β) (m : α → β) : storeAt [] xs m = m := by
  cases xs <;> rfl

@[simp] theorem storeAt_nil_right (as : List α) (m : α → β) : storeAt as [] m = m := by
  cases as <;> rfl

@[simp] theorem storeAt_cons (a : α) (as : List α) (x : β) (xs : List β) (m : α → β) :
    storeAt (a :: as) (x :: xs) m = storeAt as xs (Function.update m a x) := rfl

/-- A store to two lists of addresses is one store after the other. -/
theorem storeAt_append (as as' : List α) (xs : List β) (m : α → β) :
    storeAt (as ++ as') xs m = storeAt as' (xs.drop as.length) (storeAt as xs m) := by
  induction as generalizing xs m with
  | nil => simp
  | cons a as ih =>
    cases xs with
    | nil => simp
    | cons x xs => simp [ih]

/-- Addresses beyond the last value play no part. -/
theorem storeAt_take_left {n : Nat} (h : xs.length ≤ n) (as : List α) (m : α → β) :
    storeAt (as.take n) xs m = storeAt as xs m := by
  induction as generalizing xs m n with
  | nil => simp
  | cons a as ih =>
    cases xs with
    | nil => simp
    | cons x xs =>
      obtain ⟨n, rfl⟩ : ∃ k, n = k + 1 := ⟨n - 1, by simp only [List.length_cons] at h; omega⟩
      simp only [List.take_succ_cons, storeAt_cons]
      exact ih (by simp only [List.length_cons] at h; omega) _

/-- Values beyond the last address play no part. -/
theorem storeAt_take_right {n : Nat} (h : as.length ≤ n) (xs : List β) (m : α → β) :
    storeAt as (xs.take n) m = storeAt as xs m := by
  induction as generalizing xs m n with
  | nil => simp
  | cons a as ih =>
    cases xs with
    | nil => simp
    | cons x xs =>
      obtain ⟨n, rfl⟩ : ∃ k, n = k + 1 := ⟨n - 1, by simp only [List.length_cons] at h; omega⟩
      simp only [List.take_succ_cons, storeAt_cons]
      exact ih (by simp only [List.length_cons] at h; omega) _ _

/-- A store of `n + k` values is a store of `n` and then one of `k`. -/
theorem storeAt_take_add {n : Nat} (h : n ≤ as.length) (xs : List β) (k : Nat) (m : α → β) :
    storeAt as (xs.take (n + k)) m =
      storeAt (as.drop n) ((xs.drop n).take k) (storeAt as (xs.take n) m) := by
  have hlen : (as.take n).length = n := List.length_take_of_le h
  have hfront : storeAt (as.take n) (xs.take (n + k)) m = storeAt as (xs.take n) m := by
    rw [← storeAt_take_right (Nat.le_of_eq hlen), List.take_take, Nat.min_eq_left (by omega)]
    exact storeAt_take_left (List.length_take_le n xs) as m
  calc storeAt as (xs.take (n + k)) m
      = storeAt (as.take n ++ as.drop n) (xs.take (n + k)) m := by rw [List.take_append_drop]
    _ = storeAt (as.drop n) ((xs.take (n + k)).drop n) (storeAt as (xs.take n) m) := by
        rw [storeAt_append, hlen, hfront]
    _ = _ := by rw [List.drop_take, Nat.add_sub_cancel_left]

theorem storeAt_of_notMem (h : a ∉ as) (xs : List β) (m : α → β) : storeAt as xs m a = m a := by
  induction as generalizing xs m with
  | nil => simp
  | cons a' as ih =>
    cases xs with
    | nil => simp
    | cons x xs =>
      have hne : a ≠ a' := List.ne_of_not_mem_cons h
      rw [storeAt_cons, ih fun hmem => h (List.mem_cons_of_mem a' hmem)]
      exact Function.update_of_ne hne x m

/-- What is seen through addresses apart from those of the store. -/
theorem map_storeAt_of_disjoint (h : List.Disjoint as as') (xs : List β) (m : α → β) :
    as.map (storeAt as' xs m) = as.map m := by
  apply List.map_congr_left
  intro a ha
  exact storeAt_of_notMem (h ha) xs m

/-- What is seen through the addresses of the store themselves. -/
theorem map_storeAt (hnodup : as.Nodup) (hlen : xs.length ≤ as.length) (m : α → β) :
    as.map (storeAt as xs m) = xs ++ (as.map m).drop xs.length := by
  induction as generalizing xs m with
  | nil =>
    have hnil : xs = [] := List.eq_nil_of_length_eq_zero (by simpa using hlen)
    simp [hnil]
  | cons a as ih =>
    obtain ⟨ha, hnodup⟩ := List.nodup_cons.mp hnodup
    cases xs with
    | nil => simp
    | cons x xs =>
      have hkeep : as.map (Function.update m a x) = as.map m := by
        apply List.map_congr_left
        intro a' ha'
        have hne : a' ≠ a := ne_of_mem_of_not_mem ha' ha
        exact Function.update_of_ne hne x m
      rw [storeAt_cons, List.map_cons, storeAt_of_notMem ha, Function.update_self,
        ih hnodup (by simpa using hlen), hkeep]
      simp

/-- The overwritten list up to the end of the overwrite. -/
theorem take_overwrite {k : Nat} {ys : List β} (hlen : k + xs.length ≤ ys.length) :
    (ys.take k ++ xs ++ ys.drop (k + xs.length)).take (k + xs.length) = ys.take k ++ xs := by
  have hfront : (ys.take k ++ xs).length = k + xs.length := by
    rw [List.length_append, List.length_take]
    omega
  rw [← hfront]
  exact List.take_left

/-- The overwritten list beyond the end of the overwrite. -/
theorem drop_overwrite {k : Nat} {ys : List β} (hlen : k + xs.length ≤ ys.length) (n : Nat) :
    (ys.take k ++ xs ++ ys.drop (k + xs.length)).drop (k + xs.length + n) =
      ys.drop (k + xs.length + n) := by
  have hfront : (ys.take k ++ xs).length = k + xs.length := by
    rw [List.length_append, List.length_take]
    omega
  rw [← List.drop_drop, ← hfront, List.drop_left, hfront, List.drop_drop]

/-- A store that starts `k` addresses into the list. -/
theorem map_storeAt_drop {k : Nat} (hnodup : as.Nodup) (hlen : k + xs.length ≤ as.length)
    (m : α → β) :
    as.map (storeAt (as.drop k) xs m) =
      (as.map m).take k ++ xs ++ (as.map m).drop (k + xs.length) := by
  have hsplit : as.take k ++ as.drop k = as := List.take_append_drop k as
  have hparts : (as.take k ++ as.drop k).Nodup := hsplit.symm ▸ hnodup
  obtain ⟨-, htail, hdis⟩ := List.nodup_append'.mp hparts
  calc as.map (storeAt (as.drop k) xs m)
      = (as.take k).map (storeAt (as.drop k) xs m) ++
          (as.drop k).map (storeAt (as.drop k) xs m) := by
        rw [← List.map_append, hsplit]
    _ = (as.take k).map m ++ (xs ++ ((as.drop k).map m).drop xs.length) := by
        rw [map_storeAt_of_disjoint hdis, map_storeAt htail (by rw [List.length_drop]; omega)]
    _ = (as.map m).take k ++ xs ++ (as.map m).drop (k + xs.length) := by
        rw [List.map_take, List.map_drop, List.drop_drop, List.append_assoc]

end ScatteredStore
