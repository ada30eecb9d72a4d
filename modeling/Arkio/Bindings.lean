import Mathlib.Data.List.Basic

/-!
# Results, error codes and callbacks

The vocabulary that `bindings.hpp`, `clinux.hpp`, `callback.hpp` and
`async_op.hpp` give the rest of the library: `result<T>` is a value or an
`error_code`, a callback is a `unique_function`, a movable slot that is empty
once it was moved from, and an `async_op` owns such a slot.
-/
namespace Bindings

/-- `as_ec` builds codes of the generic category, `cqe_ref::to_result` of the
system category. -/
inductive Category where
  | generic | system
  deriving DecidableEq, Repr

structure ErrorCode where
  value : Int
  category : Category
  deriving DecidableEq, Repr

/-- `explicit operator bool` of `error_code`. -/
def ErrorCode.isError (e : ErrorCode) : Bool := e.value != 0

/-- The default constructed `error_code`. -/
def ErrorCode.none : ErrorCode := ⟨0, .system⟩

/-- `as_ec(errc_int)`. -/
def asEc (errc : Int) : ErrorCode := ⟨errc, .generic⟩

def ENOBUFS : Int := 105

/-- `result<T>` of outcome. -/
abbrev Result (α : Type*) := Except ErrorCode α

/-- `cqe_ref::to_result<long>`: a negative `res` is an errno. -/
def toResult (res : Int) : Result Int :=
  if res < 0 then .error ⟨-res, .system⟩ else .ok res

theorem toResult_neg {res : Int} (h : res < 0) : toResult res = .error ⟨-res, .system⟩ :=
  if_pos h

theorem toResult_nonneg {res : Int} (h : 0 ≤ res) : toResult res = .ok res :=
  if_neg (by omega)

theorem toResult_injective : Function.Injective toResult := by
  intro res res' h
  simp only [toResult] at h
  split at h <;> split at h
  · simpa using h
  · cases h
  · cases h
  · simpa using h

/-- What running a piece of callback code makes visible: calls of the user's
function, the call of an empty `unique_function`, and `value()` taken of an
errored `result`. The last two end the process in this `noexcept` code. -/
inductive Effect (κ α : Type*) where
  | call (cb : κ) (ret : Result α)
  | emptyCall
  | errorValue
  deriving Repr

/-- `unique_function::operator()` on a slot: the user's function runs only if
the slot still owns it. -/
def invoke {κ α : Type*} (slot : Option κ) (ret : Result α) : List (Effect κ α) :=
  match slot with
  | some cb => [.call cb ret]
  | none => [.emptyCall]

/-- The calls of the user's function among the effects. -/
def calls {κ α : Type*} (es : List (Effect κ α)) : List (κ × Result α) :=
  es.filterMap fun e =>
    match e with
    | .call cb ret => some (cb, ret)
    | _ => none

@[simp] theorem calls_nil {κ α : Type*} : calls ([] : List (Effect κ α)) = [] := rfl

@[simp] theorem calls_append {κ α : Type*} (es es' : List (Effect κ α)) :
    calls (es ++ es') = calls es ++ calls es' := List.filterMap_append

@[simp] theorem calls_invoke_some {κ α : Type*} (cb : κ) (ret : Result α) :
    calls (invoke (some cb) ret) = [(cb, ret)] := rfl

@[simp] theorem calls_invoke_none {κ α : Type*} (ret : Result α) :
    calls (invoke (none : Option κ) ret) = [] := rfl

/-- `async_op`: the slot of the user's callback, and the locals of the operation. -/
structure AsyncOp (κ ℓ : Type*) where
  cb : Option κ
  locals : ℓ

/-- `yield` moves the operation into a closure. The slot that is left behind is
empty, and nothing reads the null `locals_` beside it. -/
def AsyncOp.yield {κ ℓ : Type*} (op : AsyncOp κ ℓ) : AsyncOp κ ℓ × Option κ := (op, none)

def AsyncOp.complete {κ ℓ α : Type*} (op : AsyncOp κ ℓ) (ret : Result α) : List (Effect κ α) :=
  invoke op.cb ret

end Bindings
