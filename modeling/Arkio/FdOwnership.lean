import Mathlib.Logic.Function.Basic
import Mathlib.Data.Fintype.Basic
import Mathlib.Tactic.Simps.Basic
import Arkio.LabelledMachine
import Arkio.Bindings

/-!
# Who closes a descriptor

`fd` and `seekable_fd` hold their number in a `unique_ptr<base_type>` whose
destructor closes it. The machine has any number of such objects beside the
kernel's descriptor table, in which a number that was freed can be handed out
again. Each descriptor the kernel creates has an identity of its own, so that a
history can tell whose descriptor a number stood for when it was closed.

`close()` leaves the number in the object. What follows is an ownership
invariant under the condition that no creation is handed a number that a live
object still holds, and a run without the condition that closes another
object's descriptor. Where nobody calls `close()`, the condition always holds.
-/
namespace FdOwnership

open Bindings LabelledMachine

def EBADF : Int := 9

/-- `base_type`, with the descriptor its number was obtained for. -/
structure Base where
  fd : Nat
  descriptor : Nat
  deriving DecidableEq, Repr

/-- An object before its construction or after its destruction, or a live one
with its `base_`. -/
inductive Obj where
  | dead
  | alive (base : Option Base)
  deriving DecidableEq, Repr

def Obj.base : Obj → Option Base
  | .dead => none
  | .alive base => base

/-- The kernel's table and the program's objects. `next` is the identity of the
next descriptor. -/
structure State (ο : Type) where
  table : Nat → Option Nat
  next : Nat
  obj : ο → Obj

/-- What the program does. A creation carries the number that the kernel hands
out, and a close the answer of close(2), should the number be open. -/
inductive Action (ο : Type) where
  | construct (o : ο)
  | create (o : ο) (n : Nat)
  | createPipe (rd wr : ο) (n m : Nat)
  | moveConstruct (dst src : ο)
  | moveAssign (dst src : ο) (answer : Result Unit)
  | close (o : ο) (answer : Result Unit)
  | destroy (o : ο) (answer : Result Unit)

/-- A close(2) that was issued for a `base_type`, the descriptor its number stood
for at that moment, and what it returned. -/
inductive Event where
  | closed (base : Base) (target : Option Nat) (ret : Result Unit)

section Machine

variable {ο : Type} [DecidableEq ο]

abbrev Outcome (ο : Type) := Option (State ο × List Event)

@[simps] def State.set (s : State ο) (o : ο) (x : Obj) : State ο :=
  { s with obj := Function.update s.obj o x }

/-- close(2) frees the number also where it reports an error, unless there was
nothing to close. -/
@[simps] def State.release (s : State ο) (n : Nat) : State ο :=
  { s with table := Function.update s.table n none }

/-- `base_type::close`. -/
def closeBase (s : State ο) (b : Base) (answer : Result Unit) : State ο × List Event :=
  match s.table b.fd with
  | some d => (s.release b.fd, [.closed b (some d) answer])
  | none => (s, [.closed b none (.error (asEc EBADF))])

/-- The destructor of a `unique_ptr<base_type>`. -/
def dropBase (s : State ο) (base : Option Base) (answer : Result Unit) : State ο × List Event :=
  match base with
  | some b => closeBase s b answer
  | none => (s, [])

/-- The kernel creates a descriptor and its number goes into a new object. -/
@[simps] def State.openFd (s : State ο) (o : ο) (n : Nat) : State ο where
  table := Function.update s.table n (some s.next)
  next := s.next + 1
  obj := Function.update s.obj o (.alive (some ⟨n, s.next⟩))

/-- One operation. Moving is the `unique_ptr`'s: the source is left empty, and an
assignment destroys the old `base_` of its target afterwards; assigning an object
to itself changes nothing. -/
def step (s : State ο) : Action ο → Outcome ο
  | .construct o => if s.obj o = .dead then some (s.set o (.alive none), []) else none
  | .create o n =>
    if s.obj o = .dead ∧ s.table n = none then some (s.openFd o n, []) else none
  | .createPipe rd wr n m =>
    if (s.obj rd = .dead ∧ s.obj wr = .dead ∧ rd ≠ wr) ∧ s.table n = none ∧ s.table m = none ∧
        n ≠ m then
      some ((s.openFd rd n).openFd wr m, [])
    else none
  | .moveConstruct dst src =>
    match s.obj dst, s.obj src with
    | .dead, .alive base => some ((s.set dst (.alive base)).set src (.alive none), [])
    | _, _ => none
  | .moveAssign dst src answer =>
    match s.obj dst, s.obj src with
    | .alive old, .alive base =>
      if dst = src then some (s, [])
      else some (dropBase ((s.set dst (.alive base)).set src (.alive none)) old answer)
    | _, _ => none
  | .close o answer =>
    match s.obj o with
    | .alive base => some (dropBase s base answer)
    | .dead => none
  | .destroy o answer =>
    match s.obj o with
    | .alive base => some (dropBase (s.set o .dead) base answer)
    | .dead => none

/-- No object yet, and an empty table. -/
def start : State ο where
  table := fun _ => none
  next := 0
  obj := fun _ => .dead

end Machine

/-- The descriptors that a successful close(2) took away. -/
def successful (h : List Event) : List Nat :=
  h.filterMap fun e => match e with | .closed _ (some d) (.ok _) => some d | _ => none

@[simp] theorem successful_append (h h' : List Event) :
    successful (h ++ h') = successful h ++ successful h' := List.filterMap_append

/-- A descriptor is closed only once, and only by the object it was obtained for. -/
structure ClosedByOwner (h : List Event) : Prop where
  once : (successful h).Nodup
  own : ∀ b target ret, .closed b target ret ∈ h → target = none ∨ target = some b.descriptor

variable {ο : Type}

/-- No live object holds the number. -/
def Unheld (s : State ο) (n : Nat) : Prop := ∀ o, (s.obj o).base.map Base.fd ≠ some n

/-- The kernel hands out no number that a live object still holds. -/
def NoReuse (s : State ο) : Action ο → Prop
  | .create _ n => Unheld s n
  | .createPipe _ _ n m => Unheld s n ∧ Unheld s m
  | _ => True

/-- The ownership invariant: a number that a live object holds is free or stands
for the descriptor of that object. -/
structure Owned (h : List Event) (s : State ο) : Prop where
  table_lt : ∀ n d, s.table n = some d → d < s.next
  table_inj : ∀ n m d, s.table n = some d → s.table m = some d → n = m
  own : ∀ o b, (s.obj o).base = some b → s.table b.fd = none ∨ s.table b.fd = some b.descriptor
  gone : ∀ d ∈ successful h, d < s.next ∧ ∀ n, s.table n ≠ some d
  closed : ClosedByOwner h

theorem Owned.own_of {h : List Event} {s : State ο} (hi : Owned h s) {o : ο} {base : Option Base}
    (ho : s.obj o = .alive base) :
    ∀ b, base = some b → s.table b.fd = none ∨ s.table b.fd = some b.descriptor := by
  intro b hb
  exact hi.own o b (by rw [ho]; exact hb)

/-- Moving bases between objects, or losing some, changes nothing. -/
theorem Owned.move {h : List Event} {s s' : State ο} (hi : Owned h s) (htable : s'.table = s.table)
    (hnext : s'.next = s.next)
    (hobj : ∀ o b, (s'.obj o).base = some b → ∃ o', (s.obj o').base = some b) : Owned h s' where
  table_lt := by rw [htable, hnext]; exact hi.table_lt
  table_inj := by rw [htable]; exact hi.table_inj
  own := by
    intro o b hb
    obtain ⟨o', hb'⟩ := hobj o b hb
    rw [htable]
    exact hi.own o' b hb'
  gone := by rw [htable, hnext]; exact hi.gone
  closed := hi.closed

/-- A close of a number that is free or the base's own. -/
theorem Owned.closeBase {h : List Event} {s : State ο} (hi : Owned h s) {b : Base}
    (hb : s.table b.fd = none ∨ s.table b.fd = some b.descriptor) (answer : Result Unit) :
    Owned (h ++ (closeBase s b answer).2) (closeBase s b answer).1 := by
  rcases hb with hb | hb
  · have hs : FdOwnership.closeBase s b answer = (s, [.closed b none (.error (asEc EBADF))]) := by
      simp [FdOwnership.closeBase, hb]
    rw [hs]
    refine ⟨hi.table_lt, hi.table_inj, hi.own, by simpa [successful] using hi.gone,
      by simpa [successful] using hi.closed.once, ?_⟩
    intro b' target ret hmem
    rcases List.mem_append.mp hmem with hmem | hmem
    · exact hi.closed.own b' target ret hmem
    · simp only [List.mem_singleton, Event.closed.injEq] at hmem
      exact .inl hmem.2.1
  · have hs : FdOwnership.closeBase s b answer =
        (s.release b.fd, [.closed b (some b.descriptor) answer]) := by
      simp [FdOwnership.closeBase, hb]
    rw [hs]
    have hstill : ∀ n d, (s.release b.fd).table n = some d → n ≠ b.fd ∧ s.table n = some d := by
      intro n d hn
      by_cases he : n = b.fd
      · simp [he] at hn
      · exact ⟨he, by simpa [Function.update_of_ne he] using hn⟩
    have hfree : ∀ n, (s.release b.fd).table n ≠ some b.descriptor := by
      intro n hn
      obtain ⟨hne, hn⟩ := hstill n _ hn
      exact hne (hi.table_inj _ _ _ hn hb)
    have hnew : b.descriptor ∉ successful h := fun hmem => (hi.gone _ hmem).2 _ hb
    refine ⟨?_, ?_, ?_, ?_, ?_, ?_⟩
    · intro n d hn
      exact hi.table_lt n d (hstill n d hn).2
    · intro n m d hn hm
      exact hi.table_inj n m d (hstill n d hn).2 (hstill m d hm).2
    · intro o b' hb'
      by_cases he : b'.fd = b.fd
      · exact .inl (by simp [he])
      · simpa [Function.update_of_ne he] using hi.own o b' hb'
    · intro d hd
      rw [successful_append, List.mem_append] at hd
      rcases hd with hd | hd
      · exact ⟨(hi.gone d hd).1, fun n hn => (hi.gone d hd).2 n (hstill n d hn).2⟩
      · cases answer with
        | error e => simp [successful] at hd
        | ok u =>
          obtain rfl : d = b.descriptor := by simpa [successful] using hd
          exact ⟨hi.table_lt _ _ hb, hfree⟩
    · rw [successful_append]
      refine List.nodup_append.mpr ⟨hi.closed.once, ?_, ?_⟩
      · cases answer <;> simp [successful]
      · rintro d hd d' hd' rfl
        cases answer with
        | error e => simp [successful] at hd'
        | ok u =>
          obtain rfl : d = b.descriptor := by simpa [successful] using hd'
          exact hnew hd
    · intro b' target ret hmem
      rcases List.mem_append.mp hmem with hmem | hmem
      · exact hi.closed.own b' target ret hmem
      · simp only [List.mem_singleton, Event.closed.injEq] at hmem
        obtain ⟨rfl, rfl, -⟩ := hmem
        exact .inr rfl

theorem Owned.dropBase {h : List Event} {s : State ο} (hi : Owned h s) {base : Option Base}
    (hb : ∀ b, base = some b → s.table b.fd = none ∨ s.table b.fd = some b.descriptor)
    (answer : Result Unit) :
    Owned (h ++ (dropBase s base answer).2) (dropBase s base answer).1 := by
  cases base with
  | none => simpa [FdOwnership.dropBase] using hi
  | some b => exact hi.closeBase (hb b rfl) answer

variable [DecidableEq ο]

/-- The kernel creates a descriptor under a number that nobody holds. -/
theorem Owned.openFd {h : List Event} {s : State ο} (hi : Owned h s) {o : ο} {n : Nat}
    (hunheld : Unheld s n) : Owned h (s.openFd o n) := by
  have hnew : ∀ m, s.table m ≠ some s.next := by
    intro m hm
    have := hi.table_lt m _ hm
    omega
  refine ⟨?_, ?_, ?_, ?_, hi.closed⟩
  · intro m d hm
    by_cases he : m = n
    · simp only [State.openFd_table, he, Function.update_self, Option.some.injEq] at hm
      simp [← hm]
    · have := hi.table_lt m d (by simpa [Function.update_of_ne he] using hm)
      simp only [State.openFd_next]
      omega
  · intro m m' d hm hm'
    by_cases he : m = n <;> by_cases he' : m' = n
    · rw [he, he']
    · simp only [State.openFd_table, he, Function.update_self, Option.some.injEq] at hm
      rw [← hm] at hm'
      exact absurd (by simpa [Function.update_of_ne he'] using hm') (hnew m')
    · simp only [State.openFd_table, he', Function.update_self, Option.some.injEq] at hm'
      rw [← hm'] at hm
      exact absurd (by simpa [Function.update_of_ne he] using hm) (hnew m)
    · exact hi.table_inj m m' d (by simpa [Function.update_of_ne he] using hm)
        (by simpa [Function.update_of_ne he'] using hm')
  · intro o' b hb
    by_cases he : o' = o
    · simp only [State.openFd_obj, he, Function.update_self, Obj.base, Option.some.injEq] at hb
      simp [← hb]
    · have hb' : (s.obj o').base = some b := by simpa [Function.update_of_ne he] using hb
      have hne : b.fd ≠ n := by
        intro hn
        exact hunheld o' (by simp [hb', hn])
      simpa [Function.update_of_ne hne] using hi.own o' b hb'
  · intro d hd
    obtain ⟨hlt, hgone⟩ := hi.gone d hd
    refine ⟨by simp only [State.openFd_next]; omega, fun m hm => ?_⟩
    by_cases he : m = n
    · simp only [State.openFd_table, he, Function.update_self, Option.some.injEq] at hm
      omega
    · exact hgone m (by simpa [Function.update_of_ne he] using hm)

/-- After a move the bases are those there were before. -/
theorem base_of_moved {s : State ο} {dst src o : ο} {base : Option Base} {b : Base}
    (hsrc : s.obj src = .alive base)
    (hb : (((s.set dst (.alive base)).set src (.alive none)).obj o).base = some b) :
    ∃ o', (s.obj o').base = some b := by
  by_cases hos : o = src
  · simp [hos, Obj.base] at hb
  · by_cases hod : o = dst
    · refine ⟨src, ?_⟩
      subst hod
      rw [hsrc]
      simpa [Function.update_of_ne hos] using hb
    · exact ⟨o, by simpa [Function.update_of_ne hos, Function.update_of_ne hod] using hb⟩

/-- Every operation keeps the ownership invariant, unless a creation is handed a
number that is still held. -/
theorem step_owned {h e : List Event} {s s' : State ο} {a : Action ο}
    (hs : step s a = some (s', e)) (hok : NoReuse s a) (hi : Owned h s) : Owned (h ++ e) s' := by
  cases a with
  | construct o =>
    simp only [step, Option.ite_none_right_eq_some, Option.some.injEq, Prod.mk.injEq] at hs
    obtain ⟨-, rfl, rfl⟩ := hs
    rw [List.append_nil]
    refine hi.move rfl rfl fun o' b hb => ⟨o', ?_⟩
    by_cases he : o' = o
    · simp [he, Obj.base] at hb
    · simpa [Function.update_of_ne he] using hb
  | create o n =>
    simp only [step, Option.ite_none_right_eq_some, Option.some.injEq, Prod.mk.injEq] at hs
    obtain ⟨-, rfl, rfl⟩ := hs
    rw [List.append_nil]
    exact hi.openFd hok
  | createPipe rd wr n m =>
    simp only [step, Option.ite_none_right_eq_some, Option.some.injEq, Prod.mk.injEq] at hs
    obtain ⟨⟨-, -, -, hne⟩, rfl, rfl⟩ := hs
    rw [List.append_nil]
    refine (hi.openFd hok.1).openFd fun o ho => ?_
    by_cases he : o = rd
    · simp only [State.openFd_obj, he, Function.update_self, Obj.base, Option.map_some,
        Option.some.injEq] at ho
      exact hne ho
    · exact hok.2 o (by simpa [Function.update_of_ne he] using ho)
  | moveConstruct dst src =>
    simp only [step] at hs
    split at hs
    next base hdst hsrc =>
      cases hs
      rw [List.append_nil]
      exact hi.move rfl rfl fun o b hb => base_of_moved hsrc hb
    next => cases hs
  | moveAssign dst src answer =>
    simp only [step] at hs
    split at hs
    next old base hdst hsrc =>
      split at hs
      · cases hs
        simpa using hi
      · have hmoved : Owned h ((s.set dst (.alive base)).set src (.alive none)) :=
          hi.move rfl rfl fun o b hb => base_of_moved hsrc hb
        have hd := hmoved.dropBase (hi.own_of hdst) answer
        rw [Option.some.inj hs] at hd
        exact hd
    next => cases hs
  | close o answer =>
    simp only [step] at hs
    split at hs
    next base ho =>
      have hd := hi.dropBase (hi.own_of ho) answer
      rw [Option.some.inj hs] at hd
      exact hd
    next => cases hs
  | destroy o answer =>
    simp only [step] at hs
    split at hs
    next base ho =>
      have hdead : Owned h (s.set o .dead) := by
        refine hi.move rfl rfl fun o' b hb => ⟨o', ?_⟩
        by_cases he : o' = o
        · simp [he, Obj.base] at hb
        · simpa [Function.update_of_ne he] using hb
      have hd := hdead.dropBase (hi.own_of ho) answer
      rw [Option.some.inj hs] at hd
      exact hd
    next => cases hs

omit [DecidableEq ο] in
theorem owned_start : Owned [] (start : State ο) :=
  ⟨by simp [start], by simp [start], by simp [start, Obj.base], by simp [successful],
    by simp [successful], by simp⟩

theorem Owned.of_run {h : List Event} {s : State ο} (hrun : Run step NoReuse start h s) :
    Owned h s :=
  hrun.invariant owned_start fun _ _ _ _ _ hi hok hs => step_owned hs hok hi

/-- In every run without reuse of a held number, each descriptor is closed once
and by its owner, however often `close()` is called before the destruction. -/
theorem closed_by_owner {h : List Event} {s : State ο} (hrun : Run step NoReuse start h s) :
    ClosedByOwner h :=
  (Owned.of_run hrun).closed

instance [Fintype ο] (s : State ο) (n : Nat) : Decidable (Unheld s n) :=
  inferInstanceAs (Decidable (∀ o, (s.obj o).base.map Base.fd ≠ some n))

instance [Fintype ο] (s : State ο) (a : Action ο) : Decidable (NoReuse s a) :=
  match a with
  | .create _ n => inferInstanceAs (Decidable (Unheld s n))
  | .createPipe _ _ n m => inferInstanceAs (Decidable (Unheld s n ∧ Unheld s m))
  | .construct _ | .moveConstruct _ _ | .moveAssign _ _ _ | .close _ _ | .destroy _ _ =>
    isTrue trivial

/-- A pipe whose ends are moved about, closed twice and destroyed, and a new
descriptor under a freed number that nobody holds any more. -/
theorem exists_run_without_reuse :
    ∃ (h : List Event) (s : State (Fin 3)), Run step NoReuse start h s ∧
      successful h = [0, 1, 2] ∧ h.length = 5 :=
  ⟨_, _, exec_restrict_run
    [.createPipe 0 1 5 6, .moveConstruct 2 0, .close 2 (.ok ()), .close 2 (.ok ()),
      .moveAssign 2 1 (.ok ()), .destroy 2 (.ok ()), .create 2 5, .destroy 2 (.ok ())] rfl,
    rfl, rfl⟩

theorem closed_by_owner_pipe :
    ∃ (h : List Event) (s : State (Fin 3)), Run step NoReuse start h s ∧
      successful h = [0, 1, 2] ∧ ClosedByOwner h := by
  obtain ⟨h, s, hrun, hclosed, -⟩ := exists_run_without_reuse
  exact ⟨h, s, hrun, hclosed, closed_by_owner hrun⟩

/-- An object is closed, its number goes to a second object, and the destruction
of the first closes the descriptor of the second. -/
theorem exists_foreign_close :
    ∃ (s : State Bool) (e : List Event), Run step Always start e s ∧
      .closed ⟨5, 0⟩ (some 1) (.ok ()) ∈ e :=
  ⟨_, _, exec_run [.create true 5, .close true (.ok ()), .create false 5, .destroy true (.ok ())] rfl,
    .tail _ (.head _)⟩

theorem not_closed_by_owner :
    ¬∀ (h : List Event) (s : State Bool), Run step Always start h s → ClosedByOwner h := by
  intro hall
  obtain ⟨s, h, hrun, hmem⟩ := exists_foreign_close
  have hown := (hall h s hrun).own _ _ _ hmem
  simp at hown

/-- Objects are closed by their destruction or by an assignment only. -/
def NoExplicitClose (s : State ο) : Action ο → Prop
  | .close o _ => (s.obj o).base = none
  | _ => True

/-- Every number that a live object holds stands for its descriptor, and no other
object holds it. -/
structure Held (s : State ο) : Prop where
  mine : ∀ o b, (s.obj o).base = some b → s.table b.fd = some b.descriptor
  sole : ∀ o o' b b', (s.obj o).base = some b → (s.obj o').base = some b' → b.fd = b'.fd → o = o'

omit [DecidableEq ο] in
/-- A free number is held by nobody. -/
theorem Held.unheld {s : State ο} (hi : Held s) {n : Nat} (hn : s.table n = none) :
    Unheld s n := by
  intro o ho
  obtain ⟨b, hb, rfl⟩ := Option.map_eq_some_iff.mp ho
  simp [hi.mine o b hb] at hn

/-- The base of one object is dropped. -/
theorem Held.drop {s : State ο} (hi : Held s) {o : ο} (x : Obj) (hx : x.base = none)
    (answer : Result Unit) : Held (dropBase (s.set o x) (s.obj o).base answer).1 := by
  have hother : ∀ o' b, ((s.set o x).obj o').base = some b →
      o' ≠ o ∧ (s.obj o').base = some b := by
    intro o' b hb
    by_cases he : o' = o
    · simp [he, hx] at hb
    · exact ⟨he, by simpa [Function.update_of_ne he] using hb⟩
  have hset : Held (s.set o x) := by
    constructor
    · intro o' b hb
      exact hi.mine o' b (hother o' b hb).2
    · intro o₁ o₂ b b' hb hb'
      exact hi.sole o₁ o₂ b b' (hother o₁ b hb).2 (hother o₂ b' hb').2
  cases hbase : (s.obj o).base with
  | none => exact hset
  | some b₀ =>
    have hclose : (dropBase (s.set o x) (some b₀) answer).1 = (s.set o x).release b₀.fd := by
      simp [dropBase, closeBase, hi.mine o b₀ hbase]
    rw [hclose]
    refine ⟨?_, hset.sole⟩
    intro o' b hb
    obtain ⟨hne, hb'⟩ := hother o' b hb
    have hfd : b.fd ≠ b₀.fd := fun he => hne (hi.sole o' o b b₀ hb' hbase he)
    simpa [Function.update_of_ne hfd] using hi.mine o' b hb'

/-- A base moves from one object to another, which had none. -/
theorem Held.move {s : State ο} (hi : Held s) {dst src : ο} (hdst : (s.obj dst).base = none)
    {base : Option Base} (hsrc : s.obj src = .alive base) :
    Held ((s.set dst (.alive base)).set src (.alive none)) := by
  have hfrom : ∀ o b, (((s.set dst (.alive base)).set src (.alive none)).obj o).base = some b →
      o ≠ src ∧ ((o = dst ∧ (s.obj src).base = some b) ∨ (s.obj o).base = some b) := by
    intro o b hb
    by_cases hos : o = src
    · simp [hos, Obj.base] at hb
    · refine ⟨hos, ?_⟩
      by_cases hod : o = dst
      · subst hod
        exact .inl ⟨rfl, by rw [hsrc]; simpa [Function.update_of_ne hos] using hb⟩
      · exact .inr (by simpa [Function.update_of_ne hos, Function.update_of_ne hod] using hb)
  constructor
  · intro o b hb
    rcases (hfrom o b hb).2 with ⟨-, hb⟩ | hb
    · exact hi.mine src b hb
    · exact hi.mine o b hb
  · intro o o' b b' hb hb' heq
    obtain ⟨hne, hold⟩ := hfrom o b hb
    obtain ⟨hne', hold'⟩ := hfrom o' b' hb'
    rcases hold with ⟨rfl, hold⟩ | hold
    · rcases hold' with ⟨rfl, hold'⟩ | hold'
      · rfl
      · exact absurd (hi.sole src o' b b' hold hold' heq).symm hne'
    · rcases hold' with ⟨rfl, hold'⟩ | hold'
      · exact absurd (hi.sole o src b b' hold hold' heq) hne
      · exact hi.sole o o' b b' hold hold' heq

theorem Held.openFd {s : State ο} (hi : Held s) (o : ο) {n : Nat} (hn : s.table n = none) :
    Held (s.openFd o n) := by
  have hold : ∀ o' b, o' ≠ o → ((s.openFd o n).obj o').base = some b →
      (s.obj o').base = some b ∧ b.fd ≠ n := by
    intro o' b he hb
    have hb' : (s.obj o').base = some b := by simpa [Function.update_of_ne he] using hb
    refine ⟨hb', fun hfd => ?_⟩
    have := hi.mine o' b hb'
    simp [hfd, hn] at this
  have hnew : ∀ b, ((s.openFd o n).obj o).base = some b → b = ⟨n, s.next⟩ := by
    intro b hb
    simpa [Obj.base, eq_comm] using hb
  constructor
  · intro o' b hb
    by_cases he : o' = o
    · subst he
      simp [hnew b hb]
    · obtain ⟨hb', hfd⟩ := hold o' b he hb
      simpa [Function.update_of_ne hfd] using hi.mine o' b hb'
  · intro o₁ o₂ b b' hb hb' heq
    by_cases he : o₁ = o
    · by_cases he' : o₂ = o
      · rw [he, he']
      · subst he
        rw [hnew b hb] at heq
        exact absurd heq.symm (hold o₂ b' he' hb').2
    · by_cases he' : o₂ = o
      · subst he'
        rw [hnew b' hb'] at heq
        exact absurd heq (hold o₁ b he hb).2
      · exact hi.sole o₁ o₂ b b' (hold o₁ b he hb).1 (hold o₂ b' he' hb').1 heq

/-- What a close reads and writes is the table. -/
theorem dropBase_set (s : State ο) (base : Option Base) (answer : Result Unit) (o : ο) (x : Obj) :
    (dropBase (s.set o x) base answer).1 = (dropBase s base answer).1.set o x := by
  cases base with
  | none => rfl
  | some b =>
    simp only [dropBase, closeBase, State.set_table]
    cases s.table b.fd <;> rfl

omit [DecidableEq ο] in
theorem dropBase_obj (s : State ο) (base : Option Base) (answer : Result Unit) :
    (dropBase s base answer).1.obj = s.obj := by
  cases base with
  | none => rfl
  | some b =>
    simp only [dropBase, closeBase]
    cases s.table b.fd <;> rfl

/-- An assignment: the target's old base is dropped, and it gets the source's. -/
theorem Held.assign {s : State ο} (hi : Held s) {dst src : ο} (hne : dst ≠ src)
    {old base : Option Base} (hdst : s.obj dst = .alive old) (hsrc : s.obj src = .alive base)
    (answer : Result Unit) :
    Held (dropBase ((s.set dst (.alive base)).set src (.alive none)) old answer).1 := by
  have hdrop := hi.drop (o := dst) (.alive none) rfl answer
  rw [hdst, Obj.base, dropBase_set] at hdrop
  have hempty : (((dropBase s old answer).1.set dst (.alive none)).obj dst).base = none := by
    simp [Obj.base]
  have hsrc' : ((dropBase s old answer).1.set dst (.alive none)).obj src = .alive base := by
    simp [Function.update_of_ne hne.symm, dropBase_obj, hsrc]
  have hmove := hdrop.move hempty hsrc'
  rw [dropBase_set, dropBase_set]
  have hset : ∀ s : State ο, (s.set dst (.alive none)).set dst (.alive base) =
      s.set dst (.alive base) := by
    intro s
    simp [State.set]
  rwa [hset] at hmove

theorem step_held {s s' : State ο} {a : Action ο} {e : List Event} (hs : step s a = some (s', e))
    (hok : NoExplicitClose s a) (hi : Held s) : Held s' := by
  cases a with
  | construct o =>
    simp only [step, Option.ite_none_right_eq_some, Option.some.injEq, Prod.mk.injEq] at hs
    obtain ⟨hdead, rfl, -⟩ := hs
    have hd := hi.drop (o := o) (.alive none) rfl (.ok ())
    rwa [hdead] at hd
  | create o n =>
    simp only [step, Option.ite_none_right_eq_some, Option.some.injEq, Prod.mk.injEq] at hs
    obtain ⟨⟨-, hn⟩, rfl, -⟩ := hs
    exact hi.openFd o hn
  | createPipe rd wr n m =>
    simp only [step, Option.ite_none_right_eq_some, Option.some.injEq, Prod.mk.injEq] at hs
    obtain ⟨⟨-, hn, hm, hne⟩, rfl, -⟩ := hs
    refine (hi.openFd rd hn).openFd wr ?_
    simpa [Function.update_of_ne hne.symm] using hm
  | moveConstruct dst src =>
    simp only [step] at hs
    split at hs
    next base hdst hsrc =>
      cases hs
      exact hi.move (by rw [hdst]; rfl) hsrc
    next => cases hs
  | moveAssign dst src answer =>
    simp only [step] at hs
    split at hs
    next old base hdst hsrc =>
      split at hs
      · cases hs
        exact hi
      next hne =>
        have hd := hi.assign hne hdst hsrc answer
        rwa [Option.some.inj hs] at hd
    next => cases hs
  | close o answer =>
    simp only [step] at hs
    split at hs
    next base ho =>
      obtain rfl : base = none := by simpa [NoExplicitClose, ho, Obj.base] using hok
      cases hs
      exact hi
    next => cases hs
  | destroy o answer =>
    simp only [step] at hs
    split at hs
    next base ho =>
      have hd := hi.drop (o := o) .dead rfl answer
      rw [ho, Obj.base, Option.some.inj hs] at hd
      exact hd
    next => cases hs

/-- Where nobody calls `close()`, the numbers that the kernel may hand out again
are those that nobody holds. -/
theorem Held.noReuse {s s' : State ο} {a : Action ο} {e : List Event} (hi : Held s)
    (hs : step s a = some (s', e)) : NoReuse s a := by
  cases a with
  | create o n =>
    simp only [step, Option.ite_none_right_eq_some] at hs
    exact hi.unheld hs.1.2
  | createPipe rd wr n m =>
    simp only [step, Option.ite_none_right_eq_some] at hs
    exact ⟨hi.unheld hs.1.2.1, hi.unheld hs.1.2.2.1⟩
  | _ => trivial

/-- Objects that are only created, moved, assigned and destroyed close their own
descriptors, once, whatever numbers the kernel reuses. -/
theorem raii_closed_by_owner {h : List Event} {s : State ο}
    (hrun : Run step NoExplicitClose start h s) : ClosedByOwner h := by
  have hrun' : Run step NoReuse start h s ∧ Held s := by
    refine hrun.invariant (P := fun h s => Run step NoReuse start h s ∧ Held s)
      ⟨.start, by simp [start, Obj.base], by simp [start, Obj.base]⟩ ?_
    rintro h s a s' e ⟨hr, hi⟩ hok hs
    exact ⟨.next hr (hi.noReuse hs) hs, step_held hs hok hi⟩
  exact (Owned.of_run hrun'.1).closed

end FdOwnership
