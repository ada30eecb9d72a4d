import Arkio.CoroutineSteps

/-!
# The lives of coroutine frames

What a history says of one frame is the beginning of one of three lives: of a
task that is dropped without being awaited, of a task that is awaited, or of a
root of `co_async`. How far the frame has got in its life is what its point says.
-/
namespace Coroutine

open LabelledMachine

variable {υ : Type}

/-- Whose life an event belongs to. -/
def Event.about : Event → Option Nat
  | .created f => some f
  | .awaited _ g => some g
  | .constructed f => some f
  | .read f => some f
  | .destructed f => some f
  | .transferred f _ => some f
  | .destroyed f => some f
  | .settled f => some f
  | .resumed _ => none
  | .fault _ => none

/-- What happened to a frame. -/
def History.of (h : History) (f : Nat) : History := h.filter (fun e => e.about = some f)

def droppedLife (f : Nat) : History := [.created f, .destroyed f]

def awaitedLife (f c : Nat) : History :=
  [.created f, .awaited c f, .constructed f, .transferred f c, .read f, .destructed f, .destroyed f]

def rootLife (f : Nat) : History := [.created f, .settled f, .destroyed f]

/-- The life that a frame leads. -/
def Frame.course (fr : Frame υ) (f : Nat) : History :=
  match fr.kind with
  | .root _ => rootLife f
  | .task =>
    match fr.promise.continuation with
    | none => droppedLife f
    | some c => awaitedLife f c

/-- How much of it lies behind. -/
def Frame.age (fr : Frame υ) : Nat :=
  match fr.kind, fr.point with
  | _, .absent => 0
  | .root _, .returning => 2
  | .root _, .destroying => 2
  | .root _, .destroyed => 3
  | .root _, _ => 1
  | .task, .initial => 1
  | .task, .returning => 3
  | .task, .final => 5
  | .task, .destroying => if fr.promise.continuation.isSome then 5 else 1
  | .task, .destroyed => 7
  | .task, _ => 2

/-- What has happened to a frame, as the frame itself says. -/
def Frame.past (fr : Frame υ) (f : Nat) : History := (fr.course f).take fr.age

section Steps

variable {s s' : State υ} {h e : History}

theorem of_append (h h' : History) (f : Nat) :
    History.of (h ++ h') f = History.of h f ++ History.of h' f := List.filter_append ..

theorem exists_root {k : Kind} (hk : k ≠ .task) : ∃ t, k = .root t := by
  cases k with
  | task => exact absurd rfl hk
  | root t => exact ⟨t, rfl⟩

/-- `~task_promise()` destroys what is in the slot. -/
theorem past_free (hi : Inv s) {f : Nat} (hp : (s.frames f).point = .destroying) :
    ({ s.frames f with point := .destroyed, promise := (s.frames f).promise.clear } :
        Frame υ).past f =
      (s.frames f).past f ++
        ((if (s.frames f).promise.value.isSome then [.destructed f] else []) ++
          [.destroyed f]) := by
  have hslot := (hi.sound f).slot
  cases hk : (s.frames f).kind with
  | root t =>
    have hvalue : (s.frames f).promise.value = none := by simpa [hk] using hslot
    simp [Frame.past, Frame.course, Frame.age, hk, hp, hvalue, rootLife]
  | task =>
    cases hlink : (s.frames f).promise.continuation with
    | none =>
      have hvalue : (s.frames f).promise.value = none := by simpa [hk, hp, hlink] using hslot
      simp [Frame.past, Frame.course, Frame.age, Promise.clear, hk, hp, hlink, hvalue, droppedLife]
    | some c =>
      have hvalue : (s.frames f).promise.value.isSome := by
        simpa [hk, hp, hlink, Option.isSome_iff_ne_none] using hslot
      simp [Frame.past, Frame.course, Frame.age, Promise.clear, hk, hp, hlink, hvalue, awaitedLife]

theorem Move.past (hi : Inv s) (hw : Waits s) (hm : Move s s' e) (f : Nat) :
    (s'.frames f).past f = (s.frames f).past f ++ History.of e f := by
  cases hm with
  | call hp hargs =>
    have hnew := hi.untouched.absent
    rw [passAll_frames]
    by_cases hf : f = s.nextFrame
    · subst hf
      simp [Frame.past, Frame.course, Frame.age, hnew, droppedLife, History.of, Event.about]
    · simp [hf, Ne.symm hf, History.of, Event.about]
  | move hp ho hidle hq => simp [History.of]
  | dropEmpty ho => simp [History.of]
  | @dropHandle o g ho hg hroot =>
    obtain ⟨hkind, hp | hp | hp⟩ := hi.handle o g ho
    · have hlink := (hi.sound g).unstarted hp
      by_cases hf : f = g
      · subst hf
        simp [Frame.past, Frame.course, Frame.age, hkind, hp, hlink, History.of]
      · simp [hf, History.of]
    · have hlink := Option.isSome_iff_ne_none.mpr ((hi.sound g).finished hp)
      by_cases hf : f = g
      · subst hf
        simp [Frame.past, Frame.course, Frame.age, hkind, hp, hlink, History.of]
      · simp [hf, History.of]
    · exact absurd hp hg
  | @await f' g o ho hplace hf' hg =>
    have hkind := (hi.handle o g ho).1
    have hlink := (hi.sound g).unstarted hg
    by_cases hf : f = g
    · subst hf
      simp [Frame.past, Frame.course, Frame.age, hkind, hg, hlink, History.of, Event.about,
        droppedLife, awaitedLife]
    · by_cases hf₂ : f = f'
      · subst hf₂
        have hentry := (hi.sound f).task
        cases hk : (s.frames f).kind <;> obtain hp | hp := hf'
        all_goals
          simp_all [Frame.past, Frame.course, Frame.age, History.of, Event.about, Ne.symm hf]
      · simp [hf, hf₂, Ne.symm hf, History.of, Event.about]
  | @awaitOp f' hf' =>
    obtain ⟨hkind, hp⟩ := hf'
    by_cases hf : f = f'
    · subst hf
      simp [Frame.past, Frame.course, Frame.age, hkind, hp, History.of]
    · simp [hf, History.of]
  | @complete k f' hk =>
    have hp := hw.op k f' hk
    by_cases hf : f = f'
    · subst hf
      cases hkind : (s.frames f).kind <;>
        simp [Frame.past, Frame.course, Frame.age, hkind, hp, History.of, Event.about]
    · simp [hf, History.of, Event.about]
  | @returnValue f' hf' v =>
    obtain ⟨hkind, hp⟩ := hf'
    obtain ⟨c, hlink⟩ := Option.ne_none_iff_exists'.mp ((hi.sound f').started hkind (by simp [hp]))
    by_cases hf : f = f'
    · subst hf
      simp [Frame.past, Frame.course, Frame.age, hkind, hp, hlink, History.of, Event.about,
        Promise.returnValue, Promise.clear, awaitedLife]
    · simp [hf, Ne.symm hf, History.of, Event.about]
  | @finalSuspend f' c hkind hp hc =>
    have hlink := (hi.awaits c f' hc).2.2
    have hne : c ≠ f' := by
      rintro rfl
      simp [hc] at hp
    by_cases hf : f = f'
    · subst hf
      simp [Frame.past, Frame.course, Frame.age, hkind, hp, hlink, Ne.symm hne, History.of,
        Event.about, awaitedLife]
    · by_cases hf₂ : f = c
      · subst hf₂
        cases hk : (s.frames f).kind <;>
          simp [Frame.past, Frame.course, Frame.age, hk, hc, hf, Ne.symm hf, History.of, Event.about]
      · simp [hf, hf₂, Ne.symm hf, History.of, Event.about]
  | @coAsync p o g hp ho hcoro hg =>
    have hnew := hi.untouched.absent
    by_cases hf : f = s.nextFrame
    · subst hf
      simp [Frame.past, Frame.course, Frame.age, hnew, rootLife, History.of, Event.about]
    · simp [hf, Ne.symm hf, History.of, Event.about]
  | @setValue r hkind hp =>
    obtain ⟨t, hk⟩ := exists_root hkind
    by_cases hf : f = r
    · subst hf
      simp [Frame.past, Frame.course, Frame.age, hk, hp, rootLife, History.of, Event.about]
    · simp [hf, Ne.symm hf, History.of, Event.about]
  | @returnVoid r hkind hp =>
    obtain ⟨t, hk⟩ := exists_root hkind
    by_cases hf : f = r
    · subst hf
      simp [Frame.past, Frame.course, Frame.age, hk, hp, History.of]
    · simp [hf, History.of]
  | @free f' hp hv =>
    by_cases hf : f = f'
    · subst hf
      rw [setFrame_frames, if_pos rfl, past_free hi hp]
      split <;> simp [History.of, Event.about]
    · rw [setFrame_frames, if_neg hf]
      split <;> simp [Ne.symm hf, History.of, Event.about]
  | discard r => simp [History.of]

theorem Move.no_fault (hm : Move s s' e) (x : Fault) : .fault x ∉ e := by
  cases hm with
  | free hp hv => split <;> simp
  | _ => simp

end Steps

section Runs

variable {s : State υ} {h : History}

/-- What holds after every run of a disciplined program. -/
structure Reached (h : History) (s : State υ) : Prop where
  inv : Inv s
  waits : Waits s
  past : ∀ f, History.of h f = (s.frames f).past f
  no_fault : ∀ x, .fault x ∉ h

theorem reached_start : Reached [] (start : State υ) where
  inv := .start
  waits := by constructor <;> simp [start]
  past f := rfl
  no_fault := by simp

theorem Reached.next (hr : Reached h s) {a : Action υ} {s' : State υ} {e : History}
    (hok : Disciplined s a) (hs : step s a = some (s', e)) : Reached (h ++ e) s' := by
  have hm := step_cases hr.inv hr.waits hok hs
  constructor
  · exact hr.inv.step hr.waits hm
  · exact hr.waits.step hr.inv hm
  · intro f
    rw [of_append, hr.past f, hm.past hr.inv hr.waits]
  · intro x hx
    obtain hx | hx := List.mem_append.mp hx
    · exact hr.no_fault x hx
    · exact hm.no_fault x hx

theorem Reached.of_run (hrun : Run step Disciplined start h s) : Reached h s :=
  hrun.invariant reached_start fun _ _ _ _ _ hr hok hs => hr.next hok hs

end Runs

end Coroutine
