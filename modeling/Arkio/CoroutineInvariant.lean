import Arkio.Coroutine
import Arkio.Ranks

/-!
# What holds of coroutine frames

A frame of a task that has been started hangs from the coroutine that awaits
it, any other from the object that has its handle.
-/
namespace Coroutine

open LabelledMachine Ranks Relation

variable {υ : Type}

attribute [grind =] Point.InProgress

section Fields

variable (s : State υ) (o o' f g : Nat) (t : Task) (fr : Frame υ) (p : Place) (pt : Point)

@[simp, grind =] theorem setFrame_frames :
    (s.setFrame f fr).frames g = if g = f then fr else s.frames g := Function.update_apply ..
@[simp, grind =] theorem setFrame_tasks : (s.setFrame f fr).tasks o = s.tasks o := rfl
@[simp, grind =] theorem setFrame_nextFrame : (s.setFrame f fr).nextFrame = s.nextFrame := rfl
@[simp, grind =] theorem setFrame_nextTask : (s.setFrame f fr).nextTask = s.nextTask := rfl
@[simp, grind =] theorem setFrame_pending : (s.setFrame f fr).pending = s.pending := rfl
@[simp, grind =] theorem setFrame_futures : (s.setFrame f fr).futures g = s.futures g := rfl

@[simp, grind =] theorem setTask_frames : (s.setTask o t).frames f = s.frames f := rfl
@[simp, grind =] theorem setTask_tasks :
    (s.setTask o t).tasks o' = if o' = o then t else s.tasks o' := Function.update_apply ..
@[simp, grind =] theorem setTask_nextFrame : (s.setTask o t).nextFrame = s.nextFrame := rfl
@[simp, grind =] theorem setTask_nextTask : (s.setTask o t).nextTask = s.nextTask := rfl
@[simp, grind =] theorem setTask_pending : (s.setTask o t).pending = s.pending := rfl
@[simp, grind =] theorem setTask_futures : (s.setTask o t).futures g = s.futures g := rfl

@[simp, grind =] theorem goTo_frames : (s.goTo f pt).frames g =
    if g = f then { s.frames f with point := pt } else s.frames g := Function.update_apply ..
@[simp, grind =] theorem goTo_tasks : (s.goTo f pt).tasks o = s.tasks o := rfl
@[simp, grind =] theorem goTo_nextFrame : (s.goTo f pt).nextFrame = s.nextFrame := rfl
@[simp, grind =] theorem goTo_nextTask : (s.goTo f pt).nextTask = s.nextTask := rfl
@[simp, grind =] theorem goTo_pending : (s.goTo f pt).pending = s.pending := rfl
@[simp, grind =] theorem goTo_futures : (s.goTo f pt).futures g = s.futures g := rfl

@[simp, grind =] theorem makeTask_frames : (s.makeTask p).frames g =
    if g = s.nextFrame then ⟨.task, .initial, ⟨none, none⟩⟩ else s.frames g :=
  Function.update_apply ..
@[simp, grind =] theorem makeTask_tasks : (s.makeTask p).tasks o' =
    if o' = s.nextTask then ⟨some s.nextFrame, p⟩ else s.tasks o' := Function.update_apply ..
@[simp, grind =] theorem makeTask_nextFrame : (s.makeTask p).nextFrame = s.nextFrame + 1 := rfl
@[simp, grind =] theorem makeTask_nextTask : (s.makeTask p).nextTask = s.nextTask + 1 := rfl
@[simp, grind =] theorem makeTask_pending : (s.makeTask p).pending = s.pending := rfl
@[simp, grind =] theorem makeTask_futures : (s.makeTask p).futures g = s.futures g := rfl

@[simp, grind =] theorem moveTask_frames : (s.moveTask o p).frames f = s.frames f := rfl
@[simp, grind =] theorem moveTask_tasks : (s.moveTask o p).tasks o' =
    if o' = s.nextTask then ⟨(s.tasks o).coro, p⟩
    else if o' = o then { s.tasks o with coro := none } else s.tasks o' := by
  simp [State.moveTask]
@[simp, grind =] theorem moveTask_nextFrame : (s.moveTask o p).nextFrame = s.nextFrame := rfl
@[simp, grind =] theorem moveTask_nextTask : (s.moveTask o p).nextTask = s.nextTask + 1 := rfl
@[simp, grind =] theorem moveTask_pending : (s.moveTask o p).pending = s.pending := rfl
@[simp, grind =] theorem moveTask_futures : (s.moveTask o p).futures g = s.futures g := rfl

@[simp, grind =] theorem coAsync_frames : (s.coAsync o).frames g =
    if g = s.nextFrame then ⟨.root s.nextTask, .entry, ⟨none, none⟩⟩ else s.frames g :=
  Function.update_apply ..
@[simp, grind =] theorem coAsync_tasks : (s.coAsync o).tasks o' =
    if o' = s.nextTask then ⟨(s.tasks o).coro, .frame s.nextFrame⟩
    else if o' = o then { s.tasks o with coro := none } else s.tasks o' :=
  moveTask_tasks ..
@[simp, grind =] theorem coAsync_nextFrame : (s.coAsync o).nextFrame = s.nextFrame + 1 := rfl
@[simp, grind =] theorem coAsync_nextTask : (s.coAsync o).nextTask = s.nextTask + 1 := rfl
@[simp, grind =] theorem coAsync_pending : (s.coAsync o).pending = s.pending := rfl
@[simp, grind =] theorem coAsync_futures : (s.coAsync o).futures g =
    if g = s.nextFrame then ⟨false, false⟩ else s.futures g := Function.update_apply ..

end Fields

@[simp] theorem inProgress_iff {p : Point} : p.InProgress ↔
    p = .running ∨ (∃ g, p = .onTask g) ∨ (∃ k, p = .onOp k) ∨ p = .returning := by
  cases p <;> simp [Point.InProgress]

@[grind →] theorem Point.InProgress.alive {p : Point} (h : p.InProgress) : p ≠ .absent ∧
    p ≠ .initial ∧ p ≠ .entry ∧ p ≠ .final ∧ p ≠ .destroying ∧ p ≠ .destroyed := by
  cases p <;> simp_all

/-- The frame is kept alive from another one: by the coroutine that awaits it, or
by a task object in the other frame. -/
def State.Holds (s : State υ) (f g : Nat) : Prop :=
  (s.frames f).point = .onTask g ∨
    ∃ o, (s.tasks o).coro = some g ∧ (s.tasks o).place = .frame f

/-- What holds of a frame by itself. The slot of a task is alive from the return
on, and until the frame is gone. -/
structure Frame.Sound (fr : Frame υ) : Prop where
  task : fr.kind = .task → fr.point ≠ .entry
  root : ∀ t, fr.kind = .root t → fr.point ≠ .absent ∧ fr.point ≠ .initial ∧
    fr.point ≠ .final ∧ ∀ k, fr.point ≠ .onOp k
  unstarted : fr.point = .initial → fr.promise.continuation = none
  started : fr.kind = .task → fr.point.InProgress → fr.promise.continuation ≠ none
  finished : fr.point = .final → fr.promise.continuation ≠ none
  slot : fr.promise.value ≠ none ↔ fr.kind = .task ∧ (fr.point = .returning ∨
    fr.point = .final ∨ fr.point = .destroying ∧ fr.promise.continuation ≠ none)

structure Inv (s : State υ) : Prop where
  absent : ∀ f, (s.frames f).point = .absent ↔ s.nextFrame ≤ f
  sound : ∀ f, (s.frames f).Sound
  freshTask : ∀ o, s.nextTask ≤ o → s.tasks o = ⟨none, .nowhere⟩
  placed : ∀ o g, (s.tasks o).coro = some g → (s.tasks o).place ≠ .nowhere
  handle : ∀ o g, (s.tasks o).coro = some g → (s.frames g).kind = .task ∧
    ((s.frames g).point = .initial ∨ (s.frames g).point = .final ∨
      (s.frames g).point.InProgress)
  lent : ∀ o g f, (s.tasks o).coro = some g → (s.frames g).point.InProgress →
    (s.tasks o).place = .frame f → (s.frames f).point = .onTask g
  unique : ∀ o o' g, (s.tasks o).coro = some g → (s.tasks o').coro = some g → o = o'
  owned : ∀ g, (s.frames g).kind = .task →
    (s.frames g).point ≠ .absent → (s.frames g).point ≠ .destroying →
    (s.frames g).point ≠ .destroyed → ∃ o, (s.tasks o).coro = some g
  housed : ∀ o f, (s.tasks o).coro ≠ none → (s.tasks o).place = .frame f →
    (s.frames f).point ≠ .absent ∧ (s.frames f).point ≠ .destroyed
  entry : ∀ r t, (s.frames r).kind = .root t → (s.frames r).point = .entry →
    ∃ g, s.tasks t = ⟨some g, .frame r⟩ ∧ (s.frames g).point = .initial
  awaits : ∀ f g, (s.frames f).point = .onTask g → (s.frames g).kind = .task ∧
    (s.frames g).point.InProgress ∧ (s.frames g).promise.continuation = some f
  awaited : ∀ f g, (s.frames g).kind = .task → (s.frames g).point.InProgress →
    (s.frames g).promise.continuation = some f → (s.frames f).point = .onTask g
  ranked : Ranked s.Holds

section Frames

variable {s : State υ}

/-- One frame moves on by itself and stays in progress. -/
theorem Inv.advance (hi : Inv s) {f : Nat} {fr : Frame υ} (hkind : fr.kind = (s.frames f).kind)
    (hlink : fr.promise.continuation = (s.frames f).promise.continuation)
    (hp : (s.frames f).point.InProgress) (hnot : ∀ g, (s.frames f).point ≠ .onTask g)
    (hp' : fr.point.InProgress) (hnot' : ∀ g, fr.point ≠ .onTask g) (hfr : fr.Sound) :
    Inv (s.setFrame f fr) := by
  constructor
  case ranked =>
    refine hi.ranked.mono ?_
    grind [State.Holds]
  case absent => grind [hi.absent]
  case sound => grind [hi.sound]
  case freshTask => exact hi.freshTask
  case placed => exact hi.placed
  case handle => grind [hi.handle]
  case lent => grind [hi.lent]
  case unique => exact hi.unique
  case owned =>
    intro g hkind hp₁ hp₂ hp₃
    obtain ⟨o, ho⟩ : ∃ o, (s.tasks o).coro = some g := by grind [hi.owned]
    exact ⟨o, by grind⟩
  case housed => grind [hi.housed]
  case entry => grind [hi.entry]
  case awaits => grind [hi.awaits]
  case awaited => grind [hi.awaited]

/-- A root is left, or a frame is gone. -/
theorem Inv.perish (hi : Inv s) {f : Nat} {fr : Frame υ} (hkind : fr.kind = (s.frames f).kind)
    (hp : (s.frames f).point = .destroying ∨
      (s.frames f).kind ≠ .task ∧ (s.frames f).point = .returning)
    (hp' : fr.point = .destroying ∨ fr.point = .destroyed)
    (hvacated : fr.point = .destroyed → ∀ o, (s.tasks o).place = .frame f →
      (s.tasks o).coro = none)
    (hfr : fr.Sound) : Inv (s.setFrame f fr) := by
  constructor
  case ranked =>
    refine hi.ranked.mono ?_
    grind [State.Holds]
  case absent => grind [hi.absent]
  case sound => grind [hi.sound]
  case freshTask => exact hi.freshTask
  case placed => exact hi.placed
  case handle => grind [hi.handle]
  case lent => grind [hi.lent, hi.handle]
  case unique => exact hi.unique
  case owned =>
    intro g hkind hp₁ hp₂ hp₃
    obtain ⟨o, ho⟩ : ∃ o, (s.tasks o).coro = some g := by grind [hi.owned]
    exact ⟨o, by grind⟩
  case housed => grind [hi.housed]
  case entry => grind [hi.entry]
  case awaits => grind [hi.awaits]
  case awaited => grind [hi.awaited, hi.awaits]

theorem Inv.inProgress_of_holds (hi : Inv s) {f g : Nat} (h : s.Holds f g)
    (hg : (s.frames g).point.InProgress) : (s.frames f).point.InProgress := by
  obtain hf | ⟨o, hcoro, hplace⟩ := h
  · rw [hf]
    trivial
  · rw [hi.lent o g f hcoro hg hplace]
    trivial

/-- What leads to a frame that is in progress is in progress. -/
theorem Inv.inProgress_of_reaches (hi : Inv s) {f g : Nat} (h : ReflTransGen s.Holds f g)
    (hg : (s.frames g).point.InProgress) : (s.frames f).point.InProgress := by
  induction h using ReflTransGen.head_induction_on with
  | refl => exact hg
  | head h _ ih => exact hi.inProgress_of_holds h ih

/-- A root hangs from nothing. -/
theorem Inv.not_holds_root (hi : Inv s) {f r : Nat} (hr : (s.frames r).kind ≠ .task) :
    ¬s.Holds f r := by
  rintro (h | ⟨o, h, -⟩)
  · exact hr (hi.awaits f r h).1
  · exact hr (hi.handle o r h).1

/-- A frame that does not exist yet: nobody has its handle or awaits it, and it
has no tasks. -/
structure State.Untouched (s : State υ) (n : Nat) : Prop where
  absent : (s.frames n).point = .absent
  handle : ∀ o, (s.tasks o).coro ≠ some n
  awaited : ∀ f, (s.frames f).point ≠ .onTask n
  empty : ∀ o, (s.tasks o).coro ≠ none → (s.tasks o).place ≠ .frame n

theorem Inv.untouched (hi : Inv s) : s.Untouched s.nextFrame := by
  have hp : (s.frames s.nextFrame).point = .absent := (hi.absent _).mpr (Nat.le_refl _)
  constructor
  · exact hp
  · intro o ho
    have := (hi.handle o _ ho).2
    simp [hp] at this
  · intro f hf
    have := (hi.awaits f _ hf).2.1
    simp [hp] at this
  · intro o ho hplace
    exact (hi.housed o _ ho hplace).1 hp

theorem State.Untouched.not_holds {n : Nat} (h : s.Untouched n) (f : Nat) : ¬s.Holds n f := by
  rintro (hf | ⟨o, ho, hplace⟩)
  · simp [h.absent] at hf
  · exact h.empty o (by simp [ho]) hplace

theorem State.Untouched.not_reaches {n f : Nat} (h : s.Untouched n) (hne : f ≠ n) :
    ¬ReflTransGen s.Holds n f := by
  intro hr
  obtain rfl | ⟨x, hx, -⟩ := ReflTransGen.cases_head hr
  · exact hne rfl
  · exact h.not_holds x hx

/-- A new frame of a task, and the object that has its handle. -/
theorem Inv.makeTask (hi : Inv s) {p : Place} (hp : p ≠ .nowhere)
    (hlive : ∀ f, p = .frame f → (s.frames f).point ≠ .absent ∧ (s.frames f).point ≠ .destroyed) :
    Inv (s.makeTask p) := by
  have hnew := hi.untouched
  have hnewTask : s.tasks s.nextTask = ⟨none, .nowhere⟩ := hi.freshTask _ (Nat.le_refl _)
  constructor
  case ranked =>
    cases p with
    | frame f =>
      have hne : f ≠ s.nextFrame := fun h => (hlive f rfl).1 (h ▸ hnew.absent)
      refine (hi.ranked.insert (hnew.not_reaches hne)).mono ?_
      grind [State.Holds]
    | outside =>
      refine hi.ranked.mono ?_
      grind [State.Holds]
    | nowhere => exact absurd rfl hp
  case owned =>
    intro g hkind hp₁ hp₂ hp₃
    by_cases hg : g = s.nextFrame
    · exact ⟨s.nextTask, by simp [hg]⟩
    · obtain ⟨o, ho⟩ : ∃ o, (s.tasks o).coro = some g := by grind [hi.owned]
      exact ⟨o, by grind⟩
  case absent => grind [hi.absent]
  case sound =>
    have hsound : Frame.Sound (υ := υ) ⟨.task, .initial, ⟨none, none⟩⟩ := by
      constructor <;> simp
    grind [hi.sound]
  case freshTask => grind [hi.freshTask]
  case placed => grind [hi.placed]
  case handle => grind [hi.handle]
  case lent => grind [hi.lent, hnew.handle, hnew.empty]
  case unique => grind [hi.unique, hnew.handle]
  case housed => grind [hi.housed]
  case entry => grind [hi.entry]
  case awaits => grind [hi.awaits, hnew.awaited]
  case awaited => grind [hi.awaited, hnew.absent]

/-- `task(task &&)`, of a task that is not under way. -/
theorem Inv.moveTask (hi : Inv s) {o : Nat} {q : Place} (ho : o < s.nextTask)
    (hroot : ∀ r, (s.tasks o).place = .frame r → (s.frames r).kind = .task)
    (hidle : ∀ g, (s.tasks o).coro = some g → ¬(s.frames g).point.InProgress)
    (hq : q ≠ .nowhere)
    (hlive : ∀ f, q = .frame f → (s.frames f).point ≠ .absent ∧ (s.frames f).point ≠ .destroyed)
    (hreach : ∀ f g, q = .frame f → (s.tasks o).coro = some g → ¬ReflTransGen s.Holds g f) :
    Inv (s.moveTask o q) := by
  have hnewTask : s.tasks s.nextTask = ⟨none, .nowhere⟩ := hi.freshTask _ (Nat.le_refl _)
  constructor
  case ranked =>
    by_cases h : ∃ f g, q = .frame f ∧ (s.tasks o).coro = some g
    · obtain ⟨f, g, rfl, hcoro⟩ := h
      refine (hi.ranked.insert (hreach f g rfl hcoro)).mono ?_
      grind [State.Holds]
    · refine hi.ranked.mono ?_
      grind [State.Holds]
  case owned =>
    intro g hkind hp₁ hp₂ hp₃
    obtain ⟨o', ho'⟩ : ∃ o', (s.tasks o').coro = some g := by grind [hi.owned]
    by_cases h : o' = o
    · exact ⟨s.nextTask, by simp [← h, ho']⟩
    · exact ⟨o', by grind⟩
  case absent => exact hi.absent
  case sound => exact hi.sound
  case freshTask => grind [hi.freshTask]
  case placed => grind [hi.placed]
  case handle => grind [hi.handle]
  case lent => grind [hi.lent, hi.handle]
  case unique => grind [hi.unique]
  case housed => grind [hi.housed]
  case entry => grind [hi.entry]
  case awaits => exact hi.awaits
  case awaited => exact hi.awaited

/-- `~task()` of an object that was moved from. -/
theorem Inv.dropEmpty (hi : Inv s) {o : Nat} (ho : (s.tasks o).coro = none) :
    Inv (s.setTask o ⟨none, .nowhere⟩) := by
  constructor
  case ranked =>
    refine hi.ranked.mono ?_
    grind [State.Holds]
  case owned =>
    intro g hkind hp₁ hp₂ hp₃
    obtain ⟨o, ho⟩ : ∃ o, (s.tasks o).coro = some g := by grind [hi.owned]
    exact ⟨o, by grind⟩
  case absent => exact hi.absent
  case sound => exact hi.sound
  case freshTask => grind [hi.freshTask]
  case placed => grind [hi.placed]
  case handle => grind [hi.handle]
  case lent => grind [hi.lent]
  case unique => grind [hi.unique]
  case housed => grind [hi.housed]
  case entry => grind [hi.entry]
  case awaits => exact hi.awaits
  case awaited => exact hi.awaited

/-- `~task()` of an object that has a handle: the frame begins to be destroyed. -/
theorem Inv.dropHandle (hi : Inv s) {o g : Nat} (ho : (s.tasks o).coro = some g)
    (hidle : ¬(s.frames g).point.InProgress)
    (hroot : ∀ r, (s.tasks o).place = .frame r → (s.frames r).point ≠ .entry) :
    Inv ((s.setTask o ⟨none, .nowhere⟩).goTo g .destroying) := by
  have hg := hi.handle o g ho
  have hsound := hi.sound g
  have hdestroying : Frame.Sound { s.frames g with point := .destroying } := by
    have := hsound.slot
    constructor <;> grind [hsound.unstarted, hsound.finished]
  constructor
  case ranked =>
    refine hi.ranked.mono ?_
    grind [State.Holds]
  case owned =>
    intro g' hkind hp₁ hp₂ hp₃
    obtain ⟨o', ho'⟩ : ∃ o', (s.tasks o').coro = some g' := by grind [hi.owned]
    exact ⟨o', by grind⟩
  case absent => grind [hi.absent]
  case sound => grind [hi.sound]
  case freshTask => grind [hi.freshTask]
  case placed => grind [hi.placed]
  case handle => grind [hi.handle, hi.unique]
  case lent => grind [hi.lent]
  case unique => grind [hi.unique]
  case housed => grind [hi.housed]
  case entry =>
    intro r t hkind hp
    obtain ⟨g', ht, hg'⟩ : ∃ g', s.tasks t = ⟨some g', .frame r⟩ ∧
        (s.frames g').point = .initial := by
      grind [hi.entry]
    have hcoro : (s.tasks t).coro = some g' := by rw [ht]
    exact ⟨g', by grind [hi.unique]⟩
  case awaits => grind [hi.awaits]
  case awaited => grind [hi.awaited]

/-- The frame `f` is suspended, and the task that it awaits starts. -/
theorem Inv.link (hi : Inv s) {f g o : Nat} (ho : (s.tasks o).coro = some g)
    (hplace : (s.tasks o).place = .frame f ∨ (s.tasks o).place = .outside)
    (hf : (s.frames f).point = .running ∨ (s.frames f).point = .entry)
    (hg : (s.frames g).point = .initial) :
    Inv ((s.goTo f (.onTask g)).setFrame g ⟨(s.frames g).kind, .running,
      { (s.frames g).promise with continuation := some f }⟩) := by
  have hne : f ≠ g := by
    rintro rfl
    simp [hg] at hf
  have hkind := (hi.handle o g ho).1
  have hroot : (s.frames f).point = .entry → (s.frames f).kind ≠ .task := fun h h' =>
    (hi.sound f).task h' h
  have hreach : ¬ReflTransGen s.Holds g f := by
    intro h
    obtain hf | hf := hf
    · have := hi.inProgress_of_reaches h (by simp [hf])
      simp [hg] at this
    · obtain rfl | ⟨x, -, hx⟩ := ReflTransGen.cases_tail h
      · exact hne rfl
      · exact hi.not_holds_root (hroot hf) hx
  have hsound : Frame.Sound { s.frames f with point := .onTask g } := by
    have := (hi.sound f).slot
    constructor <;> grind [(hi.sound f).started]
  have hsound' : Frame.Sound ⟨(s.frames g).kind, .running,
      { (s.frames g).promise with continuation := some f }⟩ := by
    have := (hi.sound g).slot
    constructor <;> grind
  constructor
  case ranked =>
    refine (hi.ranked.insert hreach).mono ?_
    grind [State.Holds]
  case absent => grind [hi.absent]
  case sound => grind [hi.sound]
  case freshTask => exact hi.freshTask
  case placed => exact hi.placed
  case handle => grind [hi.handle]
  case lent => grind [hi.lent, hi.unique, hi.handle]
  case unique => exact hi.unique
  case owned =>
    intro g hkind hp₁ hp₂ hp₃
    obtain ⟨o, ho⟩ : ∃ o, (s.tasks o).coro = some g := by grind [hi.owned]
    exact ⟨o, by grind⟩
  case housed => grind [hi.housed]
  case entry =>
    intro r t hkind hp
    obtain ⟨g', ht, hg'⟩ : ∃ g', s.tasks t = ⟨some g', .frame r⟩ ∧
        (s.frames g').point = .initial := by
      grind [hi.entry]
    have hcoro : (s.tasks t).coro = some g' := by rw [ht]
    exact ⟨g', by grind [hi.unique]⟩
  case awaits => grind [hi.awaits]
  case awaited => grind [hi.awaited]

/-- Control goes over from the task at its final suspend to what awaits it. -/
theorem Inv.transfer (hi : Inv s) {f c : Nat} (hkind : (s.frames f).kind = .task)
    (hp : (s.frames f).point = .returning) (hc : (s.frames c).point = .onTask f) :
    Inv ((s.goTo f .final).goTo c .running) := by
  have hlink := (hi.awaits c f hc).2.2
  have hsound : Frame.Sound { s.frames f with point := .final } := by
    have := (hi.sound f).slot
    constructor <;> grind
  have hsound' : Frame.Sound { s.frames c with point := .running } := by
    have := (hi.sound c).slot
    constructor <;> grind [(hi.sound c).started]
  constructor
  case ranked =>
    refine hi.ranked.mono ?_
    grind [State.Holds]
  case absent => grind [hi.absent]
  case sound => grind [hi.sound]
  case freshTask => exact hi.freshTask
  case placed => exact hi.placed
  case handle => grind [hi.handle]
  case lent => grind [hi.lent]
  case unique => exact hi.unique
  case owned =>
    intro g hkind hp₁ hp₂ hp₃
    obtain ⟨o, ho⟩ : ∃ o, (s.tasks o).coro = some g := by grind [hi.owned]
    exact ⟨o, by grind⟩
  case housed => grind [hi.housed]
  case entry => grind [hi.entry]
  case awaits => grind [hi.awaits]
  case awaited => grind [hi.awaited]

/-- The frame of a root, with the promise and the task. -/
theorem Inv.coAsync (hi : Inv s) {o g : Nat} (ho : (s.tasks o).coro = some g)
    (hlt : o < s.nextTask) (hg : (s.frames g).point = .initial)
    (hroot : ∀ r, (s.tasks o).place = .frame r → (s.frames r).kind = .task) :
    Inv (s.coAsync o) := by
  have hnew := hi.untouched
  have hnewTask : s.tasks s.nextTask = ⟨none, .nowhere⟩ := hi.freshTask _ (Nat.le_refl _)
  have hne : g ≠ s.nextFrame := by
    rintro rfl
    simp [hnew.absent] at hg
  have hsound : Frame.Sound (υ := υ) ⟨.root s.nextTask, .entry, ⟨none, none⟩⟩ := by
    constructor <;> simp
  constructor
  case ranked =>
    have hreach : ¬ReflTransGen s.Holds g s.nextFrame := by
      intro h
      obtain rfl | ⟨x, -, hx | ⟨o', ho', -⟩⟩ := ReflTransGen.cases_tail h
      · exact hne rfl
      · exact hnew.awaited x hx
      · exact hnew.handle o' ho'
    refine (hi.ranked.insert hreach).mono ?_
    grind [State.Holds]
  case owned =>
    intro g' hkind hp₁ hp₂ hp₃
    obtain ⟨o', ho'⟩ : ∃ o', (s.tasks o').coro = some g' := by grind [hi.owned]
    by_cases h : o' = o
    · exact ⟨s.nextTask, by simp [← h, ho']⟩
    · exact ⟨o', by grind⟩
  case absent => grind [hi.absent]
  case sound => grind [hi.sound]
  case freshTask => grind [hi.freshTask]
  case placed => grind [hi.placed]
  case handle => grind [hi.handle, hnew.handle]
  case lent => grind [hi.lent, hnew.handle, hnew.empty]
  case unique => grind [hi.unique]
  case housed => grind [hi.housed]
  case entry =>
    intro r t hkind hp
    by_cases hr : r = s.nextFrame
    · exact ⟨g, by grind⟩
    · obtain ⟨g', hg'⟩ : ∃ g', s.tasks t = ⟨some g', .frame r⟩ ∧
          (s.frames g').point = .initial := by
        grind [hi.entry]
      exact ⟨g', by grind [hnew.absent]⟩
  case awaits => grind [hi.awaits, hnew.awaited]
  case awaited => grind [hi.awaited, hnew.absent]

/-- The frames are as they were, and so are the objects. -/
theorem Inv.congr {s' : State υ} (hi : Inv s) (hframes : s'.frames = s.frames)
    (htasks : s'.tasks = s.tasks) (hnextFrame : s'.nextFrame = s.nextFrame)
    (hnextTask : s'.nextTask = s.nextTask) : Inv s' := by
  cases s'
  cases hframes
  cases htasks
  cases hnextFrame
  cases hnextTask
  exact ⟨hi.absent, hi.sound, hi.freshTask, hi.placed, hi.handle, hi.lent, hi.unique, hi.owned,
    hi.housed, hi.entry, hi.awaits, hi.awaited, hi.ranked⟩

theorem Inv.start : Inv (start : State υ) := by
  constructor
  case sound =>
    intro f
    constructor <;> simp [Coroutine.start]
  case ranked => exact ⟨fun _ => 0, by simp [State.Holds, Coroutine.start]⟩
  all_goals simp [Coroutine.start]

end Frames

section Calls

variable {s : State υ}

/-- What a call may pass on: an object that is not a parameter of a root, whose
task is not under way. -/
structure State.Passes (s : State υ) (n o : Nat) : Prop where
  lt : o < s.nextTask
  place : ∀ r, (s.tasks o).place = .frame r → (s.frames r).kind = .task
  idle : ∀ g, (s.tasks o).coro = some g → ¬(s.frames g).point.InProgress
  other : (s.tasks o).coro ≠ some n

/-- The frame of a call that is being made: what holds it is running. -/
structure State.Called (s : State υ) (n : Nat) : Prop where
  initial : (s.frames n).point = .initial
  held : ∀ f, s.Holds f n → (s.frames f).point.InProgress

theorem State.Passes.moveTask {n o o' : Nat} {q : Place} (h : s.Passes n o) :
    (s.moveTask o' q).Passes n o := by
  have ho := h.lt
  constructor
  · simp only [moveTask_nextTask]
    omega
  · grind [h.place]
  · grind [h.idle]
  · grind [h.other]

theorem State.Called.moveTask {n o : Nat} (h : s.Called n) (ho : s.Passes n o) :
    (s.moveTask o (.frame n)).Called n := by
  constructor
  · exact h.initial
  · rintro f (hf | ⟨o', hcoro, hplace⟩)
    · exact h.held f (.inl hf)
    · refine h.held f (.inr ⟨o', ?_⟩)
      grind [ho.other]

/-- One parameter is initialized. -/
theorem Inv.pass (hi : Inv s) {n o : Nat} (hn : s.Called n) (ho : s.Passes n o) :
    Inv (s.moveTask o (.frame n)) := by
  refine hi.moveTask ho.lt ho.place ho.idle (by simp) ?_ ?_
  · rintro f ⟨rfl⟩
    simp [hn.initial]
  · rintro f g ⟨rfl⟩ hcoro hreach
    obtain rfl | ⟨x, hx, hhold⟩ := ReflTransGen.cases_tail hreach
    · exact ho.other hcoro
    · exact ho.idle g hcoro (hi.inProgress_of_reaches hx (hn.held x hhold))

theorem passAll_frames (s : State υ) (n : Nat) (args : List Nat) :
    (args.foldl (fun s' o => s'.moveTask o (.frame n)) s).frames = s.frames := by
  induction args generalizing s with
  | nil => rfl
  | cons o args ih => exact ih (s.moveTask o (.frame n))

theorem passAll_pending (s : State υ) (n : Nat) (args : List Nat) :
    (args.foldl (fun s' o => s'.moveTask o (.frame n)) s).pending = s.pending := by
  induction args generalizing s with
  | nil => rfl
  | cons o args ih => exact ih (s.moveTask o (.frame n))

theorem passAll_futures (s : State υ) (n : Nat) (args : List Nat) :
    (args.foldl (fun s' o => s'.moveTask o (.frame n)) s).futures = s.futures := by
  induction args generalizing s with
  | nil => rfl
  | cons o args ih => exact ih (s.moveTask o (.frame n))

theorem Inv.passAll {n : Nat} {args : List Nat} (hi : Inv s) (hn : s.Called n)
    (hargs : ∀ o ∈ args, s.Passes n o) :
    Inv (args.foldl (fun s' o => s'.moveTask o (.frame n)) s) := by
  induction args generalizing s with
  | nil => exact hi
  | cons o args ih =>
    have ho := hargs o List.mem_cons_self
    refine ih (hi.pass hn ho) (hn.moveTask ho) ?_
    intro o' ho'
    exact (hargs o' (List.mem_cons_of_mem o ho')).moveTask

/-- What code that acts has is no parameter of a root. -/
theorem State.Has.kind {p : Place} {o r : Nat} (hp : s.Acts p) (ho : s.Has p o)
    (hplace : (s.tasks o).place = .frame r) : (s.frames r).kind = .task := by
  obtain ho | ho := ho.2
  · obtain rfl : p = .frame r := ho.symm.trans hplace
    exact hp.1
  · simp [hplace] at ho

/-- Code that acts does not await its own tasks at the time. -/
theorem Inv.not_inProgress (hi : Inv s) {p : Place} {o g : Nat} (hp : s.Acts p) (ho : s.Has p o)
    (hidle : s.Idle o) (hcoro : (s.tasks o).coro = some g) :
    ¬(s.frames g).point.InProgress := by
  intro hg
  cases hplace : (s.tasks o).place with
  | outside => exact hidle hplace g hcoro hg
  | nowhere => exact hi.placed o g hcoro hplace
  | frame f =>
    have hf := hi.lent o g f hcoro hg hplace
    obtain ho | ho := ho.2
    · obtain rfl : p = .frame f := ho.symm.trans hplace
      have := hp.2
      simp [hf] at this
    · simp [hplace] at ho

theorem State.Acts.live {p : Place} {f : Nat} (hp : s.Acts p) (hf : p = .frame f) :
    (s.frames f).point ≠ .absent ∧ (s.frames f).point ≠ .destroyed := by
  subst hf
  simp [hp.2]

theorem State.Acts.ne_nowhere {p : Place} (hp : s.Acts p) : p ≠ .nowhere := by
  rintro rfl
  exact hp

/-- A call of a coroutine. -/
theorem Inv.call (hi : Inv s) {p : Place} {args : List Nat} (hp : s.Acts p)
    (hargs : ∀ o ∈ args, s.Has p o ∧ s.Idle o) :
    Inv (args.foldl (fun s' o => s'.moveTask o (.frame s.nextFrame)) (s.makeTask p)) := by
  have hnew := hi.untouched
  have hmake : Inv (s.makeTask p) := hi.makeTask hp.ne_nowhere fun f hf => hp.live hf
  refine hmake.passAll ?_ ?_
  · constructor
    · simp
    · rintro f (hf | ⟨o, hcoro, hplace⟩)
      · have := hmake.awaits f _ hf
        simp at this
      · have hrunning : p = .frame f → (s.frames f).point = .running := by
          rintro rfl
          exact hp.2
        grind [hnew.handle, hnew.absent]
  · intro o ho
    obtain ⟨hhas, hidle⟩ := hargs o ho
    have hkind := fun r => hhas.kind (r := r) hp
    have hstill := fun g => hi.not_inProgress (g := g) hp hhas hidle
    have hlt := hhas.1
    constructor
    · simp only [makeTask_nextTask]
      omega
    · grind
    · grind
    · grind [hnew.handle]

/-- A move by code that acts, to itself or outside. -/
theorem Inv.move (hi : Inv s) {p q : Place} {o : Nat} (hp : s.Acts p) (ho : s.Has p o)
    (hidle : s.Idle o) (hq : q = p ∨ q = .outside) : Inv (s.moveTask o q) := by
  have hstill := fun g => hi.not_inProgress (g := g) hp ho hidle
  refine hi.moveTask ho.1 (fun r => ho.kind hp) hstill ?_ ?_ ?_
  · obtain rfl | rfl := hq
    · exact hp.ne_nowhere
    · simp
  · rintro f rfl
    obtain rfl | hq := hq
    · exact hp.live rfl
    · cases hq
  · rintro f g rfl hcoro hreach
    obtain rfl | hq := hq
    · exact hstill g hcoro (hi.inProgress_of_reaches hreach (by simp [hp.2]))
    · cases hq

end Calls

end Coroutine
