import Arkio.CoroutineInvariant

/-!
# What a step of the coroutines does

From a state in which the invariant holds a disciplined program takes one of a
few steps, and none of them goes wrong: a handle that is resumed is suspended,
one that is destroyed is suspended, and the promise of a root is not set yet.
-/
namespace Coroutine

open LabelledMachine

variable {υ : Type}

/-- The callbacks of the frames that wait for an operation, and the futures. -/
structure Waits (s : State υ) : Prop where
  op : ∀ k f, (k, f) ∈ s.pending → (s.frames f).point = .onOp k
  waiting : ∀ k f, (s.frames f).point = .onOp k → (k, f) ∈ s.pending
  nodup : s.pending.Nodup
  ready : ∀ r t, (s.frames r).kind = .root t → ((s.futures r).ready = true ↔
    (s.frames r).point = .returning ∨ (s.frames r).point = .destroying ∨
      (s.frames r).point = .destroyed)

inductive Move (s : State υ) : State υ → History → Prop where
  | call {p : Place} {args : List Nat} (hp : s.Acts p)
      (hargs : ∀ o ∈ args, s.Has p o ∧ s.Idle o) :
      Move s (args.foldl (fun s' o => s'.moveTask o (.frame s.nextFrame)) (s.makeTask p))
        [.created s.nextFrame]
  | move {p q : Place} {o : Nat} (hp : s.Acts p) (ho : s.Has p o) (hidle : s.Idle o)
      (hq : q = p ∨ q = .outside) : Move s (s.moveTask o q) []
  | dropEmpty {o : Nat} (ho : (s.tasks o).coro = none) :
      Move s (s.setTask o ⟨none, .nowhere⟩) []
  | dropHandle {o g : Nat} (ho : (s.tasks o).coro = some g)
      (hg : ¬(s.frames g).point.InProgress)
      (hroot : ∀ r, (s.tasks o).place = .frame r → (s.frames r).point ≠ .entry) :
      Move s ((s.setTask o ⟨none, .nowhere⟩).goTo g .destroying) []
  | await {f g o : Nat} (ho : (s.tasks o).coro = some g)
      (hplace : (s.tasks o).place = .frame f ∨ (s.tasks o).place = .outside)
      (hf : (s.frames f).point = .running ∨ (s.frames f).point = .entry)
      (hg : (s.frames g).point = .initial) :
      Move s ((s.goTo f (.onTask g)).setFrame g ⟨(s.frames g).kind, .running,
        { (s.frames g).promise with continuation := some f }⟩) [.awaited f g, .resumed g]
  | awaitOp {f : Nat} (hf : s.Acts (.frame f)) :
      Move s { s.goTo f (.onOp s.nextOp) with
        pending := (s.nextOp, f) :: s.pending, nextOp := s.nextOp + 1 } []
  | complete {k f : Nat} (hk : (k, f) ∈ s.pending) :
      Move s ({ s with pending := s.pending.erase (k, f) }.goTo f .running) [.resumed f]
  | returnValue {f : Nat} (hf : s.Acts (.frame f)) (v : υ) :
      Move s (s.setFrame f { s.frames f with
        point := .returning, promise := (s.frames f).promise.returnValue v }) [.constructed f]
  | finalSuspend {f c : Nat} (hkind : (s.frames f).kind = .task)
      (hp : (s.frames f).point = .returning) (hc : (s.frames c).point = .onTask f) :
      Move s ((s.goTo f .final).goTo c .running) [.transferred f c, .resumed c, .read f]
  | coAsync {p : Place} {o g : Nat} (hp : s.Acts p) (ho : s.Has p o)
      (hcoro : (s.tasks o).coro = some g) (hg : (s.frames g).point = .initial) :
      Move s (s.coAsync o) [.created s.nextFrame]
  | setValue {r : Nat} (hkind : (s.frames r).kind ≠ .task) (hp : (s.frames r).point = .running) :
      Move s { s.goTo r .returning with
        futures := Function.update s.futures r { s.futures r with ready := true } } [.settled r]
  | returnVoid {r : Nat} (hkind : (s.frames r).kind ≠ .task)
      (hp : (s.frames r).point = .returning) : Move s (s.goTo r .destroying) []
  | free {f : Nat} (hp : (s.frames f).point = .destroying) (hv : s.Vacated f) :
      Move s (s.setFrame f { s.frames f with
          point := .destroyed, promise := (s.frames f).promise.clear })
        ((if (s.frames f).promise.value.isSome then [.destructed f] else []) ++ [.destroyed f])
  | discard (r : Nat) :
      Move s { s with
        futures := Function.update s.futures r { s.futures r with discarded := true } } []

section Inversion

variable {s s' : State υ} {e : History}

theorem Inv.initial_of_fresh (hi : Inv s) {o : Nat} (h : s.Fresh o) :
    ∃ g, (s.tasks o).coro = some g ∧ (s.frames g).point = .initial := by
  obtain ⟨g, hcoro, hlink⟩ := h
  obtain ⟨hkind, hp | hp | hp⟩ := hi.handle o g hcoro
  · exact ⟨g, hcoro, hp⟩
  · exact absurd hlink ((hi.sound g).finished hp)
  · exact absurd hlink ((hi.sound g).started hkind hp)

theorem setFrame_setFrame (s : State υ) (f : Nat) (fr fr' : Frame υ) :
    (s.setFrame f fr).setFrame f fr' = s.setFrame f fr' := by
  simp [State.setFrame]

/-- The awaited task starts. -/
theorem awaitTask_eq {f g o : Nat} (ho : (s.tasks o).coro = some g) (hne : g ≠ f)
    (hg : (s.frames g).point = .initial) :
    s.awaitTask f o = ((s.goTo f (.onTask g)).setFrame g ⟨(s.frames g).kind, .running,
      { (s.frames g).promise with continuation := some f }⟩, [.awaited f g, .resumed g]) := by
  simp [State.awaitTask, ho, State.resume, hne, hg, Point.resumable, State.awaitResume,
    State.goTo, setFrame_setFrame]

theorem finalSuspend_eq {f c : Nat} (hlink : (s.frames f).promise.continuation = some c)
    (hne : c ≠ f) (hc : (s.frames c).point = .onTask f)
    (hvalue : (s.frames f).promise.value ≠ none) :
    s.finalSuspend f =
      ((s.goTo f .final).goTo c .running, [.transferred f c, .resumed c, .read f]) := by
  have hsome : (s.frames f).promise.value.isSome := Option.isSome_iff_ne_none.mpr hvalue
  simp [State.finalSuspend, hlink, State.resume, hne, hc, Point.resumable, State.awaitResume,
    State.get, hsome]

theorem dropTask_eq {o g : Nat} (ho : (s.tasks o).coro = some g)
    (hg : (s.frames g).point = .initial ∨ (s.frames g).point = .final) :
    s.dropTask o = ((s.setTask o ⟨none, .nowhere⟩).goTo g .destroying, []) := by
  have hsuspended : (s.frames g).point.suspended = true := by
    obtain hg | hg := hg <;> simp [hg, Point.suspended, Point.resumable]
  simp [State.dropTask, ho, State.destroy, hsuspended]

/-- What may be dropped is not under way, nor is it the parameter of a root that
has not got to its `co_await`. -/
theorem Inv.idle_of_drops (hi : Inv s) {p : Place} {o g : Nat} (hp : s.Drops p)
    (hplace : (s.tasks o).place = p) (hidle : s.Idle o) (hcoro : (s.tasks o).coro = some g) :
    ¬(s.frames g).point.InProgress := by
  intro hg
  cases p with
  | nowhere => exact hp
  | outside => exact hidle hplace g hcoro hg
  | frame f =>
    have hf := hi.lent o g f hcoro hg hplace
    simp [State.Drops, hf] at hp

theorem step_cases (hi : Inv s) (hw : Waits s) {a : Action υ} (hok : Disciplined s a)
    (hs : step s a = some (s', e)) : Move s s' e := by
  cases a with
  | call p args =>
    simp only [step, Option.ite_none_right_eq_some, Option.some.injEq, Prod.mk.injEq] at hs
    obtain ⟨⟨hp, hargs⟩, rfl, rfl⟩ := hs
    exact .call hp fun o ho => ⟨hargs o ho, hok o ho⟩
  | move p o q =>
    simp only [step, Option.ite_none_right_eq_some, Option.some.injEq, Prod.mk.injEq] at hs
    obtain ⟨⟨hp, ho, hq⟩, rfl, rfl⟩ := hs
    exact .move hp ho hok hq
  | drop p o =>
    simp only [step, Option.ite_none_right_eq_some, Option.some.injEq] at hs
    obtain ⟨⟨hp, hplace⟩, hs⟩ := hs
    cases hcoro : (s.tasks o).coro with
    | none =>
      simp only [State.dropTask, hcoro, Prod.mk.injEq] at hs
      obtain ⟨rfl, rfl⟩ := hs
      exact .dropEmpty hcoro
    | some g =>
      have hg := hi.idle_of_drops hp hplace hok hcoro
      have hpoint : (s.frames g).point = .initial ∨ (s.frames g).point = .final := by
        have := (hi.handle o g hcoro).2
        tauto
      rw [dropTask_eq hcoro hpoint, Prod.mk.injEq] at hs
      obtain ⟨rfl, rfl⟩ := hs
      refine .dropHandle hcoro hg ?_
      intro r hr hentry
      obtain rfl : p = .frame r := hplace.symm.trans hr
      simp [State.Drops, hentry] at hp
  | await f o =>
    simp only [step, Option.ite_none_right_eq_some, Option.some.injEq] at hs
    obtain ⟨hawaits, hs⟩ := hs
    obtain ⟨g, hcoro, hg, hplace, hf⟩ : ∃ g, (s.tasks o).coro = some g ∧
        (s.frames g).point = .initial ∧
        ((s.tasks o).place = .frame f ∨ (s.tasks o).place = .outside) ∧
        ((s.frames f).point = .running ∨ (s.frames f).point = .entry) := by
      unfold State.Awaits at hawaits
      split at hawaits
      next hkind =>
        obtain ⟨g, hcoro, hg⟩ := hi.initial_of_fresh (hok hkind)
        exact ⟨g, hcoro, hg, hawaits.2.2, .inl hawaits.1⟩
      next t hkind =>
        obtain ⟨hentry, rfl⟩ := hawaits
        obtain ⟨g, htask, hg⟩ := hi.entry f o hkind hentry
        exact ⟨g, by simp [htask], hg, by simp [htask], .inr hentry⟩
    have hne : g ≠ f := by
      rintro rfl
      simp [hg] at hf
    rw [awaitTask_eq hcoro hne hg, Prod.mk.injEq] at hs
    obtain ⟨rfl, rfl⟩ := hs
    exact .await hcoro hplace hf hg
  | awaitOp f =>
    simp only [step, Option.ite_none_right_eq_some, Option.some.injEq, Prod.mk.injEq] at hs
    obtain ⟨hf, rfl, rfl⟩ := hs
    exact .awaitOp hf
  | complete k =>
    simp only [step] at hs
    split at hs
    next x hx =>
      obtain ⟨k', f⟩ := x
      have hmem := List.mem_of_find?_eq_some hx
      obtain rfl : k' = k := by simpa using List.find?_some hx
      have hf := hw.op k' f hmem
      simp only [State.resume, hf, Point.resumable, if_true, State.awaitResume, Option.some.injEq,
        Prod.mk.injEq] at hs
      obtain ⟨rfl, rfl⟩ := hs
      exact .complete hmem
    next => cases hs
  | returnValue f v =>
    simp only [step, Option.ite_none_right_eq_some, Option.some.injEq, Prod.mk.injEq] at hs
    obtain ⟨hf, rfl, rfl⟩ := hs
    have hempty : (s.frames f).promise.value = none := by
      by_contra h
      have := (hi.sound f).slot.mp h
      simp [hf.2] at this
    simp only [hempty, Option.isSome_none, Bool.false_eq_true, if_false, List.nil_append]
    exact .returnValue hf v
  | finalSuspend f =>
    simp only [step, Option.ite_none_right_eq_some, Option.some.injEq] at hs
    obtain ⟨⟨hkind, hp⟩, hs⟩ := hs
    obtain ⟨c, hlink⟩ := Option.ne_none_iff_exists'.mp ((hi.sound f).started hkind (by simp [hp]))
    have hc := hi.awaited c f hkind (by simp [hp]) hlink
    have hne : c ≠ f := by
      rintro rfl
      simp [hc] at hp
    rw [finalSuspend_eq hlink hne hc ((hi.sound f).slot.mpr ⟨hkind, .inl hp⟩),
      Prod.mk.injEq] at hs
    obtain ⟨rfl, rfl⟩ := hs
    exact .finalSuspend hkind hp hc
  | coAsync p o =>
    simp only [step, Option.ite_none_right_eq_some, Option.some.injEq, Prod.mk.injEq] at hs
    obtain ⟨⟨hp, ho⟩, rfl, rfl⟩ := hs
    obtain ⟨g, hcoro, hg⟩ := hi.initial_of_fresh hok
    exact .coAsync hp ho hcoro hg
  | setValue r =>
    simp only [step, Option.ite_none_right_eq_some] at hs
    obtain ⟨⟨hkind, hp⟩, hs⟩ := hs
    obtain ⟨t, ht⟩ : ∃ t, (s.frames r).kind = .root t := by
      cases h : (s.frames r).kind with
      | task => exact absurd h hkind
      | root t => exact ⟨t, rfl⟩
    have hready : (s.futures r).ready = false := by
      rw [← Bool.not_eq_true, hw.ready r t ht]
      simp [hp]
    simp only [hready, Bool.false_eq_true, if_false, Option.some.injEq, Prod.mk.injEq] at hs
    obtain ⟨rfl, rfl⟩ := hs
    exact .setValue hkind hp
  | returnVoid r =>
    simp only [step, Option.ite_none_right_eq_some, Option.some.injEq, Prod.mk.injEq] at hs
    obtain ⟨⟨hkind, hp⟩, rfl, rfl⟩ := hs
    exact .returnVoid hkind hp
  | free f =>
    simp only [step, Option.ite_none_right_eq_some, Option.some.injEq, Prod.mk.injEq] at hs
    obtain ⟨⟨hp, hv⟩, rfl, rfl⟩ := hs
    exact .free hp hv
  | discard r =>
    simp only [step, Option.some.injEq, Prod.mk.injEq] at hs
    obtain ⟨rfl, rfl⟩ := hs
    exact .discard r

end Inversion

section Preservation

variable {s s' : State υ} {e : History}

theorem Inv.awaitOp (hi : Inv s) {f : Nat} (hf : s.Acts (.frame f)) (k : Nat) :
    Inv (s.goTo f (.onOp k)) := by
  obtain ⟨hkind, hp⟩ := hf
  have hslot := (hi.sound f).slot
  refine hi.advance rfl rfl (by simp [hp]) (by simp [hp]) (by simp) (by simp) ?_
  constructor <;> grind [(hi.sound f).started]

theorem Inv.complete (hi : Inv s) {k f : Nat} (hp : (s.frames f).point = .onOp k) :
    Inv (s.goTo f .running) := by
  have hslot := (hi.sound f).slot
  refine hi.advance rfl rfl (by simp [hp]) (by simp [hp]) (by simp) (by simp) ?_
  constructor <;> grind [(hi.sound f).started]

theorem Inv.returnValue (hi : Inv s) {f : Nat} (hf : s.Acts (.frame f)) (v : υ) :
    Inv (s.setFrame f { s.frames f with
      point := .returning, promise := (s.frames f).promise.returnValue v }) := by
  obtain ⟨hkind, hp⟩ := hf
  refine hi.advance rfl rfl (by simp [hp]) (by simp [hp]) (by simp) (by simp) ?_
  constructor <;> grind [(hi.sound f).started, Promise.returnValue, Promise.clear]

theorem Inv.setValue (hi : Inv s) {r : Nat} (hkind : (s.frames r).kind ≠ .task)
    (hp : (s.frames r).point = .running) : Inv (s.goTo r .returning) := by
  have hslot := (hi.sound r).slot
  refine hi.advance rfl rfl (by simp [hp]) (by simp [hp]) (by simp) (by simp) ?_
  constructor <;> grind

theorem Inv.returnVoid (hi : Inv s) {r : Nat} (hkind : (s.frames r).kind ≠ .task)
    (hp : (s.frames r).point = .returning) : Inv (s.goTo r .destroying) := by
  have hslot := (hi.sound r).slot
  refine hi.perish rfl (.inr ⟨hkind, hp⟩) (.inl rfl) (by simp) ?_
  constructor <;> grind

theorem Inv.free (hi : Inv s) {f : Nat} (hp : (s.frames f).point = .destroying)
    (hv : s.Vacated f) : Inv (s.setFrame f { s.frames f with
      point := .destroyed, promise := (s.frames f).promise.clear }) := by
  have hempty : ∀ o, (s.tasks o).place = .frame f → (s.tasks o).coro = none := by
    intro o ho
    by_cases hlt : o < s.nextTask
    · exact hv o hlt ho
    · simp [hi.freshTask o (by omega)] at ho
  refine hi.perish rfl (.inl hp) (.inr rfl) (fun _ => hempty) ?_
  constructor <;> grind [Promise.clear]

theorem Inv.step (hi : Inv s) (hw : Waits s) (hm : Move s s' e) : Inv s' := by
  cases hm with
  | call hp hargs => exact hi.call hp hargs
  | move hp ho hidle hq => exact hi.move hp ho hidle hq
  | dropEmpty ho => exact hi.dropEmpty ho
  | dropHandle ho hg hroot => exact hi.dropHandle ho hg hroot
  | await ho hplace hf hg => exact hi.link ho hplace hf hg
  | awaitOp hf => exact (hi.awaitOp hf s.nextOp).congr rfl rfl rfl rfl
  | complete hk => exact (hi.complete (hw.op _ _ hk)).congr rfl rfl rfl rfl
  | returnValue hf v => exact hi.returnValue hf v
  | finalSuspend hkind hp hc => exact hi.transfer hkind hp hc
  | coAsync hp ho hcoro hg => exact hi.coAsync hcoro ho.1 hg fun r => ho.kind hp
  | setValue hkind hp => exact (hi.setValue hkind hp).congr rfl rfl rfl rfl
  | returnVoid hkind hp => exact hi.returnVoid hkind hp
  | free hp hv => exact hi.free hp hv
  | discard r => exact hi.congr rfl rfl rfl rfl

/-- The step neither suspends nor resumes anything at an operation, and takes no
root past its promise. -/
theorem Waits.keep (hw : Waits s) (hpending : s'.pending = s.pending)
    (hfutures : s'.futures = s.futures)
    (hop : ∀ k f, (s'.frames f).point = .onOp k ↔ (s.frames f).point = .onOp k)
    (hroot : ∀ r t, (s'.frames r).kind = .root t → (s.frames r).kind = .root t ∧
      ((s'.frames r).point = .returning ∨ (s'.frames r).point = .destroying ∨
          (s'.frames r).point = .destroyed ↔
        (s.frames r).point = .returning ∨ (s.frames r).point = .destroying ∨
          (s.frames r).point = .destroyed)) : Waits s' := by
  constructor
  · intro k f hmem
    exact (hop k f).mpr (hw.op k f (hpending ▸ hmem))
  · intro k f hf
    exact hpending ▸ hw.waiting k f ((hop k f).mp hf)
  · exact hpending ▸ hw.nodup
  · intro r t hkind
    obtain ⟨hkind', hpoint⟩ := hroot r t hkind
    rw [hfutures, hw.ready r t hkind', hpoint]

theorem Waits.awaitOp (hw : Waits s) {f : Nat} (hf : s.Acts (.frame f)) :
    Waits { s.goTo f (.onOp s.nextOp) with
      pending := (s.nextOp, f) :: s.pending, nextOp := s.nextOp + 1 } := by
  obtain ⟨hkind, hp⟩ := hf
  have hout : ∀ k, (k, f) ∉ s.pending := by
    intro k hmem
    have := hw.op k f hmem
    simp [hp] at this
  constructor
  · grind [hw.op]
  · grind [hw.waiting]
  · exact List.nodup_cons.mpr ⟨hout _, hw.nodup⟩
  · grind [hw.ready]

theorem Waits.complete (hw : Waits s) {k f : Nat} (hk : (k, f) ∈ s.pending) :
    Waits ({ s with pending := s.pending.erase (k, f) }.goTo f .running) := by
  have hmem : ∀ x, x ∈ s.pending.erase (k, f) ↔ x ≠ (k, f) ∧ x ∈ s.pending := fun x =>
    hw.nodup.mem_erase_iff
  have hp := hw.op k f hk
  constructor
  · grind [hw.op]
  · grind [hw.waiting]
  · exact hw.nodup.erase _
  · grind [hw.ready]

theorem Waits.coAsync (hi : Inv s) (hw : Waits s) (o : Nat) : Waits (s.coAsync o) := by
  have hnew := hi.untouched.absent
  constructor
  · grind [hw.op]
  · grind [hw.waiting]
  · exact hw.nodup
  · grind [hw.ready]

theorem Waits.setValue (hw : Waits s) {r : Nat} (hp : (s.frames r).point = .running) :
    Waits { s.goTo r .returning with
      futures := Function.update s.futures r { s.futures r with ready := true } } := by
  constructor
  · grind [hw.op]
  · grind [hw.waiting]
  · exact hw.nodup
  · grind [hw.ready, Function.update_apply]

/-- Whether the future is discarded makes no difference. -/
theorem Waits.discard (hw : Waits s) (r : Nat) : Waits { s with
    futures := Function.update s.futures r { s.futures r with discarded := true } } :=
  ⟨hw.op, hw.waiting, hw.nodup, by grind [hw.ready, Function.update_apply]⟩

theorem Waits.step (hi : Inv s) (hw : Waits s) (hm : Move s s' e) : Waits s' := by
  cases hm with
  | call hp hargs =>
    have hnew := hi.untouched.absent
    refine hw.keep (passAll_pending ..) (passAll_futures ..) ?_ ?_
    · rw [passAll_frames]
      grind
    · rw [passAll_frames]
      grind
  | move hp ho hidle hq => exact hw.keep rfl rfl (by grind) (by grind)
  | dropEmpty ho => exact hw.keep rfl rfl (by grind) (by grind)
  | @dropHandle o g ho hg hroot =>
    have hhandle := hi.handle o g ho
    exact hw.keep rfl rfl (by grind) (by grind)
  | @await f g o ho hplace hf hg =>
    have hkind := (hi.handle o g ho).1
    exact hw.keep rfl rfl (by grind) (by grind)
  | awaitOp hf => exact hw.awaitOp hf
  | complete hk => exact hw.complete hk
  | returnValue hf v =>
    obtain ⟨hkind, hp⟩ := hf
    exact hw.keep rfl rfl (by grind) (by grind)
  | finalSuspend hkind hp hc => exact hw.keep rfl rfl (by grind) (by grind)
  | @coAsync p o g hp ho hcoro hg => exact hw.coAsync hi o
  | setValue hkind hp => exact hw.setValue hp
  | returnVoid hkind hp => exact hw.keep rfl rfl (by grind) (by grind)
  | free hp hv => exact hw.keep rfl rfl (by grind) (by grind)
  | discard r => exact hw.discard r

end Preservation

end Coroutine
