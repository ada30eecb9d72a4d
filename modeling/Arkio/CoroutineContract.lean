import Mathlib.Data.Finset.Card
import Mathlib.Data.Finset.Range
import Arkio.CoroutineLives

/-!
# The discipline of coroutine frames

Frames form forests: each hangs from the coroutine that awaits it or that has
its `task` object, and what is at the end is a root, an object outside of all
coroutines, or a frame that is being destroyed. Where none of these is left, all
frames have come to the end of their lives.
-/
namespace Coroutine

open LabelledMachine Ranks Relation

variable {υ : Type}

/-- The whole life of a frame. -/
def Kind.Life (f : Nat) (l : History) : Kind → Prop
  | .root _ => l = rootLife f
  | .task => l = droppedLife f ∨ ∃ c, l = awaitedLife f c

theorem course_life (fr : Frame υ) (f : Nat) : fr.kind.Life f (fr.course f) := by
  cases hk : fr.kind with
  | root t => simp [Kind.Life, Frame.course, hk]
  | task =>
    cases hlink : fr.promise.continuation with
    | none => simp [Kind.Life, Frame.course, hk, hlink]
    | some c => simp [Kind.Life, Frame.course, hk, hlink]

theorem past_destroyed {fr : Frame υ} (hp : fr.point = .destroyed) (f : Nat) :
    fr.past f = fr.course f := by
  refine List.take_of_length_le ?_
  cases hk : fr.kind with
  | root t => simp [Frame.course, Frame.age, hk, hp, rootLife]
  | task =>
    cases hlink : fr.promise.continuation <;>
      simp [Frame.course, Frame.age, hk, hp, hlink, droppedLife, awaitedLife]

section Anchors

variable {s : State υ}

def State.Alive (s : State υ) (f : Nat) : Prop :=
  (s.frames f).point ≠ .absent ∧ (s.frames f).point ≠ .destroyed

/-- What keeps frames alive by itself. -/
def State.Anchor (s : State υ) (f : Nat) : Prop :=
  (s.frames f).kind ≠ .task ∨ (s.frames f).point = .destroying ∨
    ∃ o, (s.tasks o).coro = some f ∧ (s.tasks o).place = .outside

/-- Every frame that is alive hangs from an anchor. -/
theorem Inv.anchored (hi : Inv s) {f : Nat} (hf : s.Alive f) :
    ∃ a, ReflTransGen s.Holds a f ∧ s.Alive a ∧ s.Anchor a := by
  refine hi.ranked.exists_source (P := s.Alive) (Q := s.Anchor) ?_ hf
  rintro x ⟨hp, hp'⟩
  by_cases hanchor : s.Anchor x
  · exact .inl hanchor
  · simp only [State.Anchor, not_or, not_exists, not_and, not_not] at hanchor
    obtain ⟨hkind, hpoint, hout⟩ := hanchor
    obtain ⟨o, ho⟩ := hi.owned x hkind hp hpoint hp'
    cases hplace : (s.tasks o).place with
    | nowhere => exact absurd hplace (hi.placed o x ho)
    | outside => exact absurd hplace (hout o ho)
    | frame y => exact .inr ⟨y, hi.housed o y (by simp [ho]) hplace, .inr ⟨o, ho, hplace⟩⟩

/-- Nothing keeps a frame alive: the roots are gone, there are no tasks outside,
and nothing is being destroyed. -/
def State.Quiet (s : State υ) : Prop := ∀ f, s.Alive f → ¬s.Anchor f

end Anchors

section Destruction

variable {s : State υ} {h : History}

/-- The objects that have a handle, and the frames that are not destroyed. -/
def State.remaining (s : State υ) : Nat :=
  ((Finset.range s.nextTask).filter fun o => (s.tasks o).coro ≠ none).card +
    ((Finset.range s.nextFrame).filter fun f => (s.frames f).point ≠ .destroyed).card

/-- A frame that is being destroyed is freed, or one of its tasks is dropped. -/
theorem Reached.destroy_step (hr : Reached h s) {f : Nat}
    (hf : (s.frames f).point = .destroying) : ∃ a s' e, Disciplined s a ∧
      step s a = some (s', e) ∧ s'.remaining < s.remaining ∧
      ∀ g, (s.frames g).point = .destroying ∨ (s.frames g).point = .destroyed →
        (s'.frames g).point = .destroying ∨ (s'.frames g).point = .destroyed := by
  by_cases hv : s.Vacated f
  · refine ⟨.free f, _, _, trivial, if_pos ⟨hf, hv⟩, ?_, ?_⟩
    · have hlt : f < s.nextFrame := by
        have := hr.inv.absent f
        simp [hf] at this
        omega
      refine Nat.add_lt_add_left (Finset.card_lt_card ⟨?_, ?_⟩) _
      · intro g
        simp only [Finset.mem_filter, Finset.mem_range]
        grind
      · intro hsub
        have := @hsub f (by simp [hlt, hf])
        simp at this
    · grind
  · simp only [State.Vacated, not_forall] at hv
    obtain ⟨o, hlt, hplace, hcoro⟩ := hv
    obtain ⟨g, hg⟩ := Option.ne_none_iff_exists'.mp hcoro
    have hidle : ¬(s.frames g).point.InProgress := fun hp => by
      have := hr.inv.lent o g f hg hp hplace
      simp [hf] at this
    have hpoint : (s.frames g).point = .initial ∨ (s.frames g).point = .final := by
      have := (hr.inv.handle o g hg).2
      tauto
    have hdrops : s.Drops (.frame f) := .inr hf
    refine ⟨.drop (.frame f) o, _, _, ?_, (if_pos ⟨hdrops, hplace⟩).trans
      (congrArg some (dropTask_eq hg hpoint)), ?_, ?_⟩
    · intro hout
      simp [hplace] at hout
    · refine Nat.add_lt_add_of_lt_of_le (Finset.card_lt_card ⟨?_, ?_⟩) (Finset.card_le_card ?_)
      · intro o'
        simp only [Finset.mem_filter, Finset.mem_range]
        grind
      · intro hsub
        have := @hsub o (by simp [hlt, hg])
        simp at this
      · intro g'
        simp only [Finset.mem_filter, Finset.mem_range]
        grind
    · grind

/-- Destruction comes to an end, by drops and frees alone. -/
theorem Reached.destroy (hr : Reached h s) : ∃ h' s', Run step Disciplined s h' s' ∧
    ∀ f, (s.frames f).point = .destroying ∨ (s.frames f).point = .destroyed →
      (s'.frames f).point = .destroyed := by
  induction hn : s.remaining using Nat.strongRecOn generalizing s h with
  | ind n ih =>
    by_cases hany : ∃ f, (s.frames f).point = .destroying
    · obtain ⟨f, hf⟩ := hany
      obtain ⟨a, s₁, e, hok, hs, hlt, hkeep⟩ := hr.destroy_step hf
      have hrun₁ : Run step Disciplined s e s₁ := .single hok hs
      obtain ⟨h', s', hrun, hdone⟩ := ih s₁.remaining (hn ▸ hlt) (hr.next hok hs) rfl
      exact ⟨e ++ h', s', hrun₁.trans hrun, fun g hg => hdone g (hkeep g hg)⟩
    · refine ⟨[], s, .start, fun f hf => ?_⟩
      exact hf.resolve_left fun hp => hany ⟨f, hp⟩

end Destruction

section Contract

variable {s : State υ} {h : History}

theorem count_of {e : Event} {f : Nat} (he : e.about = some f) (h : History) :
    (History.of h f).count e = h.count e :=
  List.count_filter (by simp [he])

/-- The promise of a root is set when its coroutine leaves the body. -/
theorem Reached.count_settled (hr : Reached h s) {r t : Nat} (hk : (s.frames r).kind = .root t) :
    h.count (.settled r) = (s.futures r).ready.toNat := by
  have hready := hr.waits.ready r t hk
  have hroot := (hr.inv.sound r).root t hk
  rw [← count_of (f := r) rfl, hr.past r]
  cases hb : (s.futures r).ready <;> cases hp : (s.frames r).point <;>
    simp_all [Frame.past, Frame.course, Frame.age, rootLife]

/-- The contract of tasks and of the roots of `co_async`, in every order of calls,
moves, drops, awaits and completions, whichever futures are discarded.

Nothing that is undefined happens: what is resumed or destroyed is suspended,
what is read is there. Each frame leads a life. If `c` awaited it, its result is
constructed once, control is transferred to `c`, and the result is read and
destroyed before the frame is, once each. A task that no object has any more is
destroyed or about to be, and destruction comes to an end. The future of a root
is set once, before its frame is destroyed. Where nothing is left that keeps
frames alive, all of them are destroyed. -/
theorem frames_keep_discipline (hrun : Run step Disciplined start h s) :
    (∀ x, .fault x ∉ h) ∧
    (∀ f, ∃ l, (s.frames f).kind.Life f l ∧ History.of h f <+: l ∧
      ((s.frames f).point = .destroyed → History.of h f = l)) ∧
    (∀ f < s.nextFrame, (s.frames f).kind = .task → (∀ o, (s.tasks o).coro ≠ some f) →
      (s.frames f).point = .destroying ∨ (s.frames f).point = .destroyed) ∧
    (∀ r t, (s.frames r).kind = .root t →
      h.count (.settled r) = (s.futures r).ready.toNat ∧
      ((s.frames r).point = .destroying ∨ (s.frames r).point = .destroyed →
        (s.futures r).ready = true)) ∧
    (∃ h' s', Run step Disciplined s h' s' ∧
      ∀ f, (s.frames f).point = .destroying ∨ (s.frames f).point = .destroyed →
        (s'.frames f).point = .destroyed) ∧
    (s.Quiet → ∀ f < s.nextFrame, (s.frames f).point = .destroyed) := by
  have hr := Reached.of_run hrun
  refine ⟨hr.no_fault, ?_, ?_, ?_, hr.destroy, ?_⟩
  · intro f
    refine ⟨(s.frames f).course f, course_life _ f, ?_, ?_⟩
    · rw [hr.past f]
      exact List.take_prefix ..
    · intro hp
      rw [hr.past f, past_destroyed hp]
  · intro f hf hkind hnone
    by_contra hnot
    obtain ⟨hp, hp'⟩ := not_or.mp hnot
    have habsent : (s.frames f).point ≠ .absent := fun ha =>
      absurd ((hr.inv.absent f).mp ha) (Nat.not_le.mpr hf)
    obtain ⟨o, ho⟩ := hr.inv.owned f hkind habsent hp hp'
    exact hnone o ho
  · intro r t hk
    refine ⟨hr.count_settled hk, fun hp => ?_⟩
    exact (hr.waits.ready r t hk).mpr (.inr hp)
  · intro hquiet f hf
    by_contra hp
    have habsent : (s.frames f).point ≠ .absent := fun ha =>
      absurd ((hr.inv.absent f).mp ha) (Nat.not_le.mpr hf)
    obtain ⟨a, -, ha, hanchor⟩ := hr.inv.anchored ⟨habsent, hp⟩
    exact hquiet a ha hanchor

/-- A root awaits a task that awaits another one, which was moved into it and
waits for an operation. A third task is dropped, the future is discarded. -/
def session : List (Action Nat) :=
  [.call .outside [], .move .outside 0 .outside, .call .outside [1], .call .outside [],
    .drop .outside 4, .free 2, .coAsync .outside 2, .await 3 5, .await 1 3, .discard 3, .awaitOp 0,
    .complete 0, .returnValue 0 7, .finalSuspend 0, .returnValue 1 8, .finalSuspend 1, .setValue 3,
    .returnVoid 3, .drop (.frame 3) 5, .drop (.frame 1) 3, .free 0, .free 1, .free 3]

theorem frames_keep_discipline_session : ∃ (h : History) (s : State Nat),
    Run step Disciplined start h s ∧ History.of h 0 = awaitedLife 0 1 ∧
      History.of h 1 = awaitedLife 1 3 ∧ History.of h 2 = droppedLife 2 ∧
      History.of h 3 = rootLife 3 ∧ (∀ x, .fault x ∉ h) ∧
      h.count (.settled 3) = (s.futures 3).ready.toNat := by
  obtain ⟨h, s, hrun, hk, h₀, h₁, h₂, h₃⟩ : ∃ (h : History) (s : State Nat),
      Run step Disciplined start h s ∧ ((s.frames 3).kind = .root 5 ∧
        History.of h 0 = awaitedLife 0 1 ∧ History.of h 1 = awaitedLife 1 3 ∧
        History.of h 2 = droppedLife 2 ∧ History.of h 3 = rootLife 3) :=
    exists_run_of_exec session (by decide)
  have hd := frames_keep_discipline hrun
  exact ⟨h, s, hrun, h₀, h₁, h₂, h₃, hd.1, (hd.2.2.2.1 3 5 hk).1⟩

end Contract

end Coroutine
