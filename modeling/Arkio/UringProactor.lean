import Arkio.Proactor
import Arkio.UringStages

/-!
# The event loop is a proactor

Threads, mutexes, rings, the waker and the batch, seen from those who use them:
an owner asks, the kernel answers, and the owner's closure is called with that
answer. `Stands` is the slot of an owner in terms of where its closure and its
request are, and `Proactive` says it for all owners. Each step of the context is
one of the proactor or none: the submission of an owner, the completion of its
request and the invocation of its closure are, and nothing else.
-/
namespace UringContext

open Bindings LabelledMachine
open Proactor (Slot)

variable {θ ι ρ ω : Type}

/-- The requests of an owner that were queued, in order. -/
def asksOf [DecidableEq ι] (h : History (ι × ρ) (ι × ω)) (i : ι) : List ρ :=
  (asks h).filterMap fun p => if p.1 = i then some p.2 else none

section Owners

variable [DecidableEq ι] {h h' e : History (ι × ρ) (ι × ω)} {s s' : Tagged θ ι ρ ω} {i : ι}
  {slot : Slot ρ (Result Int)} {asked : List ρ}

@[simp] theorem asksOf_nil (i : ι) : asksOf ([] : History (ι × ρ) (ι × ω)) i = [] := rfl

@[simp] theorem asksOf_append (h h' : History (ι × ρ) (ι × ω)) (i : ι) :
    asksOf (h ++ h') i = asksOf h i ++ asksOf h' i := by
  simp [asksOf]

theorem asksOf_of_not_mem (he : ∀ y, (i, y) ∉ asks e) : asksOf (h ++ e) i = asksOf h i := by
  have hnone : asksOf e i = [] := by
    simp only [asksOf, List.filterMap_eq_nil_iff]
    rintro ⟨j, y⟩ hmem
    apply if_neg
    rintro rfl
    exact he y hmem
  rw [asksOf_append, hnone, List.append_nil]

/-- The slot of an owner, and what it has asked so far. A request that a thread is
just submitting is asked already, and not queued yet. -/
inductive Stands (h : History (ι × ρ) (ι × ω)) (s : Tagged θ ι ρ ω) (i : ι) :
    Slot ρ (Result Int) → List ρ → Prop where
  | idle {asked : List ρ} (hv : Vacant s i) (hasked : asked = asksOf h i) :
      Stands h s i .idle asked
  | preparing {asked : List ρ} (x : ω) (y : ρ) (l : Place θ)
      (hst : Stage s (i, x) (i, y) .preparing l) (hasked : asked = asksOf h i ++ [y]) :
      Stands h s i (.asked y) asked
  | queued {asked : List ρ} (x : ω) (y : ρ) (l : Place θ)
      (hst : Stage s (i, x) (i, y) .queued l) (hasked : asked = asksOf h i) :
      Stands h s i (.asked y) asked
  | completed {asked : List ρ} (x : ω) (y : ρ) (res : Int) (l : Place θ)
      (hst : Stage s (i, x) (i, y) (.completed res) l) (hasked : asked = asksOf h i) :
      Stands h s i (.answered y (toResult res)) asked

/-- A step that leaves the closure and the request of the owner where they are. -/
theorem Stands.frame (hs : Stands h s i slot asked) (hasks : asksOf h' i = asksOf h i)
    (hvacant : Vacant s i → Vacant s' i)
    (hstage : ∀ x y phase l, Stage s (i, x) (i, y) phase l →
      ∃ l', Stage s' (i, x) (i, y) phase l') : Stands h' s' i slot asked := by
  cases hs with
  | idle hv hasked => exact .idle (hvacant hv) (hasked.trans hasks.symm)
  | preparing x y l hst hasked =>
    obtain ⟨l', hst'⟩ := hstage _ _ _ _ hst
    exact .preparing x y l' hst' (by rw [hasked, hasks])
  | queued x y l hst hasked =>
    obtain ⟨l', hst'⟩ := hstage _ _ _ _ hst
    exact .queued x y l' hst' (hasked.trans hasks.symm)
  | completed x y res l hst hasked =>
    obtain ⟨l', hst'⟩ := hstage _ _ _ _ hst
    exact .completed x y res l' hst' (hasked.trans hasks.symm)

theorem Stands.vacant_iff (hs : Stands h s i slot asked) : slot = .idle ↔ Vacant s i := by
  cases hs with
  | idle hv => exact iff_of_true rfl hv
  | preparing x y l hst => exact iff_of_false nofun fun hv => hv l x hst.holds
  | queued x y l hst => exact iff_of_false nofun fun hv => hv l x hst.holds
  | completed x y res l hst => exact iff_of_false nofun fun hv => hv l x hst.holds

/-- The context stands where the proactor does. -/
structure Proactive (h : History (ι × ρ) (ι × ω)) (s : Tagged θ ι ρ ω)
    (slot : ι → Slot ρ (Result Int)) (asked : ι → List ρ) : Prop where
  routing : Routing h s
  tidy : Tidy s
  attends : Attends s
  paired : Paired s
  sole : ∀ i, Sole s i
  stands : ∀ i, Stands h s i (slot i) (asked i)

end Owners

section Steps

variable [DecidableEq θ] [DecidableEq ι] {h e : History (ι × ρ) (ι × ω)}
  {s s' : Tagged θ ι ρ ω} {i : ι} {slot : ι → Slot ρ (Result Int)} {asked : ι → List ρ}

omit [DecidableEq ι] in
theorem vacant_start (i : ι) : Vacant (start : Tagged θ ι ρ ω) i := by
  intro l x hl
  cases l with
  | call t => cases t <;> simp [Holds, start, Call.view] at hl
  | map tok => simp [Holds, start] at hl
  | batch tok => simp [Holds, start, LoopPc.pending] at hl

theorem proactive_start :
    Proactive ([] : History (ι × ρ) (ι × ω)) (start : Tagged θ ι ρ ω) (fun _ => .idle)
      (fun _ => []) where
  routing := routing_start
  tidy := tidy_start
  attends := attends_start
  paired := by
    refine ⟨?_, by simp [start]⟩
    intro t op cb ht
    cases t with
    | loop =>
      obtain ⟨rfl, rfl⟩ : op = .pollWaker ∧ cb = some .waker := ht
      trivial
    | user t => exact ht.elim
  sole := fun i => (vacant_start i).sole
  stands := fun i => .idle (vacant_start i) rfl

/-- A step of the context that is none of the proactor, for one owner. -/
theorem Proactive.stands_plain {a : Action θ (ι × ρ) (ι × ω)} (hi : Proactive h s slot asked)
    (hs : UringContext.step s a = some (s', e)) (hp : Plain s a) (i : ι) :
    Stands (h ++ e) s' i (slot i) (asked i) := by
  have hvacant : Vacant s i → Vacant s' i := (step_moves hs hp hi.tidy).vacant
  have hstep {x y phase l} (hst : Stage s (i, x) (i, y) phase l) :=
    Stage.step hst hs hp hi.tidy hi.routing (hi.sole i) hi.paired
  have hstands := hi.stands i
  revert hstands
  generalize slot i = sl, asked i = as
  intro hstands
  cases hstands with
  | idle hv hasked =>
    exact .idle (hvacant hv) (by rw [asksOf_of_not_mem (hv.asks hs hi.paired), hasked])
  | preparing x y l hst hasked =>
    rcases hstep hst with ⟨⟨l', hst'⟩, he⟩ | ⟨-, ⟨l', hst'⟩, he⟩
    · exact .preparing x y l' hst' (by rw [asksOf_of_not_mem he, hasked])
    · refine .queued x y l' hst' ?_
      rw [hasked, asksOf_append]
      simp [asksOf, he]
  | queued x y l hst hasked =>
    rcases hstep hst with ⟨⟨l', hst'⟩, he⟩ | ⟨hphase, -⟩
    · exact .queued x y l' hst' (by rw [asksOf_of_not_mem he, hasked])
    · cases hphase
  | completed x y res l hst hasked =>
    rcases hstep hst with ⟨⟨l', hst'⟩, he⟩ | ⟨hphase, -⟩
    · exact .completed x y res l' hst' (by rw [asksOf_of_not_mem he, hasked])
    · cases hphase

theorem Proactive.plain {a : Action θ (ι × ρ) (ι × ω)} (hi : Proactive h s slot asked)
    (hs : UringContext.step s a = some (s', e)) (hp : Plain s a) :
    Proactive (h ++ e) s' slot asked where
  routing := (step_change hs).routing hi.routing (step_locked hs hi.routing.locked)
  tidy := step_tidy hs hi.tidy
  attends := step_attends hs hi.attends
  paired := hi.paired.step hs hp hi.tidy hi.routing
  sole := fun i => (step_moves hs hp hi.tidy).sole (hi.sole i)
  stands := hi.stands_plain hs hp

omit [DecidableEq ι] in
/-- What a completion does. -/
theorem post_eq {n : Nat} {q : Sqe (ι × ρ)} {res : Int} (hq : s.inflight[n]? = some q)
    (hs : UringContext.step s (.post n res) = some (s', e)) :
    s' = { s with inflight := s.inflight.eraseIdx n, cq := s.cq ++ [⟨q.userData, res⟩] } ∧
      e = [.posted ⟨q.userData, res⟩] := by
  simpa [UringContext.step, postStep, hq, eq_comm] using hs

/-- The waker's poll completes. -/
theorem Proactive.polled (hi : Proactive h s slot asked) {n tok : Nat} {res : Int}
    (hq : s.inflight[n]? = some ⟨.pollWaker, tok⟩)
    (hs : UringContext.step s (.post n res) = some (s', e)) :
    Proactive (h ++ e) s' slot asked := by
  have hrouting := (step_change hs).routing hi.routing (step_locked hs hi.routing.locked)
  have htidy := step_tidy hs hi.tidy
  have hattends := step_attends hs hi.attends
  obtain ⟨rfl, rfl⟩ := post_eq hq hs
  refine ⟨hrouting, htidy, hattends, hi.paired.of_posted n _, hi.sole, fun i => ?_⟩
  refine (hi.stands i).frame (asksOf_of_not_mem (by simp [asks])) (fun hv => hv) ?_
  intro x y phase l hst
  exact ⟨l, hst.of_posted hq (by simp) res⟩

omit [DecidableEq θ] in
/-- An owner with a request outstanding has a closure. -/
theorem Proactive.not_vacant (hi : Proactive h s slot asked) {q : Sqe (ι × ρ)} {y : ρ}
    (hq : q ∈ s.sq ++ s.inflight) (hop : q.op = .user (i, y)) : ¬Vacant s i := by
  intro hv
  obtain ⟨x, hown⟩ := hi.paired.sqes q hq i y hop
  rcases hown with hmap | ⟨t, hview⟩
  · exact hv (.map q.userData) x hmap
  · exact hv (.call t) x (holds_of_view hview)

/-- The request of an owner completes: the owner has asked for it. -/
theorem Proactive.answered (hi : Proactive h s slot asked) {n tok : Nat} {y : ρ} {res : Int}
    (hq : s.inflight[n]? = some ⟨.user (i, y), tok⟩)
    (hs : UringContext.step s (.post n res) = some (s', e)) :
    slot i = .asked y ∧
      Proactive (h ++ e) s' (Function.update slot i (.answered y (toResult res))) asked := by
  have hrouting := (step_change hs).routing hi.routing (step_locked hs hi.routing.locked)
  have htidy := step_tidy hs hi.tidy
  have hattends := step_attends hs hi.attends
  obtain ⟨rfl, rfl⟩ := post_eq hq hs
  have hmem : ⟨.user (i, y), tok⟩ ∈ s.sq ++ s.inflight :=
    List.mem_append_right _ (List.mem_of_getElem? hq)
  have hasks (j : ι) : asksOf (h ++ [.posted ⟨tok, res⟩]) j = asksOf h j :=
    asksOf_of_not_mem (by simp [asks])
  have hown {x y' phase l} (hst : Stage s (i, x) (i, y') phase l) :=
    hst.own_posted hi.routing (hi.sole i) hi.paired hq rfl res
  have hself : slot i = .asked y ∧ Stands (h ++ [.posted ⟨tok, res⟩])
      { s with inflight := s.inflight.eraseIdx n, cq := s.cq ++ [⟨tok, res⟩] } i
      (.answered y (toResult res)) (asked i) := by
    have hstands := hi.stands i
    revert hstands
    generalize slot i = sl, asked i = as
    intro hstands
    cases hstands with
    | idle hv => exact absurd hv (hi.not_vacant hmem rfl)
    | preparing x y' l hst =>
      obtain ⟨-, hphase, -⟩ := hown hst
      cases hphase
    | completed x y' res' l hst =>
      obtain ⟨-, hphase, -⟩ := hown hst
      cases hphase
    | queued x y' l hst hasked =>
      obtain ⟨rfl, -, hst'⟩ := hown hst
      exact ⟨rfl, .completed x y res _ hst' (hasked.trans (hasks i).symm)⟩
  refine ⟨hself.1, hrouting, htidy, hattends, hi.paired.of_posted n _, hi.sole, fun j => ?_⟩
  by_cases hj : j = i
  · subst hj
    rw [Function.update_self]
    exact hself.2
  · rw [Function.update_of_ne hj]
    refine (hi.stands j).frame (hasks j) (fun hv => hv) ?_
    intro x y' phase l hst
    refine ⟨l, hst.of_posted hq ?_ res⟩
    simp only [ne_eq, Op.user.injEq, Prod.mk.injEq, not_and]
    exact fun heq => absurd heq.symm hj

omit [DecidableEq ι] in
/-- What it is to enter `add_sqe`. -/
theorem enter_eq {t : Thread θ} {y : ρ} {x : ω}
    (hs : UringContext.step s (.enter t (.addSqe (i, y) (some (i, x)))) = some (s', e)) :
    s.call t = .idle ∧ s' = s.setCall t (submission i x y) ∧ e = [] := by
  simp only [UringContext.step, enterStep, Option.ite_none_right_eq_some, Bool.and_eq_true,
    Option.some.injEq, Prod.mk.injEq] at hs
  exact ⟨Call.isIdle_iff.mp hs.1.1, hs.2.1.symm, hs.2.2.symm⟩

/-- An owner with nothing outstanding asks. -/
theorem Proactive.entered (hi : Proactive h s slot asked) (hslot : slot i = .idle)
    {t : Thread θ} {y : ρ} {x : ω}
    (hs : UringContext.step s (.enter t (.addSqe (i, y) (some (i, x)))) = some (s', e)) :
    Proactive (h ++ e) s' (Function.update slot i (.asked y))
      (Function.update asked i (asked i ++ [y])) := by
  have hrouting := (step_change hs).routing hi.routing (step_locked hs hi.routing.locked)
  have htidy := step_tidy hs hi.tidy
  have hattends := step_attends hs hi.attends
  obtain ⟨hidle, rfl, rfl⟩ := enter_eq hs
  have hvacant : Vacant s i := (hi.stands i).vacant_iff.mp hslot
  refine ⟨hrouting, htidy, hattends, hi.paired.of_enter hidle i x y,
    fun j => (hi.sole j).of_enter fun _ => hvacant, fun j => ?_⟩
  by_cases hj : j = i
  · subst hj
    rw [Function.update_self, Function.update_self]
    refine .preparing x y (.call t) (.enter t j x y) ?_
    have hstands := hi.stands j
    rw [hslot] at hstands
    cases hstands with
    | idle hv hasked => rw [hasked, List.append_nil]
  · rw [Function.update_of_ne hj, Function.update_of_ne hj]
    refine (hi.stands j).frame (by simp) (fun hv => hv.of_enter hj) ?_
    intro x' y' phase l hst
    exact ⟨l, hst.of_enter hidle _⟩

omit [DecidableEq ι] in
/-- What the invocation of a closure is. -/
theorem dispatch_eq {tok : Nat} {x : ω} {ret : Result Int} {rest : List (Ready (ι × ω))}
    (hpc : s.loop = .dispatch (⟨tok, .user (i, x), ret⟩ :: rest)) {ans : Answer}
    (hs : UringContext.step s (.loop ans) = some (s', e)) :
    s' = { s with loop := .callback rest } ∧ e = [.invoked ⟨tok, .user (i, x), ret⟩] := by
  simpa [UringContext.step, loopStep, invokeStep, hpc, eq_comm] using hs

/-- The closure of an owner is invoked: with the answer to what the owner has asked. -/
theorem Proactive.dispatched (hi : Proactive h s slot asked) {tok : Nat} {x : ω}
    {ret : Result Int} {rest : List (Ready (ι × ω))}
    (hpc : s.loop = .dispatch (⟨tok, .user (i, x), ret⟩ :: rest)) {ans : Answer}
    (hs : UringContext.step s (.loop ans) = some (s', e)) :
    (∃ y, slot i = .answered y ret) ∧
      Proactive (h ++ e) s' (Function.update slot i .idle) asked := by
  have hrouting := (step_change hs).routing hi.routing (step_locked hs hi.routing.locked)
  have htidy := step_tidy hs hi.tidy
  have hattends := step_attends hs hi.attends
  obtain ⟨rfl, rfl⟩ := dispatch_eq hpc hs
  have hasks (j : ι) : asksOf (h ++ [.invoked ⟨tok, .user (i, x), ret⟩]) j = asksOf h j :=
    asksOf_of_not_mem (by simp [asks])
  have hhead {x' y phase l} (hst : Stage s (i, x') (i, y) phase l) :=
    hst.of_head hi.routing (hi.sole i) hpc
  have hself : (∃ y, slot i = .answered y ret) ∧ asked i = asksOf h i := by
    have hstands := hi.stands i
    revert hstands
    generalize slot i = sl, asked i = as
    intro hstands
    cases hstands with
    | idle hv =>
      exact absurd ⟨ret, by rw [hpc]; exact List.mem_cons_self⟩ (hv (.batch tok) x)
    | preparing x' y l hst =>
      obtain ⟨-, res, hphase, -⟩ := hhead hst
      cases hphase
    | queued x' y l hst =>
      obtain ⟨-, res, hphase, -⟩ := hhead hst
      cases hphase
    | completed x' y res l hst hasked =>
      obtain ⟨-, res', hphase, rfl⟩ := hhead hst
      cases hphase
      exact ⟨⟨y, rfl⟩, hasked⟩
  refine ⟨hself.1, hrouting, htidy, hattends, hi.paired.of_dispatch _,
    fun j => (moves_dispatch hpc).sole (hi.sole j), fun j => ?_⟩
  by_cases hj : j = i
  · subst hj
    rw [Function.update_self]
    exact .idle (vacant_dispatch hi.routing (hi.sole j) hpc) (hself.2.trans (hasks j).symm)
  · rw [Function.update_of_ne hj]
    refine (hi.stands j).frame (hasks j) (moves_dispatch hpc).vacant ?_
    intro x' y phase l hst
    refine ⟨l, hst.of_dispatch hpc ?_⟩
    simp only [ne_eq, Callback.user.injEq, Prod.mk.injEq, not_and]
    exact fun heq => absurd heq.symm hj

end Steps

section Observed

variable [DecidableEq θ]

/-- What the owners and the kernel see of a step. -/
def observe (s : Tagged θ ι ρ ω) :
    Action θ (ι × ρ) (ι × ω) → List (Proactor.Event ι ρ (Result Int))
  | .enter _ (.addSqe (i, y) _) => [.asked i y]
  | .post n res =>
    match s.inflight[n]? with
    | some ⟨.user (i, _), _⟩ => [.answered i (toResult res)]
    | _ => []
  | .loop _ =>
    match s.loop with
    | .dispatch (⟨_, .user (i, _), ret⟩ :: _) => [.delivered i ret]
    | _ => []
  | _ => []

/-- The context, with what is seen of it as its history. -/
def observedStep (s : Tagged θ ι ρ ω) (a : Action θ (ι × ρ) (ι × ω)) :
    Option (Tagged θ ι ρ ω × List (Proactor.Event ι ρ (Result Int))) :=
  (step s a).map fun r => (r.1, observe s a)

/-- Owners submit with a closure of their own, and the submissions succeed. Nobody
cancels. -/
def Serviceable (s : Tagged θ ι ρ ω) : Action θ (ι × ρ) (ι × ω) → Prop
  | .enter _ (.addSqe (i, _) cb) => ∃ x, cb = some (i, x)
  | .enter _ (.cancel _) => False
  | .call t ans => (s.call t).Succeeds s.sq.length ans
  | _ => True

theorem observedStep_eq_some {s s' : Tagged θ ι ρ ω} {a : Action θ (ι × ρ) (ι × ω)}
    {e : List (Proactor.Event ι ρ (Result Int))} (hs : observedStep s a = some (s', e)) :
    (∃ e', step s a = some (s', e')) ∧ e = observe s a := by
  obtain ⟨⟨s₁, e₁⟩, hstep, heq⟩ := Option.map_eq_some_iff.mp hs
  obtain ⟨rfl, rfl⟩ := Prod.mk.inj heq
  exact ⟨⟨e₁, hstep⟩, rfl⟩

variable [DecidableEq ι] {m e : List (Proactor.Event ι ρ (Result Int))} {s s' : Tagged θ ι ρ ω}

/-- The context has done what a proactor did that has come to these slots. -/
def Matched (m : List (Proactor.Event ι ρ (Result Int))) (s : Tagged θ ι ρ ω)
    (slot : ι → Slot ρ (Result Int)) : Prop :=
  Proactor.Accepts m slot ∧ ∃ h, Proactive h s slot (Proactor.requests m)

theorem Matched.plain {slot : ι → Slot ρ (Result Int)} {a : Action θ (ι × ρ) (ι × ω)}
    (hm : Matched m s slot) (hp : Plain s a) (he : observe s a = [])
    (hs : observedStep s a = some (s', e)) : Matched (m ++ e) s' slot := by
  obtain ⟨⟨e', hstep⟩, rfl⟩ := observedStep_eq_some hs
  obtain ⟨ha, h, hi⟩ := hm
  rw [he, List.append_nil]
  exact ⟨ha, h ++ e', hi.plain hstep hp⟩

/-- Each step of the context is one of the proactor, or none. -/
theorem Matched.step {slot : ι → Slot ρ (Result Int)} {a : Action θ (ι × ρ) (ι × ω)}
    (hm : Matched m s slot) (hok : Serviceable s a) (hpatient : Proactor.Patient (m ++ e))
    (hs : observedStep s a = some (s', e)) : ∃ slot', Matched (m ++ e) s' slot' := by
  have hplain (hp : Plain s a) (he : observe s a = []) :
      ∃ slot', Matched (m ++ e) s' slot' := ⟨slot, hm.plain hp he hs⟩
  obtain ⟨⟨e', hstep⟩, rfl⟩ := observedStep_eq_some hs
  obtain ⟨ha, h, hi⟩ := hm
  cases a with
  | enter t entry =>
    cases entry with
    | addSqe p cb =>
      obtain ⟨i, y⟩ := p
      obtain ⟨x, rfl⟩ := hok
      have howes : Proactor.owes m i = false :=
        ((justified_append_singleton _ _ _).mp hpatient).2
      have hidle : slot i = .idle := by
        by_contra hne
        rw [(ha.owes_iff i).mpr hne] at howes
        cases howes
      have he : observe s (.enter t (.addSqe (i, y) (some (i, x)))) = [.asked i y] := rfl
      refine ⟨Function.update slot i (.asked y), he ▸ ha.asked y hidle, h ++ e', ?_⟩
      rw [he, Proactor.requests_append_asked]
      exact hi.entered hidle hstep
    | cancel tok => exact hok.elim
    | wake ans => exact hplain trivial rfl
    | exit err => exact hplain trivial rfl
  | call t ans => exact hplain hok rfl
  | finish t => exact hplain trivial rfl
  | post n res =>
    cases hq : s.inflight[n]? with
    | none => simp [UringContext.step, postStep, hq] at hstep
    | some q =>
      obtain ⟨op, tok⟩ := q
      cases op with
      | pollWaker =>
        have he : observe s (.post n res : Action θ (ι × ρ) (ι × ω)) = [] := by
          simp [observe, hq]
        rw [he, List.append_nil]
        exact ⟨slot, ha, h ++ e', hi.polled hq hstep⟩
      | user p =>
        obtain ⟨i, y⟩ := p
        have he : observe s (.post n res : Action θ (ι × ρ) (ι × ω)) =
            [.answered i (toResult res)] := by
          simp [observe, hq]
        obtain ⟨hslot, hi'⟩ := hi.answered hq hstep
        refine ⟨_, he ▸ ha.answered (toResult res) hslot, h ++ e', ?_⟩
        rw [he, Proactor.requests_append_answered]
        exact hi'
  | loop ans =>
    by_cases huser : ∃ tok i x ret rest, s.loop = .dispatch (⟨tok, .user (i, x), ret⟩ :: rest)
    · obtain ⟨tok, i, x, ret, rest, hpc⟩ := huser
      have he : observe s (.loop ans : Action θ (ι × ρ) (ι × ω)) = [.delivered i ret] := by
        simp [observe, hpc]
      obtain ⟨⟨y, hslot⟩, hi'⟩ := hi.dispatched hpc hstep
      refine ⟨_, he ▸ ha.delivered hslot, h ++ e', ?_⟩
      rw [he, Proactor.requests_append_delivered]
      exact hi'
    · refine hplain ?_ ?_
      · rintro ⟨tok, cb, ret⟩ rest ⟨i, x⟩ hpc rfl
        exact huser ⟨tok, i, x, ret, rest, hpc⟩
      · simp only [observe]
        split
        next tok i x ret rest hpc => exact absurd ⟨tok, i, x, ret, rest, hpc⟩ huser
        next => rfl

theorem matched_start :
    Matched ([] : List (Proactor.Event ι ρ (Result Int))) (start : Tagged θ ι ρ ω) fun _ => .idle :=
  ⟨.nil, [], proactive_start⟩

theorem Matched.of_run (hrun : Run observedStep Serviceable (start : Tagged θ ι ρ ω) m s)
    (hpatient : Proactor.Patient m) : ∃ slot, Matched m s slot := by
  revert hpatient
  refine hrun.invariant (P := fun m s => Proactor.Patient m → ∃ slot, Matched m s slot)
    (fun _ => ⟨_, matched_start⟩) ?_
  intro m s a s' e ih hok hs hpatient
  obtain ⟨slot, hm⟩ := ih (Justified.of_append hpatient)
  exact hm.step hok hpatient hs

/-- Where the closure of an owner and its request are, by what the owner has
outstanding. -/
inductive Located (s : Tagged θ ι ρ ω) (i : ι) : Slot ρ (Result Int) → Prop where
  | idle (hv : Vacant s i) : Located s i .idle
  | asked {y : ρ} (x : ω) (phase : Phase) (l : Place θ) (hst : Stage s (i, x) (i, y) phase l)
      (hphase : phase = .preparing ∨ phase = .queued) : Located s i (.asked y)
  | answered {y : ρ} (x : ω) (res : Int) (l : Place θ)
      (hst : Stage s (i, x) (i, y) (.completed res) l) : Located s i (.answered y (toResult res))

omit [DecidableEq θ] in
theorem Stands.located {h : History (ι × ρ) (ι × ω)} {i : ι} {slot : Slot ρ (Result Int)}
    {asked : List ρ} (hs : Stands h s i slot asked) : Located s i slot := by
  cases hs with
  | idle hv => exact .idle hv
  | preparing x y l hst => exact .asked x .preparing l hst (.inl rfl)
  | queued x y l hst => exact .asked x .queued l hst (.inr rfl)
  | completed x y res l hst => exact .answered x res l hst

end Observed

section Example

instance {π κ : Type} (c : Call π κ) (n : Nat) : DecidablePred (c.Succeeds n) := fun ans =>
  match c with
  | .getSqe _ (some (.user _)) => inferInstanceAs (Decidable (n < batchSize))
  | .wake _ (some (.user _)) => inferInstanceAs (Decidable (ans = .ok))
  | .getSqe _ none | .getSqe _ (some .waker) | .wake _ none | .wake _ (some .waker) | .idle
  | .lockSubmission _ _ | .lockCallbacks _ _ | .insert _ _ | .cancel _ _ _ | .exitWake
  | .returned _ => isTrue trivial

instance [DecidableEq ι] (s : Tagged θ ι ρ Unit) : DecidablePred (Serviceable s) := fun a =>
  match a with
  | .enter _ (.addSqe (i, _) cb) =>
    decidable_of_iff (cb = some (i, ())) ⟨fun h => ⟨(), h⟩, fun ⟨_, h⟩ => h⟩
  | .enter _ (.cancel _) => isFalse id
  | .call t ans => inferInstanceAs (Decidable ((s.call t).Succeeds s.sq.length ans))
  | .enter _ (.wake _) | .enter _ (.exit _) | .finish _ | .loop _ | .post _ _ => isTrue trivial

/-- Two owners ask from a thread. The second is answered first, and asks again from
inside its closure. -/
theorem exists_asks_again :
    ∃ (m : List (Proactor.Event Bool Nat (Result Int))) (s : Tagged Unit Bool Nat Unit),
      Run observedStep Serviceable start m s ∧
        (Proactor.Patient m ∧ Proactor.requests m false = [1] ∧
          Proactor.requests m true = [2, 3]) := by
  apply exists_run_of_exec
    [.call .loop .ok, .call .loop .ok, .call .loop .ok, .call .loop .ok, .call .loop .ok,
      .loop .ok, .enter (.user ()) (.addSqe (false, 1) (some (false, ()))),
      .call (.user ()) .ok, .call (.user ()) .ok, .call (.user ()) .ok, .call (.user ()) .ok,
      .call (.user ()) .ok, .finish (.user ()),
      .enter (.user ()) (.addSqe (true, 2) (some (true, ()))), .call (.user ()) .ok,
      .call (.user ()) .ok, .call (.user ()) .ok, .call (.user ()) .ok, .call (.user ()) .ok,
      .finish (.user ()), .loop .ok, .loop .ok, .loop (.submitted 3), .post 2 7, .post 1 (-4),
      .loop .ok, .loop .ok, .loop .ok, .loop .ok, .loop .ok, .loop .ok, .loop .ok,
      .enter .loop (.addSqe (true, 3) (some (true, ()))), .call .loop .ok, .call .loop .ok,
      .call .loop .ok, .call .loop .ok, .call .loop .ok, .finish .loop, .loop .ok, .loop .ok]
  decide +kernel

end Example

end UringContext
