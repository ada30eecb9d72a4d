import Mathlib.Data.Finset.Card
import Arkio.UringRounds

/-!
# Closures get called

From every state of a healthy context in which `run` is under way and nobody has
called `exit`, all closures that are registered can be called without another call
into the context: the loop submits the SQEs, the kernel completes the requests, and
each round collects the oldest CQEs. Coming round needs room for the waker's poll.
-/
namespace UringContext

open Bindings LabelledMachine

variable {θ π κ : Type} [DecidableEq θ]

/-- The kernel completes the callers' requests as well. -/
def Works (s : State θ π κ) (a : Action θ π κ) : Prop :=
  Serves s a ∨ ∃ i res q, a = .post i res ∧ s.inflight[i]? = some q ∧ q.op ≠ .pollWaker

/-- The call still asks for an SQE of a caller. -/
def Call.Asks : Call π κ → Prop
  | .lockSubmission (.user _) _ => True
  | .lockCallbacks (.user _) _ => True
  | .getSqe (.user _) _ => True
  | _ => False

/-- The callers' part of a list of SQEs. -/
def requests (qs : List (Sqe π)) : List (Sqe π) :=
  qs.filter fun q => match q.op with | .pollWaker => false | .user _ => true

/-- The callers' SQEs, with those they still ask for, leave an entry of the ring. -/
def Roomy (s : State θ π κ) : Prop :=
  ∃ T : Finset (Thread θ), (∀ t ∉ T, ¬(s.call t).Asks) ∧
    (requests s.sq).length + T.card < batchSize

section Steps

variable {s s' : State θ π κ} {t : Thread θ} {e h h' : History π κ} {a : Action θ π κ}

/-- The loop's steps leave the calls as they are, or begin or end one of its own. -/
theorem loopStep_call {ans : Answer} (hs : loopStep s ans = some (s', e)) :
    s'.call = s.call ∨ ∃ c, s'.call = Function.update s.call .loop c ∧
      (c = .idle ∨ c = .exitWake ∨ c = .lockSubmission .pollWaker (some .waker)) := by
  simp only [loopStep, checkStep, collectStep, invokeStep] at hs
  repeat' split at hs
  all_goals cases hs
  all_goals first
    | exact .inl rfl
    | exact .inr ⟨_, rfl, .inl rfl⟩
    | exact .inr ⟨_, rfl, .inr (.inl rfl)⟩
    | exact .inr ⟨_, rfl, .inr (.inr rfl)⟩

/-- What the steps of a call do not bring about, and what does not hold of the loop's
own calls, is not brought about at all. -/
theorem serves_call {P : Call π κ → Prop} (hidle : ¬P .idle) (hexit : ¬P .exitWake)
    (harm : ¬P (.lockSubmission .pollWaker (some .waker)))
    (hcall : ∀ t, callStep s t .ok = some (s', e) → P (s'.call t) → P (s.call t))
    (ha : Serves s a) (hs : step s a = some (s', e)) (hP : P (s'.call t)) : P (s.call t) := by
  cases a with
  | enter t' entry => exact ha.elim
  | call t' ans =>
    obtain rfl : ans = .ok := ha
    by_cases ht : t = t'
    · subst ht
      exact hcall t hs hP
    · have hother := (callStep_counter (show callStep s t' .ok = some (s', e) from hs)).2.2
      rwa [hother t ht] at hP
  | finish t' =>
    simp only [step, finishStep] at hs
    repeat' split at hs
    all_goals cases hs
    by_cases ht : t = t'
    · rw [ht, State.setCall_call, Function.update_self] at hP
      exact absurd hP hidle
    · rwa [State.setCall_call, Function.update_of_ne ht] at hP
  | loop ans =>
    rcases loopStep_call hs with hsame | ⟨c, hsame, hc⟩
    · rwa [hsame] at hP
    · rw [hsame] at hP
      by_cases ht : t = .loop
      · subst ht
        rw [Function.update_self] at hP
        rcases hc with rfl | rfl | rfl
        · exact absurd hP hidle
        · exact absurd hP hexit
        · exact absurd hP harm
      · rwa [Function.update_of_ne ht] at hP
  | post i res =>
    simp only [step, postStep] at hs
    split at hs <;> cases hs
    exact hP

theorem callStep_asks (hs : callStep s t .ok = some (s', e)) (hasks : (s'.call t).Asks) :
    (s.call t).Asks := by
  unfold callStep at hs
  cases hc : s.call t with
  | lockSubmission op cb =>
    simp only [hc] at hs
    split at hs <;> cases hs
    cases op <;> cases cb <;> simp_all [Call.Asks]
  | lockCallbacks op cb =>
    simp only [hc] at hs
    split at hs <;> cases hs
    cases op <;> simp_all [Call.Asks]
  | _ =>
    simp only [hc] at hs
    repeat' split at hs
    all_goals cases hs
    all_goals simp [Call.Asks] at hasks

theorem serves_asks (ha : Serves s a) (hs : step s a = some (s', e)) (hasks : (s'.call t).Asks) :
    (s.call t).Asks :=
  serves_call (P := Call.Asks) id id id (fun _ => callStep_asks) ha hs hasks

theorem callStep_cancels (hs : callStep s t .ok = some (s', e)) : ¬(s'.call t).Cancels := by
  rintro ⟨tok, cb, err, hc⟩
  unfold callStep at hs
  repeat' split at hs
  all_goals cases hs
  all_goals simp at hc
  next hfailed => cases hfailed

/-- Where no submission has failed, none is taken back. -/
theorem serves_uncancelled (hno : ∀ t, ¬(s.call t).Cancels) (ha : Serves s a)
    (hs : step s a = some (s', e)) :
    (∀ t, ¬(s'.call t).Cancels) ∧ ∀ tok, .cancelled tok ∉ e := by
  constructor
  · intro t hcancels
    refine hno t (serves_call (P := Call.Cancels) ?_ ?_ ?_ ?_ ha hs hcancels)
    · rintro ⟨_, _, _, hc⟩
      cases hc
    · rintro ⟨_, _, _, hc⟩
      cases hc
    · rintro ⟨_, _, _, hc⟩
      cases hc
    · exact fun t hs' hc => absurd hc (callStep_cancels hs')
  · intro tok hmem
    cases a with
    | enter t entry => exact ha.elim
    | call t ans =>
      simp only [step, callStep] at hs
      repeat' split at hs
      all_goals cases hs
      all_goals simp at hmem
      next hc _ => exact hno t ⟨_, _, _, hc⟩
    | finish t =>
      simp only [step, finishStep] at hs
      repeat' split at hs
      all_goals cases hs
      simp at hmem
    | loop ans =>
      simp only [step, loopStep, checkStep, collectStep, invokeStep] at hs
      repeat' split at hs
      all_goals cases hs
      all_goals simp at hmem
    | post i res =>
      simp only [step, postStep] at hs
      split at hs <;> cases hs
      simp at hmem

/-- A call that takes an SQE no longer asks for one. -/
theorem Roomy.next (hroom : Roomy s) (ha : Serves s a) (hs : step s a = some (s', e)) :
    Roomy s' := by
  obtain ⟨T, hothers, hcard⟩ := hroom
  have hothers' : ∀ t ∉ T, ¬(s'.call t).Asks := fun t ht hasks =>
    hothers t ht (serves_asks ha hs hasks)
  have hsame : s'.sq = s.sq → Roomy s' := by
    intro hsq
    exact ⟨T, hothers', by rwa [hsq]⟩
  cases step_change hs with
  | quiet _ _ hsame' => exact hsame hsame'.sq
  | took t op cb hcall _ hs' =>
    cases op with
    | pollWaker =>
      refine ⟨T, hothers', ?_⟩
      rw [hs']
      simpa [requests] using hcard
    | user op =>
      have ht : t ∈ T := by
        by_contra ht
        exact hothers t ht (by rw [hcall]; trivial)
      refine ⟨T.erase t, fun t' ht' => ?_, ?_⟩
      · by_cases heq : t' = t
        · subst heq
          rw [hs']
          simp [Call.Asks]
        · exact hothers' t' fun hmem => ht' (Finset.mem_erase.mpr ⟨heq, hmem⟩)
      · have hpos : 0 < T.card := Finset.card_pos.mpr ⟨t, ht⟩
        rw [hs', Finset.card_erase_of_mem ht]
        simp only [State.setCall_sq, State.takeSqe_sq, requests, List.filter_append,
          List.length_append, List.filter_cons, List.filter_nil, if_true, List.length_singleton]
        simp only [requests] at hcard
        omega
  | inserted t tok cb _ hs' => exact hsame (by rw [hs']; rfl)
  | erased _ _ hsq => exact hsame hsq
  | submitted n _ _ hs' =>
    have hle : (requests (s.sq.drop n)).length ≤ (requests s.sq).length :=
      ((List.drop_sublist n s.sq).filter _).length_le
    refine ⟨T, hothers', ?_⟩
    rw [hs']
    simp only
    omega
  | posted i q res _ hs' => exact hsame (by rw [hs'])
  | collected c cq n ready _ _ hs' => exact hsame (by rw [hs'])
  | invoked r rest e _ _ _ hsq => exact hsame hsq

theorem Roomy.of_run (hroom : Roomy s) (hrun : Run step Serves s h s') : Roomy s' :=
  hrun.invariant (P := fun _ s => Roomy s) hroom fun _ _ _ _ _ hroom ha hs => hroom.next ha hs

omit [DecidableEq θ] in
theorem Roomy.not_overfull (hroom : Roomy s) : ¬Overfull s := by
  intro ho
  obtain ⟨T, -, hcard⟩ := hroom
  have hall : requests s.sq = s.sq := by
    refine List.filter_eq_self.mpr fun q hq => ?_
    have huser := ho.users q hq
    cases hop : q.op with
    | pollWaker => exact absurd hop huser
    | user op => rfl
  rw [hall] at hcard
  have := ho.full
  omega

/-- The kernel leaves the callers' requests where they are. -/
theorem serves_keeps {q : Sqe π} (hop : q.op ≠ .pollWaker) (hq : q ∈ s.sq ++ s.inflight)
    (ha : Serves s a) (hs : step s a = some (s', e)) : q ∈ s'.sq ++ s'.inflight := by
  cases a with
  | enter t entry => exact ha.elim
  | call t ans =>
    obtain rfl : ans = .ok := ha
    simp only [step, callStep] at hs
    cases hc : s.call t with
    | getSqe op cb =>
      simp only [hc] at hs
      split at hs <;> cases hs
      · simp only [List.mem_append] at hq
        simpa [or_assoc] using hq.imp_right Or.inr
      · exact hq
    | _ =>
      simp only [hc] at hs
      repeat' split at hs
      all_goals cases hs
      all_goals exact hq
  | finish t =>
    simp only [step, finishStep] at hs
    repeat' split at hs
    all_goals cases hs
    exact hq
  | loop ans =>
    simp only [step, loopStep, checkStep, collectStep, invokeStep] at hs
    cases hpc : s.loop with
    | submit =>
      simp only [hpc] at hs
      split at hs
      next n =>
        split at hs <;> cases hs
        rw [← List.take_append_drop n s.sq] at hq
        simp only [List.mem_append] at hq ⊢
        tauto
      next => cases hs
    | collect n ready =>
      cases n <;> simp only [hpc] at hs
      all_goals
        repeat' split at hs
        all_goals cases hs
        all_goals exact hq
    | dispatch ready =>
      cases ready <;> simp only [hpc] at hs
      all_goals
        repeat' split at hs
        all_goals cases hs
        all_goals exact hq
    | _ =>
      simp only [hpc] at hs
      repeat' split at hs
      all_goals cases hs
      all_goals exact hq
  | post i res =>
    simp only [step, postStep] at hs
    split at hs <;> cases hs
    next q' hq' =>
      have hop' : q'.op = .pollWaker := by
        simpa [hq'] using ha.1
      have hne : q ≠ q' := by
        rintro rfl
        exact hop hop'
      have hperm := perm_cons_eraseIdx hq'
      simp only [List.mem_append] at hq ⊢
      refine hq.imp_right fun hmem => ?_
      exact (List.mem_cons.mp (hperm.mem_iff.mp hmem)).resolve_left hne

end Steps

section Steady

variable {s s' : State θ π κ} {e h h' : History π κ}

/-- A healthy context that nobody has called `exit` on, with room in the ring. -/
structure Steady (h : History π κ) (s : State θ π κ) : Prop where
  run : Run step Always start h s
  sane : Sane s
  exiting : s.exiting = false
  roomy : Roomy s

theorem Steady.serves (hw : Steady h s) (hrun : Run step Serves s h' s') (hl : Sane s')
    (hexit : s'.exiting = s.exiting) : Steady (h ++ h') s' where
  run := hw.run.trans hrun.always
  sane := hl
  exiting := hexit.trans hw.exiting
  roomy := hw.roomy.of_run hrun

theorem Steady.goes (hw : Steady h s) (hg : Goes s s') :
    ∃ h', Run step Serves s h' s' ∧ Steady (h ++ h') s' := by
  obtain ⟨h', hrun⟩ := hg.run
  exact ⟨h', hrun, hw.serves hrun hg.sane hg.exiting⟩

/-- With room in the ring the loop comes round to the exit check. -/
theorem Steady.comes (hw : Steady h s) (hin : s.loop ≠ .init ∧ s.loop ≠ .outside) :
    ∃ h' s', Run step Serves s h' s' ∧ Steady (h ++ h') s' ∧ s'.loop = .check := by
  obtain ⟨h', s', hrun, hround, hexit⟩ := loop_comes_round hw.sane hin
  cases hround with
  | check hl hpc => exact ⟨h', s', hrun, hw.serves hrun hl hexit, hpc⟩
  | overfull _ ho => exact absurd ho (hw.roomy.of_run hrun).not_overfull

/-- The loop submits everything and waits. -/
theorem Steady.waits (hw : Steady h s) (hpc : s.loop = .check) :
    ∃ h' s', Run step Serves s h' s' ∧ Steady (h ++ h') s' ∧ s'.loop = .wait ∧ s'.sq = [] := by
  have hs : step s (.loop .ok) = some ({ s with loop := .submit }, []) := by
    simp [step, loopStep, hpc, checkStep, hw.exiting]
  have hgoes := Goes.loop hw.sane (by simp [hpc]) (by simp [hpc, LoopPc.Served]) (fun _ => rfl)
    hs rfl
  obtain ⟨s', hgoes', hpc', hsq⟩ := submit_waits hgoes.sane rfl
  obtain ⟨h', hrun, hw'⟩ := hw.goes (hgoes.trans hgoes')
  exact ⟨h', s', hrun, hw', hpc', hsq⟩

omit [DecidableEq θ] in
theorem collectStep_collects (s : State θ π κ) (c : Cqe) (cq : List Cqe) (n : Nat)
    (ready : List (Ready κ)) :
    (∃ ready', (collectStep s c cq n ready).1.loop = .collect n ready') ∧
      collected (collectStep s c cq n ready).2 = [c] := by
  unfold collectStep
  split <;> exact ⟨⟨_, rfl⟩, rfl⟩

/-- Where there is a CQE the loop collects one, at least. -/
theorem Steady.collects (hw : Steady h s) (hpc : s.loop = .wait) (hcq : s.cq ≠ []) :
    ∃ h' s', Run step Serves s h' s' ∧ Steady (h ++ h') s' ∧
      (s'.loop ≠ .init ∧ s'.loop ≠ .outside) ∧ collected h' ≠ [] := by
  obtain ⟨s₁, n, hgoes, hpc₁⟩ := woken_collects hw.sane hpc hcq
  obtain ⟨h₁, hrun₁, hw₁⟩ := hw.goes hgoes
  have hbatch : n + 1 ≤ s₁.cq.length := by
    have hbatch := hw₁.sane.calm.manned.batch
    rwa [hpc₁] at hbatch
  obtain ⟨c, cq, hc⟩ : ∃ c cq, s₁.cq = c :: cq := List.exists_cons_of_length_pos (by omega)
  obtain ⟨s₂, e, hs, ⟨ready, hpc₂⟩, hcol, hexit⟩ : ∃ s₂ e, step s₁ (.loop .ok) = some (s₂, e) ∧
      (∃ ready, s₂.loop = .collect n ready) ∧ collected e = [c] ∧ s₂.exiting = s₁.exiting := by
    obtain ⟨hready, hcol⟩ := collectStep_collects s₁ c cq n []
    refine ⟨_, _, ?_, hready, hcol, (collectStep_sameExit s₁ c cq n []).1⟩
    simp [step, loopStep, hpc₁, hc]
  have hanswer : s₁.loop.Served s₁.sq.length .ok := by simp [hpc₁, LoopPc.Served]
  have hserved : Serves s₁ (.loop .ok) := ⟨by simp [hpc₁], hanswer, fun _ => rfl⟩
  have hl := hw₁.sane.goOn hanswer hs
  have hw₂ := hw₁.serves (.single hserved hs) hl hexit
  exact ⟨_, _, hrun₁.trans (.single hserved hs), by rwa [← List.append_assoc], by simp [hpc₂],
    by simp [hcol]⟩

/-- A round: a CQE is collected if there is one. -/
theorem Steady.round (hw : Steady h s) (hpc : s.loop = .check) :
    ∃ h' s', Run step Serves s h' s' ∧ Steady (h ++ h') s' ∧ s'.loop = .check ∧
      ((collected h).length < (posted h).length →
        (collected h).length < (collected (h ++ h')).length) := by
  obtain ⟨h₁, s₁, hrun₁, hw₁, hpc₁, -⟩ := hw.waits hpc
  by_cases hcq : s₁.cq = []
  · obtain ⟨h₂, s₂, hrun₂, hw₂, hpc₂⟩ := hw₁.comes (by simp [hpc₁])
    rw [List.append_assoc] at hw₂
    refine ⟨_, _, hrun₁.trans hrun₂, hw₂, hpc₂, fun hlt => ?_⟩
    have hall := (Routing.of_run hw₁.run).posted_eq
    have hlen := congrArg List.length hall
    simp only [hcq, List.append_nil, posted_append, collected_append, List.length_append]
      at hlen ⊢
    omega
  · obtain ⟨h₂, s₂, hrun₂, hw₂, hin, hne⟩ := hw₁.collects hpc₁ hcq
    obtain ⟨h₃, s₃, hrun₃, hw₃, hpc₃⟩ := hw₂.comes hin
    rw [List.append_assoc, List.append_assoc] at hw₃
    refine ⟨_, _, hrun₁.trans (hrun₂.trans hrun₃), hw₃, hpc₃, fun _ => ?_⟩
    have hpos := List.length_pos_iff.mpr hne
    simp only [collected_append, List.length_append]
    omega

/-- What is posted gets collected, by induction on its place in the ring. -/
theorem Steady.reaches (hw : Steady h s) (hpc : s.loop = .check) (n : Nat)
    (hn : n ≤ (posted h).length) :
    ∃ h' s', Run step Serves s h' s' ∧ Steady (h ++ h') s' ∧ s'.loop = .check ∧
      n ≤ (collected (h ++ h')).length := by
  induction n with
  | zero => exact ⟨[], s, .start, by rwa [List.append_nil], hpc, Nat.zero_le _⟩
  | succ n ih =>
    obtain ⟨h₁, s₁, hrun₁, hw₁, hpc₁, hcol⟩ := ih (by omega)
    obtain ⟨h₂, s₂, hrun₂, hw₂, hpc₂, hmore⟩ := hw₁.round hpc₁
    rw [List.append_assoc] at hw₂ hmore
    refine ⟨_, _, hrun₁.trans hrun₂, hw₂, hpc₂, ?_⟩
    simp only [posted_append, collected_append, List.length_append] at hmore hcol ⊢
    omega

/-- The kernel completes the callers' requests that it has, one after the other. -/
theorem Steady.posts (hw : Steady h s) (answer : Nat → Int) :
    ∃ h' s', Run step Works s h' s' ∧ Steady (h ++ h') s' ∧ s'.loop = s.loop ∧
      ∀ q ∈ s.inflight, q.op ≠ .pollWaker →
        .posted ⟨q.userData, answer q.userData⟩ ∈ h' := by
  induction hlen : s.inflight.length generalizing h s with
  | zero =>
    refine ⟨[], s, .start, by rwa [List.append_nil], rfl, fun q hq => ?_⟩
    rw [List.length_eq_zero_iff.mp hlen] at hq
    cases hq
  | succ n ih =>
    by_cases hno : ∃ q ∈ s.inflight, q.op ≠ .pollWaker
    · obtain ⟨q, hq, hop⟩ := hno
      obtain ⟨i, hi⟩ := List.mem_iff_getElem?.mp hq
      have hs : step s (.post i (answer q.userData)) = some ({ s with
          inflight := s.inflight.eraseIdx i, cq := s.cq ++ [⟨q.userData, answer q.userData⟩] },
          [.posted ⟨q.userData, answer q.userData⟩]) := by
        simp [step, postStep, hi]
      have hworks : Works s (.post i (answer q.userData)) := .inr ⟨i, _, q, rfl, hi, hop⟩
      have hl := hw.sane.next (a := .post i (answer q.userData))
        ⟨⟨fun hpoll => absurd hpoll (by simpa [hi] using hop), trivial⟩, trivial⟩ hs
      have hw₁ : Steady (h ++ [.posted ⟨q.userData, answer q.userData⟩]) _ :=
        ⟨hw.run.trans (.single trivial hs), hl, hw.exiting, hw.roomy⟩
      have hperm := perm_cons_eraseIdx hi
      have hcount : (s.inflight.eraseIdx i).length = n := by
        have heq := hperm.length_eq
        rw [List.length_cons] at heq
        omega
      obtain ⟨h', s', hrun, hw', hpc, hall⟩ := ih hw₁ hcount
      refine ⟨_, s', (Run.single hworks hs).trans hrun, by rwa [← List.append_assoc], hpc, ?_⟩
      intro q' hq' hop'
      rcases List.mem_cons.mp (hperm.mem_iff.mp hq') with rfl | hmem
      · exact List.mem_append_left _ List.mem_cons_self
      · exact List.mem_append_right _ (hall q' hmem hop')
    · refine ⟨[], s, .start, by rwa [List.append_nil], rfl, fun q hq hop => ?_⟩
      exact absurd ⟨q, hq, hop⟩ hno

/-- A registered closure has its answer, or its request is still there. -/
theorem Steady.answered (hw : Steady h s) {tok : Nat} {k : κ} (hadd : .added tok (.user k) ∈ h)
    (hcancel : .cancelled tok ∉ h) :
    (∃ res, .posted ⟨tok, res⟩ ∈ h) ∨
      ∃ q ∈ s.sq ++ s.inflight, q.userData = tok ∧ q.op ≠ .pollWaker := by
  have hr := Routing.of_run hw.run
  rcases hr.settled hadd hcancel with ⟨hmap, hmem⟩ | ⟨-, res, hpost, -⟩
  · rcases List.mem_append.mp hmem with hcq | hmem
    · obtain ⟨c, hc, rfl⟩ := List.mem_map.mp hcq
      have hpost : c ∈ posted h := by
        rw [hr.posted_eq]
        exact List.mem_append_right _ hc
      exact .inl ⟨c.res, mem_posted.mp hpost⟩
    · obtain ⟨q, hq, rfl⟩ := List.mem_map.mp hmem
      have hqs : q ∈ s.sq ++ s.inflight := List.mem_append.mpr (List.mem_append.mp hq).symm
      refine .inr ⟨q, hqs, rfl, fun hop => ?_⟩
      obtain ⟨h', hr', hi⟩ := hw.sane.cycle
      have hadd' := ((hr'.live _ _).mp hmap).added_mem
      rcases (hi.link q hqs).mp hop with hwaker | htakes
      · cases hr'.added_unique hadd' hwaker
      · exact (hr'.taken _ _ htakes.takes).2 _ hadd'
  · exact .inl ⟨res, hpost⟩

theorem serves_works (hrun : Run step Serves s h s') : Run step Works s h s' :=
  hrun.mono fun _ _ => .inl

theorem works_uncancelled (hl : Sane s) (hrun : Run step Works s h' s') (tok : Nat) :
    .cancelled tok ∉ h' := by
  have hkept : (∀ t, ¬(s'.call t).Cancels) ∧ .cancelled tok ∉ h' := by
    refine hrun.invariant (P := fun h s => (∀ t, ¬(s.call t).Cancels) ∧ .cancelled tok ∉ h)
      ⟨hl.not_cancels, by simp⟩ ?_
    rintro h₁ s₁ a s₂ e ⟨hno, hmem⟩ ha hs
    rcases ha with ha | ⟨i, res, q, rfl, hi, -⟩
    · obtain ⟨hno', hmem'⟩ := serves_uncancelled hno ha hs
      exact ⟨hno', fun hc => (List.mem_append.mp hc).elim hmem (hmem' tok)⟩
    · simp only [step, postStep, hi] at hs
      cases hs
      exact ⟨hno, by simpa using hmem⟩
  exact hkept.2

omit [DecidableEq θ] in
/-- What was posted is collected once as many are. -/
theorem Routing.collected_of_le (hr : Routing (h ++ h') s)
    (hle : (posted h).length ≤ (collected (h ++ h')).length) {c : Cqe} (hc : c ∈ posted h) :
    c ∈ collected (h ++ h') := by
  have hpre : posted h <+: posted (h ++ h') := by
    rw [posted_append]
    exact List.prefix_append _ _
  have hcol : collected (h ++ h') <+: posted (h ++ h') := by
    rw [hr.posted_eq]
    exact List.prefix_append _ _
  exact (List.prefix_of_prefix_length_le hpre hcol hle).subset hc

omit [DecidableEq θ] in
/-- Between two batches, the closures of what is collected were called. -/
theorem Routing.called (hr : Routing h s) (hpending : s.loop.pending = []) {tok : Nat}
    {cb : Callback κ} {res : Int} (hadd : .added tok cb ∈ h) (hcancel : .cancelled tok ∉ h)
    (hcol : ⟨tok, res⟩ ∈ collected h) :
    .invoked ⟨tok, cb, toResult res⟩ ∈ h ∧ s.callbacks tok = none := by
  rcases hr.settled hadd hcancel with ⟨-, hwait⟩ | ⟨hnone, res', hpost, hinv⟩
  · exact absurd (List.mem_map_of_mem (f := Cqe.userData) hcol) (hr.not_collected hwait)
  · have hpost' : ⟨tok, res⟩ ∈ posted h := by
      rw [hr.posted_eq]
      exact List.mem_append_left _ hcol
    have heq : (⟨tok, res'⟩ : Cqe) = ⟨tok, res⟩ :=
      List.inj_on_of_nodup_map hr.posted_nodup (mem_posted.mpr hpost) hpost' rfl
    obtain rfl : res' = res := congrArg Cqe.res heq
    rw [hpending, List.append_nil] at hinv
    exact ⟨mem_invoked.mp hinv, hnone⟩

/-- The kernel completes all requests that there are, and every CQE is collected. -/
theorem Steady.drains (hw : Steady h s) (hin : s.loop ≠ .init ∧ s.loop ≠ .outside)
    (answer : Nat → Int) :
    ∃ h₁ h₂ s', Run step Works s (h₁ ++ h₂) s' ∧ Steady (h ++ h₁ ++ h₂) s' ∧ s'.loop = .check ∧
      (∀ q ∈ s.sq ++ s.inflight, q.op ≠ .pollWaker →
        .posted ⟨q.userData, answer q.userData⟩ ∈ h₁) ∧
      (posted (h ++ h₁)).length ≤ (collected (h ++ h₁ ++ h₂)).length := by
  obtain ⟨h₁, s₁, hrun₁, hw₁, hpc₁⟩ := hw.comes hin
  obtain ⟨h₂, s₂, hrun₂, hw₂, hpc₂, hsq⟩ := hw₁.waits hpc₁
  obtain ⟨h₃, s₃, hrun₃, hw₃, hpc₃, hall⟩ := hw₂.posts answer
  obtain ⟨h₄, s₄, hrun₄, hw₄, hpc₄⟩ := hw₃.comes (by simp [hpc₃, hpc₂])
  obtain ⟨h₅, s₅, hrun₅, hw₅, hpc₅, hcol⟩ :=
    hw₄.reaches hpc₄ (posted (h ++ (h₁ ++ h₂ ++ h₃))).length (by simp)
  have hserves : Run step Serves s (h₁ ++ h₂) s₂ := hrun₁.trans hrun₂
  refine ⟨h₁ ++ h₂ ++ h₃, h₄ ++ h₅, s₅,
    ((serves_works hserves).trans hrun₃).trans (serves_works (hrun₄.trans hrun₅)), ?_, hpc₅,
    ?_, ?_⟩
  · simpa only [List.append_assoc] using hw₅
  · intro q hq hop
    have hkept : q ∈ s₂.sq ++ s₂.inflight :=
      hserves.invariant (P := fun _ s => q ∈ s.sq ++ s.inflight) hq
        fun _ _ _ _ _ hq ha hs => serves_keeps hop hq ha hs
    rw [hsq, List.nil_append] at hkept
    exact List.mem_append_right _ (hall q hkept hop)
  · simpa only [List.append_assoc] using hcol

/-- Every closure that is registered can be called, with what the kernel answers,
without another call into the context. -/
theorem closures_get_called (hrun : Run step Assumed start h s) (hexit : s.exiting = false)
    (hin : s.loop ≠ .init ∧ s.loop ≠ .outside) (hroom : Roomy s) (answer : Nat → Int)
    (hanswer : ∀ tok res, .posted ⟨tok, res⟩ ∈ h → res = answer tok) :
    ∃ h' s', Run step Works s h' s' ∧ ∀ tok k, .added tok (.user k) ∈ h → .cancelled tok ∉ h →
      .invoked ⟨tok, .user k, toResult (answer tok)⟩ ∈ h ++ h' ∧ s'.callbacks tok = none := by
  have hw : Steady h s := ⟨hrun.always, ⟨h, hrun⟩, hexit, hroom⟩
  obtain ⟨h₁, h₂, s', hworks, hw', hpc, hall, hlen⟩ := hw.drains hin answer
  refine ⟨h₁ ++ h₂, s', hworks, fun tok k hadd hcancel => ?_⟩
  have hr := Routing.of_run hw'.run
  have hposted : ⟨tok, answer tok⟩ ∈ posted (h ++ h₁) := by
    rcases hw.answered hadd hcancel with ⟨res, hpost⟩ | ⟨q, hq, rfl, hop⟩
    · obtain rfl := hanswer tok res hpost
      exact mem_posted.mpr (List.mem_append_left _ hpost)
    · exact mem_posted.mpr (List.mem_append_right _ (hall q hq hop))
  have hcancel' : .cancelled tok ∉ h ++ (h₁ ++ h₂) := fun hmem =>
    (List.mem_append.mp hmem).elim hcancel (works_uncancelled hw.sane hworks tok)
  rw [← List.append_assoc] at hcancel' ⊢
  have hadd' : .added tok (.user k) ∈ h ++ h₁ ++ h₂ := by
    rw [List.append_assoc]
    exact List.mem_append_left _ hadd
  have hpending : s'.loop.pending = [] := by rw [hpc]; rfl
  exact hr.called hpending hadd' hcancel' (hr.collected_of_le hlen hposted)

end Steady

/-- The loop sleeps, and a thread has added an operation since it submitted. -/
theorem closures_get_called_late_add :
    ∃ (h : History Unit Unit) (s : State Unit Unit Unit), Run step Assumed start h s ∧
      s.loop = .wait ∧ s.sq = [⟨.user (), 1⟩] ∧ ∃ h' s', Run step Works s h' s' ∧
        .invoked ⟨1, .user (), .ok 7⟩ ∈ h ++ h' ∧ s'.callbacks 1 = none := by
  obtain ⟨h, s, hrun, hpc, hsq, hexit, hcalls, hh⟩ : ∃ (h : History Unit Unit)
      (s : State Unit Unit Unit), Run step Assumed start h s ∧ s.loop = .wait ∧
      s.sq = [⟨.user (), 1⟩] ∧ s.exiting = false ∧ (∀ t, ¬(s.call t).Asks) ∧
      h = [.queued 0 .pollWaker, .added 0 .waker, .queued 1 (.user ()), .added 1 (.user ())] :=
    ⟨_, _, exec_restrict_run
      [.call .loop .ok, .call .loop .ok, .call .loop .ok, .call .loop .ok, .call .loop .ok,
        .loop .ok, .loop .ok, .loop .ok, .loop (.submitted 1),
        .enter (.user ()) (.addSqe () (some ())), .call (.user ()) .ok, .call (.user ()) .ok,
        .call (.user ()) .ok, .call (.user ()) .ok, .call (.user ()) .ok] rfl, rfl, rfl, rfl,
      fun t => by cases t <;> exact id, rfl⟩
  have hroom : Roomy s := ⟨∅, fun t _ => hcalls t, by rw [hsq]; decide⟩
  obtain ⟨h', s', hworks, hall⟩ := closures_get_called hrun hexit (by simp [hpc]) hroom
    (fun _ => 7) (by simp [hh])
  obtain ⟨hinv, hnone⟩ := hall 1 () (by simp [hh]) (by simp [hh])
  exact ⟨h, s, hrun, hpc, hsq, h', s', hworks, hinv, hnone⟩

end UringContext
