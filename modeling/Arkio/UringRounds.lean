import Arkio.UringLocks
import Arkio.UringStages
import Arkio.UringWakeup

/-!
# The loop comes round

From every state of a healthy context in which `run` is under way the loop can get
to its exit check, wherever it and the other threads are: blocked in `wait`, inside a
batch with any number of callbacks, or at a mutex that somebody holds. Nobody has to
call anything for that: the loop goes on, the calls under way return, and the kernel
completes the waker's poll. One thing can be in the way: the ring is full where the
waker is armed again.
-/
namespace UringContext

open Bindings LabelledMachine

variable {θ π κ : Type} [DecidableEq θ]

/-- The steps that are still taken: calls go on, callbacks return, the loop moves,
and the kernel completes the poll when the counter is up. -/
def Serves (s : State θ π κ) : Action θ π κ → Prop
  | .call _ ans => ans = .ok
  | .finish t => t = .loop
  | .loop ans => s.loop ≠ .outside ∧ s.loop.Served s.sq.length ans ∧ (s.loop = .wait → ans = .ok)
  | .post i res => s.inflight[i]?.map Sqe.op = some .pollWaker ∧ 1 ≤ s.counter ∧ 0 ≤ res
  | .enter _ _ => False

section Continue

variable {s s' : State θ π κ} {t : Thread θ} {e h : History π κ} {ans : Answer}

omit [DecidableEq θ] in
theorem unwinds_serves {a : Action θ π κ} (hu : Unwinds s a) : Serves s a := by
  cases a with
  | call t ans => exact hu
  | loop ans =>
    obtain ⟨rfl, n, ready, hpc⟩ := hu
    simp [Serves, hpc, LoopPc.Served]
  | enter t entry => exact hu.elim
  | finish t => exact hu.elim
  | post i res => exact hu.elim

/-- What the steps of calls and of the collecting loop leave as it is. -/
structure SameExit (s s' : State θ π κ) : Prop where
  exiting : s'.exiting = s.exiting
  loop : (∀ n ready, s.loop ≠ .collect n ready) → s'.loop = s.loop
  stuck : ¬Stuck s → ¬Stuck s'

theorem callStep_sameExit (hs : callStep s t .ok = some (s', e)) : SameExit s s' := by
  obtain ⟨-, hloop, hother⟩ := callStep_counter hs
  have hexit : s'.exiting = s.exiting := by
    unfold callStep at hs
    repeat' split at hs
    all_goals cases hs
    all_goals rfl
  refine ⟨hexit, fun _ => hloop, fun hstuck => ?_⟩
  rintro ⟨t', tok, cb, err, hc⟩
  by_cases ht : t' = t
  · subst ht
    unfold callStep at hs
    repeat' split at hs
    all_goals cases hs
    all_goals simp at hc
    next hfailed => cases hfailed
  · rw [hother t' ht] at hc
    exact hstuck ⟨t', tok, cb, err, hc⟩

omit [DecidableEq θ] in
theorem collectStep_sameExit (s : State θ π κ) (c : Cqe) (cq : List Cqe) (n : Nat)
    (ready : List (Ready κ)) :
    (collectStep s c cq n ready).1.exiting = s.exiting ∧
      (collectStep s c cq n ready).1.call = s.call := by
  unfold collectStep
  split <;> exact ⟨rfl, rfl⟩

theorem step_sameExit {a : Action θ π κ} (hu : Unwinds s a) (hs : step s a = some (s', e)) :
    SameExit s s' := by
  cases a with
  | call t ans =>
    obtain rfl : ans = .ok := hu
    exact callStep_sameExit hs
  | loop ans =>
    obtain ⟨-, n, ready, hpc⟩ := hu
    have hsame : s'.exiting = s.exiting ∧ s'.call = s.call := by
      cases n with
      | zero =>
        simp only [step, loopStep, hpc] at hs
        cases hs
        exact ⟨rfl, rfl⟩
      | succ n =>
        simp only [step, loopStep, hpc] at hs
        split at hs
        next c cq _ =>
          have hshape := collectStep_sameExit s c cq n ready
          rw [Option.some.inj hs] at hshape
          exact hshape
        next => cases hs
    refine ⟨hsame.1, fun hno => absurd hpc (hno n ready), fun hstuck => ?_⟩
    unfold Stuck
    rwa [hsame.2]
  | enter t entry => exact hu.elim
  | finish t => exact hu.elim
  | post i res => exact hu.elim

theorem leaves_sameExit (hl : Leaves s s') : SameExit s s' := by
  obtain ⟨h, hrun⟩ := hl
  refine hrun.invariant (P := fun _ s' => SameExit s s') ⟨rfl, fun _ => rfl, id⟩ ?_
  rintro _ s₁ a s₂ e hsame hu hs
  have hnext := step_sameExit hu hs
  refine ⟨hnext.exiting.trans hsame.exiting, fun hno => ?_, fun hstuck =>
    hnext.stuck (hsame.stuck hstuck)⟩
  have hloop := hsame.loop hno
  rw [hnext.loop (by rwa [hloop]), hloop]

/-- Whoever has a mutex can leave it. -/
structure Calm (s : State θ π κ) : Prop where
  stuck : ¬Stuck s
  manned : Manned s
  attends : Attends s

theorem Calm.next {a : Action θ π κ} (hc : Calm s) (hs : step s a = some (s', e))
    (hstuck : ¬Stuck s') : Calm s' :=
  ⟨hstuck, step_manned hs hc.manned hc.attends, step_attends hs hc.attends⟩

theorem Calm.of_leaves (hc : Calm s) (hl : Leaves s s') : Calm s' := by
  have hsame := leaves_sameExit hl
  obtain ⟨h, hrun⟩ := hl
  obtain ⟨hm, hat⟩ : Manned s' ∧ Attends s' := by
    refine hrun.invariant (P := fun _ s => Manned s ∧ Attends s) ⟨hc.manned, hc.attends⟩ ?_
    rintro _ s₁ a s₂ e ⟨hm, hat⟩ _ hs
    exact ⟨step_manned hs hm hat, step_attends hs hat⟩
  exact ⟨hsame.stuck hc.stuck, hm, hat⟩

/-- A step of the loop that leaves the calls as they are. -/
theorem Calm.goOn (hc : Calm s) (hs : step s (.loop ans) = some (s', e))
    (hcall : s'.call = s.call) : Calm s' := by
  refine hc.next hs ?_
  unfold Stuck
  rw [hcall]
  exact hc.stuck

theorem not_stuck_setCall {c : Call π κ} {s₁ : State θ π κ} (hstuck : ¬Stuck s)
    (hcall : s₁.call = s.call) (hc : ∀ tok cb err, c ≠ .cancel tok cb err) :
    ¬Stuck (s₁.setCall t c) := by
  rintro ⟨t', tok, cb, err, h⟩
  by_cases ht : t' = t
  · subst ht
    simp only [State.setCall_call, Function.update_self] at h
    exact hc tok (some cb) err h
  · simp only [State.setCall_call, Function.update_of_ne ht, hcall] at h
    exact hstuck ⟨t', tok, cb, err, h⟩

end Continue

section Sane

variable {s s' : State θ π κ} {t : Thread θ} {e h : History π κ} {ans : Answer}
  {rest : List (Ready κ)}

/-- Steps that are not the loop's leave it where it is. -/
theorem step_loop {a : Action θ π κ} (hs : step s a = some (s', e)) (ha : ∀ ans, a ≠ .loop ans) :
    s'.loop = s.loop := by
  cases a with
  | loop ans => exact absurd rfl (ha ans)
  | call t ans => exact (callStep_counter hs).2.1
  | enter t entry =>
    simp only [step, enterStep] at hs
    repeat' split at hs
    all_goals cases hs
    all_goals rfl
  | finish t =>
    simp only [step, finishStep] at hs
    repeat' split at hs
    all_goals cases hs
    rfl
  | post i res =>
    simp only [step, postStep] at hs
    split at hs <;> cases hs
    rfl

/-- The waker's callback finds the counter up. -/
theorem run_readable (hrun : Run step Assumed start h s) (hpc : s.loop = .wakerRead rest) :
    1 ≤ s.counter :=
  (Awake.of_run hrun).one_le (by simp [hpc, Drained])

/-- Where the loop is blocked with nothing completed, the kernel has a poll that it
can complete. -/
theorem run_woken (hrun : Run step Assumed start h s) (hpc : s.loop = .wait) (hcq : s.cq = []) :
    (polls s.inflight).length = 1 ∧ 1 ≤ s.counter := by
  have hcycle : WakerCycle h s := .of_run (hrun.mono fun _ _ ha => ha.healthy)
  have hpolls := hcycle.polls_inflight (.of_run hrun) (.of_run hrun) hpc hcq
  exact ⟨hpolls, (Awake.of_run hrun).one_le (by simp [hpc, Drained])⟩

/-- Where the waker's callback is running, what is left of the batch has no waker. -/
def LoopPc.Alone : LoopPc κ → Prop
  | .wakerRead rest | .wakerRearm rest | .wakerExit rest => ∀ r ∈ rest, r.callback ≠ .waker
  | _ => True

omit [DecidableEq θ] in
/-- A batch has one waker. -/
theorem WakerCycle.rest_alone (hi : WakerCycle h s) (hr : Routing h s) {r : Ready κ}
    (hpc : s.loop = .dispatch (r :: rest)) (hw : r.callback = .waker) :
    ∀ r' ∈ rest, r'.callback ≠ .waker := by
  intro r' hr' hw'
  have hpending : s.loop.pending = r :: rest := by rw [hpc]; rfl
  have hopen : ∀ x ∈ r :: rest, x.callback = .waker →
      addedWakers h = invokedWakers h ++ [x.token] := by
    intro x hx hwx
    obtain ⟨hadded, hnew⟩ := hr.of_pending (hpending ▸ hx)
    exact (hi.open_waker (hwx ▸ hadded) hnew).2
  have heq := (hopen r List.mem_cons_self hw).symm.trans
    (hopen r' (List.mem_cons_of_mem _ hr') hw')
  have htok : r.token = r'.token := by simpa using heq
  have hn := hr.pending_nodup
  rw [hpending, List.map_cons, List.nodup_cons] at hn
  exact hn.1 (htok ▸ List.mem_map_of_mem hr')

theorem loopStep_alone (hs : loopStep s ans = some (s', e)) (hi : WakerCycle h s)
    (hr : Routing h s) (ha : s.loop.Alone) : s'.loop.Alone := by
  unfold loopStep at hs
  cases hpc : s.loop with
  | dispatch ready =>
    cases ready with
    | nil =>
      simp only [hpc] at hs
      cases hs
      trivial
    | cons r rest =>
      have hrest := hi.rest_alone hr hpc
      simp only [hpc, invokeStep] at hs
      cases hcb : r.callback with
      | user k =>
        simp only [hcb] at hs
        cases hs
        trivial
      | waker =>
        simp only [hcb] at hs
        split at hs <;> cases hs
        · exact hrest hcb
        · exact hrest hcb
  | wakerRead rest =>
    rw [hpc] at ha
    simp only [hpc] at hs
    repeat' split at hs
    all_goals cases hs
    · exact ha
    · exact ha
  | wakerRearm rest =>
    rw [hpc] at ha
    simp only [hpc] at hs
    split at hs <;> cases hs
    · trivial
    · exact ha
  | collect n ready =>
    cases n <;> simp only [hpc, collectStep] at hs
    all_goals
      repeat' split at hs
      all_goals cases hs
      all_goals trivial
  | _ =>
    simp only [hpc, checkStep] at hs
    repeat' split at hs
    all_goals cases hs
    all_goals trivial

/-- The state is reached by a context that has not failed. -/
def Sane (s : State θ π κ) : Prop := ∃ h, Run step Assumed start h s

theorem Sane.next (hl : Sane s) {a : Action θ π κ} (hok : Assumed s a)
    (hs : step s a = some (s', e)) : Sane s' := by
  obtain ⟨h, hrun⟩ := hl
  exact ⟨h ++ e, .next hrun hok hs⟩

theorem Sane.goOn (hl : Sane s) (hserved : s.loop.Served s.sq.length ans)
    (hs : step s (.loop ans) = some (s', e)) : Sane s' :=
  hl.next (a := .loop ans) ⟨⟨hserved, trivial⟩, trivial⟩ hs

theorem Sane.cycle (hl : Sane s) : ∃ h, Routing h s ∧ WakerCycle h s := by
  obtain ⟨h, hrun⟩ := hl
  exact ⟨h, .of_run hrun, .of_run (hrun.mono fun _ _ ha => ha.healthy)⟩

theorem Sane.alone (hl : Sane s) : s.loop.Alone := by
  obtain ⟨h, hrun⟩ := hl
  refine hrun.invariant_under (I := fun h s => Routing h s ∧ WakerCycle h s)
    (P := fun _ s => s.loop.Alone) ?_ trivial ?_
  · intro h s hr
    exact ⟨.of_run hr, .of_run (hr.mono fun _ _ ha => ha.healthy)⟩
  · rintro h s a s' e ⟨hr, hi⟩ ha - hs
    cases a with
    | loop ans => exact loopStep_alone hs hi hr ha
    | _ =>
      rw [step_loop hs (by simp)]
      exact ha

/-- A submission that failed is taken back. -/
def Call.Cancels (c : Call π κ) : Prop := ∃ tok cb err, c = .cancel tok cb err

/-- A healthy context takes no submission back. -/
theorem Sane.not_cancels (hl : Sane s) (t : Thread θ) : ¬(s.call t).Cancels := by
  rintro ⟨tok, cb, err, hc⟩
  obtain ⟨h, -, hi⟩ := hl.cycle
  rcases hi.role t with hplain | ⟨rfl, harms⟩
  · simp [hc, Call.Plain] at hplain
  · simp [hc, Call.Arms] at harms

theorem Sane.calm (hl : Sane s) : Calm s := by
  have hstuck : ¬Stuck s := by
    rintro ⟨t, tok, cb, err, hc⟩
    exact hl.not_cancels t ⟨tok, some cb, err, hc⟩
  obtain ⟨h, hrun⟩ := hl
  obtain ⟨hm, hat⟩ := Manned.of_run hrun.always
  exact ⟨hstuck, hm, hat⟩

/-- A thread that arms the waker is the loop's, in `init` or in the waker's callback. -/
theorem Sane.not_getsPoll (hl : Sane s) (hpc : s.loop ≠ .init ∧ ∀ rest, s.loop ≠ .wakerRearm rest)
    (t : Thread θ) : ¬(s.call t).GetsPoll := by
  obtain ⟨h, -, hi⟩ := hl.cycle
  have hplain : (s.call t).Plain := by
    cases t with
    | user t => exact hi.users t
    | loop =>
      have hcontrol := hi.control
      cases hpc' : s.loop with
      | init => exact absurd hpc' hpc.1
      | wakerRearm rest => exact absurd hpc' (hpc.2 rest)
      | callback rest =>
        rw [hpc'] at hcontrol
        exact hcontrol
      | wakerExit rest =>
        rw [hpc'] at hcontrol
        exact hcontrol.elim
      | _ =>
        rw [hpc'] at hcontrol
        rw [show s.call .loop = .idle from hcontrol]
        trivial
  cases hc : s.call t with
  | getSqe op cb =>
    rw [hc] at hplain
    cases op with
    | pollWaker => exact absurd rfl hplain.1
    | user op => exact id
  | _ => exact id

/-- The calls under way go on as those of a context that does not fail. -/
theorem Sane.of_leaves (hl : Sane s) (hpc : s.loop ≠ .init ∧ ∀ rest, s.loop ≠ .wakerRearm rest)
    (hleaves : Leaves s s') : Sane s' := by
  obtain ⟨h, hrun⟩ := hleaves
  suffices Sane s' ∧ s'.loop ≠ .init ∧ ∀ rest, s'.loop ≠ .wakerRearm rest from this.1
  refine hrun.invariant (P := fun _ s' => Sane s' ∧ s'.loop ≠ .init ∧
    ∀ rest, s'.loop ≠ .wakerRearm rest) ⟨hl, hpc⟩ ?_
  rintro _ s₁ a s₂ e ⟨hl₁, hpc₁⟩ hu hs
  cases a with
  | call t ans =>
    obtain rfl : ans = .ok := hu
    refine ⟨hl₁.next (a := .call t .ok)
      ⟨⟨rfl, fun hgets => absurd hgets (hl₁.not_getsPoll hpc₁ t)⟩, trivial⟩ hs, ?_⟩
    rw [step_loop hs (by simp)]
    exact hpc₁
  | loop ans =>
    obtain ⟨rfl, n, ready, hcollect⟩ := hu
    refine ⟨hl₁.goOn (by simp [hcollect, LoopPc.Served]) hs, ?_⟩
    cases n <;> simp only [step, loopStep, hcollect, collectStep] at hs
    all_goals
      repeat' split at hs
      all_goals cases hs
      all_goals simp
  | enter t entry => exact hu.elim
  | finish t => exact hu.elim
  | post i res => exact hu.elim

/-- The thread that arms the waker again finds no poll of the last one. -/
theorem Sane.no_poll (hl : Sane s) {cb : Option (Callback κ)} (hpc : s.loop = .wakerRearm rest)
    (hc : s.call .loop = .getSqe .pollWaker cb) : ∀ q ∈ s.sq, q.op ≠ .pollWaker := by
  obtain ⟨h, hr, hi⟩ := hl.cycle
  intro q hq hop
  have hmem : q ∈ s.sq ++ s.inflight := List.mem_append_left _ hq
  rcases (hi.link q hmem).mp hop with hadd | htakes
  · have hnew : ∀ r, .invoked r ∈ h → r.token ≠ q.userData := by
      intro r hinv heq
      refine hr.not_collected ?_ (heq ▸ hr.collected_of_invoked hinv)
      simp only [List.map_append, List.mem_append]
      exact .inr (.inr (List.mem_map_of_mem hq))
    have harmed := (hi.open_waker hadd hnew).1
    rw [hpc, hc] at harmed
    exact harmed
  · rw [hc] at htakes
    exact htakes

/-- The ring was full where the waker is armed again. -/
structure Overfull (s : State θ π κ) : Prop where
  call : s.call .loop = .returned (.error (asEc ENOBUFS))
  full : batchSize ≤ s.sq.length
  users : ∀ q ∈ s.sq, q.op ≠ .pollWaker

theorem Sane.unwind_rearm {a : Action θ π κ} (hl : Sane s) (hpc : s.loop = .wakerRearm rest)
    (hu : Unwinds s a) (hs : step s a = some (s', e)) : Sane s' ∨ Overfull s' := by
  cases a with
  | call t ans =>
    obtain rfl : ans = .ok := hu
    by_cases hroom : (s.call t).GetsPoll → s.sq.length < batchSize
    · exact .inl (hl.next (a := .call t .ok) ⟨⟨rfl, hroom⟩, trivial⟩ hs)
    · rw [Classical.not_imp] at hroom
      obtain ⟨hgets, hfull⟩ := hroom
      obtain ⟨_, -, hi⟩ := hl.cycle
      cases hc : s.call t with
      | getSqe op cb =>
        rw [hc] at hgets
        cases op with
        | user p => exact hgets.elim
        | pollWaker =>
          cases t with
          | user t =>
            have hplain := hi.users t
            rw [hc] at hplain
            exact absurd rfl hplain.1
          | loop =>
            have hs' : s' = (s.unlock cb).setCall .loop (.returned (.error (asEc ENOBUFS))) := by
              simp [step, callStep, hc, hfull] at hs
              exact hs.1.symm
            subst hs'
            exact .inr ⟨by simp, Nat.le_of_not_lt hfull, hl.no_poll hpc hc⟩
      | _ =>
        rw [hc] at hgets
        exact hgets.elim
  | loop ans =>
    obtain ⟨-, n, ready, hcollect⟩ := hu
    rw [hpc] at hcollect
    cases hcollect
  | enter t entry => exact hu.elim
  | finish t => exact hu.elim
  | post i res => exact hu.elim

theorem Overfull.unwind {a : Action θ π κ} (ho : Overfull s) (hpc : s.loop = .wakerRearm rest)
    (hu : Unwinds s a) (hs : step s a = some (s', e)) : Overfull s' := by
  cases a with
  | call t ans =>
    obtain rfl : ans = .ok := hu
    have hs : callStep s t .ok = some (s', e) := hs
    have hne : t ≠ .loop := by
      rintro rfl
      simp [callStep, ho.call] at hs
    have hsq : s'.sq = s.sq := by
      have hfull := ho.full
      unfold callStep at hs
      repeat' split at hs
      all_goals cases hs
      all_goals first | rfl | omega
    obtain ⟨-, -, hother⟩ := callStep_counter hs
    exact ⟨(hother .loop hne.symm).trans ho.call, hsq ▸ ho.full, hsq ▸ ho.users⟩
  | loop ans =>
    obtain ⟨-, n, ready, hcollect⟩ := hu
    rw [hpc] at hcollect
    cases hcollect
  | enter t entry => exact hu.elim
  | finish t => exact hu.elim
  | post i res => exact hu.elim

/-- The calls under way go on while the waker is armed again. -/
theorem Sane.of_leaves_rearm (hl : Sane s) (hpc : s.loop = .wakerRearm rest)
    (hleaves : Leaves s s') : Sane s' ∨ Overfull s' := by
  obtain ⟨h, hrun⟩ := hleaves
  suffices s'.loop = .wakerRearm rest ∧ (Sane s' ∨ Overfull s') from this.2
  refine hrun.invariant (P := fun _ s' => s'.loop = .wakerRearm rest ∧ (Sane s' ∨ Overfull s'))
    ⟨hpc, .inl hl⟩ ?_
  rintro _ s₁ a s₂ e ⟨hpc₁, hstate⟩ hu hs
  have hpc₂ : s₂.loop = .wakerRearm rest := by
    rw [(step_sameExit hu hs).loop (by simp [hpc₁]), hpc₁]
  rcases hstate with hl₁ | ho₁
  · exact ⟨hpc₂, hl₁.unwind_rearm hpc₁ hu hs⟩
  · exact ⟨hpc₂, .inr (ho₁.unwind hpc₁ hu hs)⟩

/-- The loop goes on to another state, and nobody has called `exit` meanwhile. -/
structure Goes (s s' : State θ π κ) : Prop where
  run : ∃ h, Run step Serves s h s'
  sane : Sane s'
  exiting : s'.exiting = s.exiting

theorem Goes.trans {s₁ : State θ π κ} (h : Goes s s₁) (h' : Goes s₁ s') : Goes s s' := by
  obtain ⟨e, hrun⟩ := h.run
  obtain ⟨e', hrun'⟩ := h'.run
  exact ⟨⟨e ++ e', hrun.trans hrun'⟩, h'.sane, h'.exiting.trans h.exiting⟩

theorem Goes.loop (hl : Sane s) (hout : s.loop ≠ .outside)
    (hserved : s.loop.Served s.sq.length ans) (hwait : s.loop = .wait → ans = .ok)
    (hs : step s (.loop ans) = some (s', e)) (hexit : s'.exiting = s.exiting) : Goes s s' :=
  ⟨⟨e, .single (show Serves s (.loop ans) from ⟨hout, hserved, hwait⟩) hs⟩, hl.goOn hserved hs,
    hexit⟩

theorem Goes.leaves (hl : Sane s) (hpc : s.loop ≠ .init ∧ ∀ rest, s.loop ≠ .wakerRearm rest)
    (hleaves : Leaves s s') : Goes s s' := by
  obtain ⟨h, hrun⟩ := hleaves
  exact ⟨⟨h, hrun.mono fun _ _ => unwinds_serves⟩, hl.of_leaves hpc ⟨h, hrun⟩,
    (leaves_sameExit ⟨h, hrun⟩).exiting⟩

/-- Where the loop comes round: it is at the exit check, or the ring was full. -/
inductive Round (s : State θ π κ) : Prop where
  | check (hl : Sane s) (hpc : s.loop = .check)
  | overfull (hc : Calm s) (ho : Overfull s) (rest : List (Ready κ))
      (hpc : s.loop = .wakerRearm rest) (hno : ∀ r ∈ rest, r.callback ≠ .waker)

def Comes (s : State θ π κ) : Prop :=
  ∃ h s', Run step Serves s h s' ∧ Round s' ∧ s'.exiting = s.exiting

theorem Comes.of_goes (hg : Goes s s') (hc : Comes s') : Comes s := by
  obtain ⟨e, hrun⟩ := hg.run
  obtain ⟨h, s'', hrun', hround, hexit⟩ := hc
  exact ⟨e ++ h, s'', hrun.trans hrun', hround, hexit.trans hg.exiting⟩

theorem check_comes (hl : Sane s) (hpc : s.loop = .check) : Comes s :=
  ⟨[], s, .start, .check hl hpc, rfl⟩

/-- The waker is being armed again. -/
theorem rearm_comes (hl : Sane s) (hpc : s.loop = .wakerRearm rest)
    (hnext : ∀ s' : State θ π κ, Sane s' → s'.loop = .dispatch rest → Comes s') : Comes s := by
  have hc := hl.calm
  have hadds : (s.call .loop).Adds := by
    obtain ⟨_, -, hi⟩ := hl.cycle
    have hcontrol := hi.control
    rw [hpc] at hcontrol
    constructor
    · intro hidle
      rw [hidle] at hcontrol
      exact hcontrol
    · intro hwake
      rw [hwake] at hcontrol
      exact hcontrol
  obtain ⟨s₁, hleaves, -, -, hret⟩ := call_gets_out hc.manned hc.stuck .loop
  obtain ⟨ret, hret⟩ := hret hadds
  have hsame := leaves_sameExit hleaves
  have hpc₁ : s₁.loop = .wakerRearm rest := by
    rw [hsame.loop (by simp [hpc]), hpc]
  obtain ⟨h, hrun⟩ := hleaves
  have hrun' : Run step Serves s h s₁ := hrun.mono fun _ _ => unwinds_serves
  rcases hl.of_leaves_rearm hpc ⟨h, hrun⟩ with hl₁ | ho₁
  · have hgoes : Goes s s₁ := ⟨⟨h, hrun'⟩, hl₁, hsame.exiting⟩
    obtain ⟨_, -, hi⟩ := hl₁.cycle
    have hcontrol := hi.control
    rw [hpc₁, hret] at hcontrol
    cases ret with
    | error err => exact hcontrol.elim
    | ok tok =>
      have hs : step s₁ (.loop .ok) =
          some ({ s₁ with loop := .dispatch rest }.setCall .loop .idle, []) := by
        simp [step, loopStep, hpc₁, hret]
      have hgoes' := Goes.loop hl₁ (by simp [hpc₁]) (by simp [hpc₁, LoopPc.Served]) (fun _ => rfl)
        hs rfl
      exact .of_goes (hgoes.trans hgoes') (hnext _ hgoes'.sane rfl)
  · have halone := hl.alone
    rw [hpc] at halone
    exact ⟨h, s₁, hrun', .overfull (hc.of_leaves ⟨h, hrun⟩) ho₁ rest hpc₁ halone, hsame.exiting⟩

/-- The waker's callback is about to read the eventfd. -/
theorem read_comes (hl : Sane s) (hpc : s.loop = .wakerRead rest)
    (hnext : ∀ s' : State θ π κ, Sane s' → s'.loop = .dispatch rest → Comes s') : Comes s := by
  have hcounter : 1 ≤ s.counter := by
    obtain ⟨h, hrun⟩ := hl
    exact run_readable hrun hpc
  have hs : step s (.loop .ok) = some ({ s with counter := 0, loop := .wakerRearm rest }.setCall
      .loop (.lockSubmission .pollWaker (some .waker)), []) := by
    simp only [step, loopStep, hpc]
    exact if_neg (by omega)
  have hgoes := Goes.loop hl (by simp [hpc]) (by simp [hpc, LoopPc.Served]) (fun _ => rfl) hs rfl
  exact .of_goes hgoes (rearm_comes hgoes.sane rfl hnext)

/-- A batch, by induction on what is left of it. -/
theorem dispatch_comes {ready : List (Ready κ)} (hl : Sane s) (hpc : s.loop = .dispatch ready) :
    Comes s := by
  have hout : s.loop ≠ .outside := by simp [hpc]
  have hserved : ∀ ans, s.loop.Served s.sq.length ans := by simp [hpc, LoopPc.Served]
  induction ready generalizing s with
  | nil =>
    have hs : step s (.loop .ok) = some ({ s with loop := .check }, []) := by
      simp [step, loopStep, hpc]
    have hgoes := Goes.loop hl hout (hserved _) (fun _ => rfl) hs rfl
    exact .of_goes hgoes (check_comes hgoes.sane rfl)
  | cons r ready ih =>
    have hnext : ∀ s' : State θ π κ, Sane s' → s'.loop = .dispatch ready → Comes s' :=
      fun s' hl' hpc' => ih hl' hpc' (by simp [hpc']) (by simp [hpc', LoopPc.Served])
    cases hcb : r.callback with
    | user k =>
      have hidle : s.call .loop = .idle := hl.calm.attends (by rw [hpc]; exact id)
      have hs : step s (.loop .ok) = some ({ s with loop := .callback ready }, [.invoked r]) := by
        simp [step, loopStep, hpc, invokeStep, hcb]
      have hgoes := Goes.loop hl hout (hserved _) (fun _ => rfl) hs rfl
      have hs' : step { s with loop := .callback ready } (.loop .ok) =
          some ({ s with loop := .dispatch ready }, []) := by
        simp [step, loopStep, hidle, Call.isIdle]
      have hgoes' := Goes.loop hgoes.sane (by simp) trivial (fun _ => rfl) hs' rfl
      exact .of_goes (hgoes.trans hgoes') (hnext _ hgoes'.sane rfl)
    | waker =>
      obtain ⟨v, hv⟩ : ∃ v, r.ret = .ok v := by
        obtain ⟨h, -, hi⟩ := hl.cycle
        refine hi.ready r ?_ hcb
        rw [hpc]
        exact List.mem_cons_self
      have hs : step s (.loop .ok) = some ({ s with loop := .wakerRead ready }, [.invoked r]) := by
        simp [step, loopStep, hpc, invokeStep, hcb, hv]
      have hgoes := Goes.loop hl hout (hserved _) (fun _ => rfl) hs rfl
      exact .of_goes hgoes (read_comes hgoes.sane rfl hnext)

/-- The loop is inside a user's callback, which returns. -/
theorem callback_dispatches (hl : Sane s) (hpc : s.loop = .callback rest) :
    ∃ s', Goes s s' ∧ s'.loop = .dispatch rest := by
  have hc := hl.calm
  obtain ⟨s₁, hleaves, -, hinside, -⟩ := call_gets_out hc.manned hc.stuck .loop
  have hgoes := Goes.leaves hl (by simp [hpc]) hleaves
  have hpc₁ : s₁.loop = .callback rest := by
    rw [(leaves_sameExit hleaves).loop (by simp [hpc]), hpc]
  have hidle : ∀ s₂ : State θ π κ, Sane s₂ → s₂.loop = .callback rest → s₂.call .loop = .idle →
      Goes s₂ { s₂ with loop := .dispatch rest } := by
    intro s₂ hl₂ hpc₂ hcall
    have hs : step s₂ (.loop .ok) = some ({ s₂ with loop := .dispatch rest }, []) := by
      simp [step, loopStep, hpc₂, hcall, Call.isIdle]
    exact .loop hl₂ (by simp [hpc₂]) (by simp [hpc₂, LoopPc.Served]) (fun _ => rfl) hs rfl
  cases hcall : s₁.call .loop with
  | idle => exact ⟨_, hgoes.trans (hidle s₁ hgoes.sane hpc₁ hcall), rfl⟩
  | returned ret =>
    have hs : step s₁ (.finish .loop) = some (s₁.setCall .loop .idle, []) := by
      simp [step, finishStep, State.mayCall, hpc₁, LoopPc.inCallback, hcall]
    have hl₂ := hgoes.sane.next (a := .finish .loop) ⟨⟨trivial, trivial⟩, trivial⟩ hs
    have hfinish : Goes s₁ (s₁.setCall .loop .idle) :=
      ⟨⟨_, .single (show Serves s₁ (.finish .loop) from rfl) hs⟩, hl₂, rfl⟩
    exact ⟨_, hgoes.trans (hfinish.trans (hidle _ hl₂ hpc₁ (by simp))), rfl⟩
  | _ => simp [hcall, Call.Inside] at hinside

theorem collect_dispatches {n : Nat} {ready : List (Ready κ)} (hl : Sane s)
    (hpc : s.loop = .collect n ready) : ∃ s' ready', Goes s s' ∧ s'.loop = .dispatch ready' := by
  have hbatch : n ≤ s.cq.length := by
    have hbatch := hl.calm.manned.batch
    rwa [hpc] at hbatch
  obtain ⟨s', hleaves, -, -, -, ready', hpc'⟩ := collect_leaves hpc hbatch
  exact ⟨s', ready', .leaves hl (by simp [hpc]) hleaves, hpc'⟩

/-- A mutex that the loop waits for becomes free. -/
theorem goes_freed (hl : Sane s) (hpc : (s.loop ≠ .init ∧ ∀ rest, s.loop ≠ .wakerRearm rest) ∧
    ∀ n ready, s.loop ≠ .collect n ready) :
    ∃ s', Goes s s' ∧ Unlocked s' ∧ s'.loop = s.loop := by
  have hc := hl.calm
  obtain ⟨s', hleaves, hfree, -⟩ := mutexes_freed hc.manned hc.stuck
  exact ⟨s', .leaves hl hpc.1 hleaves, hfree, (leaves_sameExit hleaves).loop hpc.2⟩

theorem lock_collects {n : Nat} (hl : Sane s) (hpc : s.loop = .lock n) :
    ∃ s', Goes s s' ∧ s'.loop = .collect n [] := by
  obtain ⟨s₁, hgoes, hfree, hpc₁⟩ := goes_freed hl (by simp [hpc])
  rw [hpc] at hpc₁
  have hs : step s₁ (.loop .ok) =
      some ({ s₁ with mCallbacks := some .loop, loop := .collect n [] }, []) := by
    simp [step, loopStep, hpc₁, hfree.callbacks]
  have hgoes' := Goes.loop hgoes.sane (by simp [hpc₁]) (by simp [hpc₁, LoopPc.Served])
    (fun _ => rfl) hs rfl
  exact ⟨_, hgoes.trans hgoes', rfl⟩

theorem peek_collects (hl : Sane s) (hpc : s.loop = .peek) :
    ∃ s', Goes s s' ∧ s'.loop = .collect (min batchSize s.cq.length) [] := by
  have hs : step s (.loop .ok) =
      some ({ s with loop := .lock (min batchSize s.cq.length) }, []) := by
    simp [step, loopStep, hpc]
  have hgoes := Goes.loop hl (by simp [hpc]) (by simp [hpc, LoopPc.Served]) (fun _ => rfl) hs rfl
  obtain ⟨s', hgoes', hpc'⟩ := lock_collects hgoes.sane rfl
  exact ⟨s', hgoes.trans hgoes', hpc'⟩

/-- The loop is blocked, and there is a CQE. -/
theorem woken_collects (hl : Sane s) (hpc : s.loop = .wait) (hcq : s.cq ≠ []) :
    ∃ s' n, Goes s s' ∧ s'.loop = .collect (n + 1) [] := by
  have hs : step s (.loop .ok) = some ({ s with loop := .peek }, []) := by
    simp [step, loopStep, hpc, hcq]
  have hgoes := Goes.loop hl (by simp [hpc]) (by simp [hpc, LoopPc.Served]) (fun _ => rfl) hs rfl
  obtain ⟨s', hgoes', hpc'⟩ := peek_collects hgoes.sane rfl
  obtain ⟨n, hn⟩ : ∃ n, min batchSize s.cq.length = n + 1 := by
    refine Nat.exists_eq_succ_of_ne_zero ?_
    have hpos := List.length_pos_iff.mpr hcq
    simp only [batchSize]
    omega
  rw [hn] at hpc'
  exact ⟨s', n, hgoes.trans hgoes', hpc'⟩

theorem collect_comes {n : Nat} {ready : List (Ready κ)} (hl : Sane s)
    (hpc : s.loop = .collect n ready) : Comes s := by
  obtain ⟨s', ready', hgoes, hpc'⟩ := collect_dispatches hl hpc
  exact .of_goes hgoes (dispatch_comes hgoes.sane hpc')

/-- The loop is blocked: the poll completes, if nothing else has. -/
theorem wait_comes (hl : Sane s) (hpc : s.loop = .wait) : Comes s := by
  have hwoken : ∀ s' : State θ π κ, Sane s' → s'.loop = .wait → s'.cq ≠ [] → Comes s' := by
    intro s' hl' hpc' hcq
    obtain ⟨s'', n, hgoes, hpc''⟩ := woken_collects hl' hpc' hcq
    exact .of_goes hgoes (collect_comes hgoes.sane hpc'')
  by_cases hcq : s.cq = []
  · obtain ⟨h, hrun⟩ := hl
    obtain ⟨hpolls, hcounter⟩ := run_woken hrun hpc hcq
    obtain ⟨q, hq⟩ : ∃ q, q ∈ polls s.inflight := by
      rw [← List.length_pos_iff_exists_mem]
      omega
    obtain ⟨hq, hop⟩ := mem_polls.mp hq
    obtain ⟨i, hi⟩ := List.mem_iff_getElem?.mp hq
    have hs : step s (.post i 1) = some ({ s with
        inflight := s.inflight.eraseIdx i, cq := s.cq ++ [⟨q.userData, 1⟩] },
        [.posted ⟨q.userData, 1⟩]) := by
      simp [step, postStep, hi]
    have hl' := Sane.next (a := .post i 1) ⟨h, hrun⟩
      ⟨⟨fun _ => ⟨hcounter, by decide⟩, trivial⟩, trivial⟩ hs
    have hserves : Serves s (.post i 1) := ⟨by simp [hi, hop], hcounter, by decide⟩
    have hgoes : Goes s _ := ⟨⟨_, .single hserves hs⟩, hl', rfl⟩
    exact .of_goes hgoes (hwoken _ hl' hpc (by simp))
  · exact hwoken s hl hpc hcq

theorem submit_waits (hl : Sane s) (hpc : s.loop = .submit) :
    ∃ s', Goes s s' ∧ s'.loop = .wait ∧ s'.sq = [] := by
  obtain ⟨s₁, hgoes, hfree, hpc₁⟩ := goes_freed hl (by simp [hpc])
  rw [hpc] at hpc₁
  have hs : step s₁ (.loop (.submitted s₁.sq.length)) = some ({ s₁ with
      sq := s₁.sq.drop s₁.sq.length
      inflight := s₁.inflight ++ s₁.sq.take s₁.sq.length
      loop := .wait }, []) := by
    simp [step, loopStep, hpc₁, hfree.submission]
  have hgoes' := Goes.loop hgoes.sane (by simp [hpc₁]) (by simp [hpc₁, LoopPc.Served])
    (by simp [hpc₁]) hs rfl
  exact ⟨_, hgoes.trans hgoes', rfl, List.drop_length⟩

/-- Wherever the loop is inside `run`, it comes round. -/
theorem loop_comes_round (hl : Sane s) (hin : s.loop ≠ .init ∧ s.loop ≠ .outside) : Comes s := by
  cases hpc : s.loop with
  | init => exact absurd hpc hin.1
  | outside => exact absurd hpc hin.2
  | check => exact check_comes hl hpc
  | submit =>
    obtain ⟨s', hgoes, hpc', -⟩ := submit_waits hl hpc
    exact .of_goes hgoes (wait_comes hgoes.sane hpc')
  | wait => exact wait_comes hl hpc
  | peek =>
    obtain ⟨s', hgoes, hpc'⟩ := peek_collects hl hpc
    exact .of_goes hgoes (collect_comes hgoes.sane hpc')
  | lock n =>
    obtain ⟨s', hgoes, hpc'⟩ := lock_collects hl hpc
    exact .of_goes hgoes (collect_comes hgoes.sane hpc')
  | collect n ready => exact collect_comes hl hpc
  | dispatch ready => exact dispatch_comes hl hpc
  | callback rest =>
    obtain ⟨s', hgoes, hpc'⟩ := callback_dispatches hl hpc
    exact .of_goes hgoes (dispatch_comes hgoes.sane hpc')
  | wakerRead rest => exact read_comes hl hpc fun s' hl' hpc' => dispatch_comes hl' hpc'
  | wakerRearm rest => exact rearm_comes hl hpc fun s' hl' hpc' => dispatch_comes hl' hpc'
  | wakerExit rest =>
    obtain ⟨_, -, hi⟩ := hl.cycle
    have hcontrol := hi.control
    rw [hpc] at hcontrol
    exact hcontrol.elim

end Sane

end UringContext
