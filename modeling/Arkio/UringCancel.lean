import Arkio.UringRollback

/-!
# Cancelling a callback

`cancel` erases the token from the map and does nothing else. The event loop
without one token is the same machine with the token's callback taken out of the
map and of the batch, so erasing it is invisible to all others: every run after
`cancel` is a run without it, and the other way around. What `cancel` cannot
reach is a callback that the loop has collected already.
-/
namespace UringContext

open Bindings LabelledMachine

variable {θ π κ : Type}

/-- The callbacks of the batch that belong to other tokens. -/
def keepOthers (tok : Nat) (ready : List (Ready κ)) : List (Ready κ) :=
  ready.filter (·.token ≠ tok)

def LoopPc.without (tok : Nat) : LoopPc κ → LoopPc κ
  | .collect n ready => .collect n (keepOthers tok ready)
  | .dispatch ready => .dispatch (keepOthers tok ready)
  | .callback rest => .callback (keepOthers tok rest)
  | .wakerRead rest => .wakerRead (keepOthers tok rest)
  | .wakerRearm rest => .wakerRearm (keepOthers tok rest)
  | .wakerExit rest => .wakerExit (keepOthers tok rest)
  | pc => pc

/-- What the other tokens see of an event. -/
def Event.others (tok : Nat) : Event π κ → Option (Event π κ)
  | .invoked r => if r.token = tok then none else some (.invoked r)
  | .collected c cb => some (.collected c (if c.userData = tok then none else cb))
  | x => some x

/-- A history as the other tokens see it. -/
def others (tok : Nat) (h : History π κ) : History π κ := h.filterMap (Event.others tok)

@[simp] theorem others_append (tok : Nat) (h h' : History π κ) :
    others tok (h ++ h') = others tok h ++ others tok h' := List.filterMap_append

theorem others_invoked {tok : Nat} {r : Ready κ} (hr : r.token = tok) (h : History π κ) :
    others tok (.invoked r :: h) = others tok h :=
  List.filterMap_cons_none (if_pos hr)

theorem others_invoked_of_ne {tok : Nat} {r : Ready κ} (hr : r.token ≠ tok) (h : History π κ) :
    others tok (.invoked r :: h) = .invoked r :: others tok h :=
  List.filterMap_cons_some (if_neg hr)

theorem others_others (tok : Nat) (h : History π κ) : others tok (others tok h) = others tok h := by
  rw [others, others, List.filterMap_filterMap]
  refine List.filterMap_congr fun x _ => ?_
  cases x with
  | invoked r => by_cases hr : r.token = tok <;> simp [Event.others, hr]
  | collected c cb => by_cases hc : c.userData = tok <;> simp [Event.others, hc]
  | _ => rfl

theorem keepOthers_keepOthers (tok : Nat) (l : List (Ready κ)) :
    keepOthers tok (keepOthers tok l) = keepOthers tok l := by
  simp [keepOthers]

theorem keepOthers_eq_self {tok : Nat} {l : List (Ready κ)} (h : ∀ r ∈ l, r.token ≠ tok) :
    keepOthers tok l = l :=
  List.filter_eq_self.mpr (by simpa using h)

theorem LoopPc.without_eq_self {tok : Nat} {pc : LoopPc κ}
    (h : ∀ r ∈ pc.pending, r.token ≠ tok) : pc.without tok = pc := by
  cases pc with
  | collect n ready => exact congrArg (LoopPc.collect n) (keepOthers_eq_self h)
  | dispatch ready => exact congrArg LoopPc.dispatch (keepOthers_eq_self h)
  | callback rest => exact congrArg LoopPc.callback (keepOthers_eq_self h)
  | wakerRead rest => exact congrArg LoopPc.wakerRead (keepOthers_eq_self h)
  | wakerRearm rest => exact congrArg LoopPc.wakerRearm (keepOthers_eq_self h)
  | wakerExit rest => exact congrArg LoopPc.wakerExit (keepOthers_eq_self h)
  | _ => rfl

@[simp] theorem LoopPc.without_inited (tok : Nat) (pc : LoopPc κ) :
    (pc.without tok).inited = pc.inited := by
  cases pc <;> rfl

@[simp] theorem LoopPc.without_inCallback (tok : Nat) (pc : LoopPc κ) :
    (pc.without tok).inCallback = pc.inCallback := by
  cases pc <;> rfl

theorem LoopPc.without_without (tok : Nat) (pc : LoopPc κ) :
    (pc.without tok).without tok = pc.without tok := by
  cases pc <;> simp [LoopPc.without, keepOthers_keepOthers]

/-- The event loop without the callback of one token. -/
@[simps!] def State.without (s : State θ π κ) (tok : Nat) : State θ π κ :=
  { s.erase tok with loop := s.loop.without tok }

@[simp] theorem State.without_mayCall (s : State θ π κ) (tok : Nat) (t : Thread θ) :
    (s.without tok).mayCall t = s.mayCall t := by
  cases t <;> simp [State.mayCall]

theorem State.without_without (s : State θ π κ) (tok : Nat) :
    (s.without tok).without tok = s.without tok := by
  simp [State.without, State.erase, LoopPc.without_without]

/-- Erasing a token that is in no batch takes all of it out. -/
theorem State.without_eq_erase {s : State θ π κ} {tok : Nat}
    (h : ∀ r ∈ s.loop.pending, r.token ≠ tok) : s.without tok = s.erase tok := by
  rw [State.without, LoopPc.without_eq_self h]
  rfl

/-- The outcome of a step, as the other tokens see it. -/
def Outcome.without (tok : Nat) (o : Outcome θ π κ) : Outcome θ π κ :=
  o.map fun p => (p.1.without tok, others tok p.2)

/-- Neither outcome of a test that does not look at the token depends on it. -/
theorem Outcome.without_ite {p : Prop} [Decidable p] {tok : Nat} {o o' x x' : Outcome θ π κ}
    (hx : x = o.without tok) (hx' : x' = o'.without tok) :
    (if p then x else x') = (if p then o else o').without tok := by
  rw [hx, hx']
  exact (apply_ite (Outcome.without tok) p o o').symm

/-- Erasing a token from the map commutes with every update of another's entry. -/
theorem update_erase_comm {callbacks : Nat → Option (Callback κ)} {tok n : Nat}
    {slot : Option (Callback κ)} (h : n = tok → slot = none) :
    Function.update (Function.update callbacks n slot) tok none =
      Function.update (Function.update callbacks tok none) n slot := by
  by_cases hn : n = tok
  · rw [hn, h hn]
  · exact Function.update_comm hn ..

theorem postStep_without (s : State θ π κ) (tok i : Nat) (res : Int) :
    postStep (s.without tok) i res = Outcome.without tok (postStep s i res) := by
  unfold postStep
  simp only [State.without_inflight]
  cases s.inflight[i]? <;> rfl

theorem collectStep_without (s : State θ π κ) (tok : Nat) (c : Cqe) (cq : List Cqe) (n : Nat)
    (ready : List (Ready κ)) :
    some (collectStep (s.without tok) c cq n (keepOthers tok ready)) =
      Outcome.without tok (some (collectStep s c cq n ready)) := by
  unfold collectStep
  by_cases hc : c.userData = tok
  · simp only [State.without_callbacks, hc, Function.update_self]
    cases s.callbacks tok <;>
      simp [Outcome.without, others, Event.others, hc, State.without, State.erase,
        LoopPc.without, keepOthers]
  · simp only [State.without_callbacks, Function.update_of_ne hc]
    cases s.callbacks c.userData <;>
      simp [Outcome.without, others, Event.others, hc, State.without, State.erase,
        LoopPc.without, keepOthers, update_erase_comm (fun _ => rfl)]

theorem checkStep_without (s : State θ π κ) (tok : Nat) :
    some (checkStep (s.without tok)) = Outcome.without tok (some (checkStep s)) := by
  unfold checkStep
  simp only [State.without_exiting, State.without_exitingError]
  split
  · split <;> rfl
  · rfl

/-- A token that was added is never taken again, so nobody is about to add it. -/
theorem Routing.not_takes {h : History π κ} {s : State θ π κ} (hi : Routing h s) {tok : Nat}
    {cb : Callback κ} (hadd : .added tok cb ∈ h) (t : Thread θ) : ¬(s.call t).Takes tok :=
  fun ht => (hi.taken t tok ht).2 cb hadd

/-- What is in the batch has left the map. -/
theorem Routing.pending_vacated {h : History π κ} {s : State θ π κ} (hi : Routing h s)
    {r : Ready κ} (hr : r ∈ s.loop.pending) : s.callbacks r.token = none := by
  obtain ⟨c, cb, hc, rfl⟩ := hi.exists_collected (List.mem_append_right _ hr)
  exact hi.vacated _ (List.mem_map_of_mem (mem_collected.mpr ⟨_, hc⟩))

section Steps

variable [DecidableEq θ]

theorem callStep_without {s : State θ π κ} {tok : Nat} (t : Thread θ) (ans : Answer)
    (hins : ∀ cb, s.call t ≠ .insert tok cb) :
    callStep (s.without tok) t ans = Outcome.without tok (callStep s t ans) := by
  unfold callStep
  cases hc : s.call t with
  | lockSubmission op cb =>
    simp only [State.without_call, State.without_mSubmission, hc]
    exact Outcome.without_ite rfl rfl
  | lockCallbacks op cb =>
    simp only [State.without_call, State.without_mCallbacks, hc]
    exact Outcome.without_ite rfl rfl
  | getSqe op cb =>
    simp only [State.without_call, State.without_sq, hc]
    exact Outcome.without_ite rfl rfl
  | wake n cb =>
    simp only [State.without_call, hc]
    cases ans <;> cases cb <;> rfl
  | insert n cb =>
    have hne : n ≠ tok := by
      rintro rfl
      exact hins cb hc
    simp only [State.without_call, hc, Outcome.without, Option.map_some, others]
    simp [State.without, State.erase, State.setCall, State.unlock, Event.others,
      update_erase_comm (fun he => absurd he hne)]
  | cancel n cb err =>
    simp only [State.without_call, State.without_mCallbacks, hc]
    refine Outcome.without_ite ?_ rfl
    simp [Outcome.without, others, State.without, State.erase, State.setCall, State.unlock,
      Event.others, update_erase_comm (fun _ => rfl)]
  | exitWake =>
    simp only [State.without_call, hc]
    cases ans <;> rfl
  | _ =>
    simp only [State.without_call, hc]
    rfl

theorem enterStep_without (s : State θ π κ) (tok : Nat) (t : Thread θ) (entry : Entry π κ) :
    enterStep (s.without tok) t entry = Outcome.without tok (enterStep s t entry) := by
  unfold enterStep
  simp only [State.without_call, State.without_mayCall]
  refine Outcome.without_ite ?_ rfl
  cases entry with
  | addSqe op cb => rfl
  | cancel n =>
    simp only [State.without_mCallbacks]
    refine Outcome.without_ite ?_ rfl
    simp [Outcome.without, others, State.without, State.erase, Event.others,
      update_erase_comm (fun _ => rfl)]
  | wake ans => cases ans <;> rfl
  | exit err => rfl

theorem finishStep_without (s : State θ π κ) (tok : Nat) (t : Thread θ) :
    finishStep (s.without tok) t = Outcome.without tok (finishStep s t) := by
  unfold finishStep
  simp only [State.without_call, State.without_mayCall]
  refine Outcome.without_ite ?_ rfl
  cases s.call t <;> rfl

theorem invokeStep_without (s : State θ π κ) {tok : Nat} {r : Ready κ} (rest : List (Ready κ))
    (hr : r.token ≠ tok) :
    some (invokeStep (s.without tok) r (keepOthers tok rest)) =
      Outcome.without tok (some (invokeStep s r rest)) := by
  unfold invokeStep
  simp only [Outcome.without, Option.map_some]
  cases hcb : r.callback with
  | user k =>
    simp only [others_invoked_of_ne hr]
    rfl
  | waker =>
    cases hret : r.ret with
    | ok v =>
      simp only [others_invoked_of_ne hr]
      rfl
    | error err =>
      simp only [others_invoked_of_ne hr]
      rfl

/-- The loop's own steps, unless it is about to start the token's callback. -/
theorem loopStep_without {s : State θ π κ} {tok : Nat} (ans : Answer)
    (hdispatch : ∀ r rest, s.loop = .dispatch (r :: rest) → r.token ≠ tok) :
    loopStep (s.without tok) ans = Outcome.without tok (loopStep s ans) := by
  unfold loopStep
  cases hpc : s.loop with
  | init =>
    simp only [State.without_loop, State.without_call, hpc, LoopPc.without]
    split <;> rfl
  | outside =>
    simp only [State.without_loop, hpc, LoopPc.without]
    rfl
  | check =>
    simp only [State.without_loop, hpc, LoopPc.without]
    exact checkStep_without s tok
  | submit =>
    simp only [State.without_loop, State.without_mSubmission, State.without_sq, hpc,
      LoopPc.without]
    cases ans with
    | submitted n => exact Outcome.without_ite rfl rfl
    | _ => rfl
  | wait =>
    simp only [State.without_loop, State.without_cq, hpc, LoopPc.without]
    cases ans with
    | ok => exact Outcome.without_ite rfl rfl
    | _ => rfl
  | peek =>
    simp only [State.without_loop, hpc, LoopPc.without]
    rfl
  | lock n =>
    simp only [State.without_loop, State.without_mCallbacks, hpc, LoopPc.without]
    exact Outcome.without_ite rfl rfl
  | collect n ready =>
    simp only [State.without_loop, State.without_cq, hpc, LoopPc.without]
    cases n with
    | zero => rfl
    | succ n =>
      cases s.cq with
      | nil => rfl
      | cons c cq => exact collectStep_without s tok c cq n ready
  | dispatch ready =>
    simp only [State.without_loop, hpc, LoopPc.without]
    cases ready with
    | nil => rfl
    | cons r rest =>
      have hr : r.token ≠ tok := hdispatch r rest hpc
      have hkeep : keepOthers tok (r :: rest) = r :: keepOthers tok rest :=
        List.filter_cons_of_pos (by simpa using hr)
      simp only [hkeep]
      exact invokeStep_without s rest hr
  | callback rest =>
    simp only [State.without_loop, State.without_call, hpc, LoopPc.without]
    exact Outcome.without_ite rfl rfl
  | wakerRead rest =>
    simp only [State.without_loop, State.without_counter, hpc, LoopPc.without]
    cases ans with
    | ok => exact Outcome.without_ite rfl rfl
    | _ => rfl
  | wakerRearm rest =>
    simp only [State.without_loop, State.without_call, hpc, LoopPc.without]
    split <;> rfl
  | wakerExit rest =>
    simp only [State.without_loop, State.without_call, hpc, LoopPc.without]
    exact Outcome.without_ite rfl rfl

/-- The machine without a token takes the same steps, as long as nobody registers
the token and the loop does not start its callback. -/
theorem step_without {s : State θ π κ} {tok : Nat} (a : Action θ π κ)
    (hins : ∀ t cb, s.call t ≠ .insert tok cb)
    (hdispatch : ∀ ans, a = .loop ans → ∀ r rest, s.loop = .dispatch (r :: rest) →
      r.token ≠ tok) :
    step (s.without tok) a = Outcome.without tok (step s a) := by
  cases a with
  | enter t entry => exact enterStep_without s tok t entry
  | call t ans => exact callStep_without t ans (hins t)
  | finish t => exact finishStep_without s tok t
  | loop ans => exact loopStep_without ans (hdispatch ans rfl)
  | post i res => exact postStep_without s tok i res

/-- `cancel` waits for the mutex of the map, and erases the token. -/
theorem cancel_cases {s s' : State θ π κ} {t : Thread θ} {tok : Nat} {e : History π κ}
    (h : step s (.enter t (.cancel tok)) = some (s', e)) :
    s.mCallbacks = none ∧ s' = s.erase tok ∧ e = [.cancelled tok] := by
  simp only [step, enterStep, Option.ite_none_right_eq_some, Option.some.injEq,
    Prod.mk.injEq] at h
  obtain ⟨-, hfree, rfl, rfl⟩ := h
  exact ⟨hfree, rfl, rfl⟩

/-- The token's callback is nowhere, and did not start. -/
structure Gone (tok : Nat) (f : History π κ) (s : State θ π κ) : Prop where
  map : s.callbacks tok = none
  batch : ∀ r ∈ s.loop.pending, r.token ≠ tok
  silent : ∀ r, .invoked r ∈ f → r.token ≠ tok

theorem Change.gone {f e : History π κ} {s s' : State θ π κ} {tok : Nat} (hc : Change s s' e)
    (htakes : ∀ t, ¬(s.call t).Takes tok) (hg : Gone tok f s) : Gone tok (f ++ e) s' := by
  have hsilent : ∀ x, (∀ r, x ≠ .invoked r) → ∀ r, .invoked r ∈ f ++ [x] → r.token ≠ tok := by
    intro x hx r hr
    rcases List.mem_append.mp hr with hr | hr
    · exact hg.silent r hr
    · exact absurd (List.mem_singleton.mp hr).symm (hx r)
  have herase : ∀ n, Function.update s.callbacks n none tok = none := by
    intro n
    rw [Function.update_apply, hg.map, ite_self]
  cases hc with
  | quiet _ he hsame =>
    refine ⟨by rw [hsame.callbacks]; exact hg.map, by rw [hsame.pending]; exact hg.batch, ?_⟩
    intro r hr
    rw [mem_append_quiet he (by simp [Event.Quiet])] at hr
    exact hg.silent r hr
  | took t op cb hcall hroom hs =>
    subst hs
    exact ⟨hg.map, hg.batch, hsilent _ (by simp)⟩
  | inserted t n cb hcall hs =>
    subst hs
    have hne : tok ≠ n := by
      rintro rfl
      exact htakes t (by simp [hcall, Call.Takes])
    refine ⟨?_, hg.batch, hsilent _ (by simp)⟩
    exact (Function.update_of_ne hne ..).trans hg.map
  | erased n hcallbacks hsq hinflight hcq hidx hpending hcalls =>
    refine ⟨?_, by rw [hpending]; exact hg.batch, hsilent _ (by simp)⟩
    rw [hcallbacks]
    exact herase n
  | submitted n hfree hpc hs =>
    subst hs
    exact ⟨hg.map, by simp [LoopPc.pending], by simpa using hg.silent⟩
  | posted i q res hq hs =>
    subst hs
    exact ⟨hg.map, hg.batch, hsilent _ (by simp)⟩
  | collected c cq n ready hcq hpc hs =>
    subst hs
    have hbatch := hg.batch
    rw [hpc] at hbatch
    refine ⟨herase c.userData, ?_, hsilent _ (by simp)⟩
    intro r hr
    rcases List.mem_append.mp hr with hr | hr
    · exact hbatch r hr
    · obtain ⟨cb, hcb, rfl⟩ := List.mem_map.mp hr
      rintro rfl
      rw [hg.map] at hcb
      cases hcb
  | invoked r rest e he hpc hpending hsq hinflight hcq hcallbacks hidx hcalls =>
    have hbatch := hg.batch
    rw [hpc] at hbatch
    refine ⟨by rw [hcallbacks]; exact hg.map, ?_, ?_⟩
    · rw [hpending]
      exact fun r' hr' => hbatch r' (List.mem_cons_of_mem r hr')
    · intro r' hr'
      rcases List.mem_append.mp hr' with hr' | hr'
      · exact hg.silent r' hr'
      rcases List.mem_cons.mp hr' with heq | hr'
      · obtain rfl := Event.invoked.inj heq
        exact hbatch r' List.mem_cons_self
      · exact absurd (he _ hr') (by simp [Event.Quiet])

/-- After `cancel`, the callback that was registered stays nowhere, unless it was in
the batch. -/
theorem Gone.of_run {h e f : History π κ} {s s' u : State θ π κ} {t : Thread θ} {tok : Nat}
    {cb : Callback κ} (hreach : Run step Always start h s)
    (hcancel : step s (.enter t (.cancel tok)) = some (s', e)) (hadd : .added tok cb ∈ h)
    (hbatch : ∀ r ∈ s.loop.pending, r.token ≠ tok) (hrun : Run step Always s' f u) :
    Gone tok f u := by
  have hreach' := hreach.next trivial hcancel
  obtain ⟨-, rfl, rfl⟩ := cancel_cases hcancel
  refine hrun.invariant_under (I := fun f u => Routing (h ++ [.cancelled tok] ++ f) u)
    (fun f u hu => Routing.of_run (hreach'.trans hu)) ⟨by simp, hbatch, by simp⟩ ?_
  intro f u a u' e hi hg _ hs
  have hadd' : .added tok cb ∈ h ++ [.cancelled tok] ++ f :=
    List.mem_append_left _ (List.mem_append_left _ hadd)
  exact (step_change hs).gone (hi.not_takes hadd') hg

theorem dispatch_starts {s s' : State θ π κ} {ans : Answer} {e : History π κ} {r : Ready κ}
    {rest : List (Ready κ)} (hpc : s.loop = .dispatch (r :: rest))
    (h : step s (.loop ans) = some (s', e)) : .invoked r ∈ e := by
  simp only [step, loopStep, hpc, Option.some.injEq] at h
  have hmem : .invoked r ∈ (invokeStep s r rest).2 := by
    unfold invokeStep
    repeat' split
    all_goals exact List.mem_cons_self
  rwa [h] at hmem

/-- The loop starts the callbacks of the token that are next, and all of them
return at once. -/
theorem exists_run_past {s : State θ π κ} {tok : Nat} (hat : Attends s)
    (huser : ∀ r ∈ s.loop.pending, r.token = tok → ∃ k, r.callback = .user k) :
    ∃ f u, Run step Always s f u ∧ others tok f = [] ∧ u.without tok = s.without tok ∧
      ∀ r rest, u.loop = .dispatch (r :: rest) → r.token ≠ tok := by
  by_cases hpc : ∃ ready, s.loop = .dispatch ready
  · obtain ⟨ready, hpc⟩ := hpc
    induction ready generalizing s with
    | nil => exact ⟨[], s, .start, rfl, rfl, by simp [hpc]⟩
    | cons r rest ih =>
      by_cases hr : r.token = tok
      · obtain ⟨k, hk⟩ := huser r (by simp [hpc, LoopPc.pending]) hr
        have hidle : s.call .loop = .idle := hat (by simp [hpc, LoopPc.Calls])
        have hinvoke : step s (.loop .ok) =
            some ({ s with loop := .callback rest }, [.invoked r]) := by
          simp [step, loopStep, hpc, invokeStep, hk]
        have hreturn : step { s with loop := .callback rest } (.loop .ok) =
            some ({ s with loop := .dispatch rest }, []) := by
          simp [step, loopStep, hidle, Call.isIdle]
        obtain ⟨f, u, hrun, hf, hu, hnext⟩ := ih (s := { s with loop := .dispatch rest })
          (fun _ => hidle)
          (fun r' hr' => huser r' (by rw [hpc]; exact List.mem_cons_of_mem r hr')) rfl
        refine ⟨_, u, ((Run.single trivial hinvoke).next trivial hreturn).trans hrun, ?_, ?_, hnext⟩
        · rw [List.append_nil, List.singleton_append, others_invoked hr, hf]
        · rw [hu]
          simp [State.without, State.erase, hpc, LoopPc.without, keepOthers, hr]
      · refine ⟨[], s, .start, rfl, rfl, fun r' rest' hnext => ?_⟩
        obtain rfl : r = r' := by
          rw [hpc] at hnext
          injection hnext with hcons
          exact (List.cons.inj hcons).1
        exact hr
  · refine ⟨[], s, .start, rfl, rfl, fun r rest hnext => ?_⟩
    exact absurd ⟨_, hnext⟩ hpc

/-- What `cancel(tok)` does in `s`, where it returns in `s'`. -/
structure CancelContract (h : History π κ) (s s' : State θ π κ) (tok : Nat) : Prop where
  erases : s' = s.erase tok
  /-- A callback that was registered under the token does not start any more,
  unless the loop has collected it already. -/
  final : ∀ cb, .added tok cb ∈ h → (∀ r ∈ s.loop.pending, r.token ≠ tok) →
    ∀ f u, Run step Always s' f u → ∀ r, .invoked r ∈ f → r.token ≠ tok
  /-- A callback in the batch comes too late: the call does nothing. -/
  late : (∃ r ∈ s.loop.pending, r.token = tok) → s' = s
  /-- Whatever happens to the other tokens in a run that does not start the
  callback also happens after the call. -/
  keeps : ∀ f u, Run step Always s f u → (∀ r, .invoked r ∈ f → r.token ≠ tok) →
    ∃ f' u', Run step Always s' f' u' ∧ others tok f' = others tok f ∧
      u'.without tok = u.without tok
  /-- Whatever happens to them after the call also happens without it, when the
  user's callback under the token returns at once. -/
  adds : s.callbacks tok ≠ some .waker → ∀ f u, Run step Always s' f u →
    ∃ f' u', Run step Always s f' u' ∧ others tok f' = others tok f ∧
      u'.without tok = u.without tok

/-- In a run, nobody registers a token again. -/
theorem Routing.step_without {h : History π κ} {s : State θ π κ} (hi : Routing h s) {tok : Nat}
    {cb : Callback κ} (hadd : .added tok cb ∈ h) (a : Action θ π κ)
    (hdispatch : ∀ ans, a = .loop ans → ∀ r rest, s.loop = .dispatch (r :: rest) →
      r.token ≠ tok) :
    UringContext.step (s.without tok) a = Outcome.without tok (UringContext.step s a) := by
  refine UringContext.step_without a (fun t cb' hcall => ?_) hdispatch
  exact hi.not_takes hadd t (by simp [hcall, Call.Takes])

/-- A run that does not start the token's callback is a run without the token. -/
theorem Run.without {h f : History π κ} {s u : State θ π κ} {tok : Nat} {cb : Callback κ}
    (hreach : Run step Always start h s) (hadd : .added tok cb ∈ h)
    (hrun : Run step Always s f u) (hsilent : ∀ r, .invoked r ∈ f → r.token ≠ tok) :
    Run step Always (s.without tok) (others tok f) (u.without tok) := by
  induction hrun with
  | start => exact .start
  | @next f e u u' a hrun hok hs ih =>
    have hi := Routing.of_run (hreach.trans hrun)
    have hdispatch : ∀ ans, a = .loop ans → ∀ r rest, u.loop = .dispatch (r :: rest) →
        r.token ≠ tok := by
      rintro ans rfl r rest hpc
      exact hsilent r (List.mem_append_right _ (dispatch_starts hpc hs))
    have hstep : step (u.without tok) a = some (u'.without tok, others tok e) := by
      rw [hi.step_without (List.mem_append_left _ hadd) a hdispatch, hs]
      rfl
    rw [others_append]
    exact (ih fun r hr => hsilent r (List.mem_append_left _ hr)).next trivial hstep

/-- A step without the token is what the other tokens see of some steps with it:
if the token's callback is next, it starts and returns first. -/
theorem exists_run_of_without {h e : History π κ} {s s' : State θ π κ} {tok : Nat} {k : κ}
    {a : Action θ π κ} (hreach : Run step Always start h s) (hadd : .added tok (.user k) ∈ h)
    (hs : step (s.without tok) a = some (s', e)) :
    ∃ f u, Run step Always s f u ∧ others tok f = e ∧ u.without tok = s' := by
  have huser : ∀ r ∈ s.loop.pending, r.token = tok → ∃ k, r.callback = .user k := by
    rintro r hr rfl
    have hi := Routing.of_run hreach
    exact ⟨k, hi.added_unique (hi.of_pending hr).1 hadd⟩
  obtain ⟨f, u, hrun, hf, hu, hnext⟩ := exists_run_past (Attends.of_run hreach) huser
  have hi := Routing.of_run (hreach.trans hrun)
  rw [← hu, hi.step_without (List.mem_append_left _ hadd) a (fun _ _ => hnext)] at hs
  obtain ⟨⟨u', e'⟩, hstep, heq⟩ := Option.map_eq_some_iff.mp hs
  simp only [Prod.mk.injEq] at heq
  refine ⟨f ++ e', u', hrun.next trivial hstep, ?_, heq.1⟩
  rw [others_append, hf, List.nil_append, heq.2]

/-- A run without the token is what the other tokens see of a run in which its
callback returns at once. -/
theorem Run.of_without {h f : History π κ} {s u : State θ π κ} {tok : Nat} {k : κ}
    (hreach : Run step Always start h s) (hadd : .added tok (.user k) ∈ h)
    (hrun : Run step Always (s.without tok) f u) :
    ∃ f' u', Run step Always s f' u' ∧ others tok f' = f ∧ u'.without tok = u := by
  induction hrun with
  | start => exact ⟨[], s, .start, rfl, rfl⟩
  | next hrun hok hs ih =>
    obtain ⟨f', u', hrun', rfl, rfl⟩ := ih
    obtain ⟨g, v, hanswer, rfl, rfl⟩ := exists_run_of_without (hreach.trans hrun')
      (List.mem_append_left _ hadd) hs
    exact ⟨f' ++ g, v, hrun'.trans hanswer, others_append tok f' g, rfl⟩

/-- `cancel` is final for what the loop has not collected, and does not concern
the other tokens. -/
theorem cancel_contract {h e : History π κ} {s s' : State θ π κ} {t : Thread θ} {tok : Nat}
    (hreach : Run step Always start h s)
    (hcancel : step s (.enter t (.cancel tok)) = some (s', e)) :
    CancelContract h s s' tok := by
  have hi := Routing.of_run hreach
  obtain ⟨-, hs', -⟩ := cancel_cases hcancel
  have hsame : s.callbacks tok = none → s' = s := by
    intro hnone
    rw [hs', State.erase, ← hnone, Function.update_eq_self]
  have hwithout : ∀ cb, s.callbacks tok = some cb → s' = s.without tok ∧ .added tok cb ∈ h := by
    intro cb hcb
    refine ⟨?_, ((hi.live tok cb).mp hcb).added_mem⟩
    rw [hs', State.without_eq_erase]
    rintro r hr rfl
    rw [hi.pending_vacated hr] at hcb
    cases hcb
  refine ⟨hs', ?_, ?_, ?_, ?_⟩
  · intro cb hadd hbatch f u hrun
    exact (Gone.of_run hreach hcancel hadd hbatch hrun).silent
  · rintro ⟨r, hr, rfl⟩
    exact hsame (hi.pending_vacated hr)
  · intro f u hrun hsilent
    cases hmap : s.callbacks tok with
    | none =>
      rw [hsame hmap]
      exact ⟨f, u, hrun, rfl, rfl⟩
    | some cb =>
      obtain ⟨rfl, hadd⟩ := hwithout cb hmap
      exact ⟨_, _, Run.without hreach hadd hrun hsilent, others_others tok f,
        State.without_without u tok⟩
  · intro hwaker f u hrun
    cases hmap : s.callbacks tok with
    | none =>
      rw [hsame hmap] at hrun
      exact ⟨f, u, hrun, rfl, rfl⟩
    | some cb =>
      obtain ⟨rfl, hadd⟩ := hwithout cb hmap
      cases cb with
      | waker => exact absurd hmap hwaker
      | user k =>
        obtain ⟨f', u', hrun', rfl, rfl⟩ := Run.of_without hreach hadd hrun
        exact ⟨f', u', hrun', (others_others tok f').symm, (State.without_without u' tok).symm⟩

end Steps

/-- Two operations are added, with the tokens 1 and 2, and complete together. -/
def twoCompletions : List (Action Unit Unit Nat) :=
  [.call .loop .ok, .call .loop .ok, .call .loop .ok, .call .loop .ok, .call .loop .ok, .loop .ok,
    .enter (.user ()) (.addSqe () (some 42)), .call (.user ()) .ok, .call (.user ()) .ok,
    .call (.user ()) .ok, .call (.user ()) .ok, .call (.user ()) .ok, .finish (.user ()),
    .enter (.user ()) (.addSqe () (some 43)), .call (.user ()) .ok, .call (.user ()) .ok,
    .call (.user ()) .ok, .call (.user ()) .ok, .call (.user ()) .ok, .finish (.user ()),
    .loop .ok, .loop .ok, .loop (.submitted 3), .post 1 7, .post 1 8, .loop .ok, .loop .ok]

/-- The loop has peeked both completions, and has collected none of them. -/
theorem exists_peeked :
    ∃ (h : History Unit Nat) (s : State Unit Unit Nat), Run step Always start h s ∧
      s.loop = .lock 2 ∧ s.mCallbacks = none ∧ s.call (.user ()) = .idle ∧
      s.callbacks 2 = some (.user 43) ∧ s.cq = [⟨1, 7⟩, ⟨2, 8⟩] :=
  ⟨_, _, exec_run twoCompletions rfl, rfl, rfl, rfl, rfl, rfl⟩

/-- The loop is inside the first callback of the batch, and the second is next. -/
theorem exists_first_of_two :
    ∃ (h : History Unit Nat) (s : State Unit Unit Nat), Run step Always start h s ∧
      s.loop = .callback [⟨2, .user 43, .ok 8⟩] ∧ s.mCallbacks = none ∧ s.call .loop = .idle :=
  ⟨_, _, exec_run (twoCompletions ++ [.loop .ok, .loop .ok, .loop .ok, .loop .ok, .loop .ok]) rfl,
    rfl, rfl, rfl⟩

/-- Another thread cancels a completion that was only peeked: its callback never starts. -/
theorem cancel_contract_peeked :
    ∃ (h : History Unit Nat) (s s' : State Unit Unit Nat), CancelContract h s s' 2 ∧
      s.cq = [⟨1, 7⟩, ⟨2, 8⟩] ∧
      ∀ f u, Run step Always s' f u → ∀ r, .invoked r ∈ f → r.token ≠ 2 := by
  obtain ⟨h, s, hreach, hpc, hfree, hidle, hmap, hcq⟩ := exists_peeked
  have hcancel : step s (.enter (.user ()) (.cancel 2)) = some (s.erase 2, [.cancelled 2]) := by
    simp [step, enterStep, hidle, Call.isIdle, State.mayCall, hpc, LoopPc.inited, hfree]
  have hadd : .added 2 (.user 43) ∈ h := (((Routing.of_run hreach).live 2 _).mp hmap).added_mem
  have hcontract := cancel_contract hreach hcancel
  exact ⟨h, s, _, hcontract, hcq, hcontract.final _ hadd (by simp [hpc, LoopPc.pending])⟩

/-- The first callback of a batch cancels the second, which starts all the same. -/
theorem not_cancel_final :
    ¬∀ (h e : History Unit Nat) (s s' : State Unit Unit Nat) (t : Thread Unit) (tok : Nat)
      (cb : Callback Nat), Run step Always start h s → .added tok cb ∈ h →
      step s (.enter t (.cancel tok)) = some (s', e) →
      ∀ f u, Run step Always s' f u → ∀ r, .invoked r ∈ f → r.token ≠ tok := by
  intro hall
  obtain ⟨h, s, hreach, hpc, hfree, hidle⟩ := exists_first_of_two
  have hcancel : step s (.enter .loop (.cancel 2)) = some (s.erase 2, [.cancelled 2]) := by
    simp [step, enterStep, hidle, Call.isIdle, State.mayCall, hpc, LoopPc.inCallback, hfree]
  have hadd := ((Routing.of_run hreach).of_pending (r := ⟨2, .user 43, .ok 8⟩)
    (by simp [hpc, LoopPc.pending])).1
  have hreturn : step (s.erase 2) (.loop .ok) =
      some ({ s.erase 2 with loop := .dispatch [⟨2, .user 43, .ok 8⟩] }, []) := by
    simp [step, loopStep, hpc, hidle, Call.isIdle]
  have hstarts : step { s.erase 2 with loop := .dispatch [⟨2, .user 43, .ok 8⟩] } (.loop .ok) =
      some ({ s.erase 2 with loop := .callback [] }, [.invoked ⟨2, .user 43, .ok 8⟩]) := rfl
  have hrun : Run step Always (s.erase 2) _ _ := (Run.single trivial hreturn).next trivial hstarts
  exact hall h _ s _ .loop 2 _ hreach hadd hcancel _ _ hrun ⟨2, .user 43, .ok 8⟩ (by simp) rfl

end UringContext
