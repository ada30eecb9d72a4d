import Arkio.UringClosures

/-!
# Submissions that fail

`add_sqe` can fail on either side of the ring: `get_sqe` finds no slot, or the
`wake` after the slot was taken fails and `cancel` is to undo the call. A call is
followed here from its `get_sqe` to its return, with every other thread free to
move. The first failure leaves no trace. The second always does: nothing takes
the SQE back out of the ring, and with a callback `cancel` waits for a mutex that
the call owns itself.
-/
namespace UringContext

open Bindings LabelledMachine

variable {θ π κ : Type}

/-- `add_sqe` has returned to its caller. -/
def Call.isReturned : Call π κ → Bool
  | .returned _ => true
  | _ => false

/-- The callback is registered, or in the batch that is being dispatched. -/
def State.Knows (s : State θ π κ) (r : Ready κ) : Prop :=
  s.callbacks r.token = some r.callback ∨ r ∈ s.loop.pending

/-- Every request and every callback of a run that set out from `s` was there
at the start, or a submission of that run brought it. -/
structure Sourced (s : State θ π κ) (h : History π κ) (s' : State θ π κ) : Prop where
  sqes : ∀ q ∈ s'.sq ++ s'.inflight, q ∈ s.sq ++ s.inflight ∨ .queued q.userData q.op ∈ h
  known : ∀ r, s'.Knows r → s.Knows r ∨ .added r.token r.callback ∈ h
  invoked : ∀ r, .invoked r ∈ h → s.Knows r ∨ .added r.token r.callback ∈ h

theorem sourced_refl (s : State θ π κ) : Sourced s [] s :=
  ⟨fun _ hq => .inl hq, fun _ hr => .inl hr, by simp⟩

theorem Sourced.trans {s s₁ s₂ : State θ π κ} {h e : History π κ} (hi : Sourced s h s₁)
    (hj : Sourced s₁ e s₂) : Sourced s (h ++ e) s₂ := by
  constructor
  · intro q hq
    obtain hq | hq := hj.sqes q hq
    · exact (hi.sqes q hq).imp_right (List.mem_append_left e)
    · exact .inr (List.mem_append_right h hq)
  · intro r hr
    obtain hr | hr := hj.known r hr
    · exact (hi.known r hr).imp_right (List.mem_append_left e)
    · exact .inr (List.mem_append_right h hr)
  · intro r hr
    obtain hr | hr := List.mem_append.mp hr
    · exact (hi.invoked r hr).imp_right (List.mem_append_left e)
    · obtain hr | hr := hj.invoked r hr
      · exact (hi.known r hr).imp_right (List.mem_append_left e)
      · exact .inr (List.mem_append_right h hr)

/-- A step that brings no request and no callback. -/
theorem sourced_of_frame {s s' : State θ π κ} {e : History π κ}
    (hsqes : ∀ q ∈ s'.sq ++ s'.inflight, q ∈ s.sq ++ s.inflight)
    (hknown : ∀ r, s'.Knows r → s.Knows r) (he : ∀ r, .invoked r ∈ e → s.Knows r) :
    Sourced s e s' :=
  ⟨fun q hq => .inl (hsqes q hq), fun r hr => .inl (hknown r hr), fun r hr => .inl (he r hr)⟩

theorem not_invoked_of_quiet {e : History π κ} (he : ∀ x ∈ e, x.Quiet) (r : Ready κ) :
    .invoked r ∉ e := fun hr => he _ hr

theorem knows_of_update {s : State θ π κ} {tok : Nat} {r : Ready κ}
    (hr : Function.update s.callbacks tok none r.token = some r.callback) : s.Knows r := by
  by_cases htok : r.token = tok
  · simp [htok] at hr
  · exact .inl (by simpa [Function.update_of_ne htok] using hr)

/-- The thread is between its second `lock_guard` and its return. -/
def Call.HoldsCallbacks : Call π κ → Prop
  | .getSqe _ (some _) => True
  | .wake _ (some _) => True
  | .insert _ _ => True
  | .cancel _ (some _) _ => True
  | _ => False

/-- The thread is inside a critical section of `m_callbacks_`: that of `add_sqe`,
or the one in which the loop collects a batch. -/
def State.Guards (s : State θ π κ) (t : Thread θ) : Prop :=
  (s.call t).HoldsCallbacks ∨ t = .loop ∧ ∃ n ready, s.loop = .collect n ready

def OwnsCallbacks (s : State θ π κ) : Prop := ∀ t, s.Guards t → s.mCallbacks = some t

theorem OwnsCallbacks.frame {s s' : State θ π κ} (ho : OwnsCallbacks s)
    (hm : s'.mCallbacks = s.mCallbacks) (hg : ∀ t, s'.Guards t → s.Guards t) :
    OwnsCallbacks s' := fun t ht => hm.trans (ho t (hg t ht))

theorem OwnsCallbacks.acquire {s s' : State θ π κ} {u : Thread θ} (ho : OwnsCallbacks s)
    (hfree : s.mCallbacks = none) (hm : s'.mCallbacks = some u)
    (hg : ∀ t, t ≠ u → s'.Guards t → s.Guards t) : OwnsCallbacks s' := by
  intro t ht
  by_cases htu : t = u
  · rw [hm, htu]
  · have := ho t (hg t htu ht)
    rw [hfree] at this
    cases this

theorem OwnsCallbacks.release {s s' : State θ π κ} {u : Thread θ} (ho : OwnsCallbacks s)
    (hown : s.Guards u) (hg : ∀ t, s'.Guards t → s.Guards t ∧ t ≠ u) : OwnsCallbacks s' := by
  intro t ht
  obtain ⟨hguards, hne⟩ := hg t ht
  have := (ho t hguards).symm.trans (ho u hown)
  exact absurd (Option.some.inj this) hne

variable [DecidableEq θ]

/-- By the kind of the step. -/
theorem step_sourced {s s' : State θ π κ} {e : History π κ} {a : Action θ π κ}
    (hs : step s a = some (s', e)) : Sourced s e s' := by
  cases step_change hs with
  | quiet _ he hsame =>
    refine sourced_of_frame ?_ ?_ fun r hr => absurd hr (not_invoked_of_quiet he r)
    · rw [hsame.sq, hsame.inflight]
      exact fun _ hq => hq
    · simp only [State.Knows, hsame.callbacks, hsame.pending]
      exact fun _ hr => hr
  | took t op cb _ _ hs' =>
    subst hs'
    refine ⟨fun q hq => ?_, fun r hr => .inl hr, by simp⟩
    simp only [State.setCall_sq, State.takeSqe_sq, State.setCall_inflight,
      State.takeSqe_inflight, List.append_assoc, List.mem_append, List.mem_singleton] at hq ⊢
    obtain hq | rfl | hq := hq
    · exact .inl (.inl hq)
    · exact .inr rfl
    · exact .inl (.inr hq)
  | inserted t tok cb _ hs' =>
    subst hs'
    refine ⟨fun q hq => .inl hq, ?_, by simp⟩
    rintro r (hr | hr)
    · simp only [State.setCall_callbacks, State.unlock_callbacks] at hr
      by_cases htok : r.token = tok
      · simp only [htok, Function.update_self, Option.some.injEq] at hr
        exact .inr (by simp [htok, hr])
      · rw [Function.update_of_ne htok] at hr
        exact .inl (.inl hr)
    · exact .inl (.inr hr)
  | erased tok hcallbacks hsq hinflight _ _ hpending _ =>
    refine sourced_of_frame ?_ ?_ (by simp)
    · rw [hsq, hinflight]
      exact fun _ hq => hq
    · rintro r (hr | hr)
      · exact knows_of_update (hcallbacks ▸ hr)
      · exact .inr (hpending ▸ hr)
  | submitted n _ hpc hs' =>
    subst hs'
    refine sourced_of_frame ?_ ?_ (by simp)
    · intro q hq
      simp only [List.mem_append] at hq ⊢
      obtain hq | hq | hq := hq
      · exact .inl (List.mem_of_mem_drop hq)
      · exact .inr hq
      · exact .inl (List.mem_of_mem_take hq)
    · rintro r (hr | hr)
      · exact .inl hr
      · cases hr
  | posted i q res _ hs' =>
    subst hs'
    refine sourced_of_frame ?_ (fun _ hr => hr) (by simp)
    intro q hq
    simp only [List.mem_append] at hq ⊢
    exact hq.imp_right List.mem_of_mem_eraseIdx
  | collected c cq n ready _ hpc hs' =>
    subst hs'
    refine sourced_of_frame (fun _ hq => hq) ?_ (by simp)
    rintro r (hr | hr)
    · exact knows_of_update hr
    · simp only [LoopPc.pending, List.mem_append, List.mem_map, Option.mem_toList] at hr
      obtain hr | ⟨cb, hcb, rfl⟩ := hr
      · exact .inr (by rw [hpc]; exact hr)
      · exact .inl hcb
  | invoked r rest e he hpc hpending hsq hinflight _ hcallbacks _ _ =>
    have hhead : ∀ r' ∈ r :: rest, s.Knows r' := by
      intro r' hr'
      exact .inr (by rw [hpc]; exact hr')
    refine sourced_of_frame ?_ ?_ ?_
    · rw [hsq, hinflight]
      exact fun _ hq => hq
    · rintro r' (hr | hr)
      · exact .inl (hcallbacks ▸ hr)
      · exact hhead r' (List.mem_cons_of_mem r (hpending ▸ hr))
    · intro r' hr'
      obtain heq | hr' := List.mem_cons.mp hr'
      · simp only [Event.invoked.injEq] at heq
        exact hhead r' (by simp [heq])
      · exact absurd hr' (not_invoked_of_quiet he r')

/-- Nothing in a run comes from nowhere. -/
theorem Sourced.of_run {ok : State θ π κ → Action θ π κ → Prop} {s s' : State θ π κ}
    {h : History π κ} (hrun : Run step ok s h s') : Sourced s h s' :=
  hrun.invariant (sourced_refl s) fun _ _ _ _ _ hi _ hs => hi.trans (step_sourced hs)

/-- No submission took an SQE or registered a callback, and what went out of the
map was collected or cancelled. -/
structure Keeps (s : State θ π κ) (h : History π κ) (s' : State θ π κ) : Prop where
  sq : s'.sq = s.sq
  callbacks : ∀ tok, s'.callbacks tok = s.callbacks tok ∨
    (s'.callbacks tok = none ∧ ∃ x ∈ h, x.Ends tok)
  events : ∀ x ∈ h, ¬x.Hands

omit [DecidableEq θ] in
theorem Keeps.trans {s s₁ s₂ : State θ π κ} {h e : History π κ} (hi : Keeps s h s₁)
    (hk : Keeps s₁ e s₂) : Keeps s (h ++ e) s₂ := by
  constructor
  · rw [hk.sq, hi.sq]
  · intro tok
    obtain heq | ⟨hnone, x, hx, hends⟩ := hk.callbacks tok
    · rw [heq]
      refine (hi.callbacks tok).imp_right ?_
      rintro ⟨hnone, x, hx, hends⟩
      exact ⟨hnone, x, List.mem_append_left _ hx, hends⟩
    · exact .inr ⟨hnone, x, List.mem_append_right _ hx, hends⟩
  · intro x hx
    obtain hx | hx := List.mem_append.mp hx
    · exact hi.events x hx
    · exact hk.events x hx

/-- A thread inside the critical section of `add_sqe` moves by its own steps only. -/
theorem call_of_others {s s' : State θ π κ} {a : Action θ π κ} {e : History π κ} {t : Thread θ}
    (hs : step s a = some (s', e)) (hin : (s.call t).HoldsSubmission) (hat : Attends s)
    (hothers : ∀ ans, a ≠ .call t ans) : s'.call t = s.call t := by
  cases a with
  | call t' ans =>
    obtain ⟨-, -, hother⟩ := callStep_counter hs
    exact hother t fun ht => hothers ans (by rw [ht])
  | enter t' entry =>
    simp only [step, enterStep, Option.ite_none_right_eq_some, Bool.and_eq_true] at hs
    obtain ⟨⟨hidle, -⟩, hs⟩ := hs
    rw [Call.isIdle_iff] at hidle
    have hne : t ≠ t' := by
      rintro rfl
      simp [hidle, Call.HoldsSubmission] at hin
    repeat' split at hs
    all_goals cases hs
    all_goals first
      | rfl
      | exact Function.update_of_ne hne _ _
  | finish t' =>
    simp only [step, finishStep, Option.ite_none_right_eq_some] at hs
    obtain ⟨-, hs⟩ := hs
    split at hs <;> cases hs
    next hc =>
      have hne : t ≠ t' := by
        rintro rfl
        simp [hc, Call.HoldsSubmission] at hin
      exact Function.update_of_ne hne _ _
  | loop ans =>
    by_cases ht : t = .loop
    · subst ht
      have hcalls : s.loop.Calls := by
        by_contra hpc
        simp [hat hpc, Call.HoldsSubmission] at hin
      simp only [step, loopStep] at hs
      cases hpc : s.loop <;> simp only [hpc, LoopPc.Calls] at hcalls
      all_goals
        simp only [hpc] at hs
        repeat' split at hs
        all_goals cases hs
        all_goals simp_all [Call.HoldsSubmission, Call.isIdle_iff]
    · simp only [step, loopStep, checkStep, collectStep, invokeStep] at hs
      repeat' split at hs
      all_goals cases hs
      all_goals first
        | rfl
        | exact Function.update_of_ne ht _ _
  | post i res =>
    simp only [step, postStep] at hs
    split at hs <;> cases hs
    rfl

/-- While one thread is in there, the others leave the ring alone. -/
theorem keeps_of_others {s s' : State θ π κ} {a : Action θ π κ} {e : History π κ} {t : Thread θ}
    (hs : step s a = some (s', e)) (hin : (s.call t).HoldsSubmission) (hl : Locked s)
    (hcall : s'.call t = s.call t) : Keeps s e s' := by
  have hown : ∀ t' c, (s.call t').HoldsSubmission → s'.call t' = c → c ≠ s.call t' → False := by
    intro t' c hin' hc hne
    have heq : t' = t := by
      have h := (hl t' hin').symm.trans (hl t hin)
      exact Option.some.inj h
    subst heq
    exact hne (hc.symm.trans hcall)
  cases step_change hs with
  | quiet _ he hsame =>
    refine ⟨hsame.sq, fun tok => .inl (by rw [hsame.callbacks]), fun x hx => (he x hx).not_hands⟩
  | took t' op cb hcall' hroom hs' =>
    exact (hown t' (.wake s.callbacksIdx cb) (by simp [hcall', Call.HoldsSubmission])
      (by simp [hs']) (by simp [hcall'])).elim
  | inserted t' tok cb hcall' hs' =>
    exact (hown t' (.returned (.ok tok)) (by simp [hcall', Call.HoldsSubmission])
      (by simp [hs']) (by simp [hcall'])).elim
  | erased tok hcallbacks hsq _ _ _ _ _ =>
    refine ⟨hsq, fun tok' => ?_, by simp [Event.Hands]⟩
    rw [hcallbacks]
    by_cases htok : tok' = tok
    · exact .inr ⟨by simp [htok], _, List.mem_singleton_self _, htok.symm⟩
    · exact .inl (Function.update_of_ne htok _ _)
  | submitted n hfree _ _ =>
    have h := hl t hin
    rw [hfree] at h
    cases h
  | posted i q res _ hs' =>
    subst hs'
    exact ⟨rfl, fun _ => .inl rfl, by simp [Event.Hands]⟩
  | collected c cq n ready _ _ hs' =>
    subst hs'
    refine ⟨rfl, fun tok => ?_, by simp [Event.Hands]⟩
    by_cases htok : tok = c.userData
    · exact .inr ⟨by simp [htok], _, List.mem_singleton_self _, htok.symm⟩
    · exact .inl (Function.update_of_ne htok _ _)
  | invoked r rest e he _ _ hsq _ _ hcallbacks _ _ =>
    refine ⟨hsq, fun tok => .inl (by rw [hcallbacks]), ?_⟩
    intro x hx
    obtain rfl | hx := List.mem_cons.mp hx
    · exact id
    · exact (he x hx).not_hands

theorem OwnsCallbacks.setCall {s : State θ π κ} {t : Thread θ} {c : Call π κ}
    (ho : OwnsCallbacks s) (hc : ¬c.HoldsCallbacks) : OwnsCallbacks (s.setCall t c) := by
  refine ho.frame rfl fun u hu => hu.imp_left fun hu => ?_
  by_cases hut : u = t
  · subst hut
    exact absurd (by simpa using hu) hc
  · simpa [Function.update_of_ne hut] using hu

theorem callStep_owns {s s' : State θ π κ} {t : Thread θ} {ans : Answer} {e : History π κ}
    (hs : callStep s t ans = some (s', e)) (ho : OwnsCallbacks s) (hat : Attends s) :
    OwnsCallbacks s' := by
  obtain ⟨-, hloop, hother⟩ := callStep_counter hs
  have hrest : ∀ u, u ≠ t → s'.Guards u → s.Guards u := by
    intro u hu hg
    simpa only [State.Guards, hother u hu, hloop] using hg
  have hkeep : s'.mCallbacks = s.mCallbacks →
      ((s'.call t).HoldsCallbacks → (s.call t).HoldsCallbacks) → OwnsCallbacks s' := by
    intro hm hc
    refine ho.frame hm fun u hu => ?_
    by_cases hut : u = t
    · subst hut
      simpa only [State.Guards, hloop] using hu.imp_left hc
    · exact hrest u hut hu
  have hout : (s.call t).HoldsCallbacks → ¬(s'.call t).HoldsCallbacks → OwnsCallbacks s' := by
    intro hc hc'
    refine ho.release (.inl hc) fun u hu => ?_
    have hut : u ≠ t := by
      rintro rfl
      obtain hu | ⟨rfl, n, ready, hpc⟩ := hu
      · exact hc' hu
      · have hidle := hat (by rw [← hloop, hpc]; exact id)
        simp [hidle, Call.HoldsCallbacks] at hc
    exact ⟨hrest u hut hu, hut⟩
  unfold callStep at hs
  cases hc : s.call t with
  | idle => simp [hc] at hs
  | returned ret => simp [hc] at hs
  | lockSubmission op cb =>
    simp only [hc, Option.ite_none_right_eq_some, Option.some.injEq, Prod.mk.injEq] at hs
    obtain ⟨-, rfl, -⟩ := hs
    refine hkeep rfl fun h => ?_
    cases cb <;> simp [Call.HoldsCallbacks] at h
  | lockCallbacks op cb =>
    simp only [hc, Option.ite_none_right_eq_some, Option.some.injEq, Prod.mk.injEq] at hs
    obtain ⟨hfree, rfl, -⟩ := hs
    exact ho.acquire hfree rfl hrest
  | exitWake =>
    simp only [hc] at hs
    split at hs <;> cases hs
    exact hkeep rfl (by simp [Call.HoldsCallbacks])
  | insert tok cb =>
    simp only [hc] at hs
    cases hs
    exact hout (by simp [hc, Call.HoldsCallbacks]) (by simp [Call.HoldsCallbacks])
  | getSqe op cb =>
    simp only [hc] at hs
    cases cb with
    | none =>
      split at hs <;> cases hs
      · exact hkeep rfl (by simp [Call.HoldsCallbacks])
      · exact hkeep rfl (by simp [Call.HoldsCallbacks])
    | some k =>
      split at hs <;> cases hs
      · exact hkeep rfl (by simp [hc, Call.HoldsCallbacks])
      · exact hout (by simp [hc, Call.HoldsCallbacks]) (by simp [Call.HoldsCallbacks])
  | wake tok cb =>
    simp only [hc] at hs
    cases cb with
    | none =>
      split at hs <;> cases hs
      · exact hkeep rfl (by simp [Call.HoldsCallbacks])
      · exact hkeep rfl (by simp [Call.HoldsCallbacks])
    | some k =>
      split at hs <;> cases hs
      · exact hkeep rfl (by simp [hc, Call.HoldsCallbacks])
      · exact hkeep rfl (by simp [hc, Call.HoldsCallbacks])
  | cancel tok cb err =>
    simp only [hc, Option.ite_none_right_eq_some, Option.some.injEq, Prod.mk.injEq] at hs
    obtain ⟨hfree, rfl, -⟩ := hs
    refine hkeep ?_ (by simp [Call.HoldsCallbacks])
    cases cb <;> simp [hfree]

/-- The loop thread's own steps, between its locking and its unlocking. -/
theorem loopStep_owns {s s' : State θ π κ} {ans : Answer} {e : History π κ}
    (hs : loopStep s ans = some (s', e)) (ho : OwnsCallbacks s) (hat : Attends s) :
    OwnsCallbacks s' := by
  have hmove : ∀ s₁ : State θ π κ, s₁.call = s.call → s₁.mCallbacks = s.mCallbacks →
      (∀ n ready, s₁.loop = .collect n ready → ∃ n ready, s.loop = .collect n ready) →
        OwnsCallbacks s₁ := by
    intro s₁ hcall hm hloop
    refine ho.frame hm fun u hu => ?_
    rw [State.Guards, hcall] at hu
    exact hu.imp_right fun ⟨hu, n, ready, hpc⟩ => ⟨hu, hloop n ready hpc⟩
  have hset : ∀ (s₁ : State θ π κ) c, s₁.call = s.call → s₁.mCallbacks = s.mCallbacks →
      (∀ n ready, s₁.loop = .collect n ready → ∃ n ready, s.loop = .collect n ready) →
        ¬c.HoldsCallbacks → OwnsCallbacks (s₁.setCall .loop c) :=
    fun s₁ c hcall hm hloop hc => (hmove s₁ hcall hm hloop).setCall hc
  unfold loopStep at hs
  cases hpc : s.loop with
  | lock n =>
    simp only [hpc, Option.ite_none_right_eq_some, Option.some.injEq, Prod.mk.injEq] at hs
    obtain ⟨hfree, rfl, -⟩ := hs
    refine ho.acquire hfree rfl fun t ht hg => ?_
    exact hg.imp_right fun ⟨hloop, _⟩ => absurd hloop ht
  | collect n ready =>
    have hidle : s.call .loop = .idle := hat (by rw [hpc]; exact id)
    cases n with
    | zero =>
      simp only [hpc, Option.some.injEq, Prod.mk.injEq] at hs
      obtain ⟨rfl, -⟩ := hs
      refine ho.release (.inr ⟨rfl, 0, ready, hpc⟩) fun t ht => ?_
      obtain ht | ⟨-, n, ready, hpc'⟩ := ht
      · refine ⟨.inl ht, ?_⟩
        rintro rfl
        simp [hidle, Call.HoldsCallbacks] at ht
      · cases hpc'
    | succ n =>
      cases hcq : s.cq with
      | nil => simp [hpc, hcq] at hs
      | cons c cq =>
        simp only [hpc, hcq, collectStep, Option.some.injEq] at hs
        split at hs <;> cases hs
        · exact hmove _ rfl rfl fun _ _ _ => ⟨_, _, hpc⟩
        · exact hmove _ rfl rfl fun _ _ _ => ⟨_, _, hpc⟩
  | dispatch ready =>
    cases ready with
    | nil =>
      simp only [hpc, Option.some.injEq, Prod.mk.injEq] at hs
      obtain ⟨rfl, -⟩ := hs
      exact hmove _ rfl rfl (by simp)
    | cons r rest =>
      simp only [hpc, invokeStep, Option.some.injEq] at hs
      repeat' split at hs
      all_goals cases hs
      · exact hmove _ rfl rfl (by simp)
      · exact hmove _ rfl rfl (by simp)
      · exact hset _ _ rfl rfl (by simp) (by simp [Call.HoldsCallbacks])
  | _ =>
    simp only [hpc, checkStep] at hs
    repeat' split at hs
    all_goals cases hs
    all_goals first
      | exact hmove _ rfl rfl (by simp)
      | exact hset _ _ rfl rfl (by simp) (by simp [Call.HoldsCallbacks])

theorem step_owns {s s' : State θ π κ} {a : Action θ π κ} {e : History π κ}
    (hs : step s a = some (s', e)) (ho : OwnsCallbacks s) (hat : Attends s) :
    OwnsCallbacks s' := by
  cases a with
  | call t ans => exact callStep_owns hs ho hat
  | loop ans => exact loopStep_owns hs ho hat
  | enter t entry =>
    simp only [step, enterStep] at hs
    repeat' split at hs
    all_goals cases hs
    all_goals first
      | exact ho
      | exact OwnsCallbacks.setCall (s := { s with exiting := _ }) ho (by simp [Call.HoldsCallbacks])
  | finish t =>
    simp only [step, finishStep] at hs
    repeat' split at hs
    all_goals cases hs
    exact ho.setCall (by simp [Call.HoldsCallbacks])
  | post i res =>
    simp only [step, postStep] at hs
    split at hs <;> cases hs
    exact ho

theorem ownsCallbacks_start : OwnsCallbacks (start : State θ π κ) := by
  intro t ht
  obtain ht | ⟨-, n, ready, hpc⟩ := ht
  · cases t <;> simp [start, Call.HoldsCallbacks] at ht
  · cases hpc

/-- A call with a callback whose `wake` failed waits for itself, for ever. -/
theorem cancel_never_returns {ok : State θ π κ → Action θ π κ → Prop} {s s' : State θ π κ}
    {t : Thread θ} {tok : Nat} {cb : Callback κ} {e : ErrorCode} {h₀ h : History π κ}
    (hreach : Run step Always start h₀ s) (hcall : s.call t = .cancel tok (some cb) e)
    (hrun : Run step ok s h s') :
    s'.mCallbacks = some t ∧ s'.call t = .cancel tok (some cb) e := by
  have hstart : OwnsCallbacks s ∧ Attends s := by
    refine hreach.invariant (P := fun _ s => OwnsCallbacks s ∧ Attends s)
      ⟨ownsCallbacks_start, attends_start⟩ ?_
    rintro _ s₁ a s₂ e ⟨ho, hat⟩ _ hs
    exact ⟨step_owns hs ho hat, step_attends hs hat⟩
  have hall : OwnsCallbacks s' ∧ Attends s' ∧ s'.call t = .cancel tok (some cb) e := by
    refine hrun.invariant (P := fun _ s' => OwnsCallbacks s' ∧ Attends s' ∧
      s'.call t = .cancel tok (some cb) e) ⟨hstart.1, hstart.2, hcall⟩ ?_
    rintro _ s₁ a s₂ e' ⟨ho, hat, hc⟩ _ hs
    have hm : s₁.mCallbacks = some t := ho t (.inl (by simp [hc, Call.HoldsCallbacks]))
    have hothers : ∀ ans, a ≠ .call t ans := by
      rintro ans rfl
      simp [step, callStep, hc, hm] at hs
    have hin : (s₁.call t).HoldsSubmission := by simp [hc, Call.HoldsSubmission]
    exact ⟨step_owns hs ho hat, step_attends hs hat, (call_of_others hs hin hat hothers).trans hc⟩
  obtain ⟨ho, -, hc⟩ := hall
  exact ⟨ho t (.inl (by simp [hc, Call.HoldsCallbacks])), hc⟩

/-- How far a call has come that was about to take an SQE in the state `s`. -/
inductive CallPhase (s : State θ π κ) (t : Thread θ) (op : Op π) (cb : Option (Callback κ))
    (h : History π κ) (s' : State θ π κ) : Prop where
  | ready (hcall : s'.call t = .getSqe op cb) (hkeeps : Keeps s h s')
  | full (hfull : batchSize ≤ s.sq.length)
      (hcall : s'.call t = .returned (.error (asEc ENOBUFS))) (hkeeps : Keeps s h s')
  | taken (tok : Nat) (hroom : s.sq.length < batchSize) (hcall : (s'.call t).Takes tok)
      (hsq : s'.sq.length = s.sq.length + 1)
  | left (ret : Result Nat) (hroom : s.sq.length < batchSize)
      (hcall : s'.call t = .returned ret) (hsq : s'.sq.length = s.sq.length + 1)

/-- The steps up to the return of a thread from its call. -/
def Inside (t : Thread θ) (s : State θ π κ) (_ : Action θ π κ) : Prop :=
  (s.call t).isReturned = false

instance (t : Thread θ) (s : State θ π κ) (a : Action θ π κ) : Decidable (Inside t s a) :=
  inferInstanceAs (Decidable (_ = _))

/-- A call that took its SQE stays in the critical section or returns, and the
SQE stays where it is. -/
theorem callStep_takes {s s' : State θ π κ} {t : Thread θ} {ans : Answer} {e : History π κ}
    {tok : Nat} (hs : callStep s t ans = some (s', e)) (hin : (s.call t).Takes tok) :
    s'.sq = s.sq ∧ ((s'.call t).Takes tok ∨ ∃ ret, s'.call t = .returned ret) := by
  unfold callStep at hs
  cases hc : s.call t with
  | wake tok' cb =>
    simp only [hc, Call.Takes] at hs hin
    repeat' split at hs
    all_goals cases hs
    · exact ⟨rfl, .inl (by simp [Call.Takes, hin])⟩
    · exact ⟨rfl, .inr ⟨.ok tok', by simp⟩⟩
    · exact ⟨rfl, .inl (by simp [Call.Takes, hin])⟩
  | insert tok' cb =>
    simp only [hc, Option.some.injEq, Prod.mk.injEq] at hs
    obtain ⟨rfl, -⟩ := hs
    exact ⟨rfl, .inr ⟨.ok tok', by simp⟩⟩
  | cancel tok' cb err =>
    simp only [hc, Option.ite_none_right_eq_some, Option.some.injEq, Prod.mk.injEq] at hs
    obtain ⟨-, rfl, -⟩ := hs
    exact ⟨rfl, .inr ⟨.error err, by simp⟩⟩
  | _ => simp [hc, Call.Takes] at hin

/-- One step of a call from one phase to the next. -/
theorem CallPhase.step {s s₁ s₂ : State θ π κ} {t : Thread θ} {op : Op π}
    {cb : Option (Callback κ)} {h e : History π κ} {a : Action θ π κ}
    (hi : CallPhase s t op cb h s₁) (hs : UringContext.step s₁ a = some (s₂, e))
    (hinside : Inside t s₁ a) (hl : Locked s₁) (hat : Attends s₁) :
    CallPhase s t op cb (h ++ e) s₂ := by
  cases hi with
  | full _ hcall _ => simp [Inside, hcall, Call.isReturned] at hinside
  | left _ _ hcall _ => simp [Inside, hcall, Call.isReturned] at hinside
  | ready hcall hkeeps =>
    have hin : (s₁.call t).HoldsSubmission := by simp [hcall, Call.HoldsSubmission]
    by_cases hown : ∃ ans, a = .call t ans
    · obtain ⟨ans, rfl⟩ := hown
      simp only [UringContext.step, callStep, hcall] at hs
      split at hs
      next hroom =>
        cases hs
        rw [hkeeps.sq] at hroom
        exact .taken s₁.callbacksIdx hroom (by simp [Call.Takes]) (by simp [hkeeps.sq])
      next hfull =>
        cases hs
        refine .full (by rw [hkeeps.sq] at hfull; omega) (by simp) ?_
        rw [List.append_nil]
        exact ⟨hkeeps.sq, hkeeps.callbacks, hkeeps.events⟩
    · have hcall' := call_of_others hs hin hat fun ans ha => hown ⟨ans, ha⟩
      exact .ready (hcall'.trans hcall) (hkeeps.trans (keeps_of_others hs hin hl hcall'))
  | taken tok hroom hcall hsq =>
    by_cases hown : ∃ ans, a = .call t ans
    · obtain ⟨ans, rfl⟩ := hown
      obtain ⟨hsame, htakes | ⟨ret, hret⟩⟩ := callStep_takes hs hcall
      · exact .taken tok hroom htakes (by rw [hsame, hsq])
      · exact .left ret hroom hret (by rw [hsame, hsq])
    · have hcall' := call_of_others hs hcall.holds hat fun ans ha => hown ⟨ans, ha⟩
      have hkeeps := keeps_of_others hs hcall.holds hl hcall'
      exact .taken tok hroom (by rwa [hcall']) (by rw [hkeeps.sq, hsq])

/-- By induction on the run, a call up to its return is in one of the phases. -/
theorem CallPhase.of_run {s s' : State θ π κ} {t : Thread θ} {op : Op π}
    {cb : Option (Callback κ)} {h : History π κ} (hrun : Run UringContext.step (Inside t) s h s')
    (hget : s.call t = .getSqe op cb) (hl : Locked s) (hat : Attends s) :
    CallPhase s t op cb h s' := by
  have hall : Locked s' ∧ Attends s' ∧ CallPhase s t op cb h s' := by
    refine hrun.invariant (P := fun h s' => Locked s' ∧ Attends s' ∧ CallPhase s t op cb h s')
      ⟨hl, hat, .ready hget ⟨rfl, fun _ => .inl rfl, by simp⟩⟩ ?_
    rintro h s₁ a s₂ e ⟨hl, hat, hi⟩ hinside hs
    exact ⟨step_locked hs hl, step_attends hs hat, hi.step hs hinside hl hat⟩
  exact hall.2.2

theorem Attends.of_run {ok : State θ π κ → Action θ π κ → Prop} {h : History π κ}
    {s : State θ π κ} (hrun : Run UringContext.step ok start h s) : Attends s :=
  hrun.invariant (P := fun _ s => Attends s) attends_start fun _ _ _ _ _ hat _ hs =>
    step_attends hs hat

omit [DecidableEq θ] in
/-- A call has failed with the error: it has returned it, or it has a callback
and is in `cancel` on account of it, where it stays. -/
def Failed (s : State θ π κ) (t : Thread θ) (e : ErrorCode) : Prop :=
  s.call t = .returned (.error e) ∨ ∃ tok cb, s.call t = .cancel tok (some cb) e

/-- What a failed call owes, from the state `s` in which it asked for an SQE to
the state `s'` and whatever comes after: it has returned, the ring is as it was
and so is the map, but for what others took out of it, and the kernel and the
loop never see anything that was not there before or submitted by somebody else. -/
structure LeavesNoTrace (s : State θ π κ) (h : History π κ) (s' : State θ π κ) (t : Thread θ)
    (e : ErrorCode) : Prop where
  returned : s'.call t = .returned (.error e)
  sq : s'.sq = s.sq
  callbacks : ∀ tok, s'.callbacks tok = s.callbacks tok ∨
    (s'.callbacks tok = none ∧ ∃ x ∈ h, x.Ends tok)
  executed : ∀ h₂ s₂, Run step Always s' h₂ s₂ → ∀ q ∈ s₂.inflight,
    q ∈ s.sq ++ s.inflight ∨ .queued q.userData q.op ∈ h₂
  invoked : ∀ h₂ s₂, Run step Always s' h₂ s₂ → ∀ r, .invoked r ∈ h₂ →
    s.Knows r ∨ .added r.token r.callback ∈ h₂

section FailedCalls

variable {s s' : State θ π κ} {t : Thread θ} {op : Op π} {cb : Option (Callback κ)}
  {h : History π κ} {e : ErrorCode}

/-- A call that found the ring full leaves no trace. -/
theorem Keeps.leavesNoTrace (hkeeps : Keeps s h s') (hsourced : Sourced s h s')
    (hret : s'.call t = .returned (.error e)) : LeavesNoTrace s h s' t e := by
  refine ⟨hret, hkeeps.sq, hkeeps.callbacks, fun h₂ s₂ hrun q hq => ?_, fun h₂ s₂ hrun r hr => ?_⟩
  · have hall := hsourced.trans (Sourced.of_run hrun)
    refine (hall.sqes q (List.mem_append_right _ hq)).imp_right fun hmem => ?_
    refine (List.mem_append.mp hmem).resolve_left fun hmem => ?_
    exact hkeeps.events _ hmem trivial
  · have hall := hsourced.trans (Sourced.of_run hrun)
    refine (hall.invoked r (List.mem_append_right _ hr)).imp_right fun hmem => ?_
    refine (List.mem_append.mp hmem).resolve_left fun hmem => ?_
    exact hkeeps.events _ hmem trivial

/-- Which failure it was decides. -/
theorem CallPhase.leavesNoTrace_iff (hi : CallPhase s t op cb h s') (hsourced : Sourced s h s')
    (hfail : Failed s' t e) :
    (LeavesNoTrace s h s' t e ↔ batchSize ≤ s.sq.length) ∧
      (batchSize ≤ s.sq.length → e = asEc ENOBUFS) := by
  have hlost : s.sq.length < batchSize → s'.sq.length = s.sq.length + 1 →
      (LeavesNoTrace s h s' t e ↔ batchSize ≤ s.sq.length) ∧
        (batchSize ≤ s.sq.length → e = asEc ENOBUFS) := by
    intro hroom hsq
    refine ⟨⟨fun hno => ?_, fun hfull => by omega⟩, fun hfull => by omega⟩
    rw [hno.sq] at hsq
    omega
  cases hi with
  | ready hcall _ =>
    obtain hret | ⟨tok, cb', hcancel⟩ := hfail
    · simp [hcall] at hret
    · simp [hcall] at hcancel
  | full hfull hcall hkeeps =>
    obtain hret | ⟨tok, cb', hcancel⟩ := hfail
    · have he : e = asEc ENOBUFS := by
        rw [hcall] at hret
        simpa using hret.symm
      exact ⟨⟨fun _ => hfull, fun _ => hkeeps.leavesNoTrace hsourced hret⟩, fun _ => he⟩
    · simp [hcall] at hcancel
  | taken _ hroom _ hsq => exact hlost hroom hsq
  | left _ hroom _ hsq => exact hlost hroom hsq

end FailedCalls

/-- A failed `add_sqe` leaves no trace exactly when it is `get_sqe` that failed,
whichever overload it was, whatever it asked for and whoever else was moving. -/
theorem failed_add_leaves_no_trace_iff {s s' : State θ π κ} {t : Thread θ} {op : Op π}
    {cb : Option (Callback κ)} {h₀ h : History π κ} {e : ErrorCode}
    (hreach : Run step Always start h₀ s) (hget : s.call t = .getSqe op cb)
    (hrun : Run step (Inside t) s h s') (hfail : Failed s' t e) :
    (LeavesNoTrace s h s' t e ↔ batchSize ≤ s.sq.length) ∧
      (batchSize ≤ s.sq.length → e = asEc ENOBUFS) := by
  have hphase := CallPhase.of_run hrun hget (Routing.of_run hreach).locked (Attends.of_run hreach)
  exact hphase.leavesNoTrace_iff (Sourced.of_run hrun) hfail

/-- A user thread of a fresh context whose `wake` fails, without a callback and
with one. The SQE stays; the second call never returns. -/
theorem exists_failed_wake (cb : Option Unit) :
    ∃ (h₀ h : History Unit Unit) (s s' : State Unit Unit Unit),
      Run step Always start h₀ s ∧ s.call (.user ()) = .getSqe (.user ()) (cb.map .user) ∧
        Run step (Inside (.user ())) s h s' ∧ Failed s' (.user ()) (asEc 11) ∧
        s.sq.length = 1 ∧ s'.sq.length = 2 := by
  cases cb with
  | none =>
    exact ⟨_, _, _, _, exec_run [.call .loop .ok, .call .loop .ok, .call .loop .ok,
      .call .loop .ok, .call .loop .ok, .loop .ok, .enter (.user ()) (.addSqe () none),
      .call (.user ()) .ok] rfl, rfl, exec_restrict_run [.call (.user ()) .ok,
      .call (.user ()) (.failed (asEc 11)), .call (.user ()) .ok] rfl, .inl rfl, rfl, rfl⟩
  | some k =>
    exact ⟨_, _, _, _, exec_run [.call .loop .ok, .call .loop .ok, .call .loop .ok,
      .call .loop .ok, .call .loop .ok, .loop .ok, .enter (.user ()) (.addSqe () (some k)),
      .call (.user ()) .ok, .call (.user ()) .ok] rfl, rfl, exec_restrict_run
      [.call (.user ()) .ok, .call (.user ()) (.failed (asEc 11))] rfl,
      .inr ⟨1, .user k, rfl⟩, rfl, rfl⟩

theorem failed_add_leaves_no_trace_iff_wake :
    ∃ (h : History Unit Unit) (s s' : State Unit Unit Unit),
      (LeavesNoTrace s h s' (.user ()) (asEc 11) ↔ batchSize ≤ s.sq.length) ∧ s.sq.length = 1 := by
  obtain ⟨h₀, h, s, s', hreach, hget, hrun, hfail, hsq, -⟩ := exists_failed_wake none
  exact ⟨h, s, s', (failed_add_leaves_no_trace_iff hreach hget hrun hfail).1, hsq⟩

/-- The SQE is not taken back when `wake` fails. -/
theorem failed_add_leaves_trace :
    ¬∀ (cb : Option Unit) (h₀ h : History Unit Unit) (s s' : State Unit Unit Unit) (e : ErrorCode),
      Run step Always start h₀ s → s.call (.user ()) = .getSqe (.user ()) (cb.map .user) →
        Run step (Inside (.user ())) s h s' → Failed s' (.user ()) e →
          LeavesNoTrace s h s' (.user ()) e := by
  intro hall
  obtain ⟨h₀, h, s, s', hreach, hget, hrun, hfail, hsq, hsq'⟩ := exists_failed_wake none
  rw [(hall none h₀ h s s' _ hreach hget hrun hfail).sq, hsq] at hsq'
  exact absurd hsq' (by decide)

end UringContext
