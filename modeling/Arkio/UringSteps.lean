import Arkio.UringContext

/-!
# What a step of the event loop can do

Every step is put into one of eight kinds by its effect on the rings, the
callback map and the list of callbacks still to be invoked. The invariants
about these are proved over the kinds, not over the program counters. The two
mutexes have their own invariant: a thread between `lock_guard` and return owns
`m_submission_`.
-/
namespace UringContext

open Bindings LabelledMachine

variable {θ π κ : Type} [DecidableEq θ]

/-- The thread has taken an SQE with this token and has not returned. -/
def Call.Takes : Call π κ → Nat → Prop
  | .wake tok _, n => n = tok
  | .insert tok _, n => n = tok
  | .cancel tok _ _, n => n = tok
  | _, _ => False

/-- The thread is between its first `lock_guard` and its return. -/
def Call.HoldsSubmission : Call π κ → Prop
  | .lockCallbacks _ _ => True
  | .getSqe _ _ => True
  | .wake _ _ => True
  | .insert _ _ => True
  | .cancel _ _ _ => True
  | _ => False

theorem Call.Takes.holds {c : Call π κ} {tok : Nat} (h : c.Takes tok) : c.HoldsSubmission := by
  cases c <;> simp_all [Call.Takes, Call.HoldsSubmission]

/-- The events that say nothing about the rings, the map or the callbacks. -/
def Event.Quiet : Event π κ → Prop
  | .exitCalled _ => True
  | .wakerExited _ => True
  | .returned _ => True
  | _ => False

/-- What a step that touches neither rings nor map nor callbacks leaves alone. -/
structure SameCore (s s' : State θ π κ) : Prop where
  sq : s'.sq = s.sq
  inflight : s'.inflight = s.inflight
  cq : s'.cq = s.cq
  callbacks : s'.callbacks = s.callbacks
  callbacksIdx : s'.callbacksIdx = s.callbacksIdx
  pending : s'.loop.pending = s.loop.pending
  takes : ∀ t tok, (s'.call t).Takes tok → (s.call t).Takes tok

omit [DecidableEq θ] in
/-- Steps that write only the locks, the counter, the exit request and the
loop's place. -/
theorem SameCore.control {s : State θ π κ} {m m' : Option (Thread θ)} {n : Nat} {b : Bool}
    {err : ErrorCode} {pc : LoopPc κ} (hpc : pc.pending = s.loop.pending) :
    SameCore s { s with
      mSubmission := m, mCallbacks := m', counter := n, exiting := b, exitingError := err
      loop := pc } where
  sq := rfl
  inflight := rfl
  cq := rfl
  callbacks := rfl
  callbacksIdx := rfl
  pending := hpc
  takes := fun _ _ ht => ht

/-- The eight kinds of steps, with the events they emit. -/
inductive Change (s s' : State θ π κ) : List (Event π κ) → Prop where
  | quiet (e : List (Event π κ)) (he : ∀ x ∈ e, x.Quiet) (hsame : SameCore s s') :
      Change s s' e
  | took (t : Thread θ) (op : Op π) (cb : Option (Callback κ))
      (hcall : s.call t = .getSqe op cb) (hroom : s.sq.length < batchSize)
      (hs : s' = (s.takeSqe op).setCall t (.wake s.callbacksIdx cb)) :
      Change s s' [.queued s.callbacksIdx op]
  | inserted (t : Thread θ) (tok : Nat) (cb : Callback κ) (hcall : s.call t = .insert tok cb)
      (hs : s' = ({ s with callbacks := Function.update s.callbacks tok (some cb) }.unlock
        (some cb)).setCall t (.returned (.ok tok))) :
      Change s s' [.added tok cb]
  | erased (tok : Nat) (hcallbacks : s'.callbacks = Function.update s.callbacks tok none)
      (hsq : s'.sq = s.sq) (hinflight : s'.inflight = s.inflight) (hcq : s'.cq = s.cq)
      (hidx : s'.callbacksIdx = s.callbacksIdx) (hpending : s'.loop.pending = s.loop.pending)
      (htakes : ∀ t tok, (s'.call t).Takes tok → (s.call t).Takes tok) :
      Change s s' [.cancelled tok]
  | submitted (n : Nat) (hfree : s.mSubmission = none) (hpc : s.loop = .submit)
      (hs : s' = { s with
        sq := s.sq.drop n, inflight := s.inflight ++ s.sq.take n, loop := .wait }) :
      Change s s' []
  | posted (i : Nat) (q : Sqe π) (res : Int) (hq : s.inflight[i]? = some q)
      (hs : s' = { s with
        inflight := s.inflight.eraseIdx i, cq := s.cq ++ [⟨q.userData, res⟩] }) :
      Change s s' [.posted ⟨q.userData, res⟩]
  | collected (c : Cqe) (cq : List Cqe) (n : Nat) (ready : List (Ready κ))
      (hcq : s.cq = c :: cq) (hpc : s.loop = .collect (n + 1) ready)
      (hs : s' = { s with
        callbacks := Function.update s.callbacks c.userData none
        cq := cq
        loop := .collect n (ready ++
          (s.callbacks c.userData).toList.map (⟨c.userData, ·, toResult c.res⟩)) }) :
      Change s s' [.collected c (s.callbacks c.userData)]
  | invoked (r : Ready κ) (rest : List (Ready κ)) (e : List (Event π κ))
      (he : ∀ x ∈ e, x.Quiet) (hpc : s.loop = .dispatch (r :: rest))
      (hpending : s'.loop.pending = rest) (hsq : s'.sq = s.sq)
      (hinflight : s'.inflight = s.inflight) (hcq : s'.cq = s.cq)
      (hcallbacks : s'.callbacks = s.callbacks) (hidx : s'.callbacksIdx = s.callbacksIdx)
      (htakes : ∀ t tok, (s'.call t).Takes tok → (s.call t).Takes tok) :
      Change s s' (.invoked r :: e)

/-- A program counter that takes nothing adds no taker. -/
theorem takes_setCall {s : State θ π κ} {t t' : Thread θ} {c : Call π κ} {tok : Nat}
    (hc : ∀ tok, c.Takes tok → (s.call t).Takes tok)
    (h : ((s.setCall t c).call t').Takes tok) : (s.call t').Takes tok := by
  by_cases ht : t' = t
  · subst t'
    exact hc tok (by simpa using h)
  · simpa [Function.update_of_ne ht] using h

theorem SameCore.of_setCall {s s₁ : State θ π κ} {t : Thread θ} {c : Call π κ}
    (h : SameCore s s₁) (hcall : s₁.call = s.call)
    (hc : ∀ tok, c.Takes tok → (s.call t).Takes tok) : SameCore s (s₁.setCall t c) where
  sq := h.sq
  inflight := h.inflight
  cq := h.cq
  callbacks := h.callbacks
  callbacksIdx := h.callbacksIdx
  pending := h.pending
  takes := by
    intro t' tok ht
    have := takes_setCall (s := s₁) (by rw [hcall]; exact hc) ht
    rwa [hcall] at this

theorem callStep_change {s s' : State θ π κ} {t : Thread θ} {ans : Answer}
    {e : List (Event π κ)} (h : callStep s t ans = some (s', e)) : Change s s' e := by
  have hsame : SameCore s s := .control rfl
  unfold callStep at h
  cases hc : s.call t with
  | idle => simp [hc] at h
  | lockSubmission op cb =>
    simp only [hc, Option.ite_none_right_eq_some, Option.some.injEq, Prod.mk.injEq] at h
    obtain ⟨-, rfl, rfl⟩ := h
    refine .quiet _ (by simp) (.of_setCall (.control rfl) rfl ?_)
    cases cb <;> simp [Call.Takes]
  | lockCallbacks op cb =>
    simp only [hc, Option.ite_none_right_eq_some, Option.some.injEq, Prod.mk.injEq] at h
    obtain ⟨-, rfl, rfl⟩ := h
    exact .quiet _ (by simp)
      (.of_setCall (.control rfl) rfl (by simp [Call.Takes]))
  | getSqe op cb =>
    simp only [hc] at h
    split at h
    next hroom =>
      simp only [Option.some.injEq, Prod.mk.injEq] at h
      obtain ⟨rfl, rfl⟩ := h
      exact .took t op cb hc hroom rfl
    next =>
      simp only [Option.some.injEq, Prod.mk.injEq] at h
      obtain ⟨rfl, rfl⟩ := h
      exact .quiet _ (by simp)
        (.of_setCall (.control rfl) rfl (by simp [Call.Takes]))
  | wake tok cb =>
    cases ans with
    | ok =>
      cases cb with
      | some cb =>
        simp only [hc, Option.some.injEq, Prod.mk.injEq] at h
        obtain ⟨rfl, rfl⟩ := h
        exact .quiet _ (by simp)
          (.of_setCall (.control rfl) rfl
            (by simp [Call.Takes, hc]))
      | none =>
        simp only [hc, Option.some.injEq, Prod.mk.injEq] at h
        obtain ⟨rfl, rfl⟩ := h
        exact .quiet _ (by simp)
          (.of_setCall (.control rfl) rfl (by simp [Call.Takes]))
    | failed err =>
      simp only [hc, Option.some.injEq, Prod.mk.injEq] at h
      obtain ⟨rfl, rfl⟩ := h
      exact .quiet _ (by simp) (.of_setCall hsame rfl (by simp [Call.Takes, hc]))
    | submitted n => simp [hc] at h
  | insert tok cb =>
    simp only [hc, Option.some.injEq, Prod.mk.injEq] at h
    obtain ⟨rfl, rfl⟩ := h
    exact .inserted t tok cb hc rfl
  | cancel tok cb err =>
    simp only [hc, Option.ite_none_right_eq_some, Option.some.injEq, Prod.mk.injEq] at h
    obtain ⟨-, rfl, rfl⟩ := h
    refine .erased tok rfl rfl rfl rfl rfl rfl ?_
    intro t' tok' ht
    exact takes_setCall (s := (s.erase tok).unlock cb) (by simp [Call.Takes]) ht
  | exitWake =>
    cases ans with
    | ok =>
      simp only [hc, Option.some.injEq, Prod.mk.injEq] at h
      obtain ⟨rfl, rfl⟩ := h
      exact .quiet _ (by simp)
        (.of_setCall (.control rfl) rfl (by simp [Call.Takes]))
    | failed err => simp [hc] at h
    | submitted n => simp [hc] at h
  | returned ret => simp [hc] at h

theorem enterStep_change {s s' : State θ π κ} {t : Thread θ} {entry : Entry π κ}
    {e : List (Event π κ)} (h : enterStep s t entry = some (s', e)) : Change s s' e := by
  have hsame : SameCore s s := .control rfl
  simp only [enterStep, Option.ite_none_right_eq_some] at h
  obtain ⟨-, h⟩ := h
  cases entry with
  | addSqe op cb =>
    simp only [Option.some.injEq, Prod.mk.injEq] at h
    obtain ⟨rfl, rfl⟩ := h
    exact .quiet _ (by simp) (.of_setCall hsame rfl (by simp [Call.Takes]))
  | cancel tok =>
    simp only [Option.ite_none_right_eq_some, Option.some.injEq, Prod.mk.injEq] at h
    obtain ⟨-, rfl, rfl⟩ := h
    exact .erased tok rfl rfl rfl rfl rfl rfl (fun _ _ ht => ht)
  | wake ans =>
    cases ans with
    | ok =>
      simp only [Option.some.injEq, Prod.mk.injEq] at h
      obtain ⟨rfl, rfl⟩ := h
      exact .quiet _ (by simp) (.control rfl)
    | failed err =>
      simp only [Option.some.injEq, Prod.mk.injEq] at h
      obtain ⟨rfl, rfl⟩ := h
      exact .quiet _ (by simp) hsame
    | submitted n => cases h
  | exit err =>
    simp only [Option.some.injEq, Prod.mk.injEq] at h
    obtain ⟨rfl, rfl⟩ := h
    exact .quiet _ (by simp [Event.Quiet])
      (.of_setCall (.control rfl) rfl (by simp [Call.Takes]))

theorem finishStep_change {s s' : State θ π κ} {t : Thread θ} {e : List (Event π κ)}
    (h : finishStep s t = some (s', e)) : Change s s' e := by
  simp only [finishStep, Option.ite_none_right_eq_some] at h
  obtain ⟨-, h⟩ := h
  split at h
  · simp only [Option.some.injEq, Prod.mk.injEq] at h
    obtain ⟨rfl, rfl⟩ := h
    exact .quiet _ (by simp)
      (.of_setCall (.control rfl) rfl (by simp [Call.Takes]))
  · cases h

/-- `exit` called by the waker's callback moves only the loop's own counters. -/
theorem wakerExit_sameCore (s : State θ π κ) (err : ErrorCode) (rest : List (Ready κ))
    (hrest : s.loop.pending = rest) : SameCore s (s.wakerExit err rest) where
  sq := rfl
  inflight := rfl
  cq := rfl
  callbacks := rfl
  callbacksIdx := rfl
  pending := hrest.symm
  takes := by
    intro t tok ht
    exact takes_setCall (s := { s with exiting := true, exitingError := err, loop := .wakerExit rest })
      (by simp [Call.Takes]) ht

theorem collectStep_change {s : State θ π κ} {c : Cqe} {cq : List Cqe} {n : Nat}
    {ready : List (Ready κ)} (hcq : s.cq = c :: cq) (hpc : s.loop = .collect (n + 1) ready) :
    Change s (collectStep s c cq n ready).1 (collectStep s c cq n ready).2 := by
  cases hcb : s.callbacks c.userData with
  | some cb =>
    have hs : Change s (collectStep s c cq n ready).1 [.collected c (s.callbacks c.userData)] :=
      .collected c cq n ready hcq hpc (by simp [collectStep, hcb, State.erase])
    simpa [collectStep, hcb] using hs
  | none =>
    have hu : Function.update s.callbacks c.userData none = s.callbacks := by
      rw [← hcb, Function.update_eq_self]
    have hs : Change s (collectStep s c cq n ready).1 [.collected c (s.callbacks c.userData)] :=
      .collected c cq n ready hcq hpc (by simp [collectStep, hcb, hu])
    simpa [collectStep, hcb] using hs

theorem invokeStep_change {s : State θ π κ} {r : Ready κ} {rest : List (Ready κ)}
    (hpc : s.loop = .dispatch (r :: rest)) :
    Change s (invokeStep s r rest).1 (invokeStep s r rest).2 := by
  cases hcb : r.callback with
  | user k =>
    simp only [invokeStep, hcb]
    exact .invoked r rest [] (by simp) hpc rfl rfl rfl rfl rfl rfl (fun _ _ ht => ht)
  | waker =>
    cases hret : r.ret with
    | ok v =>
      simp only [invokeStep, hcb, hret]
      exact .invoked r rest [] (by simp) hpc rfl rfl rfl rfl rfl rfl (fun _ _ ht => ht)
    | error err =>
      simp only [invokeStep, hcb, hret]
      have hsame := wakerExit_sameCore { s with loop := .dispatch rest } err rest rfl
      exact .invoked r rest [.wakerExited err] (by simp [Event.Quiet]) hpc rfl rfl rfl rfl rfl rfl
        hsame.takes

theorem checkStep_change {s : State θ π κ} (hpc : s.loop = .check) :
    Change s (checkStep s).1 (checkStep s).2 := by
  unfold checkStep
  split
  · split
    · exact .quiet _ (by simp [Event.Quiet])
        (.control (by simp [hpc, LoopPc.pending]))
    · exact .quiet _ (by simp [Event.Quiet])
        (.control (by simp [hpc, LoopPc.pending]))
  · exact .quiet _ (by simp)
      (.control (by simp [hpc, LoopPc.pending]))

theorem loopStep_change {s s' : State θ π κ} {ans : Answer} {e : List (Event π κ)}
    (h : loopStep s ans = some (s', e)) : Change s s' e := by
  have hmove : ∀ pc : LoopPc κ, pc.pending = s.loop.pending →
      SameCore s { s with loop := pc } :=
    fun pc hpc => .control hpc
  unfold loopStep at h
  cases hpc : s.loop with
  | init =>
    simp only [hpc] at h
    split at h
    · simp only [Option.some.injEq, Prod.mk.injEq] at h
      obtain ⟨rfl, rfl⟩ := h
      exact .quiet _ (by simp)
        (.of_setCall (hmove .outside (by simp [hpc, LoopPc.pending])) rfl (by simp [Call.Takes]))
    · cases h
  | outside =>
    simp only [hpc, Option.some.injEq, Prod.mk.injEq] at h
    obtain ⟨rfl, rfl⟩ := h
    exact .quiet _ (by simp) (hmove .check (by simp [hpc, LoopPc.pending]))
  | check =>
    simp only [hpc, Option.some.injEq] at h
    have hch := checkStep_change hpc
    rw [h] at hch
    exact hch
  | submit =>
    cases ans with
    | submitted n =>
      simp only [hpc, Option.ite_none_right_eq_some, Option.some.injEq, Prod.mk.injEq] at h
      obtain ⟨⟨hfree, -⟩, rfl, rfl⟩ := h
      exact .submitted n hfree hpc rfl
    | ok => simp [hpc] at h
    | failed err => simp [hpc] at h
  | wait =>
    cases ans with
    | ok =>
      simp only [hpc, Option.ite_none_left_eq_some, Option.some.injEq, Prod.mk.injEq] at h
      obtain ⟨-, rfl, rfl⟩ := h
      exact .quiet _ (by simp) (hmove .peek (by simp [hpc, LoopPc.pending]))
    | failed err =>
      simp only [hpc, Option.some.injEq, Prod.mk.injEq] at h
      obtain ⟨rfl, rfl⟩ := h
      exact .quiet _ (by simp [Event.Quiet]) (hmove .outside (by simp [hpc, LoopPc.pending]))
    | submitted n => simp [hpc] at h
  | peek =>
    simp only [hpc, Option.some.injEq, Prod.mk.injEq] at h
    obtain ⟨rfl, rfl⟩ := h
    exact .quiet _ (by simp) (hmove _ (by simp [hpc, LoopPc.pending]))
  | lock n =>
    simp only [hpc, Option.ite_none_right_eq_some, Option.some.injEq, Prod.mk.injEq] at h
    obtain ⟨-, rfl, rfl⟩ := h
    exact .quiet _ (by simp)
      (.control (by simp [hpc, LoopPc.pending]))
  | collect n ready =>
    cases n with
    | zero =>
      simp only [hpc, Option.some.injEq, Prod.mk.injEq] at h
      obtain ⟨rfl, rfl⟩ := h
      exact .quiet _ (by simp)
        (.control (by simp [hpc, LoopPc.pending]))
    | succ n =>
      cases hcq : s.cq with
      | nil => simp [hpc, hcq] at h
      | cons c cq =>
        simp only [hpc, hcq, Option.some.injEq] at h
        have hch := collectStep_change hcq hpc
        rw [h] at hch
        exact hch
  | dispatch ready =>
    cases ready with
    | nil =>
      simp only [hpc, Option.some.injEq, Prod.mk.injEq] at h
      obtain ⟨rfl, rfl⟩ := h
      exact .quiet _ (by simp) (hmove .check (by simp [hpc, LoopPc.pending]))
    | cons r rest =>
      simp only [hpc, Option.some.injEq] at h
      have hch := invokeStep_change hpc
      rw [h] at hch
      exact hch
  | callback rest =>
    simp only [hpc, Option.ite_none_right_eq_some, Option.some.injEq, Prod.mk.injEq] at h
    obtain ⟨-, rfl, rfl⟩ := h
    exact .quiet _ (by simp) (hmove (.dispatch rest) (by simp [hpc, LoopPc.pending]))
  | wakerRead rest =>
    cases ans with
    | ok =>
      simp only [hpc, Option.ite_none_left_eq_some, Option.some.injEq, Prod.mk.injEq] at h
      obtain ⟨-, rfl, rfl⟩ := h
      exact .quiet _ (by simp)
        (.of_setCall (.control (by simp [hpc, LoopPc.pending])) rfl
          (by simp [Call.Takes]))
    | failed err =>
      simp only [hpc, Option.some.injEq, Prod.mk.injEq] at h
      obtain ⟨rfl, rfl⟩ := h
      exact .quiet _ (by simp [Event.Quiet])
        (wakerExit_sameCore s err rest (by simp [hpc, LoopPc.pending]))
    | submitted n => simp [hpc] at h
  | wakerRearm rest =>
    simp only [hpc] at h
    split at h
    · simp only [Option.some.injEq, Prod.mk.injEq] at h
      obtain ⟨rfl, rfl⟩ := h
      exact .quiet _ (by simp)
        (.of_setCall (hmove (.dispatch rest) (by simp [hpc, LoopPc.pending])) rfl
          (by simp [Call.Takes]))
    · simp only [Option.some.injEq, Prod.mk.injEq] at h
      obtain ⟨rfl, rfl⟩ := h
      exact .quiet _ (by simp [Event.Quiet])
        (wakerExit_sameCore s _ rest (by simp [hpc, LoopPc.pending]))
    · cases h
  | wakerExit rest =>
    simp only [hpc, Option.ite_none_right_eq_some, Option.some.injEq, Prod.mk.injEq] at h
    obtain ⟨-, rfl, rfl⟩ := h
    exact .quiet _ (by simp) (hmove (.dispatch rest) (by simp [hpc, LoopPc.pending]))

theorem postStep_change {s s' : State θ π κ} {i : Nat} {res : Int} {e : List (Event π κ)}
    (h : postStep s i res = some (s', e)) : Change s s' e := by
  unfold postStep at h
  split at h
  next q hq =>
    simp only [Option.some.injEq, Prod.mk.injEq] at h
    obtain ⟨rfl, rfl⟩ := h
    exact .posted i q res hq rfl
  next => cases h

/-- Every step is of one of the eight kinds. -/
theorem step_change {s s' : State θ π κ} {a : Action θ π κ} {e : List (Event π κ)}
    (h : step s a = some (s', e)) : Change s s' e := by
  cases a with
  | enter t entry => exact enterStep_change h
  | call t ans => exact callStep_change h
  | finish t => exact finishStep_change h
  | loop ans => exact loopStep_change h
  | post i res => exact postStep_change h

/-- Threads inside the critical section of `add_sqe` own `m_submission_`. -/
def Locked (s : State θ π κ) : Prop :=
  ∀ t, (s.call t).HoldsSubmission → s.mSubmission = some t

/-- A thread that moves to a place without the lock leaves the others as they are. -/
theorem Locked.setCall {s : State θ π κ} {t : Thread θ} {c : Call π κ} (hl : Locked s)
    (hc : c.HoldsSubmission → s.mSubmission = some t) : Locked (s.setCall t c) := by
  intro t' h
  by_cases ht : t' = t
  · subst t'
    exact hc (by simpa using h)
  · exact hl t' (by simpa [Function.update_of_ne ht] using h)

theorem Locked.release {s : State θ π κ} {t : Thread θ} {c : Call π κ} {cb : Option (Callback κ)}
    (hl : Locked s) (hold : (s.call t).HoldsSubmission) (hc : ¬c.HoldsSubmission) :
    Locked ((s.unlock cb).setCall t c) := by
  intro t' h
  by_cases ht : t' = t
  · subst t'
    exact absurd (by simpa using h) hc
  · have h' := hl t' (by simpa [Function.update_of_ne ht] using h)
    rw [hl t hold] at h'
    exact absurd (Option.some.inj h').symm ht

theorem callStep_locked {s s' : State θ π κ} {t : Thread θ} {ans : Answer}
    {e : List (Event π κ)} (h : callStep s t ans = some (s', e)) (hl : Locked s) :
    Locked s' := by
  unfold callStep at h
  cases hc : s.call t with
  | lockSubmission op cb =>
    simp only [hc, Option.ite_none_right_eq_some, Option.some.injEq, Prod.mk.injEq] at h
    obtain ⟨hfree, rfl, rfl⟩ := h
    intro t' ht'
    by_cases ht : t' = t
    · rw [ht]; rfl
    · have := hl t' (by simpa [Function.update_of_ne ht] using ht')
      rw [hfree] at this
      cases this
  | lockCallbacks op cb =>
    simp only [hc, Option.ite_none_right_eq_some, Option.some.injEq, Prod.mk.injEq] at h
    obtain ⟨-, rfl, rfl⟩ := h
    exact Locked.setCall hl fun _ => hl t (by simp [hc, Call.HoldsSubmission])
  | getSqe op cb =>
    have hold : (s.call t).HoldsSubmission := by simp [hc, Call.HoldsSubmission]
    simp only [hc] at h
    split at h <;> cases h
    · exact Locked.setCall (s := s.takeSqe op) hl fun _ => hl t hold
    · exact hl.release hold (by simp [Call.HoldsSubmission])
  | wake tok cb =>
    have hold : (s.call t).HoldsSubmission := by simp [hc, Call.HoldsSubmission]
    simp only [hc] at h
    split at h
    · split at h <;> cases h
      · exact Locked.setCall (s := s.write) hl fun _ => hl t hold
      · exact Locked.release (s := s.write) hl hold (by simp [Call.HoldsSubmission])
    · cases h
      exact hl.setCall fun _ => hl t hold
    · cases h
  | insert tok cb =>
    have hold : (s.call t).HoldsSubmission := by simp [hc, Call.HoldsSubmission]
    simp only [hc] at h
    cases h
    exact Locked.release (s := { s with callbacks := _ }) hl hold (by simp [Call.HoldsSubmission])
  | cancel tok cb err =>
    have hold : (s.call t).HoldsSubmission := by simp [hc, Call.HoldsSubmission]
    simp only [hc, Option.ite_none_right_eq_some, Option.some.injEq, Prod.mk.injEq] at h
    obtain ⟨-, rfl, rfl⟩ := h
    exact Locked.release (s := s.erase tok) hl hold (by simp [Call.HoldsSubmission])
  | exitWake =>
    simp only [hc] at h
    split at h <;> cases h
    exact Locked.setCall (s := s.write) hl (by simp [Call.HoldsSubmission])
  | idle => simp [hc] at h
  | returned ret => simp [hc] at h

/-- Only `add_sqe` itself moves a thread into its critical section. -/
theorem step_locked {s s' : State θ π κ} {a : Action θ π κ} {e : List (Event π κ)}
    (h : step s a = some (s', e)) (hl : Locked s) : Locked s' := by
  cases a with
  | call t ans => exact callStep_locked h hl
  | enter t entry =>
    simp only [step, enterStep] at h
    repeat' split at h
    all_goals cases h
    all_goals first
      | exact hl
      | exact Locked.setCall (s := { s with exiting := _ }) hl (by simp [Call.HoldsSubmission])
  | finish t =>
    simp only [step, finishStep] at h
    repeat' split at h
    all_goals cases h
    exact hl.setCall (by simp [Call.HoldsSubmission])
  | loop ans =>
    simp only [step, loopStep, checkStep, collectStep, invokeStep] at h
    repeat' split at h
    all_goals cases h
    all_goals first
      | exact hl
      | exact Locked.setCall (s := { s with loop := _ }) hl (by simp [Call.HoldsSubmission])
  | post i res =>
    simp only [step, postStep] at h
    split at h <;> cases h
    exact hl
end UringContext
