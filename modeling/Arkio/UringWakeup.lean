import Arkio.UringWaker

/-!
# No lost wakeup

Under the assumptions of `Healthy` the waker goes round one cycle: its poll is
added, submitted, completed, its callback is extracted, invoked, reads the
eventfd and adds the next poll. The invariant counts registrations in the
history: every waker that was added has been invoked, except the last one unless the
loop thread is just replacing it. That one is in the map or in the batch.
-/
namespace UringContext

open Bindings LabelledMachine

variable {θ π κ : Type}

/-- The answers of a kernel that does not fail: the eventfd is read without
error, and `submit` hands over all that is queued. -/
def LoopPc.Served : LoopPc κ → Nat → Answer → Prop
  | .submit, n, ans => ans = .submitted n
  | .wakerRead _, _, ans => ans = .ok
  | _, _, _ => True

/-- The waker's calls of the kernel succeed: reads and writes of the eventfd,
and its poll, which completes only while the counter is up. -/
def KernelOk (s : State θ π κ) : Action θ π κ → Prop
  | .enter _ (.wake ans) => ans = .ok
  | .call _ ans => ans = .ok
  | .loop ans => s.loop.Served s.sq.length ans
  | .post i res => s.inflight[i]?.map Sqe.op = some .pollWaker → 1 ≤ s.counter ∧ 0 ≤ res
  | _ => True

/-- The thread is at the `get_sqe` of `add_waker`. -/
def Call.GetsPoll : Call π κ → Prop
  | .getSqe .pollWaker _ => True
  | _ => False

/-- Arming the waker finds a free SQE. -/
def RearmRoom (s : State θ π κ) : Action θ π κ → Prop
  | .call t _ => (s.call t).GetsPoll → s.sq.length < batchSize
  | _ => True

/-- Nobody cancels the waker, whose token is handed to nobody. -/
def Spares (s : State θ π κ) : Action θ π κ → Prop
  | .enter _ (.cancel tok) => s.callbacks tok ≠ some .waker
  | _ => True

/-- The side condition under which the waker keeps going round. -/
structure Healthy (s : State θ π κ) (a : Action θ π κ) : Prop where
  kernel : KernelOk s a
  room : RearmRoom s a

/-- A call made by the user: nothing in it belongs to the waker. -/
def Call.Plain : Call π κ → Prop
  | .lockSubmission op cb => op ≠ .pollWaker ∧ cb ≠ some .waker
  | .lockCallbacks op cb => op ≠ .pollWaker ∧ cb ≠ .waker
  | .getSqe op cb => op ≠ .pollWaker ∧ cb ≠ some .waker
  | .wake _ cb => cb ≠ some .waker
  | .insert _ cb => cb ≠ .waker
  | .cancel _ _ _ => False
  | _ => True

/-- The `add_sqe` of `add_waker`, which cannot fail here. -/
def Call.Arms : Call π κ → Prop
  | .lockSubmission op cb => op = .pollWaker ∧ cb = some .waker
  | .lockCallbacks op cb => op = .pollWaker ∧ cb = .waker
  | .getSqe op cb => op = .pollWaker ∧ cb = some .waker
  | .wake _ cb => cb = some .waker
  | .insert _ cb => cb = .waker
  | .returned (.ok _) => True
  | _ => False

/-- The calls the loop thread can be in at each of its places. -/
def Control : LoopPc κ → Call π κ → Prop
  | .init, c => c.Arms
  | .wakerRearm _, c => c.Arms
  | .callback _, c => c.Plain
  | .wakerExit _, _ => False
  | _, c => c = .idle

/-- The waker is registered, or its callback still has to run. -/
def Armed : LoopPc κ → Call π κ → Prop
  | .wakerRead _, _ => False
  | .init, .returned _ => True
  | .init, _ => False
  | .wakerRearm _, .returned _ => True
  | .wakerRearm _, _ => False
  | _, _ => True

/-- The thread has queued the waker's poll and not yet registered its callback. -/
def Call.TakesWaker : Call π κ → Nat → Prop
  | .wake tok (some .waker), n => n = tok
  | .insert tok .waker, n => n = tok
  | _, _ => False

/-- The tokens of the waker's registrations. -/
def addedWakers (h : History π κ) : List Nat :=
  h.filterMap fun e => match e with | .added tok .waker => some tok | _ => none

/-- The tokens of the wakers that were invoked. -/
def invokedWakers (h : History π κ) : List Nat :=
  h.filterMap fun e => match e with | .invoked ⟨tok, .waker, _⟩ => some tok | _ => none

@[simp] theorem addedWakers_append (h h' : History π κ) :
    addedWakers (h ++ h') = addedWakers h ++ addedWakers h' := List.filterMap_append

@[simp] theorem invokedWakers_append (h h' : History π κ) :
    invokedWakers (h ++ h') = invokedWakers h ++ invokedWakers h' := List.filterMap_append

@[simp] theorem mem_addedWakers {h : History π κ} {tok : Nat} :
    tok ∈ addedWakers h ↔ .added tok .waker ∈ h := by
  refine mem_filterMap_of (g := fun tok => Event.added tok .waker) fun e tok => ?_
  cases e with
  | added tok' cb => cases cb <;> simp
  | _ => simp

theorem mem_invokedWakers {h : History π κ} {tok : Nat} :
    tok ∈ invokedWakers h ↔ ∃ ret, .invoked ⟨tok, .waker, ret⟩ ∈ h := by
  simp only [invokedWakers, List.mem_filterMap]
  constructor
  · rintro ⟨e, he, hc⟩
    split at hc
    next tok' ret =>
      obtain rfl := Option.some.inj hc
      exact ⟨ret, he⟩
    next => cases hc
  · rintro ⟨ret, hc⟩
    exact ⟨_, hc, rfl⟩

theorem addedWakers_sublist (h : History π κ) :
    (addedWakers h).Sublist ((added h).map Prod.fst) := by
  induction h with
  | nil => exact .slnil
  | cons e h ih =>
    cases e with
    | added tok cb =>
      cases cb with
      | waker => exact ih.cons_cons _
      | user k => exact ih.cons _
    | _ => exact ih

/-- The invariant of the waker's cycle. -/
structure WakerCycle (h : History π κ) (s : State θ π κ) : Prop where
  users : ∀ t, (s.call (.user t)).Plain
  control : Control s.loop (s.call .loop)
  armed : Armed s.loop (s.call .loop) → ∃ tok, addedWakers h = invokedWakers h ++ [tok]
  replacing : ¬Armed s.loop (s.call .loop) → addedWakers h = invokedWakers h
  link : ∀ q ∈ s.sq ++ s.inflight, q.op = .pollWaker ↔
    (.added q.userData .waker ∈ h ∨ (s.call .loop).TakesWaker q.userData)
  fired : ∀ c ∈ s.cq, .added c.userData .waker ∈ h → 0 ≤ c.res
  ready : ∀ r ∈ s.loop.pending, r.callback = .waker → ∃ v, r.ret = .ok v
  flushed : s.loop = .wait → ∀ q ∈ s.sq, q.op ≠ .pollWaker

/-- What the invariant reads of a state besides the program counters. -/
structure SameWaker (s s' : State θ π κ) : Prop where
  sq : s'.sq = s.sq
  inflight : s'.inflight = s.inflight
  cq : s'.cq = s.cq
  pending : s'.loop.pending = s.loop.pending
  wait : s'.loop = .wait → s.loop = .wait

/-- Steps that leave the rings and the loop where they are. -/
theorem SameWaker.control {s : State θ π κ} {f : Nat → Option (Callback κ)}
    {m m' : Option (Thread θ)} {n : Nat} {b : Bool} {err : ErrorCode} :
    SameWaker s { s with
      callbacks := f, mSubmission := m, mCallbacks := m', counter := n, exiting := b
      exitingError := err } where
  sq := rfl
  inflight := rfl
  cq := rfl
  pending := rfl
  wait := fun hw => hw

/-- Steps that move program counters only and say nothing about the waker. -/
theorem WakerCycle.frame {h e : History π κ} {s s' : State θ π κ} (hi : WakerCycle h s)
    (hsame : SameWaker s s') (hadded : addedWakers e = []) (hinvoked : invokedWakers e = [])
    (husers : ∀ t, (s'.call (.user t)).Plain) (hcontrol : Control s'.loop (s'.call .loop))
    (harmed : Armed s'.loop (s'.call .loop) ↔ Armed s.loop (s.call .loop))
    (htakes : ∀ tok, (s'.call .loop).TakesWaker tok ↔ (s.call .loop).TakesWaker tok) :
    WakerCycle (h ++ e) s' where
  users := husers
  control := hcontrol
  armed := by
    intro ha
    obtain ⟨tok, htok⟩ := hi.armed (harmed.mp ha)
    exact ⟨tok, by simpa [hadded, hinvoked] using htok⟩
  replacing := by
    intro ha
    have := hi.replacing (fun h' => ha (harmed.mpr h'))
    simpa [hadded, hinvoked] using this
  link := by
    intro q hq
    rw [hsame.sq, hsame.inflight] at hq
    rw [hi.link q hq, htakes, ← mem_addedWakers, ← mem_addedWakers, addedWakers_append, hadded,
      List.append_nil]
  fired := by
    intro c hc hadd
    rw [hsame.cq] at hc
    rw [← mem_addedWakers, addedWakers_append, hadded, List.append_nil, mem_addedWakers] at hadd
    exact hi.fired c hc hadd
  ready := by
    rw [hsame.pending]
    exact hi.ready
  flushed := by
    intro hpc
    rw [hsame.sq]
    exact hi.flushed (hsame.wait hpc)

theorem Call.Plain.not_takesWaker {c : Call π κ} (hc : c.Plain) (tok : Nat) :
    ¬c.TakesWaker tok := by
  unfold Call.TakesWaker
  split <;> simp_all [Call.Plain]

theorem Call.TakesWaker.takes {c : Call π κ} {tok : Nat} (h : c.TakesWaker tok) :
    c.Takes tok := by
  unfold Call.TakesWaker at h
  split at h <;> simp_all [Call.Takes]

/-- The waker's own call is made by `init` or by the waker's callback. -/
theorem WakerCycle.rearming {h : History π κ} {s : State θ π κ} (hi : WakerCycle h s)
    (hplain : ¬(s.call .loop).Plain) : s.loop = .init ∨ ∃ rest, s.loop = .wakerRearm rest := by
  have hc := hi.control
  cases hpc : s.loop <;> simp_all [Control, Call.Plain]

/-- A call of the user that is under way on the loop thread is made inside a
callback. -/
theorem WakerCycle.inCallback {h : History π κ} {s : State θ π κ} (hi : WakerCycle h s)
    (harms : ¬(s.call .loop).Arms) (hidle : s.call .loop ≠ .idle) :
    s.loop.inCallback = true := by
  have hc := hi.control
  cases hpc : s.loop <;> simp_all [Control, LoopPc.inCallback]

/-- The user's `get_sqe`: the new SQE is not the waker's. -/
theorem WakerCycle.takeSqe {h : History π κ} {s : State θ π κ} (hi : WakerCycle h s)
    (hr : Routing h s) {op : Op π} (hop : op ≠ .pollWaker) :
    WakerCycle (h ++ [.queued s.callbacksIdx op]) (s.takeSqe op) where
  users := hi.users
  control := hi.control
  armed := by simpa [addedWakers, invokedWakers] using hi.armed
  replacing := by simpa [addedWakers, invokedWakers] using hi.replacing
  link := by
    intro q hq
    simp only [State.takeSqe_sq, State.takeSqe_inflight, List.append_assoc, List.mem_append,
      List.mem_singleton] at hq
    rcases hq with hq | rfl | hq
    · simpa using hi.link q (List.mem_append_left _ hq)
    · refine iff_of_false hop ?_
      rintro (hadd | htakes)
      · have := hr.added_lt s.callbacksIdx .waker (by simpa using hadd)
        omega
      · have := hr.lt_of_mem_sq (hr.taken .loop s.callbacksIdx htakes.takes).1
        omega
    · simpa using hi.link q (List.mem_append_right _ hq)
  fired := by simpa using hi.fired
  ready := hi.ready
  flushed := by
    intro hpc q hq
    rcases List.mem_append.mp hq with hq | hq
    · exact hi.flushed hpc q hq
    · rw [List.mem_singleton.mp hq]
      exact hop

variable [DecidableEq θ]

/-- A thread moves inside a call of the user. -/
theorem WakerCycle.setPlain {h e : History π κ} {s s₁ : State θ π κ} {t : Thread θ}
    {c : Call π κ} (hi : WakerCycle h s) (hsame : SameWaker s s₁) (hcall : s₁.call = s.call)
    (hloop : s₁.loop = s.loop) (hadded : addedWakers e = []) (hinvoked : invokedWakers e = [])
    (ht : t = .loop → s.loop.inCallback = true) (hc : c.Plain) :
    WakerCycle (h ++ e) (s₁.setCall t c) := by
  have hsame' : SameWaker s (s₁.setCall t c) :=
    ⟨hsame.sq, hsame.inflight, hsame.cq, hsame.pending, hsame.wait⟩
  cases t with
  | user t =>
    refine hi.frame hsame' hadded hinvoked ?_ ?_ ?_ ?_
    · intro t'
      by_cases he : t' = t
      · simpa [he] using hc
      · simpa [Function.update_of_ne, he, hcall] using hi.users t'
    · simpa [hcall, hloop] using hi.control
    · simp [hcall, hloop]
    · simp [hcall]
  | loop =>
    have hin := ht rfl
    cases hpc : s.loop <;> simp only [hpc, LoopPc.inCallback, Bool.false_eq_true] at hin
    have hold := hi.control
    rw [hpc] at hold
    refine hi.frame hsame' hadded hinvoked ?_ ?_ ?_ ?_
    · intro t
      simpa [hcall] using hi.users t
    · simpa [hloop, hpc, Control] using hc
    · simp [hloop, hpc, Armed]
    · intro tok
      simp only [State.setCall_call, Function.update_self]
      exact iff_of_false (hc.not_takesWaker tok) (hold.not_takesWaker tok)

/-- The waker's `get_sqe`: the loop thread now takes the only poll there is. -/
theorem WakerCycle.takePoll {h : History π κ} {s : State θ π κ} (hi : WakerCycle h s)
    (hr : Routing h s) (hcall : s.call .loop = .getSqe .pollWaker (some .waker)) :
    WakerCycle (h ++ [.queued s.callbacksIdx .pollWaker])
      ((s.takeSqe .pollWaker).setCall .loop (.wake s.callbacksIdx (some .waker))) := by
  have hpc := hi.rearming (by simp [hcall, Call.Plain])
  have hnot : ¬Armed s.loop (s.call .loop) := by
    rcases hpc with hpc | ⟨rest, hpc⟩ <;> simp [hpc, hcall, Armed]
  have hnot' : ∀ c : Call π κ, c = .wake s.callbacksIdx (some .waker) → ¬Armed s.loop c := by
    rintro c rfl
    rcases hpc with hpc | ⟨rest, hpc⟩ <;> simp [hpc, Armed]
  refine ⟨by simpa using hi.users, ?_, fun ha => absurd ha (hnot' _ (by simp)), ?_, ?_, ?_, hi.ready,
    ?_⟩
  · rcases hpc with hpc | ⟨rest, hpc⟩ <;> simp [hpc, Control, Call.Arms]
  · intro _
    simpa [addedWakers, invokedWakers] using hi.replacing hnot
  · intro q hq
    simp only [State.setCall_sq, State.takeSqe_sq, State.setCall_inflight, State.takeSqe_inflight,
      List.append_assoc, List.mem_append, List.mem_singleton] at hq
    have hold : ∀ q ∈ s.sq ++ s.inflight, q.op = .pollWaker ↔
        (.added q.userData .waker ∈ h ++ [Event.queued s.callbacksIdx .pollWaker] ∨
          q.userData = s.callbacksIdx) := by
      intro q hq
      have hlt := hr.lt_of_mem hq
      rw [hi.link q hq, hcall]
      simp [Call.TakesWaker, hlt.ne]
    have htakes : ((((s.takeSqe .pollWaker).setCall .loop
        (.wake s.callbacksIdx (some .waker))).call .loop).TakesWaker q.userData) ↔
        q.userData = s.callbacksIdx := by simp [Call.TakesWaker]
    rw [htakes]
    rcases hq with hq | rfl | hq
    · exact hold q (List.mem_append_left _ hq)
    · simp
    · exact hold q (List.mem_append_right _ hq)
  · simpa using hi.fired
  · intro hwait
    rcases hpc with hpc | ⟨rest, hpc⟩ <;> simp [hpc] at hwait

/-- The waker's registration: the last waker added is in the map. -/
theorem WakerCycle.insertWaker {h : History π κ} {s : State θ π κ} (hi : WakerCycle h s)
    (hr : Routing h s) {tok : Nat} (hcall : s.call .loop = .insert tok .waker) :
    WakerCycle (h ++ [.added tok .waker])
      (({ s with callbacks := Function.update s.callbacks tok (some .waker) }.unlock
        (some .waker)).setCall .loop (.returned (.ok tok))) := by
  have hpc := hi.rearming (by simp [hcall, Call.Plain])
  have hnot : ¬Armed s.loop (s.call .loop) := by
    rcases hpc with hpc | ⟨rest, hpc⟩ <;> simp [hpc, hcall, Armed]
  have hsq := (hr.taken .loop tok (by simp [hcall, Call.Takes])).1
  refine ⟨by simpa using hi.users, ?_, ?_, ?_, ?_, ?_, hi.ready, ?_⟩
  · rcases hpc with hpc | ⟨rest, hpc⟩ <;> simp [hpc, Control, Call.Arms]
  · intro _
    refine ⟨tok, ?_⟩
    have hadd : addedWakers [(.added tok .waker : Event π κ)] = [tok] := rfl
    have hinv : invokedWakers [(.added tok .waker : Event π κ)] = [] := rfl
    rw [addedWakers_append, invokedWakers_append, hi.replacing hnot, hadd, hinv, List.append_nil]
  · intro hno
    refine absurd ?_ hno
    rcases hpc with hpc | ⟨rest, hpc⟩ <;> simp [hpc, Armed]
  · intro q hq
    rw [hi.link q hq, hcall]
    simp [Call.TakesWaker]
  · intro c hc hadd
    have hne : c.userData ≠ tok := by
      rintro rfl
      refine hr.not_completed ?_ (List.mem_map_of_mem hc)
      rw [List.map_append]
      exact List.mem_append_right _ hsq
    refine hi.fired c hc ?_
    simpa [hne] using hadd
  · intro hwait
    rcases hpc with hpc | ⟨rest, hpc⟩ <;> simp [hpc] at hwait

/-- The waker's `add_sqe` moves on without touching the rings or the map. -/
theorem WakerCycle.setArms {h : History π κ} {s m : State θ π κ} {c : Call π κ}
    (hi : WakerCycle h s) (hsame : SameWaker s m) (hcall : m.call = s.call)
    (hloop : m.loop = s.loop) (hplain : ¬(s.call .loop).Plain) (hc : c.Arms) (hc' : ¬c.Plain)
    (htakes : ∀ tok, c.TakesWaker tok ↔ (s.call .loop).TakesWaker tok) :
    WakerCycle h (m.setCall .loop c) := by
  have hpc := hi.rearming hplain
  have hnot : ∀ c : Call π κ, ¬c.Plain → ¬Armed s.loop c := by
    intro c hc
    rcases hpc with hpc | ⟨rest, hpc⟩ <;> cases c <;> simp_all [Armed, Call.Plain]
  have hsame' : SameWaker s (m.setCall .loop c) :=
    ⟨hsame.sq, hsame.inflight, hsame.cq, hsame.pending, hsame.wait⟩
  have := hi.frame (e := []) hsame' rfl rfl ?_ ?_ ?_ ?_
  · simpa using this
  · intro t
    simpa [hcall] using hi.users t
  · rcases hpc with hpc | ⟨rest, hpc⟩ <;> simpa [hloop, hpc, Control] using hc
  · simp only [State.setCall_loop, State.setCall_call, Function.update_self, hloop]
    exact iff_of_false (hnot _ hc') (hnot _ hplain)
  · simpa using htakes

omit [DecidableEq θ] in
/-- Every call is the user's or the waker's. -/
theorem WakerCycle.role {h : History π κ} {s : State θ π κ} (hi : WakerCycle h s)
    (t : Thread θ) : (s.call t).Plain ∨ (t = .loop ∧ (s.call .loop).Arms) := by
  cases t with
  | user t => exact .inl (hi.users t)
  | loop =>
    have hc := hi.control
    cases hpc : s.loop <;> simp_all [Control, Call.Plain]

theorem callStep_cycle {h e : History π κ} {s s' : State θ π κ} {t : Thread θ} {ans : Answer}
    (hs : callStep s t ans = some (s', e)) (hok : Healthy s (.call t ans)) (hr : Routing h s)
    (hi : WakerCycle h s) : WakerCycle (h ++ e) s' := by
  have hin : ¬(s.call t).Arms → s.call t ≠ .idle → t = .loop → s.loop.inCallback = true := by
    rintro harms hidle rfl
    exact hi.inCallback harms hidle
  obtain ⟨rfl, hroom⟩ := hok
  simp only [RearmRoom] at hroom
  have hrole := hi.role t
  unfold callStep at hs
  cases hc : s.call t with
  | lockSubmission op cb =>
    simp only [hc, Option.ite_none_right_eq_some, Option.some.injEq, Prod.mk.injEq] at hs
    obtain ⟨-, rfl, rfl⟩ := hs
    rcases hrole with hplain | ⟨rfl, harms⟩
    · rw [hc] at hplain hin
      refine hi.setPlain .control rfl rfl rfl rfl (hin ?_ (by simp)) ?_
      · simp only [Call.Arms, not_and]
        exact fun hop => absurd hop hplain.1
      · cases cb <;> simp_all [Call.Plain]
    · obtain ⟨rfl, rfl⟩ : op = .pollWaker ∧ cb = some .waker := by simpa [hc, Call.Arms] using harms
      have := hi.setArms (m := { s with mSubmission := some .loop })
        (c := .lockCallbacks .pollWaker .waker)
        .control rfl rfl (by simp [hc, Call.Plain])
        (by simp [Call.Arms]) (by simp [Call.Plain]) (by simp [hc, Call.TakesWaker])
      simpa using this
  | lockCallbacks op cb =>
    simp only [hc, Option.ite_none_right_eq_some, Option.some.injEq, Prod.mk.injEq] at hs
    obtain ⟨-, rfl, rfl⟩ := hs
    rcases hrole with hplain | ⟨rfl, harms⟩
    · rw [hc] at hplain hin
      refine hi.setPlain .control rfl rfl rfl rfl (hin ?_ (by simp)) ?_
      · simp only [Call.Arms, not_and]
        exact fun hop => absurd hop hplain.1
      · simpa [Call.Plain] using hplain
    · obtain ⟨rfl, rfl⟩ : op = .pollWaker ∧ cb = .waker := by simpa [hc, Call.Arms] using harms
      have := hi.setArms (m := { s with mCallbacks := some .loop })
        (c := .getSqe .pollWaker (some .waker))
        .control rfl rfl (by simp [hc, Call.Plain])
        (by simp [Call.Arms]) (by simp [Call.Plain]) (by simp [hc, Call.TakesWaker])
      simpa using this
  | getSqe op cb =>
    rcases hrole with hplain | ⟨rfl, harms⟩
    · rw [hc] at hplain hin
      have hloop := hin (by simpa [Call.Arms] using fun hop => absurd hop hplain.1) (by simp)
      simp only [hc] at hs
      split at hs <;> cases hs
      · have hsame : SameWaker (s.takeSqe op) (s.takeSqe op) := .control
        have := (hi.takeSqe hr hplain.1).setPlain (t := t) (c := .wake s.callbacksIdx cb) (e := [])
          hsame rfl rfl rfl rfl hloop hplain.2
        simpa using this
      · exact hi.setPlain .control rfl rfl rfl rfl hloop (by simp [Call.Plain])
    · obtain ⟨rfl, rfl⟩ : op = .pollWaker ∧ cb = some .waker := by simpa [hc, Call.Arms] using harms
      simp only [hc, if_pos (hroom (by simp [hc, Call.GetsPoll]))] at hs
      cases hs
      exact hi.takePoll hr hc
  | wake tok cb =>
    rcases hrole with hplain | ⟨rfl, harms⟩
    · rw [hc] at hplain hin
      have hloop := hin hplain (by simp)
      cases cb with
      | some cb =>
        simp only [hc] at hs
        cases hs
        refine hi.setPlain .control rfl rfl rfl rfl hloop ?_
        simpa [Call.Plain] using hplain
      | none =>
        simp only [hc] at hs
        cases hs
        exact hi.setPlain .control rfl rfl rfl rfl hloop (by simp [Call.Plain])
    · obtain rfl : cb = some .waker := by simpa [hc, Call.Arms] using harms
      simp only [hc] at hs
      cases hs
      have := hi.setArms (m := s.write) (c := .insert tok .waker)
        .control rfl rfl (by simp [hc, Call.Plain])
        (by simp [Call.Arms]) (by simp [Call.Plain]) (by simp [hc, Call.TakesWaker])
      simpa using this
  | insert tok cb =>
    simp only [hc] at hs
    cases hs
    rcases hrole with hplain | ⟨rfl, harms⟩
    · rw [hc] at hplain hin
      have hloop := hin hplain (by simp)
      refine hi.setPlain .control rfl rfl ?_ rfl hloop (by simp [Call.Plain])
      cases cb with
      | waker => exact absurd rfl hplain
      | user k => rfl
    · obtain rfl : cb = .waker := by simpa [hc, Call.Arms] using harms
      exact hi.insertWaker hr hc
  | cancel tok cb err =>
    rcases hrole with hplain | ⟨rfl, harms⟩
    · simp [hc, Call.Plain] at hplain
    · simp [hc, Call.Arms] at harms
  | exitWake =>
    simp only [hc] at hs
    cases hs
    rw [hc] at hin
    exact hi.setPlain .control rfl rfl rfl rfl
      (hin (by simp [Call.Arms]) (by simp)) (by simp [Call.Plain])
  | idle => simp [hc] at hs
  | returned ret => simp [hc] at hs

theorem enterStep_cycle {h e : History π κ} {s s' : State θ π κ} {t : Thread θ}
    {entry : Entry π κ} (hs : enterStep s t entry = some (s', e))
    (hok : KernelOk s (.enter t entry)) (hi : WakerCycle h s) : WakerCycle (h ++ e) s' := by
  simp only [enterStep, Option.ite_none_right_eq_some, Bool.and_eq_true] at hs
  obtain ⟨⟨-, hmay⟩, hs⟩ := hs
  have hin : t = .loop → s.loop.inCallback = true := by
    rintro rfl
    exact hmay
  cases entry with
  | addSqe op cb =>
    cases hs
    refine hi.setPlain .control rfl rfl rfl rfl hin ?_
    cases cb <;> simp [Call.Plain]
  | cancel tok =>
    simp only [Option.ite_none_right_eq_some, Option.some.injEq, Prod.mk.injEq] at hs
    obtain ⟨-, rfl, rfl⟩ := hs
    exact hi.frame .control rfl rfl hi.users hi.control Iff.rfl fun _ => Iff.rfl
  | wake ans =>
    obtain rfl : ans = .ok := hok
    cases hs
    exact hi.frame .control rfl rfl hi.users hi.control Iff.rfl fun _ => Iff.rfl
  | exit err =>
    cases hs
    exact hi.setPlain .control rfl rfl rfl rfl hin (by simp [Call.Plain])

theorem finishStep_cycle {h e : History π κ} {s s' : State θ π κ} {t : Thread θ}
    (hs : finishStep s t = some (s', e)) (hi : WakerCycle h s) : WakerCycle (h ++ e) s' := by
  simp only [finishStep, Option.ite_none_right_eq_some] at hs
  obtain ⟨hmay, hs⟩ := hs
  have hin : t = .loop → s.loop.inCallback = true := by
    rintro rfl
    exact hmay
  split at hs <;> cases hs
  exact hi.setPlain .control rfl rfl rfl rfl hin (by simp [Call.Plain])

omit [DecidableEq θ] in
theorem postStep_cycle {h e : History π κ} {s s' : State θ π κ} {i : Nat} {res : Int}
    (hs : postStep s i res = some (s', e)) (hok : KernelOk s (.post i res)) (hi : WakerCycle h s) : WakerCycle (h ++ e) s' := by
  unfold postStep at hs
  split at hs
  next q hq =>
    cases hs
    have hmem : q ∈ s.sq ++ s.inflight := List.mem_append_right _ (List.mem_of_getElem? hq)
    refine ⟨hi.users, hi.control, ?_, ?_, ?_, ?_, hi.ready, hi.flushed⟩
    · simpa [addedWakers, invokedWakers] using hi.armed
    · simpa [addedWakers, invokedWakers] using hi.replacing
    · intro q' hq'
      have hsub : q' ∈ s.sq ++ s.inflight := by
        rcases List.mem_append.mp hq' with hq' | hq'
        · exact List.mem_append_left _ hq'
        · exact List.mem_append_right _ (List.mem_of_mem_eraseIdx hq')
      simpa using hi.link q' hsub
    · intro c hc hadd
      replace hadd : Event.added c.userData .waker ∈ h := by simpa using hadd
      rcases List.mem_append.mp hc with hc | hc
      · exact hi.fired c hc hadd
      · obtain rfl := List.mem_singleton.mp hc
        have hop := (hi.link q hmem).mpr (.inl hadd)
        exact (hok (by simp [hq, hop])).2
  next => cases hs

omit [DecidableEq θ] in
/-- The loop thread goes on between two places at which it makes no call. -/
theorem WakerCycle.advance {h e : History π κ} {s s' : State θ π κ} (hi : WakerCycle h s)
    (hsame : SameWaker s s') (hcall : s'.call = s.call) (hidle : s.call .loop = .idle)
    (ha : Armed s.loop (.idle : Call π κ)) (hc' : Control s'.loop (.idle : Call π κ))
    (ha' : Armed s'.loop (.idle : Call π κ)) (hadded : addedWakers e = [])
    (hinvoked : invokedWakers e = []) : WakerCycle (h ++ e) s' := by
  refine hi.frame hsame hadded hinvoked ?_ ?_ ?_ ?_
  · simpa [hcall] using hi.users
  · simpa [hcall, hidle] using hc'
  · rw [hcall, hidle]
    exact iff_of_true ha' ha
  · simp [hcall]

omit [DecidableEq θ] in
/-- `submit` takes the poll to the kernel with everything else. -/
theorem WakerCycle.submitAll {h : History π κ} {s : State θ π κ} (hi : WakerCycle h s)
    (hpc : s.loop = .submit) :
    WakerCycle h { s with
      sq := s.sq.drop s.sq.length
      inflight := s.inflight ++ s.sq.take s.sq.length
      loop := .wait } := by
  have hidle : s.call .loop = .idle := by simpa [hpc, Control] using hi.control
  refine ⟨hi.users, hidle, ?_, ?_, ?_, hi.fired, ?_, ?_⟩
  · intro _
    simpa [hpc, hidle, Armed] using hi.armed
  · intro hno
    exact absurd trivial hno
  · intro q hq
    refine hi.link q ?_
    simp only [List.drop_length, List.nil_append, List.take_length, List.mem_append] at hq ⊢
    exact hq.symm
  · simp [LoopPc.pending]
  · simp

omit [DecidableEq θ] in
/-- The loop collects a CQE: the waker moves from the map to the batch. -/
theorem WakerCycle.collectedCqe {h : History π κ} {s : State θ π κ} (hi : WakerCycle h s)
    (hr : Routing h s) {c : Cqe} {cq : List Cqe} {n : Nat} {ready : List (Ready κ)}
    (hcq : s.cq = c :: cq) (hpc : s.loop = .collect (n + 1) ready) :
    WakerCycle (h ++ [.collected c (s.callbacks c.userData)]) { s with
      callbacks := Function.update s.callbacks c.userData none
      cq := cq
      loop := .collect n (ready ++
        (s.callbacks c.userData).toList.map (⟨c.userData, ·, toResult c.res⟩)) } := by
  have hidle : s.call .loop = .idle := by simpa [hpc, Control] using hi.control
  have hadd : ∀ tok, Event.added tok .waker ∈ h ++ [.collected c (s.callbacks c.userData)] ↔
      .added tok .waker ∈ h := by simp
  have hlists : addedWakers [(.collected c (s.callbacks c.userData) : Event π κ)] = [] ∧
      invokedWakers [(.collected c (s.callbacks c.userData) : Event π κ)] = [] := ⟨rfl, rfl⟩
  refine ⟨hi.users, hidle, ?_, ?_, ?_, ?_, ?_, ?_⟩
  · intro _
    obtain ⟨tok, htok⟩ := hi.armed (by simp [hpc, Armed])
    exact ⟨tok, by simpa [hlists] using htok⟩
  · intro hno
    exact absurd trivial hno
  · intro q hq
    rw [hi.link q hq, hadd]
  · intro c' hc' ha
    exact hi.fired c' (by simp [hcq, hc']) ((hadd _).mp ha)
  · intro r hmem hrc
    simp only [LoopPc.pending, List.mem_append, List.mem_map, Option.mem_toList] at hmem
    rcases hmem with hmem | ⟨cb, hcb, rfl⟩
    · exact hi.ready r (by simpa [hpc, LoopPc.pending] using hmem) hrc
    · obtain rfl : cb = .waker := hrc
      have hlive := (hr.live _ _).mp hcb
      exact ⟨c.res, toResult_nonneg (hi.fired c (by simp [hcq]) hlive.added_mem)⟩
  · simp

omit [DecidableEq θ] in
/-- A user's callback is invoked. -/
theorem WakerCycle.invokedUser {h : History π κ} {s : State θ π κ} (hi : WakerCycle h s)
    {r : Ready κ} {rest : List (Ready κ)} (hpc : s.loop = .dispatch (r :: rest)) {k : κ}
    (hk : r.callback = .user k) :
    WakerCycle (h ++ [.invoked r]) { s with loop := .callback rest } := by
  have hidle : s.call .loop = .idle := by simpa [hpc, Control] using hi.control
  have hnone : invokedWakers [(.invoked r : Event π κ)] = [] := by
    obtain ⟨tok, cb, ret⟩ := r
    obtain rfl : cb = .user k := hk
    rfl
  have hlists : addedWakers [(.invoked r : Event π κ)] = [] := rfl
  refine ⟨hi.users, by simp [hidle, Control, Call.Plain], ?_, ?_, ?_, ?_, ?_, ?_⟩
  · intro _
    obtain ⟨tok, htok⟩ := hi.armed (by simp [hpc, Armed])
    exact ⟨tok, by simpa [hlists, hnone] using htok⟩
  · intro hno
    exact absurd trivial hno
  · simpa using hi.link
  · simpa using hi.fired
  · intro r' hmem
    exact hi.ready r' (by simpa [hpc, LoopPc.pending] using .inr hmem)
  · simp

omit [DecidableEq θ] in
/-- The waker is invoked: it is the one registration that was still open. -/
theorem WakerCycle.invokedWaker {h : History π κ} {s : State θ π κ} (hi : WakerCycle h s)
    (hr : Routing h s) {r : Ready κ} {rest : List (Ready κ)}
    (hpc : s.loop = .dispatch (r :: rest)) (hk : r.callback = .waker) :
    WakerCycle (h ++ [.invoked r]) { s with loop := .wakerRead rest } := by
  have hidle : s.call .loop = .idle := by simpa [hpc, Control] using hi.control
  obtain ⟨hadd, hnew⟩ := hr.of_pending (r := r) (by simp [hpc, LoopPc.pending])
  have hone : invokedWakers [(.invoked r : Event π κ)] = [r.token] := by
    obtain ⟨tok, cb, ret⟩ := r
    obtain rfl : cb = .waker := hk
    rfl
  have hlists : addedWakers [(.invoked r : Event π κ)] = [] := rfl
  refine ⟨hi.users, hidle, fun ha => absurd ha (by simp [Armed]), ?_, ?_, ?_, ?_, ?_⟩
  · intro _
    obtain ⟨tok, htok⟩ := hi.armed (by simp [hpc, Armed])
    have hmem : r.token ∈ addedWakers h := by simpa [hk] using hadd
    rw [htok, List.mem_append, List.mem_singleton] at hmem
    rcases hmem with hmem | rfl
    · obtain ⟨ret, hinv⟩ := mem_invokedWakers.mp hmem
      exact (hnew _ hinv rfl).elim
    · simpa [hlists, hone] using htok
  · simpa using hi.link
  · simpa using hi.fired
  · intro r' hmem
    exact hi.ready r' (by simpa [hpc, LoopPc.pending] using .inr hmem)
  · simp

theorem loopStep_cycle {h e : History π κ} {s s' : State θ π κ} {ans : Answer}
    (hs : loopStep s ans = some (s', e)) (hok : KernelOk s (.loop ans)) (hr : Routing h s)
    (hi : WakerCycle h s) : WakerCycle (h ++ e) s' := by
  have hctl := hi.control
  simp only [KernelOk] at hok
  have hmove : ∀ pc : LoopPc κ, pc.pending = s.loop.pending → pc ≠ .wait →
      SameWaker s { s with loop := pc } :=
    fun pc hpending hwait => ⟨rfl, rfl, rfl, hpending, fun hw => absurd hw hwait⟩
  unfold loopStep at hs
  cases hpc : s.loop with
  | init =>
    simp only [hpc] at hs
    split at hs <;> cases hs
    next hc =>
      refine hi.frame ⟨rfl, rfl, rfl, by simp [hpc, LoopPc.pending], by simp⟩
        rfl rfl (by simpa using hi.users) (by simp [Control]) ?_ ?_
      · exact iff_of_true (by simp [Armed]) (by simp [hpc, hc, Armed])
      · simp [hc, Call.TakesWaker]
  | submit =>
    simp only [hpc] at hs
    rw [hpc] at hok
    rw [show ans = _ from hok] at hs
    simp only [Option.ite_none_right_eq_some, Option.some.injEq, Prod.mk.injEq] at hs
    obtain ⟨-, rfl, rfl⟩ := hs
    simpa using hi.submitAll hpc
  | collect n ready =>
    rw [hpc] at hctl
    cases n with
    | zero =>
      simp only [hpc] at hs
      cases hs
      exact hi.advance ⟨rfl, rfl, rfl, by simp [hpc, LoopPc.pending], by simp⟩
        rfl hctl (by simp [hpc, Armed]) (by simp [Control]) (by simp [Armed]) rfl rfl
    | succ n =>
      cases hcq : s.cq with
      | nil => simp [hpc, hcq] at hs
      | cons c cq =>
        have hcol := hi.collectedCqe hr hcq hpc
        cases hcb : s.callbacks c.userData with
        | some cb =>
          simp only [hpc, hcq, collectStep, hcb] at hs
          cases hs
          simpa [hcb, State.erase] using hcol
        | none =>
          simp only [hpc, hcq, collectStep, hcb] at hs
          cases hs
          have hu : Function.update s.callbacks c.userData none = s.callbacks := by
            rw [← hcb, Function.update_eq_self]
          simpa [hcb, hu] using hcol
  | dispatch ready =>
    rw [hpc] at hctl
    cases ready with
    | nil =>
      simp only [hpc] at hs
      cases hs
      exact hi.advance (hmove _ (by simp [hpc, LoopPc.pending]) (by simp)) rfl hctl
        (by simp [hpc, Armed]) (by simp [Control]) (by simp [Armed]) rfl rfl
    | cons r rest =>
      simp only [hpc, invokeStep] at hs
      cases hk : r.callback with
      | user k =>
        simp only [hk] at hs
        cases hs
        exact hi.invokedUser hpc hk
      | waker =>
        obtain ⟨v, hv⟩ := hi.ready r (by simp [hpc, LoopPc.pending]) hk
        simp only [hk, hv] at hs
        cases hs
        exact hi.invokedWaker hr hpc hk
  | callback rest =>
    simp only [hpc, Option.ite_none_right_eq_some, Option.some.injEq, Prod.mk.injEq] at hs
    obtain ⟨hidle, rfl, rfl⟩ := hs
    exact hi.advance (hmove _ (by simp [hpc, LoopPc.pending]) (by simp)) rfl
      (Call.isIdle_iff.mp hidle) (by simp [hpc, Armed]) (by simp [Control]) (by simp [Armed]) rfl rfl
  | wakerRead rest =>
    simp only [hpc] at hs hctl
    rw [hpc] at hok
    rw [show ans = .ok from hok] at hs
    simp only [Option.ite_none_left_eq_some, Option.some.injEq, Prod.mk.injEq] at hs
    obtain ⟨-, rfl, rfl⟩ := hs
    refine hi.frame ⟨rfl, rfl, rfl, by simp [hpc, LoopPc.pending], by simp⟩
      rfl rfl (by simpa using hi.users) (by simp [Control, Call.Arms]) ?_ ?_
    · exact iff_of_false (by simp [Armed]) (by simp [hpc, Armed])
    · simp only [Control] at hctl
      simp [hctl, Call.TakesWaker]
  | wakerRearm rest =>
    simp only [hpc] at hs
    split at hs <;> cases hs
    next hc =>
      refine hi.frame ⟨rfl, rfl, rfl, by simp [hpc, LoopPc.pending], by simp⟩
        rfl rfl (by simpa using hi.users) (by simp [Control]) ?_ ?_
      · exact iff_of_true (by simp [Armed]) (by simp [hpc, hc, Armed])
      · simp [hc, Call.TakesWaker]
    next hc => simp [hpc, hc, Control, Call.Arms] at hctl
  | wakerExit rest => simp [hpc, Control] at hctl
  | lock n =>
    rw [hpc] at hctl
    simp only [hpc, Option.ite_none_right_eq_some, Option.some.injEq, Prod.mk.injEq] at hs
    obtain ⟨-, rfl, rfl⟩ := hs
    exact hi.advance ⟨rfl, rfl, rfl, by simp [hpc, LoopPc.pending], by simp⟩
      rfl hctl (by simp [hpc, Armed]) (by simp [Control]) (by simp [Armed]) rfl rfl
  | _ =>
    rw [hpc] at hctl
    simp only [hpc, checkStep] at hs
    repeat' split at hs
    all_goals cases hs
    all_goals
      exact hi.advance ⟨rfl, rfl, rfl, by simp [hpc, LoopPc.pending], by simp⟩
        rfl hctl (by simp [hpc, Armed]) (by simp [Control]) (by simp [Armed]) rfl rfl

theorem step_cycle {h e : History π κ} {s s' : State θ π κ} {a : Action θ π κ}
    (hs : step s a = some (s', e)) (hok : Healthy s a) (hr : Routing h s)
    (hi : WakerCycle h s) : WakerCycle (h ++ e) s' := by
  cases a with
  | enter t entry => exact enterStep_cycle hs hok.kernel hi
  | call t ans => exact callStep_cycle hs hok hr hi
  | finish t => exact finishStep_cycle hs hi
  | loop ans => exact loopStep_cycle hs hok.kernel hr hi
  | post i res => exact postStep_cycle hs hok.kernel hi

theorem wakerCycle_start : WakerCycle ([] : History π κ) (start : State θ π κ) where
  users := by simp [start, Call.Plain]
  control := by simp [start, Control, Call.Arms]
  armed := by simp [start, Armed]
  replacing := fun _ => rfl
  link := by simp [start]
  fired := by simp [start]
  ready := by simp [start, LoopPc.pending]
  flushed := by simp [start]

/-- The waker's cycle is kept by every healthy execution. -/
theorem WakerCycle.of_run {h : History π κ} {s : State θ π κ}
    (hrun : Run step Healthy start h s) : WakerCycle h s :=
  hrun.invariant_under (fun _ _ => Routing.of_run) wakerCycle_start
    fun _ _ _ _ _ hr hi hok hs => step_cycle hs hok hr hi

/-- The polls of the eventfd among some SQEs. -/
def polls (qs : List (Sqe π)) : List (Sqe π) :=
  qs.filter fun q => match q.op with | .pollWaker => true | .user _ => false

theorem mem_polls {qs : List (Sqe π)} {q : Sqe π} :
    q ∈ polls qs ↔ q ∈ qs ∧ q.op = .pollWaker := by
  rw [polls, List.mem_filter]
  cases q.op <;> simp

omit [DecidableEq θ] in
/-- Only one waker can be added and not yet invoked, and while there is one the
loop thread is not replacing it. -/
theorem WakerCycle.open_waker {h : History π κ} {s : State θ π κ} (hi : WakerCycle h s)
    {tok : Nat} (hadd : .added tok .waker ∈ h) (hnew : ∀ r, .invoked r ∈ h → r.token ≠ tok) :
    Armed s.loop (s.call .loop) ∧ addedWakers h = invokedWakers h ++ [tok] := by
  have hno : tok ∉ invokedWakers h := by
    intro hmem
    obtain ⟨ret, hinv⟩ := mem_invokedWakers.mp hmem
    exact hnew _ hinv rfl
  have hmem : tok ∈ addedWakers h := mem_addedWakers.mpr hadd
  by_cases ha : Armed s.loop (s.call .loop)
  · obtain ⟨tok', htok⟩ := hi.armed ha
    rw [htok, List.mem_append, List.mem_singleton] at hmem
    obtain rfl := hmem.resolve_left hno
    exact ⟨ha, htok⟩
  · rw [hi.replacing ha] at hmem
    exact absurd hmem hno

omit [DecidableEq θ] in
theorem WakerCycle.not_armed_of_takes {h : History π κ} {s : State θ π κ} (hi : WakerCycle h s)
    {tok : Nat} (htakes : (s.call .loop).TakesWaker tok) : ¬Armed s.loop (s.call .loop) := by
  have hplain : ¬(s.call .loop).Plain := fun hp => hp.not_takesWaker tok htakes
  rcases hi.rearming hplain with hpc | ⟨rest, hpc⟩ <;>
    cases hc : s.call .loop <;> simp_all [Armed, Call.TakesWaker]

omit [DecidableEq θ] in
/-- Two polls that are queued or in flight carry the same token. -/
theorem WakerCycle.poll_unique {h : History π κ} {s : State θ π κ} (hi : WakerCycle h s)
    (hr : Routing h s) {q q' : Sqe π} (hq : q ∈ s.sq ++ s.inflight)
    (hq' : q' ∈ s.sq ++ s.inflight) (hop : q.op = .pollWaker) (hop' : q'.op = .pollWaker) :
    q.userData = q'.userData := by
  have hnew : ∀ q ∈ s.sq ++ s.inflight, ∀ r, .invoked r ∈ h → r.token ≠ q.userData := by
    intro q hq r hinv he
    refine hr.not_collected ?_ (he ▸ hr.collected_of_invoked hinv)
    have := List.mem_map_of_mem (f := Sqe.userData) hq
    simp only [List.map_append, List.mem_append] at this ⊢
    tauto
  rcases (hi.link q hq).mp hop with hadd | htakes <;>
    rcases (hi.link q' hq').mp hop' with hadd' | htakes'
  · have h₁ := (hi.open_waker hadd (hnew q hq)).2
    have h₂ := (hi.open_waker hadd' (hnew q' hq')).2
    rw [h₁] at h₂
    simpa using h₂
  · exact absurd (hi.open_waker hadd (hnew q hq)).1 (hi.not_armed_of_takes htakes')
  · exact absurd (hi.open_waker hadd' (hnew q' hq')).1 (hi.not_armed_of_takes htakes)
  · cases hc : s.call .loop with
    | wake tok cb => cases cb with
      | none => simp [hc, Call.TakesWaker] at htakes
      | some cb => cases cb <;> simp_all [Call.TakesWaker]
    | insert tok cb => cases cb <;> simp_all [Call.TakesWaker]
    | _ => simp [hc, Call.TakesWaker] at htakes

omit [DecidableEq θ] in
theorem WakerCycle.polls_le_one {h : History π κ} {s : State θ π κ} (hi : WakerCycle h s)
    (hr : Routing h s) : (polls (s.sq ++ s.inflight)).length ≤ 1 := by
  have hn : (polls (s.sq ++ s.inflight)).Pairwise fun q q' => q.userData ≠ q'.userData :=
    (List.pairwise_map.mp hr.sqes_nodup).sublist List.filter_sublist
  cases hp : polls (s.sq ++ s.inflight) with
  | nil => simp
  | cons q qs =>
    cases qs with
    | nil => simp
    | cons q' qs =>
      have hq := mem_polls.mp (show q ∈ polls (s.sq ++ s.inflight) by simp [hp])
      have hq' := mem_polls.mp (show q' ∈ polls (s.sq ++ s.inflight) by simp [hp])
      rw [hp, List.pairwise_cons] at hn
      exact absurd (hi.poll_unique hr hq.1 hq'.1 hq.2 hq'.2) (hn.1 q' (by simp))

/-- Every waker that was added and has not been invoked is in the map or in the
batch. -/
def WakersWait (h : History π κ) (s : State θ π κ) : Prop :=
  ∀ tok, .added tok .waker ∈ h → (∀ r, .invoked r ∈ h → r.token ≠ tok) →
    s.callbacks tok = some .waker ∨ ∃ r ∈ s.loop.pending, r.token = tok

omit [DecidableEq θ] in
theorem WakersWait.frame {h e : History π κ} {s s' : State θ π κ} (hw : WakersWait h s)
    (hadded : ∀ tok, .added tok .waker ∉ e) (hcallbacks : s'.callbacks = s.callbacks)
    (hpending : s'.loop.pending = s.loop.pending) : WakersWait (h ++ e) s' := by
  intro tok hadd hnew
  rw [hcallbacks, hpending]
  refine hw tok ?_ fun r hr => hnew r (List.mem_append_left _ hr)
  exact (List.mem_append.mp hadd).resolve_right (hadded tok)

/-- A waker leaves the map by being collected, and the batch by being invoked. -/
theorem Change.wakersWait {h e : History π κ} {s s' : State θ π κ} (hc : Change s s' e)
    (hr : Routing h s) (hw : WakersWait h s)
    (hspares : ∀ tok, .cancelled tok ∈ e → s.callbacks tok ≠ some .waker) :
    WakersWait (h ++ e) s' := by
  cases hc with
  | quiet _ he hsame =>
    refine hw.frame (fun tok hm => ?_) hsame.callbacks hsame.pending
    exact he _ hm
  | took t op cb _ _ hs =>
    subst hs
    exact hw.frame (by simp) rfl rfl
  | submitted n _ hpc hs =>
    subst hs
    exact hw.frame (by simp) rfl (by simp [hpc, LoopPc.pending])
  | posted i q res _ hs =>
    subst hs
    exact hw.frame (by simp) rfl rfl
  | erased tok hcallbacks _ _ _ _ hpending =>
    intro tok' hadd hnew
    have hold := hw tok' (by simpa using hadd) fun r hr => hnew r (List.mem_append_left _ hr)
    rw [hcallbacks, hpending]
    rcases hold with hold | hold
    · have hne : tok' ≠ tok := by
        rintro rfl
        exact hspares tok' (by simp) hold
      exact .inl (by simpa [Function.update_of_ne hne] using hold)
    · exact .inr hold
  | inserted t tok cb hcall hs =>
    subst hs
    intro tok' hadd hnew
    by_cases he : tok' = tok
    · subst he
      have hfresh := (hr.taken t tok' (by simp [hcall, Call.Takes])).2 .waker
      have hcb : cb = .waker := by
        simp only [List.mem_append, List.mem_singleton, hfresh, false_or, Event.added.injEq,
          true_and] at hadd
        exact hadd.symm
      exact .inl (by simp [hcb])
    · have hold := hw tok' (by simpa [he] using hadd)
        fun r hr => hnew r (List.mem_append_left _ hr)
      simpa [Function.update_of_ne he] using hold
  | collected c cq n ready hcq hpc hs =>
    subst hs
    intro tok hadd hnew
    have hold := hw tok (by simpa using hadd) fun r hr => hnew r (List.mem_append_left _ hr)
    rcases hold with hold | ⟨r, hmem, hrt⟩
    · by_cases he : tok = c.userData
      · subst he
        exact .inr ⟨⟨c.userData, .waker, toResult c.res⟩, by simp [hold, LoopPc.pending], rfl⟩
      · exact .inl (by simpa [Function.update_of_ne he] using hold)
    · refine .inr ⟨r, ?_, hrt⟩
      simp only [hpc, LoopPc.pending] at hmem ⊢
      exact List.mem_append_left _ hmem
  | invoked r rest e he hpc hpending _ _ _ hcallbacks =>
    intro tok hadd hnew
    have hold := hw tok ?_ fun r hr => hnew r (List.mem_append_left _ hr)
    · rw [hcallbacks, hpending]
      rcases hold with hold | ⟨r', hmem, hrt⟩
      · exact .inl hold
      · refine .inr ⟨r', ?_, hrt⟩
        simp only [hpc, LoopPc.pending, List.mem_cons] at hmem
        rcases hmem with rfl | hmem
        · exact absurd hrt (hnew r' (by simp))
        · exact hmem
    · simp only [List.mem_append, List.mem_cons, reduceCtorEq, false_or] at hadd
      exact hadd.resolve_right fun hm => he _ hm

/-- The only cancellations of a healthy execution are the user's. -/
theorem spares_of_healthy {h e : History π κ} {s s' : State θ π κ} {a : Action θ π κ}
    (hs : step s a = some (s', e)) (hi : WakerCycle h s)
    (hspares : Spares s a) (tok : Nat) (hmem : .cancelled tok ∈ e) :
    s.callbacks tok ≠ some .waker := by
  cases a with
  | enter t entry =>
    simp only [step, enterStep] at hs
    repeat' split at hs
    all_goals cases hs
    all_goals simp at hmem
    subst hmem
    exact hspares
  | call t ans =>
    have hcancel : ∀ tok cb err, s.call t ≠ .cancel tok cb err := by
      intro tok cb err hc
      rcases hi.role t with hplain | ⟨rfl, harms⟩
      · simp [hc, Call.Plain] at hplain
      · simp [hc, Call.Arms] at harms
    simp only [step, callStep] at hs
    repeat' split at hs
    all_goals cases hs
    all_goals simp at hmem
    next hc _ => exact absurd hc (hcancel _ _ _)
  | finish t =>
    simp only [step, finishStep] at hs
    repeat' split at hs
    all_goals cases hs
    simp at hmem
  | loop ans =>
    simp only [step, loopStep, checkStep, collectStep, invokeStep] at hs
    repeat' split at hs
    all_goals cases hs
    all_goals simp at hmem
  | post i res =>
    simp only [step, postStep] at hs
    split at hs <;> cases hs
    simp at hmem

/-- The assumptions of the wakeup guarantee. -/
structure Assumed (s : State θ π κ) (a : Action θ π κ) : Prop where
  healthy : Healthy s a
  spares : Spares s a

theorem WakersWait.of_run {h : History π κ} {s : State θ π κ}
    (hrun : Run step Assumed start h s) : WakersWait h s := by
  refine hrun.invariant_under (I := fun h s => Routing h s ∧ WakerCycle h s) ?_ ?_ ?_
  · intro h s hr
    exact ⟨.of_run hr, .of_run (hr.mono fun _ _ ha => ha.healthy)⟩
  · intro tok hadd
    simp at hadd
  · rintro h s a s' e ⟨hr, hi⟩ hw hok hs
    exact (step_change hs).wakersWait hr hw (spares_of_healthy hs hi hok.spares)

/-- What keeps the loop from sleeping through work. -/
structure NoLostWakeup (s : State θ π κ) : Prop where
  /-- Blocked in `wait`, or about to be, with work queued or an exit requested:
  a CQE is there, or the one poll in flight is enabled. -/
  woken : s.loop = .wait → s.sq ≠ [] ∨ s.exiting = true →
    s.cq ≠ [] ∨ ((polls s.inflight).length = 1 ∧ 1 ≤ s.counter)
  one_registration : ∀ tok tok', s.callbacks tok = some .waker →
    s.callbacks tok' = some .waker → tok = tok'
  one_poll : (polls (s.sq ++ s.inflight)).length ≤ 1
  /-- The blocking read of the waker's callback does not block. -/
  readable : ∀ rest, s.loop = .wakerRead rest → 1 ≤ s.counter

omit [DecidableEq θ] in
/-- A registered waker is the only one that was not invoked. -/
theorem WakerCycle.registered_last {h : History π κ} {s : State θ π κ} (hi : WakerCycle h s)
    (hr : Routing h s) {tok : Nat} (hw : s.callbacks tok = some .waker) :
    addedWakers h = invokedWakers h ++ [tok] := by
  have hlive := (hr.live _ _).mp hw
  refine (hi.open_waker hlive.added_mem fun r hinv he => ?_).2
  have hnone := hr.vacated _ (hr.collected_of_invoked hinv)
  rw [he, hw] at hnone
  cases hnone

omit [DecidableEq θ] in
/-- At `wait` with an empty completion ring the poll is with the kernel. -/
theorem WakerCycle.poll_inflight {h : History π κ} {s : State θ π κ} (hi : WakerCycle h s)
    (hr : Routing h s) (hw : WakersWait h s) (hpc : s.loop = .wait) (hcq : s.cq = []) :
    ∃ q ∈ s.inflight, q.op = .pollWaker := by
  obtain ⟨tok, htok⟩ := hi.armed (by simp [hpc, Armed])
  have hadd : .added tok .waker ∈ h := mem_addedWakers.mp (by simp [htok])
  have hnew : ∀ r, .invoked r ∈ h → r.token ≠ tok := by
    rintro ⟨tok', cb, ret⟩ hinv rfl
    obtain rfl : cb = .waker := hr.added_unique (hr.added_of_invoked hinv) hadd
    have hnodup := (addedWakers_sublist h).nodup hr.added_nodup
    rw [htok] at hnodup
    exact (List.nodup_append.mp hnodup).2.2 _ (mem_invokedWakers.mpr ⟨ret, hinv⟩) _
      (List.mem_singleton_self _) rfl
  have hmap : s.callbacks tok = some .waker := by
    refine (hw tok hadd hnew).resolve_right ?_
    simp [hpc, LoopPc.pending]
  have hmem : tok ∈ tokens h s := hr.places.mem_iff.mpr (by simpa using hr.added_lt tok _ hadd)
  have hcol : tok ∉ (collected h).map Cqe.userData := by
    intro hcol
    rw [hr.vacated tok hcol] at hmap
    cases hmap
  rw [tokens, hcq, List.append_nil, List.mem_append] at hmem
  obtain ⟨q, hq, rfl⟩ := List.mem_map.mp (hmem.resolve_left hcol)
  have hop := (hi.link q (List.perm_append_comm.mem_iff.mp hq)).mpr (.inl hadd)
  rcases List.mem_append.mp hq with hq | hq
  · exact ⟨q, hq, hop⟩
  · exact absurd hop (hi.flushed hpc q hq)

omit [DecidableEq θ] in
theorem WakerCycle.polls_inflight {h : History π κ} {s : State θ π κ} (hi : WakerCycle h s)
    (hr : Routing h s) (hw : WakersWait h s) (hpc : s.loop = .wait) (hcq : s.cq = []) :
    (polls s.inflight).length = 1 := by
  obtain ⟨q, hq, hop⟩ := hi.poll_inflight hr hw hpc hcq
  have hpos : 0 < (polls s.inflight).length := List.length_pos_of_mem (mem_polls.mpr ⟨hq, hop⟩)
  have hle := hi.polls_le_one hr
  rw [polls, List.filter_append, List.length_append] at hle
  simp only [polls] at hpos ⊢
  omega

/-- No wakeup is lost, in any interleaving of the threads, the loop and the kernel. -/
theorem no_lost_wakeup {h : History π κ} {s : State θ π κ}
    (hrun : Run step Assumed start h s) : NoLostWakeup s := by
  have hr := Routing.of_run hrun
  have hi := WakerCycle.of_run (hrun.mono fun _ _ ha => ha.healthy)
  have hw := WakersWait.of_run hrun
  have ha := Awake.of_run hrun
  refine ⟨?_, ?_, hi.polls_le_one hr, ?_⟩
  · intro hpc _
    by_cases hcq : s.cq = []
    · exact .inr ⟨hi.polls_inflight hr hw hpc hcq, ha.one_le (by simp [hpc, Drained])⟩
    · exact .inl hcq
  · intro tok tok' hreg hreg'
    have heq := hi.registered_last hr hreg
    rw [hi.registered_last hr hreg'] at heq
    simpa using heq.symm
  · intro rest hpc
    exact ha.one_le (by simp [hpc, Drained])

section Decidable

omit [DecidableEq θ]

instance (pc : LoopPc κ) (n : Nat) (ans : Answer) : Decidable (pc.Served n ans) :=
  match pc with
  | .submit => inferInstanceAs (Decidable (ans = .submitted n))
  | .wakerRead _ => inferInstanceAs (Decidable (ans = .ok))
  | .init | .outside | .check | .wait | .peek | .lock _ | .collect _ _ | .dispatch _
  | .callback _ | .wakerRearm _ | .wakerExit _ => isTrue trivial

instance (c : Call π κ) : Decidable c.GetsPoll :=
  match c with
  | .getSqe .pollWaker _ => isTrue trivial
  | .getSqe (.user _) _ | .idle | .lockSubmission _ _ | .lockCallbacks _ _ | .wake _ _
  | .insert _ _ | .cancel _ _ _ | .exitWake | .returned _ => isFalse id

instance [DecidableEq π] (s : State θ π κ) (a : Action θ π κ) : Decidable (KernelOk s a) :=
  match a with
  | .enter _ (.wake ans) | .call _ ans => inferInstanceAs (Decidable (ans = .ok))
  | .loop ans => inferInstanceAs (Decidable (s.loop.Served s.sq.length ans))
  | .post i res => inferInstanceAs (Decidable
      (s.inflight[i]?.map Sqe.op = some .pollWaker → 1 ≤ s.counter ∧ 0 ≤ res))
  | .enter _ (.addSqe _ _) | .enter _ (.cancel _) | .enter _ (.exit _) | .finish _ => isTrue trivial

instance (s : State θ π κ) (a : Action θ π κ) : Decidable (RearmRoom s a) :=
  match a with
  | .call t _ => inferInstanceAs (Decidable ((s.call t).GetsPoll → s.sq.length < batchSize))
  | .enter _ _ | .finish _ | .loop _ | .post _ _ => isTrue trivial

instance [DecidableEq κ] (s : State θ π κ) (a : Action θ π κ) : Decidable (Spares s a) :=
  match a with
  | .enter _ (.cancel tok) => inferInstanceAs (Decidable (s.callbacks tok ≠ some .waker))
  | .enter _ (.addSqe _ _) | .enter _ (.wake _) | .enter _ (.exit _) | .call _ _ | .finish _
  | .loop _ | .post _ _ => isTrue trivial

instance [DecidableEq π] (s : State θ π κ) (a : Action θ π κ) : Decidable (Healthy s a) :=
  decidable_of_iff (KernelOk s a ∧ RearmRoom s a)
    ⟨fun h => ⟨h.1, h.2⟩, fun h => ⟨h.kernel, h.room⟩⟩

instance [DecidableEq π] [DecidableEq κ] (s : State θ π κ) (a : Action θ π κ) :
    Decidable (Assumed s a) :=
  decidable_of_iff (Healthy s a ∧ Spares s a)
    ⟨fun h => ⟨h.1, h.2⟩, fun h => ⟨h.healthy, h.spares⟩⟩

end Decidable

/-- A user thread adds an operation and calls `exit` between the loop's submit
and its wait. -/
theorem exists_late_add :
    ∃ (h : History Unit Unit) (s : State Unit Unit Unit), Run step Assumed start h s ∧
      s.loop = .wait ∧ s.sq = [⟨.user (), 1⟩] ∧ s.exiting = true ∧ s.cq = [] :=
  ⟨_, _, exec_restrict_run
    [.call .loop .ok, .call .loop .ok, .call .loop .ok, .call .loop .ok, .call .loop .ok,
      .loop .ok, .loop .ok, .loop .ok, .loop (.submitted 1),
      .enter (.user ()) (.addSqe () (some ())), .call (.user ()) .ok, .call (.user ()) .ok,
      .call (.user ()) .ok, .call (.user ()) .ok, .call (.user ()) .ok, .finish (.user ()),
      .enter (.user ()) (.exit none), .call (.user ()) .ok] rfl, rfl, rfl, rfl, rfl⟩

theorem no_lost_wakeup_late_add :
    ∃ (h : History Unit Unit) (s : State Unit Unit Unit), Run step Assumed start h s ∧
      s.loop = .wait ∧ s.sq ≠ [] ∧ s.exiting = true ∧ NoLostWakeup s ∧
      (polls s.inflight).length = 1 ∧ 1 ≤ s.counter := by
  obtain ⟨h, s, hrun, hpc, hsq, hexit, hcq⟩ := exists_late_add
  have hsafe := no_lost_wakeup hrun
  have hwoken := (hsafe.woken hpc (.inr hexit)).resolve_left (by simp [hcq])
  exact ⟨h, s, hrun, hpc, by simp [hsq], hexit, hsafe, hwoken⟩

end UringContext
