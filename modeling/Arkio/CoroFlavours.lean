import Arkio.CoroRefinement

/-!
# The two flavours of a program

The coroutine flavour of a program as a whole, against the blocking one: the
same requests in the same order, also where neither flavour ends, and where one
ends the same buffers, offsets and value.
-/
namespace Coro

open Bindings Buffer SyncIo AsyncIo Executions
open Coroutine (Promise)

variable {φ Q υ : Type}

section Growth

variable {m : Machine φ Q υ}

/-- No request is taken back, and no value out of the future. -/
structure Grows (m m' : Machine φ Q υ) : Prop where
  sqes : m.sqes <+: m'.sqes
  future : m.future <+: m'.future

theorem Grows.of_eq {m m' : Machine φ Q υ} (hs : m'.sqes = m.sqes) (hf : m'.future = m.future) :
    Grows m m' :=
  ⟨hs ▸ List.prefix_rfl, hf ▸ List.prefix_rfl⟩

theorem Grows.complete {m₀ : Machine φ Q υ} (h : Grows m₀ m) (f : Nat) (ret : Result Nat) :
    Grows m₀ (m.complete f ret) := by
  unfold Machine.complete
  split
  · exact ⟨h.sqes, h.future⟩
  · exact ⟨h.sqes, h.future⟩

theorem resume_grows (m : Machine φ Q υ) (f : Nat) : Grows m (m.resume f) := by
  unfold Machine.resume
  dsimp only
  split
  · exact .of_eq rfl rfl
  · split
    · exact .of_eq rfl rfl
    · exact ⟨List.prefix_rfl, List.prefix_append _ _⟩
    · exact .of_eq rfl rfl
  · split
    · exact .of_eq rfl rfl
    · exact .of_eq rfl rfl
  · exact .of_eq rfl rfl

variable [DecidableEq φ] {next : Program φ Q υ}

theorem Grows.apply {m₀ : Machine φ Q υ} (h : Grows m₀ m) (f : Nat) (fd : φ) (turn : Turn Nat) :
    Grows m₀ (m.apply f fd turn) := by
  have hsqes := h.sqes.trans
    (List.prefix_append m.sqes (turn.attempt.map fun a => (turn.fd, a.1)).toList)
  unfold Machine.apply
  split
  · exact ⟨hsqes, h.future⟩
  · refine Grows.complete ?_ _ _
    exact ⟨hsqes, h.future⟩
  · exact ⟨hsqes, h.future⟩

theorem runLoop_grows (m : Machine φ Q υ) : Grows m m.runLoop := by
  unfold Machine.runLoop
  split
  · split
    · refine Grows.apply ?_ _ _ _
      exact .of_eq rfl rfl
    · exact .of_eq rfl rfl
  · exact .of_eq rfl rfl

theorem step_grows (m : Machine φ Q υ) : Grows m (m.step next) := by
  cases hc : m.control with
  | body f q =>
    obtain ⟨store, cmd, hcmd⟩ : ∃ store cmd, next q m.store = (store, cmd) := ⟨_, _, rfl⟩
    simp only [Machine.step, hc, hcmd]
    cases cmd with
    | compute q => exact .of_eq rfl rfl
    | io kind fd b cond k =>
      refine Grows.apply ?_ _ _ _
      exact .of_eq rfl rfl
    | call q k => exact .of_eq rfl rfl
    | ret v => exact .of_eq rfl rfl
  | finalSuspend f =>
    simp only [Machine.step, hc]
    split
    · exact .of_eq rfl rfl
    · exact .of_eq rfl rfl
  | resume f =>
    simp only [Machine.step, hc]
    exact resume_grows m f
  | toCaller =>
    simp only [Machine.step, hc]
    split
    · exact .of_eq rfl rfl
    · exact runLoop_grows m
  | fault =>
    simp only [Machine.step, hc]
    exact .of_eq rfl rfl

/-- There is nothing to do for `run()`. -/
theorem Machine.Idle.rest (h : m.Idle) : m.step next = m := by
  obtain ⟨hcontrol, hnative, hout | hresponses⟩ := h
  · simp [Machine.step, hcontrol, hnative, Machine.runLoop, hout]
  · simp [Machine.step, hcontrol, hnative, Machine.runLoop, hresponses]

theorem fault_rest (h : m.control = .fault) : m.step next = m := by
  simp [Machine.step, h]

end Growth

section Programs

/-- The coroutine flavour where the blocking one has got to with its fuel. -/
def Shows (r : World φ × Outcome υ) (m : Machine φ Q υ) : Prop :=
  Agrees m r.1 ∧
    match r.2 with
    | .returned v => m.Idle ∧ m.outstanding = none ∧ m.future = [v]
    | .blocked => m.Idle ∧ m.outstanding ≠ none ∧ m.future = []
    | .running => m.control ≠ .fault ∧ ¬m.Idle ∧ m.future = []

theorem Shows.sound {r : World φ × Outcome υ} {m : Machine φ Q υ} (h : Shows r m) :
    m.control ≠ .fault := by
  obtain ⟨w, o⟩ := r
  cases o with
  | returned v => simp [h.2.1.1]
  | blocked => simp [h.2.1.1]
  | running => exact h.2.1

theorem Shows.ends {w : World φ} {o : Outcome υ} {m : Machine φ Q υ} (h : Shows (w, o) m)
    (hidle : m.Idle) : o ≠ .running := by
  rintro rfl
  exact h.2.2.1 hidle

/-- Where the blocking flavour is not under way the coroutine waits for nothing or for ever. -/
theorem Shows.idle {w : World φ} {o : Outcome υ} {m : Machine φ Q υ} (h : Shows (w, o) m)
    (ho : o ≠ .running) : m.Idle := by
  cases o with
  | returned v => exact h.2.1
  | blocked => exact h.2.1
  | running => exact absurd rfl ho

theorem Shows.future {w : World φ} {o : Outcome υ} {m : Machine φ Q υ} (h : Shows (w, o) m) :
    m.future = [] ∨ ∃ v, o = .returned v ∧ m.future = [v] := by
  cases o with
  | returned v => exact .inr ⟨v, rfl, h.2.2.2⟩
  | blocked => exact .inl h.2.2.2
  | running => exact .inl h.2.2.2

section Runs

variable [DecidableEq φ] {next : Program φ Q υ} {q : Q} {store : Store φ}
  {responses : List Response}

/-- `co_async` starts the frame of the first task, and where that is done the
lambda sets the future. -/
theorem coAsync_leads (next : Program φ Q υ) (q : Q) (store : Store φ) (responses : List Response)
    (n : Nat) :
    Leads (Machine.step next) ((blocking (recast next) n q ⟨store, responses, []⟩).2.steps n)
      (coAsync q store responses) (Shows (blocking (recast next) n q ⟨store, responses, []⟩)) := by
  let m : Machine φ Q υ :=
    { (coAsync q store responses).suspend 0 none with control := .body 0 q }
  have hstep : (coAsync q store responses).step next = m :=
    task_starts .setValue (by decide) (by simp)
  have hlink : (m.frames 0).promise.continuation = some 1 := by
    simp [m, coAsync]
  have hsus : (m.frames 1).suspension = some (.onTask 0 .setValue) := by
    simp [m, coAsync]
  have hlead := body_simulates next n q m 0 rfl Nat.two_pos rfl
  have hworld : m.world = ⟨store, responses, []⟩ := rfl
  rw [hworld] at hlead
  refine .after hstep ?_
  obtain ⟨⟨w, o⟩, hr⟩ : ∃ r, blocking (recast next) n q ⟨store, responses, []⟩ = r := ⟨_, rfl⟩
  rw [hr] at hlead ⊢
  cases o with
  | returned v =>
    refine (hlead.trans (k := 0) fun m₁ hm₁ => ?_)
    obtain ⟨hagrees, hcontrol, hvalue, hout, he⟩ := hm₁
    let m₂ : Machine φ Q υ :=
      { m₁.suspend 1 none with future := m₁.future ++ [v], control := .toCaller }
    have hsus₁ := (congrArg Frame.suspension (he.frames 1 Nat.one_lt_two (by decide))).trans hsus
    have hstep₂ : (m₁.step next).step next = m₂ :=
      task_returns hcontrol (he.link.trans hlink) hsus₁ hvalue
    refine .after rfl (.after hstep₂ ((unwinds rfl).imp ?_))
    rintro m' rfl
    refine ⟨⟨hagrees.store, hagrees.responses, hagrees.requests⟩, ⟨rfl, rfl, .inl hout⟩, hout, ?_⟩
    simp [m₂, he.future, m, coAsync]
  | blocked =>
    exact hlead.imp fun m' hm' => ⟨hm'.1, hm'.2.1, hm'.2.2.1, hm'.2.2.2⟩
  | running =>
    exact hlead.imp fun m' hm' => ⟨hm'.1, hm'.2.1, hm'.2.2.1, hm'.2.2.2⟩

theorem requests_grow {i j : Nat} (hij : i ≤ j) :
    (after next q store responses i).requests <+: (after next q store responses j).requests :=
  shown_prefix (fun m => (step_grows m).sqes.map _) hij

theorem future_grows {i j : Nat} (hij : i ≤ j) :
    (after next q store responses i).future <+: (after next q store responses j).future :=
  shown_prefix (fun m => (step_grows m).future) hij

/-- However far the coroutine flavour is, it comes to where the blocking one has been. -/
theorem catches_up (next : Program φ Q υ) (q : Q) (store : Store φ) (responses : List Response)
    (i : Nat) : ∃ n j, i ≤ j ∧
      Shows (blocking (recast next) n q ⟨store, responses, []⟩)
        (after next q store responses j) := by
  obtain ⟨j, hj, hshows⟩ := coAsync_leads next q store responses i
  obtain ⟨⟨w, o⟩, hr⟩ : ∃ r, blocking (recast next) i q ⟨store, responses, []⟩ = r := ⟨_, rfl⟩
  rw [hr] at hj hshows
  by_cases ho : o = .running
  · subst ho
    exact ⟨i, j, hj, hr ▸ hshows⟩
  · have hrest := iterate_rest (hshows.idle ho).rest (Nat.le_max_right i j)
    refine ⟨i, max i j, Nat.le_max_left i j, ?_⟩
    rw [hr, after, hrest]
    exact hshows

/-- What the coroutine flavour of a program has to do with a blocking one. -/
structure Refines (next next' : Program φ Q υ) (q : Q) (store : Store φ)
    (responses : List Response) : Prop where
  /-- It sets its future where the blocking flavour returns, with the same buffers,
  offsets and requests. -/
  returns : ∀ n w v, blocking next' n q ⟨store, responses, []⟩ = (w, .returned v) →
    ∃ i, (after next q store responses i).Idle ∧
      (after next q store responses i).outstanding = none ∧
      (after next q store responses i).future = [v] ∧ Agrees (after next q store responses i) w
  blocks : ∀ n w, blocking next' n q ⟨store, responses, []⟩ = (w, .blocked) →
    ∃ i, (after next q store responses i).Idle ∧
      (after next q store responses i).outstanding ≠ none ∧
      (after next q store responses i).future = [] ∧ Agrees (after next q store responses i) w
  ends : ∀ i, (after next q store responses i).Idle →
    ∃ n, (blocking next' n q ⟨store, responses, []⟩).2 ≠ .running
  /-- All the requests of the one are made by the other, even if it never ends. -/
  asks : ∀ n, ∃ i, (blocking next' n q ⟨store, responses, []⟩).1.requests <+:
    (after next q store responses i).requests
  asksNoMore : ∀ i, ∃ n, (after next q store responses i).requests <+:
    (blocking next' n q ⟨store, responses, []⟩).1.requests
  sets : ∀ i v, v ∈ (after next q store responses i).future →
    ∃ n, (blocking next' n q ⟨store, responses, []⟩).2 = .returned v
  setsOnce : ∀ i, (after next q store responses i).future.length ≤ 1
  sound : ∀ i, (after next q store responses i).control ≠ .fault

theorem refines_recast (next : Program φ Q υ) (q : Q) (store : Store φ)
    (responses : List Response) : Refines next (recast next) q store responses where
  returns n w v h := by
    obtain ⟨i, _, hshows⟩ := coAsync_leads next q store responses n
    rw [h] at hshows
    exact ⟨i, hshows.2.1, hshows.2.2.1, hshows.2.2.2, hshows.1⟩
  blocks n w h := by
    obtain ⟨i, _, hshows⟩ := coAsync_leads next q store responses n
    rw [h] at hshows
    exact ⟨i, hshows.2.1, hshows.2.2.1, hshows.2.2.2, hshows.1⟩
  ends i hidle := by
    obtain ⟨n, j, hij, hshows⟩ := catches_up next q store responses i
    have hj : after next q store responses j = after next q store responses i :=
      iterate_rest hidle.rest hij
    exact ⟨n, hshows.ends (hj ▸ hidle)⟩
  asks n := by
    obtain ⟨i, _, hshows⟩ := coAsync_leads next q store responses n
    refine ⟨i, ?_⟩
    rw [← hshows.1.requests]
    exact List.prefix_rfl
  asksNoMore i := by
    obtain ⟨n, j, hij, hshows⟩ := catches_up next q store responses i
    refine ⟨n, ?_⟩
    rw [← hshows.1.requests]
    exact requests_grow hij
  sets i v hv := by
    obtain ⟨n, j, hij, hshows⟩ := catches_up next q store responses i
    have hvj : v ∈ (after next q store responses j).future := (future_grows hij).subset hv
    obtain hempty | ⟨v', ho, hfuture⟩ := hshows.future
    · simp [hempty] at hvj
    · rw [hfuture, List.mem_singleton] at hvj
      exact ⟨n, hvj ▸ ho⟩
  setsOnce i := by
    obtain ⟨n, j, hij, hshows⟩ := catches_up next q store responses i
    have hle : (after next q store responses i).future.length ≤
        (after next q store responses j).future.length := (future_grows hij).length_le
    obtain hempty | ⟨v', _, hfuture⟩ := hshows.future
    · rw [hempty] at hle
      exact Nat.le_succ_of_le hle
    · rwa [hfuture] at hle
  sound i hfault := by
    obtain ⟨n, j, hij, hshows⟩ := catches_up next q store responses i
    have hj : after next q store responses j = after next q store responses i :=
      iterate_rest (fault_rest hfault) hij
    exact hshows.sound (hj ▸ hfault)

/-- The program does not look at the category of an error. -/
def Blind (next : Program φ Q υ) : Prop :=
  ∀ q store store' kind fd b cond k, next q store = (store', .io kind fd b cond k) →
    ∀ ret, k (inSystem ret) = k ret

omit [DecidableEq φ] in
theorem Blind.recast_eq (h : Blind next) : recast next = next := by
  funext q store
  obtain ⟨store', cmd, hcmd⟩ : ∃ store' cmd, next q store = (store', cmd) := ⟨_, _, rfl⟩
  cases cmd with
  | io kind fd b cond k =>
    have hk : (fun ret => k (inSystem ret)) = k := funext (h q store store' kind fd b cond k hcmd)
    simp [recast, hcmd, hk]
  | compute q' => simp [recast, hcmd]
  | call q' k => simp [recast, hcmd]
  | ret v => simp [recast, hcmd]

theorem coroutine_refines_blocking (next : Program φ Q υ) (q : Q) (store : Store φ)
    (responses : List Response) :
    Refines next (recast next) q store responses ∧
      (Blind next → Refines next next q store responses) := by
  have h := refines_recast next q store responses
  refine ⟨h, fun hblind => ?_⟩
  rwa [hblind.recast_eq] at h

/-- Reads a byte and returns what `v` makes of the result. -/
def reading (v : Result Nat → υ) : Program Unit (Option υ) υ := fun q store =>
  match q with
  | none => (store, .io .read () [⟨0, 1, by decide⟩] transferAll fun ret => some (v ret))
  | some v => (store, .ret v)

theorem reading_blind {v : Result Nat → υ} (h : ∀ ret, v (inSystem ret) = v ret) :
    Blind (reading v) := by
  intro q store store' kind fd b cond k hcmd ret
  cases q with
  | none =>
    cases hcmd
    exact congrArg some (h ret)
  | some v => cases hcmd

/-- Memory of zeroes, and a descriptor without an offset. -/
def blank : Store Unit := ⟨fun _ => 0, fun _ => ⟨3, none⟩⟩

theorem coroutine_refines_blocking_reading :
    Refines (reading Except.toOption) (reading Except.toOption) none blank [.transferred [7]] :=
  (coroutine_refines_blocking _ _ _ _).2 (reading_blind fun ret => by cases ret <;> rfl)

/-- The blocking flavour returns `EIO` in the generic category, and the future of
the coroutine is set to it in the system one. -/
theorem category_differs :
    ¬Refines (reading id) (reading id) none blank [.failed 5 (by decide)] := by
  intro h
  obtain ⟨i, -, -, hfuture, -⟩ := h.returns 2 _ (.error (asEc 5)) rfl
  have hsystem (n : Nat) : (blocking (recast (reading id)) n none
      ⟨blank, [.failed 5 (by decide)], []⟩).2 ≠ .returned (.error (asEc 5)) := by
    match n with
    | 0 => nofun
    | 1 => nofun
    | n + 2 =>
      intro hn
      have hcategory : Outcome.returned (.error ⟨5, .system⟩) =
          Outcome.returned (.error (asEc 5) : Result Nat) := hn
      simp [asEc] at hcategory
  obtain ⟨n, hn⟩ := (refines_recast (reading id) none blank _).sets i (.error (asEc 5))
    (hfuture ▸ List.mem_singleton_self _)
  exact hsystem n hn

end Runs

end Programs

end Coro
