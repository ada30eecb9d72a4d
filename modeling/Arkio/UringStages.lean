import Arkio.UringClosures

/-!
# A closure and its request

The request of a closure is the caller's, then an SQE, then a CQE, and at last a
result in the batch. `Stage` follows the two together. Then payloads and
closures name the operation they belong to: while an operation has at most one
closure it has at most one SQE, and the completion of that SQE meets that
closure.
-/
namespace UringContext

open Bindings LabelledMachine

section Stages

variable {θ π κ : Type}

/-- How far the request of a closure is. -/
inductive Phase where
  | preparing
  | queued
  | completed (res : Int)

/-- A closure with its request, and the place of the closure. -/
inductive Stage (s : State θ π κ) (k : κ) (p : π) : Phase → Place θ → Prop where
  | preparing (t : Thread θ) (hview : (s.call t).view = some (.preparing (.user p) k)) :
      Stage s k p .preparing (.call t)
  | taking (t : Thread θ) (tok : Nat) (hview : (s.call t).view = some (.taking tok k))
      (hsqe : ⟨.user p, tok⟩ ∈ s.sq ++ s.inflight) : Stage s k p .queued (.call t)
  | waiting (tok : Nat) (hmap : s.callbacks tok = some (.user k))
      (hsqe : ⟨.user p, tok⟩ ∈ s.sq ++ s.inflight) : Stage s k p .queued (.map tok)
  | completed (tok : Nat) (res : Int) (hmap : s.callbacks tok = some (.user k))
      (hcqe : ⟨tok, res⟩ ∈ s.cq) : Stage s k p (.completed res) (.map tok)
  | ready (tok : Nat) (res : Int) (hready : ⟨tok, .user k, toResult res⟩ ∈ s.loop.pending) :
      Stage s k p (.completed res) (.batch tok)

theorem Stage.holds {s : State θ π κ} {k : κ} {p : π} {phase : Phase} {l : Place θ}
    (h : Stage s k p phase l) : Holds s l k := by
  cases h with
  | preparing t hview => exact holds_of_view hview
  | taking t tok hview hsqe => exact holds_of_view hview
  | waiting tok hmap hsqe => exact hmap
  | completed tok res hmap hcqe => exact hmap
  | ready tok res hready => exact ⟨_, hready⟩

/-- Steps that leave this closure and its request where they are. -/
theorem Stage.frame {s s' : State θ π κ} {k : κ} {p : π} {phase : Phase} {l : Place θ}
    (h : Stage s k p phase l)
    (hview : ∀ t, l = .call t → (s'.call t).view = (s.call t).view)
    (hsqe : ∀ q ∈ s.sq ++ s.inflight, q.op = .user p → q ∈ s'.sq ++ s'.inflight)
    (hmap : ∀ tok, l = .map tok → s'.callbacks tok = s.callbacks tok)
    (hcqe : ∀ c ∈ s.cq, l = .map c.userData → c ∈ s'.cq)
    (hready : ∀ r ∈ s.loop.pending, r.callback = .user k → r ∈ s'.loop.pending) :
    Stage s' k p phase l := by
  cases h with
  | preparing t hv => exact .preparing t (by rw [hview t rfl, hv])
  | taking t tok hv hq => exact .taking t tok (by rw [hview t rfl, hv]) (hsqe _ hq rfl)
  | waiting tok hm hq => exact .waiting tok (by rw [hmap tok rfl, hm]) (hsqe _ hq rfl)
  | completed tok res hm hc => exact .completed tok res (by rw [hmap tok rfl, hm]) (hcqe _ hc rfl)
  | ready tok res hr => exact .ready tok res (hready _ hr rfl)

/-- The events that carry a closure past the callback map's end of the path. -/
def Event.Completes : Event π κ → Prop
  | .posted _ => True
  | .invoked ⟨_, .user _, _⟩ => True
  | _ => False

/-- What a thread has taken and not registered is not in the map. -/
theorem Routing.unregistered {h : History π κ} {s : State θ π κ} (hi : Routing h s)
    {t : Thread θ} {tok : Nat} (ht : (s.call t).Takes tok) : s.callbacks tok = none := by
  cases hcb : s.callbacks tok with
  | none => rfl
  | some cb => exact absurd ((hi.live tok cb).mp hcb).added_mem ((hi.taken t tok ht).2 cb)

/-- One token is in the batch once. -/
theorem Routing.pending_nodup {h : History π κ} {s : State θ π κ} (hi : Routing h s) :
    (s.loop.pending.map Ready.token).Nodup := by
  have hn := hi.extracted_nodup
  rw [← hi.batch, List.map_append] at hn
  exact (List.nodup_append.mp hn).2.1

/-- One token has one CQE. -/
theorem Routing.cqe_unique {h : History π κ} {s : State θ π κ} (hi : Routing h s) {c c' : Cqe}
    (hc : c ∈ s.cq) (hc' : c' ∈ s.cq) (heq : c.userData = c'.userData) : c = c' := by
  have hn := hi.posted_nodup
  rw [hi.posted_eq] at hn
  exact List.inj_on_of_nodup_map hn (List.mem_append_right _ hc) (List.mem_append_right _ hc') heq

/-- One token has one SQE. -/
theorem Routing.sqe_unique {h : History π κ} {s : State θ π κ} (hi : Routing h s) {q q' : Sqe π}
    (hq : q ∈ s.sq ++ s.inflight) (hq' : q' ∈ s.sq ++ s.inflight)
    (heq : q.userData = q'.userData) : q = q' :=
  List.inj_on_of_nodup_map hi.sqes_nodup hq hq' heq

/-- A token with a CQE has no SQE any more. -/
theorem Routing.sqe_ne_cqe {h : History π κ} {s : State θ π κ} (hi : Routing h s) {q : Sqe π}
    {c : Cqe} (hq : q ∈ s.sq ++ s.inflight) (hc : c ∈ s.cq) : q.userData ≠ c.userData := by
  intro heq
  have hmem : q.userData ∈ (s.inflight ++ s.sq).map Sqe.userData :=
    List.mem_map_of_mem (List.mem_append.mpr (List.mem_append.mp hq).symm)
  refine hi.not_completed hmem ?_
  rw [heq]
  exact List.mem_map_of_mem hc

theorem Stage.of_collected {s : State θ π κ} {h : History π κ} (hi : Routing h s) {k : κ} {p : π}
    {phase : Phase} {l : Place θ} (hst : Stage s k p phase l) {c : Cqe} {cq : List Cqe} {n : Nat}
    {ready : List (Ready κ)} (hcq : s.cq = c :: cq) (hpc : s.loop = .collect (n + 1) ready) :
    ∃ l', Stage { s with
      callbacks := Function.update s.callbacks c.userData none
      cq := cq
      loop := .collect n (ready ++
        (s.callbacks c.userData).toList.map (⟨c.userData, ·, toResult c.res⟩)) } k p phase l' := by
  have hmem : c ∈ s.cq := by simp [hcq]
  by_cases hl : l = .map c.userData
  · subst hl
    cases hst with
    | waiting _ hm hq => exact absurd rfl (hi.sqe_ne_cqe hq hmem)
    | completed _ res hm hc =>
      have hres : c.res = res := congrArg Cqe.res (hi.cqe_unique hmem hc rfl)
      refine ⟨.batch c.userData, .ready _ _ ?_⟩
      simp [LoopPc.pending, hm, hres]
  · refine ⟨l, hst.frame (fun _ _ => rfl) (fun _ hq _ => hq) ?_ ?_ ?_⟩
    · intro tok hl'
      have hne : tok ≠ c.userData := fun he => hl (by rw [hl', he])
      simp [Function.update_of_ne hne]
    · intro c' hc' hl'
      rw [hcq] at hc'
      rcases List.mem_cons.mp hc' with rfl | hc'
      · exact absurd hl' hl
      · exact hc'
    · intro r hr _
      rw [hpc] at hr
      exact List.mem_append_left _ hr

/-- The completion of a request of another payload. -/
theorem Stage.of_posted {s : State θ π κ} {k : κ} {p : π} {phase : Phase} {l : Place θ}
    (hst : Stage s k p phase l) {n : Nat} {q : Sqe π} (hq : s.inflight[n]? = some q)
    (hne : q.op ≠ .user p) (res : Int) :
    Stage { s with inflight := s.inflight.eraseIdx n, cq := s.cq ++ [⟨q.userData, res⟩] }
      k p phase l := by
  refine hst.frame (fun _ _ => rfl) ?_ (fun _ _ => rfl) (fun c hc _ => List.mem_append_left _ hc)
    fun _ hr _ => hr
  intro q' hq' hop
  rw [List.mem_append] at hq' ⊢
  rcases hq' with hq' | hq'
  · exact .inl hq'
  · have hmem := (perm_cons_eraseIdx hq).mem_iff.mp hq'
    rcases List.mem_cons.mp hmem with rfl | hmem
    · exact absurd hop hne
    · exact .inr hmem

/-- Another closure is invoked. -/
theorem Stage.of_dispatch {s : State θ π κ} {k : κ} {p : π} {phase : Phase} {l : Place θ}
    (hst : Stage s k p phase l) {r : Ready κ} {rest : List (Ready κ)}
    (hpc : s.loop = .dispatch (r :: rest)) (hne : r.callback ≠ .user k) :
    Stage { s with loop := .callback rest } k p phase l := by
  refine hst.frame (fun _ _ => rfl) (fun _ hq _ => hq) (fun _ _ => rfl) (fun _ hc _ => hc) ?_
  intro r' hr' hk
  rw [hpc] at hr'
  rcases List.mem_cons.mp hr' with rfl | hr'
  · exact absurd hk hne
  · exact hr'

variable [DecidableEq θ]

/-- Another thread enters `add_sqe`. -/
theorem Stage.of_enter {s : State θ π κ} {k : κ} {p : π} {phase : Phase} {l : Place θ}
    (hst : Stage s k p phase l) {t : Thread θ} (hidle : s.call t = .idle) (c : Call π κ) :
    Stage (s.setCall t c) k p phase l := by
  refine hst.frame ?_ (fun _ hq _ => hq) (fun _ _ => rfl) (fun _ hc _ => hc) fun _ hr _ => hr
  intro t' hl
  by_cases ht : t' = t
  · subst ht hl
    have hh := hst.holds
    simp [Holds, hidle, Call.view] at hh
  · simp [Function.update_of_ne ht]

theorem plain_events {s s' : State θ π κ} {a : Action θ π κ} {e : History π κ}
    (h : step s a = some (s', e)) (hp : Plain s a) : ∀ x ∈ e, ¬x.Completes := by
  cases a with
  | call t ans =>
    simp only [step, callStep] at h
    repeat' split at h
    all_goals cases h
    all_goals simp [Event.Completes]
  | loop ans =>
    cases hpc : s.loop with
    | dispatch ready =>
      cases ready with
      | nil =>
        simp only [step, loopStep, hpc] at h
        cases h
        simp
      | cons r rest =>
        obtain ⟨tok, cb, ret⟩ := r
        cases cb with
        | user k => exact absurd rfl (hp _ _ k hpc)
        | waker =>
          simp only [step, loopStep, hpc, invokeStep] at h
          split at h <;> cases h <;> simp [Event.Completes]
    | collect n ready =>
      cases n with
      | zero =>
        simp only [step, loopStep, hpc] at h
        cases h
        simp
      | succ n =>
        simp only [step, loopStep, collectStep, hpc] at h
        repeat' split at h
        all_goals cases h
        all_goals simp [Event.Completes]
    | _ =>
      simp only [step, loopStep, checkStep, hpc] at h
      repeat' split at h
      all_goals cases h
      all_goals simp [Event.Completes]
  | enter t entry =>
    simp only [step, enterStep] at h
    repeat' split at h
    all_goals cases h
    all_goals simp [Event.Completes]
  | finish t =>
    simp only [step, finishStep] at h
    repeat' split at h
    all_goals cases h
    all_goals simp
  | post i res => exact absurd hp (by simp [Plain])

theorem Stage.of_inserted {s : State θ π κ} {h : History π κ} (hi : Routing h s) {k : κ} {p : π}
    {phase : Phase} {l : Place θ} (hst : Stage s k p phase l) {t : Thread θ} {tok : Nat}
    {cb : Callback κ} (hcall : s.call t = .insert tok cb) :
    ∃ l', Stage (({ s with callbacks := Function.update s.callbacks tok (some cb) }.unlock
      (some cb)).setCall t (.returned (.ok tok))) k p phase l' := by
  by_cases hl : l = .call t
  · subst hl
    cases hst with
    | preparing _ hv => cases cb <;> simp [hcall, Call.view] at hv
    | taking _ tok' hv hq =>
      cases cb with
      | waker => simp [hcall, Call.view] at hv
      | user k' =>
        simp only [hcall, Call.view, Option.some.injEq, View.taking.injEq] at hv
        obtain ⟨rfl, rfl⟩ := hv
        exact ⟨.map tok, .waiting tok (by simp) hq⟩
  · refine ⟨l, hst.frame ?_ (fun _ hq _ => hq) ?_ (fun _ hc _ => hc) fun _ hr _ => hr⟩
    · intro t' ht'
      have hne : t' ≠ t := fun he => hl (by rw [ht', he])
      simp [Function.update_of_ne hne]
    · intro tok' hl'
      have hne : tok' ≠ tok := by
        intro heq
        have htakes : (s.call t).Takes tok := by simp [hcall, Call.Takes]
        have hnone := hi.unregistered htakes
        have hh := hst.holds
        simp [hl', Holds, heq, hnone] at hh
      simp [Function.update_of_ne hne]

/-- A plain step that does not queue this request keeps its phase. -/
theorem Stage.keep {s s' : State θ π κ} {a : Action θ π κ} {h e : History π κ} {k : κ} {p : π}
    {phase : Phase} {l : Place θ} (hst : Stage s k p phase l) (hs : step s a = some (s', e))
    (hp : Plain s a) (htidy : Tidy s) (hi : Routing h s) (hask : p ∉ asks e) :
    ∃ l', Stage s' k p phase l' := by
  have hevents := plain_events hs hp
  cases step_change hs with
  | quiet e he hsame =>
    have hv := step_view hs hp htidy fun x hx => (he x hx).not_hands
    refine ⟨l, hst.frame (fun t _ => hv t) ?_ ?_ ?_ ?_⟩
    · rw [hsame.sq, hsame.inflight]
      exact fun _ hq _ => hq
    · exact fun tok _ => by rw [hsame.callbacks]
    · rw [hsame.cq]
      exact fun _ hc _ => hc
    · rw [hsame.pending]
      exact fun _ hr _ => hr
  | took t op cb hcall hroom hs' =>
    subst hs'
    refine ⟨l, hst.frame ?_ ?_ (fun _ _ => rfl) (fun _ hc _ => hc) fun _ hr _ => hr⟩
    · intro t' hl
      by_cases ht : t' = t
      · subst ht hl
        exfalso
        cases hst with
        | preparing _ hv =>
          rcases cb with _ | _ | k'
          · simp [hcall, Call.view] at hv
          · simp [hcall, Call.view] at hv
          · simp only [hcall, Call.view, Option.some.injEq, View.preparing.injEq] at hv
            obtain ⟨rfl, -⟩ := hv
            exact hask (by simp [asks])
        | taking _ tok hv hq => rcases cb with _ | _ | k' <;> simp [hcall, Call.view] at hv
      · simp [Function.update_of_ne ht]
    · intro q hq _
      simp only [State.setCall_sq, State.takeSqe_sq, State.setCall_inflight,
        State.takeSqe_inflight, List.mem_append] at hq ⊢
      tauto
  | inserted t tok cb hcall hs' =>
    subst hs'
    exact hst.of_inserted hi hcall
  | erased tok hcallbacks hsq hinflight hcq hidx hpending htakes =>
    have hv := step_view hs hp htidy (by simp [Event.Hands])
    obtain ⟨t, ht⟩ := step_cancelled hs hp
    have hsame : s'.callbacks = s.callbacks := by
      rw [hcallbacks, ← hi.unregistered ht, Function.update_eq_self]
    refine ⟨l, hst.frame (fun t _ => hv t) ?_ ?_ ?_ ?_⟩
    · rw [hsq, hinflight]
      exact fun _ hq _ => hq
    · exact fun tok _ => by rw [hsame]
    · rw [hcq]
      exact fun _ hc _ => hc
    · rw [hpending]
      exact fun _ hr _ => hr
  | submitted n hfree hpc hs' =>
    subst hs'
    refine ⟨l, hst.frame (fun _ _ => rfl) ?_ (fun _ _ => rfl) (fun _ hc _ => hc) ?_⟩
    · intro q hq _
      simp only [List.mem_append] at hq ⊢
      rcases hq with hq | hq
      · rw [← List.take_append_drop n s.sq, List.mem_append] at hq
        tauto
      · exact .inr (.inl hq)
    · simp [hpc, LoopPc.pending]
  | posted i q res hq hs' => exact absurd trivial (hevents _ (List.mem_singleton_self _))
  | collected c cq n ready hcq hpc hs' =>
    subst hs'
    exact hst.of_collected hi hcq hpc
  | invoked r rest e he hpc hpending hsq hinflight hcq hcallbacks hidx htakes =>
    have hv := step_view hs hp htidy (not_hands_invoked he r)
    refine ⟨l, hst.frame (fun t _ => hv t) ?_ ?_ ?_ ?_⟩
    · rw [hsq, hinflight]
      exact fun _ hq _ => hq
    · exact fun tok _ => by rw [hcallbacks]
    · rw [hcq]
      exact fun _ hc _ => hc
    · rw [hpending, hpc]
      intro r' hr' hk
      rcases List.mem_cons.mp hr' with rfl | hr'
      · obtain ⟨tok, cb, ret⟩ := r'
        subst hk
        exact absurd trivial (hevents _ List.mem_cons_self)
      · exact hr'

end Stages

section Operations

variable {θ ι ρ ω : Type}

/-- A context whose payloads and closures name the operation they belong to. -/
abbrev Tagged (θ ι ρ ω : Type) := State θ (ι × ρ) (ι × ω)

/-- No closure of the operation is anywhere. -/
def Vacant (s : Tagged θ ι ρ ω) (i : ι) : Prop := ∀ l x, ¬Holds s l (i, x)

/-- At most one closure of the operation is anywhere. -/
def Sole (s : Tagged θ ι ρ ω) (i : ι) : Prop :=
  ∀ l l' x x', Holds s l (i, x) → Holds s l' (i, x') → l = l' ∧ x = x'

theorem Vacant.sole {s : Tagged θ ι ρ ω} {i : ι} (hv : Vacant s i) : Sole s i :=
  fun l _ x _ hl _ => absurd hl (hv l x)

theorem Moves.vacant {s s' : Tagged θ ι ρ ω} {i : ι} (hm : Moves s s') (hv : Vacant s i) :
    Vacant s' i := by
  intro l x hl
  rcases hm with hm | ⟨l₁, l₂, k₀, hk₀, hm⟩
  · exact hv l x (hm l _ hl)
  · rcases hm l _ hl with ⟨hl, -⟩ | ⟨-, rfl⟩
    · exact hv l x hl
    · exact hv l₁ x hk₀

theorem Moves.sole {s s' : Tagged θ ι ρ ω} {i : ι} (hm : Moves s s') (hsole : Sole s i) :
    Sole s' i := by
  intro l l' x x' hl hl'
  rcases hm with hm | ⟨l₁, l₂, k₀, hk₀, hm⟩
  · exact hsole l l' x x' (hm l _ hl) (hm l' _ hl')
  · rcases hm l _ hl with ⟨hl, hne⟩ | ⟨rfl, rfl⟩
    · rcases hm l' _ hl' with ⟨hl', -⟩ | ⟨-, rfl⟩
      · exact hsole l l' x x' hl hl'
      · exact absurd (hsole l l₁ x x' hl hk₀).1 hne
    · rcases hm l' _ hl' with ⟨hl', hne⟩ | ⟨rfl, heq⟩
      · exact absurd (hsole l' l₁ x' x hl' hk₀).1 hne
      · exact ⟨rfl, by simpa using heq.symm⟩

/-- A request and a callback that `add_sqe` may get together. -/
def Matches : Op (ι × ρ) → Option (Callback (ι × ω)) → Prop
  | .pollWaker, some .waker => True
  | .user p, some (.user k) => p.1 = k.1
  | _, _ => False

/-- The closure of a token: registered, or with the thread that registers it. -/
def Owned (s : Tagged θ ι ρ ω) (tok : Nat) (k : ι × ω) : Prop :=
  s.callbacks tok = some (.user k) ∨ ∃ t, (s.call t).view = some (.taking tok k)

/-- Every request goes with a closure of its own operation. -/
structure Paired (s : Tagged θ ι ρ ω) : Prop where
  calls : ∀ t op cb, (s.call t).Prepares op cb → Matches op cb
  sqes : ∀ q ∈ s.sq ++ s.inflight, ∀ i y, q.op = .user (i, y) → ∃ x, Owned s q.userData (i, x)

/-- An SQE of an operation with a closure is the one the closure waits for. -/
theorem Stage.of_sqe {s : Tagged θ ι ρ ω} {h : History (ι × ρ) (ι × ω)} {i : ι} {x : ω} {y y' : ρ}
    {phase : Phase} {l : Place θ} {q : Sqe (ι × ρ)} (hst : Stage s (i, x) (i, y) phase l)
    (hi : Routing h s) (hsole : Sole s i) (hpaired : Paired s) (hq : q ∈ s.sq ++ s.inflight)
    (hop : q.op = .user (i, y')) :
    y' = y ∧ phase = .queued ∧
      (s.callbacks q.userData = some (.user (i, x)) ∨ ∃ t, (s.call t).Takes q.userData) := by
  have hsame : ∀ tok, ⟨.user (i, y), tok⟩ ∈ s.sq ++ s.inflight → tok = q.userData → y' = y := by
    intro tok hmem htok
    have heq := congrArg Sqe.op (hi.sqe_unique hq hmem htok.symm)
    rw [hop] at heq
    simpa using heq
  obtain ⟨x', hown⟩ := hpaired.sqes q hq i y' hop
  rcases hown with hmap | ⟨t, hview⟩
  · obtain ⟨rfl, rfl⟩ := hsole l (.map q.userData) x x' hst.holds hmap
    cases hst with
    | waiting _ hm hq' => exact ⟨hsame _ hq' rfl, rfl, .inl hm⟩
    | completed _ res hm hc => exact absurd rfl (hi.sqe_ne_cqe hq hc)
  · obtain ⟨rfl, rfl⟩ := hsole l (.call t) x x' hst.holds (holds_of_view hview)
    cases hst with
    | preparing _ hv => simp [hview] at hv
    | taking _ tok hv hq' =>
      rw [hview] at hv
      simp only [Option.some.injEq, View.taking.injEq, and_true] at hv
      exact ⟨hsame _ hq' hv.symm, rfl, .inr ⟨t, Call.view_takes hview⟩⟩

/-- An operation has at most one SQE. -/
theorem Paired.sqe_sole {s : Tagged θ ι ρ ω} {h : History (ι × ρ) (ι × ω)} {i : ι} {y y' : ρ}
    {q q' : Sqe (ι × ρ)} (hpaired : Paired s) (hi : Routing h s) (hsole : Sole s i)
    (hq : q ∈ s.sq ++ s.inflight) (hop : q.op = .user (i, y)) (hq' : q' ∈ s.sq ++ s.inflight)
    (hop' : q'.op = .user (i, y')) : q = q' := by
  apply hi.sqe_unique hq hq'
  obtain ⟨x, hx⟩ := hpaired.sqes q hq i y hop
  obtain ⟨x', hx'⟩ := hpaired.sqes q' hq' i y' hop'
  rcases hx with hmap | ⟨t, hview⟩
  · rcases hx' with hmap' | ⟨t', hview'⟩
    · have := (hsole (.map _) (.map _) x x' hmap hmap').1
      simpa using this
    · have := (hsole (.map _) (.call _) x x' hmap (holds_of_view hview')).1
      simp at this
  · rcases hx' with hmap' | ⟨t', hview'⟩
    · have := (hsole (.call _) (.map _) x x' (holds_of_view hview) hmap').1
      simp at this
    · have := (hsole (.call _) (.call _) x x' (holds_of_view hview) (holds_of_view hview')).1
      simp only [Place.call.injEq] at this
      subst this
      rw [hview] at hview'
      simp only [Option.some.injEq, View.taking.injEq] at hview'
      exact hview'.1

/-- The kernel answers the request of this closure. -/
theorem Stage.own_posted {s : Tagged θ ι ρ ω} {h : History (ι × ρ) (ι × ω)} {i : ι} {x : ω}
    {y y' : ρ} {phase : Phase} {l : Place θ} {n : Nat} {q : Sqe (ι × ρ)}
    (hst : Stage s (i, x) (i, y) phase l) (hi : Routing h s) (hsole : Sole s i)
    (hpaired : Paired s) (hq : s.inflight[n]? = some q) (hop : q.op = .user (i, y')) (res : Int) :
    y' = y ∧ phase = .queued ∧
      Stage { s with inflight := s.inflight.eraseIdx n, cq := s.cq ++ [⟨q.userData, res⟩] }
        (i, x) (i, y) (.completed res) (.map q.userData) := by
  have hmem : q ∈ s.inflight := List.mem_of_getElem? hq
  obtain ⟨hy, hphase, hown⟩ := hst.of_sqe hi hsole hpaired (List.mem_append_right _ hmem) hop
  refine ⟨hy, hphase, ?_⟩
  rcases hown with hmap | ⟨t, ht⟩
  · exact .completed q.userData res hmap (by simp)
  · have hn := hi.sqes_nodup
    rw [List.map_append] at hn
    exact absurd rfl ((List.nodup_append.mp hn).2.2 _ (hi.taken t _ ht).1 _
      (List.mem_map_of_mem hmem))

/-- The invocation of a closure takes it out of the batch. -/
theorem moves_dispatch {s : Tagged θ ι ρ ω} {r : Ready (ι × ω)} {rest : List (Ready (ι × ω))}
    (hpc : s.loop = .dispatch (r :: rest)) : Moves s { s with loop := .callback rest } := by
  refine .inl fun l k hl => holds_frame hl (fun _ => rfl) (fun _ _ hk => hk) ?_
  intro tok k' ret hr
  rw [hpc]
  exact List.mem_cons_of_mem r hr

theorem vacant_dispatch {s : Tagged θ ι ρ ω} {h : History (ι × ρ) (ι × ω)} {i : ι} {x : ω}
    {tok : Nat} {ret : Result Int} {rest : List (Ready (ι × ω))} (hi : Routing h s)
    (hsole : Sole s i) (hpc : s.loop = .dispatch (⟨tok, .user (i, x), ret⟩ :: rest)) :
    Vacant { s with loop := .callback rest } i := by
  intro l x' hl
  have hold : Holds s l (i, x') := by
    refine holds_frame hl (fun _ => rfl) (fun _ _ hk => hk) ?_
    intro tok' k' ret' hr
    rw [hpc]
    exact List.mem_cons_of_mem _ hr
  have hhead : Holds s (.batch tok) (i, x) := ⟨ret, by rw [hpc]; exact List.mem_cons_self⟩
  obtain ⟨rfl, rfl⟩ := hsole l (.batch tok) x' x hold hhead
  obtain ⟨ret', hr⟩ := hl
  have hn := hi.pending_nodup
  simp only [hpc, LoopPc.pending, List.map_cons, List.nodup_cons] at hn
  exact hn.1 (List.mem_map_of_mem (f := Ready.token) hr)

/-- The closure at the head of the batch is the one its operation waits with, and
it is called with the result of its own request. -/
theorem Stage.of_head {s : Tagged θ ι ρ ω} {h : History (ι × ρ) (ι × ω)} {i : ι} {x x' : ω}
    {y : ρ} {phase : Phase} {l : Place θ} {tok : Nat} {ret : Result Int}
    {rest : List (Ready (ι × ω))} (hst : Stage s (i, x) (i, y) phase l) (hi : Routing h s)
    (hsole : Sole s i) (hpc : s.loop = .dispatch (⟨tok, .user (i, x'), ret⟩ :: rest)) :
    x' = x ∧ ∃ res, phase = .completed res ∧ ret = toResult res := by
  have hmem : ⟨tok, .user (i, x'), ret⟩ ∈ s.loop.pending := by
    rw [hpc]
    exact List.mem_cons_self
  obtain ⟨rfl, rfl⟩ := hsole l (.batch tok) x x' hst.holds ⟨ret, hmem⟩
  cases hst with
  | ready _ res hready =>
    have heq := List.inj_on_of_nodup_map hi.pending_nodup hmem hready rfl
    exact ⟨rfl, res, rfl, congrArg Ready.ret heq⟩

theorem Paired.of_dispatch {s : Tagged θ ι ρ ω} (hpaired : Paired s)
    (pc : LoopPc (ι × ω)) : Paired { s with loop := pc } :=
  ⟨hpaired.calls, hpaired.sqes⟩

theorem Paired.of_posted {s : Tagged θ ι ρ ω} (hpaired : Paired s) (n : Nat) (c : Cqe) :
    Paired { s with inflight := s.inflight.eraseIdx n, cq := s.cq ++ [c] } := by
  refine ⟨hpaired.calls, fun q hq => hpaired.sqes q ?_⟩
  rw [List.mem_append] at hq ⊢
  exact hq.imp id List.mem_of_mem_eraseIdx

/-- The request that a thread takes into `add_sqe` with its closure. -/
def submission (i : ι) (x : ω) (y : ρ) : Call (ι × ρ) (ι × ω) :=
  .lockSubmission (.user (i, y)) (some (.user (i, x)))

variable [DecidableEq θ]

theorem holds_enter {s : Tagged θ ι ρ ω} {t : Thread θ} {i : ι} {x : ω} {y : ρ} {l : Place θ}
    {k : ι × ω} (h : Holds (s.setCall t (submission i x y)) l k) :
    Holds s l k ∨ (l = .call t ∧ k = (i, x)) := by
  cases l with
  | call t' =>
    by_cases ht : t' = t
    · refine .inr ⟨by rw [ht], ?_⟩
      simp only [Holds, ht, State.setCall_call, Function.update_self, submission, Call.view,
        Option.map_some, View.closure, Option.some.injEq] at h
      exact h.symm
    · exact .inl (by simpa [Holds, Function.update_of_ne ht] using h)
  | map tok => exact .inl h
  | batch tok => exact .inl h

theorem Vacant.of_enter {s : Tagged θ ι ρ ω} {t : Thread θ} {i j : ι} {x : ω} {y : ρ}
    (hv : Vacant s j) (hne : j ≠ i) : Vacant (s.setCall t (submission i x y)) j := by
  intro l x' hl
  rcases holds_enter hl with hl | ⟨-, heq⟩
  · exact hv l x' hl
  · exact hne (congrArg Prod.fst heq)

theorem Sole.of_enter {s : Tagged θ ι ρ ω} {t : Thread θ} {i j : ι} {x : ω} {y : ρ}
    (hsole : Sole s j) (hv : j = i → Vacant s i) : Sole (s.setCall t (submission i x y)) j := by
  intro l l' x₁ x₂ hl hl'
  rcases holds_enter hl with hold | ⟨rfl, heq⟩
  · rcases holds_enter hl' with hold' | ⟨rfl, heq'⟩
    · exact hsole l l' x₁ x₂ hold hold'
    · obtain ⟨rfl, rfl⟩ := Prod.mk.inj heq'
      exact absurd hold (hv rfl l x₁)
  · rcases holds_enter hl' with hold' | ⟨rfl, heq'⟩
    · obtain ⟨rfl, rfl⟩ := Prod.mk.inj heq
      exact absurd hold' (hv rfl l' x₂)
    · obtain ⟨rfl, rfl⟩ := Prod.mk.inj heq
      exact ⟨rfl, (Prod.mk.inj heq').2.symm⟩

theorem Stage.enter {s : Tagged θ ι ρ ω} (t : Thread θ) (i : ι) (x : ω) (y : ρ) :
    Stage (s.setCall t (submission i x y)) (i, x) (i, y) .preparing (.call t) :=
  .preparing t (by simp [submission, Call.view])

theorem Paired.of_enter {s : Tagged θ ι ρ ω} (hpaired : Paired s) {t : Thread θ}
    (hidle : s.call t = .idle) (i : ι) (x : ω) (y : ρ) :
    Paired (s.setCall t (submission i x y)) := by
  constructor
  · intro t' op cb ht'
    by_cases ht : t' = t
    · have hc : op = .user (i, y) ∧ cb = some (.user (i, x)) := by
        simpa [ht, submission, Call.Prepares] using ht'
      rw [hc.1, hc.2]
      rfl
    · exact hpaired.calls t' op cb (by simpa [Function.update_of_ne ht] using ht')
  · intro q hq j y' hop
    obtain ⟨x', hown⟩ := hpaired.sqes q hq j y' hop
    refine ⟨x', hown.imp id ?_⟩
    rintro ⟨t', hview⟩
    have hne : t' ≠ t := by
      rintro rfl
      simp [hidle, Call.view] at hview
    exact ⟨t', by simpa [Function.update_of_ne hne] using hview⟩

/-- A plain step queues nothing, or the request of one thread. -/
theorem step_asks {s s' : Tagged θ ι ρ ω} {a : Action θ (ι × ρ) (ι × ω)}
    {e : History (ι × ρ) (ι × ω)} (hs : step s a = some (s', e)) (hpaired : Paired s) :
    asks e = [] ∨ ∃ t p k, s.call t = .getSqe (.user p) (some (.user k)) ∧ p.1 = k.1 ∧
      asks e = [p] ∧
      s' = (s.takeSqe (.user p)).setCall t (.wake s.callbacksIdx (some (.user k))) := by
  cases step_change hs with
  | quiet e he hsame => exact .inl (asks_quiet he)
  | took t op cb hcall hroom hs' =>
    have hm := hpaired.calls t op cb (by simp [hcall, Call.Prepares])
    rcases op with _ | p
    · exact .inl rfl
    · rcases cb with _ | _ | k
      · exact hm.elim
      · exact hm.elim
      · exact .inr ⟨t, p, k, hcall, hm, rfl, hs'⟩
  | invoked r rest e he hpc =>
    have hquiet : asks e = [] := asks_quiet he
    exact .inl hquiet
  | _ => exact .inl rfl

theorem Owned.of_inserted {s : Tagged θ ι ρ ω} {h : History (ι × ρ) (ι × ω)} {n tok : Nat}
    {k : ι × ω} {t : Thread θ} {cb : Callback (ι × ω)} (hown : Owned s n k) (hi : Routing h s)
    (hcall : s.call t = .insert tok cb) :
    Owned (({ s with callbacks := Function.update s.callbacks tok (some cb) }.unlock
      (some cb)).setCall t (.returned (.ok tok))) n k := by
  have hnone : s.callbacks tok = none := hi.unregistered (t := t) (by simp [hcall, Call.Takes])
  rcases hown with hmap | ⟨t', hview⟩
  · have hne : n ≠ tok := by
      rintro rfl
      simp [hnone] at hmap
    exact .inl (by simpa [Function.update_of_ne hne] using hmap)
  · by_cases ht : t' = t
    · rw [ht, hcall] at hview
      cases cb with
      | waker => simp [Call.view] at hview
      | user k' =>
        simp only [Call.view, Option.some.injEq, View.taking.injEq] at hview
        obtain ⟨rfl, rfl⟩ := hview
        exact .inl (by simp)
    · exact .inr ⟨t', by simpa [Function.update_of_ne ht] using hview⟩

/-- Every SQE's closure stays its own through a plain step. -/
theorem Owned.step {s s' : Tagged θ ι ρ ω} {a : Action θ (ι × ρ) (ι × ω)}
    {h e : History (ι × ρ) (ι × ω)} {q : Sqe (ι × ρ)} {k : ι × ω} (hown : Owned s q.userData k)
    (hq : q ∈ s.sq ++ s.inflight) (hs : step s a = some (s', e)) (hp : Plain s a)
    (htidy : Tidy s) (hi : Routing h s) : Owned s' q.userData k := by
  have hframe : (∀ t, (s'.call t).view = (s.call t).view) → s'.callbacks = s.callbacks →
      Owned s' q.userData k := by
    intro hv hcallbacks
    simpa [Owned, hv, hcallbacks] using hown
  cases step_change hs with
  | quiet e he hsame =>
    exact hframe (step_view hs hp htidy fun x hx => (he x hx).not_hands) hsame.callbacks
  | took t op cb hcall hroom hs' =>
    subst hs'
    refine hown.imp id ?_
    rintro ⟨t', hview⟩
    have hne : t' ≠ t := by
      rintro rfl
      rcases cb with _ | _ | k' <;> simp [hcall, Call.view] at hview
    exact ⟨t', by simpa [Function.update_of_ne hne] using hview⟩
  | inserted t tok cb hcall hs' =>
    subst hs'
    exact hown.of_inserted hi hcall
  | erased tok hcallbacks hsq hinflight hcq hidx hpending htakes =>
    obtain ⟨t, ht⟩ := step_cancelled hs hp
    refine hframe (step_view hs hp htidy (by simp [Event.Hands])) ?_
    rw [hcallbacks, ← hi.unregistered ht, Function.update_eq_self]
  | submitted n hfree hpc hs' =>
    subst hs'
    exact hown
  | posted i q res hq hs' =>
    exact absurd trivial (plain_events hs hp _ (List.mem_singleton_self _))
  | collected c cq n ready hcq hpc hs' =>
    subst hs'
    refine hown.imp ?_ id
    intro hmap
    have hne := hi.sqe_ne_cqe hq (show c ∈ s.cq by simp [hcq])
    simpa [Function.update_of_ne hne] using hmap
  | invoked r rest e he hpc hpending hsq hinflight hcq hcallbacks hidx htakes =>
    exact hframe (step_view hs hp htidy (not_hands_invoked he r)) hcallbacks

/-- What a plain step leaves in the submission ring and with the kernel was
there before, except for an SQE that it takes. -/
theorem step_sqes {s s' : Tagged θ ι ρ ω} {a : Action θ (ι × ρ) (ι × ω)}
    {e : History (ι × ρ) (ι × ω)} (hs : step s a = some (s', e)) {q : Sqe (ι × ρ)}
    (hq : q ∈ s'.sq ++ s'.inflight) :
    q ∈ s.sq ++ s.inflight ∨ ∃ t cb, s.call t = .getSqe q.op cb ∧ q.userData = s.callbacksIdx ∧
      s' = (s.takeSqe q.op).setCall t (.wake s.callbacksIdx cb) := by
  cases step_change hs with
  | quiet e he hsame => exact .inl (by rwa [hsame.sq, hsame.inflight] at hq)
  | took t op cb hcall hroom hs' =>
    subst hs'
    simp only [State.setCall_sq, State.takeSqe_sq, State.setCall_inflight,
      State.takeSqe_inflight, List.mem_append, List.mem_singleton] at hq ⊢
    rcases hq with (hq | rfl) | hq
    · exact .inl (.inl hq)
    · exact .inr ⟨t, cb, hcall, rfl, rfl⟩
    · exact .inl (.inr hq)
  | inserted t tok cb hcall hs' => exact .inl (by subst hs'; exact hq)
  | erased tok hcallbacks hsq hinflight => exact .inl (by rwa [hsq, hinflight] at hq)
  | submitted n hfree hpc hs' =>
    subst hs'
    simp only [List.mem_append] at hq ⊢
    rcases hq with hq | hq | hq
    · exact .inl (.inl (List.mem_of_mem_drop hq))
    · exact .inl (.inr hq)
    · exact .inl (.inl (List.mem_of_mem_take hq))
  | posted i q' res hq' hs' =>
    subst hs'
    rw [List.mem_append] at hq ⊢
    exact .inl (hq.imp id List.mem_of_mem_eraseIdx)
  | collected c cq n ready hcq hpc hs' => exact .inl (by subst hs'; exact hq)
  | invoked r rest e he hpc hpending hsq hinflight => exact .inl (by rwa [hsq, hinflight] at hq)

theorem Paired.step {s s' : Tagged θ ι ρ ω} {a : Action θ (ι × ρ) (ι × ω)}
    {h e : History (ι × ρ) (ι × ω)} (hpaired : Paired s) (hs : step s a = some (s', e))
    (hp : Plain s a) (htidy : Tidy s) (hi : Routing h s) : Paired s' := by
  constructor
  · intro t op cb ht
    rcases step_prepares hs ht with ht | ⟨rfl, rfl⟩ | ⟨p, k, rfl, -⟩
    · exact hpaired.calls t op cb ht
    · trivial
    · exact absurd hp (by simp [Plain])
  · intro q hq i y hop
    rcases step_sqes hs hq with hq | ⟨t, cb, hcall, htok, rfl⟩
    · obtain ⟨x, hown⟩ := hpaired.sqes q hq i y hop
      exact ⟨x, hown.step hq hs hp htidy hi⟩
    · have hm := hpaired.calls t q.op cb (by simp [hcall, Call.Prepares])
      rw [hop] at hm
      rcases cb with _ | _ | ⟨j, x⟩
      · exact hm.elim
      · exact hm.elim
      · obtain rfl : i = j := hm
        exact ⟨x, .inr ⟨t, by simp [htok, Call.view]⟩⟩

/-- What a plain step does to the stage of an operation: its phase stays and
nothing of it is queued, or its request is queued. -/
theorem Stage.step {s s' : Tagged θ ι ρ ω} {a : Action θ (ι × ρ) (ι × ω)}
    {h e : History (ι × ρ) (ι × ω)} {i : ι} {x : ω} {y : ρ} {phase : Phase} {l : Place θ}
    (hst : Stage s (i, x) (i, y) phase l) (hs : UringContext.step s a = some (s', e))
    (hp : Plain s a) (htidy : Tidy s) (hi : Routing h s) (hsole : Sole s i)
    (hpaired : Paired s) :
    ((∃ l', Stage s' (i, x) (i, y) phase l') ∧ ∀ y', (i, y') ∉ asks e) ∨
      (phase = .preparing ∧ (∃ l', Stage s' (i, x) (i, y) .queued l') ∧ asks e = [(i, y)]) := by
  rcases step_asks hs hpaired with hnone | ⟨t, ⟨j, y'⟩, ⟨j', x'⟩, hcall, rfl, hasks, hs'⟩
  · exact .inl ⟨hst.keep hs hp htidy hi (by simp [hnone]), by simp [hnone]⟩
  · by_cases hj : j = i
    · subst hj
      have hview : (s.call t).view = some (.preparing (.user (j, y')) (j, x')) := by
        simp [hcall, Call.view]
      obtain ⟨rfl, rfl⟩ := hsole l (.call t) x x' hst.holds (holds_of_view hview)
      cases hst with
      | preparing _ hv =>
        rw [hview] at hv
        simp only [Option.some.injEq, View.preparing.injEq, Op.user.injEq, Prod.mk.injEq,
          true_and, and_true] at hv
        subst hv hs'
        exact .inr ⟨rfl, ⟨.call t, .taking t s.callbacksIdx (by simp [Call.view]) (by simp)⟩, hasks⟩
      | taking _ tok hv hq => simp [hview] at hv
    · have hne : ∀ y'', (i, y'') ∉ asks e := by
        intro y'' hmem
        rw [hasks, List.mem_singleton, Prod.mk.injEq] at hmem
        exact hj hmem.1.symm
      exact .inl ⟨hst.keep hs hp htidy hi (hne y), hne⟩

/-- Nothing of an operation without a closure is queued. -/
theorem Vacant.asks {s s' : Tagged θ ι ρ ω} {a : Action θ (ι × ρ) (ι × ω)}
    {e : History (ι × ρ) (ι × ω)} {i : ι} (hv : Vacant s i)
    (hs : UringContext.step s a = some (s', e)) (hpaired : Paired s) (y : ρ) :
    (i, y) ∉ UringContext.asks e := by
  rcases step_asks hs hpaired with hnone | ⟨t, ⟨j, y'⟩, ⟨j', x'⟩, hcall, rfl, hasks, -⟩
  · simp [hnone]
  · intro hmem
    rw [hasks, List.mem_singleton, Prod.mk.injEq] at hmem
    obtain ⟨rfl, -⟩ := hmem
    exact hv (.call t) x' (by simp [Holds, hcall, Call.view, View.closure])

end Operations

end UringContext
