import Mathlib.Data.List.Perm.Basic
import Mathlib.Data.List.Nodup
import Mathlib.Data.List.Range
import Arkio.UringSteps

/-!
# Callback routing

A token is in exactly one of four places: its SQE is prepared, or accepted by
the kernel, or its CQE is in the completion ring, or the loop has collected it.
The callback map holds the tokens of the first three that were added and not
cancelled. The callbacks that were invoked, followed by those the current batch
still has to invoke, are the collected ones in completion order.
-/
namespace UringContext

open Bindings LabelledMachine

variable {θ π κ : Type}

abbrev History (π κ : Type) := List (Event π κ)

/-- The CQEs the kernel posted, in ring order. -/
def posted (h : History π κ) : List Cqe :=
  h.filterMap fun e => match e with | .posted c => some c | _ => none

/-- The CQEs the loop collected. -/
def collected (h : History π κ) : List Cqe :=
  h.filterMap fun e => match e with | .collected c _ => some c | _ => none

/-- The callbacks the loop moved out of the map, with their results. -/
def extracted (h : History π κ) : List (Ready κ) :=
  h.filterMap fun e => match e with
    | .collected c (some cb) => some ⟨c.userData, cb, toResult c.res⟩
    | _ => none

/-- The callbacks that were invoked. -/
def invoked (h : History π κ) : List (Ready κ) :=
  h.filterMap fun e => match e with | .invoked r => some r | _ => none

/-- The registrations of successful `add_sqe` calls. -/
def added (h : History π κ) : List (Nat × Callback κ) :=
  h.filterMap fun e => match e with | .added tok cb => some (tok, cb) | _ => none

@[simp] theorem posted_append (h h' : History π κ) : posted (h ++ h') = posted h ++ posted h' :=
  List.filterMap_append

@[simp] theorem collected_append (h h' : History π κ) :
    collected (h ++ h') = collected h ++ collected h' := List.filterMap_append

/-- Only collecting a CQE adds to the collected ones. -/
theorem collected_append_of_ne {x : Event π κ} (hx : ∀ c cb, x ≠ .collected c cb)
    (h : History π κ) : collected (h ++ [x]) = collected h := by
  cases x with
  | collected c cb => exact absurd rfl (hx c cb)
  | _ => simp [collected]

@[simp] theorem extracted_append (h h' : History π κ) :
    extracted (h ++ h') = extracted h ++ extracted h' := List.filterMap_append

@[simp] theorem invoked_append (h h' : History π κ) :
    invoked (h ++ h') = invoked h ++ invoked h' := List.filterMap_append

@[simp] theorem added_append (h h' : History π κ) : added (h ++ h') = added h ++ added h' :=
  List.filterMap_append

@[simp] theorem mem_posted {h : History π κ} {c : Cqe} : c ∈ posted h ↔ .posted c ∈ h :=
  mem_filterMap_of fun e c => by cases e <;> simp

theorem mem_collected {h : History π κ} {c : Cqe} :
    c ∈ collected h ↔ ∃ cb, .collected c cb ∈ h := by
  simp only [collected, List.mem_filterMap]
  constructor
  · rintro ⟨e, he, hc⟩
    split at hc
    next c' cb =>
      obtain rfl := Option.some.inj hc
      exact ⟨cb, he⟩
    next => cases hc
  · rintro ⟨cb, hc⟩
    exact ⟨_, hc, rfl⟩

theorem mem_extracted {h : History π κ} {r : Ready κ} :
    r ∈ extracted h ↔
      ∃ c cb, .collected c (some cb) ∈ h ∧ r = ⟨c.userData, cb, toResult c.res⟩ := by
  simp only [extracted, List.mem_filterMap]
  constructor
  · rintro ⟨e, he, hr⟩
    split at hr
    next c cb => exact ⟨c, cb, he, (Option.some.inj hr).symm⟩
    next => cases hr
  · rintro ⟨c, cb, hc, rfl⟩
    exact ⟨_, hc, rfl⟩

@[simp] theorem mem_invoked {h : History π κ} {r : Ready κ} : r ∈ invoked h ↔ .invoked r ∈ h :=
  mem_filterMap_of fun e r => by cases e <;> simp

@[simp] theorem mem_added {h : History π κ} {tok : Nat} {cb : Callback κ} :
    (tok, cb) ∈ added h ↔ .added tok cb ∈ h :=
  mem_filterMap_of (g := fun p : Nat × Callback κ => Event.added p.1 p.2) fun e p => by
    cases e <;> simp [Prod.ext_iff]

/-- The extracted callbacks follow the order of the collected CQEs. -/
theorem extracted_sublist (h : History π κ) :
    ((extracted h).map fun r => (r.token, r.ret)).Sublist
      ((collected h).map fun c => (c.userData, toResult c.res)) := by
  induction h with
  | nil => exact .slnil
  | cons e h ih =>
    cases e with
    | collected c cb =>
      cases cb with
      | some cb => exact ih.cons_cons _
      | none => exact ih.cons _
    | _ => exact ih

/-- The event takes the token out of the callback map. -/
def Event.Ends (tok : Nat) : Event π κ → Prop
  | .cancelled n => n = tok
  | .collected c _ => c.userData = tok
  | _ => False

/-- The registration was added, and since then neither cancelled nor collected. -/
def Live (h : History π κ) (tok : Nat) (cb : Callback κ) : Prop :=
  Since (· = .added tok cb) (Event.Ends tok) h

/-- The tokens in the four places a token can be. -/
def tokens (h : History π κ) (s : State θ π κ) : List Nat :=
  (collected h ++ s.cq).map Cqe.userData ++ (s.inflight ++ s.sq).map Sqe.userData

/-- A callback runs only after its registration and after its own completion was
posted, and with that completion's result. -/
def InvokedAfterPosted (h : History π κ) (e : Event π κ) : Prop :=
  ∀ r, e = .invoked r → .added r.token r.callback ∈ h ∧
    ∃ res, .posted ⟨r.token, res⟩ ∈ h ∧ r.ret = toResult res

/-- The routing invariant. -/
structure Routing (h : History π κ) (s : State θ π κ) : Prop where
  locked : Locked s
  places : (tokens h s).Perm (List.range s.callbacksIdx)
  posted_eq : posted h = collected h ++ s.cq
  batch : invoked h ++ s.loop.pending = extracted h
  live : ∀ tok cb, s.callbacks tok = some cb ↔ Live h tok cb
  taken : ∀ t tok, (s.call t).Takes tok →
    tok ∈ s.sq.map Sqe.userData ∧ ∀ cb, .added tok cb ∉ h
  added_lt : ∀ tok cb, .added tok cb ∈ h → tok < s.callbacksIdx
  added_nodup : ((added h).map Prod.fst).Nodup
  extracted_added : ∀ c cb, .collected c (some cb) ∈ h → .added c.userData cb ∈ h
  extracts : ∀ c o cb, .collected c o ∈ h → .added c.userData cb ∈ h →
    .cancelled c.userData ∈ h ∨ o = some cb
  vacated : ∀ tok ∈ (collected h).map Cqe.userData, s.callbacks tok = none
  justified : Justified InvokedAfterPosted h

/-- Quiet events are invisible to a projection that ignores them. -/
theorem filterMap_quiet {β : Type} {f : Event π κ → Option β} {e : History π κ}
    (he : ∀ x ∈ e, x.Quiet) (hf : ∀ x : Event π κ, x.Quiet → f x = none) :
    e.filterMap f = [] :=
  List.filterMap_eq_nil_iff.mpr fun x hx => hf x (he x hx)

section Quiet

variable {e : History π κ}

theorem posted_quiet (he : ∀ x ∈ e, x.Quiet) : posted e = [] :=
  filterMap_quiet he (by rintro (_ | _) <;> simp [Event.Quiet])

theorem collected_quiet (he : ∀ x ∈ e, x.Quiet) : collected e = [] :=
  filterMap_quiet he (by rintro (_ | _) <;> simp [Event.Quiet])

theorem extracted_quiet (he : ∀ x ∈ e, x.Quiet) : extracted e = [] :=
  filterMap_quiet he (by rintro (_ | _) <;> simp [Event.Quiet])

theorem invoked_quiet (he : ∀ x ∈ e, x.Quiet) : invoked e = [] :=
  filterMap_quiet he (by rintro (_ | _) <;> simp [Event.Quiet])

theorem added_quiet (he : ∀ x ∈ e, x.Quiet) : added e = [] :=
  filterMap_quiet he (by rintro (_ | _) <;> simp [Event.Quiet])

/-- An event that is not quiet is in the history with quiet events appended
exactly when it was there before. -/
theorem mem_append_quiet (he : ∀ x ∈ e, x.Quiet) {h : History π κ} {x : Event π κ}
    (hx : ¬x.Quiet) : x ∈ h ++ e ↔ x ∈ h := by
  rw [List.mem_append]
  exact or_iff_left fun hm => hx (he x hm)

theorem live_append_quiet (he : ∀ x ∈ e, x.Quiet) {h : History π κ} {tok : Nat}
    {cb : Callback κ} : Live (h ++ e) tok cb ↔ Live h tok cb := by
  refine since_append_of_forall fun x hx => ?_
  have hq := he x hx
  cases x <;> simp_all [Event.Quiet, Event.Ends]

end Quiet

/-- A history that grows by quiet events only, and by nothing the invariant
reads, keeps the invariant. -/
theorem Routing.quiet {h e : History π κ} {s s' : State θ π κ} (hi : Routing h s)
    (hl : Locked s') (he : ∀ x ∈ e, x.Quiet) (hsame : SameCore s s') :
    Routing (h ++ e) s' where
  locked := hl
  places := by
    simpa [tokens, collected_quiet he, hsame.cq, hsame.inflight, hsame.sq, hsame.callbacksIdx]
      using hi.places
  posted_eq := by simpa [posted_quiet he, collected_quiet he, hsame.cq] using hi.posted_eq
  batch := by simpa [invoked_quiet he, extracted_quiet he, hsame.pending] using hi.batch
  live := by
    intro tok cb
    rw [hsame.callbacks, live_append_quiet he]
    exact hi.live tok cb
  taken := by
    intro t tok ht
    obtain ⟨hsq, hadd⟩ := hi.taken t tok (hsame.takes t tok ht)
    refine ⟨by rw [hsame.sq]; exact hsq, fun cb => ?_⟩
    rw [mem_append_quiet he (by simp [Event.Quiet])]
    exact hadd cb
  added_lt := by
    intro tok cb hadd
    rw [mem_append_quiet he (by simp [Event.Quiet])] at hadd
    rw [hsame.callbacksIdx]
    exact hi.added_lt tok cb hadd
  added_nodup := by simpa [added_quiet he] using hi.added_nodup
  extracted_added := by
    intro c cb hc
    rw [mem_append_quiet he (by simp [Event.Quiet])] at hc ⊢
    exact hi.extracted_added c cb hc
  extracts := by
    intro c o cb hc hadd
    rw [mem_append_quiet he (by simp [Event.Quiet])] at hc hadd ⊢
    exact hi.extracts c o cb hc hadd
  vacated := by simpa [collected_quiet he, hsame.callbacks] using hi.vacated
  justified := by
    refine hi.justified.append fun h' x hx r hr => ?_
    have := he x hx
    simp [hr, Event.Quiet] at this

theorem Routing.justified_append {h : History π κ} {s : State θ π κ} (hi : Routing h s)
    {x : Event π κ} (hx : ∀ r, x ≠ .invoked r) : Justified InvokedAfterPosted (h ++ [x]) := by
  rw [justified_append_singleton]
  exact ⟨hi.justified, fun r hr => absurd hr (hx r)⟩

/-- An event that is about one token leaves the registrations of the others alone. -/
theorem Routing.live_update {h : History π κ} {s : State θ π κ} (hi : Routing h s) {tok : Nat}
    {slot : Option (Callback κ)} {x : Event π κ} (hadds : ∀ n cb, x = .added n cb → n = tok)
    (hends : ∀ n, x.Ends n → n = tok) {n : Nat} (hne : n ≠ tok) (cb : Callback κ) :
    Function.update s.callbacks tok slot n = some cb ↔ Live (h ++ [x]) n cb := by
  have hadd : x ≠ .added n cb := fun he => hne (hadds n cb he)
  have hend : ¬x.Ends n := fun he => hne (hends n he)
  rw [Function.update_of_ne hne, hi.live n cb, Live, Live, since_append_singleton]
  simp [hadd, hend]

/-- A token that some SQE or CQE still carries was not collected. -/
theorem Routing.not_collected {h : History π κ} {s : State θ π κ} (hi : Routing h s) {tok : Nat}
    (htok : tok ∈ s.cq.map Cqe.userData ++ (s.inflight ++ s.sq).map Sqe.userData) :
    tok ∉ (collected h).map Cqe.userData := by
  have hn : (tokens h s).Nodup := hi.places.nodup_iff.mpr List.nodup_range
  simp only [tokens, List.map_append, List.append_assoc] at hn htok
  exact fun hc => (List.nodup_append.mp hn).2.2 tok hc tok htok rfl

/-- A token whose SQE is still queued or in flight has no CQE. -/
theorem Routing.not_completed {h : History π κ} {s : State θ π κ} (hi : Routing h s) {tok : Nat}
    (htok : tok ∈ (s.inflight ++ s.sq).map Sqe.userData) : tok ∉ s.cq.map Cqe.userData := by
  have hn : (tokens h s).Nodup := hi.places.nodup_iff.mpr List.nodup_range
  rw [tokens, List.map_append, List.append_assoc] at hn
  have hcq := (List.nodup_append.mp hn).2.1
  exact fun hc => (List.nodup_append.mp hcq).2.2 tok hc tok htok rfl

/-- No two SQEs that are queued or in flight share a token. -/
theorem Routing.sqes_nodup {h : History π κ} {s : State θ π κ} (hi : Routing h s) :
    ((s.sq ++ s.inflight).map Sqe.userData).Nodup := by
  have hn : (tokens h s).Nodup := hi.places.nodup_iff.mpr List.nodup_range
  have hp : (s.inflight ++ s.sq).Perm (s.sq ++ s.inflight) := List.perm_append_comm
  exact (hp.map _).nodup_iff.mp (List.nodup_append.mp hn).2.1

theorem Routing.not_ended {h : History π κ} {s : State θ π κ} (hi : Routing h s) {tok : Nat}
    (htok : tok ∈ s.cq.map Cqe.userData ++ (s.inflight ++ s.sq).map Sqe.userData)
    (hcancel : .cancelled tok ∉ h) : ∀ x ∈ h, ¬x.Ends tok := by
  intro x hx hends
  cases x with
  | cancelled n =>
    obtain rfl : n = tok := hends
    exact hcancel hx
  | collected c cb =>
    obtain rfl : c.userData = tok := hends
    exact hi.not_collected htok (List.mem_map_of_mem (mem_collected.mpr ⟨cb, hx⟩))
  | _ => exact hends

theorem Live.added_mem {h : History π κ} {tok : Nat} {cb : Callback κ} (hl : Live h tok cb) :
    .added tok cb ∈ h := by
  obtain ⟨e, he, rfl⟩ := hl.exists_mem
  exact he

theorem Routing.lt_of_mem_sq {h : History π κ} {s : State θ π κ} (hi : Routing h s) {tok : Nat}
    (htok : tok ∈ s.sq.map Sqe.userData) : tok < s.callbacksIdx := by
  have hm : tok ∈ tokens h s := by simp only [tokens, List.map_append, List.mem_append]; tauto
  simpa using hi.places.mem_iff.mp hm

theorem Routing.lt_of_mem {h : History π κ} {s : State θ π κ} (hi : Routing h s) {q : Sqe π}
    (hq : q ∈ s.sq ++ s.inflight) : q.userData < s.callbacksIdx := by
  have hm : q.userData ∈ tokens h s := by
    have := List.mem_map_of_mem (f := Sqe.userData) hq
    simp only [tokens, List.map_append, List.mem_append] at this ⊢
    tauto
  simpa using hi.places.mem_iff.mp hm

theorem Routing.erased {h : History π κ} {s s' : State θ π κ} (hi : Routing h s) (hl : Locked s')
    {tok : Nat} (hcallbacks : s'.callbacks = Function.update s.callbacks tok none)
    (hsq : s'.sq = s.sq) (hinflight : s'.inflight = s.inflight) (hcq : s'.cq = s.cq)
    (hidx : s'.callbacksIdx = s.callbacksIdx) (hpending : s'.loop.pending = s.loop.pending)
    (htakes : ∀ t tok, (s'.call t).Takes tok → (s.call t).Takes tok) :
    Routing (h ++ [.cancelled tok]) s' where
  locked := hl
  places := by simpa [tokens, collected, hsq, hinflight, hcq, hidx] using hi.places
  posted_eq := by simpa [posted, collected, hcq] using hi.posted_eq
  batch := by simpa [invoked, extracted, hpending] using hi.batch
  live := by
    intro tok' cb
    rw [hcallbacks]
    by_cases ht : tok' = tok
    · simp [ht, Live, Event.Ends]
    · exact hi.live_update (x := .cancelled tok) (by simp) (fun _ he => Eq.symm he) ht cb
  taken := by
    intro t tok' ht
    obtain ⟨hin, hadd⟩ := hi.taken t tok' (htakes t tok' ht)
    exact ⟨by rw [hsq]; exact hin, fun cb => by simpa using hadd cb⟩
  added_lt := by
    intro tok' cb hadd
    rw [hidx]
    exact hi.added_lt tok' cb (by simpa using hadd)
  added_nodup := by simpa [added] using hi.added_nodup
  extracted_added := by simpa using hi.extracted_added
  extracts := by
    intro c o cb hc hadd
    rcases hi.extracts c o cb (by simpa using hc) (by simpa using hadd) with hx | hx
    · exact .inl (List.mem_append_left _ hx)
    · exact .inr hx
  vacated := by
    intro tok' htok
    rw [hcallbacks, Function.update_apply]
    split
    · rfl
    · rw [collected_append_of_ne (x := .cancelled tok) (by simp)] at htok
      exact hi.vacated tok' htok
  justified := hi.justified_append (by simp)

/-- The kernel takes SQEs only while nobody is inside `add_sqe`, so every SQE it
takes has its callback in the map already. -/
theorem Routing.submitted {h : History π κ} {s : State θ π κ} (hi : Routing h s) (n : Nat)
    (hfree : s.mSubmission = none) (hpc : s.loop = .submit) :
    Routing h { s with
      sq := s.sq.drop n, inflight := s.inflight ++ s.sq.take n, loop := .wait } := by
  refine ⟨hi.locked, ?_, hi.posted_eq, ?_, hi.live, ?_, hi.added_lt, hi.added_nodup,
    hi.extracted_added, hi.extracts, hi.vacated, hi.justified⟩
  · simpa [tokens, ← List.map_append] using hi.places
  · simpa [hpc, LoopPc.pending] using hi.batch
  · intro t tok ht
    have hown := hi.locked t ht.holds
    rw [hfree] at hown
    cases hown

theorem perm_cons_eraseIdx {α : Type} {l : List α} {i : Nat} {x : α} (h : l[i]? = some x) :
    l.Perm (x :: l.eraseIdx i) := by
  induction l generalizing i with
  | nil => simp at h
  | cons y l ih =>
    cases i with
    | zero =>
      obtain rfl : y = x := by simpa using h
      simp
    | succ i =>
      have hp := (ih (by simpa using h)).cons y
      exact hp.trans (.swap x y _)

theorem Routing.postedCqe {h : History π κ} {s : State θ π κ} (hi : Routing h s) {i : Nat}
    {q : Sqe π} (hq : s.inflight[i]? = some q) (res : Int) :
    Routing (h ++ [.posted ⟨q.userData, res⟩]) { s with
      inflight := s.inflight.eraseIdx i, cq := s.cq ++ [⟨q.userData, res⟩] } where
  locked := hi.locked
  places := by
    have hp := (perm_cons_eraseIdx hq).map Sqe.userData
    have hr := hi.places
    simp only [tokens, List.map_append, collected_append, List.append_assoc] at hr ⊢
    refine List.Perm.trans ?_ hr
    simp only [collected, List.filterMap_cons, List.filterMap_nil, List.map_nil, List.nil_append,
      List.map_cons]
    refine List.Perm.append_left _ (List.Perm.append_left _ ?_)
    exact (hp.symm.append_right _)
  posted_eq := by
    rw [posted_append, hi.posted_eq]
    simp [posted, collected]
  batch := by simpa [invoked, extracted] using hi.batch
  live := by
    intro tok cb
    simpa [Live, Event.Ends] using hi.live tok cb
  taken := by
    intro t tok ht
    obtain ⟨hsq, hadd⟩ := hi.taken t tok ht
    exact ⟨hsq, fun cb => by simpa using hadd cb⟩
  added_lt := by simpa using hi.added_lt
  added_nodup := by simpa [added] using hi.added_nodup
  extracted_added := by simpa using hi.extracted_added
  extracts := by
    intro c o cb hc hadd
    simpa using hi.extracts c o cb (by simpa using hc) (by simpa using hadd)
  vacated := by
    rw [collected_append_of_ne (x := .posted _) (by simp)]
    exact hi.vacated
  justified := hi.justified_append (by simp)

/-- Collecting moves the CQE's registration from the map to the current batch. -/
theorem Routing.collectedCqe {h : History π κ} {s : State θ π κ} (hi : Routing h s) {c : Cqe}
    {cq : List Cqe} {n : Nat} {ready : List (Ready κ)} (hcq : s.cq = c :: cq)
    (hpc : s.loop = .collect (n + 1) ready) :
    Routing (h ++ [.collected c (s.callbacks c.userData)]) { s with
      callbacks := Function.update s.callbacks c.userData none
      cq := cq
      loop := .collect n (ready ++
        (s.callbacks c.userData).toList.map (⟨c.userData, ·, toResult c.res⟩)) } := by
  have htok : c.userData ∈ s.cq.map Cqe.userData ++ (s.inflight ++ s.sq).map Sqe.userData := by
    simp [hcq]
  refine ⟨hi.locked, ?_, ?_, ?_, ?_, ?_, ?_, ?_, ?_, ?_, ?_, ?_⟩
  · simpa [tokens, collected, hcq] using hi.places
  · simpa [posted, collected, hcq] using hi.posted_eq
  · have hb := hi.batch
    simp only [hpc, LoopPc.pending] at hb
    rw [extracted_append, ← hb]
    cases hcb : s.callbacks c.userData <;> simp [invoked, extracted, LoopPc.pending]
  · intro tok cb
    by_cases ht : tok = c.userData
    · simp [ht, Live, Event.Ends]
    · exact hi.live_update (x := .collected c _) (by simp) (fun _ he => Eq.symm he) ht cb
  · intro t tok ht
    obtain ⟨hsq, hadd⟩ := hi.taken t tok ht
    exact ⟨hsq, fun cb => by simpa using hadd cb⟩
  · simpa using hi.added_lt
  · simpa [added] using hi.added_nodup
  · intro c' cb hc
    rcases List.mem_append.mp hc with hc | hc
    · simpa using hi.extracted_added c' cb hc
    · simp only [List.mem_singleton, Event.collected.injEq] at hc
      obtain ⟨rfl, hcb⟩ := hc
      have hlive := (hi.live _ _).mp hcb.symm
      simpa using hlive.added_mem
  · intro c' o cb hc hadd
    replace hadd : Event.added c'.userData cb ∈ h := by simpa using hadd
    rcases List.mem_append.mp hc with hc | hc
    · simpa using hi.extracts c' o cb hc hadd
    · simp only [List.mem_singleton, Event.collected.injEq] at hc
      obtain ⟨rfl, rfl⟩ := hc
      by_cases hcancel : Event.cancelled c'.userData ∈ h
      · exact .inl (by simpa using hcancel)
      · exact .inr ((hi.live _ cb).mpr
          (since_of_forall_not hadd rfl (hi.not_ended htok hcancel)))
  · intro tok ht
    change Function.update s.callbacks c.userData none tok = none
    by_cases hne : tok = c.userData
    · simp [hne]
    · rw [Function.update_of_ne hne]
      refine hi.vacated tok ?_
      simpa [collected, hne] using ht
  · exact hi.justified_append (by simp)

/-- What was invoked or is in the batch was collected. -/
theorem Routing.exists_collected {h : History π κ} {s : State θ π κ} (hi : Routing h s)
    {r : Ready κ} (hr : r ∈ invoked h ++ s.loop.pending) :
    ∃ c cb, .collected c (some cb) ∈ h ∧ r = ⟨c.userData, cb, toResult c.res⟩ := by
  rw [hi.batch] at hr
  exact mem_extracted.mp hr

/-- The head of the batch runs: it was extracted from the map for its own CQE. -/
theorem Routing.invokedReady {h e : History π κ} {s s' : State θ π κ} (hi : Routing h s)
    (hl : Locked s') {r : Ready κ} {rest : List (Ready κ)}
    (hpc : s.loop = .dispatch (r :: rest)) (he : ∀ x ∈ e, x.Quiet)
    (hsame : SameCore { s with loop := .dispatch rest } s') :
    Routing (h ++ .invoked r :: e) s' := by
  have hb := hi.batch
  simp only [hpc, LoopPc.pending] at hb
  have hdue : r ∈ invoked h ++ s.loop.pending := by simp [hpc, LoopPc.pending]
  obtain ⟨c, cb, hc, rfl⟩ := hi.exists_collected hdue
  have hpost : Event.posted c ∈ h := by
    rw [← mem_posted, hi.posted_eq]
    exact List.mem_append_left _ (mem_collected.mpr ⟨some cb, hc⟩)
  have hmid : Routing (h ++ [.invoked ⟨c.userData, cb, toResult c.res⟩])
      { s with loop := .dispatch rest } := by
    refine ⟨hi.locked, ?_, ?_, ?_, ?_, ?_, ?_, ?_, ?_, ?_, ?_, ?_⟩
    · simpa [tokens, collected] using hi.places
    · simpa [posted, collected] using hi.posted_eq
    · rw [invoked_append, extracted_append, ← hb]
      simp [invoked, extracted, LoopPc.pending]
    · intro tok cb'
      simpa [Live, Event.Ends] using hi.live tok cb'
    · intro t tok ht
      obtain ⟨hsq, hadd⟩ := hi.taken t tok ht
      exact ⟨hsq, fun cb' => by simpa using hadd cb'⟩
    · simpa using hi.added_lt
    · simpa [added] using hi.added_nodup
    · simpa using hi.extracted_added
    · intro c' o cb' hc' hadd
      simpa using hi.extracts c' o cb' (by simpa using hc') (by simpa using hadd)
    · rw [collected_append_of_ne (x := .invoked _) (by simp)]
      exact hi.vacated
    · rw [justified_append_singleton]
      refine ⟨hi.justified, ?_⟩
      rintro r hr
      obtain rfl := Event.invoked.inj hr
      exact ⟨hi.extracted_added c cb hc, c.res, hpost, rfl⟩
  have := hmid.quiet hl he hsame
  simpa using this

variable [DecidableEq θ]

theorem Routing.took {h : History π κ} {s : State θ π κ} (hi : Routing h s) {t : Thread θ}
    {op : Op π} {cb : Option (Callback κ)}
    (hl : Locked ((s.takeSqe op).setCall t (.wake s.callbacksIdx cb))) :
    Routing (h ++ [.queued s.callbacksIdx op])
      ((s.takeSqe op).setCall t (.wake s.callbacksIdx cb)) where
  locked := hl
  places := by
    have hp := hi.places.append_right [s.callbacksIdx]
    rw [← List.range_succ] at hp
    simpa [tokens, collected] using hp
  posted_eq := by simpa [posted, collected] using hi.posted_eq
  batch := by simpa [invoked, extracted] using hi.batch
  live := by
    intro tok cb'
    simpa [Live, Event.Ends] using hi.live tok cb'
  taken := by
    intro t' tok ht
    by_cases he : t' = t
    · obtain rfl : tok = s.callbacksIdx := by simpa [he, Call.Takes] using ht
      refine ⟨by simp, fun cb' hadd => ?_⟩
      have := hi.added_lt _ cb' (by simpa using hadd)
      omega
    · obtain ⟨hsq, hadd⟩ := hi.taken t' tok (by simpa [Function.update_of_ne he] using ht)
      refine ⟨?_, fun cb' => by simpa using hadd cb'⟩
      simp only [State.setCall_sq, State.takeSqe_sq, List.map_append, List.mem_append]
      exact .inl hsq
  added_lt := by
    intro tok cb' hadd
    have := hi.added_lt tok cb' (by simpa using hadd)
    simp only [State.setCall_callbacksIdx, State.takeSqe_callbacksIdx]
    omega
  added_nodup := by simpa [added] using hi.added_nodup
  extracted_added := by simpa using hi.extracted_added
  extracts := by
    intro c o cb hc hadd
    simpa using hi.extracts c o cb (by simpa using hc) (by simpa using hadd)
  vacated := by
    rw [collected_append_of_ne (x := .queued _ op) (by simp)]
    exact hi.vacated
  justified := hi.justified_append (by simp)

theorem Routing.inserted {h : History π κ} {s : State θ π κ} (hi : Routing h s) {t : Thread θ}
    {tok : Nat} {cb : Callback κ} (hcall : s.call t = .insert tok cb)
    (hl : Locked (({ s with callbacks := Function.update s.callbacks tok (some cb) }.unlock
      (some cb)).setCall t (.returned (.ok tok)))) :
    Routing (h ++ [.added tok cb])
      (({ s with callbacks := Function.update s.callbacks tok (some cb) }.unlock
        (some cb)).setCall t (.returned (.ok tok))) := by
  obtain ⟨hsq, hnew⟩ := hi.taken t tok (by simp [hcall, Call.Takes])
  have hnlive : ∀ cb', ¬Live h tok cb' := fun cb' hlive => hnew cb' hlive.added_mem
  have hin : tok ∉ (collected h).map Cqe.userData := hi.not_collected
    (by simp only [List.map_append, List.mem_append]; exact .inr (.inr hsq))
  refine ⟨hl, ?_, ?_, ?_, ?_, ?_, ?_, ?_, ?_, ?_, ?_, ?_⟩
  · simpa [tokens, collected] using hi.places
  · simpa [posted, collected] using hi.posted_eq
  · simpa [invoked, extracted] using hi.batch
  · intro tok' cb'
    by_cases ht : tok' = tok
    · subst tok'
      simp only [State.setCall_callbacks, State.unlock_callbacks, Function.update_self,
        Option.some.injEq, Live, since_append_singleton, Event.added.injEq, true_and]
      exact ⟨fun hcb => .inl hcb, fun hcb => hcb.resolve_right fun hs => hnlive cb' hs.1⟩
    · exact hi.live_update (x := .added tok cb) (by simp [eq_comm]) (by simp [Event.Ends]) ht cb'
  · intro t' tok' ht'
    by_cases ht : t' = t
    · simp [ht, Call.Takes] at ht'
    · have htakes : (s.call t').Takes tok' := by simpa [Function.update_of_ne ht] using ht'
      have hown := hi.locked t' htakes.holds
      rw [hi.locked t (by simp [hcall, Call.HoldsSubmission])] at hown
      exact absurd (Option.some.inj hown).symm ht
  · intro tok' cb' hadd
    rcases List.mem_append.mp hadd with hadd | hadd
    · exact hi.added_lt tok' cb' hadd
    · simp only [List.mem_singleton, Event.added.injEq] at hadd
      rw [hadd.1]
      exact hi.lt_of_mem_sq hsq
  · simp only [added_append, List.map_append]
    refine List.nodup_append.mpr ⟨hi.added_nodup, by simp [added], ?_⟩
    rintro n hn m hm rfl
    obtain ⟨⟨n', cb'⟩, hmem, rfl⟩ := List.mem_map.mp hn
    obtain rfl : n' = tok := by simpa [added] using hm
    exact hnew cb' (mem_added.mp hmem)
  · intro c cb' hc
    have := hi.extracted_added c cb' (by simpa using hc)
    simp [this]
  · intro c o cb' hc hadd
    have hc : Event.collected c o ∈ h := by simpa using hc
    rcases List.mem_append.mp hadd with hadd | hadd
    · simpa using hi.extracts c o cb' hc hadd
    · simp only [List.mem_singleton, Event.added.injEq] at hadd
      refine absurd (List.mem_map.mpr ⟨c, mem_collected.mpr ⟨o, hc⟩, ?_⟩) hin
      exact hadd.1
  · intro tok' ht
    rw [collected_append_of_ne (x := .added tok cb) (by simp)] at ht
    have hne : tok' ≠ tok := fun he => hin (he ▸ ht)
    simpa [Function.update_of_ne hne] using hi.vacated tok' ht
  · exact hi.justified_append (by simp)

/-- Every kind of step keeps the routing invariant. -/
theorem Change.routing {h e : History π κ} {s s' : State θ π κ} (hc : Change s s' e)
    (hi : Routing h s) (hl : Locked s') : Routing (h ++ e) s' := by
  cases hc with
  | quiet _ he hsame => exact hi.quiet hl he hsame
  | took t op cb _ _ hs =>
    subst hs
    exact hi.took hl
  | inserted t tok cb hcall hs =>
    subst hs
    exact hi.inserted hcall hl
  | erased tok hcallbacks hsq hinflight hcq hidx hpending htakes =>
    exact hi.erased hl hcallbacks hsq hinflight hcq hidx hpending htakes
  | submitted n hfree hpc hs =>
    subst hs
    simpa using hi.submitted n hfree hpc
  | posted i q res hq hs =>
    subst hs
    exact hi.postedCqe hq res
  | collected c cq n ready hcq hpc hs =>
    subst hs
    exact hi.collectedCqe hcq hpc
  | invoked r rest e he hpc hpending hsq hinflight hcq hcallbacks hidx htakes =>
    exact hi.invokedReady hl hpc he ⟨hsq, hinflight, hcq, hcallbacks, hidx, hpending, htakes⟩

theorem routing_start : Routing ([] : History π κ) (start : State θ π κ) where
  locked := by
    intro t ht
    cases t <;> simp [start, Call.HoldsSubmission] at ht
  places := by simp [tokens, collected, start]
  posted_eq := rfl
  batch := rfl
  live := by simp [start, Live]
  taken := by
    intro t tok ht
    cases t <;> simp [start, Call.Takes] at ht
  added_lt := by simp
  added_nodup := by simp [added]
  extracted_added := by simp
  extracts := by simp
  vacated := by simp [collected]
  justified := justified_nil _

/-- The routing invariant holds after every execution. -/
theorem Routing.of_run {ok : State θ π κ → Action θ π κ → Prop} {h : History π κ}
    {s : State θ π κ} (hrun : Run step ok start h s) : Routing h s :=
  hrun.invariant routing_start fun _ _ _ _ _ hi _ hs =>
    (step_change hs).routing hi (step_locked hs hi.locked)

/-- What the event loop owes every callback, at every point of a run. -/
structure CallbackRouting (h : History π κ) (s : State θ π κ) : Prop where
  /-- A token names one registration, and one completion. -/
  registered_once : ((added h).map Prod.fst).Nodup
  completed_once : ((posted h).map Cqe.userData).Nodup
  invoked_at_most_once : ((invoked h).map Ready.token).Nodup
  invoked_after_posted : Justified InvokedAfterPosted h
  completion_order : ((invoked h).map fun r => (r.token, r.ret)).Sublist
    ((posted h).map fun c => (c.userData, toResult c.res))
  /-- The map holds what was added and since then neither cancelled nor collected. -/
  map_exact : ∀ tok cb, s.callbacks tok = some cb ↔ Live h tok cb
  /-- A registration that is never cancelled waits in the map for a CQE that the
  loop has not collected, or has left the map and is invoked or in the batch. -/
  settled : ∀ tok cb, .added tok cb ∈ h → .cancelled tok ∉ h →
    (s.callbacks tok = some cb ∧
      tok ∈ s.cq.map Cqe.userData ++ (s.inflight ++ s.sq).map Sqe.userData) ∨
    (s.callbacks tok = none ∧
      ∃ res, .posted ⟨tok, res⟩ ∈ h ∧ ⟨tok, cb, toResult res⟩ ∈ invoked h ++ s.loop.pending)
  /-- Once every posted CQE is consumed and its batch is done, nothing is lost
  and nothing is left in the map. -/
  consumed : s.cq = [] → s.loop.pending = [] → ∀ tok cb res, .posted ⟨tok, res⟩ ∈ h →
    .added tok cb ∈ h → .cancelled tok ∉ h →
    .invoked ⟨tok, cb, toResult res⟩ ∈ h ∧ s.callbacks tok = none

omit [DecidableEq θ] in
theorem Routing.posted_nodup {h : History π κ} {s : State θ π κ} (hi : Routing h s) :
    ((posted h).map Cqe.userData).Nodup := by
  have hn : (tokens h s).Nodup := hi.places.nodup_iff.mpr List.nodup_range
  rw [hi.posted_eq]
  exact (List.nodup_append.mp hn).1

omit [DecidableEq θ] in
theorem Routing.completion_order {h : History π κ} {s : State θ π κ} (hi : Routing h s) :
    ((invoked h).map fun r => (r.token, r.ret)).Sublist
      ((posted h).map fun c => (c.userData, toResult c.res)) := by
  have hb : (invoked h).Sublist (extracted h) := by
    rw [← hi.batch]
    exact List.sublist_append_left _ _
  have hc : (collected h).Sublist (posted h) := by
    rw [hi.posted_eq]
    exact List.sublist_append_left _ _
  exact ((hb.map _).trans (extracted_sublist h)).trans (hc.map _)

omit [DecidableEq θ] in
/-- No token is extracted twice. -/
theorem Routing.extracted_nodup {h : History π κ} {s : State θ π κ} (hi : Routing h s) :
    ((extracted h).map Ready.token).Nodup := by
  have hs := (extracted_sublist h).map Prod.fst
  simp only [List.map_map] at hs
  have hc : ((collected h).map Cqe.userData).Sublist ((posted h).map Cqe.userData) := by
    rw [hi.posted_eq]
    exact (List.sublist_append_left _ _).map _
  exact (hs.trans hc).nodup hi.posted_nodup

omit [DecidableEq θ] in
theorem Routing.invoked_nodup {h : History π κ} {s : State θ π κ} (hi : Routing h s) :
    ((invoked h).map Ready.token).Nodup := by
  have hn := hi.extracted_nodup
  rw [← hi.batch, List.map_append] at hn
  exact (List.nodup_append.mp hn).1

omit [DecidableEq θ] in
/-- What is still to be invoked was registered, and was not invoked before. -/
theorem Routing.of_pending {h : History π κ} {s : State θ π κ} (hi : Routing h s) {r : Ready κ}
    (hmem : r ∈ s.loop.pending) :
    .added r.token r.callback ∈ h ∧ ∀ r', .invoked r' ∈ h → r'.token ≠ r.token := by
  obtain ⟨c, cb, hc, rfl⟩ := hi.exists_collected (List.mem_append_right _ hmem)
  refine ⟨hi.extracted_added c cb hc, fun r' hr' => ?_⟩
  have hn := hi.extracted_nodup
  rw [← hi.batch, List.map_append] at hn
  exact (List.nodup_append.mp hn).2.2 _ (List.mem_map_of_mem (mem_invoked.mpr hr')) _
    (List.mem_map_of_mem hmem)

omit [DecidableEq θ] in
theorem Routing.added_of_invoked {h : History π κ} {s : State θ π κ} (hi : Routing h s)
    {r : Ready κ} (hinv : .invoked r ∈ h) : .added r.token r.callback ∈ h := by
  obtain ⟨c, cb, hc, rfl⟩ :=
    hi.exists_collected (List.mem_append_left _ (mem_invoked.mpr hinv))
  exact hi.extracted_added c cb hc

omit [DecidableEq θ] in
/-- A token is registered with one callback. -/
theorem Routing.added_unique {h : History π κ} {s : State θ π κ} (hi : Routing h s) {tok : Nat}
    {cb cb' : Callback κ} (hadd : .added tok cb ∈ h) (hadd' : .added tok cb' ∈ h) : cb = cb' := by
  have := List.inj_on_of_nodup_map hi.added_nodup (mem_added.mpr hadd) (mem_added.mpr hadd') rfl
  simpa using this

omit [DecidableEq θ] in
theorem Routing.collected_of_invoked {h : History π κ} {s : State θ π κ} (hi : Routing h s)
    {r : Ready κ} (hinv : .invoked r ∈ h) : r.token ∈ (collected h).map Cqe.userData := by
  obtain ⟨c, cb, hc, rfl⟩ :=
    hi.exists_collected (List.mem_append_left _ (mem_invoked.mpr hinv))
  exact List.mem_map_of_mem (f := Cqe.userData) (mem_collected.mpr ⟨_, hc⟩)

omit [DecidableEq θ] in
/-- Where an uncancelled registration is. -/
theorem Routing.settled {h : History π κ} {s : State θ π κ} (hi : Routing h s) {tok : Nat}
    {cb : Callback κ} (hadd : .added tok cb ∈ h) (hcancel : .cancelled tok ∉ h) :
    (s.callbacks tok = some cb ∧
      tok ∈ s.cq.map Cqe.userData ++ (s.inflight ++ s.sq).map Sqe.userData) ∨
    (s.callbacks tok = none ∧
      ∃ res, .posted ⟨tok, res⟩ ∈ h ∧ ⟨tok, cb, toResult res⟩ ∈ invoked h ++ s.loop.pending) := by
  have hmem : tok ∈ tokens h s := hi.places.mem_iff.mpr (by simpa using hi.added_lt tok cb hadd)
  rw [tokens, List.map_append, List.append_assoc, List.mem_append] at hmem
  rcases hmem with hcol | hwait
  · obtain ⟨c, hc, rfl⟩ := List.mem_map.mp hcol
    obtain ⟨o, hc'⟩ := mem_collected.mp hc
    obtain rfl := (hi.extracts c o cb hc' hadd).resolve_left hcancel
    refine .inr ⟨?_, c.res, ?_, ?_⟩
    · exact hi.vacated _ (List.mem_map_of_mem hc)
    · rw [← mem_posted, hi.posted_eq]
      exact List.mem_append_left _ hc
    · rw [hi.batch]
      exact mem_extracted.mpr ⟨c, cb, hc', rfl⟩
  · exact .inl ⟨(hi.live tok cb).mpr
      (since_of_forall_not hadd rfl (hi.not_ended hwait hcancel)), hwait⟩

/-- Callback routing, over every execution of the event loop: any threads and
callbacks that add, cancel, wake and exit, any kernel, any number of runs. -/
theorem callback_routing {h : History π κ} {s : State θ π κ}
    (hrun : Run step Always start h s) : CallbackRouting h s := by
  have hi := Routing.of_run hrun
  refine ⟨hi.added_nodup, hi.posted_nodup, hi.invoked_nodup, hi.justified, hi.completion_order,
    hi.live, fun tok cb => hi.settled, ?_⟩
  intro hcq hpending tok cb res hpost hadd hcancel
  have hcol : tok ∈ (collected h).map Cqe.userData := by
    have hm := List.mem_map_of_mem (f := Cqe.userData) (mem_posted.mpr hpost)
    simpa [hi.posted_eq, hcq] using hm
  rcases hi.settled hadd hcancel with ⟨-, hwait⟩ | ⟨hnone, res', hpost', hinv⟩
  · exact absurd hcol (hi.not_collected hwait)
  · have heq : (⟨tok, res'⟩ : Cqe) = ⟨tok, res⟩ :=
      List.inj_on_of_nodup_map hi.posted_nodup (mem_posted.mpr hpost') (mem_posted.mpr hpost) rfl
    obtain rfl := (Cqe.mk.injEq ..).mp heq |>.2
    exact ⟨by simpa [hpending] using hinv, hnone⟩

/-- A run in which a user thread adds one operation and the loop invokes its
callback with the posted value. -/
theorem callback_routing_one_operation :
    ∃ (h : History Unit Nat) (s : State Unit Unit Nat),
      CallbackRouting h s ∧ invoked h = [⟨1, .user 42, .ok 7⟩] ∧ s.callbacks 1 = none :=
  ⟨_, _, callback_routing (exec_run
    [.call .loop .ok, .call .loop .ok, .call .loop .ok, .call .loop .ok, .call .loop .ok,
      .loop .ok, .enter (.user ()) (.addSqe () (some 42)), .call (.user ()) .ok,
      .call (.user ()) .ok, .call (.user ()) .ok, .call (.user ()) .ok, .call (.user ()) .ok,
      .finish (.user ()), .loop .ok, .loop .ok, .loop (.submitted 2), .post 1 7, .loop .ok,
      .loop .ok, .loop .ok, .loop .ok, .loop .ok, .loop .ok, .loop .ok] rfl), rfl, rfl⟩

end UringContext
