import Mathlib.Logic.Function.Basic
import Arkio.LabelledMachine

/-!
# Processes on a proactor

A proactor takes requests, has them answered, and hands every answer to whoever
asked. An owner has at most one request outstanding, and `Slot` is how far it is.

A process is an owner that works on a store. An activation of it changes the
store and leaves at most one request behind; whoever serves the request changes
the store too, and then the process is activated again with the answer. A system
of processes is confined: each of them, with its requests, sees and changes a
part of the store of its own. `alone` is a process with nobody else, and
`Following.of_run` says that each process of a system goes through the states of
its own `alone`, in whatever order they are started, served and activated.
-/
namespace Proactor

open LabelledMachine

/-- The request of one owner. -/
inductive Slot (ρ ν : Type*) where
  | idle
  | asked (request : ρ)
  | answered (request : ρ) (value : ν)
  deriving DecidableEq, Repr

inductive Event (ι ρ ν : Type*) where
  | asked (i : ι) (request : ρ)
  | answered (i : ι) (value : ν)
  | delivered (i : ι) (value : ν)
  deriving DecidableEq, Repr

section Histories

variable {ι ρ ν : Type*} [DecidableEq ι]

/-- The histories of a proactor, with the slots they lead to: an owner asks while
it has nothing outstanding, what it asked is answered, and it gets that answer. -/
inductive Accepts : List (Event ι ρ ν) → (ι → Slot ρ ν) → Prop where
  | nil : Accepts [] fun _ => .idle
  | asked {h : List (Event ι ρ ν)} {slot : ι → Slot ρ ν} {i : ι} (q : ρ) (ha : Accepts h slot)
      (hslot : slot i = .idle) :
      Accepts (h ++ [.asked i q]) (Function.update slot i (.asked q))
  | answered {h : List (Event ι ρ ν)} {slot : ι → Slot ρ ν} {i : ι} {q : ρ} (v : ν)
      (ha : Accepts h slot) (hslot : slot i = .asked q) :
      Accepts (h ++ [.answered i v]) (Function.update slot i (.answered q v))
  | delivered {h : List (Event ι ρ ν)} {slot : ι → Slot ρ ν} {i : ι} {q : ρ} {v : ν}
      (ha : Accepts h slot) (hslot : slot i = .answered q v) :
      Accepts (h ++ [.delivered i v]) (Function.update slot i .idle)

/-- The requests of one owner, in order. -/
def requests (h : List (Event ι ρ ν)) (i : ι) : List ρ :=
  h.filterMap fun e => match e with | .asked j q => if j = i then some q else none | _ => none

@[simp] theorem requests_nil (i : ι) : requests ([] : List (Event ι ρ ν)) i = [] := rfl

@[simp] theorem requests_append (h h' : List (Event ι ρ ν)) (i : ι) :
    requests (h ++ h') i = requests h i ++ requests h' i := List.filterMap_append

@[simp] theorem requests_asked (i : ι) (q : ρ) :
    requests [(.asked i q : Event ι ρ ν)] i = [q] := by
  simp [requests]

theorem requests_asked_of_ne {i j : ι} (hj : j ≠ i) (q : ρ) :
    requests [(.asked i q : Event ι ρ ν)] j = [] := by
  simp [requests, Ne.symm hj]

@[simp] theorem requests_answered (j : ι) (v : ν) (h : List (Event ι ρ ν)) (i : ι) :
    requests (.answered j v :: h) i = requests h i := rfl

@[simp] theorem requests_delivered (j : ι) (v : ν) (h : List (Event ι ρ ν)) (i : ι) :
    requests (.delivered j v :: h) i = requests h i := rfl

theorem requests_append_asked (h : List (Event ι ρ ν)) (i : ι) (q : ρ) :
    requests (h ++ [.asked i q]) = Function.update (requests h) i (requests h i ++ [q]) := by
  funext j
  by_cases hj : j = i
  · subst hj
    simp
  · rw [Function.update_of_ne hj, requests_append, requests_asked_of_ne hj, List.append_nil]

theorem requests_append_answered (h : List (Event ι ρ ν)) (i : ι) (v : ν) :
    requests (h ++ [.answered i v]) = requests h := by
  funext j
  simp

theorem requests_append_delivered (h : List (Event ι ρ ν)) (i : ι) (v : ν) :
    requests (h ++ [.delivered i v]) = requests h := by
  funext j
  simp

/-- The owner has asked and has not got the answer yet. -/
def owes (h : List (Event ι ρ ν)) (i : ι) : Bool :=
  h.foldl (fun b e => match e with
    | .asked j _ => if j = i then true else b
    | .delivered j _ => if j = i then false else b
    | .answered _ _ => b) false

theorem Accepts.owes_iff {h : List (Event ι ρ ν)} {slot : ι → Slot ρ ν} (ha : Accepts h slot)
    (i : ι) : owes h i = true ↔ slot i ≠ .idle := by
  induction ha with
  | nil => simp [owes]
  | @asked h slot j q ha hslot ih =>
    by_cases hj : j = i
    · subst hj
      simp [owes]
    · rw [Function.update_of_ne (Ne.symm hj), ← ih]
      simp [owes, hj]
  | @answered h slot j q v ha hslot ih =>
    by_cases hj : j = i
    · subst hj
      rw [Function.update_self, owes, List.foldl_append]
      simp only [List.foldl_cons, List.foldl_nil]
      refine ih.trans ?_
      simp [hslot]
    · rw [Function.update_of_ne (Ne.symm hj), ← ih]
      simp [owes]
  | @delivered h slot j q v ha hslot ih =>
    by_cases hj : j = i
    · subst hj
      simp [owes]
    · rw [Function.update_of_ne (Ne.symm hj), ← ih]
      simp [owes, hj]

/-- An owner asks while it has nothing outstanding. -/
def Admits (h : List (Event ι ρ ν)) : Event ι ρ ν → Prop
  | .asked i _ => owes h i = false
  | .answered _ _ | .delivered _ _ => True

instance (h : List (Event ι ρ ν)) : DecidablePred (Admits h) := fun e =>
  match e with
  | .asked i _ => inferInstanceAs (Decidable (owes h i = false))
  | .answered _ _ | .delivered _ _ => isTrue trivial

/-- No owner of the history asks while it has something outstanding. -/
def Patient (h : List (Event ι ρ ν)) : Prop := Justified Admits h

instance : DecidablePred (Patient : List (Event ι ρ ν) → Prop) := fun h =>
  inferInstanceAs (Decidable (Justified Admits h))

end Histories

/-- What an activation leaves. -/
structure Turn (σ τ ρ : Type*) where
  store : σ
  proc : τ
  request : Option ρ

/-- What the slot is after an activation. -/
def Turn.slot {σ τ ρ : Type*} (ν : Type*) (r : Turn σ τ ρ) : Slot ρ ν :=
  match r.request with
  | none => .idle
  | some q => .asked q

/-- Confined processes. An activation that does not return has no turn; without
an answer it is the first one. `Agree i` compares stores where `i` looks. -/
structure System (ι σ : Type*) (τ : ι → Type*) (ρ χ ν : Type*) where
  activate : (i : ι) → τ i → Option ν → σ → Option (Turn σ (τ i) ρ)
  serve : ρ → χ → σ → σ
  value : χ → ν
  Agree : ι → σ → σ → Prop
  Owns : ι → ρ → Prop
  agree : ∀ i, Equivalence (Agree i)
  activate_frame : ∀ {i j t v s r}, activate i t v s = some r → j ≠ i → Agree j s r.store
  activate_local : ∀ {i t v s s' r}, Agree i s s' → activate i t v s = some r →
    ∃ r', activate i t v s' = some r' ∧ r'.proc = r.proc ∧ r'.request = r.request ∧
      Agree i r.store r'.store
  activate_owns : ∀ {i t v s r q}, activate i t v s = some r → r.request = some q → Owns i q
  serve_frame : ∀ {i j q x s}, Owns i q → j ≠ i → Agree j s (serve q x s)
  serve_local : ∀ {i q x s s'}, Agree i s s' → Agree i (serve q x s) (serve q x s')

/-- What the processes begin with, and what each of them will be answered. -/
structure Setup (ι σ : Type*) (τ : ι → Type*) (χ : Type*) where
  store : σ
  proc : (i : ι) → τ i
  answers : ι → List χ

structure State (ι σ : Type*) (τ : ι → Type*) (ρ χ ν : Type*) where
  store : σ
  proc : (i : ι) → τ i
  slot : ι → Slot ρ ν
  started : ι → Bool
  answers : ι → List χ

inductive Action (ι : Type*) where
  | start (i : ι)
  | serve (i : ι)
  | deliver (i : ι)
  deriving DecidableEq, Repr

section System

variable {ι σ ρ χ ν : Type*} {τ : ι → Type*}

def Setup.start (c : Setup ι σ τ χ) : State ι σ τ ρ χ ν :=
  ⟨c.store, c.proc, fun _ => .idle, fun _ => false, c.answers⟩

/-- The event of an activation that asks. -/
def Turn.asks {τ : Type*} (r : Turn σ τ ρ) (i : ι) : List (Event ι ρ ν) :=
  (r.request.map (.asked i)).toList

variable [DecidableEq ι]

/-- An activation of the process is over. -/
def State.settle (s : State ι σ τ ρ χ ν) (i : ι) (r : Turn σ (τ i) ρ) : State ι σ τ ρ χ ν :=
  { s with
    store := r.store
    proc := Function.update s.proc i r.proc
    slot := Function.update s.slot i (r.slot ν) }

def step (S : System ι σ τ ρ χ ν) (s : State ι σ τ ρ χ ν) :
    Action ι → Option (State ι σ τ ρ χ ν × List (Event ι ρ ν))
  | .start i =>
    if s.started i then none
    else
      (S.activate i (s.proc i) none s.store).map fun r =>
        ({ s with started := Function.update s.started i true }.settle i r, r.asks i)
  | .serve i =>
    match s.slot i, s.answers i with
    | .asked q, x :: answers =>
      some ({ s with
          store := S.serve q x s.store
          slot := Function.update s.slot i (.answered q (S.value x))
          answers := Function.update s.answers i answers },
        [.answered i (S.value x)])
    | _, _ => none
  | .deliver i =>
    match s.slot i with
    | .answered _ v =>
      (S.activate i (s.proc i) (some v) s.store).map fun r =>
        (s.settle i r, .delivered i v :: r.asks i)
    | _ => none

theorem requests_asks {τ : Type*} (r : Turn σ τ ρ) (i : ι) :
    requests (r.asks i : List (Event ι ρ ν)) i = r.request.toList := by
  cases hr : r.request with
  | none => simp [Turn.asks, hr]
  | some q => simp [Turn.asks, requests, hr]

theorem requests_asks_of_ne {τ : Type*} (r : Turn σ τ ρ) {i j : ι} (hj : j ≠ i) :
    requests (r.asks i : List (Event ι ρ ν)) j = [] := by
  cases hr : r.request with
  | none => simp [Turn.asks, hr]
  | some q => simp [Turn.asks, requests, hr, Ne.symm hj]

end System

section Alone

variable {ι σ ρ χ ν : Type*} {τ : ι → Type*}

/-- A process with nobody else: its store, its state, the request it waits for
and all those it has made. -/
structure Solo (σ τ ρ : Type*) where
  store : σ
  proc : τ
  request : Option ρ
  requests : List ρ

def Solo.after {τ : Type*} (p : Solo σ τ ρ) (r : Turn σ τ ρ) : Solo σ τ ρ :=
  ⟨r.store, r.proc, r.request, p.requests ++ r.request.toList⟩

/-- The process meets the answer to its request. -/
def System.next (S : System ι σ τ ρ χ ν) (i : ι) (p : Solo σ (τ i) ρ) (x : χ) :
    Option (Solo σ (τ i) ρ) :=
  match p.request with
  | none => some p
  | some q => (S.activate i p.proc (some (S.value x)) (S.serve q x p.store)).map p.after

/-- The process alone, until it has reacted to `n` answers. -/
def System.alone (S : System ι σ τ ρ χ ν) (c : Setup ι σ τ χ) (i : ι) :
    Nat → Option (Solo σ (τ i) ρ)
  | 0 => (S.activate i (c.proc i) none c.store).map (Solo.after ⟨c.store, c.proc i, none, []⟩)
  | n + 1 =>
    match (c.answers i)[n]? with
    | none => S.alone c i n
    | some x => (S.alone c i n).bind (S.next i · x)

variable {S : System ι σ τ ρ χ ν} {c : Setup ι σ τ χ} {i : ι} {n : Nat}
  {p : Solo σ (τ i) ρ}

theorem alone_succ {x : χ} (hx : (c.answers i)[n]? = some x) :
    S.alone c i (n + 1) = (S.alone c i n).bind (S.next i · x) := by
  rw [System.alone, hx]

/-- Only the answers that it has reacted to matter. -/
theorem alone_congr {c' : Setup ι σ τ χ} (hstore : c'.store = c.store)
    (hproc : c'.proc i = c.proc i)
    (hanswers : ∀ k < n, (c'.answers i)[k]? = (c.answers i)[k]?) :
    S.alone c' i n = S.alone c i n := by
  induction n with
  | zero => simp only [System.alone, hstore, hproc]
  | succ n ih =>
    have ih' := ih fun k hk => hanswers k (Nat.lt_succ_of_lt hk)
    simp only [System.alone, hanswers n (Nat.lt_succ_self n), ih']

/-- What a process waits for is what it asked at its last turn. -/
theorem alone_last {q : ρ} (hp : S.alone c i n = some p) (hq : p.request = some q) :
    (∃ t v s r, S.activate i t v s = some r ∧ r.request = some q) ∧
      ∃ front, p.requests = front ++ [q] := by
  induction n generalizing p q with
  | zero =>
    obtain ⟨r, hr, rfl⟩ := Option.map_eq_some_iff.mp hp
    have hrequest : r.request = some q := hq
    exact ⟨⟨_, _, _, r, hr, hrequest⟩, [], by simp [Solo.after, hrequest]⟩
  | succ n ih =>
    rw [System.alone] at hp
    split at hp
    next => exact ih hp hq
    next x _ =>
      obtain ⟨p', hp', hnext⟩ := Option.bind_eq_some_iff.mp hp
      unfold System.next at hnext
      split at hnext
      next =>
        cases hnext
        exact ih hp' hq
      next =>
        obtain ⟨r, hr, rfl⟩ := Option.map_eq_some_iff.mp hnext
        have hrequest : r.request = some q := hq
        exact ⟨⟨_, _, _, r, hr, hrequest⟩, p'.requests, by simp [Solo.after, hrequest]⟩

/-- A process owns what it waits for. -/
theorem alone_owns {q : ρ} (hp : S.alone c i n = some p) (hq : p.request = some q) :
    S.Owns i q := by
  obtain ⟨⟨t, v, s, r, hr, hrequest⟩, -⟩ := alone_last hp hq
  exact S.activate_owns hr hrequest

/-- What a turn of another store adds to a process alone. -/
theorem alone_of_turn {q : ρ} {x : χ} {s : σ} {r : Turn σ (τ i) ρ} (hp : S.alone c i n = some p)
    (hq : p.request = some q) (hx : (c.answers i)[n]? = some x)
    (hs : S.Agree i s (S.serve q x p.store))
    (hr : S.activate i p.proc (some (S.value x)) s = some r) :
    ∃ r', S.alone c i (n + 1) = some (p.after r') ∧ r'.proc = r.proc ∧
      r'.request = r.request ∧ S.Agree i r.store r'.store := by
  obtain ⟨r', hr', hproc, hrequest, hstore⟩ := S.activate_local hs hr
  refine ⟨r', ?_, hproc, hrequest, hstore⟩
  have hnext : S.next i p x =
      (S.activate i p.proc (some (S.value x)) (S.serve q x p.store)).map p.after := by
    simp [System.next, hq]
  rw [alone_succ hx, hp, Option.bind_some, hnext, hr', Option.map_some]

end Alone

section Following

variable {ι σ ρ χ ν : Type*} {τ : ι → Type*} [DecidableEq ι]

/-- One process of a system is where its `alone` is after `n` answers, or its next
answer is on its way to it. -/
inductive Following (S : System ι σ τ ρ χ ν) (c : Setup ι σ τ χ) (h : List (Event ι ρ ν))
    (s : State ι σ τ ρ χ ν) (i : ι) : Prop where
  | fresh (hstarted : s.started i = false) (hproc : s.proc i = c.proc i)
      (hslot : s.slot i = .idle) (hanswers : s.answers i = c.answers i)
      (hstore : S.Agree i s.store c.store) (hrequests : requests h i = [])
  | settled (n : Nat) (p : Solo σ (τ i) ρ) (halone : S.alone c i n = some p)
      (hstarted : s.started i = true) (hproc : s.proc i = p.proc)
      (hslot : s.slot i = match p.request with | none => .idle | some q => .asked q)
      (hanswers : s.answers i = (c.answers i).drop n) (hstore : S.Agree i s.store p.store)
      (hrequests : requests h i = p.requests)
  | served (n : Nat) (p : Solo σ (τ i) ρ) (q : ρ) (x : χ) (halone : S.alone c i n = some p)
      (hrequest : p.request = some q) (hx : (c.answers i)[n]? = some x)
      (hstarted : s.started i = true) (hproc : s.proc i = p.proc)
      (hslot : s.slot i = .answered q (S.value x))
      (hanswers : s.answers i = (c.answers i).drop (n + 1))
      (hstore : S.Agree i s.store (S.serve q x p.store)) (hrequests : requests h i = p.requests)

variable {S : System ι σ τ ρ χ ν} {c : Setup ι σ τ χ} {h e : List (Event ι ρ ν)}
  {s s' : State ι σ τ ρ χ ν} {i j : ι}

omit [DecidableEq ι] in
theorem System.agree_trans {s₁ s₂ s₃ : σ} (h₁ : S.Agree i s₁ s₂) (h₂ : S.Agree i s₂ s₃) :
    S.Agree i s₁ s₃ := (S.agree i).trans h₁ h₂

omit [DecidableEq ι] in
theorem System.agree_symm {s₁ s₂ : σ} (h₁ : S.Agree i s₁ s₂) : S.Agree i s₂ s₁ :=
  (S.agree i).symm h₁

/-- What another process does. -/
theorem Following.frame {h' : List (Event ι ρ ν)} (hf : Following S c h s i)
    (hstarted' : s'.started i = s.started i) (hproc' : s'.proc i = s.proc i)
    (hslot' : s'.slot i = s.slot i) (hanswers' : s'.answers i = s.answers i)
    (hstore' : S.Agree i s.store s'.store) (hrequests' : requests h' i = requests h i) :
    Following S c h' s' i := by
  have hback := System.agree_symm hstore'
  cases hf with
  | fresh hstarted hproc hslot hanswers hstore hrequests =>
    exact .fresh (hstarted'.trans hstarted) (hproc'.trans hproc) (hslot'.trans hslot)
      (hanswers'.trans hanswers) (System.agree_trans hback hstore) (hrequests'.trans hrequests)
  | settled n p halone hstarted hproc hslot hanswers hstore hrequests =>
    exact .settled n p halone (hstarted'.trans hstarted) (hproc'.trans hproc)
      (hslot'.trans hslot) (hanswers'.trans hanswers) (System.agree_trans hback hstore)
      (hrequests'.trans hrequests)
  | served n p q x halone hrequest hx hstarted hproc hslot hanswers hstore hrequests =>
    exact .served n p q x halone hrequest hx (hstarted'.trans hstarted) (hproc'.trans hproc)
      (hslot'.trans hslot) (hanswers'.trans hanswers) (System.agree_trans hback hstore)
      (hrequests'.trans hrequests)

/-- Another process settles. -/
theorem Following.settle_other {r : Turn σ (τ j) ρ} {h' : List (Event ι ρ ν)}
    (hf : Following S c h s i) (hj : i ≠ j) (hstore : S.Agree i s.store r.store)
    (hrequests : requests h' i = requests h i) : Following S c h' (s.settle j r) i :=
  hf.frame rfl (Function.update_of_ne hj _ _) (Function.update_of_ne hj _ _) rfl hstore hrequests

/-- A process settles where its `alone` does. -/
theorem following_settle {r r' : Turn σ (τ i) ρ} {n : Nat} {p : Solo σ (τ i) ρ}
    {h' : List (Event ι ρ ν)} (halone : S.alone c i n = some (p.after r'))
    (hproc : r'.proc = r.proc) (hrequest : r'.request = r.request)
    (hstore : S.Agree i r.store r'.store) (hstarted : s.started i = true)
    (hanswers : s.answers i = (c.answers i).drop n)
    (hrequests : requests h' i = p.requests ++ r.request.toList) :
    Following S c h' (s.settle i r) i := by
  refine .settled n (p.after r') halone hstarted ?_ ?_ hanswers hstore ?_
  · simp [State.settle, Solo.after, hproc]
  · simp [State.settle, Solo.after, hrequest, Turn.slot]
  · simp [Solo.after, hrequest, hrequests]

theorem Following.start_step (hall : ∀ k, Following S c h s k)
    (hs : step S s (.start j) = some (s', e)) (i : ι) : Following S c (h ++ e) s' i := by
  simp only [step, Option.ite_none_left_eq_some, Bool.not_eq_true] at hs
  obtain ⟨hnew, hs⟩ := hs
  obtain ⟨r, hr, heq⟩ := Option.map_eq_some_iff.mp hs
  obtain ⟨rfl, rfl⟩ := Prod.mk.inj heq
  by_cases hj : i = j
  · subst hj
    cases hall i with
    | settled n p halone hstarted => simp [hstarted] at hnew
    | served n p q x halone hrequest hx hstarted => simp [hstarted] at hnew
    | fresh hstarted hproc hslot hanswers hstore hrequests =>
      rw [hproc] at hr
      obtain ⟨r', hr', hproc', hrequest, hstore'⟩ := S.activate_local hstore hr
      have halone : S.alone c i 0 = some (Solo.after ⟨c.store, c.proc i, none, []⟩ r') := by
        rw [System.alone, hr', Option.map_some]
      refine following_settle halone hproc' hrequest hstore' (Function.update_self _ _ _) hanswers ?_
      rw [requests_append, hrequests, requests_asks]
  · have hframe : S.Agree i s.store r.store := S.activate_frame hr hj
    have hothers : Following S c h { s with started := Function.update s.started j true } i :=
      (hall i).frame (by simp [Function.update_of_ne hj]) rfl rfl rfl ((S.agree i).refl _) rfl
    refine hothers.settle_other hj hframe ?_
    rw [requests_append, requests_asks_of_ne r hj, List.append_nil]

theorem Following.serve_step (hall : ∀ k, Following S c h s k)
    (hs : step S s (.serve j) = some (s', e)) (i : ι) : Following S c (h ++ e) s' i := by
  simp only [step] at hs
  split at hs
  next q x answers hslot hanswers =>
    obtain ⟨rfl, rfl⟩ := Prod.mk.inj (Option.some.inj hs)
    have hrequests : requests (h ++ [.answered j (S.value x)]) i = requests h i := by simp
    have hj := hall j
    cases hj with
    | fresh _ _ hslot' => simp [hslot'] at hslot
    | served n p q' x' _ _ _ _ _ hslot' => simp [hslot'] at hslot
    | settled n p halone hstarted hproc hslot' hanswers' hstore hrequests' =>
      have hrequest : p.request = some q := by
        rw [hslot'] at hslot
        split at hslot
        next => cases hslot
        next q' hq => rw [hq, Slot.asked.inj hslot]
      by_cases hij : i = j
      · subst hij
        rw [hanswers'] at hanswers
        have hget := congrArg (fun l => l[0]?) hanswers
        have htail := congrArg List.tail hanswers
        simp only [List.getElem?_drop, Nat.add_zero, List.getElem?_cons_zero] at hget
        simp only [List.tail_drop, List.tail_cons] at htail
        exact .served n p q x halone hrequest hget hstarted hproc (Function.update_self _ _ _)
          (by simp [htail]) (S.serve_local hstore) (hrequests.trans hrequests')
      · exact (hall i).frame rfl rfl (by simp [Function.update_of_ne hij])
          (by simp [Function.update_of_ne hij]) (S.serve_frame (alone_owns halone hrequest) hij)
          hrequests
  next => cases hs

theorem Following.deliver_step (hall : ∀ k, Following S c h s k)
    (hs : step S s (.deliver j) = some (s', e)) (i : ι) : Following S c (h ++ e) s' i := by
  simp only [step] at hs
  split at hs
  next q v hslot =>
    obtain ⟨r, hr, heq⟩ := Option.map_eq_some_iff.mp hs
    obtain ⟨rfl, rfl⟩ := Prod.mk.inj heq
    by_cases hj : i = j
    · subst hj
      cases hall i with
      | fresh _ _ hslot' => simp [hslot'] at hslot
      | settled n p _ _ _ hslot' =>
        rw [hslot'] at hslot
        split at hslot <;> cases hslot
      | served n p q' x halone hrequest hx hstarted hproc hslot' hanswers hstore hrequests =>
        obtain ⟨rfl, rfl⟩ := Slot.answered.inj (hslot.symm.trans hslot')
        rw [hproc] at hr
        obtain ⟨r', halone', hproc', hrequest', hstore'⟩ :=
          alone_of_turn halone hrequest hx hstore hr
        refine following_settle halone' hproc' hrequest' hstore' hstarted hanswers ?_
        rw [requests_append, requests_delivered, hrequests, requests_asks]
    · refine (hall i).settle_other hj (S.activate_frame hr hj) ?_
      rw [requests_append, requests_delivered, requests_asks_of_ne r hj, List.append_nil]
  next => cases hs

/-- A step takes no process off its `alone`. -/
theorem Following.step {a : Action ι} (hall : ∀ k, Following S c h s k)
    (hs : Proactor.step S s a = some (s', e)) (i : ι) : Following S c (h ++ e) s' i := by
  cases a with
  | start j => exact start_step hall hs i
  | serve j => exact serve_step hall hs i
  | deliver j => exact deliver_step hall hs i

/-- An activation asks, or leaves the slot of its process empty. -/
theorem Accepts.settle {slot : ι → Slot ρ ν} (ha : Accepts h (Function.update slot i .idle))
    (r : Turn σ (τ i) ρ) : Accepts (h ++ r.asks i) (Function.update slot i (r.slot ν)) := by
  cases hr : r.request with
  | none => simpa [Turn.asks, Turn.slot, hr] using ha
  | some q =>
    have hasked := ha.asked (i := i) q (Function.update_self _ _ _)
    simpa [Turn.asks, Turn.slot, hr] using hasked

theorem Following.slot_of_fresh (hf : Following S c h s i) (hnew : s.started i = false) :
    s.slot i = .idle := by
  cases hf with
  | fresh hstarted hproc hslot => exact hslot
  | settled n p halone hstarted => simp [hstarted] at hnew
  | served n p q x halone hrequest hx hstarted => simp [hstarted] at hnew

/-- What processes do is the history of a proactor. -/
theorem Accepts.step {a : Action ι} (ha : Accepts h s.slot) (hall : ∀ k, Following S c h s k)
    (hs : Proactor.step S s a = some (s', e)) : Accepts (h ++ e) s'.slot := by
  cases a with
  | start j =>
    simp only [Proactor.step, Option.ite_none_left_eq_some, Bool.not_eq_true] at hs
    obtain ⟨hnew, hs⟩ := hs
    obtain ⟨r, hr, heq⟩ := Option.map_eq_some_iff.mp hs
    obtain ⟨rfl, rfl⟩ := Prod.mk.inj heq
    refine Accepts.settle ?_ r
    rw [← (hall j).slot_of_fresh hnew, Function.update_eq_self]
    exact ha
  | serve j =>
    simp only [Proactor.step] at hs
    split at hs
    next q x answers hslot hanswers =>
      obtain ⟨rfl, rfl⟩ := Prod.mk.inj (Option.some.inj hs)
      exact ha.answered _ hslot
    next => cases hs
  | deliver j =>
    simp only [Proactor.step] at hs
    split at hs
    next q v hslot =>
      obtain ⟨r, hr, heq⟩ := Option.map_eq_some_iff.mp hs
      obtain ⟨rfl, rfl⟩ := Prod.mk.inj heq
      have hsettle := (ha.delivered hslot).settle r
      rw [List.append_assoc] at hsettle
      exact hsettle
    next => cases hs

theorem following_start (S : System ι σ τ ρ χ ν) (c : Setup ι σ τ χ) (i : ι) :
    Following S c [] c.start i :=
  .fresh rfl rfl rfl rfl ((S.agree i).refl _) rfl

/-- In every run of a system, each process does what it does alone. -/
theorem Following.of_run {ok : State ι σ τ ρ χ ν → Action ι → Prop}
    (hrun : Run (Proactor.step S) ok c.start h s) : ∀ i, Following S c h s i := by
  refine hrun.invariant (P := fun h s => ∀ i, Following S c h s i) (following_start S c) ?_
  intro h s a s' e hall _ hs
  exact Following.step hall hs

theorem Accepts.of_run {ok : State ι σ τ ρ χ ν → Action ι → Prop}
    (hrun : Run (Proactor.step S) ok c.start h s) : Accepts h s.slot := by
  refine hrun.invariant_under (I := fun h s => ∀ i, Following S c h s i)
    (P := fun h s => Accepts h s.slot) (fun _ _ hrun => Following.of_run hrun) .nil ?_
  intro h s a s' e hall ha _ hs
  exact ha.step hall hs

end Following

end Proactor
