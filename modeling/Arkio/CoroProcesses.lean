import Arkio.CoroConfinement
import Arkio.UringProcesses

/-!
# Coroutines on a context

Any number of coroutines that `co_async` has started on one context, each confined
to a region of its own. Between two activations a coroutine is `Parked`: its frames
are suspended and its callback is with the context. An activation is the rest of
the machine of `CoroPrograms` until control is with the caller again, and each
coroutine goes through the states that it would go through alone.
-/
namespace Coro

open Bindings Buffer SyncIo AsyncIo Executions LabelledMachine
open Coroutine (Promise)
open Proactor (Turn Solo)

/-- What a coroutine keeps while it waits. -/
structure Parked {φ : Type} (r : Region φ) (Q υ : Type) where
  frames : Nat → Frame φ Q υ
  nextFrame : Nat
  outstanding : Option Outstanding
  future : List υ
  within : ∀ f op k, (frames f).suspension = some (.onOp op k) → op.Within r

/-- The coroutines, what they work on, and what the kernel has for each of them. An
activation that takes more steps than `fuel` is one that does not return. -/
structure Roots (ι φ Q υ : Type) where
  region : ι → Region φ
  next : ι → Program φ Q υ
  entry : ι → Q
  store : Store φ
  responses : ι → List Response
  fuel : Nat
  confined : ∀ i, Confined (region i) (next i)
  disjoint : ∀ i j, i ≠ j → (region i).Disjoint (region j)

section Activation

variable {φ Q υ : Type} {r : Region φ}

def Machine.park (m : Machine φ Q υ) (h : m.Within r) : Parked r Q υ :=
  ⟨m.frames, m.nextFrame, m.outstanding, m.future, h.frames⟩

theorem park_elsewhere {m m' : Machine φ Q υ} {s : Store φ} (h : m.Within r) (h' : m'.Within r)
    (heq : m' = m.elsewhere s [] []) : m'.park h' = m.park h := by
  subst heq
  rfl

/-- The machine that waits over this store. -/
def Parked.machine (t : Parked r Q υ) (s : Store φ) : Machine φ Q υ :=
  ⟨s, [], [], t.frames, t.nextFrame, [], t.outstanding, t.future, .toCaller⟩

theorem Parked.machine_within (t : Parked r Q υ) (s : Store φ) : (t.machine s).Within r :=
  ⟨t.within, nofun⟩

/-- Where control is with the caller, the machine is parked. -/
theorem park_machine {m : Machine φ Q υ} (h : m.Within r) (hrest : m.rests = true)
    (sqes : List (Fd × Request)) (responses : List Response) :
    m.elsewhere m.store sqes responses =
      ((m.park h).machine m.store).elsewhere m.store (sqes ++ m.sqes) responses := by
  obtain ⟨hcontrol, hnative⟩ := rests_iff.mp hrest
  simp [Machine.elsewhere, Parked.machine, Machine.park, hcontrol, hnative]

/-- Nothing has happened yet. -/
def Parked.fresh : Parked r Q υ := ⟨fun _ => ⟨none, ⟨none, none⟩⟩, 0, none, [], nofun⟩

variable [DecidableEq φ]

/-- The closure of the outstanding operation is called with its result. -/
def Machine.answer (m : Machine φ Q υ) (ret : Result Int) : Machine φ Q υ :=
  match m.outstanding with
  | some o =>
    match (m.frames o.frame).suspension with
    | some (.onOp op _) =>
      m.apply o.frame op.fd (goOn op.kind (m.store.fds op.fd) op.b o.op ret (.ok 0))
    | _ => { m with control := .fault }
  | none => { m with control := .fault }

/-- The machine where an activation begins: at `co_async`, or with an answer. -/
def Parked.activated (t : Parked r Q υ) (q : Q) (ret : Option (Result Int)) (s : Store φ) :
    Machine φ Q υ :=
  match ret with
  | none => coAsync q s []
  | some ret => (t.machine s).answer ret

/-- An iteration of `run()`, as the kernel's part and the closure's. -/
theorem runLoop_eq_answer {m : Machine φ Q υ} {o : Outstanding} {op : Awaitable φ}
    {k : Result Nat → Q} {response : Response} {responses : List Response}
    (hout : m.outstanding = some o) (hsus : (m.frames o.frame).suspension = some (.onOp op k))
    (hkind : o.request.op = op.kind) (hres : m.responses = response :: responses) :
    m.runLoop = Machine.answer { m with
      store := Region.serve o.request response m.store, responses := responses }
        (toResult response.res) := by
  simp [Machine.runLoop, Machine.answer, hout, hres, hsus, Region.serve, hkind]

theorem answer_stays {m : Machine φ Q υ} (h : m.Within r) (ret : Result Int) :
    Stays r m (m.answer ret) := by
  have hfault : Stays r m { m with control := .fault } :=
    ⟨h.of_eq rfl rfl, .refl r m.store, rfl⟩
  unfold Machine.answer
  split
  next o hout =>
    split
    next op k hsus =>
      exact apply_stays h (h.frames o.frame op k hsus) (fun x hx => goOn_inside hx) o.frame
    next => exact hfault
  next => exact hfault

/-- The answer does the same over a store that is the same in the region. -/
theorem answer_elsewhere {m : Machine φ Q υ} {s : Store φ} (h : m.Within r)
    (hs : r.Same m.store s) (ret : Result Int) (sqes : List (Fd × Request))
    (responses : List Response) :
    ∃ s', (m.elsewhere s sqes responses).answer ret = (m.answer ret).elsewhere s' sqes responses ∧
      r.Same (m.answer ret).store s' := by
  have hout' : (m.elsewhere s sqes responses).outstanding = m.outstanding := rfl
  have hframes' : (m.elsewhere s sqes responses).frames = m.frames := rfl
  unfold Machine.answer
  rw [hout', hframes']
  split
  next o hout =>
    split
    next op k hsus =>
      have hfd : (m.elsewhere s sqes responses).store.fds op.fd = m.store.fds op.fd :=
        (hs.fds op.fd (h.frames o.frame op k hsus).fd).symm
      rw [hfd]
      refine ⟨_, apply_elsewhere sqes responses m s o.frame op.fd _, ?_⟩
      rw [apply_store]
      exact hs.update op.fd _
    next => exact ⟨s, rfl, hs⟩
  next => exact ⟨s, rfl, hs⟩

omit [DecidableEq φ] in
theorem coAsync_within (q : Q) (s : Store φ) (responses : List Response) :
    (coAsync q s responses : Machine φ Q υ).Within r := by
  let blank : Machine φ Q υ :=
    ⟨s, responses, [], fun _ => ⟨none, ⟨none, none⟩⟩, 0, [], none, [], .toCaller⟩
  have hblank : blank.Within r := ⟨nofun, nofun⟩
  have htask : Machine.Within { blank.makeTask q with nextFrame := 2 } r :=
    (hblank.makeTask q).of_eq rfl rfl
  exact htask.awaitTask 1 0 .setValue

section Activated

variable (t : Parked r Q υ) (q : Q) (ret : Option (Result Int)) {s s' : Store φ}

theorem activated_within : (t.activated q ret s).Within r := by
  cases ret with
  | none => exact coAsync_within q s []
  | some ret => exact (answer_stays (t.machine_within s) ret).within

theorem activated_keeps : r.Keeps s (t.activated q ret s).store := by
  cases ret with
  | none => exact .refl r s
  | some ret => exact (answer_stays (t.machine_within s) ret).keeps

theorem activated_responses : (t.activated q ret s).responses = [] := by
  cases ret with
  | none => rfl
  | some ret => exact (answer_stays (t.machine_within s) ret).responses

theorem activated_local (hs : r.Same s s') :
    ∃ s'', t.activated q ret s' = (t.activated q ret s).elsewhere s'' [] [] ∧
      r.Same (t.activated q ret s).store s'' := by
  cases ret with
  | none => exact ⟨s', rfl, hs⟩
  | some ret => exact answer_elsewhere (t.machine_within s) hs ret [] []

end Activated

end Activation

section Workload

variable {ι φ Q υ : Type} [DecidableEq φ] {R : Roots ι φ Q υ} {i j : ι} {s s' : Store φ}
  {t : Parked (R.region i) Q υ} {ret : Option (Result Int)}
  {turn : Turn (Store φ) (Parked (R.region i) Q υ) (Fd × Request)}

/-- The machine at the end of the activation, if it is one that returns. -/
def Roots.activation (R : Roots ι φ Q υ) (i : ι) (t : Parked (R.region i) Q υ)
    (ret : Option (Result Int)) (s : Store φ) : Machine φ Q υ :=
  (Machine.step (R.next i))^[R.fuel] (t.activated (R.entry i) ret s)

theorem activation_stays :
    Stays (R.region i) (t.activated (R.entry i) ret s) (R.activation i t ret s) :=
  iterate_stays (R.confined i) (activated_within t _ ret) (activated_responses t _ ret) R.fuel

def Roots.activate (R : Roots ι φ Q υ) (i : ι) (t : Parked (R.region i) Q υ)
    (ret : Option (Result Int)) (s : Store φ) :
    Option (Turn (Store φ) (Parked (R.region i) Q υ) (Fd × Request)) :=
  if (R.activation i t ret s).rests then
    some ⟨(R.activation i t ret s).store, (R.activation i t ret s).park activation_stays.within,
      (R.activation i t ret s).sqes.head?⟩
  else none

theorem activate_eq_some (h : R.activate i t ret s = some turn) :
    (R.activation i t ret s).rests = true ∧ turn = ⟨(R.activation i t ret s).store,
      (R.activation i t ret s).park activation_stays.within,
      (R.activation i t ret s).sqes.head?⟩ := by
  unfold Roots.activate at h
  split at h
  next hrest => exact ⟨hrest, (Option.some.inj h).symm⟩
  next => cases h

theorem activation_keeps : (R.region i).Keeps s (R.activation i t ret s).store :=
  (activated_keeps t _ ret).trans activation_stays.keeps

/-- The activation is the same over a store that is the same in the region. -/
theorem activation_local (hs : (R.region i).Same s s')
    (hrest : (R.activation i t ret s).rests = true) :
    ∃ s'', R.activation i t ret s' = (R.activation i t ret s).elsewhere s'' [] [] ∧
      (R.region i).Same (R.activation i t ret s).store s'' := by
  obtain ⟨s₁, hactivated, hs₁⟩ := activated_local t (R.entry i) ret hs
  obtain ⟨k, s'', hk, heq, hs''⟩ := iterate_elsewhere (R.confined i)
    (activated_within t (R.entry i) ret) (activated_responses t (R.entry i) ret) hs₁ [] [] R.fuel
  refine ⟨s'', ?_, hs''⟩
  have hrest' : ((R.activation i t ret s).elsewhere s'' [] []).rests = true := hrest
  have hstop : ((R.activation i t ret s).elsewhere s'' [] []).step (R.next i) =
      (R.activation i t ret s).elsewhere s'' [] [] := (rests_idle hrest' rfl).rest
  unfold Roots.activation at hstop ⊢
  rw [hactivated, ← heq]
  refine iterate_rest ?_ hk
  rw [heq]
  exact hstop

theorem activate_local (hs : (R.region i).Same s s') (h : R.activate i t ret s = some turn) :
    ∃ turn', R.activate i t ret s' = some turn' ∧ turn'.proc = turn.proc ∧
      turn'.request = turn.request ∧ (R.region i).Same turn.store turn'.store := by
  obtain ⟨hrest, rfl⟩ := activate_eq_some h
  obtain ⟨s'', heq, hs''⟩ := activation_local hs hrest
  have hrest' : (R.activation i t ret s').rests = true := by
    rw [heq]
    exact hrest
  refine ⟨_, if_pos hrest',
    park_elsewhere activation_stays.within activation_stays.within heq, ?_, ?_⟩
  · exact congrArg (fun m => m.sqes.head?) heq
  · have hstore : (R.activation i t ret s').store = s'' := congrArg Machine.store heq
    rwa [← hstore] at hs''

omit [DecidableEq φ] in
theorem Roots.same_equivalence (R : Roots ι φ Q υ) (i : ι) : Equivalence (R.region i).Same :=
  (R.region i).same_equivalence

omit [DecidableEq φ] in
/-- What the kernel delivers to one of them the others do not see. -/
theorem Roots.serve_frame (R : Roots ι φ Q υ) {i j : ι} {x : Fd × Request} {response : Response}
    {s : Store φ} (hx : ∀ v ∈ x.2.iov, ∀ a, v.Covers a → (R.region i).addr a) (hj : j ≠ i) :
    (R.region j).Same s (Region.serve x.2 response s) :=
  (Region.keeps_serve hx _ _).same (R.disjoint _ _ (Ne.symm hj))

omit [DecidableEq φ] in
theorem Roots.serve_local (R : Roots ι φ Q υ) {i : ι} {x : Fd × Request} {response : Response}
    {s s' : Store φ} (hs : (R.region i).Same s s') :
    (R.region i).Same (Region.serve x.2 response s) (Region.serve x.2 response s') :=
  hs.serve _ _

/-- The coroutines as processes that are answered by the kernel. -/
def Roots.system (R : Roots ι φ Q υ) :
    Proactor.System ι (Store φ) (fun i => Parked (R.region i) Q υ) (Fd × Request) Response
      (Result Int) where
  activate := R.activate
  serve x response s := Region.serve x.2 response s
  value response := toResult response.res
  Agree i := (R.region i).Same
  Owns i x := ∀ v ∈ x.2.iov, ∀ a, v.Covers a → (R.region i).addr a
  agree := R.same_equivalence
  activate_frame h hj := by
    obtain ⟨-, rfl⟩ := activate_eq_some h
    exact activation_keeps.same (R.disjoint _ _ (Ne.symm hj))
  activate_local hs h := Coro.activate_local hs h
  activate_owns h hq := by
    obtain ⟨-, rfl⟩ := activate_eq_some h
    exact activation_stays.within.sqes _ (List.mem_of_mem_head? hq)
  serve_frame := @Roots.serve_frame _ _ _ _ R
  serve_local := @Roots.serve_local _ _ _ _ R

def Roots.setup (R : Roots ι φ Q υ) :
    Proactor.Setup ι (Store φ) (fun i => Parked (R.region i) Q υ) Response :=
  ⟨R.store, fun _ => .fresh, R.responses⟩

def Roots.workload (R : Roots ι φ Q υ) :
    Processes.Workload ι (Store φ) (fun i => Parked (R.region i) Q υ) (Fd × Request) Response where
  system := R.system
  setup := R.setup
  res := Response.res
  value_eq _ := rfl

end Workload

section Alone

variable {ι φ Q υ : Type} [DecidableEq φ] {R : Roots ι φ Q υ} {i : ι}
  {p : Solo (Store φ) (Parked (R.region i) Q υ) (Fd × Request)}

/-- What a coroutine waits for is its outstanding operation, whose callback has the
handle of the frame. -/
inductive Attends (t : Parked (R.region i) Q υ) : Option (Fd × Request) → Prop where
  | ended (hout : t.outstanding = none) : Attends t none
  | waiting (x : Fd × Request) (o : Outstanding) (op : Awaitable φ) (k : Result Nat → Q)
      (hout : t.outstanding = some o) (hreq : o.request = x.2)
      (hsus : (t.frames o.frame).suspension = some (.onOp op k)) (hkind : x.2.op = op.kind)
      (hcb : o.op.cb = some o.frame) : Attends t (some x)

omit [DecidableEq φ] in
theorem Machine.Asks.attends {m : Machine φ Q υ} (h : m.Asks) (hm : m.Within (R.region i)) :
    Attends (R := R) (m.park hm) m.sqes.head? ∧ m.sqes.head?.toList = m.sqes := by
  cases h with
  | nothing hsqes hout =>
    rw [hsqes]
    exact ⟨.ended hout, rfl⟩
  | once x o op k hsqes hout hreq hsus hkind hcb hcontrol =>
    rw [hsqes]
    exact ⟨.waiting x o op k hout hreq hsus hkind hcb, rfl⟩

/-- The machine of a coroutine that is alone, with what the kernel still has for it. -/
def Alone (R : Roots ι φ Q υ) (i : ι) (p : Solo (Store φ) (Parked (R.region i) Q υ) (Fd × Request))
    (responses : List Response) : Prop :=
  Attends p.proc p.request ∧
    ∃ j, after (R.next i) (R.entry i) R.store (R.responses i) j =
      (p.proc.machine p.store).elsewhere p.store p.requests responses

/-- An activation of the coroutine where its machine is. -/
theorem alone_of_turn {t : Parked (R.region i) Q υ} {ret : Option (Result Int)} {s : Store φ}
    {turn : Turn (Store φ) (Parked (R.region i) Q υ) (Fd × Request)}
    {sqes : List (Fd × Request)} {responses : List Response} {j : Nat}
    (hactivated : (t.activated (R.entry i) ret s).Asks)
    (hj : after (R.next i) (R.entry i) R.store (R.responses i) j =
      (t.activated (R.entry i) ret s).elsewhere (t.activated (R.entry i) ret s).store sqes responses)
    (hturn : R.activate i t ret s = some turn) :
    Alone R i ⟨turn.store, turn.proc, turn.request, sqes ++ turn.request.toList⟩ responses := by
  obtain ⟨hrest, rfl⟩ := activate_eq_some hturn
  have hasks : (R.activation i t ret s).Asks :=
    iterate_asks (R.confined i) (activated_within t _ ret) (activated_responses t _ ret)
      hactivated R.fuel
  obtain ⟨hattends, hsqes⟩ := hasks.attends activation_stays.within
  obtain ⟨k, -, hk⟩ : ∃ k ≤ R.fuel, (Machine.step (R.next i))^[k] ((t.activated (R.entry i) ret
      s).elsewhere (t.activated (R.entry i) ret s).store sqes responses) =
      (R.activation i t ret s).elsewhere (R.activation i t ret s).store sqes responses :=
    iterate_amid (activated_responses t (R.entry i) ret) sqes responses R.fuel
  refine ⟨hattends, k + j, ?_⟩
  rw [after, Function.iterate_add_apply]
  have hafter := (congrArg (Machine.step (R.next i))^[k] hj).trans hk
  rw [hsqes]
  exact hafter.trans (park_machine activation_stays.within hrest sqes responses)

omit [DecidableEq φ] in
theorem coAsync_asks (q : Q) (s : Store φ) : (coAsync q s [] : Machine φ Q υ).Asks :=
  .nothing rfl rfl

/-- An answer to what the coroutine waits for. -/
theorem answer_asks {t : Parked (R.region i) Q υ} {x : Fd × Request}
    (h : Attends (R := R) t (some x)) (s : Store φ) (ret : Result Int) :
    ((t.machine s).answer ret).Asks := by
  cases h with
  | waiting _ o op k hout hreq hsus hkind hcb =>
    have hanswer : (t.machine s).answer ret = (t.machine s).apply o.frame op.fd
        (goOn op.kind (s.fds op.fd) op.b o.op ret (.ok 0)) := by
      simp [Machine.answer, Parked.machine, hout, hsus]
    rw [hanswer]
    exact apply_asks rfl hsus (goOn_sound hcb op.kind (s.fds op.fd) op.b ret)

/-- The completion of what the coroutine waits for. -/
theorem alone_answered {x : Fd × Request} {response : Response} {responses : List Response}
    {j : Nat} (h : Attends p.proc (some x))
    (hj : after (R.next i) (R.entry i) R.store (R.responses i) j =
      (p.proc.machine p.store).elsewhere p.store p.requests (response :: responses)) :
    let s := Region.serve x.2 response p.store
    let m := p.proc.activated (R.entry i) (some (toResult response.res)) s
    after (R.next i) (R.entry i) R.store (R.responses i) (j + 1) =
      m.elsewhere m.store p.requests responses := by
  intro s m
  have hidle : ((p.proc.machine p.store).elsewhere p.store p.requests
      (response :: responses)).step (R.next i) = Machine.runLoop ((p.proc.machine p.store).elsewhere
        p.store p.requests (response :: responses)) := rfl
  cases h with
  | waiting _ o op k hout hreq hsus hkind hcb =>
    let m₀ := (p.proc.machine p.store).elsewhere p.store p.requests (response :: responses)
    have hloop := runLoop_eq_answer (m := m₀) hout hsus (hreq ▸ hkind) rfl
    obtain ⟨s', hanswer, hs'⟩ := answer_elsewhere (everything_within (p.proc.machine s))
      (((everything φ).same_equivalence).refl s) (toResult response.res) p.requests responses
    rw [← everything_same hs'] at hanswer
    rw [after, Function.iterate_succ_apply', ← after, hj, hidle, hloop, hreq]
    exact hanswer

/-- A process that is a coroutine alone is the coroutine alone. -/
theorem alone_of_system {n : Nat} (hp : R.system.alone R.setup i n = some p) :
    ∃ responses, Alone R i p responses ∧
      (p.request = none ∨ responses = (R.responses i).drop n) := by
  induction n generalizing p with
  | zero =>
    obtain ⟨turn, hturn, rfl⟩ := Option.map_eq_some_iff.mp hp
    have hasks : ((R.setup.proc i).activated (R.entry i) none R.store).Asks :=
      coAsync_asks (R.entry i) R.store
    exact ⟨R.responses i, alone_of_turn (j := 0) hasks rfl hturn, .inr rfl⟩
  | succ n ih =>
    rw [Proactor.System.alone] at hp
    split at hp
    next hnone =>
      obtain ⟨responses, halone, hrest⟩ := ih hp
      refine ⟨responses, halone, hrest.imp_right fun hdrop => ?_⟩
      have hlen : (R.responses i).length ≤ n := List.getElem?_eq_none_iff.mp hnone
      rw [hdrop, List.drop_eq_nil_of_le hlen, List.drop_eq_nil_of_le (Nat.le_succ_of_le hlen)]
    next response hresponse =>
      obtain ⟨p', hp', hnext⟩ := Option.bind_eq_some_iff.mp hp
      obtain ⟨responses, ⟨hattends, j, hj⟩, hrest⟩ := ih hp'
      unfold Proactor.System.next at hnext
      split at hnext
      next hended =>
        cases hnext
        exact ⟨responses, ⟨hattends, j, hj⟩, .inl hended⟩
      next x hx =>
        obtain ⟨turn, hturn, rfl⟩ := Option.map_eq_some_iff.mp hnext
        have hresponse : (R.responses i)[n]? = some response := hresponse
        have hdrop : responses = response :: (R.responses i).drop (n + 1) := by
          obtain ⟨hlt, hget⟩ := List.getElem?_eq_some_iff.mp hresponse
          rw [hrest.resolve_left (by simp [hx]), List.drop_eq_getElem_cons hlt]
          exact congrArg (· :: _) hget
        rw [hx] at hattends
        subst hdrop
        have hasks : (p'.proc.activated (R.entry i) (some (toResult response.res))
            (Region.serve x.2 response p'.store)).Asks := answer_asks hattends _ _
        exact ⟨(R.responses i).drop (n + 1),
          alone_of_turn hasks (alone_answered hattends hj) hturn, .inr rfl⟩

/-- The first responses only. -/
def Roots.cut (R : Roots ι φ Q υ) (n : Nat) : Roots ι φ Q υ :=
  { R with responses := fun i => (R.responses i).take n }

/-- The blocking flavour of one of them, by itself with the first responses. -/
def Roots.blocking (R : Roots ι φ Q υ) (i : ι) (n k : Nat) : World φ × Outcome υ :=
  Coro.blocking (recast (R.next i)) k (R.entry i) ⟨R.store, (R.responses i).take n, []⟩

def viewed (sqes : List (Fd × Request)) : List Request := sqes.map fun x => view x.1 x.2

/-- A coroutine alone is where its blocking flavour returns or blocks. -/
theorem alone_blocking {n : Nat} (hp : R.system.alone R.setup i n = some p) :
    ∃ k wb, viewed p.requests = wb.requests ∧ p.store = wb.store ∧
      match p.request with
      | none => ∃ v, R.blocking i n k = (wb, .returned v) ∧ p.proc.future = [v]
      | some q => R.blocking i n k = (wb, .blocked) ∧ p.proc.future = [] ∧
          ∃ front, wb.requests = front ++ viewed [q] := by
  have hcut : (R.cut n).system.alone (R.cut n).setup i n = some p := by
    refine Eq.trans ?_ hp
    exact Proactor.alone_congr (S := R.system) rfl rfl fun k hk => List.getElem?_take_of_lt hk
  obtain ⟨responses, ⟨hattends, j, hj⟩, hrest⟩ := alone_of_system hcut
  let m : Machine φ Q υ := (p.proc.machine p.store).elsewhere p.store p.requests responses
  have hm : after (R.next i) (R.entry i) R.store ((R.responses i).take n) j = m := hj
  have hidle : m.Idle := by
    refine ⟨rfl, rfl, hrest.imp (fun hnone => ?_) fun hdrop => ?_⟩
    · rw [hnone] at hattends
      cases hattends with
      | ended hout => exact hout
    · exact hdrop.trans (List.drop_eq_nil_of_le (List.length_take_le _ _))
  obtain ⟨k, j', hjj', hshows⟩ :=
    catches_up (R.next i) (R.entry i) R.store ((R.responses i).take n) j
  have hm' : after (R.next i) (R.entry i) R.store ((R.responses i).take n) j' = m := by
    refine (iterate_rest ?_ hjj').trans hm
    exact (congrArg _ hm).trans (hidle.rest.trans hm.symm)
  rw [hm'] at hshows
  obtain ⟨⟨wb, o⟩, hblocking⟩ : ∃ r, R.blocking i n k = r := ⟨_, rfl⟩
  rw [show Coro.blocking _ k _ _ = (wb, o) from hblocking] at hshows
  have hrequests : viewed p.requests = wb.requests := by
    have hviewed := hshows.1.requests
    simpa [Machine.requests, m, Machine.elsewhere, Parked.machine, viewed] using hviewed
  refine ⟨k, wb, hrequests, hshows.1.store, ?_⟩
  cases o with
  | running => exact absurd hidle hshows.2.2.1
  | returned v =>
    obtain ⟨-, -, hout, hfuture⟩ := hshows
    generalize p.request = request at hattends
    cases hattends with
    | ended _ => exact ⟨v, hblocking, hfuture⟩
    | waiting x o op k hout' =>
      exact absurd (hout'.symm.trans hout) (by simp)
  | blocked =>
    obtain ⟨-, -, hout, hfuture⟩ := hshows
    have hlast : ∀ q, p.request = some q → ∃ front, wb.requests = front ++ viewed [q] := by
      intro q hq
      obtain ⟨-, front, hfront⟩ := Proactor.alone_last hp hq
      refine ⟨viewed front, ?_⟩
      rw [← hrequests, hfront]
      exact List.map_append
    generalize p.request = request at hattends hlast
    cases hattends with
    | ended hout' => exact absurd hout' hout
    | waiting x o op k _ => exact ⟨hblocking, hfuture, hlast x rfl⟩

end Alone

/-- A flavour of the programs: alone with the kernel, where it stands between two
activations is where the blocking one returns or blocks. -/
structure Flavour {ι φ Q υ : Type} {τ : ι → Type} [DecidableEq φ] (R : Roots ι φ Q υ)
    (W : Processes.Workload ι (Store φ) τ (Fd × Request) Response) (i : ι)
    (value : τ i → List υ) : Prop where
  store : W.setup.store = R.store
  answers : W.setup.answers i = R.responses i
  fresh : value (W.setup.proc i) = []
  agree : ∀ s s', W.system.Agree i s s' → (R.region i).Same s s'
  serve : ∀ x response s, W.system.serve x response s = Region.serve x.2 response s
  res : ∀ response, W.res response = response.res
  alone : ∀ n p, W.system.alone W.setup i n = some p →
    ∃ k wb, viewed p.requests = wb.requests ∧ p.store = wb.store ∧
      match p.request with
      | none => ∃ v, R.blocking i n k = (wb, .returned v) ∧ value p.proc = [v]
      | some q => R.blocking i n k = (wb, .blocked) ∧ value p.proc = [] ∧
          ∃ front, wb.requests = front ++ viewed [q]

section Independence

variable {θ ι φ Q υ : Type} {τ : ι → Type} [DecidableEq θ] [DecidableEq ι] [DecidableEq φ]
  {R : Roots ι φ Q υ} {h : UringContext.History (ι × Fd × Request) (ι × Unit)}
  {w : Processes.World θ ι (Store φ) τ (Fd × Request) Response} {i : ι}

/-- The requests of a coroutine that were queued, as the kernel takes them. -/
def made (h : UringContext.History (ι × Fd × Request) (ι × Unit)) (i : ι) : List Request :=
  viewed (UringContext.asksOf h i)

/-- Where a program of the world is that has returned so much, by its blocking flavour
alone with the first responses. -/
inductive Matches (R : Roots ι φ Q υ) (h : UringContext.History (ι × Fd × Request) (ι × Unit))
    (w : Processes.World θ ι (Store φ) τ (Fd × Request) Response) (i : ι) (value : List υ) :
    Prop where
  | fresh (hstarted : w.started i = false) (hvalue : value = [])
      (hanswers : w.answers i = R.responses i) (hstore : (R.region i).Same w.store R.store)
      (hmade : made h i = []) (hv : UringContext.Vacant w.ctx i)
  | returned (n k : Nat) (wb : World φ) (v : υ) (hblocking : R.blocking i n k = (wb, .returned v))
      (hstarted : w.started i = true) (hvalue : value = [v])
      (hanswers : w.answers i = (R.responses i).drop n)
      (hstore : (R.region i).Same w.store wb.store) (hmade : made h i = wb.requests)
      (hv : UringContext.Vacant w.ctx i)
  /-- Its next request is with a thread or with the kernel. -/
  | waiting (n k : Nat) (wb : World φ) (q : Fd × Request) (phase : UringContext.Phase)
      (l : UringContext.Place θ) (hblocking : R.blocking i n k = (wb, .blocked))
      (hstarted : w.started i = true) (hvalue : value = [])
      (hanswers : w.answers i = (R.responses i).drop n)
      (hstore : (R.region i).Same w.store wb.store)
      (hlast : ∃ front, wb.requests = front ++ viewed [q])
      (hst : UringContext.Stage w.ctx (i, ()) (i, q) phase l)
      (hmade : phase = .preparing ∧ made h i ++ viewed [q] = wb.requests ∨
        phase = .queued ∧ made h i = wb.requests)
  /-- The next response is on its way to it. -/
  | answered (n k : Nat) (wb : World φ) (q : Fd × Request) (response : Response)
      (l : UringContext.Place θ) (hblocking : R.blocking i n k = (wb, .blocked))
      (hresponse : (R.responses i)[n]? = some response) (hstarted : w.started i = true)
      (hvalue : value = []) (hanswers : w.answers i = (R.responses i).drop (n + 1))
      (hstore : (R.region i).Same w.store (Region.serve q.2 response wb.store))
      (hlast : ∃ front, wb.requests = front ++ viewed [q])
      (hst : UringContext.Stage w.ctx (i, ()) (i, q) (.completed response.res) l)
      (hmade : made h i = wb.requests)

omit [DecidableEq θ] in
/-- Wherever a process in such a flavour stands, it is where the blocking one gets to. -/
theorem Matches.of_standing {W : Processes.Workload ι (Store φ) τ (Fd × Request) Response}
    {value : τ i → List υ} (hf : Flavour R W i value) (hs : Processes.Standing W h w i) :
    Matches R h w i (value (w.proc i)) := by
  cases hs with
  | fresh hstarted hproc hanswers hstore hasked hv =>
    refine .fresh hstarted ?_ (hanswers.trans hf.answers) ?_ ?_ hv
    · rw [hproc, hf.fresh]
    · rw [← hf.store]
      exact hf.agree _ _ hstore
    · rw [made, hasked]
      rfl
  | ended n p halone hended hstarted hproc hanswers hstore hasked hv =>
    obtain ⟨k, wb, hrequests, hstore', hrest⟩ := hf.alone n p halone
    rw [hended] at hrest
    obtain ⟨v, hblocking, hvalue⟩ := hrest
    refine .returned n k wb v hblocking hstarted (hproc ▸ hvalue) (hf.answers ▸ hanswers)
      (hstore' ▸ hf.agree _ _ hstore) ?_ hv
    rw [made, hasked, hrequests]
  | waiting n p q phase l halone hrequest hstarted hproc hanswers hstore hst hasked =>
    obtain ⟨k, wb, hrequests, hstore', hrest⟩ := hf.alone n p halone
    rw [hrequest] at hrest
    obtain ⟨hblocking, hvalue, hlast⟩ := hrest
    refine .waiting n k wb q phase l hblocking hstarted (hproc ▸ hvalue) (hf.answers ▸ hanswers)
      (hstore' ▸ hf.agree _ _ hstore) hlast hst ?_
    rw [← hrequests]
    refine hasked.imp (fun hpreparing => ?_) fun hqueued => ?_
    · refine ⟨hpreparing.1, ?_⟩
      rw [← hpreparing.2]
      exact (List.map_append).symm
    · rw [← hqueued.2]
      exact ⟨hqueued.1, rfl⟩
  | answered n p q x l halone hrequest hx hstarted hproc hanswers hstore hst hasked =>
    obtain ⟨k, wb, hrequests, hstore', hrest⟩ := hf.alone n p halone
    rw [hrequest] at hrest
    obtain ⟨hblocking, hvalue, hlast⟩ := hrest
    rw [hf.answers] at hx hanswers
    rw [hf.res] at hst
    refine .answered n k wb q x l hblocking hx hstarted (hproc ▸ hvalue) hanswers ?_ hlast hst ?_
    · rw [← hstore', ← hf.serve]
      exact hf.agree _ _ hstore
    · rw [made, hasked, hrequests]

end Independence

section Coroutines

variable {θ ι φ Q υ : Type} [DecidableEq θ] [DecidableEq ι] [DecidableEq φ] {R : Roots ι φ Q υ}
  {h : UringContext.History (ι × Fd × Request) (ι × Unit)}
  {w : Processes.World θ ι (Store φ) (fun i => Parked (R.region i) Q υ) (Fd × Request) Response}

omit [DecidableEq ι] in
theorem Roots.flavour (R : Roots ι φ Q υ) (i : ι) : Flavour R R.workload i Parked.future where
  store := rfl
  answers := rfl
  fresh := rfl
  agree _ _ hs := hs
  serve _ _ _ := rfl
  res _ := rfl
  alone _ _ hp := alone_blocking hp

theorem coroutines_stand
    (hrun : Run (Processes.step R.workload) Processes.Submits (Processes.start R.workload) h w)
    (i : ι) : Matches R h w i (w.proc i).future :=
  .of_standing (R.flavour i) (.of_simulated (.of_run hrun) i)

end Coroutines

section Example

/-- Reads a byte through its own descriptor into its own address. -/
def readsByte (i : Bool) : Program Bool (Option (Result Nat)) (Result Nat) := fun q store =>
  match q with
  | none => (store, .io .read i [⟨i.toNat, 1, by cases i <;> decide⟩] transferAll some)
  | some ret => (store, .ret ret)

theorem readsByte_confined (i : Bool) : Confined ⟨(· = i.toNat), (· = i)⟩ (readsByte i) where
  keeps q s := by
    cases q with
    | none => exact .refl _ s
    | some ret => exact .refl _ s
  looks q s s' h := by
    cases q with
    | none => exact ⟨rfl, h⟩
    | some ret => exact ⟨rfl, h⟩
  asks q s store kind fd b cond k hcmd := by
    cases q with
    | some ret => cases hcmd
    | none =>
      cases hcmd
      refine ⟨rfl, fun b hb a ha => ?_⟩
      rw [List.mem_singleton] at hb
      subst hb
      simp only [ConstBuffer.Covers] at ha
      exact Nat.le_antisymm (Nat.le_of_lt_succ ha.2) ha.1

def twoReaders : Roots Bool Bool (Option (Result Nat)) (Result Nat) where
  region i := ⟨(· = i.toNat), (· = i)⟩
  next := readsByte
  entry _ := none
  store := ⟨fun _ => 0, fun i => ⟨if i then 5 else 4, none⟩⟩
  responses i := if i then [.transferred [7]] else [.failed 5 (by decide)]
  fuel := 12
  confined := readsByte_confined
  disjoint i j hne := by
    cases i <;> cases j <;> first | exact absurd rfl hne | exact ⟨nofun, nofun⟩

/-- Both are started before the loop submits. The second one completes first. -/
def overtaking : List (Processes.Action Unit Bool) :=
  List.replicate 5 (.call .loop .ok) ++ .loop .ok ::
    ([false, true].flatMap fun i =>
      .start (.user ()) i :: List.replicate 5 (.call (.user ()) .ok) ++ [.finish (.user ())]) ++
    [.loop .ok, .loop .ok, .loop (.submitted 3), .complete 2, .complete 1] ++
    List.replicate 10 (.loop .ok)

theorem exists_two_readers :
    ∃ (h : UringContext.History (Bool × Fd × Request) (Bool × Unit))
      (w : Processes.World Unit Bool (Store Bool)
        (fun i => Parked (twoReaders.region i) (Option (Result Nat)) (Result Nat))
        (Fd × Request) Response),
      Run (Processes.step twoReaders.workload) Processes.Submits
          (Processes.start twoReaders.workload) h w ∧
        ((w.proc true).future = [.ok 1] ∧ (w.proc false).future = [.error ⟨5, .system⟩] ∧
          w.store.mem 1 = 7) := by
  apply exists_run_of_exec overtaking
  decide +kernel

end Example

end Coro
