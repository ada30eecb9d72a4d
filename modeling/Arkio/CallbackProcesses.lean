import Arkio.CallbackPrograms
import Arkio.CoroProcesses

/-!
# Callbacks on a context

Any number of programs in the callback flavour on one context, each confined to a
region of its own. An activation of such a program changes nothing outside its
region and does the same whatever is there, so that in every run each program is
where its blocking flavour gets to by itself.
-/
namespace Callback

open Bindings Buffer SyncIo AsyncIo Coro LabelledMachine
open Proactor (Turn Solo)

section Region

variable {φ Q υ : Type} {r : Region φ}

/-- The operation is on a descriptor and buffers of the region. -/
structure Operation.Within (o : Operation φ Q) (r : Region φ) : Prop where
  fd : r.fd o.fd
  bufs : ∀ b ∈ o.b, ∀ a, b.Covers a → r.addr a

def Point.Within (r : Region φ) : Point φ Q υ → Prop
  | .waiting o => o.Within r
  | .fresh | .ended _ => True

/-- An activation keeps to the region. -/
structure Stays (r : Region φ) (s : Store φ)
    (turn : Turn (Store φ) (Point φ Q υ) (Fd × Request)) : Prop where
  within : turn.proc.Within r
  keeps : r.Keeps s turn.store
  owns : ∀ x, turn.request = some x → ∀ v ∈ x.2.iov, ∀ a, v.Covers a → r.addr a

/-- The activations that begin in one of two stores that are the same in the region. -/
def Local (r : Region φ) (call call' : Activated φ Q υ) : Prop :=
  ∀ turn, call = some turn → ∃ turn', call' = some turn' ∧ turn'.proc = turn.proc ∧
    turn'.request = turn.request ∧ r.Same turn.store turn'.store

theorem Stays.after {s s' : Store φ} {turn : Turn (Store φ) (Point φ Q υ) (Fd × Request)}
    (h : Stays r s' turn) (hs : r.Keeps s s') : Stays r s turn :=
  ⟨h.within, hs.trans h.keeps, h.owns⟩

variable [DecidableEq φ] {next : Program φ Q υ} {n : Nat} {q : Q} {s s' : Store φ}
  {call : Q → Store φ → Activated φ Q υ} {kind : IoOperation} {fd : φ} {b : List ConstBuffer}
  {turn : Turn (Store φ) (Point φ Q υ) (Fd × Request)}

theorem settle_stays (hcall : ∀ q s turn, call q s = some turn → Stays r s turn)
    {t : AsyncIo.Turn (Result Nat → Q)} (hfd : r.fd fd)
    (hb : ∀ b' ∈ b, ∀ a, b'.Covers a → r.addr a)
    (hinside : ∀ x, t.attempt = some x → ∀ v ∈ x.1.iov, ∀ a, v.Covers a → ∃ b' ∈ b, b'.Covers a)
    (h : settle call kind fd b s t = some turn) : Stays r s turn := by
  have hupdate := Region.keeps_update hfd s t.fd
  unfold settle at h
  split at h
  next req ans op _ hattempt _ =>
    obtain rfl := Option.some.inj h
    refine ⟨⟨hfd, hb⟩, hupdate, ?_⟩
    rintro x hx v hv a ha
    obtain rfl := Option.some.inj hx
    obtain ⟨b', hb', ha'⟩ := hinside _ hattempt v hv a ha
    exact hb b' hb' a ha'
  next => exact (hcall _ _ _ h).after hupdate
  next => cases h

theorem settle_local (hcall : ∀ q s s', r.Same s s' → Local r (call q s) (call q s'))
    {t : AsyncIo.Turn (Result Nat → Q)} (hs : r.Same s s') :
    Local r (settle call kind fd b s t) (settle call kind fd b s' t) := by
  intro turn h
  have hupdate := hs.update fd t.fd
  unfold settle at h ⊢
  split at h
  next =>
    obtain rfl := Option.some.inj h
    exact ⟨_, rfl, rfl, rfl, hupdate⟩
  next => exact hcall _ _ _ hupdate turn h
  next => cases h

theorem perform_stays (hc : Confined r next) (n : Nat) (q : Q) (s : Store φ)
    (turn : Turn (Store φ) (Point φ Q υ) (Fd × Request)) (h : perform next n q s = some turn) :
    Stays r s turn := by
  induction n generalizing q s turn with
  | zero => cases h
  | succ n ih =>
    obtain ⟨store, cmd, hcmd⟩ : ∃ store cmd, next q s = (store, cmd) := ⟨_, _, rfl⟩
    have hkeeps : r.Keeps s store := by
      have hnext := hc.keeps q s
      rwa [hcmd] at hnext
    simp only [perform, hcmd] at h
    cases cmd with
    | compute q' => exact (ih q' store turn h).after hkeeps
    | io kind fd b cond k =>
      have hwithin := hc.asks q s store kind fd b cond k hcmd
      exact (settle_stays ih hwithin.fd hwithin.bufs (fun x hx => run_inside hx) h).after hkeeps
    | call q' k => cases h
    | ret v =>
      obtain rfl := Option.some.inj h
      refine ⟨trivial, hkeeps, ?_⟩
      intro x hx
      cases hx

theorem perform_local (hc : Confined r next) (n : Nat) (q : Q) (s s' : Store φ)
    (hs : r.Same s s') : Local r (perform next n q s) (perform next n q s') := by
  induction n generalizing q s s' with
  | zero => exact nofun
  | succ n ih =>
    intro turn h
    obtain ⟨store, cmd, hcmd⟩ : ∃ store cmd, next q s = (store, cmd) := ⟨_, _, rfl⟩
    obtain ⟨store', hcmd', hstore⟩ : ∃ store', next q s' = (store', cmd) ∧ r.Same store store' := by
      obtain ⟨hsame, hstore⟩ := hc.looks q s s' hs
      rw [hcmd] at hsame hstore
      exact ⟨(next q s').1, Prod.ext rfl hsame.symm, hstore⟩
    simp only [perform, hcmd, hcmd'] at h ⊢
    cases cmd with
    | compute q' => exact ih q' store store' hstore turn h
    | io kind fd b cond k =>
      have hfd := hstore.fds fd (hc.asks q s store kind fd b cond k hcmd).fd
      dsimp only
      rw [← hfd]
      exact settle_local ih hstore turn h
    | call q' k => cases h
    | ret v =>
      obtain rfl := Option.some.inj h
      exact ⟨_, rfl, rfl, rfl, hstore⟩

variable {entry : Q} {p : Point φ Q υ} {ret : Option (Result Int)}

theorem activate_stays (hc : Confined r next) (hp : p.Within r)
    (h : activate next n entry p ret s = some turn) : Stays r s turn := by
  unfold activate at h
  split at h
  next => exact perform_stays hc n entry s turn h
  next ret o =>
    obtain ⟨hfd, hbufs⟩ : o.Within r := hp
    exact settle_stays (perform_stays hc n) hfd hbufs (fun x hx => goOn_inside hx) h
  next => cases h

theorem activate_local (hc : Confined r next) (hp : p.Within r) (hs : r.Same s s') :
    Local r (activate next n entry p ret s) (activate next n entry p ret s') := by
  unfold activate
  split
  next => exact perform_local hc n entry s s' hs
  next ret o =>
    obtain ⟨hfd, -⟩ : o.Within r := hp
    rw [← hs.fds o.fd hfd]
    exact settle_local (perform_local hc n) hs
  next => exact nofun

end Region

/-- What a program keeps between its activations. -/
structure Held {φ : Type} (r : Region φ) (Q υ : Type) where
  point : Point φ Q υ
  within : point.Within r

section Workload

variable {ι φ Q υ : Type} [DecidableEq φ] {R : Roots ι φ Q υ} {i : ι} {s : Store φ}
  {t : Held (R.region i) Q υ} {ret : Option (Result Int)}

def attempt (R : Roots ι φ Q υ) (i : ι) (t : Held (R.region i) Q υ) (ret : Option (Result Int))
    (s : Store φ) : Option (Turn (Store φ) (Held (R.region i) Q υ) (Fd × Request)) :=
  (activate (R.next i) R.fuel (R.entry i) t.point ret s).pmap
    (fun turn hwithin => ⟨turn.store, ⟨turn.proc, hwithin⟩, turn.request⟩)
    fun _ h => (activate_stays (R.confined i) t.within h).within

theorem attempt_eq_some {turn : Turn (Store φ) (Held (R.region i) Q υ) (Fd × Request)} :
    attempt R i t ret s = some turn ↔
      activate (R.next i) R.fuel (R.entry i) t.point ret s =
        some ⟨turn.store, turn.proc.point, turn.request⟩ := by
  rw [attempt, Option.pmap_eq_some_iff]
  constructor
  · rintro ⟨turn', hwithin, hturn, rfl⟩
    exact hturn
  · intro h
    exact ⟨_, turn.proc.within, h, rfl⟩

/-- The programs as processes that are answered by the kernel. -/
def system (R : Roots ι φ Q υ) :
    Proactor.System ι (Store φ) (fun i => Held (R.region i) Q υ) (Fd × Request) Response
      (Result Int) where
  activate := attempt R
  serve x response s := Region.serve x.2 response s
  value response := toResult response.res
  Agree i := (R.region i).Same
  Owns i x := ∀ v ∈ x.2.iov, ∀ a, v.Covers a → (R.region i).addr a
  agree := R.same_equivalence
  activate_frame {i j t v s r} h hj := by
    have hstays := activate_stays (R.confined i) t.within (attempt_eq_some.mp h)
    exact hstays.keeps.same (R.disjoint _ _ (Ne.symm hj))
  activate_local {i t v s s' r} hs h := by
    obtain ⟨turn', hturn', hproc, hrequest, hstore⟩ :=
      activate_local (R.confined i) t.within hs _ (attempt_eq_some.mp h)
    refine ⟨⟨turn'.store, r.proc, turn'.request⟩, ?_, rfl, hrequest, hstore⟩
    have hproc : turn'.proc = r.proc.point := hproc
    rw [attempt_eq_some, hturn', ← hproc]
  activate_owns {i t v s r q} h hq :=
    (activate_stays (R.confined i) t.within (attempt_eq_some.mp h)).owns q hq
  serve_frame := @Roots.serve_frame _ _ _ _ R
  serve_local := @Roots.serve_local _ _ _ _ R

def setup (R : Roots ι φ Q υ) :
    Proactor.Setup ι (Store φ) (fun i => Held (R.region i) Q υ) Response :=
  ⟨R.store, fun _ => ⟨.fresh, trivial⟩, R.responses⟩

def workload (R : Roots ι φ Q υ) :
    Processes.Workload ι (Store φ) (fun i => Held (R.region i) Q υ) (Fd × Request) Response where
  system := system R
  setup := setup R
  res := Response.res
  value_eq _ := rfl

end Workload

section Alone

variable {ι φ Q υ : Type} [DecidableEq φ] {R : Roots ι φ Q υ} {i : ι} {n : Nat}
  {p : Solo (Store φ) (Held (R.region i) Q υ) (Fd × Request)}

/-- A program alone is where its blocking flavour goes on with the responses to come. -/
structure Reaches (R : Roots ι φ Q υ) (i : ι) (n : Nat)
    (p : Solo (Store φ) (Held (R.region i) Q υ) (Fd × Request)) : Prop where
  rests : Rests p.store p.proc.point p.request
  same : ∃ front left m, p.requests = front ++ p.request.toList ∧
    (p.request ≠ none → left = []) ∧ ∀ j rs,
      blocking (recast (R.next i)) (m + j) (R.entry i)
          ⟨R.store, (R.responses i).take n ++ rs, []⟩ =
        resumed (R.next i) j p.proc.point ⟨p.store, left ++ rs, viewed front⟩

theorem alone_reaches (hp : (system R).alone (setup R) i n = some p) : Reaches R i n p := by
  induction n generalizing p with
  | zero =>
    obtain ⟨turn, hturn, rfl⟩ := Option.map_eq_some_iff.mp hp
    obtain ⟨hrests, m, hm⟩ :=
      perform_continues (R.next i) R.fuel _ _ _ (attempt_eq_some.mp hturn)
    exact ⟨hrests, [], [], m, rfl, fun _ => rfl, fun j rs => hm j rs []⟩
  | succ n ih =>
    rw [Proactor.System.alone] at hp
    split at hp
    next hnone =>
      obtain ⟨hrests, front, left, m, hrequests, hleft, hm⟩ := ih hp
      have hlen : (R.responses i).length ≤ n := List.getElem?_eq_none_iff.mp hnone
      refine ⟨hrests, front, left, m, hrequests, hleft, ?_⟩
      rwa [List.take_of_length_le (Nat.le_succ_of_le hlen), ← List.take_of_length_le hlen]
    next response hresponse =>
      have htake : (R.responses i).take (n + 1) = (R.responses i).take n ++ [response] := by
        have hget : (R.responses i)[n]? = some response := hresponse
        rw [List.take_add_one, hget]
        rfl
      obtain ⟨p', hp', hnext⟩ := Option.bind_eq_some_iff.mp hp
      obtain ⟨hrests, front, left, m, hrequests, hleft, hm⟩ := ih hp'
      unfold Proactor.System.next at hnext
      split at hnext
      next hended =>
        cases hnext
        refine ⟨hrests, front, left ++ [response], m, hrequests,
          fun hsome => absurd hended hsome, fun j rs => ?_⟩
        rw [htake, List.append_assoc, List.append_assoc]
        exact hm j ([response] ++ rs)
      next x hx =>
        obtain ⟨turn, hturn, rfl⟩ := Option.map_eq_some_iff.mp hnext
        obtain rfl := hleft (by simp [hx])
        rw [hx] at hrests hrequests
        generalize hpoint : p'.proc.point = point at hrests
        cases hrests with
        | waiting o x hasks =>
          have hactivate := attempt_eq_some.mp hturn
          rw [hpoint] at hactivate
          obtain ⟨hrests', m', hm'⟩ := activate_continues hasks hactivate
          refine ⟨hrests', front ++ [x], [], m + m', ?_, fun _ => rfl, fun j rs => ?_⟩
          · rw [Solo.after, hrequests]
            rfl
          · have hj := hm (m' + j) (response :: rs)
            rw [hpoint] at hj
            rw [htake, Nat.add_assoc, List.append_assoc]
            refine hj.trans ((hm' j rs (viewed front)).trans ?_)
            simp [Solo.after, viewed]

/-- A program alone is where its blocking flavour returns or blocks. -/
theorem alone_blocking (hp : (system R).alone (setup R) i n = some p) :
    ∃ k wb, viewed p.requests = wb.requests ∧ p.store = wb.store ∧
      match p.request with
      | none => ∃ v, R.blocking i n k = (wb, .returned v) ∧ p.proc.point.value = [v]
      | some q => R.blocking i n k = (wb, .blocked) ∧ p.proc.point.value = [] ∧
          ∃ front, wb.requests = front ++ viewed [q] := by
  obtain ⟨hrests, front, left, m, hrequests, hleft, hm⟩ := alone_reaches hp
  have h₀ := hm 0 []
  rw [List.append_nil] at h₀
  generalize p.proc.point = point at hrests h₀
  generalize p.request = request at hrests hrequests hleft
  cases hrests with
  | ended v =>
    refine ⟨m + 0, _, ?_, rfl, v, h₀, rfl⟩
    rw [hrequests]
    simp
  | waiting o x hasks =>
    obtain ⟨⟨k, hcb⟩, hmore, hview, -, -⟩ := hasks
    obtain rfl := hleft (by simp)
    rw [resumed_waiting hcb, Operation.loop, List.nil_append, loop_blocked hmore, ← hview] at h₀
    refine ⟨m + 0, _, ?_, ?_, h₀, rfl, viewed front, rfl⟩
    · rw [hrequests]
      simp [viewed, World.during]
    · simp [World.during]

end Alone

section Callbacks

variable {θ ι φ Q υ : Type} [DecidableEq θ] [DecidableEq ι] [DecidableEq φ] {R : Roots ι φ Q υ}
  {h : UringContext.History (ι × Fd × Request) (ι × Unit)}
  {w : Processes.World θ ι (Store φ) (fun i => Held (R.region i) Q υ) (Fd × Request) Response}

omit [DecidableEq ι] in
theorem flavour (R : Roots ι φ Q υ) (i : ι) : Flavour R (workload R) i (·.point.value) where
  store := rfl
  answers := rfl
  fresh := rfl
  agree _ _ hs := hs
  serve _ _ _ := rfl
  res _ := rfl
  alone _ _ hp := alone_blocking hp

end Callbacks

section Example

abbrev ReadersNet :=
  Processes.World Unit Bool (Store Bool)
    (fun i => Held (twoReaders.region i) (Option (Result Nat)) (Result Nat)) (Fd × Request) Response

theorem exists_two_readers :
    ∃ (h : UringContext.History (Bool × Fd × Request) (Bool × Unit)) (w : ReadersNet),
      Run (Processes.step (workload twoReaders)) Processes.Submits
          (Processes.start (workload twoReaders)) h w ∧
        ((w.proc true).point.value = [.ok 1] ∧
          (w.proc false).point.value = [.error ⟨5, .system⟩] ∧ w.store.mem 1 = 7) := by
  apply exists_run_of_exec overtaking
  decide +kernel

end Example

end Callback
