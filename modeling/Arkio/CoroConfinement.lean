import Arkio.CoroFlavours

/-!
# Programs that keep to a region

A program is confined to a region when it changes nothing outside it, does not
look outside it, and reads and writes through descriptors and into buffers of the
region only. Between two completions its coroutine flavour is confined, too: an
activation is some steps of the machine without any response, `amid` whatever was
asked before and will be answered after it.
-/
namespace Coro

open Bindings Buffer SyncIo AsyncIo Executions
open Coroutine (Promise)

variable {φ Q υ : Type}

/-- Addresses and descriptors. -/
structure Region (φ : Type) where
  addr : Nat → Prop
  fd : φ → Prop

namespace Region

variable {r r' : Region φ} {s s' s'' : Store φ}

/-- The stores are the same inside the region. -/
structure Same (r : Region φ) (s s' : Store φ) : Prop where
  mem : ∀ a, r.addr a → s.mem a = s'.mem a
  fds : ∀ x, r.fd x → s.fds x = s'.fds x

/-- The stores are the same outside the region. -/
structure Keeps (r : Region φ) (s s' : Store φ) : Prop where
  mem : ∀ a, ¬r.addr a → s'.mem a = s.mem a
  fds : ∀ x, ¬r.fd x → s'.fds x = s.fds x

structure Disjoint (r r' : Region φ) : Prop where
  addr : ∀ a, r.addr a → ¬r'.addr a
  fd : ∀ x, r.fd x → ¬r'.fd x

theorem same_equivalence (r : Region φ) : Equivalence r.Same where
  refl _ := ⟨fun _ _ => rfl, fun _ _ => rfl⟩
  symm h := ⟨fun a ha => (h.mem a ha).symm, fun x hx => (h.fds x hx).symm⟩
  trans h h' := ⟨fun a ha => (h.mem a ha).trans (h'.mem a ha),
    fun x hx => (h.fds x hx).trans (h'.fds x hx)⟩

theorem Keeps.refl (r : Region φ) (s : Store φ) : r.Keeps s s := ⟨fun _ _ => rfl, fun _ _ => rfl⟩

theorem Keeps.trans (h : r.Keeps s s') (h' : r.Keeps s' s'') : r.Keeps s s'' :=
  ⟨fun a ha => (h'.mem a ha).trans (h.mem a ha), fun x hx => (h'.fds x hx).trans (h.fds x hx)⟩

theorem Disjoint.symm (h : r.Disjoint r') : r'.Disjoint r :=
  ⟨fun a ha ha' => h.addr a ha' ha, fun x hx hx' => h.fd x hx' hx⟩

/-- What happens in one region is not seen in another one. -/
theorem Keeps.same (h : r.Keeps s s') (hd : r.Disjoint r') : r'.Same s s' :=
  ⟨fun a ha => (h.mem a (hd.symm.addr a ha)).symm, fun x hx => (h.fds x (hd.symm.fd x hx)).symm⟩

/-- A descriptor of the region is fed or sought. -/
theorem keeps_update [DecidableEq φ] {x : φ} (hx : r.fd x) (s : Store φ) (f : Fd) :
    r.Keeps s { s with fds := Function.update s.fds x f } := by
  refine ⟨fun _ _ => rfl, fun y hy => ?_⟩
  have hne : y ≠ x := by
    rintro rfl
    exact hy hx
  exact Function.update_of_ne hne _ _

theorem Same.update [DecidableEq φ] (h : r.Same s s') (x : φ) (f : Fd) :
    r.Same { s with fds := Function.update s.fds x f }
      { s' with fds := Function.update s'.fds x f } := by
  refine ⟨h.mem, fun y hy => ?_⟩
  by_cases heq : y = x
  · subst heq
    simp
  · simp [heq, h.fds y hy]

/-- What the kernel does for a request. -/
def serve (req : Request) (response : Response) (s : Store φ) : Store φ :=
  { s with mem := deliver req.op req.iov response s.mem }

theorem keeps_serve {req : Request} (hreq : ∀ v ∈ req.iov, ∀ a, v.Covers a → r.addr a)
    (response : Response) (s : Store φ) : r.Keeps s (serve req response s) := by
  refine ⟨fun a ha => ?_, fun _ _ => rfl⟩
  unfold serve deliver
  split
  · exact scatter_frame fun v hv hc => ha (hreq v hv a hc)
  · rfl

theorem Same.serve (h : r.Same s s') (req : Request) (response : Response) :
    r.Same (serve req response s) (Region.serve req response s') := by
  refine ⟨fun a ha => ?_, h.fds⟩
  unfold Region.serve deliver
  split
  · exact scatter_congr (h.mem a ha) _ _
  · exact h.mem a ha

end Region

/-- The operation is on a descriptor and buffers of the region. -/
structure Awaitable.Within (op : Awaitable φ) (r : Region φ) : Prop where
  fd : r.fd op.fd
  bufs : ∀ b ∈ op.b, ∀ a, b.Covers a → r.addr a

structure Confined (r : Region φ) (next : Program φ Q υ) : Prop where
  keeps : ∀ q s, r.Keeps s (next q s).1
  looks : ∀ q s s', r.Same s s' →
    (next q s).2 = (next q s').2 ∧ r.Same (next q s).1 (next q s').1
  asks : ∀ q s store kind fd b cond k, next q s = (store, .io kind fd b cond k) →
    Awaitable.Within ⟨kind, fd, b, cond, none⟩ r

section Activations

variable {r : Region φ} {m m' : Machine φ Q υ} {s : Store φ} {f : Nat}

/-- What is suspended is within the region, and so is what was asked. -/
structure Machine.Within (m : Machine φ Q υ) (r : Region φ) : Prop where
  frames : ∀ f op k, (m.frames f).suspension = some (.onOp op k) → op.Within r
  sqes : ∀ x ∈ m.sqes, ∀ v ∈ x.2.iov, ∀ a, v.Covers a → r.addr a

/-- An activation has asked for nothing yet, or it has asked and goes back to its
caller. -/
inductive Machine.Asks (m : Machine φ Q υ) : Prop where
  | nothing (hsqes : m.sqes = []) (hout : m.outstanding = none)
  | once (x : Fd × Request) (o : Outstanding) (op : Awaitable φ) (k : Result Nat → Q)
      (hsqes : m.sqes = [x]) (hout : m.outstanding = some o) (hreq : o.request = x.2)
      (hsus : (m.frames o.frame).suspension = some (.onOp op k)) (hkind : x.2.op = op.kind)
      (hcb : o.op.cb = some o.frame) (hcontrol : m.control = .toCaller)

/-- Control is with the caller again. -/
def Machine.rests (m : Machine φ Q υ) : Bool :=
  match m.control, m.native with
  | .toCaller, [] => true
  | _, _ => false

theorem rests_iff : m.rests = true ↔ m.control = .toCaller ∧ m.native = [] := by
  unfold Machine.rests
  split
  next hcontrol hnative => exact iff_of_true rfl ⟨hcontrol, hnative⟩
  next hother => exact iff_of_false (by simp) fun h => hother h.1 h.2

/-- An activation of an operation asks within its buffers. -/
theorem run_inside {κ : Type} {kind : IoOperation} {fd : Fd} {b : List ConstBuffer} {op : IoOp κ}
    {x : Request × Result Nat} (hx : (AsyncIo.run kind fd b op (.ok 0)).attempt = some x) :
    ∀ v ∈ x.1.iov, ∀ a, v.Covers a → ∃ b' ∈ b, b'.Covers a := by
  by_cases h : op.locals.cond (bufferSize b) op.locals.doneSz = 0
  · simp [run_done h] at hx
  · rw [run_submitted h, Option.some.injEq] at hx
    subst hx
    intro v hv a ha
    exact transformToIovecs_covers hv ha

theorem goOn_inside {κ : Type} {kind : IoOperation} {fd : Fd} {b : List ConstBuffer}
    {op : IoOp κ} {ret : Result Int} {x : Request × Result Nat}
    (hx : (goOn kind fd b op ret (.ok 0)).attempt = some x) :
    ∀ v ∈ x.1.iov, ∀ a, v.Covers a → ∃ b' ∈ b, b'.Covers a := by
  cases ret with
  | error e => simp [goOn] at hx
  | ok n =>
    simp only [goOn] at hx
    split at hx
    · simp at hx
    · exact run_inside hx

/-- An activation of an operation calls its callback, or it submits a request of its
kind. -/
inductive Sound (kind : IoOperation) (f : Nat) (turn : Turn Nat) : Prop where
  | completed (ret : Result Nat) (hattempt : turn.attempt = none)
      (heffects : turn.effects = [.call f ret])
  | submitted (req : Request) (op : IoOp Nat) (hattempt : turn.attempt = some (req, .ok 0))
      (hclosure : turn.closure = some op) (hcb : op.cb = some f) (heffects : turn.effects = [])
      (hkind : req.op = kind)

theorem run_sound {op : IoOp Nat} (hcb : op.cb = some f) (kind : IoOperation) (fd : Fd)
    (b : List ConstBuffer) : Sound kind f (AsyncIo.run kind fd b op (.ok 0)) := by
  by_cases h : op.locals.cond (bufferSize b) op.locals.doneSz = 0
  · rw [run_done h, hcb]
    exact .completed _ rfl rfl
  · rw [run_submitted h]
    exact .submitted _ _ rfl rfl hcb rfl rfl

theorem goOn_sound {op : IoOp Nat} (hcb : op.cb = some f) (kind : IoOperation) (fd : Fd)
    (b : List ConstBuffer) (ret : Result Int) :
    Sound kind f (goOn kind fd b op ret (.ok 0)) := by
  cases ret with
  | error e => exact .completed (.error e) rfl (by simp [goOn, AsyncOp.complete, hcb, invoke])
  | ok n =>
    simp only [goOn]
    split
    · exact .completed (.ok op.locals.doneSz) rfl (by simp [AsyncOp.complete, hcb, invoke])
    · exact run_sound (f := f) (by exact hcb) kind (fd.feed n.toNat) b

theorem Awaitable.Within.answered {op : Awaitable φ} (h : op.Within r) (ret : Result Nat) :
    Awaitable.Within { op with ret := some ret } r := ⟨h.fd, h.bufs⟩

/-- One frame is suspended elsewhere, or not at all. -/
theorem Machine.Within.suspend (h : m.Within r) (f : Nat) (sus : Option (Suspension φ Q υ))
    (hsus : ∀ op k, sus = some (.onOp op k) → op.Within r) : (m.suspend f sus).Within r := by
  refine ⟨fun g op k hg => ?_, h.sqes⟩
  by_cases heq : g = f
  · subst heq
    exact hsus op k (by simpa using hg)
  · exact h.frames g op k (by simpa [heq] using hg)

theorem Machine.Within.setFrame (h : m.Within r) (f : Nat) (fr : Frame φ Q υ)
    (hsus : ∀ op k, fr.suspension = some (.onOp op k) → op.Within r) :
    (m.setFrame f fr).Within r := by
  refine ⟨fun g op k hg => ?_, h.sqes⟩
  by_cases heq : g = f
  · subst heq
    exact hsus op k (by simpa using hg)
  · exact h.frames g op k (by simpa [heq] using hg)

/-- What does not touch the frames or the requests. -/
theorem Machine.Within.of_eq (h : m.Within r) (hframes : m'.frames = m.frames)
    (hsqes : m'.sqes = m.sqes) : m'.Within r :=
  ⟨hframes ▸ h.frames, hsqes ▸ h.sqes⟩

theorem Machine.Within.complete (h : m.Within r) (f : Nat) (ret : Result Nat) :
    (m.complete f ret).Within r := by
  unfold Machine.complete
  split
  next op k hsus =>
    refine (h.suspend f (some (.onOp { op with ret := some ret } k)) ?_).of_eq rfl rfl
    intro op' k' heq
    cases heq
    exact (h.frames f op k hsus).answered ret
  next => exact h.of_eq rfl rfl

theorem complete_store (m : Machine φ Q υ) (f : Nat) (ret : Result Nat) :
    (m.complete f ret).store = m.store := by
  unfold Machine.complete
  split <;> rfl

theorem Machine.Within.makeTask (h : m.Within r) (q : Q) : (m.makeTask q).Within r :=
  (h.setFrame m.nextFrame ⟨some (.initial q), ⟨none, none⟩⟩ nofun).of_eq rfl rfl

theorem Machine.Within.awaitTask (h : m.Within r) (f g : Nat) (k : Receiver Q υ) :
    (m.awaitTask f g k).Within r := by
  have hm := h.suspend f (some (.onTask g k)) nofun
  let gr := (m.suspend f (some (.onTask g k))).frames g
  have hg := hm.setFrame g { gr with promise := { gr.promise with continuation := some f } }
    (fun op k hsus => hm.frames g op k hsus)
  exact hg.of_eq rfl rfl

/-- The machine is still within the region, and changed nothing outside it. -/
structure Stays (r : Region φ) (m m' : Machine φ Q υ) : Prop where
  within : m'.Within r
  keeps : r.Keeps m.store m'.store
  responses : m'.responses = m.responses

theorem Stays.trans {m'' : Machine φ Q υ} (h : Stays r m m') (h' : Stays r m' m'') :
    Stays r m m'' :=
  ⟨h'.within, h.keeps.trans h'.keeps, h'.responses.trans h.responses⟩

theorem complete_responses (m : Machine φ Q υ) (f : Nat) (ret : Result Nat) :
    (m.complete f ret).responses = m.responses := by
  unfold Machine.complete
  split <;> rfl

theorem resume_stays (h : m.Within r) (f : Nat) : Stays r m (m.resume f) := by
  have hsuspend : (m.suspend f none).Within r := h.suspend f none nofun
  have hkeeps : r.Keeps m.store m.store := .refl r m.store
  unfold Machine.resume
  dsimp only
  split
  · exact ⟨hsuspend.of_eq rfl rfl, hkeeps, rfl⟩
  · split
    · exact ⟨hsuspend.of_eq rfl rfl, hkeeps, rfl⟩
    · exact ⟨hsuspend.of_eq rfl rfl, hkeeps, rfl⟩
    · exact ⟨h.of_eq rfl rfl, hkeeps, rfl⟩
  · split
    · exact ⟨hsuspend.of_eq rfl rfl, hkeeps, rfl⟩
    · exact ⟨h.of_eq rfl rfl, hkeeps, rfl⟩
  · exact ⟨h.of_eq rfl rfl, hkeeps, rfl⟩

variable [DecidableEq φ] {next : Program φ Q υ}

theorem Machine.Within.apply (h : m.Within r) {turn : Turn Nat} {b : List ConstBuffer} {fd : φ}
    (hb : ∀ b' ∈ b, ∀ a, b'.Covers a → r.addr a)
    (hturn : ∀ x, turn.attempt = some x → ∀ v ∈ x.1.iov, ∀ a, v.Covers a → ∃ b' ∈ b, b'.Covers a)
    (f : Nat) : (m.apply f fd turn).Within r := by
  have hsqes : ∀ x ∈ m.sqes ++ (turn.attempt.map fun a => (turn.fd, a.1)).toList,
      ∀ v ∈ x.2.iov, ∀ a, v.Covers a → r.addr a := by
    intro x hx v hv a ha
    rcases List.mem_append.mp hx with hx | hx
    · exact h.sqes x hx v hv a ha
    · rw [Option.mem_toList, Option.map_eq_some_iff] at hx
      obtain ⟨y, hy, rfl⟩ := hx
      obtain ⟨b', hb', hc⟩ := hturn y hy v hv a ha
      exact hb b' hb' a hc
  unfold Machine.apply
  split
  · exact ⟨h.frames, hsqes⟩
  · refine Machine.Within.complete ?_ _ _
    exact ⟨h.frames, hsqes⟩
  · exact ⟨h.frames, hsqes⟩

theorem apply_store (m : Machine φ Q υ) (f : Nat) (fd : φ) (turn : Turn Nat) :
    (m.apply f fd turn).store = { m.store with fds := Function.update m.store.fds fd turn.fd } := by
  unfold Machine.apply
  split
  · rfl
  · exact complete_store _ _ _
  · rfl

theorem apply_responses (m : Machine φ Q υ) (f : Nat) (fd : φ) (turn : Turn Nat) :
    (m.apply f fd turn).responses = m.responses := by
  unfold Machine.apply
  split
  · rfl
  · exact complete_responses _ _ _
  · rfl

/-- An operation of the region is started, or goes on. -/
theorem apply_stays (h : m.Within r) {op : Awaitable φ} (hop : op.Within r) {turn : Turn Nat}
    (hturn : ∀ x, turn.attempt = some x → ∀ v ∈ x.1.iov, ∀ a, v.Covers a →
      ∃ b' ∈ op.b, b'.Covers a) (f : Nat) : Stays r m (m.apply f op.fd turn) where
  within := h.apply hop.bufs hturn f
  keeps := by
    rw [apply_store]
    exact Region.keeps_update hop.fd m.store turn.fd
  responses := apply_responses m f op.fd turn

theorem runLoop_eq (hres : m.responses = []) : m.runLoop = m := by
  unfold Machine.runLoop
  rw [hres]
  split
  next heq => cases heq
  next => rfl

/-- A step without a response. -/
theorem step_stays (hc : Confined r next) (h : m.Within r) (hres : m.responses = []) :
    Stays r m (m.step next) := by
  have hkeeps : r.Keeps m.store m.store := .refl r m.store
  cases hcontrol : m.control with
  | body f q =>
    obtain ⟨store, cmd, hcmd⟩ : ∃ store cmd, next q m.store = (store, cmd) := ⟨_, _, rfl⟩
    have hstore : r.Keeps m.store store := by
      have hk := hc.keeps q m.store
      rwa [hcmd] at hk
    have hm₁ : Machine.Within { m with store := store } r := h.of_eq rfl rfl
    simp only [Machine.step, hcontrol, hcmd]
    cases cmd with
    | compute q' => exact ⟨hm₁.of_eq rfl rfl, hstore, rfl⟩
    | io kind fd b cond k =>
      let op : Awaitable φ := ⟨kind, fd, b, cond, none⟩
      have hop : op.Within r := hc.asks q m.store store kind fd b cond k hcmd
      have hm₂ : Machine.Within { m.suspend f (some (.onOp op k)) with
          store := store, native := f :: m.native } r := by
        refine (h.suspend f (some (.onOp op k)) ?_).of_eq rfl rfl
        intro op' k' heq
        cases heq
        exact hop
      let turn := AsyncIo.run kind (store.fds fd) b ⟨some f, ⟨cond, 0, []⟩⟩ (.ok 0)
      have hturn : ∀ x, turn.attempt = some x → ∀ v ∈ x.1.iov, ∀ a, v.Covers a →
          ∃ b' ∈ b, b'.Covers a := fun x hx => run_inside hx
      have hstay := apply_stays hm₂ hop hturn f
      exact ⟨hstay.within, hstore.trans hstay.keeps, hstay.responses⟩
    | call q' k =>
      exact ⟨(hm₁.makeTask q').awaitTask f m.nextFrame (.body k), hstore, rfl⟩
    | ret v =>
      refine ⟨?_, hstore, rfl⟩
      have hframe := hm₁.setFrame f
        { m.frames f with promise := (m.frames f).promise.returnValue v }
        (fun op k hsus => h.frames f op k hsus)
      exact hframe.of_eq rfl rfl
  | finalSuspend f =>
    simp only [Machine.step, hcontrol]
    split
    · exact ⟨h.of_eq rfl rfl, hkeeps, rfl⟩
    · exact ⟨h.of_eq rfl rfl, hkeeps, rfl⟩
  | resume f =>
    simp only [Machine.step, hcontrol]
    exact resume_stays h f
  | toCaller =>
    simp only [Machine.step, hcontrol]
    split
    · exact ⟨h.of_eq rfl rfl, hkeeps, rfl⟩
    · rw [runLoop_eq hres]
      exact ⟨h, hkeeps, rfl⟩
  | fault =>
    simp only [Machine.step, hcontrol]
    exact ⟨h, hkeeps, rfl⟩

theorem awaitOp_store (m : Machine φ Q υ) (f : Nat) (op : Awaitable φ) (k : Result Nat → Q) :
    (m.awaitOp f op k).store = { m.store with
      fds := Function.update m.store.fds op.fd (AsyncIo.run op.kind (m.store.fds op.fd) op.b
        ⟨some f, ⟨op.cond, 0, []⟩⟩ (.ok 0)).fd } :=
  apply_store { m.suspend f (some (.onOp op k)) with native := f :: m.native } f op.fd _

/-- The machine over another store, with other requests before and responses to come. -/
def Machine.elsewhere (m : Machine φ Q υ) (s : Store φ) (sqes : List (Fd × Request))
    (responses : List Response) : Machine φ Q υ :=
  { m with store := s, sqes := sqes ++ m.sqes, responses := responses }

section Elsewhere

variable (sqes : List (Fd × Request)) (responses : List Response)

omit [DecidableEq φ] in
theorem complete_elsewhere (m : Machine φ Q υ) (s : Store φ) (f : Nat) (ret : Result Nat) :
    (m.elsewhere s sqes responses).complete f ret =
      (m.complete f ret).elsewhere s sqes responses := by
  have hframes : (m.elsewhere s sqes responses).frames = m.frames := rfl
  unfold Machine.complete
  rw [hframes]
  split <;> rfl

theorem apply_elsewhere (m : Machine φ Q υ) (s : Store φ) (f : Nat) (fd : φ) (turn : Turn Nat) :
    (m.elsewhere s sqes responses).apply f fd turn = (m.apply f fd turn).elsewhere
      { s with fds := Function.update s.fds fd turn.fd } sqes responses := by
  unfold Machine.apply
  split
  · simp [Machine.elsewhere]
  · rw [← complete_elsewhere]
    simp [Machine.elsewhere]
  · simp [Machine.elsewhere]

theorem awaitOp_elsewhere (m : Machine φ Q υ) (s : Store φ) (f : Nat) (op : Awaitable φ)
    (k : Result Nat → Q) (hs : s.fds op.fd = m.store.fds op.fd) :
    (m.elsewhere s sqes responses).awaitOp f op k = (m.awaitOp f op k).elsewhere
      { s with fds := Function.update s.fds op.fd ((m.awaitOp f op k).store.fds op.fd) }
      sqes responses := by
  let m₁ : Machine φ Q υ := { m.suspend f (some (.onOp op k)) with native := f :: m.native }
  let turn := AsyncIo.run op.kind (m.store.fds op.fd) op.b ⟨some f, ⟨op.cond, 0, []⟩⟩ (.ok 0)
  have hturn : (m.awaitOp f op k).store.fds op.fd = turn.fd := by
    rw [awaitOp_store]
    exact Function.update_self _ _ _
  rw [hturn]
  have happly := apply_elsewhere sqes responses m₁ s f op.fd turn
  have hfd : (m.elsewhere s sqes responses).store.fds op.fd = m.store.fds op.fd := hs
  rw [Machine.awaitOp, hfd]
  exact happly

omit [DecidableEq φ] in
theorem resume_elsewhere (m : Machine φ Q υ) (s : Store φ) (f : Nat) :
    (m.elsewhere s sqes responses).resume f = (m.resume f).elsewhere s sqes responses := by
  have hframes : (m.elsewhere s sqes responses).frames = m.frames := rfl
  unfold Machine.resume
  rw [hframes]
  dsimp only
  split
  · rfl
  · split <;> rfl
  · split <;> rfl
  · rfl

omit [DecidableEq φ] in
theorem resume_store (m : Machine φ Q υ) (f : Nat) : (m.resume f).store = m.store := by
  unfold Machine.resume
  dsimp only
  split
  · rfl
  · split <;> rfl
  · split <;> rfl
  · rfl

/-- Before control is with the caller, a step does not look outside the region. -/
theorem step_elsewhere (hc : Confined r next) (hrest : m.rests = false)
    (hs : r.Same m.store s) :
    ∃ s', (m.elsewhere s sqes responses).step next =
        (m.step next).elsewhere s' sqes responses ∧ r.Same (m.step next).store s' := by
  have hcontrol' : (m.elsewhere s sqes responses).control = m.control := rfl
  cases hcontrol : m.control with
  | body f q =>
    obtain ⟨store, cmd, hcmd⟩ : ∃ store cmd, next q m.store = (store, cmd) := ⟨_, _, rfl⟩
    obtain ⟨store', cmd', hcmd'⟩ : ∃ store' cmd', next q s = (store', cmd') := ⟨_, _, rfl⟩
    have hlooks := hc.looks q m.store s hs
    rw [hcmd, hcmd'] at hlooks
    obtain ⟨rfl, hsame⟩ := hlooks
    have hstore' : next q (m.elsewhere s sqes responses).store = (store', cmd) := hcmd'
    simp only [Machine.step, hcontrol', hcontrol, hcmd, hstore']
    cases cmd with
    | compute q' => exact ⟨store', rfl, hsame⟩
    | io kind fd b cond k =>
      have hfd : store.fds fd = store'.fds fd :=
        hsame.fds fd (hc.asks q m.store store kind fd b cond k hcmd).fd
      let m₁ : Machine φ Q υ := { m with store := store, control := .body f q }
      let op : Awaitable φ := ⟨kind, fd, b, cond, none⟩
      refine ⟨_, awaitOp_elsewhere sqes responses m₁ store' f op k hfd.symm, ?_⟩
      change r.Same (m₁.awaitOp f op k).store _
      rw [awaitOp_store]
      simp only [Function.update_self]
      exact hsame.update fd _
    | call q' k => exact ⟨store', rfl, hsame⟩
    | ret v => exact ⟨store', rfl, hsame⟩
  | finalSuspend f =>
    have hframes : (m.elsewhere s sqes responses).frames = m.frames := rfl
    simp only [Machine.step, hcontrol', hcontrol, hframes]
    split
    · exact ⟨s, rfl, hs⟩
    · exact ⟨s, rfl, hs⟩
  | resume f =>
    simp only [Machine.step, hcontrol', hcontrol]
    exact ⟨s, resume_elsewhere sqes responses m s f, resume_store m f ▸ hs⟩
  | toCaller =>
    have hnative' : (m.elsewhere s sqes responses).native = m.native := rfl
    cases hnative : m.native with
    | nil =>
      rw [rests_iff.mpr ⟨hcontrol, hnative⟩] at hrest
      cases hrest
    | cons f native =>
      simp only [Machine.step, hcontrol', hcontrol, hnative', hnative]
      exact ⟨s, rfl, hs⟩
  | fault =>
    simp only [Machine.step, hcontrol', hcontrol]
    exact ⟨s, rfl, hs⟩

end Elsewhere

section Asking

omit [DecidableEq φ] in
theorem complete_asks (hsqes : m.sqes = []) (hout : m.outstanding = none) (f : Nat)
    (ret : Result Nat) : (m.complete f ret).Asks := by
  unfold Machine.complete
  split
  · exact .nothing hsqes hout
  · exact .nothing hsqes hout

/-- The activation of an operation in an activation that has asked for nothing yet. -/
theorem apply_asks {turn : Turn Nat} {op : Awaitable φ} {k : Result Nat → Q}
    (hsqes : m.sqes = []) (hsus : (m.frames f).suspension = some (.onOp op k))
    (hturn : Sound op.kind f turn) : (m.apply f op.fd turn).Asks := by
  cases hturn with
  | completed ret hattempt heffects =>
    simp only [Machine.apply, hattempt, heffects]
    refine complete_asks ?_ rfl f ret
    simp [hsqes]
  | submitted req op' hattempt hclosure hcb heffects hkind =>
    simp only [Machine.apply, hattempt, hclosure, heffects]
    refine .once (turn.fd, req) ⟨f, req, op'⟩ op k ?_ rfl rfl hsus hkind hcb rfl
    simp [hsqes]

omit [DecidableEq φ] in
theorem resume_asks (hsqes : m.sqes = []) (hout : m.outstanding = none) (f : Nat) :
    (m.resume f).Asks := by
  unfold Machine.resume
  dsimp only
  split
  · exact .nothing hsqes hout
  · split
    · exact .nothing hsqes hout
    · exact .nothing hsqes hout
    · exact .nothing hsqes hout
  · split
    · exact .nothing hsqes hout
    · exact .nothing hsqes hout
  · exact .nothing hsqes hout

/-- In one activation there is at most one request. -/
theorem step_asks (h : m.Asks) (hres : m.responses = []) : (m.step next).Asks := by
  cases h with
  | once x o op k hsqes hout hreq hsus hkind hcb hcontrol =>
    simp only [Machine.step, hcontrol]
    split
    · exact .once x o op k hsqes hout hreq hsus hkind hcb rfl
    · rw [runLoop_eq hres]
      exact .once x o op k hsqes hout hreq hsus hkind hcb hcontrol
  | nothing hsqes hout =>
    cases hcontrol : m.control with
    | body f q =>
      obtain ⟨store, cmd, hcmd⟩ : ∃ store cmd, next q m.store = (store, cmd) := ⟨_, _, rfl⟩
      simp only [Machine.step, hcontrol, hcmd]
      cases cmd with
      | compute q' => exact .nothing hsqes hout
      | io kind fd b cond k =>
        have hsus (m' : Machine φ Q υ) (op : Awaitable φ) :
            ((m'.suspend f (some (.onOp op k))).frames f).suspension = some (.onOp op k) := by
          simp
        exact apply_asks hsqes (hsus _ ⟨kind, fd, b, cond, none⟩) (run_sound rfl kind _ b)
      | call q' k => exact .nothing hsqes hout
      | ret v => exact .nothing hsqes hout
    | finalSuspend f =>
      simp only [Machine.step, hcontrol]
      split
      · exact .nothing hsqes hout
      · exact .nothing hsqes hout
    | resume f =>
      simp only [Machine.step, hcontrol]
      exact resume_asks hsqes hout f
    | toCaller =>
      simp only [Machine.step, hcontrol]
      split
      · exact .nothing hsqes hout
      · rw [runLoop_eq hres]
        exact .nothing hsqes hout
    | fault =>
      simp only [Machine.step, hcontrol]
      exact .nothing hsqes hout

end Asking

section Iterates

theorem iterate_stays (hc : Confined r next) (h : m.Within r) (hres : m.responses = [])
    (n : Nat) : Stays r m ((Machine.step next)^[n] m) := by
  induction n with
  | zero => exact ⟨h, .refl r m.store, rfl⟩
  | succ n ih =>
    rw [Function.iterate_succ_apply']
    exact ih.trans (step_stays hc ih.within (ih.responses.trans hres))

theorem iterate_asks (hc : Confined r next) (h : m.Within r) (hres : m.responses = [])
    (hasks : m.Asks) (n : Nat) : ((Machine.step next)^[n] m).Asks := by
  induction n with
  | zero => exact hasks
  | succ n ih =>
    rw [Function.iterate_succ_apply']
    exact step_asks ih ((iterate_stays hc h hres n).responses.trans hres)

omit [DecidableEq φ] in
theorem rests_idle (hrest : m.rests = true) (hres : m.responses = []) : m.Idle :=
  ⟨(rests_iff.mp hrest).1, (rests_iff.mp hrest).2, .inr hres⟩

/-- An activation is the same elsewhere, where it needs as many steps at most. -/
theorem iterate_elsewhere (hc : Confined r next) (h : m.Within r) (hres : m.responses = [])
    (hs : r.Same m.store s) (sqes : List (Fd × Request)) (responses : List Response) (n : Nat) :
    ∃ k s', k ≤ n ∧ (Machine.step next)^[k] (m.elsewhere s sqes responses) =
      ((Machine.step next)^[n] m).elsewhere s' sqes responses ∧
      r.Same ((Machine.step next)^[n] m).store s' := by
  induction n with
  | zero => exact ⟨0, s, le_rfl, rfl, hs⟩
  | succ n ih =>
    obtain ⟨k, s', hk, heq, hs'⟩ := ih
    rw [Function.iterate_succ_apply']
    have hres' := (iterate_stays hc h hres n).responses.trans hres
    cases hrest : ((Machine.step next)^[n] m).rests with
    | true =>
      rw [(rests_idle hrest hres').rest]
      exact ⟨k, s', Nat.le_succ_of_le hk, heq, hs'⟩
    | false =>
      obtain ⟨s'', hstep, hs''⟩ := step_elsewhere sqes responses hc
        hrest hs'
      refine ⟨k + 1, s'', Nat.succ_le_succ hk, ?_, hs''⟩
      rw [Function.iterate_succ_apply', heq, hstep]

/-- Everything, as a region. -/
def everything (φ : Type) : Region φ := ⟨fun _ => True, fun _ => True⟩

omit [DecidableEq φ] in
theorem everything_same {s s' : Store φ} (h : (everything φ).Same s s') : s = s' := by
  cases s
  cases s'
  congr
  · exact funext fun a => h.mem a trivial
  · exact funext fun x => h.fds x trivial

omit [DecidableEq φ] in
theorem everything_confined (next : Program φ Q υ) : Confined (everything φ) next where
  keeps _ _ := ⟨fun _ ha => absurd trivial ha, fun _ hx => absurd trivial hx⟩
  looks q s s' h := by
    rw [everything_same h]
    exact ⟨rfl, ((everything φ).same_equivalence).refl _⟩
  asks _ _ _ _ _ _ _ _ _ := ⟨trivial, fun _ _ _ _ => trivial⟩

omit [DecidableEq φ] in
theorem everything_within (m : Machine φ Q υ) : m.Within (everything φ) :=
  ⟨fun _ _ _ _ => ⟨trivial, fun _ _ _ _ => trivial⟩, fun _ _ _ _ _ _ => trivial⟩

/-- An activation does not depend on what was asked before it and what will be
answered after it. -/
theorem iterate_amid (hres : m.responses = []) (sqes : List (Fd × Request))
    (responses : List Response) (n : Nat) :
    ∃ k ≤ n, (Machine.step next)^[k] (m.elsewhere m.store sqes responses) =
      ((Machine.step next)^[n] m).elsewhere ((Machine.step next)^[n] m).store sqes responses := by
  obtain ⟨k, s', hk, heq, hs'⟩ := iterate_elsewhere (everything_confined next)
    (everything_within m) hres (((everything φ).same_equivalence).refl _) sqes responses n
  rw [← everything_same hs'] at heq
  exact ⟨k, hk, heq⟩

end Iterates

end Activations

end Coro
