import Arkio.AsyncIo
import Arkio.TcpAsync

/-!
# Submissions that fail

Every asynchronous entry point moves the user's callback into the closure of the
submission before it knows whether `add_sqe` takes it. A failed `add_sqe` drops
the closure, and the error branch then invokes the slot that was moved from. So
the callback is never told, at whatever step of the operation this happens.
-/
namespace SubmissionFailure

open Bindings Buffer SyncIo AsyncIo

variable {κ γ α : Type}

/-- The callback was invoked once, with the error of the submission. -/
def Reports (cb : κ) (e : ErrorCode) (es : List (Effect κ α)) : Prop :=
  calls es = [(cb, .error e)]

/-- An operation holds its callback while a request is outstanding. Once a
submission has failed nothing is outstanding, and the only effect there ever was
is the call of an empty slot. -/
structure Dropped (cb : κ) (p : Progress κ) : Prop where
  holds : ∀ req op, p.waiting = some (req, op) → op.cb = some cb
  silent : p.waiting ≠ none → p.effects = [] ∧ ∀ a ∈ p.attempts, ∃ tok, a.2 = .ok tok
  rejected : ∀ req e, (req, .error e) ∈ p.attempts → p.waiting = none ∧ p.effects = [.emptyCall]

/-- An activation of an operation that has not failed so far. -/
theorem dropped_run {cb : κ} {p : Progress κ} (heffects : p.effects = [])
    (hattempts : ∀ a ∈ p.attempts, ∃ tok, a.2 = .ok tok) {op : IoOp κ} (hcb : op.cb = some cb)
    (kind : IoOperation) (f : Fd) (b : List ConstBuffer) (answer : Result Nat) :
    Dropped cb (p.apply (run kind f b op answer)) := by
  have hold : ∀ req e, (req, .error e) ∉ p.attempts := by
    intro req e hmem
    obtain ⟨tok, htok⟩ := hattempts _ hmem
    cases htok
  by_cases h : op.locals.cond (bufferSize b) op.locals.doneSz = 0
  · rw [run_done h]
    refine ⟨by simp [Progress.apply], by simp [Progress.apply], fun req e hmem => ?_⟩
    exact absurd (by simpa [Progress.apply] using hmem) (hold req e)
  · cases answer with
    | ok tok =>
      rw [run_submitted h]
      refine ⟨?_, ?_, fun req e hmem => ?_⟩
      · intro req op' hw
        simp only [Progress.apply, Option.map_some, Option.bind_some, Option.some.injEq,
          Prod.mk.injEq] at hw
        rw [← hw.2]
        exact hcb
      · intro _
        refine ⟨by simp [Progress.apply, heffects], fun a ha => ?_⟩
        simp only [Progress.apply, Option.toList_some, List.mem_append, List.mem_singleton] at ha
        rcases ha with ha | rfl
        · exact hattempts a ha
        · exact ⟨tok, rfl⟩
      · exact absurd (by simpa [Progress.apply] using hmem) (hold req e)
    | error e =>
      rw [run_rejected h]
      exact ⟨by simp [Progress.apply], by simp [Progress.apply],
        by simp [Progress.apply, heffects]⟩

/-- A completion of an operation that has not failed so far. -/
theorem dropped_goOn {cb : κ} {p : Progress κ} (heffects : p.effects = [])
    (hattempts : ∀ a ∈ p.attempts, ∃ tok, a.2 = .ok tok) {op : IoOp κ} (hcb : op.cb = some cb)
    (kind : IoOperation) (f : Fd) (b : List ConstBuffer) (ret : Result Int)
    (answer : Result Nat) : Dropped cb (p.apply (goOn kind f b op ret answer)) := by
  have hover : ∀ effects, Dropped cb (p.apply ⟨f, none, none, effects⟩) := by
    intro effects
    refine ⟨by simp [Progress.apply], by simp [Progress.apply], fun req e hmem => ?_⟩
    obtain ⟨tok, htok⟩ := hattempts _ (by simpa [Progress.apply] using hmem)
    cases htok
  unfold goOn
  split
  · exact hover _
  · dsimp only
    split
    · exact hover _
    · refine dropped_run heffects hattempts ?_ kind _ b answer
      exact hcb

theorem Dropped.resume {cb : κ} {p : Progress κ} (hp : Dropped cb p) (kind : IoOperation)
    (r : Resume) : Dropped cb (p.resume kind r) := by
  unfold Progress.resume
  split
  · exact hp
  next req op hw =>
    obtain ⟨heffects, hattempts⟩ := hp.silent (by simp [hw])
    refine dropped_goOn ?_ ?_ (hp.holds req op hw) kind _ _ _ _
    · exact heffects
    · exact hattempts

theorem Dropped.drive {cb : κ} {p : Progress κ} (hp : Dropped cb p) (kind : IoOperation)
    (turns : List Resume) : Dropped cb (drive kind p turns) := by
  induction turns generalizing p with
  | nil => exact hp
  | cons r turns ih => exact ih (hp.resume kind r)

/-- Reads and writes: whichever submission fails, the first or a later one, the
callback is not invoked. -/
theorem io_unreported (kind : IoOperation) (f : Fd) (b : List ConstBuffer)
    (cond : CompletionCondition) (cb : κ) (mem : Memory) (answer : Result Nat)
    (turns : List Resume) {req : Request} {e : ErrorCode}
    (hfail : (req, .error e) ∈ (drive kind (start kind f b cond cb mem answer) turns).attempts) :
    calls (drive kind (start kind f b cond cb mem answer) turns).effects = [] := by
  have hstart : Dropped cb (start kind f b cond cb mem answer) :=
    dropped_run rfl (by simp) rfl kind f b answer
  rw [((hstart.drive kind turns).rejected req e hfail).2]
  rfl

/-- No entry point reports a failed submission, whatever the operation, its state
and the error. -/
theorem submission_failure_unreported (e : ErrorCode) (cb : κ) :
    (∀ (kind : IoOperation) (f : Fd) (b : List ConstBuffer) (cond : CompletionCondition)
      (mem : Memory) (answer : Result Nat) (turns : List Resume) (req : Request),
      (req, .error e) ∈ (drive kind (start kind f b cond cb mem answer) turns).attempts →
      ¬Reports cb e (drive kind (start kind f b cond cb mem answer) turns).effects) ∧
    (∀ (f : TcpAsync.Socket γ) (endpoint : TcpAsync.Address) (res : Int),
      ¬Reports cb e ((TcpAsync.connect f endpoint cb (.error e)).effects ++
        (TcpAsync.connect f endpoint cb (.error e)).completion res)) ∧
    (∀ (srv : TcpAsync.Socket γ) (res : Int),
      ¬Reports cb e ((TcpAsync.accept srv cb (.error e)).effects ++
        (TcpAsync.accept srv cb (.error e)).completion res)) ∧
    (∀ (srv : TcpAsync.Socket γ) (endpoint : TcpAsync.Address) (res : Int),
      ¬Reports cb e ((TcpAsync.acceptWithAddress srv endpoint cb (.error e)).effects ++
        (TcpAsync.acceptWithAddress srv endpoint cb (.error e)).completion res)) := by
  refine ⟨?_, ?_, ?_, ?_⟩
  · intro kind f b cond mem answer turns req hfail
    rw [Reports, io_unreported kind f b cond cb mem answer turns hfail]
    simp
  · intro f endpoint res
    simp [Reports, TcpAsync.connect, TcpAsync.Started.completion]
  · intro srv res
    simp [Reports, TcpAsync.accept, TcpAsync.Started.completion]
  · intro srv endpoint res
    simp [Reports, TcpAsync.acceptWithAddress, TcpAsync.run, TcpAsync.Started.completion,
      AsyncOp.yield]

/-- A read of four bytes gets two, and its second submission finds the ring full. -/
theorem submission_failure_unreported_second :
    let p := drive .read (start .read ⟨4, none⟩ [⟨100, 4, by decide⟩] transferAll 7
      (fun _ => 0) (.ok 0)) [⟨[⟨100, 4, by decide⟩], .transferred [1, 2], .error (asEc ENOBUFS)⟩]
    (⟨.read, 4, [⟨102, 2⟩], some 0⟩, .error (asEc ENOBUFS)) ∈ p.attempts ∧
      ¬Reports 7 (asEc ENOBUFS) p.effects :=
  ⟨by decide, (submission_failure_unreported (γ := Unit) (asEc ENOBUFS) 7).1 .read ⟨4, none⟩
    [⟨100, 4, by decide⟩] transferAll (fun _ => 0) (.ok 0) _ ⟨.read, 4, [⟨102, 2⟩], some 0⟩
    (by decide)⟩

/-- A `connect` whose submission finds the ring full never calls back. -/
theorem full_ring_connect_unreported :
    ¬∀ (f : TcpAsync.Socket Unit) (endpoint : TcpAsync.Address) (cb : Nat) (e : ErrorCode),
      Reports cb e (TcpAsync.connect f endpoint cb (.error e)).effects := by
  intro hall
  have hreport := hall ⟨3, ()⟩ ⟨4096, 16⟩ 7 (asEc ENOBUFS)
  simp [Reports, TcpAsync.connect] at hreport

end SubmissionFailure
