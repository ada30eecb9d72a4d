import Arkio.AsyncIo

/-!
# How long the buffer sequence is read

`locals_t` holds the buffer sequence by reference, and every activation of the
operation reads it again. This module says exactly when that goes unnoticed: two
runs with the same completions, between which the caller may do anything to the
sequence object after the initiating call, agree if and only if the operation
is over after its first completion whatever the sequence has become.
-/
namespace AsyncIo

open Bindings Buffer SyncIo

variable {κ : Type}

/-- Two sequences of one size whose slices differ. The second sequence of the
case `size ≤ skip` is longer than 2^64, so its size wraps. -/
theorem exists_slices_ne {skip size : Nat} (hskip : skip < sizeMod) (hsize : size < sizeMod)
    (maxLen : Nat) :
    ∃ b b' : List ConstBuffer, bufferSize b = size ∧ bufferSize b' = size ∧
      transformToIovecs b skip maxLen ≠ transformToIovecs b' skip maxLen := by
  have hmod : sizeMod = 2 ^ 64 := rfl
  by_cases h : skip < size
  · refine ⟨[⟨0, size, by omega⟩], [⟨1, size, by omega⟩], ?_, ?_, ?_⟩
    · simp [bufferSize, Nat.mod_eq_of_lt hsize]
    · simp [bufferSize, Nat.mod_eq_of_lt hsize]
    · have hno : ¬size ≤ skip := by omega
      simp [transformToIovecs, hno, toIovec]
  · refine ⟨[⟨0, size, by omega⟩], [⟨0, sizeMod - 1, by omega⟩, ⟨0, size + 1, by omega⟩], ?_, ?_, ?_⟩
    · simp [bufferSize, Nat.mod_eq_of_lt hsize]
    · simp only [bufferSize, List.foldl_cons, List.foldl_nil]
      rw [hmod] at hsize ⊢
      omega
    · have hle : size ≤ skip := by omega
      by_cases hlast : sizeMod - 1 ≤ skip
      · have hzero : skip - (sizeMod - 1) = 0 := by omega
        simp [transformToIovecs, hle, hlast, hzero]
      · simp [transformToIovecs, hle, hlast]

/-- The caller saw these completions, and every submission succeeded. What the
caller did to the sequence object in between is free. -/
structure Sees (responses : List Response) (turns : List Resume) : Prop where
  responses : turns.map Resume.response = responses
  accepted : ∀ t ∈ turns, ∃ tok, t.answer = .ok tok

/-- The requests, the memory and the calls of the callback are the same. -/
structure SameOutcome (p p' : Progress κ) : Prop where
  requests : p.requests = p'.requests
  mem : p.mem = p'.mem
  effects : p.effects = p'.effects

/-- Nothing the caller does to the sequence object after the initiating call
can be seen. -/
def SequenceIndependent (kind : IoOperation) (f : Fd) (b : List ConstBuffer)
    (cond : CompletionCondition) (cb : κ) (mem : Memory) (tok : Nat)
    (responses : List Response) : Prop :=
  ∀ turns turns', Sees responses turns → Sees responses turns' →
    SameOutcome (drive kind (start kind f b cond cb mem (.ok tok)) turns)
      (drive kind (start kind f b cond cb mem (.ok tok)) turns')

/-- The operation is over after its first completion, or has none. -/
def EndsAtFirst (kind : IoOperation) (b : List ConstBuffer) (cond : CompletionCondition)
    (responses : List Response) : Prop :=
  cond (bufferSize b) 0 = 0 ∨
    match responses with
    | [] => True
    | .failed _ _ :: _ => True
    | .transferred bytes :: _ => (kind = .read ∧ bytes.length = 0) ∨
        ∀ size < sizeMod, cond size (bytes.length % sizeMod) = 0

theorem requests_apply (p : Progress κ) (turn : Turn κ) :
    ∃ more, (p.apply turn).requests = p.requests ++ more := by
  simp only [Progress.requests, Progress.apply, List.filterMap_append]
  exact ⟨_, rfl⟩

theorem requests_resume (kind : IoOperation) (p : Progress κ) (r : Resume) :
    ∃ more, (p.resume kind r).requests = p.requests ++ more := by
  unfold Progress.resume
  split
  · exact ⟨[], by simp⟩
  · exact requests_apply _ _

/-- Later completions only add requests. -/
theorem requests_drive (kind : IoOperation) (p : Progress κ) (turns : List Resume) :
    ∃ more, (drive kind p turns).requests = p.requests ++ more := by
  induction turns generalizing p with
  | nil => exact ⟨[], by simp⟩
  | cons t turns ih =>
    obtain ⟨more, hmore⟩ := requests_resume kind p t
    obtain ⟨more', hmore'⟩ := ih (p.resume kind t)
    exact ⟨more ++ more', by rw [drive_cons, hmore', hmore, List.append_assoc]⟩

/-- The first completion ends the operation, in a way that depends on the
response only. -/
theorem EndsAtFirst.goOn_eq {kind : IoOperation} {b : List ConstBuffer}
    {cond : CompletionCondition} {response : Response} {responses : List Response}
    (h : EndsAtFirst kind b cond (response :: responses)) (hnow : cond (bufferSize b) 0 ≠ 0)
    (f : Fd) (op : IoOp κ) (hcond : op.locals.cond = cond) (hdone : op.locals.doneSz = 0) :
    ∃ fd effects, ∀ cell answer,
      goOn kind f cell op (toResult response.res) answer = ⟨fd, none, none, effects⟩ := by
  replace h := h.resolve_left hnow
  cases response with
  | failed errno pos => exact ⟨f, _, fun cell answer => goOn_failed errno pos⟩
  | transferred bytes =>
    by_cases heof : kind = .read ∧ bytes.length = 0
    · exact ⟨f, _, fun cell answer => goOn_eof heof⟩
    · have hmet := h.resolve_left heof
      refine ⟨f.feed bytes.length, invoke op.cb (.ok (op.advance bytes.length).locals.doneSz),
        fun cell answer => ?_⟩
      rw [goOn_transferred heof, run_done]
      · rfl
      simpa [IoOp.advance, hcond, hdone] using hmet _ (bufferSize_lt cell)

/-- An operation that ends at its first completion does not see the sequence
again. -/
theorem EndsAtFirst.independent {kind : IoOperation} {b : List ConstBuffer}
    {cond : CompletionCondition} {responses : List Response}
    (h : EndsAtFirst kind b cond responses) (f : Fd) (cb : κ) (mem : Memory) (tok : Nat) :
    SequenceIndependent kind f b cond cb mem tok responses := by
  intro turns turns' hsees hsees'
  by_cases hnow : cond (bufferSize b) 0 = 0
  · have hidle : (start kind f b cond cb mem (.ok tok)).waiting = none := by
      rw [start, run_done hnow]
      rfl
    rw [drive_idle kind hidle, drive_idle kind hidle]
    exact ⟨rfl, rfl, rfl⟩
  · cases responses with
    | nil =>
      have hnil : turns = [] := by simpa using hsees.responses
      have hnil' : turns' = [] := by simpa using hsees'.responses
      rw [hnil, hnil']
      exact ⟨rfl, rfl, rfl⟩
    | cons response responses =>
      let op : IoOp κ := ⟨some cb, ⟨cond, 0, []⟩⟩
      obtain ⟨fd, effects, hgo⟩ := h.goOn_eq hnow f (op.submitted kind f b) rfl rfl
      have hend : ∀ turns, Sees (response :: responses) turns →
          drive kind (start kind f b cond cb mem (.ok tok)) turns = Progress.apply
            ⟨f, deliver kind (op.request kind f b).iov response mem,
              [(op.request kind f b, .ok tok)], [], none⟩ ⟨fd, none, none, effects⟩ := by
        intro turns hsees
        have hmap := hsees.responses
        cases turns with
        | nil => simp at hmap
        | cons t turns =>
          obtain ⟨ht, -⟩ := List.cons.inj hmap
          rw [drive_cons, start, resume_submitted hnow, ht, hgo, drive_idle kind (by rfl)]
          rfl
      rw [hend turns hsees, hend turns' hsees']
      exact ⟨rfl, rfl, rfl⟩

/-- The two requests that every run with a first transfer has made by its second
submission. -/
theorem second_request {kind : IoOperation} {f : Fd} {b cell : List ConstBuffer}
    {cond : CompletionCondition} {bytes : List UInt8} (cb : κ) (mem : Memory) (tok : Nat)
    (hnow : cond (bufferSize b) 0 ≠ 0) (hmore : ¬(kind = .read ∧ bytes.length = 0))
    (hnext : cond (bufferSize cell) (bytes.length % sizeMod) ≠ 0) (turns : List Resume) :
    ∃ first second more, (drive kind (start kind f b cond cb mem (.ok tok))
      (⟨cell, .transferred bytes, .ok 0⟩ :: turns)).requests = first :: second :: more ∧
      second.iov = transformToIovecs cell (bytes.length % sizeMod)
        (cond (bufferSize cell) (bytes.length % sizeMod)) := by
  let op : IoOp κ := ⟨some cb, ⟨cond, 0, []⟩⟩
  let next : IoOp κ := (op.submitted kind f b).advance bytes.length
  have hdone : next.locals.doneSz = bytes.length % sizeMod := by
    simp [next, op, IoOp.advance, IoOp.submitted]
  have hcond : next.locals.cond (bufferSize cell) next.locals.doneSz ≠ 0 := by
    rw [hdone]
    exact hnext
  obtain ⟨more, hmore'⟩ := requests_drive kind
    ((start kind f b cond cb mem (.ok tok)).resume kind ⟨cell, .transferred bytes, .ok 0⟩) turns
  refine ⟨op.request kind f b, next.request kind (f.feed bytes.length) cell, more, ?_, ?_⟩
  · rw [drive_cons, hmore', start, resume_submitted hnow, goOn_transferred hmore,
      run_submitted hcond]
    simp [Progress.requests, Progress.apply, op, next]
  · simp only [IoOp.request]
    rw [hdone]
    rfl

/-- The exact condition under which the reference to the sequence goes unnoticed. -/
theorem sequence_independent_iff (kind : IoOperation) (f : Fd) (b : List ConstBuffer)
    (cond : CompletionCondition) (cb : κ) (mem : Memory) (tok : Nat)
    (responses : List Response) :
    SequenceIndependent kind f b cond cb mem tok responses ↔
      EndsAtFirst kind b cond responses := by
  refine ⟨fun hind => ?_, fun hends => hends.independent f cb mem tok⟩
  by_contra hno
  simp only [EndsAtFirst, not_or] at hno
  obtain ⟨hnow, hno⟩ := hno
  cases responses with
  | nil => exact hno trivial
  | cons response responses =>
    cases response with
    | failed errno pos => exact hno trivial
    | transferred bytes =>
      simp only [not_or, not_forall] at hno
      obtain ⟨hmore, size, hsize, hcond⟩ := hno
      have hskip : bytes.length % sizeMod < sizeMod := Nat.mod_lt _ (by decide)
      obtain ⟨cell, cell', hcell, hcell', hne⟩ :=
        exists_slices_ne hskip hsize (cond size (bytes.length % sizeMod))
      let rest : List Resume := responses.map fun r => ⟨[], r, .ok 0⟩
      have hsees : ∀ cell, Sees (.transferred bytes :: responses)
          (⟨cell, .transferred bytes, .ok 0⟩ :: rest) := by
        intro cell
        refine ⟨by simp [rest, Function.comp_def], fun t ht => ⟨0, ?_⟩⟩
        rcases List.mem_cons.mp ht with rfl | ht
        · rfl
        · obtain ⟨r, -, rfl⟩ := List.mem_map.mp ht
          rfl
      obtain ⟨_, second, _, hreq, hiov⟩ := second_request (f := f) cb mem tok hnow hmore
        (by rw [hcell]; exact hcond) rest
      obtain ⟨_, second', _, hreq', hiov'⟩ := second_request (f := f) cb mem tok hnow hmore
        (by rw [hcell']; exact hcond) rest
      have hsame := (hind _ _ (hsees cell) (hsees cell')).requests
      rw [hreq, hreq'] at hsame
      simp only [List.cons.injEq] at hsame
      rw [hsame.2.1, hiov', hcell, hcell'] at hiov
      exact hne hiov.symm

/-- A read of four bytes whose first transfer is short: it goes on if the caller
keeps the sequence, and stops at two bytes if the temporary has died. -/
theorem short_read_sees_sequence :
    ¬SequenceIndependent .read ⟨4, none⟩ [⟨100, 4, by decide⟩] transferAll () (fun _ => 0) 0
      [.transferred [1, 2]] := by
  intro hind
  have hsame := (hind [⟨[⟨100, 4, by decide⟩], .transferred [1, 2], .ok 1⟩]
    [⟨[], .transferred [1, 2], .ok 1⟩] ⟨rfl, by simp⟩ ⟨rfl, by simp⟩).requests
  revert hsame
  decide

end AsyncIo
