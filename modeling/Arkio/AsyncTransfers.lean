import Mathlib.Data.Stream.Init
import Arkio.AsyncIo
import Arkio.Transfers

/-!
# The traffic of an asynchronous operation

An asynchronous operation whose submissions succeed and whose sequence is left
alone has the exchanges of the blocking operation with the same responses, and
its callback is told what the blocking operation returns. This module turns the
refinement into that form, in which every statement about the traffic and the
outcome of a blocking call carries over.
-/
namespace AsyncIo

open Bindings Buffer SyncIo

variable {κ : Type}

/-- The exchanges of an operation that met the given completions. -/
def Progress.exchanges (p : Progress κ) (turns : List Resume) : List Exchange :=
  p.requests.zip (turns.map Resume.response)

/-- What the callback was told. -/
def Progress.reports (p : Progress κ) : List (Result Nat) := (calls p.effects).map Prod.snd

/-- The turns of an operation that is left alone: the sequence keeps its value
and every submission succeeds. -/
def Undisturbed (b : List ConstBuffer) (turns : List Resume) : Prop :=
  ∀ t ∈ turns, t.cell = b ∧ ∃ tok, t.answer = .ok tok

/-- The completions with the given responses that leave the operation alone. -/
def undisturbed (b : List ConstBuffer) (responses : List Response) : List Resume :=
  responses.map fun r => ⟨b, r, .ok 0⟩

theorem undisturbed_spec (b : List ConstBuffer) (responses : List Response) :
    Undisturbed b (undisturbed b responses) := by
  intro t ht
  obtain ⟨r, -, rfl⟩ := List.mem_map.mp ht
  exact ⟨rfl, 0, rfl⟩

@[simp] theorem undisturbed_responses (b : List ConstBuffer) (responses : List Response) :
    (undisturbed b responses).map Resume.response = responses := by
  simp [undisturbed, Function.comp_def]

@[simp] theorem view_iov (f : Fd) (req : Request) : (view f req).iov = req.iov := by
  unfold view
  split <;> rfl

/-- From the start on, the operation refines the blocking loop. -/
theorem start_refines (kind : IoOperation) {b : List ConstBuffer} {turns : List Resume}
    (hturns : Undisturbed b turns) (f : Fd) (cond : CompletionCondition) (cb : κ) (mem : Memory)
    (tok : Nat) :
    Refines f cb ⟨f, mem, [], [], none⟩
      (drive kind (start kind f b cond cb mem (.ok tok)) turns)
      (kind.loop b cond f mem 0 (turns.map Resume.response)) :=
  drive_run hturns rfl _ ⟨some cb, ⟨cond, 0, []⟩⟩ rfl tok

/-- A submission was rejected after the traffic of the blocking loop with other
responses. -/
structure Halted (f : Fd) (a : Progress κ) (t : Trace) (turns : List Resume)
    (rs : List Response) : Prop where
  front : a.requests.map (view f) <+: t.requests
  exchanges : (a.exchanges turns).map (Prod.map (view f) id) = t.exchanges rs
  silent : a.reports = []

/-- From the start on, whatever `add_sqe` answers. -/
theorem start_kept (kind : IoOperation) {b : List ConstBuffer} {turns : List Resume}
    (hkept : ∀ t ∈ turns, t.cell = b) (f : Fd) (cond : CompletionCondition) (cb : κ)
    (mem : Memory) (answer : Result Nat) :
    Refines f cb ⟨f, mem, [], [], none⟩
        (drive kind (start kind f b cond cb mem answer) turns)
        (kind.loop b cond f mem 0 (turns.map Resume.response)) ∨
      ∃ rs, Halted f (drive kind (start kind f b cond cb mem answer) turns)
        (kind.loop b cond f mem 0 rs) turns rs := by
  obtain h | ⟨-, rs, made, h⟩ := drive_kept hkept (f := f) rfl ⟨f, mem, [], [], none⟩
    ⟨some cb, ⟨cond, 0, []⟩⟩ rfl answer
  · exact .inl h
  · refine .inr ⟨rs, ?_⟩
    have hmade : (drive kind (start kind f b cond cb mem answer) turns).requests.map (view f) =
        made := h.requests
    constructor
    · rw [hmade]
      exact h.front
    · rw [Progress.exchanges, ← List.zip_map_left, hmade]
      exact h.exchanges
    · exact congrArg (List.map Prod.snd) h.silent

section Traffic

variable {f : Fd} {cb : κ} {mem : Memory} {a : Progress κ} {t : Trace}

theorem Refines.requests_eq (h : Refines f cb ⟨f, mem, [], [], none⟩ a t) :
    a.requests.map (view f) = t.requests := by
  simpa [Progress.requests] using h.requests

/-- The exchanges are those of the blocking operation, up to the offset field. -/
theorem Refines.exchanges_eq (h : Refines f cb ⟨f, mem, [], [], none⟩ a t)
    (turns : List Resume) :
    (a.exchanges turns).map (Prod.map (view f) id) =
      t.exchanges (turns.map Resume.response) := by
  rw [Progress.exchanges, Trace.exchanges, ← h.requests_eq, List.zip_map_left]

/-- What is moved does not depend on the offset field. -/
@[simp] theorem moved_view (f : Fd) (xs : List Exchange) :
    moved (xs.map (Prod.map (view f) id)) = moved xs := by
  simp [moved, Function.comp_def]

theorem fits_view {f : Fd} {xs : List Exchange} (hfits : ∀ x ∈ xs, Fits x) :
    ∀ x ∈ xs.map (Prod.map (view f) id), Fits x := by
  intro x hx
  obtain ⟨y, hy, rfl⟩ := List.mem_map.mp hx
  simpa [Fits] using hfits y hy

theorem last_response_view (f : Fd) (xs : List Exchange) :
    (xs.map (Prod.map (view f) id)).getLast?.map Prod.snd = xs.getLast?.map Prod.snd := by
  rw [List.getLast?_map, Option.map_map]
  rfl

/-- The callback is told what the blocking operation returns. -/
theorem Refines.reports_eq (h : Refines f cb ⟨f, mem, [], [], none⟩ a t) :
    a.reports.map (Except.mapError ErrorCode.value) =
      t.ret.toList.map (Except.mapError ErrorCode.value) := by
  have heffects : a.effects.map verdict =
      t.ret.toList.map fun ret => some (cb, ret.mapError ErrorCode.value) := by
    simpa using h.effects
  have hcalls : (calls a.effects).map (fun c => (c.1, c.2.mapError ErrorCode.value)) =
      (a.effects.map verdict).filterMap id := by
    simp only [calls, List.map_filterMap, List.filterMap_map]
    apply List.filterMap_congr
    intro e _
    cases e <;> rfl
  have hsnd := congrArg (List.map Prod.snd) hcalls
  rw [heffects] at hsnd
  simpa [Progress.reports, List.map_map, Function.comp_def, List.filterMap_map] using hsnd

theorem Refines.reports_ok (h : Refines f cb ⟨f, mem, [], [], none⟩ a t) {n : Nat}
    (hn : .ok n ∈ a.reports) : t.ret = some (.ok n) := by
  have hmem : Except.ok n ∈ a.reports.map (Except.mapError ErrorCode.value) :=
    List.mem_map.mpr ⟨.ok n, hn, rfl⟩
  rw [h.reports_eq] at hmem
  cases hret : t.ret with
  | none => simp [hret] at hmem
  | some ret =>
    cases ret with
    | error e => simp [hret, Except.mapError] at hmem
    | ok m =>
      rw [hret] at hmem
      simp only [Option.toList_some, List.map_cons, List.map_nil, Except.mapError,
        List.mem_singleton, Except.ok.injEq] at hmem
      rw [hmem]

theorem Refines.reports_ok_iff (h : Refines f cb ⟨f, mem, [], [], none⟩ a t) {n : Nat} :
    a.reports = [.ok n] ↔ t.ret = some (.ok n) := by
  constructor
  · intro hreports
    exact h.reports_ok (by rw [hreports]; exact List.mem_cons_self)
  · intro hret
    have heq := h.reports_eq
    rw [hret] at heq
    cases hreports : a.reports with
    | nil => simp [hreports] at heq
    | cons r rs =>
      rw [hreports] at heq
      simp only [List.map_cons, Option.toList_some, List.map_nil, List.cons.injEq,
        List.map_eq_nil_iff] at heq
      obtain ⟨hr, rfl⟩ := heq
      cases r with
      | ok m => simpa [Except.mapError] using hr
      | error e => simp [Except.mapError] at hr

/-- The callback is invoked when the blocking operation returns. -/
theorem Refines.calls_ne_nil_iff (h : Refines f cb ⟨f, mem, [], [], none⟩ a t) :
    calls a.effects ≠ [] ↔ t.ret ≠ none := by
  have hlen := congrArg List.length h.reports_eq
  rw [List.length_map, List.length_map, Progress.reports, List.length_map] at hlen
  cases hret : t.ret with
  | none =>
    rw [hret] at hlen
    simp [List.eq_nil_of_length_eq_zero hlen]
  | some ret =>
    rw [hret] at hlen
    simp only [Option.toList_some, List.length_singleton] at hlen
    simp [List.ne_nil_of_length_eq_add_one hlen]

end Traffic

section Kernels

theorem take_map {α β : Type*} (g : α → β) (s : Stream' α) (n : ℕ) :
    (s.map g).take n = (s.take n).map g := by
  induction n generalizing s with
  | zero => rfl
  | succ n ih => rw [Stream'.take_succ, Stream'.take_succ, Stream'.tail_map, ih]; rfl

/-- A kernel is the stream of its answers. What the blocking operation achieves
on every kernel whose exchanges all meet `A`, the asynchronous one achieves too. -/
theorem every_kernel_iff {kind : IoOperation} {b : List ConstBuffer} {cond : CompletionCondition}
    {cb : κ} {A : Exchange → Prop} {Q : Trace → Prop} {R : Progress κ → Prop}
    (hA : ∀ f x, A (Prod.map (view f) id x) ↔ A x)
    (hQR : ∀ {f mem a t}, Refines f cb ⟨f, mem, [], [], none⟩ a t → (R a ↔ Q t)) :
    (∀ (f : Fd) (mem : Memory) (tok : Nat) (turns : Stream' Resume),
      (∀ n, Undisturbed b (turns.take n)) →
      (∀ n, ∀ x ∈ (drive kind (start kind f b cond cb mem (.ok tok)) (turns.take n)).exchanges
        (turns.take n), A x) →
      ∃ n, R (drive kind (start kind f b cond cb mem (.ok tok)) (turns.take n))) ↔
    (∀ (f : Fd) (mem : Memory) (kernel : Stream' Response),
      (∀ n, ∀ x ∈ (kind.sync f b cond mem (kernel.take n)).exchanges (kernel.take n), A x) →
      ∃ n, Q (kind.sync f b cond mem (kernel.take n))) := by
  have hview : ∀ f (xs : List Exchange), (∀ x ∈ xs.map (Prod.map (view f) id), A x) ↔ ∀ x ∈ xs, A x := by
    intro f xs
    rw [List.forall_mem_map]
    exact forall₂_congr fun x _ => hA f x
  constructor
  · intro hasync f mem kernel hA
    let turns : Stream' Resume := kernel.map fun r => ⟨b, r, .ok 0⟩
    have htake : ∀ n, turns.take n = undisturbed b (kernel.take n) := fun n => take_map _ _ n
    have hquiet : ∀ n, Undisturbed b (turns.take n) := by
      intro n
      rw [htake]
      exact undisturbed_spec b _
    have hresponses : ∀ n, (turns.take n).map Resume.response = kernel.take n := by
      intro n
      rw [htake, undisturbed_responses]
    have hr := fun n => start_refines kind (hquiet n) f cond cb mem 0
    simp only [hresponses, ← IoOperation.sync_eq_loop] at hr
    obtain ⟨n, hn⟩ := hasync f mem 0 turns hquiet (fun n => by
      rw [← hview f, (hr n).exchanges_eq, hresponses]
      exact hA n)
    exact ⟨n, (hQR (hr n)).mp hn⟩
  · intro hsync f mem tok turns hquiet hA
    have hr := fun n => start_refines kind (hquiet n) f cond cb mem tok
    simp only [← take_map, ← IoOperation.sync_eq_loop] at hr
    obtain ⟨n, hn⟩ := hsync f mem (turns.map Resume.response) (fun n => by
      have hxs := (hr n).exchanges_eq (turns.take n)
      rw [← take_map] at hxs
      rw [← hxs, hview]
      exact hA n)
    exact ⟨n, (hQR (hr n)).mpr hn⟩

end Kernels

end AsyncIo
