import Arkio.Walks
import Arkio.AsyncTransfers

/-!
# When transfers end

A kernel is the stream of its answers. It serves an operation when it transfers
something or fails as long as it is given something to transfer, and transfers
nothing when it is given no iovec. Whether an operation ends on every such
kernel depends on the counts of bytes done alone: an operation that never ends
is an endless walk of the counts, and the counts that can be reached are finite
in number.

A read ends when it gets nothing. A write just adds the nothing it wrote, so a
condition that still asks when the sequence is exhausted keeps it going for ever.
-/
namespace TransferEnds

open Bindings Buffer SyncIo AsyncIo Walks Relation

/-- Given at least one non-empty iovec the kernel transfers at least one byte or
fails, and given no iovec it returns 0. -/
def Serves (x : Exchange) : Prop :=
  if x.1.iov = [] then x.2 = .transferred []
  else
    match x.2 with
    | .failed _ _ => True
    | .transferred bytes =>
      0 < iovSize x.1.iov → 0 < bytes.length ∧ bytes.length ≤ iovSize x.1.iov

/-- No iovec of a slice is empty. -/
theorem transformToIovecs_pos {bseq : List ConstBuffer} {skip maxLen : Nat} (h : 0 < maxLen)
    {v : Iovec} (hv : v ∈ transformToIovecs bseq skip maxLen) : 0 < v.len := by
  induction bseq generalizing skip maxLen with
  | nil => simp [transformToIovecs] at hv
  | cons b bseq ih =>
    simp only [transformToIovecs] at hv
    split at hv
    next => exact ih h hv
    next hskip =>
      obtain hfirst | hrest := List.mem_cons.mp hv
      · rw [hfirst]
        simp only [toIovec, ConstBuffer.slice_size]
        omega
      · split at hrest
        next => cases hrest
        next hleft => exact ih (by omega) hrest

/-- A slice has no iovec exactly when it has no byte. -/
theorem transformToIovecs_eq_nil (bseq : List ConstBuffer) (skip : Nat) {maxLen : Nat}
    (h : 0 < maxLen) :
    transformToIovecs bseq skip maxLen = [] ↔
      iovSize (transformToIovecs bseq skip maxLen) = 0 := by
  constructor
  · intro hnil
    rw [hnil]
    rfl
  · intro hzero
    cases hiov : transformToIovecs bseq skip maxLen with
    | nil => rfl
    | cons v iov =>
      have hpos := transformToIovecs_pos (v := v) h (by rw [hiov]; exact List.mem_cons_self)
      rw [hiov] at hzero
      simp only [iovSize, List.map_cons, List.sum_cons] at hzero
      omega

section Counts

variable {kind : IoOperation} {b : List ConstBuffer} {cond : CompletionCondition}

/-- With `d` bytes done, a round of the operation that moves `n` bytes and goes on. -/
structure Round (kind : IoOperation) (b : List ConstBuffer) (cond : CompletionCondition)
    (d n : Nat) : Prop where
  asks : cond (bufferSize b) d ≠ 0
  moves : (0 < n ∧ n ≤ cond (bufferSize b) d ∧ n ≤ (addresses b).length - d) ∨
    (n = 0 ∧ kind = .write ∧ (addresses b).length ≤ d)

/-- What the count may become after a round: it is a `size_t`. -/
def Next (kind : IoOperation) (b : List ConstBuffer) (cond : CompletionCondition)
    (d d' : Nat) : Prop :=
  ∃ n, Round kind b cond d n ∧ d' = (d + n) % sizeMod

/-- A served request after which the operation goes on is a round. -/
theorem round_iff {f : Fd} {d : Nat} {bytes : List UInt8} (h : cond (bufferSize b) d ≠ 0) :
    Serves (kind.request b cond f d, .transferred bytes) ∧ ¬(kind = .read ∧ bytes.length = 0) ↔
      Round kind b cond d bytes.length := by
  have hpos : 0 < cond (bufferSize b) d := by omega
  have hsize := iovSize_slice b d (cond (bufferSize b) d)
  have hnil := transformToIovecs_eq_nil b d hpos
  by_cases hzero : iovSize (transformToIovecs b d (cond (bufferSize b) d)) = 0
  · have hfull : (addresses b).length ≤ d := by omega
    have hserves : Serves (kind.request b cond f d, .transferred bytes) ↔ bytes.length = 0 := by
      simp [Serves, hnil.mpr hzero]
    rw [hserves]
    constructor
    · rintro ⟨hlen, hread⟩
      refine ⟨h, .inr ⟨hlen, ?_, hfull⟩⟩
      cases kind with
      | read => exact absurd ⟨rfl, hlen⟩ hread
      | write => rfl
    · rintro ⟨-, ⟨hn, -, hle⟩ | ⟨hn, hwrite, -⟩⟩
      · omega
      · refine ⟨hn, ?_⟩
        rintro ⟨hread, -⟩
        rw [hwrite] at hread
        cases hread
  · have hroom : ¬(addresses b).length ≤ d := by omega
    have hserves : Serves (kind.request b cond f d, .transferred bytes) ↔
        0 < bytes.length ∧ bytes.length ≤ iovSize (transformToIovecs b d (cond (bufferSize b) d)) := by
      have hne : transformToIovecs b d (cond (bufferSize b) d) ≠ [] := fun hiov =>
        hzero (hnil.mp hiov)
      simp [Serves, hne, Nat.pos_of_ne_zero hzero]
    rw [hserves]
    constructor
    · rintro ⟨⟨hn, hle⟩, -⟩
      exact ⟨h, .inl ⟨hn, by omega, by omega⟩⟩
    · rintro ⟨-, ⟨hn, hask, hle⟩ | ⟨-, -, hfull⟩⟩
      · exact ⟨⟨hn, by omega⟩, fun hread => by omega⟩
      · exact absurd hfull hroom

/-- After `n` answers of the kernel the operation is still waiting. -/
def PendingFor (kind : IoOperation) (b : List ConstBuffer) (cond : CompletionCondition) (n : Nat)
    (f : Fd) (mem : Memory) (d : Nat) (kernel : Stream' Response) : Prop :=
  (kind.loop b cond f mem d (kernel.take n)).ret = none ∧
    ∀ x ∈ (kind.loop b cond f mem d (kernel.take n)).exchanges (kernel.take n), Serves x

theorem pendingFor_zero {f : Fd} {mem : Memory} {d : Nat} {kernel : Stream' Response} :
    PendingFor kind b cond 0 f mem d kernel ↔ cond (bufferSize b) d ≠ 0 := by
  constructor
  · rintro ⟨hret, -⟩ hcond
    rw [loop_done hcond] at hret
    cases hret
  · intro hcond
    rw [PendingFor, Stream'.take_zero, loop_blocked hcond]
    exact ⟨rfl, by simp [Trace.exchanges]⟩

/-- One answer later. -/
theorem pendingFor_succ {n : Nat} {f : Fd} {mem : Memory} {d : Nat} {kernel : Stream' Response} :
    PendingFor kind b cond (n + 1) f mem d kernel ↔
      ∃ bytes, kernel.head = .transferred bytes ∧ Round kind b cond d bytes.length ∧
        PendingFor kind b cond n (f.feed bytes.length)
          (deliver kind (kind.request b cond f d).iov (.transferred bytes) mem)
          ((d + bytes.length) % sizeMod) kernel.tail := by
  rw [PendingFor, Stream'.take_succ]
  constructor
  · rintro ⟨hret, hserves⟩
    have hcond : cond (bufferSize b) d ≠ 0 := by
      intro hcond
      rw [loop_done hcond] at hret
      cases hret
    cases hhead : kernel.head with
    | failed errno pos =>
      rw [hhead, loop_failed hcond] at hret
      cases hret
    | transferred bytes =>
      rw [hhead] at hret hserves
      have hmore : ¬(kind = .read ∧ bytes.length = 0) := by
        intro heof
        rw [loop_eof hcond heof] at hret
        cases hret
      rw [loop_transferred hcond hmore] at hret hserves
      rw [exchanges_after] at hserves
      refine ⟨bytes, rfl, ?_, hret, fun x hx => hserves x (List.mem_cons_of_mem _ hx)⟩
      exact (round_iff hcond).mp ⟨hserves _ List.mem_cons_self, hmore⟩
  · rintro ⟨bytes, hhead, hround, hret, hserves⟩
    obtain ⟨hfirst, hmore⟩ := (round_iff (f := f) hround.asks).mpr hround
    rw [hhead, loop_transferred hround.asks hmore, exchanges_after]
    refine ⟨hret, fun x hx => ?_⟩
    obtain rfl | hx := List.mem_cons.mp hx
    · exact hfirst
    · exact hserves x hx

/-- The operation never ends on some serving kernel. -/
def NeverEnds (kind : IoOperation) (b : List ConstBuffer) (cond : CompletionCondition)
    (d : Nat) : Prop :=
  ∃ f mem kernel, ∀ n, PendingFor kind b cond n f mem d kernel

/-- An operation that never ends walks the counts for ever. -/
theorem NeverEnds.endless {d : Nat} (h : NeverEnds kind b cond d) :
    Endless (Next kind b cond) d := by
  refine endless_of_invariant (P := NeverEnds kind b cond) h ?_
  rintro d ⟨f, mem, kernel, hpending⟩
  obtain ⟨bytes, hhead, hround, -⟩ := pendingFor_succ.mp (hpending 1)
  have hrest : ∀ n, PendingFor kind b cond n (f.feed bytes.length)
      (deliver kind (kind.request b cond f d).iov (.transferred bytes) mem)
      ((d + bytes.length) % sizeMod) kernel.tail := by
    intro n
    obtain ⟨bytes', hhead', -, hnext⟩ := pendingFor_succ.mp (hpending (n + 1))
    rw [hhead] at hhead'
    cases hhead'
    exact hnext
  exact ⟨_, ⟨_, _, kernel.tail, hrest⟩, bytes.length, hround, rfl⟩

/-- A walk of the counts is an operation that never ends, on any descriptor. -/
theorem exists_kernel_of_walk {w : ℕ → ℕ} (hw : ∀ i, Next kind b cond (w i) (w (i + 1))) (f : Fd)
    (mem : Memory) : ∃ kernel, ∀ n, PendingFor kind b cond n f mem (w 0) kernel := by
  choose moves hround hnext using hw
  let kernel : Stream' Response := fun i => .transferred (List.replicate (moves i) 0)
  have hall : ∀ n i f mem, PendingFor kind b cond n f mem (w i) (kernel.drop i) := by
    intro n
    induction n with
    | zero =>
      intro i f mem
      exact pendingFor_zero.mpr (hround i).asks
    | succ n ih =>
      intro i f mem
      refine pendingFor_succ.mpr ⟨List.replicate (moves i) 0, ?_, ?_, ?_⟩
      · rw [Stream'.head_drop]
        rfl
      · simpa using hround i
      · rw [Stream'.tail_drop', List.length_replicate, ← hnext i]
        exact ih (i + 1) _ _
  exact ⟨kernel, fun n => hall n 0 f mem⟩

theorem neverEnds_iff (d : Nat) : NeverEnds kind b cond d ↔ Endless (Next kind b cond) d := by
  constructor
  · exact NeverEnds.endless
  · rintro ⟨w, rfl, hw⟩
    obtain ⟨kernel, hkernel⟩ := exists_kernel_of_walk hw ⟨0, none⟩ (fun _ => 0)
    exact ⟨_, _, kernel, hkernel⟩

/-- The counts that can be reached are finite in number, so never to end is a lasso. -/
theorem endless_next_iff : Endless (Next kind b cond) 0 ↔ Lasso (Next kind b cond) 0 := by
  apply endless_iff_lasso
  refine (Set.finite_lt_nat sizeMod).subset ?_
  intro d hd
  obtain rfl | ⟨d', -, n, -, rfl⟩ := ReflTransGen.cases_tail hd
  · exact (by decide : 0 < sizeMod)
  · exact Nat.mod_lt _ (by decide)

end Counts

section Ends

variable {κ : Type} {kind : IoOperation} {b : List ConstBuffer} {cond : CompletionCondition}

/-- The blocking operation returns after finitely many system calls, on every
descriptor, memory and serving kernel. -/
def Ends (kind : IoOperation) (b : List ConstBuffer) (cond : CompletionCondition) : Prop :=
  ∀ (f : Fd) (mem : Memory) (kernel : Stream' Response),
    (∀ n, ∀ x ∈ (kind.sync f b cond mem (kernel.take n)).exchanges (kernel.take n), Serves x) →
    ∃ n, (kind.sync f b cond mem (kernel.take n)).ret ≠ none

/-- The asynchronous operation invokes its callback after finitely many
submissions, on every descriptor, memory and serving kernel that takes them. -/
def AsyncEnds (cb : κ) (kind : IoOperation) (b : List ConstBuffer)
    (cond : CompletionCondition) : Prop :=
  ∀ (f : Fd) (mem : Memory) (tok : Nat) (turns : Stream' Resume),
    (∀ n, Undisturbed b (turns.take n)) →
    (∀ n, ∀ x ∈ (drive kind (start kind f b cond cb mem (.ok tok)) (turns.take n)).exchanges
      (turns.take n), Serves x) →
    ∃ n, calls (drive kind (start kind f b cond cb mem (.ok tok)) (turns.take n)).effects ≠ []

theorem ends_iff : Ends kind b cond ↔ ¬NeverEnds kind b cond 0 := by
  constructor
  · rintro hends ⟨f, mem, kernel, hpending⟩
    simp only [Ends, IoOperation.sync_eq_loop] at hends
    obtain ⟨n, hn⟩ := hends f mem kernel fun n => (hpending n).2
    exact hn (hpending n).1
  · intro hnot f mem kernel hserves
    by_contra hno
    simp only [not_exists, not_not, IoOperation.sync_eq_loop] at hno hserves
    exact hnot ⟨f, mem, kernel, fun n => ⟨hno n, hserves n⟩⟩

/-- The asynchronous operations end when the blocking ones do. -/
theorem asyncEnds_iff (cb : κ) : AsyncEnds cb kind b cond ↔ Ends kind b cond := by
  refine every_kernel_iff ?_ fun h => h.calls_ne_nil_iff
  intro f x
  simp only [Serves, Prod.map_fst, Prod.map_snd, view_iov, id_eq]

/-- A short transfer that the condition and the sequence leave room for. The
count of bytes done is a `size_t`. -/
def Advances (b : List ConstBuffer) (cond : CompletionCondition) (d d' : Nat) : Prop :=
  ∃ n, 0 < n ∧ n ≤ cond (bufferSize b) d ∧ n ≤ (addresses b).length - d ∧ d' = (d + n) % sizeMod

/-- The exact condition under which every transfer ends. A sequence that fits
the address space must be read, or its condition must not ask for more once
short transfers it allows have exhausted the sequence. The count of a longer
sequence wraps: there it must not come back to where it was. -/
def AlwaysEnds (kind : IoOperation) (b : List ConstBuffer) (cond : CompletionCondition) : Prop :=
  ((addresses b).length < sizeMod → kind = .read ∨
    ¬(ReflTransGen (Advances b cond) 0 (addresses b).length ∧
      cond (bufferSize b) (addresses b).length ≠ 0)) ∧
  (sizeMod ≤ (addresses b).length → ¬Lasso (Advances b cond) 0)

theorem Advances.next {d d' : Nat} (h : Advances b cond d d') : Next kind b cond d d' := by
  obtain ⟨n, hn, hask, hroom, rfl⟩ := h
  exact ⟨n, ⟨by omega, .inl ⟨hn, hask, hroom⟩⟩, rfl⟩

/-- A round advances, or it is a write that has nothing left to send. -/
theorem Next.advances {d d' : Nat} (h : Next kind b cond d d') (hd : d < sizeMod) :
    Advances b cond d d' ∨ (d' = d ∧ kind = .write ∧ (addresses b).length ≤ d ∧
      cond (bufferSize b) d ≠ 0) := by
  obtain ⟨n, ⟨hask, ⟨hn, hle, hroom⟩ | ⟨rfl, hwrite, hfull⟩⟩, rfl⟩ := h
  · exact .inl ⟨n, hn, hle, hroom, rfl⟩
  · exact .inr ⟨by rw [Nat.add_zero, Nat.mod_eq_of_lt hd], hwrite, hfull, hask⟩

/-- The counts of a sequence that fits the address space grow up to its size. -/
theorem Advances.lt {d d' : Nat} (h : Advances b cond d d')
    (hlt : (addresses b).length < sizeMod) (hd : d ≤ (addresses b).length) :
    d < d' ∧ d' ≤ (addresses b).length := by
  obtain ⟨n, hn, -, hroom, rfl⟩ := h
  rw [Nat.mod_eq_of_lt (by omega)]
  omega

/-- Where the count cannot wrap, only a write with nothing left comes back to
where it was. -/
theorem lasso_next_iff_of_lt (hlt : (addresses b).length < sizeMod) :
    Lasso (Next kind b cond) 0 ↔ kind = .write ∧
      ReflTransGen (Advances b cond) 0 (addresses b).length ∧
      cond (bufferSize b) (addresses b).length ≠ 0 := by
  have hreach : ∀ {d}, ReflTransGen (Next kind b cond) 0 d →
      ReflTransGen (Advances b cond) 0 d ∧ d ≤ (addresses b).length := by
    intro d hd
    induction hd with
    | refl => exact ⟨.refl, Nat.zero_le _⟩
    | tail _ hr ih =>
      obtain ⟨hs, hle⟩ := ih
      obtain hadv | ⟨rfl, -⟩ := hr.advances (by omega)
      · exact ⟨hs.tail hadv, (hadv.lt hlt hle).2⟩
      · exact ⟨hs, hle⟩
  have hloop : ∀ {d d'}, d ≤ (addresses b).length → TransGen (Next kind b cond) d d' →
      d ≤ d' ∧ d' ≤ (addresses b).length ∧ (d' = d → kind = .write ∧
        d = (addresses b).length ∧ cond (bufferSize b) d ≠ 0) := by
    intro d d' hd hdd
    induction hdd with
    | single hr =>
      obtain hadv | ⟨rfl, hwrite, hfull, hask⟩ := hr.advances (by omega)
      · have := hadv.lt hlt hd
        exact ⟨by omega, this.2, fun heq => by omega⟩
      · exact ⟨Nat.le_refl _, hd, fun _ => ⟨hwrite, by omega, hask⟩⟩
    | tail _ hr ih =>
      obtain ⟨hge, hle, hsame⟩ := ih
      obtain hadv | ⟨rfl, -⟩ := hr.advances (by omega)
      · have := hadv.lt hlt hle
        exact ⟨by omega, this.2, fun heq => by omega⟩
      · exact ⟨hge, hle, hsame⟩
  constructor
  · rintro ⟨d, had, hdd⟩
    obtain ⟨hs, hle⟩ := hreach had
    obtain ⟨-, -, hsame⟩ := hloop hle hdd
    obtain ⟨hwrite, rfl, hask⟩ := hsame rfl
    exact ⟨hwrite, hs, hask⟩
  · rintro ⟨hwrite, hs, hask⟩
    have hstay : Next kind b cond (addresses b).length (addresses b).length :=
      ⟨0, ⟨hask, .inr ⟨rfl, hwrite, Nat.le_refl _⟩⟩, by rw [Nat.add_zero, Nat.mod_eq_of_lt hlt]⟩
    have hmono : Advances b cond ≤ Next kind b cond := fun _ _ h => h.next
    exact ⟨_, ReflTransGen.mono hmono _ _ hs, .single hstay⟩

/-- The count of a longer sequence never finds it exhausted. -/
theorem lasso_next_iff_of_le (hle : sizeMod ≤ (addresses b).length) :
    Lasso (Next kind b cond) 0 ↔ Lasso (Advances b cond) 0 := by
  have hpos : 0 < sizeMod := by decide
  constructor
  · refine Lasso.imp (P := fun d => d < sizeMod) hpos fun d d' hd hr => ?_
    obtain hadv | ⟨-, -, hfull, -⟩ := hr.advances hd
    · obtain ⟨n, -, -, -, hd'⟩ := id hadv
      exact ⟨hadv, by rw [hd']; exact Nat.mod_lt _ hpos⟩
    · omega
  · exact Lasso.imp (P := fun _ => True) trivial fun _ _ _ h => ⟨h.next, trivial⟩

theorem neverEnds_iff_not_alwaysEnds : NeverEnds kind b cond 0 ↔ ¬AlwaysEnds kind b cond := by
  rw [neverEnds_iff, endless_next_iff, AlwaysEnds]
  by_cases hlt : (addresses b).length < sizeMod
  · rw [lasso_next_iff_of_lt hlt]
    have hshort : ¬sizeMod ≤ (addresses b).length := by omega
    cases kind <;> simp [hlt, hshort]
  · rw [lasso_next_iff_of_le (by omega)]
    have hlong : sizeMod ≤ (addresses b).length := by omega
    simp [hlt, hlong]

/-- Exactly when transfers end, blocking or asynchronous, for any condition. -/
theorem transfers_end_iff (cb : κ) (kind : IoOperation) (b : List ConstBuffer)
    (cond : CompletionCondition) :
    (Ends kind b cond ↔ AlwaysEnds kind b cond) ∧
      (AsyncEnds cb kind b cond ↔ AlwaysEnds kind b cond) := by
  have hsync : Ends kind b cond ↔ AlwaysEnds kind b cond := by
    rw [ends_iff, neverEnds_iff_not_alwaysEnds, not_not]
  exact ⟨hsync, (asyncEnds_iff cb).trans hsync⟩

/-- A condition that always asks for one more byte keeps a write of one byte
going for ever. -/
theorem write_never_ends :
    ¬∀ (kind : IoOperation) (b : List ConstBuffer) (cond : CompletionCondition),
      Ends kind b cond ∧ AsyncEnds () kind b cond := by
  intro hall
  obtain ⟨hends, -⟩ := hall .write [⟨100, 1, by decide⟩] fun _ _ => 1
  refine ends_iff.mp hends ((neverEnds_iff 0).mpr ⟨fun i => min i 1, rfl, fun i => ?_⟩)
  cases i with
  | zero => exact ⟨1, ⟨by decide, .inl (by decide)⟩, by decide⟩
  | succ i =>
    have hone : ∀ k, min (k + 1) 1 = 1 := fun k => by omega
    simp only [hone]
    exact ⟨0, ⟨by decide, .inr (by decide)⟩, by decide⟩

end Ends

end TransferEnds
