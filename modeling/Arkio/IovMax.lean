import Arkio.AsyncTransfers

/-!
# The limit on the iovecs of a request

The kernel rejects a request with more than `IOV_MAX` iovecs. Nothing in
`transform_to_iovecs` or in its callers limits their number, so the first
request of a transfer has one for every non-empty buffer that it touches, and
the transfer succeeds exactly when these are few enough: later requests have
no more of them.
-/
namespace IovMax

open Bindings Buffer SyncIo AsyncIo

/-- `IOV_MAX`. -/
def iovMax : Nat := 1024

def EINVAL : Nat := 22

/-- A kernel with the limit: it rejects a longer list of iovecs with `EINVAL`,
and transfers at least one byte, and no more than requested, for the others. -/
def Limits (x : Exchange) : Prop :=
  if iovMax < x.1.iov.length then x.2 = .failed EINVAL (by decide)
  else ∃ bytes, x.2 = .transferred bytes ∧ 0 < bytes.length ∧ bytes.length ≤ iovSize x.1.iov

/-- The number of non-empty buffers that the first `n` bytes of a sequence touch. -/
def buffersWithin : List ConstBuffer → Nat → Nat
  | [], _ => 0
  | b :: bseq, n =>
    if n = 0 then 0 else (if b.size = 0 then 0 else 1) + buffersWithin bseq (n - b.size)

@[simp] theorem buffersWithin_zero (bseq : List ConstBuffer) : buffersWithin bseq 0 = 0 := by
  cases bseq <;> rfl

/-- A whole sequence touches all its non-empty buffers. -/
theorem buffersWithin_of_le {bseq : List ConstBuffer} {n : Nat}
    (h : (addresses bseq).length ≤ n) :
    buffersWithin bseq n = (bseq.filter fun b => b.size ≠ 0).length := by
  induction bseq generalizing n with
  | nil => rfl
  | cons b bseq ih =>
    simp only [addresses_cons, List.length_append, ConstBuffer.length_addresses] at h
    have hi := ih (n := n - b.size) (by omega)
    by_cases hn : n = 0
    · have hzero : b.size = 0 := by omega
      rw [hn, Nat.zero_sub, buffersWithin_zero] at hi
      rw [hn, buffersWithin_zero, List.filter_cons_of_neg (by simp [hzero]), ← hi]
    · by_cases hzero : b.size = 0
      · rw [List.filter_cons_of_neg (by simp [hzero]), ← hi, buffersWithin, if_neg hn, if_pos hzero]
        omega
      · rw [List.filter_cons_of_pos (by simp [hzero]), List.length_cons, ← hi, buffersWithin,
          if_neg hn, if_neg hzero]
        omega

/-- A slice has no more iovecs than there are non-empty buffers up to its end. -/
theorem length_transformToIovecs_le (bseq : List ConstBuffer) (skip : Nat) {maxLen : Nat}
    (h : 0 < maxLen) :
    (transformToIovecs bseq skip maxLen).length ≤ buffersWithin bseq (skip + maxLen) := by
  induction bseq generalizing skip maxLen with
  | nil => simp [transformToIovecs]
  | cons b bseq ih =>
    have hne : skip + maxLen ≠ 0 := by omega
    simp only [transformToIovecs, buffersWithin, hne, if_false]
    split
    next hskip =>
      have hi := ih (skip - b.size) h
      have hsum : skip - b.size + maxLen = skip + maxLen - b.size := by omega
      rw [hsum] at hi
      omega
    next hskip =>
      have hone : b.size ≠ 0 := by omega
      rw [if_neg hone, List.length_cons, ConstBuffer.slice_size]
      split
      next => simp only [List.length_nil]; omega
      next hleft =>
        have hrest : 0 < maxLen - min (b.size - skip) maxLen := by omega
        have hi := ih 0 hrest
        have hsum : 0 + (maxLen - min (b.size - skip) maxLen) = skip + maxLen - b.size := by omega
        rw [hsum] at hi
        omega

/-- The first request has an iovec for each of them. -/
theorem length_transformToIovecs_zero {bseq : List ConstBuffer} {maxLen : Nat} (h : 0 < maxLen) :
    (transformToIovecs bseq 0 maxLen).length = buffersWithin bseq maxLen := by
  induction bseq generalizing maxLen with
  | nil => rfl
  | cons b bseq ih =>
    have hne : maxLen ≠ 0 := by omega
    simp only [transformToIovecs, buffersWithin, hne, if_false]
    split
    next hskip =>
      have hzero : b.size = 0 := by omega
      simp [hzero, ih h]
    next hskip =>
      have hone : b.size ≠ 0 := by omega
      rw [if_neg hone, List.length_cons, ConstBuffer.slice_size, Nat.sub_zero]
      split
      next hleft =>
        have hnone : maxLen - b.size = 0 := by omega
        rw [hnone, buffersWithin_zero]
        rfl
      next hleft =>
        have hrest : maxLen - min b.size maxLen = maxLen - b.size := by omega
        rw [hrest, ih (by omega)]
        omega

section Transfers

variable {κ : Type} {kind : IoOperation} {b : List ConstBuffer}

/-- The call has succeeded with all bytes, and no request was over the limit. -/
structure Completes (b : List ConstBuffer) (t : Trace) : Prop where
  ret : t.ret = some (.ok (bufferSize b))
  requests : ∀ req ∈ t.requests, req.iov.length ≤ iovMax

/-- `read` and `write` with `transfer_all` succeed, after finitely many system
calls, on every kernel with the limit. -/
def NeverLimited (kind : IoOperation) (b : List ConstBuffer) : Prop :=
  ∀ (f : Fd) (mem : Memory) (kernel : Stream' Response),
    (∀ n, ∀ x ∈ (kind.sync f b transferAll mem (kernel.take n)).exchanges (kernel.take n),
      Limits x) →
    ∃ n, Completes b (kind.sync f b transferAll mem (kernel.take n))

/-- The callback was told of all bytes, and no request was over the limit. -/
structure AsyncCompletes (b : List ConstBuffer) (a : Progress κ) : Prop where
  reports : a.reports = [.ok (bufferSize b)]
  requests : ∀ req ∈ a.requests, req.iov.length ≤ iovMax

/-- The asynchronous ones, when every submission succeeds. -/
def AsyncNeverLimited (cb : κ) (kind : IoOperation) (b : List ConstBuffer) : Prop :=
  ∀ (f : Fd) (mem : Memory) (tok : Nat) (turns : Stream' Resume),
    (∀ n, Undisturbed b (turns.take n)) →
    (∀ n, ∀ x ∈ (drive kind (start kind f b transferAll cb mem (.ok tok)) (turns.take n)).exchanges
      (turns.take n), Limits x) →
    ∃ n, AsyncCompletes b (drive kind (start kind f b transferAll cb mem (.ok tok)) (turns.take n))

theorem transferAll_eq_zero {s d : Nat} (h : d ≤ s) : transferAll s d = 0 ↔ d = s := by
  simp only [transferAll]
  split <;> omega

/-- Where the first request has few enough iovecs, so has every other. -/
theorem request_length_le (kind : IoOperation) (hb : buffersWithin b (bufferSize b) ≤ iovMax)
    (f : Fd) {d : Nat} (hd : d < bufferSize b) :
    (kind.request b transferAll f d).iov.length ≤ iovMax := by
  have hcond : transferAll (bufferSize b) d = bufferSize b - d := if_pos hd
  rw [IoOperation.request_iov, hcond]
  have hrest : 0 < bufferSize b - d := by omega
  have hle := length_transformToIovecs_le b d hrest
  have hsum : d + (bufferSize b - d) = bufferSize b := by omega
  rw [hsum] at hle
  omega

/-- The request of a round is answered by the first answer of the kernel. -/
theorem mem_exchanges_first {cond : CompletionCondition} {f : Fd} {mem : Memory} {d : Nat}
    (h : cond (bufferSize b) d ≠ 0) (r : Response) :
    (kind.request b cond f d, r) ∈ (kind.loop b cond f mem d [r]).exchanges [r] := by
  cases r with
  | failed errno pos =>
    rw [loop_failed h]
    exact List.mem_cons_self
  | transferred bytes =>
    by_cases heof : kind = .read ∧ bytes.length = 0
    · rw [loop_eof h heof]
      exact List.mem_cons_self
    · rw [loop_transferred h heof, exchanges_after]
      exact List.mem_cons_self

/-- From `d` bytes done on, by induction on what is left. -/
theorem loop_completes (hb : buffersWithin b (bufferSize b) ≤ iovMax) {left d : Nat}
    (hd : d + left = bufferSize b) (f : Fd) (mem : Memory) (kernel : Stream' Response)
    (hlimits : ∀ n, ∀ x ∈ (kind.loop b transferAll f mem d (kernel.take n)).exchanges
      (kernel.take n), Limits x) :
    ∃ n, Completes b (kind.loop b transferAll f mem d (kernel.take n)) := by
  induction left using Nat.strong_induction_on generalizing d f mem kernel with
  | _ left ih =>
    by_cases hleft : left = 0
    · have hmet : transferAll (bufferSize b) d = 0 :=
        (transferAll_eq_zero (by omega)).mpr (by omega)
      have hall : d = bufferSize b := by omega
      refine ⟨0, ?_⟩
      rw [loop_done hmet, hall]
      exact ⟨rfl, by simp⟩
    · have hask : transferAll (bufferSize b) d ≠ 0 := fun hmet => by
        have := (transferAll_eq_zero (by omega)).mp hmet
        omega
      have hreq := request_length_le kind hb f (d := d) (by omega)
      have hfirst := hlimits 1 _ (mem_exchanges_first hask kernel.head)
      rw [Limits, if_neg (by simpa using hreq)] at hfirst
      obtain ⟨bytes, hhead, hpos, hle⟩ := hfirst
      change kernel.head = _ at hhead
      have hmore : ¬(kind = .read ∧ bytes.length = 0) := fun heof => by omega
      have hsize := iovSize_slice b d (transferAll (bufferSize b) d)
      have hcond : transferAll (bufferSize b) d = bufferSize b - d := if_pos (by omega)
      simp only [IoOperation.request_iov] at hle
      have hlt := bufferSize_lt b
      have hwrap : (d + bytes.length) % sizeMod = d + bytes.length := Nat.mod_eq_of_lt (by omega)
      have hstep : ∀ n, kind.loop b transferAll f mem d (kernel.take (n + 1)) =
          (kind.loop b transferAll (f.feed bytes.length)
            (deliver kind (kind.request b transferAll f d).iov (.transferred bytes) mem)
            (d + bytes.length) (kernel.tail.take n)).after (kind.request b transferAll f d) := by
        intro n
        rw [Stream'.take_succ, hhead, loop_transferred hask hmore, hwrap]
      obtain ⟨n, hret, hall⟩ := ih (left - bytes.length) (by omega) (d := d + bytes.length)
        (by omega) (f.feed bytes.length)
        (deliver kind (kind.request b transferAll f d).iov (.transferred bytes) mem) kernel.tail
        (fun n x hx => by
          refine hlimits (n + 1) x ?_
          rw [hstep, Stream'.take_succ, exchanges_after]
          exact List.mem_cons_of_mem _ hx)
      refine ⟨n + 1, ?_⟩
      rw [hstep]
      refine ⟨hret, fun req hmem => ?_⟩
      obtain rfl | hmem := List.mem_cons.mp hmem
      · exact hreq
      · exact hall req hmem

/-- A kernel that only ever rejects the first request. -/
theorem loop_rejected (kind : IoOperation) (hb : iovMax < buffersWithin b (bufferSize b)) (f : Fd) (mem : Memory)
    (n : Nat) :
    let kernel : Stream' Response := Stream'.const (.failed EINVAL (by decide))
    (∀ x ∈ (kind.loop b transferAll f mem 0 (kernel.take n)).exchanges (kernel.take n),
        Limits x) ∧
      (kind.loop b transferAll f mem 0 (kernel.take n)).ret ≠ some (.ok (bufferSize b)) := by
  intro kernel
  have hpos : 0 < bufferSize b := by
    by_contra hzero
    have hnone : bufferSize b = 0 := by omega
    rw [hnone, buffersWithin_zero] at hb
    omega
  have hask : transferAll (bufferSize b) 0 ≠ 0 := fun hmet => by
    have := (transferAll_eq_zero (by omega)).mp hmet
    omega
  cases n with
  | zero =>
    rw [Stream'.take_zero, loop_blocked hask]
    exact ⟨by simp [Trace.exchanges], by simp⟩
  | succ n =>
    have hlength : (kind.request b transferAll f 0).iov.length =
        buffersWithin b (bufferSize b) := by
      have hcond : transferAll (bufferSize b) 0 = bufferSize b := if_pos hpos
      rw [IoOperation.request_iov, hcond, length_transformToIovecs_zero hpos]
    have hhead : kernel.head = .failed EINVAL (by decide) := rfl
    rw [Stream'.take_succ, hhead, loop_failed hask]
    refine ⟨?_, by simp⟩
    intro x hx
    simp only [Trace.exchanges, List.zip_cons_cons, List.zip_nil_left, List.mem_singleton] at hx
    rw [hx, Limits, if_pos (by rw [hlength]; exact hb)]

theorem neverLimited_iff : NeverLimited kind b ↔ buffersWithin b (bufferSize b) ≤ iovMax := by
  constructor
  · intro hall
    by_contra hover
    have hrejected := fun n => loop_rejected kind (b := b) (by omega) ⟨0, none⟩
      (fun _ => 0) n
    simp only [NeverLimited, IoOperation.sync_eq_loop] at hall
    obtain ⟨n, hcompletes⟩ := hall ⟨0, none⟩ (fun _ => 0) _ fun n => (hrejected n).1
    exact (hrejected n).2 hcompletes.ret
  · intro hb f mem kernel hlimits
    simp only [IoOperation.sync_eq_loop] at hlimits ⊢
    exact loop_completes hb (Nat.zero_add _) f mem kernel hlimits

/-- The asynchronous operations succeed when the blocking ones do. -/
theorem asyncNeverLimited_iff (cb : κ) : AsyncNeverLimited cb kind b ↔ NeverLimited kind b := by
  refine every_kernel_iff (Q := Completes b) ?_ fun h => ?_
  · intro f x
    simp only [Limits, Prod.map_fst, Prod.map_snd, view_iov, id_eq]
  · constructor
    · rintro ⟨hreports, hall⟩
      refine ⟨h.reports_ok_iff.mp hreports, fun req hreq => ?_⟩
      rw [← h.requests_eq] at hreq
      obtain ⟨req', hreq', rfl⟩ := List.mem_map.mp hreq
      rw [view_iov]
      exact hall req' hreq'
    · rintro ⟨hret, hall⟩
      refine ⟨h.reports_ok_iff.mpr hret, fun req hreq => ?_⟩
      have hmem := hall (view _ req) (by rw [← h.requests_eq]; exact List.mem_map_of_mem hreq)
      rwa [view_iov] at hmem

/-- Exactly when the number of buffers does not make a transfer fail: the bytes
that are transferred lie in at most `IOV_MAX` non-empty buffers. -/
theorem never_limited_iff (cb : κ) (kind : IoOperation) (b : List ConstBuffer) :
    (NeverLimited kind b ↔ buffersWithin b (bufferSize b) ≤ iovMax) ∧
      (AsyncNeverLimited cb kind b ↔ buffersWithin b (bufferSize b) ≤ iovMax) :=
  ⟨neverLimited_iff, (asyncNeverLimited_iff cb).trans neverLimited_iff⟩

/-- For a sequence that fits the address space these are all its non-empty buffers. -/
theorem never_limited_iff_of_lt (kind : IoOperation)
    (hsize : (addresses b).length < sizeMod) :
    NeverLimited kind b ↔ (b.filter fun b => b.size ≠ 0).length ≤ iovMax := by
  rw [neverLimited_iff, buffersWithin_of_le (by rw [bufferSize_of_lt hsize])]

/-- A sequence of 1025 buffers of one byte cannot be written. -/
theorem limited_by_number_of_buffers :
    ¬∀ (kind : IoOperation) (b : List ConstBuffer),
      NeverLimited kind b ∧ AsyncNeverLimited () kind b := by
  intro hall
  let one : ConstBuffer := ⟨4096, 1, by decide⟩
  have hlen : (addresses (List.replicate 1025 one)).length = 1025 := by
    rw [length_addresses, List.map_replicate, List.sum_replicate_nat]
    rfl
  have hle := (never_limited_iff_of_lt .write (by rw [hlen]; decide)).mp
    (hall .write (List.replicate 1025 one)).1
  rw [List.filter_replicate_of_pos (by decide), List.length_replicate] at hle
  exact absurd hle (by decide)

end Transfers

end IovMax
