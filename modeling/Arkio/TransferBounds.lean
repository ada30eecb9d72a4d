import Arkio.AsyncTransfers

/-!
# How much the built-in conditions transfer

`transfer_all`, `transfer_at_least(n)` and `transfer_exactly(n)` bound every
request and the whole transfer, whatever short transfers the kernel makes. The
subtractions of the source are unsigned: the checked twins below fail where one
of them would wrap, and they never fail.
-/
namespace TransferBounds

open Bindings Buffer SyncIo AsyncIo

/-- An unsigned subtraction that must not wrap. -/
def checkedSub (m n : Nat) : Option Nat := if n ≤ m then some (m - n) else none

theorem checkedSub_of_le {m n : Nat} (h : n ≤ m) : checkedSub m n = some (m - n) := if_pos h

/-- The built-in completion conditions. -/
inductive Builtin where
  | all
  | atLeast (n : Nat)
  | exactly (n : Nat)
  deriving DecidableEq, Repr

def Builtin.cond : Builtin → CompletionCondition
  | .all => transferAll
  | .atLeast n => transferAtLeast n
  | .exactly n => transferExactly n

/-- The conditions with their subtractions checked. -/
def Builtin.checked : Builtin → Nat → Nat → Option Nat
  | .all, bufferSz, done => if done < bufferSz then checkedSub bufferSz done else some 0
  | .atLeast n, bufferSz, done =>
    if done < min n bufferSz then checkedSub bufferSz done else some 0
  | .exactly n, bufferSz, done =>
    if done < min n bufferSz then checkedSub (min n bufferSz) done else some 0

/-- `transform_to_iovecs` with its subtractions checked: those of the two
counters, and the one of `subspan`. -/
def checkedIovecs : List ConstBuffer → Nat → Nat → Option (List Iovec)
  | [], _, _ => some []
  | b :: bseq, skip, maxLen =>
    if b.size ≤ skip then
      (checkedSub skip b.size).bind fun skip => checkedIovecs bseq skip maxLen
    else
      (checkedSub b.size skip).bind fun rest =>
        let size := if maxLen < rest then min rest maxLen else rest
        (checkedSub maxLen size).bind fun left =>
          if left = 0 then some [⟨b.data + skip, size⟩]
          else (checkedIovecs bseq 0 left).map (⟨b.data + skip, size⟩ :: ·)

/-- No subtraction of a built-in condition wraps. -/
theorem Builtin.checked_eq (c : Builtin) (bufferSz done : Nat) :
    c.checked bufferSz done = some (c.cond bufferSz done) := by
  cases c with
  | all =>
    simp only [Builtin.checked, Builtin.cond, transferAll]
    split
    next h => exact checkedSub_of_le (by omega)
    next => rfl
  | atLeast n =>
    simp only [Builtin.checked, Builtin.cond, transferAtLeast]
    split
    next h => exact checkedSub_of_le (by omega)
    next => rfl
  | exactly n =>
    simp only [Builtin.checked, Builtin.cond, transferExactly]
    split
    next h => exact checkedSub_of_le (by omega)
    next => rfl

/-- No subtraction of `transform_to_iovecs` wraps. -/
theorem checkedIovecs_eq (bseq : List ConstBuffer) (skip maxLen : Nat) :
    checkedIovecs bseq skip maxLen = some (transformToIovecs bseq skip maxLen) := by
  induction bseq generalizing skip maxLen with
  | nil => rfl
  | cons b bseq ih =>
    simp only [checkedIovecs, transformToIovecs]
    split
    next hskip => rw [checkedSub_of_le hskip, Option.bind_some, ih]
    next hskip =>
      have hsize : (if maxLen < b.size - skip then min (b.size - skip) maxLen
          else b.size - skip) = min (b.size - skip) maxLen := by
        split <;> omega
      rw [checkedSub_of_le (by omega), Option.bind_some, hsize, checkedSub_of_le (by omega),
        Option.bind_some]
      have hiov : toIovec (b.slice skip maxLen (by omega)) =
          ⟨b.data + skip, min (b.size - skip) maxLen⟩ := by
        simp [toIovec]
      rw [hiov, ConstBuffer.slice_size]
      split
      next => rfl
      next => rw [ih, Option.map_some]

/-- What an operation that stops by its condition reports at least. -/
def Builtin.least (c : Builtin) (s : Nat) : Nat :=
  match c with
  | .all => s
  | .atLeast n => min n s
  | .exactly n => min n s

/-- What an operation transfers at most. -/
def Builtin.most (c : Builtin) (s : Nat) : Nat :=
  match c with
  | .all => s
  | .atLeast _ => s
  | .exactly n => min n s

theorem Builtin.most_le (c : Builtin) (s : Nat) : c.most s ≤ s := by
  cases c <;> simp only [Builtin.most] <;> omega

/-- A condition that is met has seen its least. -/
theorem Builtin.least_le_of_cond {c : Builtin} {s done : Nat} (h : c.cond s done = 0) :
    c.least s ≤ done := by
  cases c with
  | all =>
    simp only [Builtin.cond, transferAll, Builtin.least] at h ⊢
    split at h <;> omega
  | atLeast n =>
    simp only [Builtin.cond, transferAtLeast, Builtin.least] at h ⊢
    split at h <;> omega
  | exactly n =>
    simp only [Builtin.cond, transferExactly, Builtin.least] at h ⊢
    split at h <;> omega

/-- A condition that is not met asks for no more than is missing to the most. -/
theorem Builtin.add_cond_le {c : Builtin} {s done : Nat} (h : done ≤ c.most s) :
    done + c.cond s done ≤ c.most s := by
  cases c with
  | all =>
    simp only [Builtin.cond, transferAll, Builtin.most] at h ⊢
    split <;> omega
  | atLeast n =>
    simp only [Builtin.cond, transferAtLeast, Builtin.most] at h ⊢
    split <;> omega
  | exactly n =>
    simp only [Builtin.cond, transferExactly, Builtin.most] at h ⊢
    split <;> omega

/-- Counts never go beyond the most that the condition allows. -/
theorem Builtin.unwrapped (c : Builtin) (b : List ConstBuffer) :
    Unwrapped b c.cond (c.most (bufferSize b)) := by
  have hle := c.most_le (bufferSize b)
  have hlt := bufferSize_lt b
  have hroom := bufferSize_le b
  refine ⟨by omega, by omega, fun d hd => ?_⟩
  have := c.add_cond_le hd
  omega

/-- The bounds on the traffic and on the outcome of an operation on a sequence
of `s` bytes: the requests, the responses to them, and the values reported. -/
structure Bounded (c : Builtin) (kind : IoOperation) (b : List ConstBuffer) (s : Nat)
    (requests : List Request) (responses : List Response) (reports : List (Result Nat)) :
    Prop where
  asks : ∀ i req, requests[i]? = some req →
    let done := moved ((requests.zip responses).take i)
    checkedIovecs b done (c.cond s done) = some req.iov ∧
      c.checked s done = some (c.cond s done) ∧
      1 ≤ iovSize req.iov ∧ done + iovSize req.iov ≤ s
  reports : ∀ n, .ok n ∈ reports → n = moved (requests.zip responses) ∧ n ≤ c.most s ∧
    (c.least s ≤ n ∨
      kind = .read ∧ (requests.zip responses).getLast?.map Prod.snd = some (.transferred []))
  total : moved (requests.zip responses) ≤ c.most s

/-- The blocking operations, from their bookkeeping. -/
theorem bounded_loop {c : Builtin} {kind : IoOperation} {b : List ConstBuffer} {s : Nat}
    (hs : (addresses b).length = s) (hsize : s < sizeMod) (f : Fd) (mem : Memory)
    (responses : List Response)
    (hfits : ∀ x ∈ (kind.loop b c.cond f mem 0 responses).exchanges responses, Fits x) :
    Bounded c kind b s (kind.loop b c.cond f mem 0 responses).requests responses
      (kind.loop b c.cond f mem 0 responses).ret.toList := by
  have hbs : bufferSize b = s := by rw [bufferSize_of_lt (by omega), hs]
  have hc := loop_counted (c.unwrapped b) f mem 0 responses (Nat.zero_le _) hfits
  rw [hbs] at hc
  have hmost := c.most_le s
  have hwithin := hc.within
  rw [Nat.zero_add] at hwithin
  constructor
  · intro i req hi done
    obtain ⟨hcond, hreq⟩ := hc.request i req hi
    rw [Nat.zero_add] at hcond hreq
    change c.cond (bufferSize b) done ≠ 0 at hcond
    rw [hbs] at hcond
    have hdone : done ≤ c.most s := by
      have hsplit := congrArg moved (List.take_append_drop i
        ((kind.loop b c.cond f mem 0 responses).exchanges responses))
      rw [moved_append] at hsplit
      change done + _ = _ at hsplit
      omega
    have hadd := c.add_cond_le hdone
    have hiov : req.iov = transformToIovecs b done (c.cond s done) := by
      rw [hreq, IoOperation.request_iov, hbs]
      rfl
    refine ⟨by rw [checkedIovecs_eq, hiov], c.checked_eq s done, ?_, ?_⟩
    · rw [hiov, iovSize_slice]
      omega
    · rw [hiov, iovSize_slice]
      omega
  · intro n hn
    rw [Option.mem_toList] at hn
    obtain ⟨hval, hwhy⟩ := hc.ret n hn
    rw [Nat.zero_add] at hval
    refine ⟨hval, by rw [hval]; exact hwithin, hwhy.imp ?_ id⟩
    intro hcond
    rw [hbs] at hcond
    exact c.least_le_of_cond hcond
  · exact hwithin

/-- Requests and exchanges that differ in the offset field, and of which some are
left out at the end, keep the bounds. -/
theorem Bounded.of_front {c : Builtin} {kind : IoOperation} {b : List ConstBuffer} {s : Nat}
    {f : Fd} {requests requests' : List Request} {responses responses' : List Response}
    {reports reports' : List (Result Nat)} (h : Bounded c kind b s requests responses reports)
    (hfront : requests'.map (view f) <+: requests)
    (hxs : (requests'.zip responses').map (Prod.map (view f) id) = requests.zip responses)
    (hreports : ∀ n, .ok n ∈ reports' → .ok n ∈ reports) :
    Bounded c kind b s requests' responses' reports' := by
  constructor
  · intro i req hi
    have hreq : requests[i]? = some (view f req) := by
      obtain ⟨more, rfl⟩ := hfront
      have hmap : (requests'.map (view f))[i]? = some (view f req) := by
        rw [List.getElem?_map, hi]
        rfl
      rw [List.getElem?_append_left (List.getElem?_eq_some_iff.mp hmap).1, hmap]
    have hasks := h.asks i (view f req) hreq
    rw [← hxs, ← List.map_take, moved_view, view_iov] at hasks
    exact hasks
  · intro n hn
    have hreport := h.reports n (hreports n hn)
    rw [← hxs, moved_view, last_response_view] at hreport
    exact hreport
  · have htotal := h.total
    rw [← hxs, moved_view] at htotal
    exact htotal

/-- The built-in conditions bound every transfer exactly: of the blocking and
of the asynchronous operations, under any schedule of short transfers, and also
where a submission of the asynchronous operation is rejected. -/
theorem transfers_bounded {κ : Type} (c : Builtin) (kind : IoOperation) (f : Fd)
    (b : List ConstBuffer) (mem : Memory) (hsize : (b.map ConstBuffer.size).sum < sizeMod) :
    (∀ responses : List Response,
      (∀ x ∈ (kind.sync f b c.cond mem responses).exchanges responses, Fits x) →
      Bounded c kind b (b.map ConstBuffer.size).sum
        (kind.sync f b c.cond mem responses).requests responses
        (kind.sync f b c.cond mem responses).ret.toList) ∧
    (∀ (cb : κ) (answer : Result Nat) (turns : List Resume), (∀ t ∈ turns, t.cell = b) →
      (∀ x ∈ (drive kind (start kind f b c.cond cb mem answer) turns).exchanges turns, Fits x) →
      Bounded c kind b (b.map ConstBuffer.size).sum
        (drive kind (start kind f b c.cond cb mem answer) turns).requests
        (turns.map Resume.response)
        (drive kind (start kind f b c.cond cb mem answer) turns).reports) := by
  constructor
  · intro responses hfits
    rw [IoOperation.sync_eq_loop] at hfits ⊢
    exact bounded_loop (length_addresses b) hsize f mem responses hfits
  · intro cb answer turns hkept hfits
    obtain hr | ⟨rs, hr⟩ := start_kept kind hkept f c.cond cb mem answer
    · have hxs := hr.exchanges_eq turns
      have hall := fits_view (f := f) hfits
      rw [hxs] at hall
      refine (bounded_loop (length_addresses b) hsize f mem _ hall).of_front ?_ hxs ?_
      · exact hr.requests_eq ▸ List.prefix_rfl
      · intro n hn
        exact Option.mem_toList.mpr (hr.reports_ok hn)
    · have hall := fits_view (f := f) hfits
      rw [hr.exchanges] at hall
      refine (bounded_loop (length_addresses b) hsize f mem _ hall).of_front hr.front
        hr.exchanges ?_
      intro n hn
      rw [hr.silent] at hn
      cases hn

/-- A read of exactly four of five bytes, in two short transfers. -/
theorem transfers_bounded_exactly :
    let b : List ConstBuffer := [⟨100, 3, by decide⟩, ⟨200, 2, by decide⟩]
    let responses : List Response := [.transferred [1], .transferred [2, 3, 4]]
    let c : Builtin := .exactly 4
    let t := IoOperation.read.sync ⟨4, none⟩ b c.cond (fun _ => 0) responses
    let a := drive .read (start .read ⟨4, none⟩ b c.cond () (fun _ => 0) (.ok 0))
      (undisturbed b responses)
    t.ret = some (.ok 4) ∧ t.requests.map (fun req => iovSize req.iov) = [4, 3] ∧
      Bounded c .read b 5 t.requests responses t.ret.toList ∧
      Bounded c .read b 5 a.requests responses a.reports := by
  intro b responses c t a
  obtain ⟨hsync, hasync⟩ := transfers_bounded (κ := Unit) c .read ⟨4, none⟩ b (fun _ => 0)
    (by decide)
  exact ⟨rfl, rfl, hsync responses (by decide),
    hasync () (.ok 0) (undisturbed b responses) (fun t ht => (undisturbed_spec b responses t ht).1)
      (by decide)⟩

end TransferBounds
