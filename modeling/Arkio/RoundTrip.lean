import Arkio.Devices

/-!
# What is written is read back

Any number of writes to a descriptor and then any number of reads, each with
buffers of its own, each cut by the kernel as it likes. The bytes of the reads
are the bytes of the writes in the same order, and the offset of a seekable
descriptor counts both. The argument is made once, for any device that is a
stream, and the step from one exchange to a call is by induction on the loop.
-/
namespace RoundTrip

open Bindings Buffer SyncIo Devices

/-- A call: the sequence, the memory it finds and the answers of the kernel. -/
structure Call where
  b : List ConstBuffer
  mem : Memory
  responses : List Response

/-- What `sync::read(f, b)` or `sync::write(f, b)` does, with `transfer_all`. -/
def Call.trace (c : Call) (kind : IoOperation) (f : Fd) : Trace :=
  kind.sync f c.b transferAll c.mem c.responses

/-- The bytes of the sequence, all that `buffer_size` counts. -/
def Call.bytes (c : Call) (mem : Memory) : List UInt8 := (content mem c.b).take (bufferSize c.b)

/-- A write succeeds, a read returns. -/
def Stops (kind : IoOperation) (ret : Option (Result Nat)) : Prop :=
  match kind with
  | .write => ∃ n, ret = some (.ok n)
  | .read => ret ≠ none

/-- One call after another on a descriptor and the device behind it, whose
answers these are. What the caller does to the memory in between is free. -/
inductive Calls {σ : Type*} (serve : Memory → σ → Exchange → Option σ) (kind : IoOperation) :
    Fd → σ → List (Call × Trace) → Fd → σ → Prop where
  | done {f : Fd} {s : σ} : Calls serve kind f s [] f s
  | call {f f' : Fd} {s s' s'' : σ} {c : Call} {t : Trace} {ps : List (Call × Trace)} :
      t = c.trace kind f → Stops kind t.ret →
      (t.exchanges c.responses).foldlM (serve c.mem) s = some s' →
      Calls serve kind t.fd s' ps f' s'' → Calls serve kind f s ((c, t) :: ps) f' s''

/-- The size of all sequences together. -/
def total (ps : List (Call × Trace)) : Nat := (ps.map fun p => bufferSize p.1.b).sum

/-- What the writes found in their buffers. -/
def written (ps : List (Call × Trace)) : List UInt8 := ps.flatMap fun p => p.1.bytes p.1.mem

/-- What the reads left in theirs. -/
def readBack (ps : List (Call × Trace)) : List UInt8 := ps.flatMap fun p => p.1.bytes p.2.mem

@[simp] theorem total_cons (p : Call × Trace) (ps : List (Call × Trace)) :
    total (p :: ps) = bufferSize p.1.b + total ps := by
  simp [total]

@[simp] theorem written_cons (p : Call × Trace) (ps : List (Call × Trace)) :
    written (p :: ps) = p.1.bytes p.1.mem ++ written ps := rfl

@[simp] theorem readBack_cons (p : Call × Trace) (ps : List (Call × Trace)) :
    readBack (p :: ps) = p.1.bytes p.2.mem ++ readBack ps := rfl

@[simp] theorem Call.length_bytes (c : Call) (mem : Memory) :
    (c.bytes mem).length = bufferSize c.b := by
  rw [Call.bytes, List.length_take, length_content]
  exact Nat.min_eq_left (bufferSize_le c.b)

theorem length_written (ps : List (Call × Trace)) : (written ps).length = total ps := by
  induction ps with
  | nil => rfl
  | cons p ps ih => simp [ih]

/-- `transfer_all` never lets the count wrap. -/
theorem unwrapped_transferAll (b : List ConstBuffer) :
    Unwrapped b transferAll (bufferSize b) := by
  refine unwrapped_of_cond fun d hd => ?_
  rw [transferAll]
  split <;> omega

section Loop

variable {σ : Type*} {serve : Memory → σ → Exchange → Option σ}
  {Holds Offers : List UInt8 → Fd → σ → Prop} {b : List ConstBuffer} {cond : CompletionCondition}

/-- A call fails only because the kernel did. -/
theorem exists_failed_of_error {kind : IoOperation} {e : ErrorCode} (f : Fd) (mem : Memory)
    (d : Nat) (rs : List Response) (he : (kind.loop b cond f mem d rs).ret = some (.error e)) :
    ∃ x ∈ (kind.loop b cond f mem d rs).exchanges rs, ∃ errno pos, x.2 = .failed errno pos := by
  revert he
  refine loop_induction (P := fun _ _ _ rs t => t.ret = some (.error e) →
    ∃ x ∈ t.exchanges rs, ∃ errno pos, x.2 = .failed errno pos) ?_ ?_ ?_ ?_ ?_ f mem d rs
  · intro f mem d rs _ he
    simp at he
  · intro f mem d _ he
    simp at he
  · intro f mem d errno pos rs _ _
    exact ⟨_, List.mem_cons_self, errno, pos, rfl⟩
  · intro f mem d rs _ _ he
    simp at he
  · intro f mem d bytes rs t _ _ ih he
    obtain ⟨x, hx, hfailed⟩ := ih he
    exact ⟨x, by rw [exchanges_after]; exact List.mem_cons_of_mem _ hx, hfailed⟩

/-- Writing appends to the stream what the kernel accepts. -/
theorem loop_holds (hdev : StreamDevice serve Holds Offers) (f : Fd) (mem : Memory) (d : Nat)
    (rs : List Response) {w : List UInt8} {s s' : σ} (hw : Holds w f s)
    (hserve : ((IoOperation.write.loop b cond f mem d rs).exchanges rs).foldlM (serve mem) s =
      some s') :
    (∀ x ∈ (IoOperation.write.loop b cond f mem d rs).exchanges rs, Fits x) ∧
      Holds (w ++ ((IoOperation.write.loop b cond f mem d rs).exchanges rs).flatMap (accepted mem))
        (IoOperation.write.loop b cond f mem d rs).fd s' := by
  revert w s
  refine fun {w s} => loop_induction (P := fun f mem _ rs t => ∀ w s, Holds w f s →
    (t.exchanges rs).foldlM (serve mem) s = some s' → (∀ x ∈ t.exchanges rs, Fits x) ∧
      Holds (w ++ (t.exchanges rs).flatMap (accepted mem)) t.fd s') ?_ ?_ ?_ ?_ ?_ f mem d rs w s
  · intro f mem d rs _ w s hw hserve
    obtain rfl : s = s' := by simpa [Trace.exchanges] using hserve
    simpa [Trace.exchanges] using hw
  · intro f mem d _ w s hw hserve
    obtain rfl : s = s' := by simpa [Trace.exchanges] using hserve
    simpa [Trace.exchanges] using hw
  · intro f mem d errno pos rs _ w s hw hserve
    have hstep := hdev.write hw rfl rfl (by simpa [Trace.exchanges] using hserve)
    simpa [Trace.exchanges] using hstep
  · intro f mem d rs _ hread
    cases hread
  · intro f mem d bytes rs t _ _ ih w s hw hserve
    rw [exchanges_after, List.foldlM_cons] at hserve
    obtain ⟨s₁, hs₁, hserve⟩ := Option.bind_eq_some_iff.mp hserve
    obtain ⟨hfits, hheld⟩ := hdev.write hw rfl rfl hs₁
    obtain ⟨hrest, hholds⟩ := ih _ s₁ hheld hserve
    rw [exchanges_after, List.flatMap_cons, ← List.append_assoc]
    exact ⟨List.forall_mem_cons.mpr ⟨hfits, hrest⟩, hholds⟩

/-- Reading takes from the front of the stream what the kernel delivers. -/
theorem loop_takes (hdev : StreamDevice serve Holds Offers) (f : Fd) (mem m : Memory) (d : Nat)
    (rs : List Response) {w : List UInt8} {s s' : σ} (hw : Offers w f s)
    (hserve : ((IoOperation.read.loop b cond f mem d rs).exchanges rs).foldlM (serve m) s =
      some s') :
    ∃ w', ((IoOperation.read.loop b cond f mem d rs).exchanges rs).foldlM takeFront w = some w' ∧
      Offers w' (IoOperation.read.loop b cond f mem d rs).fd s' := by
  revert w s
  refine fun {w s} => loop_induction (P := fun f _ _ rs t => ∀ w s, Offers w f s →
    (t.exchanges rs).foldlM (serve m) s = some s' →
      ∃ w', (t.exchanges rs).foldlM takeFront w = some w' ∧ Offers w' t.fd s')
    ?_ ?_ ?_ ?_ ?_ f mem d rs w s
  · intro f mem d rs _ w s hw hserve
    obtain rfl : s = s' := by simpa [Trace.exchanges] using hserve
    exact ⟨w, rfl, hw⟩
  · intro f mem d _ w s hw hserve
    obtain rfl : s = s' := by simpa [Trace.exchanges] using hserve
    exact ⟨w, rfl, hw⟩
  · intro f mem d errno pos rs _ w s hw hserve
    have hstep := hdev.read hw rfl rfl (by simpa [Trace.exchanges] using hserve)
    simpa [Trace.exchanges] using hstep
  · intro f mem d rs _ _ w s hw hserve
    have hstep := hdev.read hw rfl rfl (by simpa [Trace.exchanges] using hserve)
    simpa [Trace.exchanges] using hstep
  · intro f mem d bytes rs t _ _ ih w s hw hserve
    rw [exchanges_after, List.foldlM_cons] at hserve
    obtain ⟨s₁, hs₁, hserve⟩ := Option.bind_eq_some_iff.mp hserve
    obtain ⟨w₁, hw₁, hoffers⟩ := hdev.read hw rfl rfl hs₁
    obtain ⟨w', hw', hoffers'⟩ := ih w₁ s₁ hoffers hserve
    refine ⟨w', ?_, hoffers'⟩
    rw [exchanges_after, List.foldlM_cons, hw₁]
    exact hw'

/-- What a run of exchanges takes off the front of a stream. -/
theorem foldlM_takeFront {w w' : List UInt8} {xs : List Exchange}
    (h : xs.foldlM takeFront w = some w') :
    w = delivered xs ++ w' ∧ (∀ x ∈ xs, Fits x ∧ ∃ bytes, x.2 = .transferred bytes) ∧
      (xs.getLast?.map Prod.snd = some (.transferred []) → w' = []) := by
  induction xs generalizing w with
  | nil =>
    obtain rfl : w = w' := by simpa using h
    simp
  | cons x xs ih =>
    rw [List.foldlM_cons] at h
    obtain ⟨w₁, hw₁, h⟩ := Option.bind_eq_some_iff.mp h
    obtain ⟨hanswer, hfits, hw, hend⟩ := takeFront_eq_some hw₁
    obtain ⟨hrest, hall, hlast⟩ := ih h
    refine ⟨by rw [hw, hrest]; simp, List.forall_mem_cons.mpr ⟨⟨hfits, hanswer⟩, hall⟩, ?_⟩
    intro heof
    rw [List.getLast?_cons] at heof
    cases hx : xs.getLast? with
    | some y => exact hlast (by simpa [hx] using heof)
    | none =>
      obtain rfl : xs = [] := List.getLast?_eq_none_iff.mp hx
      have hbytes : x.2.bytes = [] := by
        have hr : x.2 = .transferred [] := by simpa using heof
        rw [hr]
        rfl
      obtain rfl : w₁ = w' := by simpa using h
      rw [hend hbytes] at hw
      exact (List.append_eq_nil_iff.mp hw.symm).2

end Loop

section Calls

variable {σ : Type*} {serve : Memory → σ → Exchange → Option σ}
  {Holds Offers : List UInt8 → Fd → σ → Prop}

/-- A write that succeeds has appended its whole sequence. -/
theorem write_call (hdev : StreamDevice serve Holds Offers) (c : Call) {f : Fd} {n : Nat}
    {w : List UInt8} {s s' : σ} (hw : Holds w f s)
    (hret : (c.trace .write f).ret = some (.ok n))
    (hserve : ((c.trace .write f).exchanges c.responses).foldlM (serve c.mem) s = some s') :
    n = bufferSize c.b ∧ Holds (w ++ c.bytes c.mem) (c.trace .write f).fd s' := by
  have hb := unwrapped_transferAll c.b
  rw [Call.trace, IoOperation.sync_eq_loop] at hret hserve ⊢
  obtain ⟨hfits, hholds⟩ := loop_holds hdev f c.mem 0 c.responses hw hserve
  have hc := loop_counted hb f c.mem 0 c.responses (Nat.zero_le _) hfits
  have hstream := write_loop_accepted hb f c.mem 0 c.responses (Nat.zero_le _) hfits
  obtain ⟨hval, hwhy⟩ := hc.ret n hret
  have hwithin := hc.within
  have hmet : transferAll (bufferSize c.b) n = 0 := by simpa using hwhy
  have hn : n = bufferSize c.b := by
    rw [transferAll] at hmet
    split at hmet <;> omega
  rw [hstream, List.drop_zero] at hholds
  rw [Call.bytes, ← hn, hval, Nat.zero_add]
  exact ⟨rfl, hholds⟩

/-- A read that returns has filled its whole sequence, if there is that much. -/
theorem read_call (hdev : StreamDevice serve Holds Offers) (c : Call) {f : Fd}
    {w : List UInt8} {s s' : σ} (hw : Offers w f s) (hroom : bufferSize c.b ≤ w.length)
    (hapart : c.b.Pairwise ConstBuffer.Apart) (hret : (c.trace .read f).ret ≠ none)
    (hserve : ((c.trace .read f).exchanges c.responses).foldlM (serve c.mem) s = some s') :
    (c.trace .read f).ret = some (.ok (bufferSize c.b)) ∧
      (c.trace .read f).fd = f.feed (bufferSize c.b) ∧
      c.bytes (c.trace .read f).mem = w.take (bufferSize c.b) ∧
      Offers (w.drop (bufferSize c.b)) (c.trace .read f).fd s' := by
  have hb := unwrapped_transferAll c.b
  rw [Call.trace, IoOperation.sync_eq_loop] at hret hserve ⊢
  obtain ⟨w', htakes, hoffers⟩ := loop_takes hdev f c.mem c.mem 0 c.responses hw hserve
  obtain ⟨hparts, hanswers, hlast⟩ := foldlM_takeFront htakes
  have hfits := fun x hx => (hanswers x hx).1
  have hc := loop_counted hb f c.mem 0 c.responses (Nat.zero_le _) hfits
  have hcontent := read_loop_content hb (nodup_addresses hapart) f c.mem 0 c.responses
    (Nat.zero_le _) hfits
  have hlen := length_delivered ((IoOperation.read.loop c.b transferAll f c.mem 0
    c.responses).exchanges c.responses)
  generalize hxs : (IoOperation.read.loop c.b transferAll f c.mem 0 c.responses).exchanges
    c.responses = xs at *
  have hok : ∃ n, (IoOperation.read.loop c.b transferAll f c.mem 0 c.responses).ret =
      some (.ok n) := by
    cases hr : (IoOperation.read.loop c.b transferAll f c.mem 0 c.responses).ret with
    | none => exact absurd hr hret
    | some r =>
      cases r with
      | ok n => exact ⟨n, rfl⟩
      | error e =>
        obtain ⟨x, hx, errno, pos, hfailed⟩ := exists_failed_of_error f c.mem 0 c.responses hr
        obtain ⟨-, bytes, hbytes⟩ := hanswers x (hxs ▸ hx)
        rw [hfailed] at hbytes
        cases hbytes
  obtain ⟨n, hn⟩ := hok
  obtain ⟨hval, hwhy⟩ := hc.ret n hn
  have hwithin := hc.within
  have hfd := hc.fd
  simp only [hxs] at hval hwithin hwhy hfd
  have hsize := congrArg List.length hparts
  rw [List.length_append] at hsize
  have hfull : moved xs = bufferSize c.b := by
    obtain hmet | ⟨-, heof⟩ := hwhy
    · rw [transferAll] at hmet
      split at hmet <;> omega
    · have hend : w'.length = 0 := by rw [hlast heof]; rfl
      omega
  rw [hfull] at hfd
  refine ⟨by rw [hn, hval, hfull, Nat.zero_add], hfd, ?_⟩
  rw [← hfull, ← hlen]
  constructor
  · rw [Call.bytes, hcontent, List.take_zero, List.nil_append, hparts, List.take_left,
      ← hfull, ← hlen, List.take_left]
  · rw [hparts, List.drop_left]
    exact hoffers

/-- By induction on the calls, what the writes leave in the stream. -/
theorem Calls.write {f f' : Fd} {s s' : σ} {ps : List (Call × Trace)}
    (hdev : StreamDevice serve Holds Offers) (h : Calls serve .write f s ps f' s') {w : List UInt8}
    (hw : Holds w f s) : Holds (w ++ written ps) f' s' := by
  induction h generalizing w with
  | done => simpa [written] using hw
  | call ht hstops hserve _ ih =>
    subst ht
    obtain ⟨n, hn⟩ := hstops
    obtain ⟨-, hholds⟩ := write_call hdev _ hw hn hserve
    rw [written_cons, ← List.append_assoc]
    exact ih hholds

/-- By induction on the calls, what the reads get of the stream. -/
theorem Calls.read {f f' : Fd} {s s' : σ} {ps : List (Call × Trace)}
    (hdev : StreamDevice serve Holds Offers) (h : Calls serve .read f s ps f' s') {w : List UInt8}
    (hw : Offers w f s) (hroom : total ps ≤ w.length)
    (hapart : ∀ p ∈ ps, p.1.b.Pairwise ConstBuffer.Apart) :
    (∀ p ∈ ps, p.2.ret = some (.ok (bufferSize p.1.b))) ∧ f' = f.feed (total ps) ∧
      readBack ps = w.take (total ps) := by
  induction h generalizing w with
  | done => simp [readBack, total]
  | call ht _ hserve _ ih =>
    subst ht
    rw [List.forall_mem_cons] at hapart
    rw [total_cons] at hroom
    obtain ⟨hret, hfd, hbytes, hoffers⟩ :=
      read_call hdev _ hw (by omega) hapart.1 (by assumption) hserve
    obtain ⟨hrets, hend, hrest⟩ := ih hoffers (by rw [List.length_drop]; omega) hapart.2
    refine ⟨List.forall_mem_cons.mpr ⟨hret, hrets⟩, ?_, ?_⟩
    · rw [hend, hfd, Fd.feed_feed, total_cons]
    · rw [readBack_cons, hbytes, hrest, total_cons, List.take_add]

/-- The reads return all they asked for, it is what the writes were given, and
the descriptor they read from has counted it. -/
structure ReadsBack (ws rs : List (Call × Trace)) (g g' : Fd) : Prop where
  ret : ∀ p ∈ rs, p.2.ret = some (.ok (bufferSize p.1.b))
  same : readBack rs = (written ws).take (total rs)
  offset : g' = g.feed (total rs)

/-- The reads begin where the writes did. -/
theorem readsBack {g g' : Fd} {s s' : σ} {ws rs : List (Call × Trace)} {w : List UInt8}
    (hdev : StreamDevice serve Holds Offers) (hw : written ws <+: w) (hoffers : Offers w g s)
    (hr : Calls serve .read g s rs g' s') (hle : total rs ≤ total ws)
    (hapart : ∀ p ∈ rs, p.1.b.Pairwise ConstBuffer.Apart) : ReadsBack ws rs g g' := by
  have hlen := hw.length_le
  rw [length_written] at hlen
  obtain ⟨hret, hend, hsame⟩ := Calls.read hdev hr hoffers (by omega) hapart
  refine ⟨hret, ?_, hend⟩
  obtain ⟨rest, rfl⟩ := hw
  rw [hsame, List.take_append_of_le_length (by rw [length_written]; exact hle)]

end Calls

/-- Through a file, from any position `o` of it, with a `seek` in between. -/
def FileRoundTrip (ws rs : List (Call × Trace)) : Prop :=
  ∀ (o : Nat) (f f₁ f₂ : Fd) (file file₁ file₂ : ByteFile), f.offset = some (o : Int) →
    Calls ByteFile.serve .write f file ws f₁ file₁ →
    Calls ByteFile.serve .read (f₁.seek o) file₁ rs f₂ file₂ →
    ReadsBack ws rs (f₁.seek o) f₂ ∧ f₁.offset = some ((o + total ws : Nat) : Int) ∧
      f₂.offset = some ((o + total rs : Nat) : Int)

/-- Through a pipe, from its one end to the other. -/
def PipeRoundTrip (ws rs : List (Call × Trace)) : Prop :=
  ∀ (f f₁ g g₁ : Fd) (queue₁ queue₂ : List UInt8), f.offset = none → g.offset = none →
    Calls Pipe.serve .write f [] ws f₁ queue₁ → Calls Pipe.serve .read g queue₁ rs g₁ queue₂ →
    ReadsBack ws rs g g₁

/-- What was written is read back, whatever the operations, the buffers and the
transfers it is cut into on either side. -/
theorem written_is_read_back (ws rs : List (Call × Trace)) (hle : total rs ≤ total ws)
    (hapart : ∀ p ∈ rs, p.1.b.Pairwise ConstBuffer.Apart) :
    FileRoundTrip ws rs ∧ PipeRoundTrip ws rs := by
  constructor
  · intro o f f₁ f₂ file file₁ file₂ ho hw hr
    have hdev := ByteFile.streamDevice o
    have hholds := Calls.write hdev hw (ByteFile.holds_nil ho file)
    rw [List.nil_append] at hholds
    have hoffers : ByteFile.Offers (file₁.stream o) (f₁.seek o) file₁ := ⟨o, rfl, rfl⟩
    have hback := readsBack hdev hholds.prefix_stream hoffers hr hle hapart
    refine ⟨hback, ?_, ?_⟩
    · rw [hholds.offset, length_written]
    · rw [hback.offset, Fd.feed_offset]
      simp [Fd.seek]
  · intro f f₁ g g₁ queue₁ queue₂ hf hg hw hr
    have hqueued := Calls.write Pipe.streamDevice hw ⟨hf, rfl⟩
    rw [List.nil_append] at hqueued
    have hoffers : Pipe.Queued queue₁ g queue₁ := ⟨hg, rfl⟩
    have hprefix : written ws <+: queue₁ := hqueued.2 ▸ List.prefix_refl _
    exact readsBack Pipe.streamDevice hprefix hoffers hr hle hapart

/-- Two writes in three transfers, read back by two reads in three, from
position 10 of a file. -/
theorem written_is_read_back_fragments :
    let mem : Memory := fun a => UInt8.ofNat a
    let first : Call := ⟨[⟨100, 3, by decide⟩, ⟨150, 0, by decide⟩, ⟨200, 2, by decide⟩], mem,
      [.transferred [0, 0], .transferred [0, 0, 0]]⟩
    let second : Call := ⟨[⟨50, 1, by decide⟩], mem, [.transferred [0]]⟩
    let third : Call := ⟨[⟨300, 4, by decide⟩], mem,
      [.transferred [100], .transferred [101, 102, 200]]⟩
    let fourth : Call := ⟨[⟨300, 1, by decide⟩, ⟨400, 1, by decide⟩], mem,
      [.transferred [201, 50]]⟩
    let ws := [(first, first.trace .write ⟨4, some 10⟩), (second, second.trace .write ⟨4, some 15⟩)]
    let rs := [(third, third.trace .read ⟨4, some 10⟩), (fourth, fourth.trace .read ⟨4, some 14⟩)]
    ReadsBack ws rs ⟨4, some 10⟩ ⟨4, some 16⟩ ∧ readBack rs = [100, 101, 102, 200, 201, 50] := by
  intro mem first second third fourth ws rs
  have hapart : ∀ p ∈ rs, p.1.b.Pairwise ConstBuffer.Apart :=
    List.forall_mem_cons.mpr ⟨by decide, List.forall_mem_cons.mpr ⟨by decide, by simp⟩⟩
  let file := ((ByteFile.empty.write 10 [100, 101]).write 12 [102, 200, 201]).write 15 [50]
  have hwrites : Calls ByteFile.serve .write ⟨4, some 10⟩ ByteFile.empty ws ⟨4, some 16⟩ file :=
    .call rfl ⟨5, rfl⟩ rfl (.call rfl ⟨1, rfl⟩ rfl .done)
  have hreads : Calls ByteFile.serve .read ⟨4, some 10⟩ file rs ⟨4, some 16⟩ file :=
    .call rfl (Option.some_ne_none _) rfl (.call rfl (Option.some_ne_none _) rfl .done)
  have hround := (written_is_read_back ws rs (by decide) hapart).1 10 ⟨4, some 10⟩ _ _
    ByteFile.empty _ _ rfl hwrites hreads
  exact ⟨hround.1, rfl⟩

end RoundTrip
