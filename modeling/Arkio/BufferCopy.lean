import Arkio.Slices

/-!
# Copying between buffer sequences

`buffer_copy` of `sequence.hpp`. Two cursors walk the sequences and copy in
chunks, each as long as the shorter of the two current buffers. `max_size` takes
no part in the choice of a chunk; it is only compared with it.
-/
namespace BufferCopy

open Buffer ScatteredStore

/-- How a call ends: it dereferences an iterator past the end, it reaches its
closing brace without a `return`, or it returns. -/
inductive Outcome where
  | outside
  | flowsOff (mem : Memory)
  | returned (n : Nat) (mem : Memory)

def memcpy (dst src n : Nat) (mem : Memory) : Memory :=
  store mem dst ((List.range' src n).map mem)

/-- A cursor is the buffers from its iterator on, the first of them cut to what
is left of it. It moves by `n` bytes of that buffer. -/
def consume (curr : ConstBuffer) (rest : List ConstBuffer) (n : Nat) (h : n ≤ curr.size) :
    List ConstBuffer :=
  if curr.size = n then rest else curr.advance n h :: rest

theorem length_consume (curr : ConstBuffer) (rest : List ConstBuffer) (n : Nat)
    (h : n ≤ curr.size) : (consume curr rest n h).length ≤ rest.length + 1 ∧
      (curr.size = n → (consume curr rest n h).length = rest.length) := by
  rw [consume]
  split
  next heq => exact ⟨Nat.le_succ _, fun _ => rfl⟩
  next hne => exact ⟨Nat.le_refl _, fun heq => absurd heq hne⟩

/-- The loop; subtraction from `max_size` wraps. -/
def copyLoop (src dst : List ConstBuffer) (doneSz maxSize : Nat) (mem : Memory) : Outcome :=
  match src, dst with
  | currSrc :: src, currDst :: dst =>
    let currSz := min currSrc.size currDst.size
    let mem := memcpy currDst.data currSrc.data currSz mem
    let doneSz := doneSz + currSz
    if maxSize = currSz then .returned maxSize mem
    else
      copyLoop (consume currSrc src currSz (Nat.min_le_left _ _))
        (consume currDst dst currSz (Nat.min_le_right _ _)) doneSz
        ((maxSize + (sizeMod - currSz)) % sizeMod) mem
  | _, _ => .flowsOff mem
termination_by src.length + dst.length
decreasing_by
  have hsrc := length_consume currSrc src (min currSrc.size currDst.size) (Nat.min_le_left _ _)
  have hdst := length_consume currDst dst (min currSrc.size currDst.size) (Nat.min_le_right _ _)
  simp only [List.length_cons]
  omega

/-- `buffer_copy`: both iterators are dereferenced before the loop tests them. -/
def bufferCopy (dest source : List ConstBuffer) (maxSize : Nat) (mem : Memory) : Outcome :=
  match source, dest with
  | [], _ => .outside
  | _, [] => .outside
  | currSrc :: src, currDst :: dst => copyLoop (currSrc :: src) (currDst :: dst) 0 maxSize mem

theorem addresses_advance (b : ConstBuffer) (n : Nat) (h : n ≤ b.size) :
    (b.advance n h).addresses = b.addresses.drop n := by
  rw [ConstBuffer.addresses, ConstBuffer.addresses, List.drop_range', Nat.mul_one]
  rfl

theorem addresses_consume (curr : ConstBuffer) (rest : List ConstBuffer) (n : Nat)
    (h : n ≤ curr.size) :
    addresses (consume curr rest n h) = (addresses (curr :: rest)).drop n := by
  rw [consume, addresses_cons]
  split
  next heq => rw [← heq, ← ConstBuffer.length_addresses, List.drop_left]
  next hne =>
    rw [addresses_cons, addresses_advance, List.drop_append_of_le_length]
    rwa [ConstBuffer.length_addresses]

/-- The memory after the first `k` bytes of the one sequence went to the other. -/
def copied (src dst : List ConstBuffer) (k : Nat) (mem : Memory) : Memory :=
  storeAt (addresses dst) ((content mem src).take k) mem

section Copied

variable {src dst : List ConstBuffer} {mem : Memory}

/-- One chunk. -/
theorem memcpy_eq_copied {currSrc currDst : ConstBuffer} {n : Nat} (hsrc : n ≤ currSrc.size)
    (hdst : n ≤ currDst.size) (src dst : List ConstBuffer) (mem : Memory) :
    memcpy currDst.data currSrc.data n mem = copied (currSrc :: src) (currDst :: dst) n mem := by
  have hbytes : (content mem (currSrc :: src)).take n = (List.range' currSrc.data n).map mem := by
    rw [content, addresses_cons, ← List.map_take,
      List.take_append_of_le_length (by rwa [ConstBuffer.length_addresses]),
      ConstBuffer.addresses, List.take_range'_of_length_ge hsrc]
  have hlen : ((List.range' currSrc.data n).map mem).length ≤ currDst.size := by simpa using hdst
  have htake : (addresses (currDst :: dst)).take currDst.size = currDst.addresses := by
    rw [← ConstBuffer.length_addresses currDst, addresses_cons, List.take_left]
  rw [memcpy, copied, hbytes, store_eq_storeAt hlen, ← storeAt_take_left hlen (addresses _), htake]
  rfl

/-- Copying leaves the source alone. -/
theorem content_copied (hdis : List.Disjoint (addresses src) (addresses dst)) (k : Nat) :
    content (copied src dst k mem) src = content mem src :=
  map_storeAt_of_disjoint hdis _ mem

/-- A chunk and then `k` bytes from where the cursors stand. -/
theorem copied_add {currSrc currDst : ConstBuffer} {n : Nat} (hsrc : n ≤ currSrc.size)
    (hdst : n ≤ currDst.size)
    (hdis : List.Disjoint (addresses (currSrc :: src)) (addresses (currDst :: dst))) (k : Nat) :
    copied (consume currSrc src n hsrc) (consume currDst dst n hdst) k
        (copied (currSrc :: src) (currDst :: dst) n mem) =
      copied (currSrc :: src) (currDst :: dst) (n + k) mem := by
  have hlen : n ≤ (addresses (currDst :: dst)).length := by
    rw [addresses_cons, List.length_append, ConstBuffer.length_addresses]
    omega
  have hrest : content (copied (currSrc :: src) (currDst :: dst) n mem)
      (consume currSrc src n hsrc) = (content mem (currSrc :: src)).drop n := by
    rw [content, addresses_consume, List.map_drop]
    exact congrArg (List.drop n) (content_copied hdis n)
  conv_lhs => rw [copied, hrest, addresses_consume]
  rw [copied, copied, storeAt_take_add hlen]

theorem disjoint_consume {currSrc currDst : ConstBuffer} {n : Nat} (hsrc : n ≤ currSrc.size)
    (hdst : n ≤ currDst.size)
    (hdis : List.Disjoint (addresses (currSrc :: src)) (addresses (currDst :: dst))) :
    List.Disjoint (addresses (consume currSrc src n hsrc))
      (addresses (consume currDst dst n hdst)) := by
  rw [addresses_consume, addresses_consume]
  exact fun a ha hb => hdis (List.mem_of_mem_drop ha) (List.mem_of_mem_drop hb)

/-- At least `r` bytes went over, and nothing else happened. -/
def CopiedAtLeast (src dst : List ConstBuffer) (r : Nat) (mem mem' : Memory) : Prop :=
  ∃ k, r ≤ k ∧ k ≤ (addresses src).length ∧ k ≤ (addresses dst).length ∧
    mem' = copied src dst k mem

theorem length_addresses_cons (b : ConstBuffer) (bseq : List ConstBuffer) :
    (addresses (b :: bseq)).length = b.size + (addresses bseq).length := by
  rw [addresses_cons, List.length_append, ConstBuffer.length_addresses]

/-- What the rest of the loop copies comes on top of the chunk. -/
theorem CopiedAtLeast.chunk {currSrc currDst : ConstBuffer} {n r : Nat} {mem' : Memory}
    (hsrc : n ≤ currSrc.size) (hdst : n ≤ currDst.size)
    (hdis : List.Disjoint (addresses (currSrc :: src)) (addresses (currDst :: dst)))
    (h : CopiedAtLeast (consume currSrc src n hsrc) (consume currDst dst n hdst) r
      (memcpy currDst.data currSrc.data n mem) mem') :
    CopiedAtLeast (currSrc :: src) (currDst :: dst) (r + n) mem mem' := by
  obtain ⟨k, hr, hks, hkd, hmem⟩ := h
  rw [addresses_consume, List.length_drop, length_addresses_cons] at hks hkd
  refine ⟨n + k, by omega, ?_, ?_, ?_⟩
  · rw [length_addresses_cons]
    omega
  · rw [length_addresses_cons]
    omega
  · rw [hmem, memcpy_eq_copied hsrc hdst src dst mem, copied_add hsrc hdst hdis k]

theorem copyLoop_nil_left (dst : List ConstBuffer) (doneSz maxSize : Nat) (mem : Memory) :
    copyLoop [] dst doneSz maxSize mem = .flowsOff mem := by
  rw [copyLoop]
  simp

theorem copyLoop_nil_right (src : List ConstBuffer) (doneSz maxSize : Nat) (mem : Memory) :
    copyLoop src [] doneSz maxSize mem = .flowsOff mem := by
  rw [copyLoop]
  simp

/-- A loop that returns has copied at least as many bytes as it says. -/
theorem copyLoop_returned {doneSz maxSize r : Nat} {mem' : Memory}
    (hdis : List.Disjoint (addresses src) (addresses dst))
    (h : copyLoop src dst doneSz maxSize mem = .returned r mem') :
    CopiedAtLeast src dst r mem mem' := by
  fun_induction copyLoop src dst doneSz maxSize mem with
  | case1 doneSz mem currSrc src currDst dst currSz mem₁ =>
    have hsrc : currSz ≤ currSrc.size := Nat.min_le_left _ _
    have hdst : currSz ≤ currDst.size := Nat.min_le_right _ _
    simp only [Outcome.returned.injEq] at h
    obtain ⟨rfl, rfl⟩ := h
    refine ⟨currSz, Nat.le_refl _, ?_, ?_, memcpy_eq_copied hsrc hdst src dst mem⟩
    · rw [length_addresses_cons]
      omega
    · rw [length_addresses_cons]
      omega
  | case2 doneSz maxSize mem currSrc src currDst dst currSz mem₁ doneSz₁ hmax ih =>
    have hsrc : currSz ≤ currSrc.size := Nat.min_le_left _ _
    have hdst : currSz ≤ currDst.size := Nat.min_le_right _ _
    obtain ⟨k, hr, hk⟩ := CopiedAtLeast.chunk hsrc hdst hdis (ih (disjoint_consume hsrc hdst hdis) h)
    exact ⟨k, by omega, hk⟩
  | case3 => cases h

/-- Unless the first chunk is all there is to copy, the value returned leaves it out. -/
theorem copyLoop_cons_returned {currSrc currDst : ConstBuffer} {doneSz maxSize r : Nat}
    {mem' : Memory} (hdis : List.Disjoint (addresses (currSrc :: src)) (addresses (currDst :: dst)))
    (h : copyLoop (currSrc :: src) (currDst :: dst) doneSz maxSize mem = .returned r mem') :
    (maxSize = min currSrc.size currDst.size ∧ r = maxSize) ∨
      CopiedAtLeast (currSrc :: src) (currDst :: dst) (r + min currSrc.size currDst.size)
        mem mem' := by
  rw [copyLoop] at h
  split at h
  next hmax =>
    simp only [Outcome.returned.injEq] at h
    exact .inl ⟨hmax, h.1.symm⟩
  next =>
    have hrest := copyLoop_returned (disjoint_consume _ _ hdis) h
    exact .inr (CopiedAtLeast.chunk _ _ hdis hrest)

end Copied

/-- A sequence from its first non-empty buffer on. -/
def skipEmpty (bseq : List ConstBuffer) : List ConstBuffer :=
  bseq.dropWhile fun b => b.size = 0

@[simp] theorem skipEmpty_nil : skipEmpty [] = [] := rfl

theorem skipEmpty_cons (b : ConstBuffer) (bseq : List ConstBuffer) :
    skipEmpty (b :: bseq) = if b.size = 0 then skipEmpty bseq else b :: bseq := by
  simp [skipEmpty, List.dropWhile_cons]

@[simp] theorem addresses_skipEmpty (bseq : List ConstBuffer) :
    addresses (skipEmpty bseq) = addresses bseq := by
  induction bseq with
  | nil => rfl
  | cons b bseq ih =>
    rw [skipEmpty_cons]
    split
    next hempty =>
      have hnone : b.addresses = [] := List.eq_nil_of_length_eq_zero (by simpa using hempty)
      rw [ih, addresses_cons, hnone, List.nil_append]
    next => rfl

theorem size_pos_of_skipEmpty {b : ConstBuffer} {bseq rest : List ConstBuffer}
    (h : skipEmpty bseq = b :: rest) : 0 < b.size := by
  induction bseq with
  | nil => cases h
  | cons b' bseq ih =>
    rw [skipEmpty_cons] at h
    split at h
    · exact ih h
    next hsize =>
      obtain ⟨rfl, -⟩ := List.cons.inj h
      omega

theorem skipEmpty_consume {curr : ConstBuffer} {rest : List ConstBuffer} {n : Nat} (hn : n = 0)
    (h : n ≤ curr.size) : skipEmpty (consume curr rest n h) = skipEmpty (curr :: rest) := by
  subst hn
  rw [consume, skipEmpty_cons]
  split
  · rfl
  next hsize =>
    have hsame : curr.advance 0 (Nat.zero_le _) = curr := by simp [ConstBuffer.advance]
    rw [hsame, skipEmpty_cons, if_neg hsize]

/-- Empty buffers are passed over, as long as something may be copied. -/
theorem copyLoop_skipEmpty {doneSz maxSize : Nat} (hpos : 0 < maxSize) (hmax : maxSize < sizeMod)
    (src dst : List ConstBuffer) (mem : Memory) :
    copyLoop src dst doneSz maxSize mem =
      copyLoop (skipEmpty src) (skipEmpty dst) doneSz maxSize mem := by
  fun_induction copyLoop src dst doneSz maxSize mem with
  | case1 doneSz mem currSrc src currDst dst currSz mem₁ =>
    have hsrc : ¬currSrc.size = 0 := by omega
    have hdst : ¬currDst.size = 0 := by omega
    rw [skipEmpty_cons, skipEmpty_cons, if_neg hsrc, if_neg hdst, copyLoop, if_pos rfl]
  | case2 doneSz maxSize mem currSrc src currDst dst currSz mem₁ doneSz₁ hne ih =>
    by_cases hzero : currSz = 0
    · have hsame : (maxSize + (sizeMod - currSz)) % sizeMod = maxSize := by
        rw [hzero, Nat.sub_zero, Nat.add_mod_right, Nat.mod_eq_of_lt hmax]
      have hmem : mem₁ = mem := by simp [mem₁, hzero, memcpy, store]
      have hdone : doneSz₁ = doneSz := by simp [doneSz₁, hzero]
      rw [hsame] at ih ⊢
      rw [ih hpos hmax, skipEmpty_consume hzero, skipEmpty_consume hzero, hmem, hdone]
    · have hsrc : ¬currSrc.size = 0 := by omega
      have hdst : ¬currDst.size = 0 := by omega
      rw [skipEmpty_cons, skipEmpty_cons, if_neg hsrc, if_neg hdst]
      conv_rhs => rw [copyLoop, if_neg hne]
  | case3 src dst doneSz maxSize mem hend =>
    cases src with
    | nil => rw [skipEmpty_nil, copyLoop_nil_left]
    | cons currSrc src =>
      cases dst with
      | nil => rw [skipEmpty_nil, copyLoop_nil_right]
      | cons currDst dst => exact absurd rfl (hend currSrc src currDst dst rfl)

theorem copied_skipEmpty (src dst : List ConstBuffer) (k : Nat) (mem : Memory) :
    copied (skipEmpty src) (skipEmpty dst) k mem = copied src dst k mem := by
  rw [copied, copied, content, content, addresses_skipEmpty, addresses_skipEmpty]

theorem copiedAtLeast_skipEmpty {src dst : List ConstBuffer} {r : Nat} {mem mem' : Memory} :
    CopiedAtLeast (skipEmpty src) (skipEmpty dst) r mem mem' ↔
      CopiedAtLeast src dst r mem mem' := by
  simp only [CopiedAtLeast, addresses_skipEmpty, copied_skipEmpty]

/-- The size of the first buffer. -/
def firstSize : List ConstBuffer → Nat
  | [] => 0
  | b :: _ => b.size

/-- The loop that needs one chunk only. -/
theorem copyLoop_oneChunk {src dst : List ConstBuffer} {maxSize : Nat} (hsrc : src ≠ [])
    (hdst : dst ≠ []) (h : maxSize = min (firstSize src) (firstSize dst)) (doneSz : Nat)
    (mem : Memory) : copyLoop src dst doneSz maxSize mem =
      .returned maxSize (copied src dst maxSize mem) := by
  cases src with
  | nil => exact absurd rfl hsrc
  | cons currSrc src =>
    cases dst with
    | nil => exact absurd rfl hdst
    | cons currDst dst =>
      rw [firstSize, firstSize] at h
      rw [copyLoop, if_pos h, ← h, memcpy_eq_copied (by omega) (by omega)]

/-- What `buffer_copy` is to do: return the least of the three sizes, copy that
many bytes and leave the rest of the destination alone. -/
structure Copies (dest source : List ConstBuffer) (n : Nat) (mem mem' : Memory) : Prop where
  same : (content mem' dest).take n = (content mem source).take n
  rest : (content mem' dest).drop n = (content mem dest).drop n

def MeetsContract (dest source : List ConstBuffer) (maxSize : Nat) : Prop :=
  let n := min (bufferSize dest) (min (bufferSize source) maxSize)
  ∀ mem, ∃ mem', bufferCopy dest source maxSize mem = .returned n mem' ∧
    Copies dest source n mem mem'

/-- The first chunk that is copied is all that may be copied. -/
def OneChunk (dest source : List ConstBuffer) (maxSize : Nat) : Prop :=
  dest ≠ [] ∧ source ≠ [] ∧
    (maxSize = 0 ∧ min (firstSize source) (firstSize dest) = 0 ∨
      0 < maxSize ∧ maxSize = min (firstSize (skipEmpty source)) (firstSize (skipEmpty dest)) ∧
        maxSize ≤ bufferSize source ∧ maxSize ≤ bufferSize dest)

instance (dest source : List ConstBuffer) (maxSize : Nat) :
    Decidable (OneChunk dest source maxSize) := inferInstanceAs (Decidable (_ ∧ _ ∧ _))

section Contract

variable {dest source : List ConstBuffer} {maxSize : Nat} {mem : Memory}

theorem content_copied_dest {k : Nat} (hnodup : (addresses dest).Nodup)
    (hks : k ≤ (addresses source).length) (hkd : k ≤ (addresses dest).length) :
    content (copied source dest k mem) dest =
      (content mem source).take k ++ (content mem dest).drop k := by
  have hlen : ((content mem source).take k).length = k := by
    rw [List.length_take, length_content, Nat.min_eq_left hks]
  rw [content, copied, map_storeAt hnodup (by omega), hlen]
  rfl

theorem copies_copied {k : Nat} (hnodup : (addresses dest).Nodup)
    (hks : k ≤ (addresses source).length) (hkd : k ≤ (addresses dest).length) :
    Copies dest source k mem (copied source dest k mem) := by
  have hlen : ((content mem source).take k).length = k := by
    rw [List.length_take, length_content, Nat.min_eq_left hks]
  constructor
  · rw [content_copied_dest hnodup hks hkd, List.take_append_of_le_length (by omega),
      List.take_of_length_le (by omega)]
  · rw [content_copied_dest hnodup hks hkd]
    nth_rewrite 1 [← hlen]
    exact List.drop_left

/-- A memory in which every byte copied shows. -/
def marked (dest : List ConstBuffer) : Memory := fun a => if a ∈ addresses dest then 0 else 1

theorem content_marked_dest :
    content (marked dest) dest = List.replicate (addresses dest).length 0 := by
  rw [content, List.map_eq_replicate_iff]
  intro a ha
  exact if_pos ha

theorem content_marked_source (hdis : List.Disjoint (addresses source) (addresses dest)) :
    content (marked dest) source = List.replicate (addresses source).length 1 := by
  rw [content, List.map_eq_replicate_iff]
  intro a ha
  exact if_neg (hdis ha)

/-- There, the destination tells how many bytes were copied. -/
theorem copied_marked_le {k n : Nat} (hnodup : (addresses dest).Nodup)
    (hdis : List.Disjoint (addresses source) (addresses dest))
    (hks : k ≤ (addresses source).length) (hkd : k ≤ (addresses dest).length)
    (hrest : (content (copied source dest k (marked dest)) dest).drop n =
      (content (marked dest) dest).drop n) : k ≤ n := by
  by_contra hlt
  rw [content_copied_dest hnodup hks hkd, content_marked_source hdis, content_marked_dest,
    List.take_replicate, List.drop_append, List.drop_replicate, List.drop_replicate,
    Nat.min_eq_left hks] at hrest
  have hmem : (1 : UInt8) ∈ List.replicate (k - n) 1 :=
    List.mem_replicate.mpr ⟨by omega, rfl⟩
  have hone : (1 : UInt8) ∈ (List.replicate (addresses dest).length 0).drop n :=
    hrest ▸ List.mem_append_left _ hmem
  exact absurd (List.eq_of_mem_replicate (List.mem_of_mem_drop hone)) (by decide)

/-- From the contract, the value returned is the number of bytes copied. -/
theorem MeetsContract.exact (hnodup : (addresses dest).Nodup)
    (hdis : List.Disjoint (addresses source) (addresses dest))
    (h : MeetsContract dest source maxSize) :
    ∃ n mem', n = min (bufferSize dest) (min (bufferSize source) maxSize) ∧
      bufferCopy dest source maxSize (marked dest) = .returned n mem' ∧
      ∀ r, CopiedAtLeast source dest r (marked dest) mem' → r ≤ n := by
  obtain ⟨mem', hret, hcopies⟩ := h (marked dest)
  refine ⟨_, mem', rfl, hret, ?_⟩
  rintro r ⟨k, hr, hks, hkd, rfl⟩
  exact Nat.le_trans hr (copied_marked_le hnodup hdis hks hkd hcopies.rest)

theorem MeetsContract.oneChunk (hnodup : (addresses dest).Nodup)
    (hdis : List.Disjoint (addresses source) (addresses dest)) (hmax : maxSize < sizeMod)
    (h : MeetsContract dest source maxSize) : OneChunk dest source maxSize := by
  obtain ⟨n, mem', hn, hret, hle⟩ := h.exact hnodup hdis
  cases source with
  | nil => simp [bufferCopy] at hret
  | cons currSrc src =>
    cases dest with
    | nil => simp [bufferCopy] at hret
    | cons currDst dst =>
      rw [bufferCopy] at hret
      refine ⟨by simp, by simp, ?_⟩
      by_cases hpos : maxSize = 0
      · left
        refine ⟨hpos, ?_⟩
        rw [firstSize, firstSize]
        obtain ⟨hchunk, -⟩ | hmore := copyLoop_cons_returned hdis hret
        · omega
        · have := hle _ hmore
          omega
      · right
        rw [copyLoop_skipEmpty (by omega) hmax] at hret
        have hskip := hdis
        rw [← addresses_skipEmpty, ← addresses_skipEmpty (currDst :: dst)] at hskip
        cases hs : skipEmpty (currSrc :: src) with
        | nil => simp [hs, copyLoop_nil_left] at hret
        | cons s ss =>
          cases hd : skipEmpty (currDst :: dst) with
          | nil => simp [hd, copyLoop_nil_right] at hret
          | cons d ds =>
            have hspos := size_pos_of_skipEmpty hs
            have hdpos := size_pos_of_skipEmpty hd
            rw [hs, hd] at hret hskip
            refine ⟨by omega, ?_⟩
            rw [firstSize, firstSize]
            obtain ⟨hchunk, hr⟩ | hmore := copyLoop_cons_returned hskip hret
            · omega
            · have := hle _ (copiedAtLeast_skipEmpty.mp (by rwa [hs, hd]))
              omega

theorem OneChunk.meetsContract (hnodup : (addresses dest).Nodup)
    (hdis : List.Disjoint (addresses source) (addresses dest)) (hmax : maxSize < sizeMod)
    (h : OneChunk dest source maxSize) : MeetsContract dest source maxSize := by
  obtain ⟨hdest, hsource, hchunk⟩ := h
  intro mem
  have hcopy : bufferCopy dest source maxSize mem = copyLoop source dest 0 maxSize mem := by
    cases source with
    | nil => exact absurd rfl hsource
    | cons currSrc src =>
      cases dest with
      | nil => exact absurd rfl hdest
      | cons currDst dst => rfl
  have hn : min (bufferSize dest) (min (bufferSize source) maxSize) = maxSize := by omega
  have hloop : copyLoop source dest 0 maxSize mem =
      .returned maxSize (copied source dest maxSize mem) := by
    obtain ⟨hzero, hempty⟩ | ⟨hpos, hfirst, -⟩ := hchunk
    · exact copyLoop_oneChunk hsource hdest (hzero.trans hempty.symm) 0 mem
    · have hs : skipEmpty source ≠ [] := by
        intro hs
        rw [hs, firstSize] at hfirst
        omega
      have hd : skipEmpty dest ≠ [] := by
        intro hd
        rw [hd, firstSize] at hfirst
        omega
      rw [copyLoop_skipEmpty hpos hmax, copyLoop_oneChunk hs hd hfirst, copied_skipEmpty]
  have hlens : maxSize ≤ (addresses source).length ∧ maxSize ≤ (addresses dest).length := by
    have hs := bufferSize_le source
    have hd := bufferSize_le dest
    omega
  rw [hn, hcopy]
  exact ⟨_, hloop, copies_copied hnodup hlens.1 hlens.2⟩

end Contract

/-- Exactly when `buffer_copy` does what it is to do. -/
theorem meets_contract_iff {dest source : List ConstBuffer} {maxSize : Nat}
    (hmax : maxSize < sizeMod) (hdest : dest.Pairwise ConstBuffer.Apart)
    (hapart : ∀ d ∈ dest, ∀ s ∈ source, s.Apart d) :
    MeetsContract dest source maxSize ↔ OneChunk dest source maxSize := by
  have hnodup := nodup_addresses hdest
  have hdis : List.Disjoint (addresses source) (addresses dest) := by
    intro a hs hd
    obtain ⟨s, hs, hsa⟩ := mem_addresses.mp hs
    obtain ⟨d, hd, hda⟩ := mem_addresses.mp hd
    exact hapart d hd s hs a hsa hda
  exact ⟨MeetsContract.oneChunk hnodup hdis hmax, OneChunk.meetsContract hnodup hdis hmax⟩

/-- Two bytes into a buffer of three, past an empty one. -/
theorem meets_contract_two_bytes :
    MeetsContract [⟨100, 0, by decide⟩, ⟨110, 3, by decide⟩]
      [⟨200, 2, by decide⟩, ⟨210, 5, by decide⟩] 2 :=
  (meets_contract_iff (by decide) (by decide) (by decide)).mpr (by decide)

/-- One byte into a buffer of two, with leave to copy two: the loop ends at the
end of the source and the function returns nothing. -/
theorem contract_not_met :
    ¬∀ (dest source : List ConstBuffer) (maxSize : Nat), maxSize < sizeMod →
      dest.Pairwise ConstBuffer.Apart → (∀ d ∈ dest, ∀ s ∈ source, s.Apart d) →
        MeetsContract dest source maxSize := by
  intro hall
  obtain ⟨mem', hret, -⟩ := hall [⟨100, 2, by decide⟩] [⟨200, 1, by decide⟩] 2 (by decide)
    (by decide) (by decide) fun _ => 0
  simp [bufferCopy, copyLoop, consume] at hret

end BufferCopy
