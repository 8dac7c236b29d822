import TlpiPractice.Core.SparseCopy
import TlpiPractice.Library.Stretches

/-!
# How Far the Copy Has Got

The state of the copy as a function of the bytes read so far, in every run in
which no call fails and every write is complete.

`wbuf` is the stretch of non-zero bytes that the input ends with, and
`zero_cnt` the length of the stretch of zeros. Neither depends on how the
source was split into blocks. The destination is the old content with the
bytes before that stretch laid over it, where a zero of the source leaves the
old byte. `Laid` is that relation. Zeros at the end do not matter to it,
neither for the bytes nor for the length, and that is why zeros can be counted
and skipped. It is also why the last ones get lost.

The process does something undefined exactly when a stretch gets too long for
its counter: `copyBytes_spec` states both halves.

## Main definitions

* `nonzero`, `zero`: The two kinds of bytes.
* `Clean`: No call has failed and every write was complete.
* `Laid`: The destination after some bytes have been laid over it.
* `Progress`: The state, in terms of the bytes read.
* `Bounded`: No stretch is too long for its counter.

## Theorems

* `flush_spec`, `skip_spec`: What a write and a seek do when they succeed.
* `laid_append`: Writing a stretch at its offset.
* `progress_zero`, `progress_nonzero`: One more byte.
* `copyBytes_spec`: The state after any number of bytes.
-/

namespace TlpiPractice

namespace SparseCopy

open ByteFile Stretches

/-- The bytes that are written. -/
def nonzero (b : UInt8) : Bool := decide (b ≠ 0)

/-- The bytes that are skipped. -/
def zero (b : UInt8) : Bool := decide (b = 0)

/-- No call has failed, and every write has taken all it was given. -/
structure Clean (s : Copy) : Prop where
  not_exited : ∀ code, s.status ≠ .exited code
  complete : ∀ off data taken, Sys.write off data taken ∈ s.calls → taken = some data.length

/-! ### Calls are only added -/

theorem clean_of_andThen (s : Copy) (f : Copy → Copy) (hf : s.calls ⊆ (f s).calls)
    (h : Clean (s.andThen f)) : Clean s := by
  by_cases hs : s.status = .running
  · rw [Copy.andThen, if_pos hs] at h
    refine ⟨fun code hc => ?_, fun off data taken hm => h.complete off data taken (hf hm)⟩
    rw [hs] at hc
    exact nomatch hc
  · rwa [Copy.andThen, if_neg hs] at h

theorem andThen_calls (s : Copy) (f : Copy → Copy) (hf : s.calls ⊆ (f s).calls) :
    s.calls ⊆ (s.andThen f).calls := by
  rw [Copy.andThen]
  split
  · exact hf
  · exact List.Subset.refl _

theorem flush_calls (K : Kernel) (s : Copy) : s.calls ⊆ (flush K s).calls := by
  rw [flush]
  split
  · exact List.Subset.refl _
  · rw [writeOut]
    split <;> exact List.subset_append_left _ _

theorem skip_calls (A : CInt) (K : Kernel) (s : Copy) : s.calls ⊆ (skip A K s).calls := by
  rw [skip]
  split
  · exact List.Subset.refl _
  · rw [seek]
    split
    · split <;> exact List.subset_append_left _ _
    · exact List.subset_append_left _ _

theorem countZero_calls (A : CInt) (s : Copy) : (countZero A s).calls = s.calls := by
  rw [countZero]
  split <;> rfl

theorem store_calls (s : Copy) (b : UInt8) : (store s b).calls = s.calls := by
  rw [store]
  split <;> rfl

/-- What the loop does with a byte only adds calls, so a process that has gone
    through it cleanly was clean before. -/
theorem clean_of_copyByte (A : CInt) (K : Kernel) (s : Copy) (b : UInt8)
    (h : Clean (copyByte A K s b)) : Clean s := by
  refine clean_of_andThen s _ ?_ h
  by_cases hb : b = 0
  · rw [if_pos hb]
    refine List.Subset.trans (flush_calls K s) (andThen_calls _ _ ?_)
    rw [countZero_calls]
    exact List.Subset.refl _
  · rw [if_neg hb]
    refine List.Subset.trans (skip_calls A K s) (andThen_calls _ _ ?_)
    rw [store_calls]
    exact List.Subset.refl _

/-! ### Successful calls -/

/-- A flush that succeeds puts `wbuf` at the offset and empties it. -/
theorem flush_spec (K : Kernel) (s : Copy) (h : Clean (flush K s)) :
    flush K s = { s with
      dest := writeAt s.dest s.offset s.wbuf
      offset := s.offset + s.wbuf.length
      wbuf := []
      calls := (flush K s).calls } := by
  by_cases hw : s.wbuf = []
  · simp only [flush, hw, writeAt, List.length_nil, Nat.add_zero, if_true]
    rw [← hw]
  rw [flush, if_neg hw, writeOut] at h ⊢
  cases hk : K.write s.calls.length with
  | none =>
      rw [hk] at h
      exact absurd rfl (h.not_exited writeFailure)
  | some k =>
      rw [hk] at h
      have hlen := h.complete s.offset s.wbuf _ (List.mem_append_right _ List.mem_cons_self)
      -- As many bytes were taken as there are, so the write was of all of them.
      have htake : s.wbuf.take k = s.wbuf := by
        refine List.take_of_length_le ?_
        have := Option.some.inj hlen
        rw [List.length_take] at this
        omega
      simp only [htake]

/-- A skip that succeeds moves the offset over the zeros counted. -/
theorem skip_spec (A : CInt) (K : Kernel) (s : Copy) (h : Clean (skip A K s)) :
    skip A K s = { s with
      offset := s.offset + s.zeroCnt
      zeroCnt := 0
      calls := (skip A K s).calls } := by
  by_cases hz : s.zeroCnt = 0
  · simp only [skip, hz, Nat.add_zero, if_true]
    rw [← hz]
  rw [skip, if_neg hz, seek] at h ⊢
  by_cases hl : K.lseek s.calls.length = true
  · rw [if_pos hl] at h ⊢
    by_cases hc : A.ofOff (s.offset + s.zeroCnt : Nat) = -1
    · rw [if_pos hc] at h
      exact absurd rfl (h.not_exited lseekFailure)
    · rw [if_neg hc]
  · rw [if_neg hl] at h
    exact absurd rfl (h.not_exited lseekFailure)

/-! ### The destination -/

/-- `dest` is `old` with the bytes of `p` laid over it: where `p` has a zero
    the old byte stays, and zeros at the end of `p` do not lengthen it. -/
structure Laid (old p dest : List UInt8) : Prop where
  length : dest.length = max old.length (p.rdropWhile zero).length
  bytes : ∀ i, byteAt dest i = if byteAt p i = 0 then byteAt old i else byteAt p i

theorem laid_nil (old : List UInt8) : Laid old [] old where
  length := by rw [List.rdropWhile_nil, List.length_nil, Nat.max_eq_left (Nat.zero_le _)]
  bytes := fun i => by rw [byteAt_of_length_le [] i (Nat.zero_le _), if_pos rfl]

/-- A zero at the end makes no difference. -/
theorem laid_concat_zero (old p dest : List UInt8) (h : Laid old p dest) :
    Laid old (p ++ [0]) dest where
  length := by rw [List.rdropWhile_concat_pos _ _ _ (show zero 0 = true from rfl), h.length]
  bytes := by
    intro i
    have hsame : byteAt (p ++ [0]) i = byteAt p i := by
      rw [byteAt_append]
      split
      · rfl
      · rw [byteAt_of_length_le p i (by omega)]
        exact byteAt_replicate_zero 1 _
    rw [hsame, h.bytes]

/-- Writing bytes other than zero behind what has been laid. -/
theorem laid_append (old q dest w : List UInt8) (h : Laid old q dest) (hw : ∀ b ∈ w, b ≠ 0) :
    Laid old (q ++ w) (writeAt dest q.length w) := by
  by_cases hnil : w = []
  · rw [hnil, List.append_nil, writeAt, if_pos rfl]
    exact h
  constructor
  · -- The last byte is not zero, so everything counts for the length.
    have hlast : (q ++ w).rdropWhile zero = q ++ w := by
      refine List.rdropWhile_eq_self_iff.mpr (fun hne => ?_)
      rw [List.getLast_append_of_ne_nil _ hnil, zero, decide_eq_true_eq]
      exact hw _ (List.getLast_mem hnil)
    have hle : (q.rdropWhile zero).length ≤ q.length :=
      (List.rdropWhile_prefix zero q).length_le
    rw [length_writeAt _ _ _ hnil, h.length, hlast, List.length_append]
    omega
  · intro i
    rw [byteAt_writeAt, byteAt_append]
    by_cases hlow : i < q.length
    · rw [if_neg (by omega), if_pos hlow, h.bytes]
    rw [if_neg hlow]
    by_cases hin : i < q.length + w.length
    · rw [if_pos (by omega), if_neg (byteAt_ne_zero w hw _ (by omega))]
    · -- Beyond the write nothing has been laid yet.
      rw [if_neg (by omega), h.bytes, byteAt_of_length_le q i (by omega), if_pos rfl,
        byteAt_of_length_le w _ (by omega), if_pos rfl]

/-! ### One more byte -/

/-- The state of a process that runs, in terms of the bytes read. -/
structure Progress (old p : List UInt8) (s : Copy) : Prop where
  status : s.status = .running
  wbuf : s.wbuf = p.rtakeWhile nonzero
  zeroCnt : s.zeroCnt = (p.rtakeWhile zero).length
  offset : s.offset + s.zeroCnt = (p.rdropWhile nonzero).length
  laid : Laid old (p.rdropWhile nonzero) s.dest

/-- No stretch is too long for its counter. -/
def Bounded (A : CInt) (p : List UInt8) : Prop :=
  RunsHold (fun n => n ≤ bufSize) nonzero p ∧ RunsHold (fun n => A.holds n = true) zero p

theorem holds_mono (A : CInt) (m n : Nat) (hmn : m ≤ n) (h : A.holds n = true) :
    A.holds m = true := by
  rw [CInt.holds, Option.all_eq_true] at h ⊢
  intro k hk
  exact decide_eq_true (Nat.le_trans hmn (of_decide_eq_true (h k hk)))

theorem holds_zero (A : CInt) : A.holds 0 = true := by
  rw [CInt.holds, Option.all_eq_true]
  intro k _
  exact decide_eq_true (Nat.zero_le k)

theorem progress_opened (old : List UInt8) : Progress old [] (opened old) :=
  ⟨rfl, rfl, rfl, rfl, laid_nil old⟩

/-- The input does not end with both kinds of bytes. -/
theorem no_zeros_of_nonzeros (p : List UInt8) (h : p.rtakeWhile nonzero ≠ []) :
    p.rtakeWhile zero = [] := by
  refine List.rtakeWhile_eq_nil_iff.mpr (fun hne hz => h ?_)
  refine List.rtakeWhile_eq_nil_iff.mpr (fun _ hn => ?_)
  rw [zero, decide_eq_true_eq] at hz
  rw [nonzero, decide_eq_true_eq] at hn
  exact hn hz

/-- What `wbuf` holds is not zero. -/
theorem ne_zero_of_mem_rtakeWhile (p : List UInt8) (b : UInt8) (h : b ∈ p.rtakeWhile nonzero) :
    b ≠ 0 :=
  of_decide_eq_true (show nonzero b = true from List.mem_rtakeWhile_imp h)

/-- After a flush everything read is in the destination. -/
theorem flush_progress (K : Kernel) (old p : List UInt8) (s : Copy) (hp : Progress old p s)
    (hc : Clean (flush K s)) :
    Laid old p (flush K s).dest ∧ (flush K s).offset + s.zeroCnt = p.length ∧
      (flush K s).zeroCnt = s.zeroCnt ∧ (flush K s).wbuf = [] ∧
      (flush K s).status = .running := by
  have hsplit : p.rdropWhile nonzero ++ s.wbuf = p := by
    rw [hp.wbuf, List.rdropWhile_append_rtakeWhile]
  have hlen := congrArg List.length hsplit
  rw [List.length_append, ← hp.offset] at hlen
  rw [flush_spec K s hc]
  refine ⟨?_, by simp only; omega, rfl, rfl, hp.status⟩
  have hlaid := laid_append old _ s.dest s.wbuf hp.laid
    (fun b hb => ne_zero_of_mem_rtakeWhile p b (hp.wbuf ▸ hb))
  rw [hsplit] at hlaid
  by_cases hw : s.wbuf = []
  · rw [hw, writeAt, if_pos rfl] at hlaid ⊢
    exact hlaid
  · -- Nothing has been counted, so the offset is that of the stretch.
    have hz : s.zeroCnt = 0 := by
      rw [hp.zeroCnt, no_zeros_of_nonzeros p (hp.wbuf ▸ hw), List.length_nil]
    rw [← hp.offset, hz, Nat.add_zero] at hlaid
    exact hlaid

/-- Reading a zero. -/
theorem progress_zero (A : CInt) (K : Kernel) (old p : List UInt8) (s : Copy)
    (hp : Progress old p s) (hc : Clean (flush K s)) :
    (A.holds ((p ++ [0]).rtakeWhile zero).length = true →
        Progress old (p ++ [0]) ((flush K s).andThen (countZero A))) ∧
      (A.holds ((p ++ [0]).rtakeWhile zero).length = false →
        ((flush K s).andThen (countZero A)).status = .undefined) := by
  rcases flush_progress K old p s hp hc with ⟨hlaid, hoff, hcnt, hbuf, hstatus⟩
  have hzeros : ((p ++ [0]).rtakeWhile zero).length = s.zeroCnt + 1 := by
    rw [List.rtakeWhile_concat_pos _ _ _ (show zero 0 = true from rfl), List.length_append,
      hp.zeroCnt, List.length_singleton]
  have hnz : ¬ nonzero 0 = true := by decide
  rw [Copy.andThen, if_pos hstatus, countZero, hcnt, hzeros]
  constructor
  · intro h
    rw [if_pos h]
    refine ⟨hstatus, ?_, hzeros.symm, ?_, ?_⟩
    · rw [List.rtakeWhile_concat_neg _ _ _ hnz]
      exact hbuf
    · rw [List.rdropWhile_concat_neg _ _ _ hnz, List.length_append, List.length_singleton]
      simp only
      omega
    · rw [List.rdropWhile_concat_neg _ _ _ hnz]
      exact laid_concat_zero old p _ hlaid
  · intro h
    rw [if_neg (by rw [h]; exact Bool.false_ne_true)]

/-- Reading a byte other than zero. -/
theorem progress_nonzero (A : CInt) (K : Kernel) (old p : List UInt8) (s : Copy) (b : UInt8)
    (hb : b ≠ 0) (hp : Progress old p s) (hc : Clean (skip A K s)) :
    (((p ++ [b]).rtakeWhile nonzero).length ≤ bufSize →
        Progress old (p ++ [b]) ((skip A K s).andThen (fun s => store s b))) ∧
      (bufSize < ((p ++ [b]).rtakeWhile nonzero).length →
        ((skip A K s).andThen (fun s => store s b)).status = .undefined) := by
  have hnz : nonzero b = true := decide_eq_true hb
  have hz : ¬ zero b = true := by rwa [zero, decide_eq_true_eq]
  have hstretch : (p ++ [b]).rtakeWhile nonzero = s.wbuf ++ [b] := by
    rw [List.rtakeWhile_concat_pos _ _ _ hnz, hp.wbuf]
  rw [hstretch, List.length_append, List.length_singleton, skip_spec A K s hc, Copy.andThen,
    if_pos hp.status, store]
  simp only
  constructor
  · intro h
    rw [if_pos (by omega)]
    refine ⟨hp.status, hstretch.symm, ?_, ?_, ?_⟩
    · rw [List.rtakeWhile_concat_neg _ _ _ hz, List.length_nil]
    · rw [List.rdropWhile_concat_pos _ _ _ hnz]
      exact hp.offset
    · rw [List.rdropWhile_concat_pos _ _ _ hnz]
      exact hp.laid
  · intro h
    rw [if_neg (by omega)]

/-- One more byte, whichever it is. -/
theorem progress_concat (A : CInt) (K : Kernel) (old p : List UInt8) (s : Copy) (b : UInt8)
    (hbound : Bounded A p) (hp : Progress old p s) (hc : Clean (copyByte A K s b)) :
    (Bounded A (p ++ [b]) → Progress old (p ++ [b]) (copyByte A K s b)) ∧
      (¬ Bounded A (p ++ [b]) → (copyByte A K s b).status = .undefined) := by
  have hwrite := runsHold_concat (fun n => n ≤ bufSize) (fun _ _ => Nat.le_trans) nonzero p b
  have hcount := runsHold_concat (fun n => A.holds n = true) (holds_mono A) zero p b
  rw [copyByte, Copy.andThen, if_pos hp.status] at hc ⊢
  by_cases hb : b = 0
  · -- The stretch of other bytes ends, and cannot be too long.
    subst hb
    rw [if_pos rfl] at hc ⊢
    have hflush := clean_of_andThen _ _
      (by rw [countZero_calls]; exact List.Subset.refl _) hc
    have hstep := progress_zero A K old p s hp hflush
    have hfits : RunsHold (fun n => n ≤ bufSize) nonzero (p ++ [0]) := by
      refine hwrite.mpr ⟨hbound.1, ?_⟩
      rw [List.rtakeWhile_concat_neg _ _ _ (by decide), List.length_nil]
      exact Nat.zero_le _
    refine ⟨fun h => hstep.1 (hcount.mp h.2).2, fun h => hstep.2 ?_⟩
    rw [Bool.eq_false_iff]
    exact fun hh => h ⟨hfits, hcount.mpr ⟨hbound.2, hh⟩⟩
  · -- The stretch of zeros ends.
    rw [if_neg hb] at hc ⊢
    have hskip := clean_of_andThen _ _ (by rw [store_calls]; exact List.Subset.refl _) hc
    have hstep := progress_nonzero A K old p s b hb hp hskip
    have hfits : RunsHold (fun n => A.holds n = true) zero (p ++ [b]) := by
      refine hcount.mpr ⟨hbound.2, ?_⟩
      rw [List.rtakeWhile_concat_neg _ _ _ (by rwa [zero, decide_eq_true_eq]), List.length_nil]
      exact holds_zero A
    refine ⟨fun h => hstep.1 (hwrite.mp h.1).2, fun h => hstep.2 ?_⟩
    by_contra hh
    exact h ⟨hwrite.mpr ⟨hbound.1, Nat.le_of_not_lt hh⟩, hfits⟩

/-- The state after any number of bytes, when no call has failed: as long as
    every stretch fits its counter it is `Progress`, and otherwise something
    undefined has happened. -/
theorem copyBytes_spec (A : CInt) (K : Kernel) (old p : List UInt8)
    (hc : Clean (p.foldl (copyByte A K) (opened old))) :
    (Bounded A p → Progress old p (p.foldl (copyByte A K) (opened old))) ∧
      (¬ Bounded A p → (p.foldl (copyByte A K) (opened old)).status = .undefined) := by
  induction p using List.reverseRecOn with
  | nil =>
      refine ⟨fun _ => progress_opened old, fun h => absurd ⟨?_, ?_⟩ h⟩
      · exact runsHold_nil _ _ (Nat.zero_le _)
      · exact runsHold_nil _ _ (holds_zero A)
  | append_singleton p b ih =>
      rw [List.foldl_append, List.foldl_cons, List.foldl_nil] at hc ⊢
      rcases ih (clean_of_copyByte A K _ b hc) with ⟨hrun, hundef⟩
      by_cases hbound : Bounded A p
      · exact progress_concat A K old p _ b hbound (hrun hbound) hc
      · -- Once something undefined has happened nothing follows.
        have hstatus := hundef hbound
        rw [copyByte, Copy.andThen, if_neg (by rw [hstatus]; exact nofun)]
        refine ⟨fun h => absurd ⟨?_, ?_⟩ hbound, fun _ => hstatus⟩
        · exact runsHold_prefix _ _ _ _ (List.prefix_append p [b]) h.1
        · exact runsHold_prefix _ _ _ _ (List.prefix_append p [b]) h.2

end SparseCopy

end TlpiPractice
