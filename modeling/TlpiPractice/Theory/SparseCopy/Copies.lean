import TlpiPractice.Theory.SparseCopy.Progress

/-!
# When the Sparse Copy Is a Copy

The condition on the source and on the old destination under which a copy
that ends without an error has made the destination equal to the source.

Four things stand against it. A stretch without a zero that is longer than
`wbuf` is stored past its end. A stretch of zeros too long for `zero_cnt`
overflows it. Zeros at the end of the source are never turned into bytes of
the destination, whose length is then right only if it was before. And since
the destination is not truncated and zeros are skipped, an old destination
that is longer than the source stays longer, and one that has other bytes
where the source has zeros keeps them.

These are all: without them `main` returns 0 and the two files are equal.

## Main definitions

* `CopiesOver`: The condition.
* `reliable`: A kernel under which no call fails.
* `block`: A block of a few bytes.

## Theorems

* `laid_eq_iff`: When laying the source over the old destination gives it.
* `main_copies_iff`: The program makes a copy exactly under the condition.
* `main_loses_last_zeros`: A source that ends with a zero is not copied.
-/

namespace TlpiPractice

namespace SparseCopy

open ByteFile Stretches

/-- The source can be copied over the old content of the destination. -/
structure CopiesOver (A : CInt) (src old : List UInt8) : Prop where
  /-- No stretch is too long for `wbuf` or for `zero_cnt`. -/
  bounded : Bounded A src
  length_le : old.length ≤ src.length
  /-- A source that ends with a zero needs a destination of its length. -/
  last_zero : src.getLast? = some 0 → old.length = src.length
  /-- Where the source has a zero, so has the destination. -/
  under_zero : ∀ i, i < old.length → byteAt src i = 0 → byteAt old i = 0

/-- Zeros at the end do not count for the length. -/
theorem length_rdropWhile_lt (p : List UInt8) (h : p.getLast? = some 0) :
    (p.rdropWhile zero).length < p.length := by
  rcases List.getLast?_eq_some_iff.mp h with ⟨q, rfl⟩
  rw [List.rdropWhile_concat_pos _ _ _ (show zero 0 = true from rfl), List.length_append,
    List.length_singleton]
  exact Nat.lt_succ_of_le (List.rdropWhile_prefix zero q).length_le

/-- Without a zero at the end everything counts. -/
theorem rdropWhile_eq_self (p : List UInt8) (h : p.getLast? ≠ some 0) :
    p.rdropWhile zero = p := by
  refine List.rdropWhile_eq_self_iff.mpr (fun hne hz => h ?_)
  rw [zero, decide_eq_true_eq] at hz
  rw [List.getLast?_eq_getLast_of_ne_nil hne, hz]

/-- Laying the source over the old destination gives the source exactly when
    the old destination is not too long and leaves no byte of its own. -/
theorem laid_eq_iff (src old dest : List UInt8) (h : Laid old src dest) :
    dest = src ↔ old.length ≤ src.length ∧
      (src.getLast? = some 0 → old.length = src.length) ∧
      ∀ i, i < old.length → byteAt src i = 0 → byteAt old i = 0 := by
  have hlen := h.length
  constructor
  · intro heq
    rw [heq] at hlen
    refine ⟨by omega, fun hlast => ?_, fun i _ hz => ?_⟩
    · have := length_rdropWhile_lt src hlast
      omega
    · have hb := h.bytes i
      rw [heq, hz, if_pos rfl] at hb
      exact hb.symm
  · intro hcase
    rcases hcase with ⟨hle, hlast, hunder⟩
    refine ext_byteAt dest src ?_ (fun i _ => ?_)
    · by_cases hz : src.getLast? = some 0
      · have := length_rdropWhile_lt src hz
        have := hlast hz
        omega
      · rw [rdropWhile_eq_self src hz] at hlen
        omega
    · rw [h.bytes]
      by_cases hz : byteAt src i = 0
      · rw [if_pos hz, hz]
        by_cases hi : i < old.length
        · exact hunder i hi hz
        · exact byteAt_of_length_le old i (Nat.le_of_not_lt hi)
      · rw [if_neg hz]

/-- The split into blocks does not matter. -/
theorem foldl_copyBlock (A : CInt) (K : Kernel) (blocks : List Block) (s : Copy) :
    blocks.foldl (copyBlock A K) s = (source blocks).foldl (copyByte A K) s := by
  induction blocks generalizing s with
  | nil => rfl
  | cons block blocks ih =>
      rw [source, List.map_cons, List.flatten_cons, List.foldl_append, List.foldl_cons, ih]
      rfl

/-- What follows the loop, after everything has been read. -/
theorem finish_spec (K : Kernel) (old p : List UInt8) (s : Copy) (hp : Progress old p s)
    (hc : Clean (finish K s)) :
    (finish K s).status = .returned ∧ Laid old p (finish K s).dest := by
  rw [finish] at hc ⊢
  by_cases hend : K.readsEnd = true
  · rw [if_pos hend] at hc ⊢
    have hflush := clean_of_andThen _ _ (List.Subset.refl _) hc
    rcases flush_progress K old p s hp hflush with ⟨hlaid, _, _, _, hstatus⟩
    rw [Copy.andThen, if_pos hstatus]
    exact ⟨rfl, hlaid⟩
  · rw [if_neg hend] at hc
    exact absurd rfl (hc.not_exited readFailure)

theorem finish_calls (K : Kernel) (s : Copy) : s.calls ⊆ (finish K s).calls := by
  rw [finish]
  split
  · exact List.Subset.trans (flush_calls K s) (andThen_calls _ _ (List.Subset.refl _))
  · exact List.Subset.refl _

/-- When no call fails and every write is complete, `main` returns with the
    source laid over the old destination, unless a stretch is too long. -/
theorem main_spec (A : CInt) (K : Kernel) (blocks : List Block) (old : List UInt8)
    (hc : Clean (main A K blocks old)) :
    (Bounded A (source blocks) →
        (main A K blocks old).status = .returned ∧
          Laid old (source blocks) (main A K blocks old).dest) ∧
      (¬ Bounded A (source blocks) → (main A K blocks old).status = .undefined) := by
  rw [main] at hc ⊢
  by_cases hopen : K.opensSource = true ∧ K.opensDest = true
  · rw [if_pos hopen, foldl_copyBlock] at hc ⊢
    rcases copyBytes_spec A K old (source blocks)
      (clean_of_andThen _ _ (finish_calls K _) hc) with ⟨hrun, hundef⟩
    constructor
    · intro hbound
      have hp := hrun hbound
      rw [Copy.andThen, if_pos hp.status] at hc ⊢
      exact finish_spec K old _ _ hp hc
    · intro hbound
      have hstatus := hundef hbound
      have hne : ((source blocks).foldl (copyByte A K) (opened old)).status ≠ .running := by
        rw [hstatus]
        simp only [ne_eq, reduceCtorEq, not_false_eq_true]
      rw [Copy.andThen, if_neg hne]
      exact hstatus
  · rw [if_neg hopen] at hc
    exact absurd rfl (hc.not_exited openFailure)

/-- A run of the program in which no call fails and every write is complete
    returns with a destination equal to the source exactly when the source can
    be copied over the old destination. -/
theorem main_copies_iff (K : Kernel) (blocks : List Block) (old : List UInt8)
    (hexit : ∀ code, (main int32 K blocks old).status ≠ .exited code)
    (hwrites : ∀ off data taken, Sys.write off data taken ∈ (main int32 K blocks old).calls →
      taken = some data.length) :
    ((main int32 K blocks old).status = .returned ∧
        (main int32 K blocks old).dest = source blocks) ↔
      CopiesOver int32 (source blocks) old := by
  rcases main_spec int32 K blocks old ⟨hexit, hwrites⟩ with ⟨hret, hundef⟩
  constructor
  · intro h
    rcases h with ⟨hstatus, hdest⟩
    have hbound : Bounded int32 (source blocks) := by
      by_contra hb
      rw [hundef hb] at hstatus
      exact nomatch hstatus
    rcases (laid_eq_iff _ _ _ (hret hbound).2).mp hdest with ⟨hle, hlast, hunder⟩
    exact ⟨hbound, hle, hlast, hunder⟩
  · intro h
    have hmain := hret h.bounded
    exact ⟨hmain.1, (laid_eq_iff _ _ _ hmain.2).mpr ⟨h.length_le, h.last_zero, h.under_zero⟩⟩

/-- A kernel under which no call fails. -/
def reliable : Kernel where
  opensSource := true
  opensDest := true
  write := fun _ => some bufSize
  lseek := fun _ => true
  readsEnd := true

/-- A block of two bytes. -/
def block (a b : UInt8) : Block := ⟨[a, b], nofun, Nat.le_of_ble_eq_true rfl⟩

theorem main_copies_iff_reliable :
    ((main int32 reliable [block 7 0, block 0 8] [9, 0]).status = .returned ∧
        (main int32 reliable [block 7 0, block 0 8] [9, 0]).dest = [7, 0, 0, 8]) ↔
      CopiesOver int32 [7, 0, 0, 8] [9, 0] := by
  have hcalls : (main int32 reliable [block 7 0, block 0 8] [9, 0]).calls
      = [.write 0 [7] (some 1), .lseek 1 2 true, .write 3 [8] (some 1)] := by decide
  refine main_copies_iff reliable [block 7 0, block 0 8] [9, 0] (fun code => ?_)
    (fun off data taken hm => ?_)
  · rw [show (main int32 reliable [block 7 0, block 0 8] [9, 0]).status = .returned by decide]
    exact nofun
  · rw [hcalls] at hm
    simp only [List.mem_cons, Sys.write.injEq, reduceCtorEq, List.not_mem_nil, or_false,
      false_or] at hm
    rcases hm with ⟨_, rfl, rfl⟩ | ⟨_, rfl, rfl⟩
    · rfl
    · rfl

/-- The source is a byte followed by a zero, the destination is empty: no call
    fails, every write is complete, `main` returns 0, and the zero is
    missing. -/
theorem main_loses_last_zeros :
    (main int32 reliable [block 7 0] []).status = .returned ∧
      (main int32 reliable [block 7 0] []).calls = [.write 0 [7] (some 1)] ∧
      (main int32 reliable [block 7 0] []).dest ≠ source [block 7 0] := by
  decide

end SparseCopy

end TlpiPractice
