import TlpiPractice.Theory.Tail.Ring

/-!
# The Lines That Tail Prints

When the program prints what it should: the last lines of the file, as many as
it was asked for.

The loop at the end starts at `MAX(0, line_count - line_num + 1)`, which is
one line late. As long as there are fewer lines than asked for, the first
argument of `MAX` is the larger one and the slip does not show. From
`line_num` lines on it does: the ring has all of the last `line_num` lines,
and the program prints all but the first of them. Counting the lines printed
is enough to see that.

The other condition is about `int`. A line of 2^30 bytes fills a buffer whose
size cannot be doubled any more.

## Main definitions

* `Works`: No call fails.
* `PrintsLast`: The program prints the last lines of the file.

## Theorems

* `fits_int32`: The lines that fit in a buffer.
* `printLines_all`: What the loop prints when every buffer is a string.
* `printLines_length`: How many lines it prints in any case.
* `printsLast_iff_fits`: When the last lines are printed, for any `int`.
* `printsLast_iff`: When they are, with `int` of 32 bits.
-/

namespace TlpiPractice

namespace Tail

open TextLines

/-- No call fails. -/
structure Works (K : Kernel) : Prop where
  readsEnd : K.readsEnd = true
  realloc : ∀ i, K.realloc i ≠ none

/-- The program returns, and has printed the last `N` lines of the file, or
    all if there are fewer, after at most one notice. -/
def PrintsLast (A : CInt) (K : Kernel) (N : Nat) (blocks : List Block) : Prop :=
  (main A K N blocks).status = .returned ∧
    ∃ shown, (shown = [] ∨ ∃ n, shown = [.only n]) ∧
      (main A K N blocks).printed = shown ++
        ((lines newline (content blocks)).drop
          ((lines newline (content blocks)).length - N)).map .line

theorem firstPrinted_eq (N L : Nat) : firstPrinted N L = L + 1 - N := by
  unfold firstPrinted
  omega

/-! ### The printing loop -/

section Printing

variable (N : Nat)

theorem printLine_eq (s : Process) (i : Nat) (l : List UInt8) (hs : s.status = .running)
    (hl : (s.lines (i % N)).string = some l) :
    printLine N s i = { s with printed := s.printed ++ [.line l] } := by
  simp only [printLine, Process.andThen, hs, if_true, hl]

/-- When every buffer is a string the loop prints them all. -/
theorem printLines_all (indices : List Nat) (f : Nat → List UInt8) (s : Process)
    (hs : s.status = .running)
    (hf : ∀ i ∈ indices, (s.lines (i % N)).string = some (f i)) :
    indices.foldl (printLine N) s =
      { s with printed := s.printed ++ indices.map (fun i => .line (f i)) } := by
  induction indices generalizing s with
  | nil => rw [List.foldl_nil, List.map_nil, List.append_nil]
  | cons i indices ih =>
      have hrest : ∀ k ∈ indices, (s.lines (k % N)).string = some (f k) :=
        fun k hk => hf k (List.mem_cons_of_mem i hk)
      rw [List.foldl_cons, printLine_eq N s i (f i) hs (hf i List.mem_cons_self)]
      refine (ih { s with printed := s.printed ++ [.line (f i)] } hs hrest).trans ?_
      simp only [List.map_cons, List.append_assoc, List.singleton_append]

theorem printLines_stopped (indices : List Nat) (s : Process) (hs : s.status ≠ .running) :
    indices.foldl (printLine N) s = s := by
  induction indices with
  | nil => rfl
  | cons i indices ih =>
      rw [List.foldl_cons, printLine, andThen_stopped s _ hs]
      exact ih

theorem printLine_length (s : Process) (i : Nat) (h : (printLine N s i).status = .running) :
    (printLine N s i).printed.length = s.printed.length + 1 := by
  have hs := running_of_andThen s _ h
  rw [printLine, andThen_running s _ hs] at h ⊢
  cases hl : (s.lines (i % N)).string with
  | none =>
      rw [hl] at h
      exact nomatch h
  | some l => exact List.length_append

/-- The loop prints as many lines as it has rounds, if it gets to its end. -/
theorem printLines_length (indices : List Nat) (s : Process)
    (h : (indices.foldl (printLine N) s).status = .running) :
    (indices.foldl (printLine N) s).printed.length = s.printed.length + indices.length := by
  induction indices generalizing s with
  | nil => rfl
  | cons i indices ih =>
      rw [List.foldl_cons] at h ⊢
      -- A loop that gets to its end has got through its first round.
      have hone : (printLine N s i).status = .running := by
        by_contra hstop
        rw [printLines_stopped N indices _ hstop] at h
        exact hstop h
      rw [ih _ h, printLine_length N s i hone, List.length_cons]
      omega

/-- The loop does not end the process by itself. -/
theorem printLines_status (indices : List Nat) (s : Process) (hs : s.status ≠ .returned) :
    (indices.foldl (printLine N) s).status ≠ .returned := by
  induction indices generalizing s with
  | nil => exact hs
  | cons i indices ih =>
      refine ih _ ?_
      rw [printLine, Process.andThen]
      split
      · cases hl : (s.lines (i % N)).string with
        | none =>
            intro h
            cases h
        | some l => exact hs
      · exact hs

end Printing

/-! ### The program -/

section Program

variable (A : CInt) (K : Kernel) (N : Nat) (blocks : List Block)

/-- The lines in the ring are printed from the one with number `first` on. -/
theorem printed_of_done (s : Process) (ls : List (List UInt8)) (hs : s.status = .running)
    (hdone : Done A N s ls) (hnul : ∀ l ∈ ls, ∀ b ∈ l, b ≠ 0) (hfew : ls.length < N) :
    printLines N (notice N s) =
      { s with printed := .only ls.length :: ls.map .line } := by
  have hnotice : notice N s = { s with printed := [.only ls.length] } := by
    rw [notice, hdone.count, if_pos hfew, hdone.quiet]
    rfl
  have hfirst : firstPrinted N s.lineCount = 0 := by
    rw [firstPrinted_eq, hdone.count]
    omega
  have hstrings : ∀ i ∈ List.range' 0 s.lineCount,
      (s.lines (i % N)).string = some (ls.getD i []) := by
    intro i hi
    rw [hdone.count] at hi
    have hlt : i < ls.length := by
      have hmem := (List.mem_range'_1.mp hi).2
      omega
    have hget := List.getElem?_eq_getElem hlt
    rw [List.getD_eq_getElem?_getD, hget]
    -- With fewer lines than buffers no line has lost its own.
    exact string_of_holds _ _ (hnul _ (List.getElem_mem hlt)) (hdone.kept i _ hget (by omega))
  have hlines : (List.range' 0 s.lineCount).map (fun i => ls.getD i []) = ls := by
    rw [hdone.count]
    refine List.ext_getElem (by rw [List.length_map, List.length_range']) (fun i hi hi' => ?_)
    simp only [List.getElem_map, List.getElem_range', Nat.zero_add, Nat.one_mul,
      List.getD_eq_getElem?_getD, List.getElem?_eq_getElem hi', Option.getD_some]
  have hprint := congrArg (List.map Print.line) hlines
  rw [List.map_map] at hprint
  rw [hnotice]
  simp only [printLines, hfirst, Nat.sub_zero]
  refine (printLines_all N _ (fun i => ls.getD i [])
    { s with printed := [.only ls.length] } hs hstrings).trans ?_
  exact congrArg (fun l => { s with printed := .only ls.length :: l }) hprint

/-- From `N` lines on one line less is printed. -/
theorem printed_of_many (s : Process) (ls : List (List UInt8)) (hdone : Done A N s ls)
    (hmany : N ≤ ls.length) (hN : 0 < N)
    (hrun : (printLines N (notice N s)).status = .running) :
    (printLines N (notice N s)).printed.length = N - 1 := by
  have hnotice : notice N s = s := by
    rw [notice, hdone.count, if_neg (Nat.not_lt.mpr hmany)]
  rw [hnotice, printLines] at hrun ⊢
  rw [printLines_length N _ s hrun, hdone.quiet, List.length_range', firstPrinted_eq, hdone.count,
    List.length_nil]
  omega

/-- A file with few lines that all fit gets no counter to its end. -/
theorem not_exceeds_of_fits (p : List UInt8) (hheld : A.holds N = true)
    (hfew : (lines newline p).length < N) (hfits : ∀ l ∈ lines newline p, Fits A l.length) :
    ¬ Exceeds A p := by
  rintro ⟨q, hq, hcount | hpiece⟩
  · have hle := finished_length_le newline q p hq
    exact nomatch hcount.symm.trans (holds_of_le A _ N (by omega) hheld)
  · by_cases hnil : piece newline q = []
    · rw [hnil] at hpiece
      exact hpiece ⟨512, grown_first A, by simp only [List.length_nil]; omega⟩
    · rcases piece_begins_line newline q p hq hnil with ⟨l, hl, hpre⟩
      exact hpiece (fits_of_le A _ _ hpre.length_le (hfits l hl))

/-- When the last lines are printed: when there are fewer than asked for, and
    each of them fits in a buffer. -/
theorem printsLast_iff_fits (hK : Works K) (hN : 0 < N) (hheld : A.holds N = true)
    (hnul : ∀ b ∈ content blocks, b ≠ 0) :
    PrintsLast A K N blocks ↔ (lines newline (content blocks)).length < N ∧
      ∀ l ∈ lines newline (content blocks), Fits A l.length := by
  have hspec := readLines_spec A K N hN blocks _ rfl
  constructor
  · rintro ⟨hreturned, shown, hshown, hprinted⟩
    rw [main] at hreturned hprinted
    generalize (readAll A K N blocks).andThen (lastLine A N) = s at hspec hreturned hprinted
    -- A process that returns has read the whole file.
    have hs : s.status = .running := by
      by_contra hstop
      rw [andThen_stopped _ _ hstop] at hreturned
      rcases hspec with ⟨hrun, -⟩ | ⟨hexit, -⟩ | ⟨hundef, -⟩
      · exact hstop hrun
      · cases hexit.symm.trans hreturned
      · cases hundef.symm.trans hreturned
    rcases hspec with ⟨-, hdone⟩ | ⟨hexit, -⟩ | ⟨hundef, -⟩
    · refine ⟨?_, hdone.fits⟩
      by_contra hmany
      rw [andThen_running _ _ hs] at hreturned hprinted
      have hrun : (printLines N (notice N s)).status = .running := by
        by_contra hstop
        rw [andThen_stopped _ _ hstop] at hreturned
        refine printLines_status N _ (notice N s) ?_ hreturned
        have hne : s.status ≠ .returned := by
          intro h
          cases hs.symm.trans h
        rw [notice]
        split <;> exact hne
      rw [andThen_running _ _ hrun] at hprinted
      -- The ring has the last `N` lines, but the first of them is passed over.
      have hlength := (congrArg List.length hprinted).symm.trans
        (printed_of_many A N s _ hdone (Nat.not_lt.mp hmany) hN hrun)
      rw [List.length_append, List.length_map, List.length_drop] at hlength
      omega
    · cases hexit.symm.trans hs
    · cases hundef.symm.trans hs
  · rintro ⟨hfew, hfits⟩
    rw [PrintsLast, main]
    generalize (readAll A K N blocks).andThen (lastLine A N) = s at hspec ⊢
    rcases hspec with ⟨hs, hdone⟩ | ⟨-, hfail⟩ | ⟨-, hover⟩
    · have hlines : ∀ l ∈ lines newline (content blocks), ∀ b ∈ l, b ≠ 0 :=
        fun l hl b hb => hnul b (mem_of_mem_lines newline _ l hl b hb)
      have hprint := printed_of_done A N s _ hs hdone hlines hfew
      simp only [hprint, Process.andThen, hs, if_true, true_and]
      refine ⟨[.only (lines newline (content blocks)).length], .inr ⟨_, rfl⟩, ?_⟩
      rw [Nat.sub_eq_zero_of_le (Nat.le_of_lt hfew), List.drop_zero, List.singleton_append]
    · rcases hfail with hfail | ⟨i, hi⟩
      · cases hK.readsEnd.symm.trans hfail
      · exact absurd hi (hK.realloc i)
    · rcases hover with hover | hover
      · exact absurd hover (not_exceeds_of_fits A N _ hheld hfew hfits)
      · cases hover.symm.trans (holds_of_le A _ N (Nat.le_of_lt hfew) hheld)

end Program

/-- A line fits while it is shorter than 2^30 bytes. -/
theorem fits_int32 (n : Nat) : Fits int32 n ↔ n < 1073741824 := by
  constructor
  · rintro ⟨_, ⟨hheld, k, rfl⟩, hlt⟩
    have hmax : 512 * 2 ^ k ≤ 2147483647 := of_decide_eq_true hheld
    -- 2^31 is the first size that is too large.
    have hk : k < 22 := by
      by_contra hk
      have hpow : 2 ^ 22 ≤ 2 ^ k := Nat.pow_le_pow_right (by omega) (by omega)
      omega
    have hpow : 2 ^ k ≤ 2 ^ 21 := Nat.pow_le_pow_right (by omega) (by omega)
    omega
  · intro hn
    exact ⟨1073741824, ⟨by decide, 21, by decide⟩, hn⟩

/-- With `int` of 32 bits the last lines are printed when there are fewer
    lines than asked for, each shorter than 2^30 bytes, and only then. -/
theorem printsLast_iff (K : Kernel) (hK : Works K) (N : Nat) (hN : 0 < N) (hmax : N ≤ 2147483647)
    (blocks : List Block) (hnul : ∀ b ∈ content blocks, b ≠ 0) :
    PrintsLast int32 K N blocks ↔ (lines newline (content blocks)).length < N ∧
      ∀ l ∈ lines newline (content blocks), l.length < 1073741824 := by
  have hheld : int32.holds N = true := decide_eq_true hmax
  rw [printsLast_iff_fits int32 K N blocks hK hN hheld hnul]
  exact and_congr_right (fun _ => forall₂_congr (fun l _ => fits_int32 l.length))

theorem printsLast_iff_twoBlocks :
    PrintsLast int32 plainKernel 4 twoBlocks ↔
      (lines newline (content twoBlocks)).length < 4 ∧
        ∀ l ∈ lines newline (content twoBlocks), l.length < 1073741824 := by
  refine printsLast_iff plainKernel ⟨rfl, nofun⟩ 4 (by decide) (by decide) twoBlocks ?_
  intro b hb
  have hbytes : b ∈ [97, 10, 98, 98, 10, 99] := hb
  simp only [List.mem_cons, List.not_mem_nil, or_false] at hbytes
  rcases hbytes with rfl | rfl | rfl | rfl | rfl | rfl <;> exact nofun

/-- Asked for the last two of three lines, the program prints the last one. -/
theorem twoBlocks_not_printed :
    (main int32 plainKernel 2 twoBlocks).printed = [.line [99]] ∧
      ¬ PrintsLast int32 plainKernel 2 twoBlocks := by
  have hprinted : (main int32 plainKernel 2 twoBlocks).printed = [.line [99]] := by
    decide +kernel
  refine ⟨hprinted, ?_⟩
  rintro ⟨-, shown, -, hshown⟩
  rw [hprinted] at hshown
  have hlength := congrArg List.length hshown
  rw [List.length_append] at hlength
  have hlast : (((lines newline (content twoBlocks)).drop
      ((lines newline (content twoBlocks)).length - 2)).map Print.line).length = 2 := rfl
  rw [hlast, List.length_singleton] at hlength
  omega

end Tail

end TlpiPractice
