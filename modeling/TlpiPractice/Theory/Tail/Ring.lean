import TlpiPractice.Core.Tail
import TlpiPractice.Library.TextLines

/-!
# The Ring of Line Buffers

What the buffers of tail contain while the file is read, for any file, any
way of reading it and any number of lines asked for.

At each point of the file some lines have ended and a piece follows them. The
piece is at the front of the buffer it will end in, and there is room behind
it, since a buffer that has become full is doubled at once. The lines that
have ended last are each in a buffer of their own with a NUL behind. How many
of them is what the invariant has to say: the piece takes the buffer of the
oldest one as soon as it is not empty, so a line is kept while fewer than
`line_num` lines have begun after it. `ending` makes a line of the piece when
there is one, so the lines that have begun are the ones that have ended
followed by the ending of the piece.

Reading a byte either keeps the invariant, or finds no memory, or overflows a
counter. `step_newline` and `step_other` say which, and `reads_spec` what that
makes of a whole run: it goes on, or some call failed, or the part of the file
read so far has too many lines or too long a one.

## Main definitions

* `contents`: The first bytes of a buffer.
* `Holds`: A buffer begins with some bytes.
* `Grown`, `Fits`: The sizes a buffer can have, and the lines that fit in one.
* `Ring`: The invariant.
* `AtByte`: The states at the head of the inner loop.

## Theorems

* `slot_ne`: Fewer than `line_num` lines apart, buffers differ.
* `kept_store`: The NUL ends the piece and makes a line of it.
* `step_newline`, `step_other`: One byte.
* `reads_spec`: Any number of bytes.
* `lastLine_spec`: The piece at the end of the file.
* `ring_holds`: The invariant, and what it leaves after the loop.
-/

namespace TlpiPractice

namespace Tail

open TextLines

/-! ### The bytes of a buffer -/

/-- The first bytes of a buffer. -/
def contents (buf : Nat → UInt8) (n : Nat) : List UInt8 := (List.range n).map buf

/-- The buffer begins with these bytes. -/
def Holds (l : Line) (bytes : List UInt8) : Prop :=
  bytes.length ≤ l.size ∧ contents l.buf bytes.length = bytes

theorem contents_succ (buf : Nat → UInt8) (n : Nat) :
    contents buf (n + 1) = contents buf n ++ [buf n] := by
  rw [contents, List.range_succ, List.map_append, List.map_singleton, contents]

theorem contents_congr (buf buf' : Nat → UInt8) (n : Nat) (h : ∀ i < n, buf' i = buf i) :
    contents buf' n = contents buf n :=
  List.map_congr_left (fun i hi => h i (List.mem_range.mp hi))

/-- A store behind the first bytes appends one. -/
theorem contents_store (buf : Nat → UInt8) (n : Nat) (b : UInt8) :
    contents (Function.update buf n b) (n + 1) = contents buf n ++ [b] := by
  rw [contents_succ, Function.update_self]
  refine congrArg (fun l => l ++ [b]) (contents_congr _ _ n (fun i hi => ?_))
  exact Function.update_of_ne (Nat.ne_of_lt hi) b buf

/-- A buffer that holds a string with its NUL is that string. -/
theorem string_of_holds (l : Line) (s : List UInt8) (hs : ∀ b ∈ s, b ≠ 0)
    (h : Holds l (s ++ [0])) : l.string = some s := by
  rcases h with ⟨hsize, hbytes⟩
  rcases Nat.exists_eq_add_of_le hsize with ⟨n, hn⟩
  have hall : (List.range l.size).map l.buf =
      s ++ 0 :: (List.range n).map (fun i => l.buf ((s ++ [0]).length + i)) := by
    rw [hn, List.range_add, List.map_append, List.map_map]
    refine (congrArg (fun x => x ++ _) hbytes).trans ?_
    rw [List.append_assoc, List.singleton_append]
    rfl
  rw [Line.string, hall]
  simp only [List.mem_append, List.mem_cons, true_or, or_true, if_true]
  rw [CString.str_append s _ hs]

/-! ### The sizes of the buffers -/

/-- A size that doubling leads to and that `int` can hold. -/
def Grown (A : CInt) (n : Nat) : Prop := A.holds n = true ∧ ∃ k, n = 512 * 2 ^ k

/-- A line of this length fits in a buffer with its NUL. -/
def Fits (A : CInt) (n : Nat) : Prop := ∃ m, Grown A m ∧ n < m

theorem holds_of_le (A : CInt) (m n : Nat) (hmn : m ≤ n) (h : A.holds n = true) :
    A.holds m = true := by
  rw [CInt.holds, Option.all_eq_true] at h ⊢
  intro k hk
  exact decide_eq_true (Nat.le_trans hmn (of_decide_eq_true (h k hk)))

theorem grown_first (A : CInt) : Grown A 512 := by
  refine ⟨?_, 0, rfl⟩
  rw [CInt.holds, Option.all_eq_true]
  intro m hm
  exact decide_eq_true (Nat.le_trans (by omega) (A.wide m hm))

theorem grown_pos (A : CInt) (n : Nat) (h : Grown A n) : 0 < n := by
  rcases h with ⟨-, k, rfl⟩
  exact Nat.mul_pos (by omega) (Nat.two_pow_pos k)

theorem grown_double (A : CInt) (n : Nat) (h : Grown A n) (hn : A.holds (n * 2) = true) :
    Grown A (n * 2) := by
  rcases h with ⟨-, k, rfl⟩
  exact ⟨hn, k + 1, by rw [Nat.pow_succ, Nat.mul_assoc]⟩

/-- A line as long as a buffer only fits if the buffer can be doubled. -/
theorem holds_of_fits (A : CInt) (n : Nat) (h : Grown A n) (hfits : Fits A n) :
    A.holds (n * 2) = true := by
  rcases h with ⟨-, k, rfl⟩
  rcases hfits with ⟨_, ⟨hheld, k', rfl⟩, hlt⟩
  -- The size the line would fit in is a later one, so the next one is not too large.
  have hk : k < k' := (Nat.pow_lt_pow_iff_right (by omega)).mp (Nat.lt_of_mul_lt_mul_left hlt)
  refine holds_of_le A _ _ ?_ hheld
  rw [Nat.mul_assoc, ← Nat.pow_succ]
  exact Nat.mul_le_mul_left _ (Nat.pow_le_pow_right (by omega) hk)

theorem fits_of_le (A : CInt) (m n : Nat) (hmn : m ≤ n) (h : Fits A n) : Fits A m := by
  rcases h with ⟨k, hk, hn⟩
  exact ⟨k, hk, Nat.lt_of_le_of_lt hmn hn⟩

/-! ### The lines kept -/

/-- Of the lines that have ended, those that fewer than `N` lines have begun
    after are in their buffers. -/
def Kept (N : Nat) (lines : Nat → Line) (ls : List (List UInt8)) (begun : Nat) : Prop :=
  ∀ k l, ls[k]? = some l → begun ≤ k + N → Holds (lines (k % N)) (l ++ [0])

/-- The invariant: some lines have ended, and a piece follows them. -/
structure Ring (A : CInt) (N : Nat) (s : Process) (ls : List (List UInt8)) (r : List UInt8) :
    Prop where
  count : s.lineCount = ls.length
  place : s.j = r.length
  sizes : ∀ i, Grown A (s.lines i).size
  room : r.length < (s.lines (ls.length % N)).size
  pending : contents (s.lines (ls.length % N)).buf r.length = r
  kept : Kept N s.lines ls (ls ++ ending r).length
  fits : ∀ l ∈ ls, Fits A l.length
  quiet : s.printed = []

theorem length_ending_le (ls : List (List UInt8)) (r : List UInt8) :
    (ls ++ ending r).length ≤ ls.length + 1 := by
  rw [List.length_append]
  cases r <;> simp only [ending, List.length_nil, List.length_singleton] <;> omega

/-- Fewer than `N` lines apart, buffers differ. -/
theorem slot_ne (N k n : Nat) (hk : k < n) (hn : n < k + N) : k % N ≠ n % N := by
  intro h
  have hmod : (n - k) % N = 0 := Nat.sub_mod_eq_zero_of_mod_eq h.symm
  rw [Nat.mod_eq_of_lt (by omega)] at hmod
  omega

theorem kept_mono (N : Nat) (lines : Nat → Line) (ls : List (List UInt8)) (m n : Nat)
    (hmn : m ≤ n) (h : Kept N lines ls m) : Kept N lines ls n :=
  fun k l hkl hn => h k l hkl (Nat.le_trans hmn hn)

/-- The buffer of the line being read holds none of those kept. -/
theorem kept_update (N : Nat) (lines : Nat → Line) (ls : List (List UInt8)) (x : Line)
    (h : Kept N lines ls (ls.length + 1)) :
    Kept N (Function.update lines (ls.length % N) x) ls (ls.length + 1) := by
  intro k l hkl hn
  have hk : k < ls.length := (List.getElem?_eq_some_iff.mp hkl).1
  rw [Function.update_of_ne (slot_ne N k ls.length hk (by omega))]
  exact h k l hkl hn

/-- The NUL ends the piece and makes a line of it. -/
theorem kept_store (A : CInt) (N : Nat) (s : Process) (ls : List (List UInt8)) (r : List UInt8)
    (h : Ring A N s ls r) :
    Kept N (Function.update s.lines (ls.length % N)
      ⟨Function.update (s.lines (ls.length % N)).buf r.length 0,
        (s.lines (ls.length % N)).size⟩) (ls ++ [r]) (ls.length + 1) := by
  have hold := kept_mono N s.lines ls _ _ (length_ending_le ls r) h.kept
  intro k l hkl hn
  -- Either a line that had ended before, in another buffer, or the one that ends here.
  rcases Nat.lt_trichotomy k ls.length with hk | hk | hk
  · rw [List.getElem?_append_left hk] at hkl
    exact kept_update N s.lines ls _ hold k l hkl hn
  · subst hk
    rw [List.getElem?_concat_length, Option.some.injEq] at hkl
    subst hkl
    rw [Function.update_self]
    refine ⟨?_, ?_⟩
    · rw [List.length_append, List.length_singleton]
      exact h.room
    · rw [List.length_append, List.length_singleton, contents_store, h.pending]
  · rw [List.getElem?_append_right (Nat.le_of_lt hk), List.getElem?_eq_none] at hkl
    · exact nomatch hkl
    · rw [List.length_singleton]
      omega

theorem fits_piece (A : CInt) (N : Nat) (s : Process) (ls : List (List UInt8)) (r : List UInt8)
    (h : Ring A N s ls r) : Fits A r.length :=
  ⟨_, h.sizes _, h.room⟩

/-! ### One byte -/

theorem andThen_running (s : Process) (f : Process → Process) (h : s.status = .running) :
    s.andThen f = f s := if_pos h

theorem andThen_stopped (s : Process) (f : Process → Process) (h : s.status ≠ .running) :
    s.andThen f = s := if_neg h

theorem running_of_andThen (s : Process) (f : Process → Process)
    (h : (s.andThen f).status = .running) : s.status = .running := by
  by_contra hs
  rw [andThen_stopped s f hs] at h
  exact hs h

section Step

variable (A : CInt) (K : Kernel) (N : Nat) (s : Process) (ls : List (List UInt8))
variable (r : List UInt8)

/-- The buffer of the line being read, after a store. -/
def written (b : UInt8) : Line :=
  ⟨Function.update (s.lines (ls.length % N)).buf r.length b, (s.lines (ls.length % N)).size⟩

theorem store_eq (b : UInt8) (h : Ring A N s ls r) :
    store (ls.length % N) b s =
      { s with lines := Function.update s.lines (ls.length % N) (written N s ls r b) } := by
  simp only [store, h.place, if_pos h.room, written]

theorem sizes_update (x : Line) (i : Nat) (hx : Grown A x.size)
    (h : ∀ i, Grown A (s.lines i).size) (k : Nat) :
    Grown A (Function.update s.lines i x k).size := by
  by_cases hk : k = i
  · rw [hk, Function.update_self]
    exact hx
  · rw [Function.update_of_ne hk]
    exact h k

/-- A newline ends the line, unless there are too many. -/
theorem step_newline (hN : 0 < N) (hs : s.status = .running) (h : Ring A N s ls r) :
    ((tailByte A K N s newline).status = .running ∧
      Ring A N (tailByte A K N s newline) (ls ++ [r]) []) ∨
    ((tailByte A K N s newline).status = .undefined ∧ A.holds (ls.length + 1) = false) := by
  have hfull : ¬ 0 = (s.lines (ls.length % N)).size :=
    (Nat.ne_of_lt (grown_pos A _ (h.sizes _)))
  by_cases hcount : A.holds (ls.length + 1) = true
  · have hstep : tailByte A K N s newline =
        { s with
          lines := Function.update s.lines (ls.length % N) (written N s ls r 0)
          lineCount := ls.length + 1
          j := 0 } := by
      simp only [tailByte, Process.andThen, hs, if_true, if_neg hN.ne', h.count,
        store_eq A N s ls r 0 h, countLine, hcount, grow, Function.update_self, written,
        if_neg hfull]
    have hsizes := sizes_update A s (written N s ls r 0) (ls.length % N) (h.sizes _) h.sizes
    -- With `j` back at zero no buffer is full, so none grows.
    rw [hstep]
    refine .inl ⟨hs, ?_, rfl, hsizes, grown_pos A _ (hsizes _), rfl, ?_, ?_, h.quiet⟩
    · rw [List.length_append, List.length_singleton]
    · rw [ending, List.append_nil, List.length_append, List.length_singleton]
      exact kept_store A N s ls r h
    · intro l hl
      rcases List.mem_append.mp hl with hl | hl
      · exact h.fits l hl
      · rw [List.mem_singleton.mp hl]
        exact fits_piece A N s ls r h
  · refine .inr ⟨?_, Bool.eq_false_iff.mpr hcount⟩
    simp only [tailByte, Process.andThen, hs, if_true, if_neg hN.ne', h.count,
      store_eq A N s ls r 0 h, countLine, hcount, if_false, reduceCtorEq]

/-- A byte of the line has been stored, and its buffer has room again. -/
theorem ring_extend (b : UInt8) (buf : Nat → UInt8) (size reallocs : Nat) (h : Ring A N s ls r)
    (hbuf : contents buf (r.length + 1) = r ++ [b]) (hsize : Grown A size)
    (hroom : r.length + 1 < size) :
    Ring A N
      { s with
        lines := Function.update s.lines (ls.length % N) ⟨buf, size⟩
        j := r.length + 1
        reallocs := reallocs } ls (r ++ [b]) := by
  have hlength : (r ++ [b]).length = r.length + 1 := by
    rw [List.length_append, List.length_singleton]
  have hbegun : (ls ++ ending (r ++ [b])).length = ls.length + 1 := by
    rw [List.length_append]
    cases r <;> rfl
  refine ⟨h.count, hlength.symm, ?_, ?_, ?_, ?_, h.fits, h.quiet⟩
  · exact sizes_update A s ⟨buf, size⟩ _ hsize h.sizes
  · simp only [hlength, Function.update_self]
    exact hroom
  · simp only [hlength, Function.update_self]
    exact hbuf
  · rw [hbegun]
    exact kept_update N s.lines ls _ (kept_mono N s.lines ls _ _ (length_ending_le ls r) h.kept)

/-- Another byte makes the line longer. If that fills its buffer, the buffer
    is doubled, unless it cannot get that large or there is no memory. -/
theorem step_other (hN : 0 < N) (b : UInt8) (hb : b ≠ newline) (hs : s.status = .running)
    (h : Ring A N s ls r) :
    ((tailByte A K N s b).status = .running ∧
      Ring A N (tailByte A K N s b) ls (r ++ [b])) ∨
    ((tailByte A K N s b).status = .exited ∧ ∃ i, K.realloc i = none) ∨
    ((tailByte A K N s b).status = .undefined ∧ ¬ Fits A (r.length + 1)) := by
  have hgrown := h.sizes (ls.length % N)
  have hstored : contents (written N s ls r b).buf (r.length + 1) = r ++ [b] :=
    (contents_store _ _ _).trans (congrArg (fun l => l ++ [b]) h.pending)
  have hj : A.holds (r.length + 1) = true := holds_of_le A _ _ h.room hgrown.1
  have hstep : tailByte A K N s b =
      grow A K (ls.length % N)
        { s with
          lines := Function.update s.lines (ls.length % N) (written N s ls r b)
          j := r.length + 1 } := by
    simp only [tailByte, Process.andThen, hs, if_true, if_neg hN.ne', h.count, if_neg hb,
      store_eq A N s ls r b h, advance, h.place, hj]
  rw [hstep, grow]
  simp only [Function.update_self]
  by_cases hfull : r.length + 1 = (written N s ls r b).size
  · rw [if_pos hfull]
    -- The buffer is full: it is doubled before the next byte.
    by_cases hholds : A.holds ((written N s ls r b).size * 2) = true
    · rw [if_pos hholds]
      cases hK : K.realloc s.reallocs with
      | none => exact .inr (.inl ⟨rfl, _, hK⟩)
      | some junk =>
          refine .inl ⟨hs, ?_⟩
          simp only [Function.update_idem]
          refine ring_extend A N s ls r b _ _ _ h ?_ (grown_double A _ hgrown hholds) ?_
          · -- `realloc` keeps what the old buffer had.
            refine (contents_congr _ _ _ (fun i hi => ?_)).trans hstored
            exact if_pos (hfull ▸ hi)
          · rw [← hfull]
            omega
    · rw [if_neg hholds]
      refine .inr (.inr ⟨rfl, fun hfits => hholds ?_⟩)
      rw [hfull] at hfits
      exact holds_of_fits A _ hgrown hfits
  · rw [if_neg hfull]
    refine .inl ⟨hs, ring_extend A N s ls r b _ _ _ h hstored hgrown ?_⟩
    exact Nat.lt_of_le_of_ne h.room hfull

end Step

/-! ### The whole file -/

section Whole

variable (A : CInt) (K : Kernel) (N : Nat)

/-- The state after some bytes of the file. -/
def after (p : List UInt8) : Process := p.foldl (tailByte A K N) (opened K)

theorem after_concat (p : List UInt8) (b : UInt8) :
    after A K N (p ++ [b]) = tailByte A K N (after A K N p) b := by
  simp only [after, List.foldl_append, List.foldl_cons, List.foldl_nil]

/-- The blocks a file is read in do not matter. -/
theorem foldl_tailBlock (blocks : List Block) :
    blocks.foldl (tailBlock A K N) (opened K) = after A K N (content blocks) := by
  rw [after, content, List.foldl_flatten, List.foldl_map]
  rfl

theorem ring_opened : Ring A N (opened K) [] [] where
  count := rfl
  place := rfl
  sizes := fun _ => grown_first A
  room := by simp only [opened, List.length_nil]; omega
  pending := rfl
  kept := fun k l hkl => nomatch hkl
  fits := fun l hl => absurd hl List.not_mem_nil
  quiet := rfl

/-- Some line of the file read so far was too long, or there were too many. -/
def Exceeds (p : List UInt8) : Prop :=
  ∃ q, q <+: p ∧ (A.holds (finished newline q).length = false ∨ ¬ Fits A (piece newline q).length)

theorem tailByte_stopped (s : Process) (b : UInt8) (h : s.status ≠ .running) :
    tailByte A K N s b = s := andThen_stopped s _ h

/-- The state after any number of bytes. -/
theorem reads_spec (hN : 0 < N) (p : List UInt8) :
    ((after A K N p).status = .running ∧
      Ring A N (after A K N p) (finished newline p) (piece newline p)) ∨
    ((after A K N p).status = .exited ∧ ∃ i, K.realloc i = none) ∨
    ((after A K N p).status = .undefined ∧ Exceeds A p) := by
  induction p using List.reverseRecOn with
  | nil => exact .inl ⟨rfl, ring_opened A K N⟩
  | append_singleton p b ih =>
      rw [after_concat]
      rcases ih with ⟨hs, hring⟩ | ⟨hs, hK⟩ | ⟨hs, q, hq, hover⟩
      · by_cases hb : b = newline
        · subst hb
          rw [finished_concat_self, piece_concat_self]
          rcases step_newline A K N _ _ _ hN hs hring with hstep | ⟨hstep, hcount⟩
          · exact .inl hstep
          · refine .inr (.inr ⟨hstep, _, List.prefix_refl _, .inl ?_⟩)
            rw [finished_concat_self, List.length_append]
            exact hcount
        · rw [finished_concat newline p b hb, piece_concat newline p b hb]
          rcases step_other A K N _ _ _ hN b hb hs hring with hstep | hstep | ⟨hstep, hfits⟩
          · exact .inl hstep
          · exact .inr (.inl hstep)
          · refine .inr (.inr ⟨hstep, _, List.prefix_refl _, .inr ?_⟩)
            rw [piece_concat newline p b hb, List.length_append]
            exact hfits
      · -- Nothing happens to a process that has ended.
        rw [tailByte_stopped A K N _ b (by rw [hs]; exact nofun)]
        exact .inr (.inl ⟨hs, hK⟩)
      · rw [tailByte_stopped A K N _ b (by rw [hs]; exact nofun)]
        exact .inr (.inr ⟨hs, q, hq.trans (List.prefix_append p [b]), hover⟩)

/-- All lines of the file have ended, and the last of them are kept. -/
structure Done (s : Process) (ls : List (List UInt8)) : Prop where
  count : s.lineCount = ls.length
  kept : Kept N s.lines ls ls.length
  fits : ∀ l ∈ ls, Fits A l.length
  quiet : s.printed = []

/-- What follows the last newline becomes a line. -/
theorem lastLine_spec (s : Process) (ls : List (List UInt8)) (r : List UInt8)
    (hs : s.status = .running) (h : Ring A N s ls r) :
    ((lastLine A N s).status = .running ∧ Done A N (lastLine A N s) (ls ++ ending r)) ∨
    ((lastLine A N s).status = .undefined ∧ A.holds (ls ++ ending r).length = false) := by
  cases r with
  | nil =>
      -- The file ended with a newline, or was empty.
      have hsame : lastLine A N s = s := if_neg (not_not.mpr h.place)
      have hkept := h.kept
      rw [hsame]
      rw [ending, List.append_nil] at hkept ⊢
      exact .inl ⟨hs, h.count, hkept, h.fits, h.quiet⟩
  | cons a r =>
      have hj : s.j ≠ 0 := by
        rw [h.place]
        exact nofun
      have hlast : lastLine A N s = countLine A
          { s with
            lines := Function.update s.lines (ls.length % N) (written N s ls (a :: r) 0) } := by
        simp only [lastLine, if_pos hj, h.count, store_eq A N s ls _ 0 h, Process.andThen, hs,
          if_true]
      rw [hlast, countLine, ending, List.length_append, List.length_singleton, h.count]
      by_cases hcount : A.holds (ls.length + 1) = true
      · rw [if_pos hcount]
        refine .inl ⟨hs, ?_, ?_, ?_, h.quiet⟩
        · rw [List.length_append, List.length_singleton]
        · rw [List.length_append, List.length_singleton]
          exact kept_store A N s ls _ h
        · intro l hl
          rcases List.mem_append.mp hl with hl | hl
          · exact h.fits l hl
          · rw [List.mem_singleton.mp hl]
            exact fits_piece A N s ls _ h
      · rw [if_neg hcount]
        exact .inr ⟨rfl, Bool.eq_false_iff.mpr hcount⟩

/-- The state when the loop and the last line are done. -/
theorem readLines_spec (hN : 0 < N) (blocks : List Block) (s : Process)
    (hs : s = (readAll A K N blocks).andThen (lastLine A N)) :
    (s.status = .running ∧ Done A N s (lines newline (content blocks))) ∨
    (s.status = .exited ∧ (K.readsEnd = false ∨ ∃ i, K.realloc i = none)) ∨
    (s.status = .undefined ∧ (Exceeds A (content blocks) ∨
      A.holds (lines newline (content blocks)).length = false)) := by
  rw [readAll, foldl_tailBlock] at hs
  rw [lines_eq]
  rcases reads_spec A K N hN (content blocks) with ⟨hrun, hring⟩ | ⟨hexit, hK⟩ | ⟨hundef, hover⟩
  · rw [andThen_running _ _ hrun] at hs
    by_cases hread : K.readsEnd = true
    · rw [if_pos hread, andThen_running _ _ hrun] at hs
      subst hs
      rcases lastLine_spec A N _ _ _ hrun hring with hlast | ⟨hlast, hcount⟩
      · exact .inl hlast
      · exact .inr (.inr ⟨hlast, .inr hcount⟩)
    · rw [if_neg hread] at hs
      subst hs
      exact .inr (.inl ⟨rfl, .inl (Bool.eq_false_iff.mpr hread)⟩)
  · have hstop : (after A K N (content blocks)).status ≠ .running := by
      rw [hexit]
      exact nofun
    rw [andThen_stopped _ _ hstop, andThen_stopped _ _ hstop] at hs
    subst hs
    exact .inr (.inl ⟨hexit, .inr hK⟩)
  · have hstop : (after A K N (content blocks)).status ≠ .running := by
      rw [hundef]
      exact nofun
    rw [andThen_stopped _ _ hstop, andThen_stopped _ _ hstop] at hs
    subst hs
    exact .inr (.inr ⟨hundef, .inl hover⟩)

end Whole

/-- The states at the head of the inner loop: some blocks have been read, and
    some bytes of one more have been seen to. -/
def AtByte (A : CInt) (K : Kernel) (N : Nat) (blocks : List Block) (s : Process) : Prop :=
  ∃ done block rest u v, blocks = done ++ block :: rest ∧ block.bytes = u ++ v ∧
    s = u.foldl (tailByte A K N) (done.foldl (tailBlock A K N) (opened K))

theorem after_of_atByte (A : CInt) (K : Kernel) (N : Nat) (blocks : List Block) (s : Process)
    (h : AtByte A K N blocks s) : ∃ p, p <+: content blocks ∧ s = after A K N p := by
  rcases h with ⟨done, block, rest, u, v, rfl, hbytes, rfl⟩
  refine ⟨content done ++ u, ⟨v ++ content rest, ?_⟩, ?_⟩
  · simp only [content, List.map_append, List.map_cons, List.flatten_append, List.flatten_cons,
      hbytes, List.append_assoc]
  · rw [foldl_tailBlock, after, after, List.foldl_append]

/-- Without bounds nothing is too long and nothing too many. -/
theorem not_exceeds (p : List UInt8) : ¬ Exceeds unbounded p := by
  rintro ⟨q, -, hcount | hfits⟩
  · exact nomatch hcount
  · refine hfits ⟨512 * 2 ^ (piece newline q).length, ⟨rfl, _, rfl⟩, ?_⟩
    have hlt : (piece newline q).length < 2 ^ (piece newline q).length := Nat.lt_two_pow_self
    omega

/-- The ring of tail, for any file read in any way, with counters that never
    run out. No byte is ever stored outside of its buffer, and after the loop
    the last lines are in their buffers. -/
theorem ring_holds (K : Kernel) (N : Nat) (hN : 0 < N) (blocks : List Block) :
    (∀ s, AtByte unbounded K N blocks s → s.status ≠ .undefined ∧
      (s.status = .running → s.j < (s.lines (s.lineCount % N)).size)) ∧
    ∀ s, s = (readAll unbounded K N blocks).andThen (lastLine unbounded N) →
      s.status ≠ .undefined ∧
      (K.readsEnd = true → (∀ i, K.realloc i ≠ none) → s.status = .running) ∧
      (s.status = .running → s.lineCount = (lines newline (content blocks)).length ∧
        ∀ k, s.lineCount - N ≤ k → k < s.lineCount →
          ∃ l, (lines newline (content blocks))[k]? = some l ∧
            Holds (s.lines (k % N)) (l ++ [0])) := by
  constructor
  · intro s hat
    rcases after_of_atByte unbounded K N blocks s hat with ⟨p, -, rfl⟩
    rcases reads_spec unbounded K N hN p with ⟨hs, hring⟩ | ⟨hs, -⟩ | ⟨-, hover⟩
    · refine ⟨by rw [hs]; exact nofun, fun _ => ?_⟩
      rw [hring.place, hring.count]
      exact hring.room
    · rw [hs]
      exact ⟨nofun, nofun⟩
    · exact absurd hover (not_exceeds p)
  · intro s hdone
    rcases readLines_spec unbounded K N hN blocks s hdone with ⟨hs, hlines⟩ | ⟨hs, hK⟩ | ⟨-, hover⟩
    · refine ⟨by rw [hs]; exact nofun, fun _ _ => hs, fun _ => ⟨hlines.count, fun k hold hk => ?_⟩⟩
      rw [hlines.count] at hold hk
      exact ⟨_, List.getElem?_eq_getElem hk,
        hlines.kept k _ (List.getElem?_eq_getElem hk) (by omega)⟩
    · rw [hs]
      refine ⟨nofun, fun hread hmem => ?_, nofun⟩
      rcases hK with hK | ⟨i, hi⟩
      · exact nomatch hread.symm.trans hK
      · exact absurd hi (hmem i)
    · rcases hover with hover | hover
      · exact absurd hover (not_exceeds _)
      · exact nomatch hover

/-- A file in two blocks, with a line across them. -/
def twoBlocks : List Block :=
  [⟨[97, 10, 98], nofun, by decide⟩, ⟨[98, 10, 99], nofun, by decide⟩]

/-- Calls that go well. -/
def plainKernel : Kernel where
  junk := fun _ _ => 0
  realloc := fun _ => some (fun _ => 0)
  readsEnd := true

theorem ring_holds_twoBlocks :
    (∀ s, AtByte unbounded plainKernel 2 twoBlocks s → s.status ≠ .undefined ∧
      (s.status = .running → s.j < (s.lines (s.lineCount % 2)).size)) ∧
    ∀ s, s = (readAll unbounded plainKernel 2 twoBlocks).andThen (lastLine unbounded 2) →
      s.status ≠ .undefined ∧
      (plainKernel.readsEnd = true → (∀ i, plainKernel.realloc i ≠ none) →
        s.status = .running) ∧
      (s.status = .running → s.lineCount = (lines newline (content twoBlocks)).length ∧
        ∀ k, s.lineCount - 2 ≤ k → k < s.lineCount →
          ∃ l, (lines newline (content twoBlocks))[k]? = some l ∧
            Holds (s.lines (k % 2)) (l ++ [0])) :=
  ring_holds plainKernel 2 (by decide) twoBlocks

end Tail

end TlpiPractice
