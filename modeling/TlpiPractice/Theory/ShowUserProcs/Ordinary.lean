import Mathlib.Data.List.Basic
import TlpiPractice.Theory.ShowUserProcs.Listing

/-!
# Ordinary Status Files

The files for which the listing is right.

Nothing goes wrong for a file as long as no slip of the loop is reached. A read
that fills the buffer leaves nothing in it that was there before, so all reads
in front of the one with the end of the line with the uid have to do that. The
lines up to there fit into their array, and have the tags where they belong and
nowhere else. With another uid the loop stops at this line. Else it prints the
name and goes on to the end of the buffer, so then this read fills the buffer
too, and there is no tag in the lines that end there. Whatever comes behind this
buffer is not read.

What is asked for here can be told from the bytes of the file and from the
lengths of the reads. It is not necessary: what is left in the buffer, or a tag
in the wrong place, may happen to do no harm.

## Main definitions

* `textOf`: Lines with their newlines.
* `linesWithin`: The lines that come to their end within some bytes.
* `Untagged`: A line without a tag.
* `Ordinary`: A file of this kind.

## Theorems

* `atoi_decimal`: A number is read back.
* `linesIn_lines`: What is in the array for each line.
* `linesIn_append`, `goneOver_full`: Full buffers, one after the other.
* `reads_split`: The read with the end of the line with the uid.
* `goneOver_ordinary`: The lines that are gone over.
* `listed_of_ordinary`: The process is listed.
* `listing_of_ordinary`: All processes are.
-/

namespace TlpiPractice

namespace ShowUserProcs

open Ints

/-! ### The number -/

theorem isDigit_iff (b : UInt8) : isDigit b = true ↔ 48 ≤ b.toNat ∧ b.toNat ≤ 57 := by
  rw [isDigit, Bool.and_eq_true, decide_eq_true_iff, decide_eq_true_iff]
  exact Iff.rfl

/-- The bytes of a number are its digits. -/
theorem toNat_digit (n : Nat) (c : Char) (hc : c ∈ Nat.toDigits 10 n) :
    48 ≤ c.toNat ∧ c.toNat ≤ 57 ∧ (UInt8.ofNat c.toNat).toNat = c.toNat := by
  have hdigit := Nat.isDigit_of_mem_toDigits (by omega) (Nat.le_refl 10) hc
  rw [Char.isDigit, Bool.and_eq_true, decide_eq_true_iff, decide_eq_true_iff] at hdigit
  have hhigh : c.toNat ≤ 57 := hdigit.2
  exact ⟨hdigit.1, hhigh, UInt8.toNat_ofNat_of_lt' (Nat.lt_of_le_of_lt hhigh (by decide))⟩

theorem isDigit_of_mem_decimal (n : Nat) (b : UInt8) (hb : b ∈ decimal n) : isDigit b = true := by
  rcases List.mem_map.mp hb with ⟨c, hc, rfl⟩
  rcases toNat_digit n c hc with ⟨hlow, hhigh, hval⟩
  rw [isDigit_iff, hval]
  exact ⟨hlow, hhigh⟩

theorem digitsValue_decimal (n : Nat) : digitsValue (decimal n) = n := by
  have hsame : ∀ v, ∀ c ∈ Nat.toDigits 10 n,
      10 * v + ((UInt8.ofNat c.toNat).toNat - 48) = 10 * v + (c.toNat - 48) :=
    fun v c hc => by rw [(toNat_digit n c hc).2.2]
  rw [digitsValue, decimal, List.foldl_map, List.foldl_ext _ _ 0 hsame]
  exact Nat.ofDigitChars_ten_toDigits

/-- The number is read back, up to what is behind it. -/
theorem atoi_decimal (n : Nat) (b : UInt8) (rest : List UInt8) (hn : (n : Int) ≤ intMax)
    (hb : isDigit b = false) : atoi (decimal n ++ b :: rest) = some (n : Int) := by
  have hne : decimal n ≠ [] := fun h => Nat.toDigits_ne_nil (List.map_eq_nil_iff.mp h)
  rcases List.exists_cons_of_ne_nil hne with ⟨d, ds, hds⟩
  -- The first digit is neither a blank nor a sign.
  have hd := (isDigit_iff d).mp (isDigit_of_mem_decimal n d (hds ▸ List.mem_cons_self))
  have hne' : ∀ k : UInt8, k.toNat < 48 → d ≠ k := by
    rintro k hk rfl
    omega
  have hspace : isSpace d = false := by
    rw [isSpace, Bool.or_eq_false_iff, beq_eq_false_iff_ne, Bool.and_eq_false_iff]
    refine ⟨hne' 32 (by decide), .inr ?_⟩
    rw [decide_eq_false_iff_not, UInt8.le_iff_toNat_le]
    exact fun hle => absurd (Nat.le_trans hd.1 hle) (by decide)
  have hsigned : (decimal n ++ b :: rest).dropWhile isSpace = decimal n ++ b :: rest := by
    rw [hds, List.cons_append, List.dropWhile_cons, hspace]
    rfl
  have hdigits : (decimal n ++ b :: rest).takeWhile isDigit = decimal n := by
    rw [List.takeWhile_append_of_pos (isDigit_of_mem_decimal n), List.takeWhile_cons, hb]
    exact List.append_nil _
  have hhead : (decimal n ++ b :: rest).head? = some d := by
    rw [hds]
    rfl
  unfold atoi
  simp only [hsigned]
  split
  · rename_i heq
    rw [heq] at hhead
    exact absurd (Option.some.inj hhead).symm (hne' 45 (by decide))
  · rename_i heq
    rw [heq] at hhead
    exact absurd (Option.some.inj hhead).symm (hne' 43 (by decide))
  · rw [hdigits, digitsValue_decimal, hhead,
      if_neg (fun h => hne' 45 (by decide) (Option.some.inj h)), if_neg]
    rw [not_or, not_not]
    refine ⟨fun hlen => ?_, ?_, hn⟩
    · rw [List.length_append, List.length_cons] at hlen
      omega
    · rw [intMin]
      omega

/-! ### The lines of a buffer -/

/-- Lines with their newlines. -/
def textOf (lines : List (List UInt8)) : List UInt8 :=
  (lines.map (fun line => line ++ [10])).flatten

theorem textOf_cons (l : List UInt8) (lines : List (List UInt8)) :
    textOf (l :: lines) = l ++ 10 :: textOf lines := by
  rw [textOf, List.map_cons, List.flatten_cons, List.append_assoc]
  rfl

theorem textOf_append (lines lines' : List (List UInt8)) :
    textOf (lines ++ lines') = textOf lines ++ textOf lines' := by
  rw [textOf, List.map_append, List.flatten_append]
  rfl

theorem length_lt_textOf (lines : List (List UInt8)) (l : List UInt8) (hl : l ∈ lines) :
    l.length < (textOf lines).length := by
  induction lines with
  | nil => exact absurd hl List.not_mem_nil
  | cons l' lines ih =>
      rw [textOf_cons, List.length_append, List.length_cons]
      rcases List.mem_cons.mp hl with rfl | hl
      · omega
      · have := ih hl
        omega

/-- A line that comes to its end. -/
theorem linesIn_line (l rest p q : List UInt8) (hl : 10 ∉ l)
    (hroom : l.length < q.length) :
    ∃ stale, stale.length + l.length + 1 = q.length ∧
      linesIn (l ++ 10 :: rest) (p ++ q) p.length =
        some (p ++ l ++ 0 :: stale) :: linesIn rest ((p ++ l ++ 0 :: stale).set 0 10) 1 := by
  -- Every byte of the line goes from `l` to the end of `p`.
  induction l generalizing p q with
  | nil =>
      cases q with
      | nil => cases hroom
      | cons x q =>
          refine ⟨q, rfl, ?_⟩
          rw [List.nil_append, linesIn, List.length_append, List.length_cons,
            if_pos (by omega), if_pos rfl, List.set_append_right p.length 0 (Nat.le_refl _),
            Nat.sub_self, List.set_cons_zero, List.append_nil]
  | cons b l ih =>
      cases q with
      | nil => cases hroom
      | cons x q =>
          rcases not_or.mp (fun h => hl (List.mem_cons.mpr h)) with ⟨hb, hl'⟩
          rcases ih (p ++ [b]) q hl' (Nat.lt_of_succ_lt_succ hroom) with ⟨stale, hstale, heq⟩
          have hlt : p.length < (p ++ x :: q).length := by
            rw [List.length_append, List.length_cons]
            omega
          refine ⟨stale, ?_, ?_⟩
          · rw [List.length_cons, List.length_cons]
            omega
          rw [List.cons_append, linesIn, if_pos hlt, if_neg (Ne.symm hb),
            List.set_append_right p.length b (Nat.le_refl _), Nat.sub_self, List.set_cons_zero]
          rw [List.length_append, List.append_assoc, List.append_assoc p [b] l] at heq
          exact heq

/-- Bytes that end no line. -/
theorem linesIn_of_not_mem (bytes line : List UInt8) (j : Nat) (h : 10 ∉ bytes)
    (hroom : j + bytes.length ≤ line.length) : linesIn bytes line j = [] := by
  induction bytes generalizing line j with
  | nil => rfl
  | cons b bytes ih =>
      rcases not_or.mp (fun hmem => h (List.mem_cons.mpr hmem)) with ⟨hb, h'⟩
      rw [List.length_cons] at hroom
      rw [linesIn, if_pos (by omega), if_neg (Ne.symm hb)]
      exact ih _ _ h' (by rw [List.length_set]; omega)

/-- The lines that come to their end within some bytes. -/
def linesWithin : List (List UInt8) → Nat → List (List UInt8)
  | [], _ => []
  | l :: lines, n => if l.length < n then l :: linesWithin lines (n - l.length - 1) else []

theorem linesWithin_subset (lines : List (List UInt8)) (n : Nat) : linesWithin lines n ⊆ lines := by
  induction lines generalizing n with
  | nil => exact List.Subset.refl _
  | cons l lines ih =>
      rw [linesWithin]
      split
      · exact List.cons_subset_cons l (ih _)
      · exact List.nil_subset _

/-- The front of a text has these lines, and the front of one more. -/
theorem take_textOf (lines : List (List UInt8)) (n : Nat) (hlines : ∀ l ∈ lines, 10 ∉ l) :
    ∃ tail, (textOf lines).take n = textOf (linesWithin lines n) ++ tail ∧ 10 ∉ tail := by
  induction lines generalizing n with
  | nil => exact ⟨[], List.take_nil, List.not_mem_nil⟩
  | cons l lines ih =>
      rw [textOf_cons, linesWithin]
      -- The front ends in this line, or behind it.
      by_cases hn : l.length < n
      · rcases ih (n - l.length - 1) (fun l' hl' => hlines l' (List.mem_cons_of_mem l hl')) with
          ⟨tail, htake, htail⟩
        refine ⟨tail, ?_, htail⟩
        have hn' : n = l.length + (n - l.length - 1 + 1) := by omega
        rw [if_pos hn, textOf_cons]
        conv_lhs => rw [hn', List.take_length_add_append, List.take_succ_cons, htake]
        rw [List.append_assoc]
        rfl
      · rw [if_neg hn]
        refine ⟨l.take n, List.take_append_of_le_length (Nat.le_of_not_lt hn), fun h => ?_⟩
        exact hlines l List.mem_cons_self (List.mem_of_mem_take h)

/-! ### Several buffers -/

/-- Where there is room for all bytes, there is for those in front. -/
theorem room_of_append (a b line : List UInt8) (j : Nat) (h : none ∉ linesIn (a ++ b) line j) :
    none ∉ linesIn a line j := by
  induction a generalizing line j with
  | nil => exact List.not_mem_nil
  | cons c a ih =>
      rw [List.cons_append, linesIn] at h
      rw [linesIn]
      by_cases hroom : j < line.length
      · rw [if_pos hroom] at h ⊢
        by_cases hc : c = 10
        · rw [if_pos hc] at h ⊢
          intro hmem
          rcases List.mem_cons.mp hmem with hnil | hmem
          · cases hnil
          · exact ih _ _ (fun hin => h (List.mem_cons_of_mem _ hin)) hmem
        · rw [if_neg hc] at h ⊢
          exact ih _ _ h
      · rw [if_neg hroom] at h
        exact absurd (List.mem_singleton_self _) h

/-- The lines of some bytes are those of their front, and those of the rest
    behind it. -/
theorem linesIn_append (a b line : List UInt8) (j : Nat) (h : none ∉ linesIn a line j) :
    linesIn (a ++ b) line j =
      linesIn a line j ++ linesIn b (cutAfter a line j).1 (cutAfter a line j).2 := by
  induction a generalizing line j with
  | nil => rfl
  | cons c a ih =>
      rw [linesIn] at h
      rw [List.cons_append, linesIn, linesIn, cutAfter]
      by_cases hroom : j < line.length
      · rw [if_pos hroom] at h
        rw [if_pos hroom, if_pos hroom]
        by_cases hc : c = 10
        · rw [if_pos hc] at h
          rw [if_pos hc, if_pos hc, if_pos hc, ih _ _ (fun hmem => h (List.mem_cons_of_mem _ hmem))]
          rfl
        · rw [if_neg hc] at h
          rw [if_neg hc, if_neg hc, if_neg hc, ih _ _ h]
      · rw [if_neg hroom] at h
        exact absurd (List.mem_singleton_self _) h

/-- The NUL behind a buffer is written over by the next one. -/
theorem linesIn_set (b line : List UInt8) (j : Nat) :
    linesIn b (line.set j 0) j = linesIn b line j := by
  cases b with
  | nil => rfl
  | cons c b => rw [linesIn, linesIn, List.length_set, List.set_set, List.set_set]

theorem room_of_not_mem (b line : List UInt8) (j : Nat) (hb : b ≠ [])
    (h : none ∉ linesIn b line j) : j < line.length := by
  cases b with
  | nil => exact absurd rfl hb
  | cons c b =>
      by_contra hroom
      rw [linesIn, if_neg hroom] at h
      exact h (List.mem_singleton_self _)

theorem hasUid_append (lines lines' : List (Option (List UInt8))) :
    hasUid (lines ++ lines') = (hasUid lines || hasUid lines') := List.any_append

/-- Where the reads fill the buffer up to one whose front has the first `Uid:`,
    the lines that are gone over are those of what has been read by then, and of
    what is behind it in the buffer. -/
theorem goneOver_full (reads rest : List (List UInt8)) (piece more buffer line : List UInt8)
    (j : Nat) (hbuffer : buffer.length = bufferSize)
    (hfull : ∀ bytes ∈ reads, bytes.length = bufferSize) (hpiece : piece ≠ [])
    (hroom : none ∉ linesIn (reads.flatten ++ piece) line j)
    (huid : hasUid (linesIn reads.flatten line j) = false)
    (hlast : hasUid (linesIn (reads.flatten ++ piece) line j) = true) :
    ∃ left, left.length = bufferSize - (piece ++ more).length ∧
      goneOver (reads ++ (piece ++ more) :: rest) buffer line j =
        linesIn (reads.flatten ++ (piece ++ (more ++ left))) line j := by
  induction reads generalizing buffer line j with
  | nil =>
      rw [List.flatten_nil, List.nil_append] at hroom hlast
      refine ⟨buffer.drop (piece ++ more).length, by rw [List.length_drop, hbuffer], ?_⟩
      -- Whatever is behind the piece, the program does not read on.
      have hall : hasUid (linesIn (piece ++ (more ++ buffer.drop (piece ++ more).length)) line j) =
          true := by
        rw [linesIn_append _ _ line j hroom, hasUid_append]
        exact Bool.or_eq_true_iff.mpr (.inl hlast)
      rw [List.nil_append, goneOver, List.append_assoc, if_pos hall]
      rfl
  | cons bytes reads ih =>
      rcases List.forall_mem_cons.mp hfull with ⟨hbytes, hfull'⟩
      rw [List.flatten_cons, List.append_assoc] at hroom hlast
      have hfront := room_of_append _ _ line j hroom
      rw [linesIn_append _ _ line j hfront] at hroom hlast
      rw [List.flatten_cons, linesIn_append _ _ line j hfront, hasUid_append,
        Bool.or_eq_false_iff] at huid
      rw [hasUid_append, huid.1, Bool.false_or] at hlast
      have hrest : none ∉ linesIn (reads.flatten ++ piece) (cutAfter bytes line j).1
          (cutAfter bytes line j).2 := fun hmem => hroom (List.mem_append_right _ hmem)
      -- The NUL behind this buffer has its place too.
      have hcut := room_of_not_mem _ _ _ (List.append_ne_nil_of_right_ne_nil _ hpiece) hrest
      rcases ih bytes ((cutAfter bytes line j).1.set (cutAfter bytes line j).2 0)
        (cutAfter bytes line j).2 hbytes hfull' (by rwa [linesIn_set])
        (by rw [linesIn_set]; exact huid.2) (by rwa [linesIn_set]) with ⟨left, hleft, hnext⟩
      refine ⟨left, hleft, ?_⟩
      -- Nothing is left of the buffer before.
      have hdrop : bytes ++ buffer.drop bytes.length = bytes := by
        rw [hbytes, ← hbuffer, List.drop_length, List.append_nil]
      rw [linesIn_set] at hnext
      rw [List.cons_append, goneOver, hdrop, List.flatten_cons, List.append_assoc,
        linesIn_append _ _ line j hfront]
      simp only [huid.1, Bool.false_eq_true, if_false, if_pos hcut, hnext]

/-- The read that gets a byte. -/
theorem exists_read (reads : List (List UInt8)) (n : Nat) (h : n < reads.flatten.length) :
    ∃ before last rest, reads = before ++ last :: rest ∧ before.flatten.length ≤ n ∧
      n < before.flatten.length + last.length := by
  induction reads generalizing n with
  | nil => exact absurd h (Nat.not_lt_zero n)
  | cons bytes reads ih =>
      rw [List.flatten_cons, List.length_append] at h
      by_cases hn : n < bytes.length
      · exact ⟨[], bytes, reads, rfl, Nat.zero_le n, (Nat.zero_add _).symm ▸ hn⟩
      · rcases ih (n - bytes.length) (by omega) with ⟨before, last, rest, rfl, hlow, hhigh⟩
        refine ⟨bytes :: before, last, rest, rfl, ?_, ?_⟩
        · rw [List.flatten_cons, List.length_append]
          omega
        · rw [List.flatten_cons, List.length_append]
          omega

/-! ### The tags -/

theorem infix_append_iff (c : UInt8) (t p s : List UInt8) (hc : c ∉ p) :
    c :: t <:+: p ++ s ↔ c :: t <:+: s := by
  induction p with
  | nil => exact Iff.rfl
  | cons b p ih =>
      rcases not_or.mp (fun h => hc (List.mem_cons.mpr h)) with ⟨hb, hp⟩
      rw [List.cons_append, List.infix_cons_iff, ih hp, List.cons_prefix_cons, or_iff_right]
      exact fun h => hb h.1

/-- A tag that is not in a line is not found there. -/
theorem found_eq_none (tag s rest : List UInt8) (h : ¬ tag <:+: s) :
    found tag (s ++ 0 :: rest) = none := by
  rw [found, (CString.strstr_eq_none_iff _ _).mpr]
  exact fun htag => h (htag.trans (CString.str_isPrefix s rest).isInfix)

/-- A tag is found behind bytes that it does not begin with. -/
theorem found_append (c : UInt8) (t p s : List UInt8) (hc : c ∉ p)
    (hnul : 0 ∉ p ++ c :: t) :
    found (c :: t) (p ++ (c :: t ++ s)) = some (c :: t ++ s) := by
  have hstr : CString.str (p ++ (c :: t ++ s)) = p ++ (c :: t ++ CString.str s) := by
    rw [← List.append_assoc, ← List.append_assoc]
    exact List.takeWhile_append_of_pos (fun b hb =>
      decide_eq_true (fun hzero => hnul (hzero ▸ hb)))
  have hdrop : (p ++ (c :: t ++ CString.str s)).length - (c :: t ++ CString.str s).length =
      p.length := by
    rw [List.length_append]
    omega
  rw [found, hstr, CString.strstr_append c t p _ hc]
  simp only [hdrop, List.drop_left]

/-- A line that has no tag. -/
def Untagged (l : Option (List UInt8)) : Prop :=
  ∃ line, l = some line ∧ found nameTag line = none ∧ found uidTag line = none

/-- Lines behind the first one and in front of some bytes: each is put at the
    head of the array, behind the newline of the one before. -/
theorem linesIn_lines (lines : List (List UInt8)) (rest q : List UInt8)
    (hlines : ∀ l ∈ lines, 10 ∉ l ∧ l.length < q.length) :
    ∃ seen q', q'.length = q.length ∧
      List.Forall₂ (fun l x => ∃ stale, x = some (10 :: l ++ 0 :: stale)) lines seen ∧
      linesIn (textOf lines ++ rest) (10 :: q) 1 = seen ++ linesIn rest (10 :: q') 1 := by
  induction lines generalizing q with
  | nil => exact ⟨[], q, rfl, .nil, rfl⟩
  | cons l lines ih =>
      rcases List.forall_mem_cons.mp hlines with ⟨⟨hl, hfit⟩, hlines'⟩
      rcases linesIn_line l (textOf lines ++ rest) [10] q hl hfit with ⟨stale, hstale, heq⟩
      have hlength : (l ++ 0 :: stale).length = q.length := by
        rw [List.length_append, List.length_cons]
        omega
      rcases ih (l ++ 0 :: stale) (fun l' hl' => hlength.symm ▸ hlines' l' hl') with
        ⟨seen, q', hq', hseen, hrest⟩
      refine ⟨some (10 :: l ++ 0 :: stale) :: seen, q', hq'.trans hlength,
        .cons ⟨stale, rfl⟩ hseen, ?_⟩
      rw [textOf_cons, List.append_assoc, List.cons_append]
      exact heq.trans (congrArg (List.cons _) hrest)

/-- Lines without a tag are seen without one. -/
theorem untagged_of_forall₂ (lines : List (List UInt8)) (seen : List (Option (List UInt8)))
    (hseen : List.Forall₂ (fun l x => ∃ stale, x = some (10 :: l ++ 0 :: stale)) lines seen)
    (hlines : ∀ l ∈ lines, ¬ nameTag <:+: l ∧ ¬ uidTag <:+: l) : ∀ x ∈ seen, Untagged x := by
  induction hseen with
  | nil => exact List.forall_mem_nil _
  | @cons l x lines seen hx hseen ih =>
      rcases List.forall_mem_cons.mp hlines with ⟨⟨hname, huid⟩, hlines'⟩
      rcases hx with ⟨stale, rfl⟩
      refine List.forall_mem_cons.mpr ⟨⟨_, rfl, ?_, ?_⟩, ih hlines'⟩
      · exact found_eq_none nameTag (10 :: l) stale
          (fun h => hname ((infix_append_iff 78 _ [10] l (by decide)).mp h))
      · exact found_eq_none uidTag (10 :: l) stale
          (fun h => huid ((infix_append_iff 85 _ [10] l (by decide)).mp h))

theorem plain_of_untagged (l : Option (List UInt8)) (h : Untagged l) : Plain l := by
  rcases h with ⟨line, rfl, hname, huid⟩
  exact ⟨line, rfl, .inl hname, huid⟩

/-- Lines without a tag leave the name. -/
theorem lastName_untagged (lines rest : List (Option (List UInt8)))
    (before : Option (List UInt8)) (h : ∀ l ∈ lines, Untagged l) :
    lastName (lines ++ rest) before = lastName rest before := by
  induction lines generalizing before with
  | nil => rfl
  | cons l lines ih =>
      rcases List.forall_mem_cons.mp h with ⟨⟨line, rfl, hname, -⟩, h'⟩
      rw [List.cons_append, lastName, ih _ h', Option.bind_some, nameOf, hname, Option.bind_none,
        Option.none_or]

/-! ### An ordinary file -/

/-- The first line of a status file. -/
def Status.nameLine (status : Status) : List UInt8 := nameTag ++ 9 :: status.name

/-- The line with the uid. -/
def Status.uidLine (status : Status) : List UInt8 :=
  uidTag ++ 9 :: decimal status.uid ++ status.rest

/-- The text up to the end of this line. -/
def Status.front (status : Status) : List UInt8 :=
  textOf (status.nameLine :: status.before ++ [status.uidLine])

/-- How many buffers this text takes. -/
def Status.blocks (status : Status) : Nat :=
  (status.front.length + (bufferSize - 1)) / bufferSize

/-- The lines behind it that come to their end in these buffers. -/
def Status.within (status : Status) : List (List UInt8) :=
  linesWithin status.after (bufferSize * status.blocks - status.front.length)

theorem Status.front_append (status : Status) (rest : List UInt8) :
    status.front ++ rest = status.nameLine ++
      10 :: (textOf status.before ++ (status.uidLine ++ 10 :: rest)) := by
  rw [Status.front, List.cons_append, textOf_cons, textOf_append, textOf_cons]
  simp only [List.append_assoc, List.cons_append]
  rfl

/-- The reads in front of the one that gets the end of the line with the uid fill
    the buffer, the lines up to this one fit into their array, and the tags are
    where they belong. If the process is to be listed, that read fills the buffer
    too, and no line that comes to its end in it behind this one has a tag. -/
structure Ordinary (uid : Int) (status : Status) : Prop where
  uid_int : (status.uid : Int) ≤ intMax
  full : ∀ before bytes rest, status.reads = before ++ bytes :: rest →
    before.flatten.length + bytes.length < status.front.length → bytes.length = bufferSize
  lines_fit : ∀ l ∈ status.before ++ [status.uidLine], l.length + 2 ≤ bufferSize
  name_untagged : ¬ uidTag <:+: status.name
  before_untagged : ∀ l ∈ status.before, ¬ nameTag <:+: l ∧ ¬ uidTag <:+: l
  rest_untagged : ¬ nameTag <:+: status.rest
  last_full : (status.uid : Int) = uid → ∀ before last rest,
    status.reads = before ++ last :: rest → before.flatten.length < status.front.length →
      last.length = bufferSize
  after_untagged : (status.uid : Int) = uid →
    ∀ l ∈ status.within, ¬ nameTag <:+: l ∧ ¬ uidTag <:+: l

/-- Reads that fill the buffer. -/
theorem length_flatten_of_full (reads : List (List UInt8))
    (h : ∀ bytes ∈ reads, bytes.length = bufferSize) :
    reads.flatten.length = bufferSize * reads.length := by
  induction reads with
  | nil => rfl
  | cons bytes reads ih =>
      rcases List.forall_mem_cons.mp h with ⟨hbytes, h'⟩
      rw [List.flatten_cons, List.length_append, hbytes, ih h', List.length_cons, Nat.mul_succ,
        Nat.add_comm]

section Block

variable (uid : Int) (status : Status) (h : Ordinary uid status)
include h

/-- The line with the name is no line of another kind. -/
theorem nameLine_spec (stale : List UInt8) :
    10 ∉ status.nameLine ∧ Plain (some (status.nameLine ++ 0 :: stale)) ∧
      nameOf (status.nameLine ++ 0 :: stale) = some status.name := by
  have hname : nameOf (status.nameLine ++ 0 :: stale) = some status.name := by
    have hfound : found nameTag (status.nameLine ++ 0 :: stale) =
        some (nameTag ++ (9 :: status.name ++ 0 :: stale)) := by
      rw [Status.nameLine, List.append_assoc]
      exact found_append 78 [97, 109, 101, 58] [] _ List.not_mem_nil (by decide)
    rw [nameOf, hfound]
    exact stringAt_append status.name stale status.name_line.2
  refine ⟨fun hmem => ?_, ⟨_, rfl, .inr ⟨status.name, hname, ?_⟩, ?_⟩, hname⟩
  · rw [Status.nameLine, List.mem_append, List.mem_cons] at hmem
    rcases hmem with hmem | hmem | hmem
    · exact absurd hmem (by decide)
    · exact absurd hmem (by decide)
    · exact status.name_line.1 hmem
  · exact Nat.lt_of_le_of_lt status.name_short (by decide)
  · refine found_eq_none uidTag status.nameLine stale (fun htag => h.name_untagged ?_)
    exact (infix_append_iff 85 _ [78, 97, 109, 101, 58, 9] status.name (by decide)).mp htag

/-- The line with the uid gives it. -/
theorem uidLine_spec (stale : List UInt8) :
    10 ∉ status.uidLine ∧ found nameTag (10 :: status.uidLine ++ 0 :: stale) = none ∧
      uidOf (10 :: status.uidLine ++ 0 :: stale) = some (status.uid : Int) := by
  have hdigits : ∀ k : UInt8, isDigit k = false → k ∉ decimal status.uid := by
    intro k hk hmem
    rw [isDigit_of_mem_decimal status.uid k hmem] at hk
    cases hk
  refine ⟨fun hmem => ?_, ?_, ?_⟩
  · rw [Status.uidLine, List.mem_append, List.mem_append, List.mem_cons] at hmem
    rcases hmem with (hmem | hmem | hmem) | hmem
    · exact absurd hmem (by decide)
    · exact absurd hmem (by decide)
    · exact hdigits 10 (by decide) hmem
    · exact status.rest_line.1 hmem
  · refine found_eq_none nameTag (10 :: status.uidLine) stale (fun htag => h.rest_untagged ?_)
    refine (infix_append_iff 78 _ (10 :: (uidTag ++ 9 :: decimal status.uid)) status.rest ?_).mp
      htag
    rw [List.mem_cons, List.mem_append, List.mem_cons]
    rintro (hmem | hmem | hmem | hmem)
    · exact absurd hmem (by decide)
    · exact absurd hmem (by decide)
    · exact absurd hmem (by decide)
    · exact hdigits 78 (by decide) hmem
  · have hfound : found uidTag (10 :: status.uidLine ++ 0 :: stale) =
        some (uidTag ++ (9 :: decimal status.uid ++ (status.rest ++ 0 :: stale))) := by
      rw [Status.uidLine, List.cons_append, List.append_assoc, List.append_assoc]
      exact found_append 85 [105, 100, 58] [10] _ (by decide) (by decide)
    rw [uidOf, hfound]
    -- What is behind the number is no digit, also where the line ends there.
    show atoi (decimal status.uid ++ (status.rest ++ 0 :: stale)) = some (status.uid : Int)
    cases hrest : status.rest with
    | nil => exact atoi_decimal status.uid 0 stale h.uid_int rfl
    | cons b rest =>
        refine atoi_decimal status.uid b (rest ++ 0 :: stale) h.uid_int ?_
        exact status.rest_line.2 b (by rw [hrest]; rfl)

omit h in
theorem text_eq :
    status.reads.flatten = status.front ++ textOf status.after := by
  rw [status.reads_flatten, Status.front, ← textOf_append]
  rfl

/-- The reads up to the one with the end of this line. -/
theorem reads_split :
    ∃ reads piece more rest, status.reads = reads ++ (piece ++ more) :: rest ∧
      (∀ bytes ∈ reads, bytes.length = bufferSize) ∧ piece ≠ [] ∧
      reads.flatten ++ piece = status.front ∧ more ++ rest.flatten = textOf status.after ∧
      ((status.uid : Int) = uid → (piece ++ more).length = bufferSize ∧
        more.length = bufferSize * status.blocks - status.front.length) := by
  have hfront : 0 < status.front.length := by
    rw [Status.front, List.cons_append, textOf_cons, List.length_append, List.length_cons]
    omega
  rcases exists_read status.reads (status.front.length - 1)
    (by rw [text_eq, List.length_append]; omega) with ⟨reads, last, rest, hreads, hlow, hhigh⟩
  have hfull : ∀ bytes ∈ reads, bytes.length = bufferSize := by
    intro bytes hbytes
    -- Each of them ends where the last one begins, or before.
    rcases List.append_of_mem hbytes with ⟨before, after, rfl⟩
    rw [List.append_assoc, List.cons_append] at hreads
    refine h.full before bytes _ hreads ?_
    rw [List.flatten_append, List.flatten_cons, List.length_append, List.length_append] at hlow
    omega
  have hpiece : (last.take (status.front.length - reads.flatten.length)).length =
      status.front.length - reads.flatten.length := by
    rw [List.length_take]
    omega
  have hsplit := List.take_append_drop (status.front.length - reads.flatten.length) last
  have htext : reads.flatten ++ (last.take (status.front.length - reads.flatten.length) ++
      (last.drop (status.front.length - reads.flatten.length) ++ rest.flatten)) =
        status.front ++ textOf status.after := by
    rw [← text_eq, hreads, List.flatten_append, List.flatten_cons, ← List.append_assoc _ _
      rest.flatten, hsplit]
  rw [← List.append_assoc] at htext
  rcases List.append_inj htext (by rw [List.length_append, hpiece]; omega) with ⟨hpart, hmore⟩
  refine ⟨reads, _, _, rest, hsplit.symm ▸ hreads, hfull, ?_, hpart, hmore, fun heq => ?_⟩
  · intro hnil
    rw [hnil, List.length_nil] at hpiece
    omega
  · have hlast := h.last_full heq reads last rest hreads (by omega)
    have hlength := length_flatten_of_full reads hfull
    have hblocks : status.blocks = (status.front.length + 1023) / 1024 := rfl
    have hsize : bufferSize = 1024 := rfl
    rw [hsplit, List.length_drop]
    rw [hsize] at hlast hlength ⊢
    exact ⟨hlast, by omega⟩

/-- All lines up to the one with the uid, in front of some bytes. -/
theorem linesIn_front (line rest : List UInt8) (hline : line.length = bufferSize) :
    ∃ stale seen q, q.length + 1 = bufferSize ∧ (∀ x ∈ seen, Untagged x) ∧
      linesIn (status.nameLine ++ 10 :: (textOf status.before ++ rest)) line 0 =
        some (status.nameLine ++ 0 :: stale) :: (seen ++ linesIn rest (10 :: q) 1) := by
  have hnameLine : status.nameLine.length = status.name.length + 6 := by
    rw [Status.nameLine, List.length_append, List.length_cons]
    exact Nat.add_comm _ _
  have hshort := status.name_short
  have hsize : bufferSize = 1024 := rfl
  rcases linesIn_line status.nameLine (textOf status.before ++ rest) [] line
    (nameLine_spec uid status h []).1 (by omega) with ⟨stale, hstale, hname⟩
  have hlength : ([97, 109, 101, 58, 9] ++ status.name ++ 0 :: stale).length + 1 =
      bufferSize := by
    simp only [List.length_append, List.length_cons, List.length_nil]
    omega
  have hbefore : ∀ l ∈ status.before,
      10 ∉ l ∧ l.length < ([97, 109, 101, 58, 9] ++ status.name ++ 0 :: stale).length := by
    intro l hl
    have hfit := h.lines_fit l (List.mem_append_left _ hl)
    exact ⟨(status.others l (List.mem_append_left _ hl)).1, by omega⟩
  rcases linesIn_lines status.before rest _ hbefore with ⟨seen, q, hq, hseen, hlines⟩
  refine ⟨stale, seen, q, hq ▸ hlength,
    untagged_of_forall₂ status.before seen hseen h.before_untagged, ?_⟩
  exact hname.trans (congrArg (List.cons _) hlines)

/-- In front of the end of the line with the uid no `Uid:` is seen. -/
theorem hasUid_front (line bytes rest : List UInt8) (hline : line.length = bufferSize)
    (hbytes : bytes ++ rest = status.front) (hrest : rest ≠ []) :
    hasUid (linesIn bytes line 0) = false := by
  -- What is read so far ends in front of the last newline.
  rcases List.eq_nil_or_concat rest with rfl | ⟨rest', last, rfl⟩
  · exact absurd rfl hrest
  have hfront : status.front =
      (status.nameLine ++ 10 :: (textOf status.before ++ status.uidLine)) ++ [10] := by
    rw [← List.append_nil status.front, Status.front_append]
    simp only [List.append_assoc, List.cons_append]
  rw [hfront, List.concat_eq_append, ← List.append_assoc] at hbytes
  rcases List.append_inj' hbytes rfl with ⟨hbytes, -⟩
  rcases linesIn_front uid status h line status.uidLine hline with
    ⟨stale, seen, q, hq, hseen, hlines⟩
  have hfit := h.lines_fit status.uidLine (List.mem_append_right _ List.mem_cons_self)
  have hnone : linesIn status.uidLine (10 :: q) 1 = [] := by
    refine linesIn_of_not_mem _ _ _ (uidLine_spec uid status h []).1 ?_
    rw [List.length_cons]
    omega
  rw [hnone, List.append_nil, ← hbytes] at hlines
  have hroom : none ∉ linesIn (bytes ++ rest') line 0 := by
    rw [hlines]
    intro hmem
    rcases List.mem_cons.mp hmem with hnil | hmem
    · cases hnil
    · rcases hseen _ hmem with ⟨x, hx, -⟩
      cases hx
  have huid : hasUid (linesIn (bytes ++ rest') line 0) = false := by
    rw [hlines, hasUid_cons_eq_false_iff]
    rcases (nameLine_spec uid status h stale).2.1 with ⟨x, hx, -, hfound⟩
    cases hx
    refine ⟨hfound, List.any_eq_false.mpr (fun x hx => ?_)⟩
    rcases hseen x hx with ⟨x', rfl, -, hfound'⟩
    rw [Option.any_some, hfound']
    exact Bool.false_ne_true
  rw [linesIn_append _ _ line 0 (room_of_append _ _ line 0 hroom), hasUid_append,
    Bool.or_eq_false_iff] at huid
  exact huid.1

/-- The line with the uid comes to its end behind the others. -/
theorem linesIn_uidLine (line behind : List UInt8) (hline : line.length = bufferSize) :
    ∃ stale pre stale', (status.uidLine ++ 0 :: stale').length + 1 = bufferSize ∧
      (∀ x ∈ pre, Untagged x) ∧
      linesIn (status.front ++ behind) line 0 =
        some (status.nameLine ++ 0 :: stale) :: (pre ++
          some (10 :: status.uidLine ++ 0 :: stale') ::
            linesIn behind (10 :: (status.uidLine ++ 0 :: stale')) 1) := by
  rcases linesIn_front uid status h line (status.uidLine ++ 10 :: behind) hline with
    ⟨stale, pre, q, hq, hpre, hfront⟩
  have hfit := h.lines_fit status.uidLine (List.mem_append_right _ List.mem_cons_self)
  rcases linesIn_line status.uidLine behind [10] q (uidLine_spec uid status h []).1 (by omega) with
    ⟨stale', hstale', huid⟩
  refine ⟨stale, pre, stale', ?_, hpre, ?_⟩
  · rw [List.length_append, List.length_cons]
    omega
  · rw [Status.front_append, hfront]
    exact congrArg (fun x => some (status.nameLine ++ 0 :: stale) :: (pre ++ x)) huid

/-- Up to its end there is room, and a `Uid:`. -/
theorem linesIn_front_spec (line : List UInt8) (hline : line.length = bufferSize) :
    none ∉ linesIn status.front line 0 ∧ hasUid (linesIn status.front line 0) = true := by
  rcases linesIn_uidLine uid status h line [] hline with ⟨stale, pre, stale', -, hpre, hlines⟩
  rw [List.append_nil] at hlines
  rw [hlines]
  constructor
  · intro hmem
    rcases List.mem_cons.mp hmem with hnil | hmem
    · cases hnil
    rcases List.mem_append.mp hmem with hmem | hmem
    · rcases hpre _ hmem with ⟨x, hx, -⟩
      cases hx
    · cases List.mem_singleton.mp hmem
  · refine List.any_eq_true.mpr ⟨some (10 :: status.uidLine ++ 0 :: stale'), ?_, ?_⟩
    · exact List.mem_cons_of_mem _ (List.mem_append_right pre List.mem_cons_self)
    · rw [Option.any_some, Option.isSome_iff_ne_none]
      exact found_of_uidOf _ _ (uidLine_spec uid status h stale').2.2

/-- The lines behind this one in a buffer that is full. -/
theorem untagged_within (more stale rest : List UInt8) (heq : (status.uid : Int) = uid)
    (hstale : (status.uidLine ++ 0 :: stale).length + 1 = bufferSize)
    (hmore : more ++ rest = textOf status.after) (hshort : more.length < bufferSize)
    (hlength : more.length = bufferSize * status.blocks - status.front.length) :
    ∀ x ∈ linesIn more (10 :: (status.uidLine ++ 0 :: stale)) 1, Untagged x := by
  rcases take_textOf status.after more.length
    (fun l hl => (status.others l (List.mem_append_right _ hl)).1) with ⟨tail, htake, htail⟩
  rw [← hmore, List.take_left] at htake
  have hwithin : more = textOf status.within ++ tail := by
    rw [Status.within, ← hlength]
    exact htake
  have htotal := congrArg List.length hwithin
  rw [List.length_append] at htotal
  have hfit : ∀ l ∈ status.within,
      10 ∉ l ∧ l.length < (status.uidLine ++ 0 :: stale).length := by
    intro l hl
    have hmem := List.mem_append_right status.before (linesWithin_subset _ _ hl)
    have hlt := length_lt_textOf status.within l hl
    exact ⟨(status.others l hmem).1, by omega⟩
  rcases linesIn_lines status.within tail _ hfit with ⟨seen, q, hq, hseen, hlines⟩
  have hend : linesIn tail (10 :: q) 1 = [] := by
    refine linesIn_of_not_mem tail (10 :: q) 1 htail ?_
    rw [List.length_cons, hq]
    omega
  rw [hwithin, hlines, hend, List.append_nil]
  exact untagged_of_forall₂ status.within seen hseen (h.after_untagged heq)

/-- The lines that are gone over in an ordinary file. -/
theorem goneOver_ordinary (junk : Junk) :
    ∃ stale pre stale' post, (∀ x ∈ pre, Untagged x) ∧
      ((status.uid : Int) = uid → ∀ x ∈ post, Untagged x) ∧
      goneOver status.reads junk.buffer junk.line 0 =
        some (status.nameLine ++ 0 :: stale) :: (pre ++
          some (10 :: status.uidLine ++ 0 :: stale') :: post) := by
  rcases reads_split uid status h with
    ⟨reads, piece, more, rest, hreads, hfull, hpiece, hfront, hmore, huser⟩
  rcases linesIn_front_spec uid status h junk.line junk.line_length with ⟨hroom, huid⟩
  rw [← hfront] at hroom huid
  rcases goneOver_full reads rest piece more junk.buffer junk.line 0 junk.buffer_length hfull
    hpiece hroom (hasUid_front uid status h junk.line _ piece junk.line_length hfront hpiece) huid
    with ⟨left, hleft, hlines⟩
  rcases linesIn_uidLine uid status h junk.line (more ++ left) junk.line_length with
    ⟨stale, pre, stale', hstale', hpre, hall⟩
  refine ⟨stale, pre, stale',
    linesIn (more ++ left) (10 :: (status.uidLine ++ 0 :: stale')) 1, hpre, fun heq => ?_, ?_⟩
  · -- Nothing of an earlier read is left behind one that fills the buffer.
    rcases huser heq with ⟨hlast, hlength⟩
    rw [hlast, Nat.sub_self] at hleft
    rw [List.length_append] at hlast
    have hpos := List.length_pos_of_ne_nil hpiece
    rw [List.eq_nil_of_length_eq_zero hleft, List.append_nil]
    exact untagged_within uid status h more stale' rest.flatten heq hstale' hmore (by omega) hlength
  · rw [hreads, hlines, ← List.append_assoc, hfront]
    exact hall

/-- An ordinary process is listed. -/
theorem listed_of_ordinary (junk : Junk) : Listed uid junk status := by
  rcases goneOver_ordinary uid status h junk with
    ⟨stale, pre, stale', post, hpre, hpost, hlines⟩
  rcases nameLine_spec uid status h stale with ⟨-, hplain, hname⟩
  rcases uidLine_spec uid status h stale' with ⟨-, hnone, huid⟩
  have hfirst : FirstUid (some (status.nameLine ++ 0 :: stale) :: (pre ++
      some (10 :: status.uidLine ++ 0 :: stale') :: post))
      (some (status.nameLine ++ 0 :: stale) :: pre) (10 :: status.uidLine ++ 0 :: stale') post :=
    ⟨rfl, List.forall_mem_cons.mpr ⟨hplain, fun l hl => plain_of_untagged l (hpre l hl)⟩,
      .inl hnone, found_of_uidOf _ _ huid⟩
  rw [Listed, hlines]
  by_cases heq : (status.uid : Int) = uid
  · rw [if_pos heq]
    refine ⟨_, _, post, hfirst, heq ▸ huid, ?_,
      .inl (fun l hl => plain_of_untagged l (hpost heq l hl))⟩
    rw [List.cons_append, lastName, lastName_untagged pre _ _ hpre, Option.bind_some, hname,
      Option.some_or, lastName, lastName, Option.bind_some, nameOf, hnone]
    rfl
  · rw [if_neg heq]
    exact .inr ⟨_, _, post, status.uid, hfirst, huid, heq⟩

end Block

/-- If all files are ordinary, the program is right. -/
theorem listing_of_ordinary (uid : Int) (entries : List (Junk × Option Status))
    (h : ∀ e ∈ entries, ∀ status, e.2 = some status → Ordinary uid status) :
    ListingRight uid entries :=
  (listingRight_iff uid entries).mpr (fun e he status hstatus =>
    listed_of_ordinary uid status (h e he status hstatus) e.1)

/-- A line that fills what the others leave of the buffer. -/
def filler : List UInt8 := List.replicate 1006 120

theorem not_mem_filler (b : UInt8) (hb : b ≠ 120) : b ∉ filler :=
  fun h => hb (List.eq_of_mem_replicate h)

/-- A process of the superuser whose file is read in one full read. -/
def fullRead : Status where
  name := [97]
  before := []
  uid := 0
  rest := [9, 48]
  after := [filler]
  reads := [statusText [97] [] 0 [9, 48] [filler]]
  name_short := by decide
  name_line := by decide
  others := by
    intro line hline
    rw [List.mem_singleton.mp hline]
    exact ⟨not_mem_filler 10 (by decide),
      fun h => not_mem_filler 85 (by decide) (h.subset List.mem_cons_self)⟩
  rest_line := by
    refine ⟨by decide, fun b hb => ?_⟩
    rw [← Option.mem_some_iff.mp hb]
    rfl
  reads_fit := by
    intro bytes hbytes
    rw [List.mem_singleton.mp hbytes]
    exact ⟨List.cons_ne_nil _ _, by decide +kernel⟩
  reads_flatten := by rw [List.flatten_cons, List.flatten_nil, List.append_nil]

theorem full_fullRead (before : List (List UInt8)) (bytes : List UInt8)
    (rest : List (List UInt8)) (h : fullRead.reads = before ++ bytes :: rest) :
    bytes.length = bufferSize := by
  have hmem : bytes ∈ fullRead.reads := h ▸ List.mem_append_right before List.mem_cons_self
  rw [List.mem_singleton.mp hmem]
  decide +kernel

theorem ordinary_fullRead (uid : Int) : Ordinary uid fullRead where
  uid_int := by decide
  full := fun before bytes rest hreads _ => full_fullRead before bytes rest hreads
  lines_fit := by
    intro l hl
    rw [List.mem_singleton.mp hl]
    decide +kernel
  name_untagged := by decide
  before_untagged := List.forall_mem_nil _
  rest_untagged := by decide
  last_full := fun _ before last rest hreads _ => full_fullRead before last rest hreads
  after_untagged := by
    intro _ l hl
    rw [List.mem_singleton.mp (linesWithin_subset _ _ hl)]
    exact ⟨fun h => not_mem_filler 78 (by decide) (h.subset List.mem_cons_self),
      fun h => not_mem_filler 85 (by decide) (h.subset List.mem_cons_self)⟩

/-- A process of another user whose file is shorter than the buffer. -/
def shortRead : Status where
  name := [98]
  before := []
  uid := 5
  rest := [9, 53]
  after := [[120]]
  reads := [statusText [98] [] 5 [9, 53] [[120]]]
  name_short := by decide
  name_line := by decide
  others := by
    intro line hline
    rw [List.mem_singleton.mp hline]
    decide
  rest_line := by
    refine ⟨by decide, fun b hb => ?_⟩
    rw [← Option.mem_some_iff.mp hb]
    rfl
  reads_fit := by
    intro bytes hbytes
    rw [List.mem_singleton.mp hbytes]
    exact ⟨List.cons_ne_nil _ _, by decide +kernel⟩
  reads_flatten := by rw [List.flatten_cons, List.flatten_nil, List.append_nil]

theorem ordinary_shortRead : Ordinary 0 shortRead where
  uid_int := by decide
  full := by
    intro before bytes rest hreads hlt
    have hmem : bytes ∈ shortRead.reads :=
      hreads ▸ List.mem_append_right before List.mem_cons_self
    have hlong : shortRead.front.length ≤ bytes.length := by
      rw [List.mem_singleton.mp hmem]
      decide +kernel
    omega
  lines_fit := by
    intro l hl
    rw [List.mem_singleton.mp hl]
    decide +kernel
  name_untagged := by decide
  before_untagged := List.forall_mem_nil _
  rest_untagged := by decide
  last_full := fun huid => absurd huid (by decide)
  after_untagged := fun huid => absurd huid (by decide)

theorem listing_of_ordinary_twoFiles :
    ListingRight 0 [(zeros, some fullRead), (zeros, some shortRead)] := by
  refine listing_of_ordinary 0 _ (fun e he status hstatus => ?_)
  rcases List.mem_cons.mp he with rfl | he
  · cases hstatus
    exact ordinary_fullRead 0
  · rw [List.mem_singleton.mp he] at hstatus
    cases hstatus
    exact ordinary_shortRead

end ShowUserProcs

end TlpiPractice
