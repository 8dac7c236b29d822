import Mathlib.Tactic.Common
import TlpiPractice.Core.ShowUserProcs

/-!
# The Lines That Are Gone Over

The scan of a status file as a scan of lines.

What is printed depends on the bytes only through the array at each newline.
These arrays do not depend on the uid or on what has been printed, so they can
be listed beforehand, up to those of the first buffer that has a `Uid:` in it:
the program goes over all lines of this buffer, or stops in it.

## Main definitions

* `linesIn`: The arrays at the newlines of a buffer.
* `cutAfter`: The array and `j` behind a buffer.
* `goneOver`: The arrays at all newlines that the program may get to.
* `namesAfter`: The name behind some lines.
* `showLines`: What is printed for some lines.

## Theorems

* `forLoop_of_not_hasUid`: A buffer without a `Uid:`.
* `forLoop_printed`, `forLoop_over`: Any buffer.
* `showFile_eq`: What is printed for a file.
-/

namespace TlpiPractice

namespace ShowUserProcs

/-- The array with its NUL at each newline of some bytes, from where `j` bytes
    of the line are there. Nothing comes behind the place where the array is
    full, which has none. -/
def linesIn : List UInt8 → List UInt8 → Nat → List (Option (List UInt8))
  | [], _, _ => []
  | b :: rest, line, j =>
      if j < line.length then
        if b = 10 then some (line.set j 0) :: linesIn rest ((line.set j 0).set 0 10) 1
        else linesIn rest (line.set j b) (j + 1)
      else [none]

/-- The array and the number of bytes in it behind some bytes. -/
def cutAfter : List UInt8 → List UInt8 → Nat → List UInt8 × Nat
  | [], line, j => (line, j)
  | b :: rest, line, j =>
      if b = 10 then cutAfter rest ((line.set j 0).set 0 10) 1
      else cutAfter rest (line.set j b) (j + 1)

/-- One of the lines has a `Uid:`. -/
def hasUid (lines : List (Option (List UInt8))) : Bool :=
  lines.any (fun l => l.any (fun line => (found uidTag line).isSome))

/-- The lines up to those of the first buffer that has a `Uid:`. -/
def goneOver : List (List UInt8) → List UInt8 → List UInt8 → Nat → List (Option (List UInt8))
  | [], _, _, _ => []
  | bytes :: reads, buffer, line, j =>
      let buffer' := bytes ++ buffer.drop bytes.length
      let seen := linesIn buffer' line j
      let cut := cutAfter buffer' line j
      if hasUid seen then seen
      else if cut.2 < cut.1.length then
        seen ++ goneOver reads buffer' (cut.1.set cut.2 0) cut.2
      else seen ++ [none]

/-- The name behind a line. -/
def nameAfter (line name : List UInt8) : Option (List UInt8) :=
  match found nameTag line with
  | none => some name
  | some at' => strcpy name (at'.drop 6)

/-- The name behind some lines. -/
def namesAfter : List (Option (List UInt8)) → List UInt8 → Option (List UInt8)
  | [], name => some name
  | none :: _, _ => none
  | some line :: lines, name => (nameAfter line name).bind (namesAfter lines)

/-- What is printed for some lines, one after the other. -/
def showLines (uid : Int) :
    List (Option (List UInt8)) → List UInt8 → Option (List (List UInt8))
  | [], _ => some []
  | none :: _, _ => none
  | some line :: lines, name =>
      match nameAfter line name with
      | none => none
      | some name =>
          match found uidTag line with
          | none => showLines uid lines name
          | some at' =>
              match atoi (at'.drop 5) with
              | none => none
              | some thisUid =>
                  if thisUid = uid then
                    match stringAt name with
                    | none => none
                    | some string => (showLines uid lines name).map (fun names => string :: names)
                  else some []

/-! ### A buffer -/

theorem hasUid_cons (line : List UInt8) (lines : List (Option (List UInt8))) :
    hasUid (some line :: lines) = ((found uidTag line).isSome || hasUid lines) := rfl

theorem hasUid_cons_eq_false_iff (line : List UInt8) (lines : List (Option (List UInt8))) :
    hasUid (some line :: lines) = false ↔ found uidTag line = none ∧ hasUid lines = false := by
  rw [hasUid_cons, Bool.or_eq_false_iff, Option.isSome_eq_false_iff, Option.isNone_iff_eq_none]

/-- What is done at a newline, by what the line has. -/
theorem forLoop_newline (uid : Int) (rest : List UInt8) (s : Scan) (h : s.j < s.line.length) :
    forLoop uid (10 :: rest) s =
      match nameAfter (s.line.set s.j 0) s.name with
      | none => none
      | some name =>
          match found uidTag (s.line.set s.j 0) with
          | none =>
              forLoop uid rest ⟨(s.line.set s.j 0).set 0 10, 1, name, s.isOver, s.printed⟩
          | some at' =>
              match atoi (at'.drop 5) with
              | none => none
              | some thisUid =>
                  if thisUid = uid then
                    match stringAt name with
                    | none => none
                    | some string =>
                        forLoop uid rest
                          ⟨(s.line.set s.j 0).set 0 10, 1, name, true, s.printed ++ [string]⟩
                  else some ⟨s.line.set s.j 0, s.j, name, true, s.printed⟩ := by
  -- There is room for the newline at the head of the next line.
  have hroom : 0 < (s.line.set s.j 0).length := by
    rw [List.length_set]
    omega
  have hend : lineEnd uid s =
      (nameAfter (s.line.set s.j 0) s.name).elim .undefined (fun name =>
        uidBranch uid ⟨s.line.set s.j 0, s.j, name, s.isOver, s.printed⟩) := by
    unfold lineEnd nameAfter
    rw [if_pos h]
    dsimp only
    cases found nameTag (s.line.set s.j 0) with
    | none => rfl
    | some at' =>
        dsimp only
        cases strcpy s.name (at'.drop 6) <;> rfl
  -- A line with another uid ends the loop, and any other puts the newline.
  rw [forLoop, if_pos rfl, hend]
  cases nameAfter (s.line.set s.j 0) s.name with
  | none => rfl
  | some name =>
      simp only [Option.elim_some, uidBranch]
      cases found uidTag (s.line.set s.j 0) with
      | none => simp only [Scan.put, if_pos hroom]
      | some at' =>
          simp only
          cases atoi (at'.drop 5) with
          | none => rfl
          | some thisUid =>
              simp only
              by_cases huid : thisUid = uid
              · rw [if_pos huid, if_pos huid]
                cases stringAt name with
                | none => rfl
                | some string => simp only [Scan.put, if_pos hroom]
              · rw [if_neg huid, if_neg huid]

theorem forLoop_byte (uid : Int) (b : UInt8) (rest : List UInt8) (s : Scan) (hb : b ≠ 10)
    (h : s.j < s.line.length) :
    forLoop uid (b :: rest) s =
      forLoop uid rest ⟨s.line.set s.j b, s.j + 1, s.name, s.isOver, s.printed⟩ := by
  rw [forLoop, if_neg hb, Scan.put, if_pos h]

/-- Where the array is full, what happens is not defined. -/
theorem forLoop_full (uid : Int) (b : UInt8) (rest : List UInt8) (s : Scan)
    (h : ¬ s.j < s.line.length) : forLoop uid (b :: rest) s = none := by
  rw [forLoop]
  by_cases hb : b = 10
  · rw [if_pos hb, lineEnd, if_neg h]
  · rw [if_neg hb, Scan.put, if_neg h]

/-- A buffer without a `Uid:` only moves the variables on. -/
theorem forLoop_of_not_hasUid (uid : Int) (bytes : List UInt8) (s : Scan)
    (h : hasUid (linesIn bytes s.line s.j) = false) :
    forLoop uid bytes s = (namesAfter (linesIn bytes s.line s.j) s.name).map (fun name =>
      ⟨(cutAfter bytes s.line s.j).1, (cutAfter bytes s.line s.j).2, name, s.isOver,
        s.printed⟩) := by
  induction bytes generalizing s with
  | nil => rfl
  | cons b rest ih =>
      rw [linesIn] at h ⊢
      by_cases hroom : s.j < s.line.length
      · rw [if_pos hroom] at h ⊢
        by_cases hb : b = 10
        · subst hb
          rw [if_pos rfl] at h ⊢
          rw [forLoop_newline uid rest s hroom, namesAfter, cutAfter, if_pos rfl]
          rw [hasUid_cons_eq_false_iff] at h
          cases hname : nameAfter (s.line.set s.j 0) s.name with
          | none => rfl
          | some name =>
              simp only [h.1, Option.bind_some]
              exact ih ⟨(s.line.set s.j 0).set 0 10, 1, name, s.isOver, s.printed⟩ h.2
        · rw [if_neg hb] at h ⊢
          rw [forLoop_byte uid b rest s hb hroom, cutAfter, if_neg hb]
          exact ih ⟨s.line.set s.j b, s.j + 1, s.name, s.isOver, s.printed⟩ h
      · rw [if_neg hroom]
        rw [forLoop_full uid b rest s hroom]
        rfl

/-- What a buffer adds to what is printed. -/
theorem forLoop_printed (uid : Int) (bytes : List UInt8) (s : Scan) :
    (forLoop uid bytes s).map Scan.printed =
      (showLines uid (linesIn bytes s.line s.j) s.name).map (fun names => s.printed ++ names) := by
  induction bytes generalizing s with
  | nil =>
      rw [forLoop, linesIn, showLines, Option.map_some, Option.map_some, List.append_nil]
  | cons b rest ih =>
      rw [linesIn]
      by_cases hroom : s.j < s.line.length
      · rw [if_pos hroom]
        by_cases hb : b = 10
        · subst hb
          rw [if_pos rfl, forLoop_newline uid rest s hroom, showLines]
          cases nameAfter (s.line.set s.j 0) s.name with
          | none => rfl
          | some name =>
              simp only
              cases found uidTag (s.line.set s.j 0) with
              | none => exact ih ⟨(s.line.set s.j 0).set 0 10, 1, name, s.isOver, s.printed⟩
              | some at' =>
                  simp only
                  cases atoi (at'.drop 5) with
                  | none => rfl
                  | some thisUid =>
                      simp only
                      by_cases huid : thisUid = uid
                      · rw [if_pos huid, if_pos huid]
                        cases stringAt name with
                        | none => rfl
                        | some string =>
                            -- The loop goes on behind the name that is printed.
                            simp only
                            rw [ih ⟨(s.line.set s.j 0).set 0 10, 1, name, true,
                              s.printed ++ [string]⟩, Option.map_map]
                            simp only [Function.comp_def, List.append_assoc,
                              List.singleton_append]
                      · rw [if_neg huid, if_neg huid, Option.map_some, Option.map_some,
                          List.append_nil]
        · rw [if_neg hb, forLoop_byte uid b rest s hb hroom]
          exact ih ⟨s.line.set s.j b, s.j + 1, s.name, s.isOver, s.printed⟩
      · rw [if_neg hroom, forLoop_full uid b rest s hroom]
        rfl

/-- A buffer with a `Uid:` is the last one. -/
theorem forLoop_over (uid : Int) (bytes : List UInt8) (s s' : Scan)
    (h : s.isOver = true ∨ hasUid (linesIn bytes s.line s.j) = true)
    (hloop : forLoop uid bytes s = some s') : s'.isOver = true := by
  induction bytes generalizing s with
  | nil =>
      cases hloop
      exact h.resolve_right (fun hnil => absurd hnil Bool.false_ne_true)
  | cons b rest ih =>
      rw [linesIn] at h
      by_cases hroom : s.j < s.line.length
      · rw [if_pos hroom] at h
        by_cases hb : b = 10
        · subst hb
          rw [if_pos rfl, hasUid_cons, Bool.or_eq_true] at h
          rw [forLoop_newline uid rest s hroom] at hloop
          cases hname : nameAfter (s.line.set s.j 0) s.name with
          | none =>
              rw [hname] at hloop
              cases hloop
          | some name =>
              simp only [hname] at hloop
              cases hfound : found uidTag (s.line.set s.j 0) with
              | none =>
                  simp only [hfound] at hloop
                  rw [hfound] at h
                  refine ih ⟨(s.line.set s.j 0).set 0 10, 1, name, s.isOver, s.printed⟩
                    (h.imp_right (fun h => h.resolve_left Bool.false_ne_true)) hloop
              | some at' =>
                  simp only [hfound] at hloop
                  cases hatoi : atoi (at'.drop 5) with
                  | none =>
                      simp only [hatoi] at hloop
                      cases hloop
                  | some thisUid =>
                      simp only [hatoi] at hloop
                      by_cases huid : thisUid = uid
                      · rw [if_pos huid] at hloop
                        cases hstring : stringAt name with
                        | none =>
                            simp only [hstring] at hloop
                            cases hloop
                        | some string =>
                            simp only [hstring] at hloop
                            exact ih ⟨(s.line.set s.j 0).set 0 10, 1, name, true,
                              s.printed ++ [string]⟩ (.inl rfl) hloop
                      · rw [if_neg huid] at hloop
                        cases hloop
                        rfl
        · rw [if_neg hb] at h
          rw [forLoop_byte uid b rest s hb hroom] at hloop
          exact ih ⟨s.line.set s.j b, s.j + 1, s.name, s.isOver, s.printed⟩ h hloop
      · rw [forLoop_full uid b rest s hroom] at hloop
        cases hloop

/-! ### A file -/

/-- Lines without a `Uid:` in front of others. -/
theorem showLines_append (uid : Int) (lines rest : List (Option (List UInt8)))
    (name : List UInt8) (h : hasUid lines = false) :
    showLines uid (lines ++ rest) name = (namesAfter lines name).bind (showLines uid rest) := by
  induction lines generalizing name with
  | nil => rfl
  | cons l lines ih =>
      cases l with
      | none => rfl
      | some line =>
          rw [hasUid_cons_eq_false_iff] at h
          rw [List.cons_append, showLines, namesAfter]
          cases nameAfter line name with
          | none => rfl
          | some name =>
              simp only [h.1, Option.bind_some]
              exact ih name h.2

/-- What the reads print is what the lines print that are gone over. -/
theorem readLoop_printed (uid : Int) (reads : List (List UInt8)) (buffer : List UInt8) (s : Scan)
    (hover : s.isOver = false) :
    (readLoop uid reads buffer s).map Scan.printed =
      (showLines uid (goneOver reads buffer s.line s.j) s.name).map (fun names =>
        s.printed ++ names) := by
  induction reads generalizing buffer s with
  | nil => rw [readLoop, goneOver, showLines, Option.map_some, Option.map_some, List.append_nil]
  | cons bytes reads ih =>
      rw [readLoop, goneOver]
      cases huid : hasUid (linesIn (bytes ++ buffer.drop bytes.length) s.line s.j) with
      | true =>
          -- This is the last block, and all that is printed is printed in it.
          rw [if_pos rfl, ← forLoop_printed]
          cases hloop : forLoop uid (bytes ++ buffer.drop bytes.length) s with
          | none => rfl
          | some s' =>
              simp only
              rw [if_pos (forLoop_over uid _ s s' (.inr huid) hloop)]
      | false =>
          -- Nothing is printed for this block, and the next one follows.
          rw [if_neg Bool.false_ne_true, forLoop_of_not_hasUid uid _ s huid]
          by_cases hroom : (cutAfter (bytes ++ buffer.drop bytes.length) s.line s.j).2 <
              (cutAfter (bytes ++ buffer.drop bytes.length) s.line s.j).1.length
          · rw [if_pos hroom, showLines_append uid _ _ s.name huid]
            cases namesAfter (linesIn (bytes ++ buffer.drop bytes.length) s.line s.j) s.name with
            | none => rfl
            | some name =>
                simp only [Option.map_some, hover, Bool.false_eq_true, if_false, if_pos hroom,
                  Option.bind_some]
                exact ih _ ⟨_, _, name, false, s.printed⟩ rfl
          · rw [if_neg hroom, showLines_append uid _ _ s.name huid]
            cases namesAfter (linesIn (bytes ++ buffer.drop bytes.length) s.line s.j) s.name with
            | none => rfl
            | some name =>
                simp only [Option.map_some, hover, Bool.false_eq_true, if_false, if_neg hroom,
                  Option.bind_some]
                rfl

/-- What is printed for a file. -/
theorem showFile_eq (uid : Int) (junk : Junk) (reads : List (List UInt8)) :
    showFile uid junk reads =
      showLines uid (goneOver reads junk.buffer junk.line 0) junk.name := by
  rw [showFile, readLoop_printed uid reads junk.buffer _ rfl]
  simp only [List.nil_append, Option.map_id']

end ShowUserProcs

end TlpiPractice
