import TlpiPractice.Theory.ShowUserProcs.Lines

/-!
# The Listing of the Processes

Which names are printed for the processes of a user.

The program judges a process by the first line with a `Uid:` that it goes
over, wherever the tag is in the line and whether the line is one of the file
or one that is left in the buffer, and it names the process by the last line
with a `Name:` up to there. After a name has been printed it goes on to the
end of the buffer, where another line with the uid would print it once more.

## Main definitions

* `Status`: A status file, and how it is read.
* `ListingRight`: What the program should print.
* `Fits`, `Plain`: When a line sets the name, or nothing else.
* `FirstUid`: The first line with a `Uid:`.
* `Silent`, `PrintsOnce`: When nothing is printed, or one name.
* `Listed`: When a process is listed as it should be.

## Theorems

* `silent_iff`, `printsOnce_iff`: What is printed for some lines.
* `showFile_iff`, `showProcs_iff`: What is printed for a process, and for all.
* `listingRight_iff`: When the program is right.
* `tagged_wrong`: A name for which it is not.
-/

namespace TlpiPractice

namespace ShowUserProcs

/-- The digits of a number. -/
def decimal (n : Nat) : List UInt8 := (Nat.toDigits 10 n).map (fun c => UInt8.ofNat c.toNat)

/-- A status file: its first line with the name, some lines, the line with the
    real uid and whatever follows that, and some more lines. -/
def statusText (name : List UInt8) (before : List (List UInt8)) (uid : Nat) (rest : List UInt8)
    (after : List (List UInt8)) : List UInt8 :=
  (([nameTag ++ 9 :: name] ++ before ++ [uidTag ++ 9 :: decimal uid ++ rest] ++ after).map
    (fun line => line ++ [10])).flatten

/-- A status file, and the reads that it is read by. -/
structure Status where
  name : List UInt8
  before : List (List UInt8)
  uid : Nat
  rest : List UInt8
  after : List (List UInt8)
  reads : List (List UInt8)
  name_short : name.length ≤ 15
  name_line : 10 ∉ name ∧ 0 ∉ name
  others : ∀ line ∈ before ++ after, 10 ∉ line ∧ ¬ uidTag <+: line
  rest_line : 10 ∉ rest ∧ ∀ b ∈ rest.head?, isDigit b = false
  reads_fit : ∀ bytes ∈ reads, bytes ≠ [] ∧ bytes.length ≤ bufferSize
  reads_flatten : reads.flatten = statusText name before uid rest after

/-- What should be printed for an entry of the directory: the name of a
    process whose real uid is the one that is asked for. -/
def expected (uid : Int) : Option Status → List (List UInt8)
  | none => []
  | some status => if (status.uid : Int) = uid then [status.name] else []

/-- For each entry the program should print that, and nothing else. -/
def ListingRight (uid : Int) (entries : List (Junk × Option Status)) : Prop :=
  showProcs uid (entries.map (fun e => (e.1, e.2.map Status.reads))) =
    some (entries.map (fun e => expected uid e.2))

/-! ### A line -/

/-- The number behind the `Uid:` of a line. -/
def uidOf (line : List UInt8) : Option Int :=
  (found uidTag line).bind (fun at' => atoi (at'.drop 5))

/-- The name behind the `Name:` of a line. -/
def nameOf (line : List UInt8) : Option (List UInt8) :=
  (found nameTag line).bind (fun at' => stringAt (at'.drop 6))

/-- If there is a `Name:` in the line, there is a name behind it, and it fits
    into its array. -/
def Fits (line : List UInt8) : Prop :=
  found nameTag line = none ∨ ∃ string, nameOf line = some string ∧ string.length < 100

/-- A line that fits and has no `Uid:`. -/
def Plain (l : Option (List UInt8)) : Prop :=
  ∃ line, l = some line ∧ Fits line ∧ found uidTag line = none

theorem stringAt_append (string rest : List UInt8) (h : 0 ∉ string) :
    stringAt (string ++ 0 :: rest) = some string := by
  rw [stringAt, if_pos (List.mem_append_right string List.mem_cons_self),
    CString.str_append string rest (fun b hb hzero => h (hzero ▸ hb))]

theorem not_mem_of_stringAt (array string : List UInt8) (h : stringAt array = some string) :
    0 ∉ string := by
  unfold stringAt at h
  by_cases hzero : (0 : UInt8) ∈ array
  · rw [if_pos hzero] at h
    cases h
    exact fun hmem => (CString.ofBytes array).noNul 0 hmem rfl
  · rw [if_neg hzero] at h
    cases h

/-- A line that does not fit. -/
theorem nameAfter_of_not_fits (line name : List UInt8) (hname : name.length = 100)
    (h : ¬ Fits line) : nameAfter line name = none := by
  unfold Fits at h
  rw [not_or] at h
  unfold nameAfter
  cases hfound : found nameTag line with
  | none => exact absurd hfound h.1
  | some at' =>
      simp only [strcpy]
      cases hstring : stringAt (at'.drop 6) with
      | none => rfl
      | some string =>
          have hof : nameOf line = some string := by
            rw [nameOf, hfound, Option.bind_some, hstring]
          rw [hname]
          exact if_neg (fun hshort => h.2 ⟨string, hof, hshort⟩)

/-- A line that fits sets the name to what it has behind its `Name:`. -/
theorem nameAfter_of_fits (line name : List UInt8) (hname : name.length = 100) (h : Fits line) :
    ∃ name', nameAfter line name = some name' ∧ name'.length = 100 ∧
      stringAt name' = (nameOf line).or (stringAt name) := by
  unfold nameAfter
  cases hfound : found nameTag line with
  | none =>
      refine ⟨name, rfl, hname, ?_⟩
      rw [nameOf, hfound, Option.bind_none, Option.none_or]
  | some at' =>
      rcases h with h | ⟨string, hof, hshort⟩
      · rw [hfound] at h
        cases h
      · have hstring : stringAt (at'.drop 6) = some string := by
          rw [nameOf, hfound, Option.bind_some] at hof
          exact hof
        refine ⟨string ++ 0 :: name.drop (string.length + 1), ?_, ?_, ?_⟩
        · simp only [strcpy, hstring, hname, if_pos hshort]
        · rw [List.length_append, List.length_cons, List.length_drop, hname]
          omega
        · rw [hof, Option.some_or,
            stringAt_append string _ (not_mem_of_stringAt (at'.drop 6) string hstring)]

/-! ### The lines -/

/-- The first line with a `Uid:`, with the lines in front of it and behind. -/
def FirstUid (lines pre : List (Option (List UInt8))) (line : List UInt8)
    (post : List (Option (List UInt8))) : Prop :=
  lines = pre ++ some line :: post ∧ (∀ l ∈ pre, Plain l) ∧ Fits line ∧ found uidTag line ≠ none

/-- There is no line with a `Uid:`, or the first one has another uid. -/
def Silent (uid : Int) (lines : List (Option (List UInt8))) : Prop :=
  (∀ l ∈ lines, Plain l) ∨
    ∃ pre line post thisUid, FirstUid lines pre line post ∧ uidOf line = some thisUid ∧
      thisUid ≠ uid

/-- The last name that some lines have, or the one that was there before. -/
def lastName : List (Option (List UInt8)) → Option (List UInt8) → Option (List UInt8)
  | [], before => before
  | l :: lines, before => lastName lines ((l.bind nameOf).or before)

/-- The first line with a `Uid:` has the uid, the last name up to there is
    this one, and nothing is printed behind it. -/
def PrintsOnce (uid : Int) (lines : List (Option (List UInt8))) (before : Option (List UInt8))
    (name : List UInt8) : Prop :=
  ∃ pre line post, FirstUid lines pre line post ∧ uidOf line = some uid ∧
    lastName (pre ++ [some line]) before = some name ∧ Silent uid post

theorem found_of_uidOf (line : List UInt8) (thisUid : Int) (h : uidOf line = some thisUid) :
    found uidTag line ≠ none := by
  intro hnone
  rw [uidOf, hnone] at h
  cases h

theorem firstUid_cons (l : Option (List UInt8)) (line : List UInt8)
    (lines pre post : List (Option (List UInt8))) :
    FirstUid (l :: lines) pre line post ↔
      (pre = [] ∧ l = some line ∧ lines = post ∧ Fits line ∧ found uidTag line ≠ none) ∨
        ∃ pre', pre = l :: pre' ∧ Plain l ∧ FirstUid lines pre' line post := by
  constructor
  · rintro ⟨hsplit, hplain, hfits, huid⟩
    cases pre with
    | nil =>
        cases hsplit
        exact .inl ⟨rfl, rfl, rfl, hfits, huid⟩
    | cons x pre =>
        cases hsplit
        rcases List.forall_mem_cons.mp hplain with ⟨hx, hplain⟩
        exact .inr ⟨pre, rfl, hx, rfl, hplain, hfits, huid⟩
  · rintro (⟨rfl, rfl, rfl, hfits, huid⟩ | ⟨pre', rfl, hl, rfl, hplain, hfits, huid⟩)
    · exact ⟨rfl, List.forall_mem_nil _, hfits, huid⟩
    · exact ⟨rfl, List.forall_mem_cons.mpr ⟨hl, hplain⟩, hfits, huid⟩

/-- Where the first line is plain, the first with a `Uid:` is behind it. -/
theorem firstUid_plain (l : Option (List UInt8)) (line : List UInt8)
    (lines pre post : List (Option (List UInt8))) (hl : Plain l) :
    FirstUid (l :: lines) pre line post ↔
      ∃ pre', pre = l :: pre' ∧ FirstUid lines pre' line post := by
  rw [firstUid_cons, or_iff_right]
  · exact exists_congr (fun pre' => and_congr_right' (and_iff_right hl))
  · rintro ⟨-, rfl, -, -, huid⟩
    rcases hl with ⟨line', hline, -, hnone⟩
    cases hline
    exact huid hnone

/-- Where it is not, it is the first one itself. -/
theorem firstUid_of_not_plain (l : Option (List UInt8)) (line : List UInt8)
    (lines pre post : List (Option (List UInt8))) (hl : ¬ Plain l) :
    FirstUid (l :: lines) pre line post ↔
      pre = [] ∧ l = some line ∧ lines = post ∧ Fits line ∧ found uidTag line ≠ none := by
  rw [firstUid_cons, or_iff_left]
  rintro ⟨pre', -, h, -⟩
  exact hl h

theorem silent_plain (uid : Int) (l : Option (List UInt8)) (lines : List (Option (List UInt8)))
    (hl : Plain l) : Silent uid (l :: lines) ↔ Silent uid lines := by
  unfold Silent
  rw [List.forall_mem_cons, and_iff_right hl]
  refine or_congr Iff.rfl ?_
  constructor
  · rintro ⟨pre, line, post, thisUid, hfirst, huid, hne⟩
    rcases (firstUid_plain l line lines pre post hl).mp hfirst with ⟨pre', -, hfirst'⟩
    exact ⟨pre', line, post, thisUid, hfirst', huid, hne⟩
  · rintro ⟨pre, line, post, thisUid, hfirst, huid, hne⟩
    exact ⟨l :: pre, line, post, thisUid,
      (firstUid_plain l line lines (l :: pre) post hl).mpr ⟨pre, rfl, hfirst⟩, huid, hne⟩

theorem silent_of_not_plain (uid : Int) (l : Option (List UInt8))
    (lines : List (Option (List UInt8))) (hl : ¬ Plain l) :
    Silent uid (l :: lines) ↔
      ∃ line thisUid, l = some line ∧ Fits line ∧ uidOf line = some thisUid ∧ thisUid ≠ uid := by
  constructor
  · rintro (hplain | ⟨pre, line, post, thisUid, hfirst, huid, hne⟩)
    · exact absurd (hplain l List.mem_cons_self) hl
    · rcases (firstUid_of_not_plain l line lines pre post hl).mp hfirst with ⟨-, hline, -, hfits, -⟩
      exact ⟨line, thisUid, hline, hfits, huid, hne⟩
  · rintro ⟨line, thisUid, hline, hfits, huid, hne⟩
    refine .inr ⟨[], line, lines, thisUid, ?_, huid, hne⟩
    refine (firstUid_of_not_plain l line lines [] lines hl).mpr ⟨rfl, hline, rfl, hfits, ?_⟩
    exact found_of_uidOf line thisUid huid

/-- Where the first line is plain, the name is the last one behind it. -/
theorem printsOnce_plain (uid : Int) (l : Option (List UInt8)) (lines : List (Option (List UInt8)))
    (before : Option (List UInt8)) (name : List UInt8) (hl : Plain l) :
    PrintsOnce uid (l :: lines) before name ↔
      PrintsOnce uid lines ((l.bind nameOf).or before) name := by
  constructor
  · rintro ⟨pre, line, post, hfirst, huid, hlast, hpost⟩
    rcases (firstUid_plain l line lines pre post hl).mp hfirst with ⟨pre', rfl, hfirst'⟩
    exact ⟨pre', line, post, hfirst', huid, hlast, hpost⟩
  · rintro ⟨pre, line, post, hfirst, huid, hlast, hpost⟩
    exact ⟨l :: pre, line, post,
      (firstUid_plain l line lines (l :: pre) post hl).mpr ⟨pre, rfl, hfirst⟩, huid, hlast, hpost⟩

theorem printsOnce_of_not_plain (uid : Int) (l : Option (List UInt8))
    (lines : List (Option (List UInt8))) (before : Option (List UInt8)) (name : List UInt8)
    (hl : ¬ Plain l) :
    PrintsOnce uid (l :: lines) before name ↔
      ∃ line, l = some line ∧ Fits line ∧ uidOf line = some uid ∧
        (nameOf line).or before = some name ∧ Silent uid lines := by
  constructor
  · rintro ⟨pre, line, post, hfirst, huid, hlast, hpost⟩
    rcases (firstUid_of_not_plain l line lines pre post hl).mp hfirst with
      ⟨rfl, hline, rfl, hfits, -⟩
    exact ⟨line, hline, hfits, huid, hlast, hpost⟩
  · rintro ⟨line, hline, hfits, huid, hlast, hpost⟩
    refine ⟨[], line, lines, ?_, huid, hlast, hpost⟩
    refine (firstUid_of_not_plain l line lines [] lines hl).mpr ⟨rfl, hline, rfl, hfits, ?_⟩
    exact found_of_uidOf line uid huid

/-! ### What is printed -/

/-- A plain line only sets the name. -/
theorem showLines_plain (uid : Int) (l : Option (List UInt8)) (lines : List (Option (List UInt8)))
    (name : List UInt8) (hname : name.length = 100) (hl : Plain l) :
    ∃ name', name'.length = 100 ∧ stringAt name' = (l.bind nameOf).or (stringAt name) ∧
      showLines uid (l :: lines) name = showLines uid lines name' := by
  rcases hl with ⟨line, rfl, hfits, hnone⟩
  rcases nameAfter_of_fits line name hname hfits with ⟨name', hafter, hlength, hstring⟩
  refine ⟨name', hlength, hstring, ?_⟩
  rw [showLines]
  simp only [hafter, hnone]

/-- What is printed at a line with a `Uid:`. -/
theorem showLines_uid (uid : Int) (line : List UInt8) (lines : List (Option (List UInt8)))
    (name : List UInt8) (hname : name.length = 100) (hfits : Fits line)
    (hfound : found uidTag line ≠ none) :
    ∃ name', name'.length = 100 ∧ stringAt name' = (nameOf line).or (stringAt name) ∧
      showLines uid (some line :: lines) name =
        (uidOf line).bind (fun thisUid =>
          if thisUid = uid then
            (stringAt name').bind (fun string =>
              (showLines uid lines name').map (fun names => string :: names))
          else some []) := by
  rcases nameAfter_of_fits line name hname hfits with ⟨name', hafter, hlength, hstring⟩
  refine ⟨name', hlength, hstring, ?_⟩
  rw [showLines, uidOf]
  cases hat : found uidTag line with
  | none => exact absurd hat hfound
  | some at' =>
      simp only [hafter, Option.bind_some]
      cases atoi (at'.drop 5) with
      | none => rfl
      | some thisUid =>
          simp only [Option.bind_some]
          cases stringAt name' <;> rfl

/-- A line that does not fit, or is not there, makes all of it undefined. -/
theorem showLines_undefined (uid : Int) (l : Option (List UInt8))
    (lines : List (Option (List UInt8))) (name : List UInt8) (hname : name.length = 100)
    (h : ∀ line, l = some line → ¬ Fits line) : showLines uid (l :: lines) name = none := by
  cases l with
  | none => rfl
  | some line => rw [showLines, nameAfter_of_not_fits line name hname (h line rfl)]

/-- Nothing is printed. -/
theorem silent_iff (uid : Int) (lines : List (Option (List UInt8))) (name : List UInt8)
    (hname : name.length = 100) : showLines uid lines name = some [] ↔ Silent uid lines := by
  induction lines generalizing name with
  | nil => exact iff_of_true rfl (.inl (List.forall_mem_nil _))
  | cons l lines ih =>
      by_cases hl : Plain l
      · rcases showLines_plain uid l lines name hname hl with ⟨name', hlength, -, hshow⟩
        rw [silent_plain uid l lines hl, hshow]
        exact ih name' hlength
      · rw [silent_of_not_plain uid l lines hl]
        by_cases hline : ∃ line, l = some line ∧ Fits line
        · rcases hline with ⟨line, rfl, hfits⟩
          have hfound : found uidTag line ≠ none := fun hnone => hl ⟨line, rfl, hfits, hnone⟩
          rcases showLines_uid uid line lines name hname hfits hfound with ⟨name', -, -, hshow⟩
          rw [hshow, Option.bind_eq_some_iff]
          constructor
          · rintro ⟨thisUid, huid, hprint⟩
            refine ⟨line, thisUid, rfl, hfits, huid, fun heq => ?_⟩
            -- With this uid the name would have been printed.
            rw [if_pos heq, Option.bind_eq_some_iff] at hprint
            rcases hprint with ⟨string, -, hmap⟩
            rcases Option.map_eq_some_iff.mp hmap with ⟨names, -, hnil⟩
            exact List.cons_ne_nil string names hnil
          · rintro ⟨line', thisUid, heq, -, huid, hne⟩
            cases heq
            exact ⟨thisUid, huid, if_neg hne⟩
        · rw [showLines_undefined uid l lines name hname
            (fun line heq hfits => hline ⟨line, heq, hfits⟩)]
          refine iff_of_false (Option.some_ne_none _).symm ?_
          rintro ⟨line, thisUid, heq, hfits, -⟩
          exact hline ⟨line, heq, hfits⟩

/-- One name is printed. -/
theorem printsOnce_iff (uid : Int) (lines : List (Option (List UInt8))) (name string : List UInt8)
    (hname : name.length = 100) :
    showLines uid lines name = some [string] ↔
      PrintsOnce uid lines (stringAt name) string := by
  induction lines generalizing name with
  | nil =>
      refine iff_of_false (fun h => ?_) ?_
      · cases h
      · rintro ⟨pre, line, post, ⟨hsplit, -⟩, -⟩
        exact absurd hsplit.symm (List.append_ne_nil_of_right_ne_nil pre (List.cons_ne_nil _ _))
  | cons l lines ih =>
      by_cases hl : Plain l
      · rcases showLines_plain uid l lines name hname hl with ⟨name', hlength, hstring, hshow⟩
        rw [printsOnce_plain uid l lines (stringAt name) string hl, hshow, ← hstring]
        exact ih name' hlength
      · rw [printsOnce_of_not_plain uid l lines (stringAt name) string hl]
        by_cases hline : ∃ line, l = some line ∧ Fits line
        · rcases hline with ⟨line, rfl, hfits⟩
          have hfound : found uidTag line ≠ none := fun hnone => hl ⟨line, rfl, hfits, hnone⟩
          rcases showLines_uid uid line lines name hname hfits hfound with
            ⟨name', hlength, hstring, hshow⟩
          rw [hshow, Option.bind_eq_some_iff]
          constructor
          · rintro ⟨thisUid, huid, hprint⟩
            by_cases heq : thisUid = uid
            · -- The name here is the one, and what is behind adds none.
              rw [if_pos heq, Option.bind_eq_some_iff] at hprint
              rcases hprint with ⟨string', hstring', hmap⟩
              rcases Option.map_eq_some_iff.mp hmap with ⟨names, hrest, hcons⟩
              cases hcons
              exact ⟨line, rfl, hfits, heq ▸ huid, hstring ▸ hstring',
                (silent_iff uid lines name' hlength).mp hrest⟩
            · rw [if_neg heq] at hprint
              cases hprint
          · rintro ⟨line', heq, -, huid, hlast, hsilent⟩
            cases heq
            refine ⟨uid, huid, ?_⟩
            rw [if_pos rfl, hstring, hlast, Option.bind_some,
              (silent_iff uid lines name' hlength).mpr hsilent, Option.map_some]
        · rw [showLines_undefined uid l lines name hname
            (fun line heq hfits => hline ⟨line, heq, hfits⟩)]
          refine iff_of_false (Option.some_ne_none _).symm ?_
          rintro ⟨line, heq, hfits, -⟩
          exact hline ⟨line, heq, hfits⟩

/-! ### The listing -/

/-- A process is listed if its name is printed once where the uid is its own,
    and nothing is printed where it is not. -/
def Listed (uid : Int) (junk : Junk) (status : Status) : Prop :=
  let lines := goneOver status.reads junk.buffer junk.line 0
  if (status.uid : Int) = uid then PrintsOnce uid lines (stringAt junk.name) status.name
  else Silent uid lines

/-- What is printed for a process is what should be. -/
theorem showFile_iff (uid : Int) (junk : Junk) (status : Status) :
    showFile uid junk status.reads = some (expected uid (some status)) ↔
      Listed uid junk status := by
  rw [showFile_eq, expected, Listed]
  by_cases huid : (status.uid : Int) = uid
  · rw [if_pos huid, if_pos huid]
    exact printsOnce_iff uid _ junk.name status.name junk.name_length
  · rw [if_neg huid, if_neg huid]
    exact silent_iff uid _ junk.name junk.name_length

/-- What is printed is right exactly if it is for every file. -/
theorem showProcs_iff (uid : Int) (entries : List (Junk × Option Status)) :
    showProcs uid (entries.map (fun e => (e.1, e.2.map Status.reads))) =
        some (entries.map (fun e => expected uid e.2)) ↔
      ∀ e ∈ entries, ∀ status, e.2 = some status →
        showFile uid e.1 status.reads = some (expected uid (some status)) := by
  induction entries with
  | nil => exact iff_of_true rfl (List.forall_mem_nil _)
  | cons e entries ih =>
      rw [List.forall_mem_cons, ← ih, List.map_cons, List.map_cons]
      rcases e with ⟨junk, status⟩
      cases status with
      | none =>
          rw [Option.map_none, showProcs, expected, Option.map_eq_some_iff]
          constructor
          · rintro ⟨printed, hrest, hcons⟩
            cases hcons
            exact ⟨fun status h => absurd h.symm (Option.some_ne_none status), hrest⟩
          · rintro ⟨-, hrest⟩
            exact ⟨_, hrest, rfl⟩
      | some status =>
          rw [Option.map_some, showProcs]
          constructor
          · intro h
            cases hfile : showFile uid junk status.reads with
            | none =>
                rw [hfile] at h
                cases h
            | some names =>
                rw [hfile] at h
                rcases Option.map_eq_some_iff.mp h with ⟨printed, hrest, hcons⟩
                cases hcons
                refine ⟨fun status' heq => ?_, hrest⟩
                cases heq
                exact hfile
          · rintro ⟨hfile, hrest⟩
            rw [hfile status rfl]
            simp only [hrest, Option.map_some]

/-- The program is right if and only if every process with a file that can be
    opened is listed. -/
theorem listingRight_iff (uid : Int) (entries : List (Junk × Option Status)) :
    ListingRight uid entries ↔
      ∀ e ∈ entries, ∀ status, e.2 = some status → Listed uid e.1 status := by
  rw [ListingRight, showProcs_iff]
  constructor
  · intro h e he status hstatus
    exact (showFile_iff uid e.1 status).mp (h e he status hstatus)
  · intro h e he status hstatus
    exact (showFile_iff uid e.1 status).mpr (h e he status hstatus)

/-- Arrays that are zeros. -/
def zeros : Junk where
  buffer := List.replicate bufferSize 0
  line := List.replicate bufferSize 0
  name := List.replicate 100 0
  buffer_length := List.length_replicate
  line_length := List.length_replicate
  name_length := List.length_replicate

/-- A process of the superuser that has called itself `Uid: 5`, in one read. -/
def tagged : Status where
  name := [85, 105, 100, 58, 32, 53]
  before := []
  uid := 0
  rest := []
  after := []
  reads := [statusText [85, 105, 100, 58, 32, 53] [] 0 [] []]
  name_short := by decide
  name_line := by decide
  others := fun _ hline => absurd hline List.not_mem_nil
  rest_line := ⟨List.not_mem_nil, fun b hb => absurd hb (Option.not_mem_none b)⟩
  reads_fit := by decide
  reads_flatten := by rw [List.flatten_cons, List.flatten_nil, List.append_nil]

/-- The name of this process is taken for its uid, and it is not listed among
    those of the superuser. -/
theorem tagged_wrong : ¬ ListingRight 0 [(zeros, some tagged)] := by
  have hfile : showFile 0 zeros tagged.reads = some [] := by decide +kernel
  unfold ListingRight
  rw [List.map_cons, List.map_cons, List.map_nil, Option.map_some, showProcs, hfile]
  decide

end ShowUserProcs

end TlpiPractice
