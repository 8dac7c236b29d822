import TlpiPractice.Library.CString
import TlpiPractice.Library.Ints

/-!
# Showing the Processes of a User

The loop over `/proc` of `12-1-show_user_procs.c`, which prints the names of
the processes of a user, from where it has the uid.

For every process the program reads its status file and puts it together line
by line, byte by byte, in an array. When a line has come to its end it looks
for `Name:` and for `Uid:` anywhere in it.

The loop over the bytes does not end where the bytes end that have been read:
it goes over the whole buffer, so behind a short read it takes what was in the
buffer before. It does not end either where a `Uid:` with the right uid has
been found, so a later line of the same buffer may print the name again. The
newline of a line is put at the head of the next one. Nothing keeps a line, or
a name, within its array.

The arrays live in the body of the loop, so for every process they hold
whatever is in memory there. No read fails, and a file that cannot be opened
is left out.

## Main definitions

* `atoi`: The function of the library.
* `found`: The search for a tag.
* `lineEnd`: What is done at a newline.
* `forLoop`: The loop over the buffer.
* `readLoop`: The loop over the reads.
* `showFile`: What is printed for a process.
* `showProcs`: The loop over the directory.
-/

namespace TlpiPractice

namespace ShowUserProcs

open Ints

/-- `sizeof(buffer)`, which is that of `line` too. -/
def bufferSize : Nat := 1024

/-- `isspace`. -/
def isSpace (b : UInt8) : Bool := b == 32 || (9 ≤ b && b ≤ 13)

/-- `isdigit`. -/
def isDigit (b : UInt8) : Bool := 48 ≤ b && b ≤ 57

/-- The number that some digits make. -/
def digitsValue (digits : List UInt8) : Nat := digits.foldl (fun v b => 10 * v + (b.toNat - 48)) 0

/-- `atoi`, with the bytes from the pointer to the end of the array. There is
    no result if it comes to the end, or if the number is not an `int`. -/
def atoi (bytes : List UInt8) : Option Int :=
  let signed := bytes.dropWhile isSpace
  let unsigned := match signed with
    | 45 :: rest => rest
    | 43 :: rest => rest
    | rest => rest
  let digits := unsigned.takeWhile isDigit
  let value : Int :=
    if signed.head? = some 45 then -(digitsValue digits : Int) else digitsValue digits
  if digits.length = unsigned.length ∨ ¬ (intMin ≤ value ∧ value ≤ intMax) then none
  else some value

/-- The string at the front of an array, if its NUL is in the array. -/
def stringAt (array : List UInt8) : Option (List UInt8) :=
  if 0 ∈ array then some (CString.str array) else none

/-- `"Name:"`. -/
def nameTag : List UInt8 := [78, 97, 109, 101, 58]

/-- `"Uid:"`. -/
def uidTag : List UInt8 := [85, 105, 100, 58]

/-- `strstr` in the line: the array from where the tag is on. -/
def found (tag line : List UInt8) : Option (List UInt8) :=
  match CString.strstr (CString.str line) tag with
  | none => none
  | some rest => some (line.drop ((CString.str line).length - rest.length))

/-- `strcpy(name, s)`, with the bytes from `s` to the end of the line's array. -/
def strcpy (name s : List UInt8) : Option (List UInt8) :=
  match stringAt s with
  | none => none
  | some string =>
      if string.length < name.length then
        some (string ++ 0 :: name.drop (string.length + 1))
      else none

/-- The variables of the loop body, less the buffer, with what is printed. -/
structure Scan where
  line : List UInt8
  j : Nat
  name : List UInt8
  isOver : Bool
  printed : List (List UInt8)

/-- `line[j++] = b`. -/
def Scan.put (s : Scan) (b : UInt8) : Option Scan :=
  if s.j < s.line.length then some { s with line := s.line.set s.j b, j := s.j + 1 } else none

/-- How the branch for a newline ends. -/
inductive Branch where
  /-- At its end, with `j` at zero. -/
  | through (s : Scan)
  | breaks (s : Scan)
  | undefined

/-- What comes behind the search for the name. -/
def uidBranch (uid : Int) (s : Scan) : Branch :=
  match found uidTag s.line with
  | none => .through { s with j := 0 }
  | some at' =>
      match atoi (at'.drop 5) with
      | none => .undefined
      | some thisUid =>
          if thisUid = uid then
            match stringAt s.name with
            | none => .undefined
            | some string =>
                .through { s with j := 0, isOver := true, printed := s.printed ++ [string] }
          else .breaks { s with isOver := true }

/-- The branch for a newline. -/
def lineEnd (uid : Int) (s : Scan) : Branch :=
  if s.j < s.line.length then
    let line := s.line.set s.j 0
    match found nameTag line with
    | none => uidBranch uid { s with line := line }
    | some at' =>
        match strcpy s.name (at'.drop 6) with
        | none => .undefined
        | some name => uidBranch uid { s with line := line, name := name }
  else .undefined

/-- The loop over the buffer. There is no result if what happens is not
    defined. -/
def forLoop (uid : Int) : List UInt8 → Scan → Option Scan
  | [], s => some s
  | b :: rest, s =>
      if b = 10 then
        match lineEnd uid s with
        | .undefined => none
        | .breaks s => some s
        | .through s =>
            match s.put b with
            | none => none
            | some s => forLoop uid rest s
      else
        match s.put b with
        | none => none
        | some s => forLoop uid rest s

/-- The loop over the reads, which give these bytes one after the other. -/
def readLoop (uid : Int) : List (List UInt8) → List UInt8 → Scan → Option Scan
  | [], _, s => some s
  | bytes :: reads, buffer, s =>
      let buffer := bytes ++ buffer.drop bytes.length
      match forLoop uid buffer s with
      | none => none
      | some s =>
          if s.isOver then some s
          else if s.j < s.line.length then
            readLoop uid reads buffer { s with line := s.line.set s.j 0 }
          else none

/-- What is in memory where the arrays are. -/
structure Junk where
  buffer : List UInt8
  line : List UInt8
  name : List UInt8
  buffer_length : buffer.length = bufferSize
  line_length : line.length = bufferSize
  name_length : name.length = 100

/-- What is printed for a process whose file is read like this. -/
def showFile (uid : Int) (junk : Junk) (reads : List (List UInt8)) : Option (List (List UInt8)) :=
  (readLoop uid reads junk.buffer ⟨junk.line, 0, junk.name, false, []⟩).map Scan.printed

/-- What is printed for each entry of the directory, where the reads are
    missing for one that cannot be opened. -/
def showProcs (uid : Int) :
    List (Junk × Option (List (List UInt8))) → Option (List (List (List UInt8)))
  | [] => some []
  | (_, none) :: entries => (showProcs uid entries).map (fun printed => [] :: printed)
  | (junk, some reads) :: entries =>
      match showFile uid junk reads with
      | none => none
      | some names => (showProcs uid entries).map (fun printed => names :: printed)

end ShowUserProcs

end TlpiPractice
