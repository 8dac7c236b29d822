import Mathlib.Logic.Function.Basic
import TlpiPractice.Library.CString
import TlpiPractice.Library.Ints

/-!
# Tail

The program of `13-5-my_tail.c`, which prints the last lines of a file.

The lines read last are kept in a ring of `line_num` buffers. The line being
read goes into the buffer with the number `line_count % line_num`, byte by
byte, and a NUL takes the place of its newline. A buffer that is full after a
byte is doubled at once, so there is always room for the NUL. After the loop
what follows the last newline is made a line if there is anything. Then a
notice is printed if there were fewer lines than asked for, and the lines from
`line_count - line_num + 1` on, or from the first.

A file is read in blocks of at most 4096 bytes. A buffer is the bytes that
its memory holds, of which only the first `size` belong to it; what `malloc`
and the new part of `realloc` contain is not known. A store or a string that
leaves its buffer is undefined, and so are an `int` that gets too large and a
ring without buffers. The source does not look at what the calls to `malloc` for
the ring return, and here they always give memory.

What `int` can hold is a parameter: `int32` for the machine, `unbounded` for a
program whose counters never run out.

## Main definitions

* `CInt`: What `int` can hold.
* `Kernel`: How the calls to the system and to `realloc` go.
* `Line`: `struct line`.
* `Process`: The state of the process.
* `tailByte`: The body of the inner loop.
* `main`: The program.
-/

namespace TlpiPractice

namespace Tail

/-- An integer type for counters: its largest value, if it has one. -/
structure CInt where
  max : Option Nat
  /-- C promises this much of `int`. -/
  wide : ∀ m ∈ max, 32767 ≤ m

/-- Whether a counter can take this value. -/
def CInt.holds (A : CInt) (n : Nat) : Bool := A.max.all (fun m => decide (n ≤ m))

/-- Two's complement of 32 bits. -/
def int32 : CInt where
  max := some Ints.intMax.toNat
  wide := fun m hm => by
    rw [← Option.mem_some.mp hm]
    decide

/-- Integers without bounds. -/
def unbounded : CInt where
  max := none
  wide := fun _ hm => nomatch hm

/-- The size of `buffer`. -/
def bufferSize : Nat := 4096

/-- How the calls go. -/
structure Kernel where
  /-- What the buffers of the ring contain at first. -/
  junk : Nat → Nat → UInt8
  /-- What the new part of a buffer contains, by the number of the `realloc`,
      or `none` when there is no memory. -/
  realloc : Nat → Option (Nat → UInt8)
  /-- The `read` after the last block reports the end of the file. -/
  readsEnd : Bool

/-- What a `read` returns before the end of the file. -/
structure Block where
  bytes : List UInt8
  ne_nil : bytes ≠ []
  length_le : bytes.length ≤ bufferSize

/-- `struct line`. -/
structure Line where
  buf : Nat → UInt8
  size : Nat

/-- What is printed. -/
inductive Print where
  /-- "Only %d lines". -/
  | only (n : Nat)
  | line (bytes : List UInt8)
  deriving DecidableEq

inductive Status where
  | running
  /-- `main` has returned 0. -/
  | returned
  /-- By `errExit`. -/
  | exited
  /-- An access outside of a buffer, an overflow, or a division by zero. -/
  | undefined
  deriving DecidableEq

structure Process where
  lines : Nat → Line
  lineCount : Nat
  j : Nat
  /-- The number of calls to `realloc` so far. -/
  reallocs : Nat
  printed : List Print
  status : Status

/-- Goes on only while the process runs. -/
def Process.andThen (s : Process) (f : Process → Process) : Process :=
  if s.status = .running then f s else s

/-- `'\n'`. -/
def newline : UInt8 := 10

/-- `lines[ind].buf[j] = b`. -/
def store (ind : Nat) (b : UInt8) (s : Process) : Process :=
  let l := s.lines ind
  if s.j < l.size then
    { s with lines := Function.update s.lines ind { l with buf := Function.update l.buf s.j b } }
  else { s with status := .undefined }

/-- `line_count++`. -/
def countLine (A : CInt) (s : Process) : Process :=
  if A.holds (s.lineCount + 1) = true then { s with lineCount := s.lineCount + 1 }
  else { s with status := .undefined }

/-- `j++`. -/
def advance (A : CInt) (s : Process) : Process :=
  if A.holds (s.j + 1) = true then { s with j := s.j + 1 } else { s with status := .undefined }

/-- What follows a byte: a buffer that is full is doubled. -/
def grow (A : CInt) (K : Kernel) (ind : Nat) (s : Process) : Process :=
  let l := s.lines ind
  if s.j = l.size then
    if A.holds (l.size * 2) = true then
      match K.realloc s.reallocs with
      | none => { s with reallocs := s.reallocs + 1, status := .exited }
      | some junk =>
          { s with
            lines := Function.update s.lines ind
              ⟨fun i => if i < l.size then l.buf i else junk i, l.size * 2⟩
            reallocs := s.reallocs + 1 }
    else { s with status := .undefined }
  else s

/-- The body of the inner loop. -/
def tailByte (A : CInt) (K : Kernel) (lineNum : Nat) (s : Process) (b : UInt8) : Process :=
  s.andThen (fun s =>
    -- `line_count % line_num`
    if lineNum = 0 then { s with status := .undefined }
    else
      let ind := s.lineCount % lineNum
      let stored :=
        if b = newline then
          (store ind 0 s).andThen (fun s => (countLine A s).andThen (fun s => { s with j := 0 }))
        else (store ind b s).andThen (advance A)
      stored.andThen (grow A K ind))

/-- The inner loop over one block. -/
def tailBlock (A : CInt) (K : Kernel) (lineNum : Nat) (s : Process) (block : Block) : Process :=
  block.bytes.foldl (tailByte A K lineNum) s

/-- The process before the loop, when `malloc` has given memory for the ring. -/
def opened (K : Kernel) : Process where
  lines := fun i => ⟨K.junk i, 512⟩
  lineCount := 0
  j := 0
  reallocs := 0
  printed := []
  status := .running

/-- `read` in the loop, for all of the file. -/
def readAll (A : CInt) (K : Kernel) (lineNum : Nat) (blocks : List Block) : Process :=
  (blocks.foldl (tailBlock A K lineNum) (opened K)).andThen (fun s =>
    if K.readsEnd = true then s else { s with status := .exited })

/-- What follows the last newline is made a line. -/
def lastLine (A : CInt) (lineNum : Nat) (s : Process) : Process :=
  if s.j ≠ 0 then (store (s.lineCount % lineNum) 0 s).andThen (countLine A) else s

/-- The string in a buffer, if it ends there. -/
def Line.string (l : Line) : Option (List UInt8) :=
  let bytes := (List.range l.size).map l.buf
  if (0 : UInt8) ∈ bytes then some (CString.str bytes) else none

/-- `printf("%s\n", lines[i % line_num].buf)`. -/
def printLine (lineNum : Nat) (s : Process) (i : Nat) : Process :=
  s.andThen (fun s =>
    match (s.lines (i % lineNum)).string with
    | none => { s with status := .undefined }
    | some bytes => { s with printed := s.printed ++ [.line bytes] })

/-- The notice about a short file. -/
def notice (lineNum : Nat) (s : Process) : Process :=
  if s.lineCount < lineNum then { s with printed := s.printed ++ [.only s.lineCount] } else s

/-- `MAX(0, line_count - line_num + 1)`. -/
def firstPrinted (lineNum lineCount : Nat) : Nat :=
  (max 0 ((lineCount : Int) - lineNum + 1)).toNat

/-- The loop that prints the lines. -/
def printLines (lineNum : Nat) (s : Process) : Process :=
  let first := firstPrinted lineNum s.lineCount
  (List.range' first (s.lineCount - first)).foldl (printLine lineNum) s

/-- The program: the file is read as `blocks`. -/
def main (A : CInt) (K : Kernel) (lineNum : Nat) (blocks : List Block) : Process :=
  ((readAll A K lineNum blocks).andThen (lastLine A lineNum)).andThen (fun s =>
    (printLines lineNum (notice lineNum s)).andThen (fun s => { s with status := .returned }))

/-- The bytes of the file. -/
def content (blocks : List Block) : List UInt8 := (blocks.map Block.bytes).flatten

end Tail

end TlpiPractice
