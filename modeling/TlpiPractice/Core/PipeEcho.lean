import TlpiPractice.Library.CString
import TlpiPractice.Library.Lines
import TlpiPractice.Library.Runs

/-!
# The Echo over Two Pipes

The two loops of `44-1-pipe_echo.c`. The parent reads a line with `fgets`,
writes it to the first pipe together with its NUL, reads the answer from the
second and prints it. The child reads from the first pipe, turns what it has
read into upper case up to a NUL, and writes as many bytes to the second.

Each system call and each call of the library is a step, and parent and child
take turns in any order. A pipe is the bytes in it: a `write` of at most 4096
bytes is one step and waits while there is no room, a `read` waits while the
pipe is empty and takes all that is there, up to the size of the buffer. No
call fails and both processes keep their ends open, so no `read` returns zero.

Both processes have a buffer of their own, with the same contents at the
`fork`. A `fgets` at the end of the input leaves the buffer as it is, and the
parent writes what is in it. The last two fields of the state record what has
been printed in the loop and whether this has happened, and no step looks at
them.

## Main definitions

* `toupper`, `upcase`: The work of the child.
* `ParentPc`, `ChildPc`: Where the processes stand.
* `State`: Both processes and both pipes.
* `Event`: The steps.
* `Enabled`, `next`, `Step`: When a step can happen and what it does.
-/

namespace TlpiPractice

namespace PipeEcho

open CString

/-- The size of the buffers, and of what is written in one step. -/
def bufSize : Nat := 4096

/-- How many bytes a pipe has room for. -/
def pipeCapacity : Nat := 65536

def newline : UInt8 := 10

/-- `toupper` in the locale a program starts in. -/
def toupper (b : UInt8) : UInt8 := if 97 ≤ b ∧ b ≤ 122 then b - 32 else b

/-- The loop of the child: upper case up to a NUL, in the first bytes. -/
def upcase : Nat → List UInt8 → List UInt8
  | 0, buf => buf
  | _, [] => []
  | n + 1, b :: buf => if b = 0 then b :: buf else toupper b :: upcase n buf

/-- The buffer after `data` has been put at its front. -/
def fill (buf data : List UInt8) : List UInt8 := data ++ buf.drop data.length

/-- What the parent does next. -/
inductive ParentPc where
  | fgets
  | write
  | read
  | print
  deriving DecidableEq

/-- What the child does next; `n` is `read_num`. -/
inductive ChildPc where
  | read
  | write (n : Nat)
  deriving DecidableEq

structure State where
  /-- What is left of the input. -/
  stdin : List UInt8
  /-- The first pipe, from the parent to the child. -/
  pfd1 : List UInt8
  /-- The second pipe, back to the parent. -/
  pfd2 : List UInt8
  parent : ParentPc
  child : ChildPc
  /-- The buffer of the parent. -/
  buf : List UInt8
  /-- The buffer of the child. -/
  childBuf : List UInt8
  printed : List UInt8
  /-- Whether `fgets` has met the end of the input. -/
  atEof : Bool
  deriving DecidableEq

inductive Event where
  | fgets
  | write
  | childRead
  | childWrite
  | read
  | print
  deriving DecidableEq

/-- What the parent writes: the string in its buffer and the NUL behind it. -/
def message (buf : List UInt8) : List UInt8 := buf.take ((str buf).length + 1)

/-- What a `read` takes out of a pipe. -/
def received (pipe : List UInt8) : List UInt8 := pipe.take bufSize

/-- When an event can happen. -/
def Enabled (s : State) : Event → Prop
  | .fgets => s.parent = .fgets
  | .write => s.parent = .write ∧ s.pfd1.length + (message s.buf).length ≤ pipeCapacity
  | .childRead => s.child = .read ∧ s.pfd1 ≠ []
  | .childWrite => ∃ n, s.child = .write n ∧ s.pfd2.length + n ≤ pipeCapacity
  | .read => s.parent = .read ∧ s.pfd2 ≠ []
  | .print => s.parent = .print

/-- What an event does. -/
def next (s : State) : Event → State
  -- At the end of the input the buffer keeps the line before.
  | .fgets =>
      if s.stdin = [] then { s with parent := .write, atEof := true }
      else
        { s with
          parent := .write
          buf := fill s.buf (Lines.taken newline (bufSize - 1) s.stdin ++ [0])
          stdin := s.stdin.drop (Lines.taken newline (bufSize - 1) s.stdin).length }
  | .write => { s with parent := .read, pfd1 := s.pfd1 ++ message s.buf }
  | .childRead =>
      { s with
        child := .write (received s.pfd1).length
        childBuf := fill s.childBuf (received s.pfd1)
        pfd1 := s.pfd1.drop bufSize }
  -- The child writes back as many bytes as it has read, whatever they are.
  | .childWrite =>
      match s.child with
      | .write n =>
          { s with
            child := .read
            childBuf := upcase n s.childBuf
            pfd2 := s.pfd2 ++ (upcase n s.childBuf).take n }
      | .read => s
  | .read =>
      { s with
        parent := .print
        buf := fill s.buf (received s.pfd2)
        pfd2 := s.pfd2.drop bufSize }
  | .print => { s with parent := .fgets, printed := s.printed ++ str s.buf }

/-- One step of one process. -/
def Step (s : State) (e : Event) (s' : State) : Prop := Enabled s e ∧ s' = next s e

/-- After the `fork`, with the input and what happens to be in the buffer. -/
def initial (input junk : List UInt8) : State where
  stdin := input
  pfd1 := []
  pfd2 := []
  parent := .fgets
  child := .read
  buf := junk
  childBuf := junk
  printed := []
  atEof := false

end PipeEcho

end TlpiPractice
