import Mathlib.Logic.Function.Basic
import TlpiPractice.Library.ByteFile
import TlpiPractice.Library.CString
import TlpiPractice.Library.Reach

/-!
# Processes That Append to One File

`5-3-atomic_append.c`: a program that writes some bytes to a file, one at a
time. It is meant to be started more than once on the same file, so any number
of processes run here, each with arguments of its own.

With a fourth argument the program seeks to the end of the file before each
write. If this is an `x` it has also opened the file with `O_APPEND`, and then
each write goes to the end of the file, wherever it has been set to. Without a
fourth argument the writes start at the first byte and go on from there.

A system call is one step, and between any two of a process the others can go
on. A call can fail, which ends its process. All have opened the file and read
their arguments, and the contents at that time are what a run starts from.

## Main definitions

* `Invocation`: The arguments of a process.
* `Process`: The variables of a process, and where it stands.
* `Enabled`, `next`, `Step`: When a step can happen and what it does.
* `Leaves`: A file that the processes can leave behind.
-/

namespace TlpiPractice

namespace AtomicAppend

open ByteFile

/-- `"x"`. -/
def x : List UInt8 := [120]

/-- What a process is told. -/
structure Invocation where
  /-- What `getInt(argv[2], …)` returns. -/
  numBytes : Int
  /-- `argv[3]`, if `argc == 4`. -/
  fourth : Option CString

/-- The `argc == 4` in the loop. -/
def Invocation.seeks (a : Invocation) : Bool := a.fourth.isSome

/-- Whether `flags` has `O_APPEND`. -/
def Invocation.append (a : Invocation) : Bool :=
  match a.fourth with
  | some s => CString.strcmp s.bytes x == 0
  | none => false

inductive Pc where
  /-- Before the `lseek`. -/
  | seeking
  /-- Before the `write`. -/
  | writing
  | ended
  /-- A call has failed. -/
  | failed
  deriving DecidableEq

structure Process where
  i : Nat
  /-- The offset of `fd`. -/
  offset : Nat
  pc : Pc
  deriving DecidableEq

structure State (ι : Type) where
  file : List UInt8
  procs : ι → Process

/-- The test of `i < numBytes`, and of `argc` after it. -/
def head (a : Invocation) (i : Nat) : Pc :=
  if (i : Int) < a.numBytes then (if a.seeks then .seeking else .writing) else .ended

/-- What happens. -/
inductive Event (ι : Type) where
  /-- The next call of a process. -/
  | call (p : ι)
  /-- The same, if it fails. -/
  | failure (p : ι)

variable {ι : Type}

/-- A process that has not come to its end makes a call. -/
def Enabled (s : State ι) : Event ι → Prop
  | .call p => (s.procs p).pc = .seeking ∨ (s.procs p).pc = .writing
  | .failure p => (s.procs p).pc = .seeking ∨ (s.procs p).pc = .writing

/-- Where a write goes. -/
def target (a : Invocation) (file : List UInt8) (q : Process) : Nat :=
  -- `O_APPEND` looks for the end in the same call.
  if a.append then file.length else q.offset

/-- `lseek(fd, 0, SEEK_END)`. -/
def Process.lseek (file : List UInt8) (q : Process) : Process :=
  { q with offset := file.length, pc := .writing }

/-- `write(fd, "x", 1)` and the end of the turn. -/
def Process.write (a : Invocation) (file : List UInt8) (q : Process) : Process where
  i := q.i + 1
  offset := target a file q + 1
  pc := head a (q.i + 1)

variable [DecidableEq ι]

/-- The next call of a process. -/
def call (args : ι → Invocation) (s : State ι) (p : ι) : State ι :=
  let q := s.procs p
  match q.pc with
  | .seeking => { s with procs := Function.update s.procs p (q.lseek s.file) }
  | .writing =>
      { file := writeAt s.file (target (args p) s.file q) x
        procs := Function.update s.procs p (q.write (args p) s.file) }
  | .ended => s
  | .failed => s

def next (args : ι → Invocation) (s : State ι) : Event ι → State ι
  | .call p => call args s p
  | .failure p =>
      { s with procs := Function.update s.procs p { s.procs p with pc := .failed } }

/-- One step of one process. -/
def Step (args : ι → Invocation) (s : State ι) (e : Event ι) (s' : State ι) : Prop :=
  Enabled s e ∧ s' = next args s e

def initial (args : ι → Invocation) (file : List UInt8) : State ι where
  file := file
  procs := fun p => { i := 0, offset := 0, pc := head (args p) 0 }

/-- All processes can come to their ends with this file left behind. -/
def Leaves (args : ι → Invocation) (file result : List UInt8) : Prop :=
  Runs.CanReach (Step args) (initial args file)
    (fun s => (∀ p, (s.procs p).pc = .ended) ∧ s.file = result)

end AtomicAppend

end TlpiPractice
