import Mathlib.Logic.Function.Basic
import TlpiPractice.Library.Runs

/-!
# The FIFO Semaphore

`initAvail`, `initUsed`, `reserveSem` and `releaseSem` of
`47-6-binary_sem_fifo.c`, used by any number of processes that share one
`struct bin_sem`.

The idea is a FIFO that holds one byte when the semaphore is available. The
code keeps the value that `mkfifo` returns as if it were a descriptor of the
FIFO, and that value is 0 when the FIFO has been made. All later calls read
and write descriptor 0 of the process that makes them, whatever that is. The
name of the FIFO is lost too: `sprintf` writes over the template instead of
behind its last slash.

Each process has its own descriptors and its own `errno`. Between the calls a
process may open, duplicate and close descriptors as it likes, and once the
FIFO is there it may open that. What is in a FIFO is gone when the last
descriptor that refers to it is closed. Every `read` and `write` is a step, and
the kernel decides how it goes. The loop of `reserveSem` looks at `errno` after
anything but a byte, also after an end of file, which does not set it.

Two fields of the state record what has happened, and no step looks at the
second: the processes that hold the semaphore, and what the descriptor of each
`read` and `write` so far has referred to. A process calls `releaseSem` only
while it holds the semaphore.

## Main definitions

* `File`: What a descriptor refers to.
* `BinSem`: `struct bin_sem`.
* `State`: The FIFO and the processes.
* `initAvail`, `initUsed`: The two ways to make a semaphore.
* `Event`: The steps of the processes.
* `Enabled`, `next`, `Step`: When a step can happen and what it does.
-/

namespace TlpiPractice

namespace FifoSem

/-- The FIFO of the semaphore, or any other file. -/
inductive File where
  | own
  | other (id : Nat)
  deriving DecidableEq

/-- `struct bin_sem`. -/
structure BinSem where
  fifo : Int
  file : String
  deriving DecidableEq

/-- How a `read` of one byte goes: it returns 1, 0, or -1 with `EINTR` or with
    another error. -/
inductive ReadResult where
  | one
  | eof
  | intr
  | fail
  deriving DecidableEq

/-- How a `write` of one byte goes: it returns 1, or -1 with `EINTR` or with
    another error. -/
inductive WriteResult where
  | done
  | intr
  | fail
  deriving DecidableEq

inductive Pc where
  /-- Between calls. -/
  | running
  /-- In the loop of `reserveSem`. -/
  | reserving
  deriving DecidableEq

structure State (ι : Type) where
  /-- The structure that the processes share. -/
  sem : BinSem
  /-- The bytes in the FIFO. -/
  bytes : Nat
  /-- The descriptors of each process. -/
  desc : ι → Int → Option File
  /-- Whether the `errno` of a process is `EINTR`. -/
  eintr : ι → Bool
  pc : ι → Pc
  holders : List ι
  /-- What the descriptors read and written so far referred to. -/
  accesses : List (Option File)

variable {ι : Type} [DecidableEq ι]

/-- What `sem->fifo` is for a process. -/
def State.target (s : State ι) (p : ι) : Option File := s.desc p s.sem.fifo

/-- Which results a `read` can have: a byte needs an open descriptor, and a
    byte in the FIFO if it is read from there. -/
def CanRead (s : State ι) (p : ι) : ReadResult → Prop
  | .one => s.target p ≠ none ∧ (s.target p = some .own → 0 < s.bytes)
  | .eof => s.target p ≠ none
  | .intr => s.target p ≠ none
  | .fail => True

/-- Which results a `write` can have. -/
def CanWrite (s : State ι) (p : ι) : WriteResult → Prop
  | .done => s.target p ≠ none
  | .intr => s.target p ≠ none
  | .fail => True

/-- `write(sem->fifo, "x", 1)`. -/
def write (s : State ι) (p : ι) : WriteResult → State ι
  | .done =>
      { s with
        bytes := if s.target p = some .own then s.bytes + 1 else s.bytes
        accesses := s.accesses ++ [s.target p] }
  | .intr =>
      { s with
        eintr := Function.update s.eintr p true
        accesses := s.accesses ++ [s.target p] }
  | .fail =>
      { s with
        eintr := Function.update s.eintr p false
        accesses := s.accesses ++ [s.target p] }

/-- `read(sem->fifo, &buf, 1)`, and the loop of `reserveSem` around it. -/
def read (s : State ι) (p : ι) : ReadResult → State ι
  | .one =>
      { s with
        bytes := if s.target p = some .own then s.bytes - 1 else s.bytes
        accesses := s.accesses ++ [s.target p]
        pc := Function.update s.pc p .running
        holders := p :: s.holders }
  -- `errno` is what an earlier call has left in it.
  | .eof =>
      { s with
        accesses := s.accesses ++ [s.target p]
        pc := if s.eintr p = true then s.pc else Function.update s.pc p .running }
  | .intr =>
      { s with
        accesses := s.accesses ++ [s.target p]
        eintr := Function.update s.eintr p true }
  | .fail =>
      { s with
        accesses := s.accesses ++ [s.target p]
        eintr := Function.update s.eintr p false
        pc := Function.update s.pc p .running }

/-- The name of the FIFO. `sprintf` starts at the front of `file`, so nothing
    is left of `/tmp/semXXXXXX`. -/
def semFile (time : Nat) : String := toString (time % 1000000)

/-- `mkfifo` returns 0 when it has made the FIFO, and not a descriptor. -/
def mkfifo (made : Bool) : Int := if made = true then 0 else -1

/-- The processes before the semaphore is made: their descriptors, none of
    which can refer to the FIFO, and their `errno`. -/
structure World (ι : Type) where
  desc : ι → Int → Option Nat
  eintr : ι → Bool

/-- The processes with the new structure, and an empty FIFO. -/
def World.withSem (w : World ι) (sem : BinSem) : State ι where
  sem := sem
  bytes := 0
  desc := fun p fd => (w.desc p fd).map File.other
  eintr := w.eintr
  pc := fun _ => .running
  holders := []
  accesses := []

/-- `initAvail`, called by process `p`: its value, and the state then. -/
def initAvail (w : World ι) (p : ι) (time : Nat) (made : Bool) (wrote : WriteResult) :
    Int × State ι :=
  let sem : BinSem := { fifo := mkfifo made, file := semFile time }
  if sem.fifo = -1 then (-1, w.withSem sem)
  else
    let s := write (w.withSem sem) p wrote
    if wrote = .done then (0, s) else (-1, s)

/-- `initUsed`: the process that calls it holds the semaphore. -/
def initUsed (w : World ι) (p : ι) (time : Nat) (made : Bool) : Int × State ι :=
  let sem : BinSem := { fifo := mkfifo made, file := semFile time }
  if sem.fifo = -1 then (-1, w.withSem sem)
  else (0, { w.withSem sem with holders := [p] })

/-- How a semaphore has been made, with what the kernel did. -/
inductive Init where
  | avail (made : Bool) (wrote : WriteResult)
  | used (made : Bool)
  deriving DecidableEq

def init (w : World ι) (p : ι) (time : Nat) : Init → Int × State ι
  | .avail made wrote => initAvail w p time made wrote
  | .used made => initUsed w p time made

inductive Event (ι : Type) where
  /-- A call of `reserveSem`. -/
  | reserve (p : ι)
  /-- The `read` in its loop. -/
  | read (p : ι) (r : ReadResult)
  /-- A call of `releaseSem`. -/
  | release (p : ι) (r : WriteResult)
  /-- A process opens, duplicates or closes descriptors; `closed` if none of any
      process refers to the FIFO then. To close the last one and open it again
      are two of these. -/
  | reopen (p : ι) (desc : Int → Option File) (closed : Bool)

/-- When an event can happen. -/
def Enabled (s : State ι) : Event ι → Prop
  | .reserve p => s.pc p = .running
  | .read p r => s.pc p = .reserving ∧ CanRead s p r
  | .release p r => s.pc p = .running ∧ p ∈ s.holders ∧ CanWrite s p r
  | .reopen p desc closed =>
      s.pc p = .running ∧
        (closed = true ↔ ∀ q fd, Function.update s.desc p desc q fd ≠ some .own)

/-- What an event does. -/
def next (s : State ι) : Event ι → State ι
  | .reserve p => { s with pc := Function.update s.pc p .reserving }
  | .read p r => read s p r
  | .release p r =>
      -- The process gives the semaphore back if `releaseSem` returns 0.
      if r = .done then { write s p r with holders := s.holders.erase p } else write s p r
  | .reopen p desc closed =>
      -- The kernel keeps nothing of a FIFO that nobody has open.
      { s with
        desc := Function.update s.desc p desc
        bytes := if closed = true then 0 else s.bytes }

/-- One step of one process. -/
def Step (s : State ι) (e : Event ι) (s' : State ι) : Prop := Enabled s e ∧ s' = next s e

end FifoSem

end TlpiPractice
