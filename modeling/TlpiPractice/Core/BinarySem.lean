import TlpiPractice.Library.Runs
import TlpiPractice.Library.UndoSem

/-!
# Binary Semaphores

`reserveSem`, `reserveSemNB` and `releaseSem` of `47-4-reserverSemNB.c`, used
by any number of processes on one semaphore.

Each of the functions makes one `semop`, and `reserveSem` repeats it while it
is interrupted and the library is told to retry. A process waits in
`reserveSem` until the operation goes through; the other two functions return
at once. The processes take turns in any order, and each can end at any
point, also while it waits.

Two fields of the state record what has happened, and no step looks at the
second: the processes that have reserved the semaphore and not released it,
and how often each process has reserved it with `reserveSemNB`. A process
calls `releaseSem` only while it holds the semaphore.

## Main definitions

* `Flags`: The global variables.
* `reserveSem`, `reserveSemNB`, `releaseSem`: The operations.
* `State`: The semaphore and the processes.
* `Event`: The steps of the processes.
* `Enabled`, `next`, `Step`: When a step can happen and what it does.
-/

namespace TlpiPractice

namespace BinarySem

open UndoSem

/-- `bsUseSemUndo` and `bsRetryOnEintr`. -/
structure Flags where
  bsUseSemUndo : Bool
  bsRetryOnEintr : Bool

inductive Pc where
  /-- Between calls. -/
  | running
  /-- In the loop of `reserveSem`. -/
  | reserving
  | exited
  deriving DecidableEq

structure State (ι : Type) where
  sem : Sem ι
  pc : ι → Pc
  /-- The live processes that hold the semaphore. -/
  holders : List ι
  /-- How often a process has reserved the semaphore with `reserveSemNB`. -/
  reservedNB : ι → Nat

inductive Event (ι : Type) where
  /-- A call of `reserveSem`. -/
  | reserve (p : ι)
  /-- Its `semop` returns without having been interrupted. -/
  | reserved (p : ι)
  /-- Its `semop` fails with `EINTR`. -/
  | interrupted (p : ι)
  | reserveNB (p : ι)
  | release (p : ι)
  | exit (p : ι)

variable {ι : Type} [DecidableEq ι]

/-- `initSemAvailable`: `SETVAL` with 1, which clears all adjustments. -/
def initSemAvailable : Sem ι := ⟨1, fun _ => 0⟩

/-- The `semop` of `reserveSem`. -/
def reserveSem (f : Flags) (k : Sem ι) (p : ι) : Outcome ι := semop k p (-1) f.bsUseSemUndo

/-- The `semop` of `reserveSemNB`: its only flag is `IPC_NOWAIT`. -/
def reserveSemNB (k : Sem ι) (p : ι) : Outcome ι := semop k p (-1) false

/-- The `semop` of `releaseSem`. -/
def releaseSem (f : Flags) (k : Sem ι) (p : ι) : Outcome ι := semop k p 1 f.bsUseSemUndo

/-- When an event can happen. -/
def Enabled (f : Flags) (s : State ι) : Event ι → Prop
  | .reserve p => s.pc p = .running
  | .reserved p => s.pc p = .reserving ∧ reserveSem f s.sem p ≠ .wouldBlock
  | .interrupted p => s.pc p = .reserving
  | .reserveNB p => s.pc p = .running
  | .release p => s.pc p = .running ∧ p ∈ s.holders
  | .exit p => s.pc p ≠ .exited

/-- What an event does. A `semop` that fails leaves the semaphore alone. -/
def next (f : Flags) (s : State ι) : Event ι → State ι
  | .reserve p => { s with pc := Function.update s.pc p .reserving }
  | .reserved p =>
      match reserveSem f s.sem p with
      | .done k =>
          { s with
            sem := k
            pc := Function.update s.pc p .running
            holders := p :: s.holders }
      | _ => { s with pc := Function.update s.pc p .running }
  -- EINTR: the loop of `reserveSem` calls `semop` again, or gives up.
  | .interrupted p =>
      if f.bsRetryOnEintr then s else { s with pc := Function.update s.pc p .running }
  -- No undo here: the adjustment of the process stays as it is.
  | .reserveNB p =>
      match reserveSemNB s.sem p with
      | .done k =>
          { s with
            sem := k
            holders := p :: s.holders
            reservedNB := Function.update s.reservedNB p (s.reservedNB p + 1) }
      | _ => s
  | .release p =>
      match releaseSem f s.sem p with
      | .done k => { s with sem := k, holders := s.holders.erase p }
      | _ => s
  -- The kernel applies the adjustment, and the process holds nothing any more.
  | .exit p =>
      { s with
        sem := semexit s.sem p
        pc := Function.update s.pc p .exited
        holders := s.holders.filter (fun q => decide (q ≠ p)) }

/-- One step of one process. -/
def Step (f : Flags) (s : State ι) (e : Event ι) (s' : State ι) : Prop :=
  Enabled f s e ∧ s' = next f s e

/-- After `initSemAvailable`, before the first call. -/
def initial : State ι where
  sem := initSemAvailable
  pc := fun _ => .running
  holders := []
  reservedNB := fun _ => 0

end BinarySem

end TlpiPractice
