import TlpiPractice.Library.Reach
import TlpiPractice.Library.UndoSem

/-!
# Waiting for a Child with a Semaphore

`47-2-sync_with_sem.c` from the `fork` on. The semaphore is zero. The parent
prints a line, takes one from the semaphore, which has to wait for the child,
and prints another. The child prints a line and adds one to the semaphore.
Parent and child take turns in any order, and a `semop` that waits can be
interrupted at any time, which makes the parent call it once more.

What is printed goes through the buffer of a process. If the output is a
terminal every line is written at once, and else what is in the buffer is
written when the process exits.

No `semop` fails for another reason. In particular, the program has the
privileges that the semaphore needs, which nobody has permissions on.

## Main definitions

* `ParentPc`, `ChildPc`: Where the processes stand.
* `State`: The semaphore, the processes and the output.
* `Enabled`, `next`, `Step`: When a step can happen and what it does.
* `Ends`: An output the program can end with.
-/

namespace TlpiPractice

namespace SyncWithSem

open UndoSem

inductive Proc where
  | parent
  | child
  deriving DecidableEq

/-- What is printed. -/
inductive Line where
  /-- `"Waiting for child to do things\n"`. -/
  | waiting
  /-- `"Child finished\n"`. -/
  | finished
  /-- `"Parent exit\n"`. -/
  | exit
  deriving DecidableEq

/-- What the parent does next. -/
inductive ParentPc where
  | printing
  /-- The loop around `semop`. -/
  | waiting
  /-- The second line. -/
  | leaving
  | exiting
  | exited
  deriving DecidableEq

/-- What the child does next. -/
inductive ChildPc where
  /-- It sleeps, and then prints. -/
  | sleeping
  | posting
  | exiting
  | exited
  deriving DecidableEq

structure State where
  sem : Sem Proc
  parent : ParentPc
  child : ChildPc
  /-- What has been printed and is still in the buffer of a process. -/
  buffers : Proc → List Line
  /-- What has been written. -/
  out : List Line

inductive Event where
  /-- A process goes on. -/
  | step (p : Proc)
  /-- The `semop` of the parent fails with `EINTR`. -/
  | interrupted
  deriving DecidableEq

/-- The `semop` of the parent. -/
def take (s : State) : Outcome Proc := semop s.sem .parent (-1) false

/-- The `semop` of the child. -/
def post (s : State) : Outcome Proc := semop s.sem .child 1 false

/-- `printf`, where `lines` says if every line is written at once. -/
def print (lines : Bool) (s : State) (p : Proc) (l : Line) : State :=
  if lines then { s with out := s.out ++ [l] }
  else { s with buffers := Function.update s.buffers p (s.buffers p ++ [l]) }

/-- What `exit` does with the buffer. -/
def flush (s : State) (p : Proc) : State :=
  { s with out := s.out ++ s.buffers p, buffers := Function.update s.buffers p [] }

/-- When an event can happen. -/
def Enabled (s : State) : Event → Prop
  | .step .parent =>
      match s.parent with
      | .waiting => take s ≠ .wouldBlock
      | .exited => False
      | _ => True
  | .step .child => s.child ≠ .exited
  -- The loop makes the call once more.
  | .interrupted => s.parent = .waiting

/-- The next step of the parent. -/
def parentStep (lines : Bool) (s : State) : State :=
  match s.parent with
  | .printing => { print lines s .parent .waiting with parent := .waiting }
  | .waiting =>
      match take s with
      | .done k => { s with sem := k, parent := .leaving }
      | _ => s
  | .leaving => { print lines s .parent .exit with parent := .exiting }
  | .exiting => { flush s .parent with parent := .exited }
  | .exited => s

/-- The next step of the child. -/
def childStep (lines : Bool) (s : State) : State :=
  match s.child with
  | .sleeping => { print lines s .child .finished with child := .posting }
  | .posting =>
      match post s with
      | .done k => { s with sem := k, child := .exiting }
      | _ => s
  | .exiting => { flush s .child with child := .exited }
  | .exited => s

/-- What an event does. -/
def next (lines : Bool) (s : State) : Event → State
  | .step .parent => parentStep lines s
  | .step .child => childStep lines s
  | .interrupted => s

/-- One step of one process. -/
def Step (lines : Bool) (s : State) (e : Event) (s' : State) : Prop :=
  Enabled s e ∧ s' = next lines s e

/-- After the `fork`. -/
def initial : State where
  sem := ⟨0, fun _ => 0⟩
  parent := .printing
  child := .sleeping
  buffers := fun _ => []
  out := []

/-- Both processes have exited. -/
def Done (s : State) : Prop := s.parent = .exited ∧ s.child = .exited

/-- The program can end with this output. -/
def Ends (lines : Bool) (out : List Line) : Prop :=
  Runs.CanReach (Step lines) initial (fun s => Done s ∧ s.out = out)

end SyncWithSem

end TlpiPractice
