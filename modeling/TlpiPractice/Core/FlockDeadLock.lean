import Mathlib.Logic.Function.Basic
import TlpiPractice.Library.Reach

/-!
# Two Processes and Two Locks

`55-2-flock_dead_lock.c`: a parent and its child each lock one of two files and
then the one that the other has locked. A semaphore keeps the lines apart that
they print in between.

Both files are opened before the `fork`. The descriptors of the child are
copies, which refer to the same open file descriptions, and a lock of `flock`
belongs to an open file description. A `flock` waits while another open file
description of the same file has the lock. It fails if the descriptor is not
open, and this happens if there is no `f2`: the check after the second `open`
looks at the first descriptor again.

The other calls do not fail, no signal arrives, and a process in `pause` stays
there. A lock is released when no process has the open file description any
more; as long as one of the two is there all locks stay.

## Main definitions

* `Files`: What the two names refer to.
* `State`: The locks, the semaphore, the processes and what they have printed.
* `Enabled`, `next`, `Step`: When a step can happen and what it does.
-/

namespace TlpiPractice

namespace FlockDeadLock

inductive Who where
  | parent
  | child
  deriving DecidableEq

def Who.other : Who → Who
  | .parent => .child
  | .child => .parent

/-- The open file descriptions of `fd1` and `fd2`. -/
inductive Ofd where
  | fd1
  | fd2
  deriving DecidableEq

def Ofd.other : Ofd → Ofd
  | .fd1 => .fd2
  | .fd2 => .fd1

/-- The i-nodes of `f1` and of `f2`, which may not exist. -/
structure Files where
  f1 : Nat
  f2 : Option Nat

def Files.inode (files : Files) : Ofd → Option Nat
  | .fd1 => some files.f1
  | .fd2 => files.f2

/-- What a process does next. -/
inductive Pc where
  | flockFirst
  | semWait
  /-- `"%s: wake\n"`. -/
  | printWake
  /-- `"%s: post and try to get flock\n"`. -/
  | printPost
  | semPost
  | flockSecond
  | pause
  | exited
  deriving DecidableEq

inductive Line where
  | wake (w : Who)
  | post (w : Who)
  deriving DecidableEq

structure State where
  /-- Which open file descriptions have their file locked. -/
  held : Ofd → Bool
  sem : Nat
  pc : Who → Pc
  out : List Line

/-- What the child locks first, and the parent. -/
def firstFd : Who → Ofd
  | .child => .fd1
  | .parent => .fd2

def secondFd : Who → Ofd
  | .child => .fd2
  | .parent => .fd1

/-- Another open file description of the same file has the lock. -/
def Conflict (files : Files) (s : State) (d : Ofd) : Prop :=
  s.held d.other = true ∧ files.inode d = files.inode d.other

/-- A process can make its next call. -/
def Enabled (files : Files) (s : State) (w : Who) : Prop :=
  match s.pc w with
  | .flockFirst => ¬ Conflict files s (firstFd w)
  | .semWait => 0 < s.sem
  | .flockSecond => ¬ Conflict files s (secondFd w)
  | .pause => False
  | .exited => False
  | _ => True

/-- `flock(d, LOCK_EX)`, after which the process goes on at `p`. -/
def flock (files : Files) (s : State) (w : Who) (d : Ofd) (p : Pc) : State :=
  match files.inode d with
  | some _ =>
      { s with held := Function.update s.held d true, pc := Function.update s.pc w p }
  -- The `open` has failed. For `fd2` the program has not looked at it.
  | none => { s with pc := Function.update s.pc w .exited }

/-- The next call of a process. -/
def next (files : Files) (s : State) (w : Who) : State :=
  match s.pc w with
  | .flockFirst => flock files s w (firstFd w) .semWait
  | .semWait => { s with sem := s.sem - 1, pc := Function.update s.pc w .printWake }
  | .printWake =>
      { s with pc := Function.update s.pc w .printPost, out := s.out ++ [.wake w] }
  | .printPost =>
      { s with pc := Function.update s.pc w .semPost, out := s.out ++ [.post w] }
  | .semPost => { s with sem := s.sem + 1, pc := Function.update s.pc w .flockSecond }
  | .flockSecond => flock files s w (secondFd w) .pause
  | .pause => s
  | .exited => s

def Step (files : Files) (s : State) (w : Who) (s' : State) : Prop :=
  Enabled files s w ∧ s' = next files s w

/-- After the `fork`. -/
def initial : State where
  held := fun _ => false
  sem := 1
  pc := fun _ => .flockFirst
  out := []

end FlockDeadLock

end TlpiPractice
