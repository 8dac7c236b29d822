import TlpiPractice.Core.GetNum
import TlpiPractice.Library.Reach

/-!
# Waiting for the Changes of a Child

`26-3-use_waitid.c` from the `fork` on. The child exits at once with a given
status, or waits for signals. The parent asks with `waitid` what has become of
the child, prints it, and asks again.

A change of the child that nobody has asked for yet is given once. A later one
takes its place. When the end of the child has been given there is no child
any more, and the next `waitid` fails. A signal can stop the child, let it go
on or end it at any time.

`waitid` returns zero and puts the status of an exit, or the number of a
signal, into `si_status`. The source looks at it with the macros for what
`wait` gives.

## Main definitions

* `Change`, `Change.siStatus`: What can become of the child.
* `wifexited`, `wifsignaled`, `wstopsig`: The macros.
* `report`: What the parent prints.
* `Enabled`, `next`, `Step`: What happens, in any order.
-/

namespace TlpiPractice

namespace UseWaitid

/-- What `waitid` says has become of the child. -/
inductive Change where
  | exited (status : Nat)
  | killed (sig : Nat)
  /-- Killed, with a core dump. -/
  | dumped (sig : Nat)
  | stopped (sig : Nat)
  | continued
  deriving DecidableEq

def sigcont : Nat := 18

/-- `si_status`. -/
def Change.siStatus : Change → Nat
  | .exited status => status
  | .killed sig | .dumped sig | .stopped sig => sig
  | .continued => sigcont

/-- The child has ended. -/
def Change.isEnd : Change → Bool
  | .exited _ | .killed _ | .dumped _ => true
  | _ => false

def wtermsig (status : Nat) : Nat := status &&& 127

def wifexited (status : Nat) : Bool := wtermsig status == 0

/-- `((signed char) ((status & 0x7f) + 1) >> 1) > 0`. -/
def wifsignaled (status : Nat) : Bool :=
  let c : Int := wtermsig status + 1
  0 < (if 127 < c then c - 256 else c) >>> (1 : Nat)

def wstopsig (status : Nat) : Nat := (status >>> 8) &&& 255

/-- A line of the output, without the names of signals that are made from the
    same numbers. -/
inductive Line where
  /-- `"waitid() returned: PID=%ld; status=0x%04x (%d,%d)\n"`. -/
  | returned (pid status high low : Nat)
  /-- `"child exited, status=%d\n"`. -/
  | exited (status : Nat)
  /-- `"child killed by signal %d (%s)\n"`. -/
  | killed (sig : Nat)
  /-- `"child stopped by signal %d (%s)\n"`. -/
  | stopped (sig : Nat)
  /-- `"child continued\n"`. -/
  | continued
  /-- `"what happened to this child? (status=%x)\n"`. -/
  | unknown (status : Nat)
  deriving DecidableEq

/-- What is printed about a change. `childPid` is what `waitid` has returned,
    and `status` is `si_status`. -/
def report (childPid : Nat) (c : Change) : List Line :=
  let status := c.siStatus
  [.returned childPid status (status >>> 8) (status &&& 255),
    match c with
    | .exited _ => .exited status
    | .killed _ => .killed (wtermsig status)
    | .dumped _ => .unknown status
    | .stopped _ => .stopped (wstopsig status)
    | .continued => .continued]

inductive Child where
  | running
  | stopped
  | dead
  deriving DecidableEq

inductive Parent where
  | waiting
  | ended (status : Nat)
  deriving DecidableEq

structure State where
  child : Child
  /-- The change that nobody has asked for yet. -/
  news : Option Change
  /-- The end of the child has been given. -/
  reaped : Bool
  parent : Parent
  printed : List Line
  /-- What has become of the child, change by change. -/
  history : List Change
  deriving DecidableEq

inductive Event where
  /-- The child makes its `exit`. -/
  | exits
  | stops (sig : Nat)
  | continues
  | kills (sig : Nat) (core : Bool)
  /-- The parent makes its `waitid`. -/
  | waits

/-- The status the child exits with, if an argument says so. The parent sees
    eight bits of it. -/
def exitStatus (arg : CString) : Nat :=
  match GetNum.getInt (some arg) 0 (some (.ofBytes (GetNum.ascii "exit-status"))) with
  | .ok status => (status % 256).toNat
  | .error _ => 1

/-- The signals that stop a process. -/
def stopSignals : List Nat := [19, 20, 21, 22]

/-- The number of signals. -/
def sigMax : Nat := 64

/-- When an event can happen. `arg` is `argv[1]`. -/
def Enabled (arg : Option CString) (s : State) : Event → Prop
  | .exits => s.child = .running ∧ arg.isSome = true
  | .stops sig => s.child = .running ∧ sig ∈ stopSignals
  | .continues => s.child = .stopped
  | .kills sig _ => s.child ≠ .dead ∧ 0 < sig ∧ sig ≤ sigMax
  | .waits => s.parent = .waiting ∧ (s.reaped = true ∨ s.news.isSome = true)

/-- The body of the parent's loop. -/
def turn (s : State) : State :=
  match s.news with
  -- No child is left, and `waitid` fails.
  | none => { s with parent := .ended 1 }
  | some c =>
      -- `waitid` returns zero and not a pid, and the macros are not made for `si_status`.
      { s with
        news := none
        reaped := c.isEnd
        printed := s.printed ++ report 0 c
        parent :=
          if wifexited c.siStatus || wifsignaled c.siStatus then .ended 0 else .waiting }

/-- Something becomes of the child. -/
def State.change (s : State) (child : Child) (c : Change) : State :=
  { s with child := child, news := some c, history := s.history ++ [c] }

def next (arg : Option CString) (s : State) : Event → State
  | .exits =>
      match arg with
      | none => s
      | some arg => s.change .dead (.exited (exitStatus arg))
  | .stops sig => s.change .stopped (.stopped sig)
  | .continues => s.change .running .continued
  | .kills sig core => s.change .dead (if core then .dumped sig else .killed sig)
  | .waits => turn s

def Step (arg : Option CString) (s : State) (e : Event) (s' : State) : Prop :=
  Enabled arg s e ∧ s' = next arg s e

/-- After the `fork`. -/
def initial : State where
  child := .running
  news := none
  reaped := false
  parent := .waiting
  printed := []
  history := []

end UseWaitid

end TlpiPractice
