import TlpiPractice.Library.Delivery
import TlpiPractice.Library.Runs

/-!
# Blocking the Signal to Go On

`22-1-sigcont.c`. The program blocks `SIGCONT` and sets a handler for it that
clears `tag`. Then it prints `tag` every second, and after the tenth line it
gets its old mask back.

Signals are sent by others at any time, and delivered before the process goes
on in user mode. A process that is stopped goes on when `SIGCONT` is sent,
also while the signal is blocked. The run begins behind `sigaction`, with the
signals that wait by then. What a signal does before that is left out.

What is kept with a line is whether a `SIGCONT` had been sent by then. The
time in the line is left out.

## Main definitions

* `setUp`: The mask and the handler.
* `State`: The process and its output.
* `Enabled`, `next`, `Step`: What happens, in any order.
-/

namespace TlpiPractice

namespace Sigcont

open Delivery Signals

/-- `sa`, for a handler at some address. -/
def sa (handler : Nat) : Action where
  handler := .fn handler
  mask := sigfillset
  flags := 0

/-- `origin`, and the process behind `sigaction`. -/
def setUp (handler : Nat) (p : Signals.Process) : Finset Nat × Signals.Process :=
  let (origin, p') := sigprocmask p .block (some (sigaddset sigemptyset sigCont))
  match sigaction p' sigCont (sa handler) with
  | none => (origin, p')
  | some (_, p'') => (origin, p'')

inductive Pc where
  /-- `sleep`, `cnt++` and `printf`. -/
  | printing
  /-- `sigprocmask`, when `cnt` is 10. -/
  | unblocking
  deriving DecidableEq

/-- A line of the output. -/
structure Line where
  tag : Int
  /-- A `SIGCONT` has been sent by now, or waited at first. -/
  continued : Bool
  deriving DecidableEq

structure State where
  p : Delivery.Process
  pc : Pc
  tag : Int
  cnt : Nat
  /-- The mask to come back to from the handler. -/
  frame : Option (Finset Nat)
  lines : List Line
  /-- A `SIGCONT` has been sent, or waited at first. -/
  continued : Bool

inductive Event where
  | send (sig : Nat)
  | deliver (sig : Nat)
  /-- The handler runs and returns. -/
  | handle
  /-- `main` goes on. -/
  | main

def Enabled (s : State) : Event → Prop
  | .send sig => s.p.dead = false ∧ sig ∈ allSignals
  | .deliver sig => Chosen s.p sig
  | .handle => UserMode s.p ∧ s.frame.isSome = true
  | .main => UserMode s.p ∧ s.frame = none

/-- A signal is delivered. -/
def deliver (s : State) (sig : Nat) : State :=
  match (s.p.table sig).handler with
  | .fn _ => { s with p := enter s.p sig, frame := some s.p.mask }
  | _ => { s with p := dispose s.p sig }

/-- What an event does. `origin` is the mask that `main` gets back. -/
def next (origin : Finset Nat) (s : State) : Event → State
  | .send sig =>
      { s with p := send s.p sig, continued := s.continued || sig == sigCont }
  | .deliver sig => deliver s sig
  | .handle =>
      match s.frame with
      | none => s
      -- The handler clears `tag`, whatever `main` is about to print.
      | some saved => { s with p := { s.p with mask := saved }, tag := 0, frame := none }
  | .main =>
      match s.pc with
      | .printing =>
          { s with
            cnt := s.cnt + 1
            lines := s.lines ++ [⟨s.tag, s.continued⟩]
            pc := if s.cnt + 1 = 10 then .unblocking else .printing }
      | .unblocking => { s with p := { s.p with mask := origin \ reserved }, pc := .printing }

def Step (origin : Finset Nat) (s : State) (e : Event) (s' : State) : Prop :=
  Enabled s e ∧ s' = next origin s e

/-- Behind `sigaction`, with signals that wait already. -/
def initial (p : Signals.Process) (pending : Nat → Nat) (orphaned : Bool) : State where
  p := { p with pending := pending, stopped := false, dead := false, orphaned := orphaned }
  pc := .printing
  tag := 10086
  cnt := 0
  frame := none
  lines := []
  continued := decide (0 < pending sigCont)

end Sigcont

end TlpiPractice
