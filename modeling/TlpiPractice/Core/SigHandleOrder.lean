import TlpiPractice.Library.Delivery
import TlpiPractice.Library.Runs

/-!
# The Order of Handlers

`22-2-sig_handle_order.c`. The program blocks all signals, sets the same
handler for each of them, and sleeps. Then it gets its old mask back. The
handler prints the number of its signal, and while it runs all signals are
blocked.

Signals are sent by others at any time. They are delivered before the process
goes on in user mode. What a signal does that comes before all of them are
blocked is left out: the run begins behind the loop that sets the handlers,
with the signals that wait by then.

## Main definitions

* `setUp`: The mask and the handlers behind the loop.
* `State`: The process, its handlers and its output.
* `Enabled`, `next`, `Step`: What happens, in any order.
-/

namespace TlpiPractice

namespace SigHandleOrder

open Delivery Signals

/-- `SIGRTMAX`. -/
def sigRtMax : Nat := 64

/-- `sa`, for a handler at some address. -/
def sa (handler : Nat) : Action where
  handler := .fn handler
  mask := sigfillset
  flags := 0

/-- The body of the loop that sets the handlers. What `sigaction` returns is not
    looked at. -/
def setHandler (handler : Nat) (p : Signals.Process) (i : Nat) : Signals.Process :=
  match sigaction p i (sa handler) with
  | none => p
  | some (_, p') => p'

def setHandlers (handler : Nat) (p : Signals.Process) : Signals.Process :=
  (List.range' 1 sigRtMax).foldl (setHandler handler) p

/-- `origin`, and the process behind the loop. -/
def setUp (handler : Nat) (p : Signals.Process) : Finset Nat × Signals.Process :=
  let (origin, p') := sigprocmask p .block (some sigfillset)
  (origin, setHandlers handler p')

/-- A handler that runs. -/
structure Frame where
  sig : Nat
  /-- The mask to come back to. -/
  saved : Finset Nat
  printed : Bool

inductive Pc where
  | sleeping
  /-- `while (1) ;`. -/
  | looping
  deriving DecidableEq

structure State where
  p : Delivery.Process
  pc : Pc
  /-- The handlers that run, the last one first. -/
  frames : List Frame
  /-- The numbers of `"Receive signal %d\n"`. -/
  lines : List Nat
  /-- How often a signal has been sent, with those that wait at first. -/
  sent : Nat → Nat

inductive Event where
  | send (sig : Nat)
  | deliver (sig : Nat)
  /-- The `printf` of the handler. -/
  | print
  /-- The handler returns. -/
  | ret
  /-- `main` goes on. -/
  | main

def Enabled (s : State) : Event → Prop
  | .send sig => s.p.dead = false ∧ sig ∈ allSignals
  | .deliver sig => Chosen s.p sig
  | .print => UserMode s.p ∧ ∃ f rest, s.frames = f :: rest ∧ f.printed = false
  | .ret => UserMode s.p ∧ ∃ f rest, s.frames = f :: rest ∧ f.printed = true
  | .main => UserMode s.p ∧ s.frames = [] ∧ s.pc = .sleeping

/-- A signal is delivered. -/
def deliver (s : State) (sig : Nat) : State :=
  match (s.p.table sig).handler with
  | .fn _ => { s with p := enter s.p sig, frames := ⟨sig, s.p.mask, false⟩ :: s.frames }
  | _ => { s with p := dispose s.p sig }

/-- What an event does. `origin` is the mask that `main` gets back. -/
def next (origin : Finset Nat) (s : State) : Event → State
  | .send sig =>
      { s with p := send s.p sig, sent := Function.update s.sent sig (s.sent sig + 1) }
  | .deliver sig => deliver s sig
  | .print =>
      match s.frames with
      | [] => s
      | f :: rest =>
          { s with lines := s.lines ++ [f.sig], frames := { f with printed := true } :: rest }
  | .ret =>
      match s.frames with
      | [] => s
      | f :: rest => { s with p := { s.p with mask := f.saved }, frames := rest }
  -- All that waits and is not in `origin` can be delivered now.
  | .main => { s with p := { s.p with mask := origin \ reserved }, pc := .looping }

def Step (origin : Finset Nat) (s : State) (e : Event) (s' : State) : Prop :=
  Enabled s e ∧ s' = next origin s e

/-- Behind the loop that sets the handlers, with signals that wait already. -/
def initial (p : Signals.Process) (pending : Nat → Nat) (orphaned : Bool) : State where
  p := { p with pending := pending, stopped := false, dead := false, orphaned := orphaned }
  pc := .sleeping
  frames := []
  lines := []
  sent := pending

end SigHandleOrder

end TlpiPractice
