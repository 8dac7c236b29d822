import TlpiPractice.Library.Delivery
import TlpiPractice.Library.Runs

/-!
# Ignoring a Signal That Waits

`20-2-sig_ign_test.c`. The program sets a handler for `SIGINT` that prints a
line. It blocks all signals for some seconds, gets its old mask back, and then
blocks all signals again. While they are blocked it sets `SIGINT` to be
ignored, and gets its old mask back a second time.

Signals are sent by others at any time, and delivered before the process goes
on in user mode. The run begins behind the first `sigaction`. A `printf` and
the `sleep` behind it are one step, since all signals are blocked then.

## Main definitions

* `installed`: The process behind the first `sigaction`.
* `Pc`: The calls of `main`.
* `State`: The process and its output.
* `Enabled`, `next`, `Step`: What happens, in any order.
-/

namespace TlpiPractice

namespace SigIgnTest

open Delivery Signals

def sigInt : Nat := 2

/-- `sg`, with a handler or with `SIG_IGN`. -/
def sg (handler : Handler) : Action where
  handler := handler
  mask := sigemptyset
  flags := 0

/-- The process behind the first `sigaction`. -/
def installed (handler : Nat) (p : Signals.Process) : Signals.Process :=
  match sigaction p sigInt (sg (.fn handler)) with
  | none => p
  | some (_, p') => p'

/-- What `main` does next. -/
inductive Pc where
  | blocking
  | tellingBlocked
  | unblocking
  | tellingUnlocked
  | blockingAgain
  | tellingAgain
  | ignoring
  | unblockingAgain
  | tellingIgnored
  | exiting
  deriving DecidableEq

/-- The signals have been blocked for the second time. -/
def Pc.late : Pc → Bool
  | .tellingAgain | .ignoring | .unblockingAgain | .tellingIgnored | .exiting => true
  | _ => false

/-- A line of the output, the handler's or one of `main`. -/
inductive Line where
  | hh
  | nowBlocked
  | nowUnlocked
  | blockedAgain
  | nowIgnored
  deriving DecidableEq

structure State where
  p : Delivery.Process
  pc : Pc
  /-- `origin`, when it has been set. -/
  origin : Finset Nat
  /-- The mask to come back to from the handler. -/
  frame : Option (Finset Nat)
  lines : List Line
  /-- How many times `SIGINT` was sent before the signals were blocked for the
      second time. No step looks at it. -/
  early : Nat

inductive Event where
  | send (sig : Nat)
  | deliver (sig : Nat)
  /-- The handler prints its line and returns. -/
  | handle
  /-- `main` goes on. -/
  | main

def Enabled (s : State) : Event → Prop
  | .send sig => s.p.dead = false ∧ sig ∈ allSignals
  | .deliver sig => Chosen s.p sig
  | .handle => UserMode s.p ∧ s.frame.isSome = true
  | .main => UserMode s.p ∧ s.frame = none

/-- A signal is delivered. -/
def deliver (s : State) (sig : Nat) : State :=
  match (s.p.table sig).handler with
  | .fn _ => { s with p := enter s.p sig, frame := some s.p.mask }
  | _ => { s with p := dispose s.p sig }

/-- The handler prints its line and returns. -/
def handle (s : State) : State :=
  match s.frame with
  | none => s
  | some saved =>
      { s with p := { s.p with mask := saved }, frame := none, lines := s.lines ++ [.hh] }

/-- The next call of `main`. -/
def mainStep (s : State) : State :=
  match s.pc with
  | .blocking =>
      { s with
        p := { s.p with mask := sigfillset \ reserved }
        origin := s.p.mask
        pc := .tellingBlocked }
  | .tellingBlocked => { s with lines := s.lines ++ [.nowBlocked], pc := .unblocking }
  | .unblocking =>
      { s with p := { s.p with mask := s.origin \ reserved }, pc := .tellingUnlocked }
  | .tellingUnlocked => { s with lines := s.lines ++ [.nowUnlocked], pc := .blockingAgain }
  | .blockingAgain =>
      { s with p := { s.p with mask := sigfillset \ reserved }, pc := .tellingAgain }
  | .tellingAgain => { s with lines := s.lines ++ [.blockedAgain], pc := .ignoring }
  -- A `SIGINT` that waits is dropped here.
  | .ignoring => { s with p := setAction s.p sigInt (sg .ign), pc := .unblockingAgain }
  | .unblockingAgain =>
      { s with p := { s.p with mask := s.origin \ reserved }, pc := .tellingIgnored }
  | .tellingIgnored => { s with lines := s.lines ++ [.nowIgnored], pc := .exiting }
  | .exiting => { s with p := { s.p with dead := true } }

def next (s : State) : Event → State
  | .send sig =>
      { s with
        p := send s.p sig
        early := if sig = sigInt ∧ s.pc.late = false then s.early + 1 else s.early }
  | .deliver sig => deliver s sig
  | .handle => handle s
  | .main => mainStep s

def Step (s : State) (e : Event) (s' : State) : Prop := Enabled s e ∧ s' = next s e

/-- Behind the first `sigaction`, when no signal waits. -/
def initial (handler : Nat) (p : Signals.Process) (orphaned : Bool) : State where
  p := { installed handler p with
    pending := fun _ => 0, stopped := false, dead := false, orphaned := orphaned }
  pc := .blocking
  origin := ∅
  frame := none
  lines := []
  early := 0

end SigIgnTest

end TlpiPractice
