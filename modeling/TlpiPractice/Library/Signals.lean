import Mathlib.Data.Finset.SDiff
import Mathlib.Order.Interval.Finset.Nat

/-!
# Signal Masks and Dispositions

What POSIX gives a process to handle signals with: a mask of blocked signals,
a table of actions, and the calls that change them.

A set of signals can hold valid signals only. `SIGKILL` and `SIGSTOP` can be
put into a set, but the mask never gets them, and their action cannot be set.
Waiting for a signal replaces the mask for the time of the wait.

## Main definitions

* `Handler`, `Action`: What can be done about a signal.
* `Process`: The mask and the table of a process.
* `sigaddset`, `sigprocmask`, `sigaction`, `sigsuspend`: The calls.

## Theorems

* `sigaddset_of_usable`, `sigprocmask_block_singleton`, `sigaction_of_usable`:
  The calls for a signal that can be blocked and caught.
-/

namespace Signals

/-- A signal handler. `hold` and `err` are values that are handed to functions
    and back, and never installed. -/
inductive Handler where
  | dfl
  | ign
  | hold
  | err
  | fn (address : Nat)
  deriving DecidableEq

/-- `struct sigaction`. -/
structure Action where
  handler : Handler
  mask : Finset Nat
  flags : Nat
  deriving DecidableEq

/-- The mask of a process and what it does about each signal. -/
structure Process where
  mask : Finset Nat
  table : Nat → Action

def sigKill : Nat := 9

def sigStop : Nat := 19

/-- The signals there are, but for two that the library keeps for itself. -/
def allSignals : Finset Nat := Finset.Icc 1 64 \ {32, 33}

/-- The signals that cannot be blocked or caught. -/
def reserved : Finset Nat := {sigKill, sigStop}

/-- A signal that can be blocked and caught. -/
def Usable (sig : Nat) : Prop := sig ∈ allSignals ∧ sig ∉ reserved

instance (sig : Nat) : Decidable (Usable sig) :=
  inferInstanceAs (Decidable (sig ∈ allSignals ∧ sig ∉ reserved))

def sigemptyset : Finset Nat := ∅

def sigfillset : Finset Nat := allSignals

/-- A set with one more signal, if there is such a signal. -/
def sigaddset (set : Finset Nat) (sig : Nat) : Finset Nat :=
  if sig ∈ allSignals then insert sig set else set

inductive How where
  | block
  | unblock

/-- The mask before, and the process after. -/
def sigprocmask (s : Process) (how : How) (set : Option (Finset Nat)) : Finset Nat × Process :=
  match set with
  | none => (s.mask, s)
  | some set =>
      match how with
      | .block => (s.mask, { s with mask := s.mask ∪ (set \ reserved) })
      | .unblock => (s.mask, { s with mask := s.mask \ set })

/-- The action before and the process after, unless the signal does not allow
    it. -/
def sigaction (s : Process) (sig : Nat) (act : Action) : Option (Action × Process) :=
  if sig ∈ allSignals ∧ sig ∉ reserved then
    some (s.table sig, { s with
      table := Function.update s.table sig { act with mask := act.mask \ reserved } })
  else none

/-- The mask while the process waits. Afterwards it is what it was. -/
def sigsuspend (set : Finset Nat) : Finset Nat := set \ reserved

theorem sigaddset_of_usable (set : Finset Nat) (sig : Nat) (h : Usable sig) :
    sigaddset set sig = insert sig set := if_pos h.1

theorem singleton_sdiff_reserved (sig : Nat) (h : Usable sig) :
    ({sig} : Finset Nat) \ reserved = {sig} :=
  Finset.sdiff_eq_self_of_disjoint (Finset.disjoint_singleton_left.mpr h.2)

theorem sigprocmask_block_singleton (s : Process) (sig : Nat) (h : Usable sig) :
    sigprocmask s .block (some {sig}) = (s.mask, { s with mask := insert sig s.mask }) := by
  unfold sigprocmask
  simp only [singleton_sdiff_reserved sig h]
  rw [Finset.union_comm, ← Finset.insert_eq]

theorem sigprocmask_empty (s : Process) (how : How) :
    sigprocmask s how (some sigemptyset) = (s.mask, s) := by
  unfold sigprocmask sigemptyset
  cases how with
  | block => simp only [Finset.empty_sdiff, Finset.union_empty]
  | unblock => simp only [Finset.sdiff_empty]

theorem sigaction_of_usable (s : Process) (sig : Nat) (act : Action) (h : Usable sig) :
    sigaction s sig act = some (s.table sig, { s with
      table := Function.update s.table sig { act with mask := act.mask \ reserved } }) :=
  if_pos h

end Signals
