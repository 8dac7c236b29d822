import TlpiPractice.Library.Runs
import TlpiPractice.Library.Signals

/-!
# The System V Signal Functions

`sigset`, `sighold`, `sigrelse`, `sigignore` and `sigpause` of
`22-4-systemV_signal_api.c`, written with the POSIX calls.

`sigset` returns a local variable that it has not assigned when the handler is
`SIG_HOLD` and the signal was not blocked. What is in it then is a parameter
of the call.

## Main definitions

* `sigset`, `sighold`, `sigrelse`, `sigignore`, `sigpause`: The functions.
* `Call`: A call of one of them.
* `perform`, `next`: What a call does.
-/

namespace TlpiPractice

namespace SysvSignal

open Signals

/-- `SA_RESTART`. -/
def saRestart : Nat := 0x10000000

/-- What is returned, and the process afterwards; `junk` is what the variable
    `origin` holds before it is assigned. -/
def sigset (s : Process) (sig : Nat) (handler junk : Handler) : Handler × Process :=
  let sa : Action := ⟨handler, sigemptyset, saRestart⟩
  let block := sigaddset sigemptyset sig
  let asked := if handler = .hold then sigprocmask s .block (some block)
    else sigprocmask s .block none
  -- Only in this branch `origin` is assigned.
  if handler ≠ .hold then
    match sigaction asked.2 sig sa with
    | none => (.err, asked.2)
    | some (origin, s') => (if sig ∈ asked.1 then .hold else origin.handler, s')
  else (if sig ∈ asked.1 then .hold else junk, asked.2)

/-- The set that is blocked is empty: the signal is not put into it. -/
def sighold (s : Process) (_sig : Nat) : Int × Process :=
  (0, (sigprocmask s .block (some sigemptyset)).2)

/-- The set that is unblocked is empty, too. -/
def sigrelse (s : Process) (_sig : Nat) : Int × Process :=
  (0, (sigprocmask s .unblock (some sigemptyset)).2)

def sigignore (s : Process) (sig : Nat) : Int × Process :=
  match sigaction s sig ⟨.ign, sigfillset, 0⟩ with
  | none => (-1, s)
  | some (_, s') => (0, s')

/-- What is returned after the wait, and the mask the function waits with. -/
def sigpause (sig : Nat) : Int × Finset Nat := (-1, sigsuspend (sigaddset sigemptyset sig))

inductive Call where
  | sigset (sig : Nat) (handler junk : Handler)
  | sighold (sig : Nat)
  | sigrelse (sig : Nat)
  | sigignore (sig : Nat)
  | sigpause (sig : Nat)
  deriving DecidableEq

/-- What a call leaves, what `sigset` returns, and what `sigpause` waits
    with. -/
def perform (s : Process) : Call → Process × Option Handler × Option (Finset Nat)
  | .sigset sig handler junk =>
      ((sigset s sig handler junk).2, some (sigset s sig handler junk).1, none)
  | .sighold sig => ((sighold s sig).2, none, none)
  | .sigrelse sig => ((sigrelse s sig).2, none, none)
  | .sigignore sig => ((sigignore s sig).2, none, none)
  | .sigpause sig => (s, none, some (sigpause sig).2)

/-- The process after a call. -/
def next (s : Process) (c : Call) : Process := (perform s c).1

end SysvSignal

end TlpiPractice
