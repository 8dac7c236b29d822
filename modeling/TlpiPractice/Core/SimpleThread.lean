import Mathlib.Logic.Function.Basic
import TlpiPractice.Library.Reach

/-!
# Two Threads That Count

`30-1-changed_simple_thread.c`: two threads add one to a global number, each
as often as it is told, and `main` prints the number when both have ended.

Adding one is three steps, since the number is loaded into a local variable,
this is increased, and its value is stored. Between any two steps of a thread
the other one can go on, and so can `main`. Memory is sequentially consistent:
a load sees the last store.

`pthread_create` and `pthread_join` do not fail. A join waits for the end of
its thread. What is printed is part of the state, and the number in a line is
the one at the time of printing.

## Main definitions

* `Pc`, `MainPc`: Where a thread and `main` stand.
* `State`: The number, the threads and what has been printed.
* `Enabled`, `next`, `Step`: When a step can happen and what it does.
* `Prints`: A number that the program can end with.
-/

namespace TlpiPractice

namespace SimpleThread

/-- The two threads. -/
inductive Thread where
  | t1
  | t2
  deriving DecidableEq

/-- `thr->symbol`. -/
def Thread.symbol : Thread → Int
  | .t1 => 1
  | .t2 => 2

/-- What a thread does next, with its local variables. -/
inductive Pc where
  | notCreated
  /-- The test of `j < loops`. -/
  | testing (j : Nat)
  /-- `loc = glob`. -/
  | loading (j : Nat)
  /-- `loc++`. -/
  | adding (j : Nat) (loc : Int)
  /-- `glob = loc`. -/
  | storing (j : Nat) (loc : Int)
  /-- The line about the thread. -/
  | printing (j : Nat)
  | ended
  deriving DecidableEq

/-- What `main` does next. -/
inductive MainPc where
  | createFirst
  | createSecond
  | joinFirst
  | joinSecond
  | printing
  | exited
  deriving DecidableEq

/-- What is printed. -/
inductive Line where
  /-- `"Thread %d: glob is %d"`. -/
  | progress (symbol glob : Int)
  /-- `"glob = %d\n"`. -/
  | total (glob : Int)
  deriving DecidableEq

structure State where
  glob : Int
  pc : Thread → Pc
  main : MainPc
  out : List Line

/-- Who takes a step. -/
inductive Event where
  | thread (t : Thread)
  | main

/-- A thread can go on from its creation to its end. A join waits. -/
def Enabled (s : State) : Event → Prop
  | .thread t => s.pc t ≠ .notCreated ∧ s.pc t ≠ .ended
  | .main =>
      match s.main with
      | .joinFirst => s.pc .t1 = .ended
      | .joinSecond => s.pc .t2 = .ended
      | .exited => False
      | _ => True

/-- The next step of a thread. -/
def threadFunc (loops : Nat) (s : State) (t : Thread) : State :=
  match s.pc t with
  | .notCreated => s
  | .testing j =>
      { s with pc := Function.update s.pc t (if j < loops then .loading j else .ended) }
  | .loading j => { s with pc := Function.update s.pc t (.adding j s.glob) }
  | .adding j loc => { s with pc := Function.update s.pc t (.storing j (loc + 1)) }
  -- What the other thread has stored since the load is lost.
  | .storing j loc => { s with pc := Function.update s.pc t (.printing j), glob := loc }
  -- The number may be another than the one stored.
  | .printing j =>
      { s with
        pc := Function.update s.pc t (.testing (j + 1))
        out := s.out ++ [.progress t.symbol s.glob] }
  | .ended => s

/-- The next step of `main`. -/
def mainFunc (s : State) : State :=
  match s.main with
  | .createFirst =>
      { s with pc := Function.update s.pc .t1 (.testing 0), main := .createSecond }
  | .createSecond => { s with pc := Function.update s.pc .t2 (.testing 0), main := .joinFirst }
  | .joinFirst => { s with main := .joinSecond }
  | .joinSecond => { s with main := .printing }
  | .printing => { s with out := s.out ++ [.total s.glob], main := .exited }
  | .exited => s

def next (loops : Nat) (s : State) : Event → State
  | .thread t => threadFunc loops s t
  | .main => mainFunc s

/-- One step of one of the three. -/
def Step (loops : Nat) (s : State) (e : Event) (s' : State) : Prop :=
  Enabled s e ∧ s' = next loops s e

def initial : State where
  glob := 0
  pc := fun _ => .notCreated
  main := .createFirst
  out := []

/-- The program can exit after it has printed this number. -/
def Prints (loops : Nat) (v : Int) : Prop :=
  Runs.CanReach (Step loops) initial
    (fun s => s.main = .exited ∧ s.out.getLast? = some (.total v))

end SimpleThread

end TlpiPractice
