import Mathlib.Logic.Function.Basic
import TlpiPractice.Library.Runs

/-!
# One-Time Initialisation

`one_time_init` of `31-1-one_time_init.c`: any number of threads, each calling
it any number of times on one control block.

The flag is tested once without the mutex and once more with it. Every test,
the lock and the unlock, the start and the end of the caller's `init`, and the
assignment to the flag are steps of their own, and the threads take turns in
any order. Memory is sequentially consistent: a step sees what the steps
before it have left.

A thread can pass another function with every call. The last two fields of
the state record which functions have been started and how many of them have
returned, and no step looks at them.

## Main definitions

* `Pc`: Where a thread stands in the function.
* `State`: The control block and all threads.
* `Event`: The steps of the threads.
* `Enabled`, `next`, `Step`: When a step can happen and what it does.
-/

namespace TlpiPractice

namespace OneTimeInit

/-- What a thread does next. -/
inductive Pc (φ : Type) where
  /-- It is not in a call. -/
  | idle
  /-- The test without the mutex. -/
  | testing (init : φ)
  | locking (init : φ)
  /-- The test with the mutex. -/
  | retesting (init : φ)
  /-- To call `init`. -/
  | calling (init : φ)
  /-- It is in `init`. -/
  | running
  /-- To set the flag. -/
  | setting
  | unlocking
  | returning

structure State (ι φ : Type) where
  /-- `control->inited`. -/
  inited : Int
  /-- The thread that holds `control->lock`. -/
  lock : Option ι
  pc : ι → Pc φ
  /-- The functions that have been started. -/
  started : List φ
  /-- How many of them have returned. -/
  finished : Nat

inductive Event (ι φ : Type) where
  | call (t : ι) (init : φ)
  | test (t : ι)
  | lock (t : ι)
  | retest (t : ι)
  | startInit (t : ι)
  | endInit (t : ι)
  | setInited (t : ι)
  | unlock (t : ι)
  | ret (t : ι)

variable {ι φ : Type} [DecidableEq ι]

/-- When an event can happen. -/
def Enabled (s : State ι φ) : Event ι φ → Prop
  | .call t _ => s.pc t = .idle
  | .test t => ∃ init, s.pc t = .testing init
  | .lock t => (∃ init, s.pc t = .locking init) ∧ s.lock = none
  | .retest t => ∃ init, s.pc t = .retesting init
  | .startInit t => ∃ init, s.pc t = .calling init
  | .endInit t => s.pc t = .running
  | .setInited t => s.pc t = .setting
  | .unlock t => s.pc t = .unlocking
  | .ret t => s.pc t = .returning

/-- Where a thread goes on from its first test. -/
def afterTest (inited : Int) (init : φ) : Pc φ :=
  if inited = 0 then .locking init else .returning

/-- Where a thread goes on from its second test. -/
def afterRetest (inited : Int) (init : φ) : Pc φ :=
  if inited = 0 then .calling init else .unlocking

/-- What an event does. -/
def next (s : State ι φ) : Event ι φ → State ι φ
  | .call t init => { s with pc := Function.update s.pc t (.testing init) }
  -- The test without the mutex, and the same test with it, further down.
  | .test t =>
      match s.pc t with
      | .testing init => { s with pc := Function.update s.pc t (afterTest s.inited init) }
      | _ => s
  | .lock t =>
      match s.pc t with
      | .locking init =>
          { s with
            pc := Function.update s.pc t (.retesting init)
            lock := some t }
      | _ => s
  | .retest t =>
      match s.pc t with
      | .retesting init => { s with pc := Function.update s.pc t (afterRetest s.inited init) }
      | _ => s
  -- The caller's function runs while the mutex is held.
  | .startInit t =>
      match s.pc t with
      | .calling init =>
          { s with
            pc := Function.update s.pc t .running
            started := s.started ++ [init] }
      | _ => s
  | .endInit t =>
      { s with
        pc := Function.update s.pc t .setting
        finished := s.finished + 1 }
  | .setInited t =>
      { s with
        pc := Function.update s.pc t .unlocking
        inited := 1 }
  | .unlock t =>
      { s with
        pc := Function.update s.pc t .returning
        lock := none }
  | .ret t => { s with pc := Function.update s.pc t .idle }

/-- One step of one thread. -/
def Step (s : State ι φ) (e : Event ι φ) (s' : State ι φ) : Prop :=
  Enabled s e ∧ s' = next s e

/-- Before the first call: the flag is zero and the mutex free. -/
def initial : State ι φ where
  inited := 0
  lock := none
  pc := fun _ => .idle
  started := []
  finished := 0

end OneTimeInit

end TlpiPractice
