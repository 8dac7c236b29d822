import Mathlib.Tactic.Common

/-!
# Using Up CPU Time

The function `use_time` of `35-3-sched_fifo.c`, which runs for three seconds
of CPU time, prints a line after each quarter of a second, and yields after
each second.

What `times` gives is a sample, one for each turn of the loop. The macro
`DIFF_4TIME` takes the difference of two samples in quarters of a second. Its
second half has the system time of the earlier sample with the wrong sign.

A `clock_t` is an integer that does not overflow.

## Main definitions

* `Tms`: A sample.
* `diff4time`: The macro.
* `Action`: What is done at a sample.
* `useTime`: The function, as far as the samples go.
-/

namespace TlpiPractice

namespace SchedFifo

/-- `CLOCKS_PER_SEC`. -/
def clocksPerSec : Int := 1000000

/-- `struct tms`, less the times of the children. -/
structure Tms where
  tmsUtime : Int
  tmsStime : Int
  deriving DecidableEq

/-- `DIFF_4TIME`. -/
def diff4time (x y : Tms) : Int :=
  -- The two times of `y` are not in brackets, so the second is added.
  (((x.tmsUtime + x.tmsStime) - y.tmsUtime + y.tmsStime) * 4).tdiv clocksPerSec

/-- What is done at a sample. -/
inductive Action where
  /-- The loop is left. -/
  | leaves
  /-- A line with the CPU time may be printed, and the CPU may be yielded. -/
  | goesOn (printed : Option Int) (yields : Bool)
  deriving DecidableEq

/-- The loop of `use_time`. -/
def useTimeFrom (start lastPrint lastYield : Tms) : List Tms → List Action
  | [] => []
  | cur :: samples =>
      -- Twelve quarters of a second.
      if diff4time cur start ≥ 12 then [.leaves]
      else
        let prints := decide (diff4time cur lastPrint ≥ 1)
        let yields := decide (diff4time cur lastYield ≥ 4)
        .goesOn (if prints then some ((diff4time cur start).tdiv 4) else none) yields ::
          useTimeFrom start (if prints then cur else lastPrint) (if yields then cur else lastYield)
            samples

/-- `use_time`, where `start` is the first sample. -/
def useTime (start : Tms) (samples : List Tms) : List Action :=
  useTimeFrom start start start samples

end SchedFifo

end TlpiPractice
