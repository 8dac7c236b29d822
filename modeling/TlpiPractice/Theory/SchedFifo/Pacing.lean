import TlpiPractice.Core.SchedFifo
import TlpiPractice.Library.Ints

/-!
# When CPU Time Has Passed

When the loop should print, yield and end, and when it does.

Each of the three tests compares the growth of the total CPU time since some
sample with a threshold. The macro adds twice the system time of that sample
to the growth. A test goes the way it should if and only if this does not
carry the growth over the threshold. The loop is right if this is so for every
test up to the last.

## Main definitions

* `Tms.total`: User and system time.
* `Grown`: The total has grown by some quarters of a second.
* `Paced`: What should be done at the samples.
* `SameSide`: The system time does not matter to a test.
* `Harmless`: It does not matter to any of the tests.
* `Nondecreasing`: The samples that `times` can give.

## Theorems

* `le_diff4time_iff`: What the macro says.
* `test_iff`: When a test is right.
* `paced_useTimeFrom_iff`, `paced_useTime_iff`: When the loop is right.
* `harmless_of_noSystemTime`: A process that spends no time in the system.
* `busyStart_wrong`: A process that has spent some before.
-/

namespace TlpiPractice

namespace SchedFifo

def Tms.total (x : Tms) : Int := x.tmsUtime + x.tmsStime

/-- The total has grown by at least this many quarters of a second. -/
def Grown (quarters : Int) (cur base : Tms) : Prop :=
  quarters * clocksPerSec ≤ 4 * (cur.total - base.total)

instance (quarters : Int) (cur base : Tms) : Decidable (Grown quarters cur base) :=
  inferInstanceAs (Decidable (_ ≤ _))

/-- What should be done at the samples: the loop is left at the first one with
    three seconds more than at the start, and at each one before it something
    is printed if there is a quarter of a second more than at the last print,
    and the CPU is yielded if there is a second more than at the last time. -/
def Paced (start lastPrint lastYield : Tms) : List Tms → List Action → Prop
  | [], actions => actions = []
  | cur :: samples, actions =>
      (Grown 12 cur start ∧ actions = [.leaves]) ∨
      (¬ Grown 12 cur start ∧ ∃ printed yields rest,
        actions = .goesOn printed yields :: rest ∧
        (printed.isSome = true ↔ Grown 1 cur lastPrint) ∧
        (yields = true ↔ Grown 4 cur lastYield) ∧
        Paced start (if printed.isSome then cur else lastPrint) (if yields then cur else lastYield)
          samples rest)

/-- The growth and the growth with twice the system time of the earlier sample
    are on the same side of the threshold. -/
def SameSide (quarters : Int) (cur base : Tms) : Prop :=
  quarters * clocksPerSec ≤ 4 * (cur.total - base.total) ↔
    quarters * clocksPerSec ≤ 4 * (cur.total - base.total + 2 * base.tmsStime)

/-- This is so for the tests of the loop, up to the sample at which it should be
    left. -/
def Harmless (start lastPrint lastYield : Tms) : List Tms → Prop
  | [] => True
  | cur :: samples =>
      SameSide 12 cur start ∧
      (¬ Grown 12 cur start → SameSide 1 cur lastPrint ∧ SameSide 4 cur lastYield ∧
        Harmless start (if Grown 1 cur lastPrint then cur else lastPrint)
          (if Grown 4 cur lastYield then cur else lastYield) samples)

/-- The samples that `times` can give: neither time gets less. -/
def Nondecreasing (samples : List Tms) : Prop :=
  samples.Pairwise (fun x y => x.tmsUtime ≤ y.tmsUtime ∧ x.tmsStime ≤ y.tmsStime)

/-- What the macro says of a threshold. -/
theorem le_diff4time_iff (quarters : Int) (x y : Tms) (h : 0 < quarters) :
    quarters ≤ diff4time x y ↔
      quarters * clocksPerSec ≤ 4 * (x.total - y.total + 2 * y.tmsStime) := by
  rw [diff4time, Ints.le_tdiv_iff _ _ _ h (by decide)]
  have hsum : (x.tmsUtime + x.tmsStime - y.tmsUtime + y.tmsStime) * 4 =
      4 * (x.total - y.total + 2 * y.tmsStime) := by
    unfold Tms.total
    omega
  rw [hsum]

/-- A test goes the way it should if and only if the system time does not
    matter to it. -/
theorem test_iff (quarters : Int) (cur base : Tms) (h : 0 < quarters) :
    (quarters ≤ diff4time cur base ↔ Grown quarters cur base) ↔ SameSide quarters cur base := by
  rw [le_diff4time_iff quarters cur base h, Grown, SameSide]
  exact Iff.comm

/-- At a sample that should not be the last one. -/
theorem paced_goesOn_iff (start lastPrint lastYield cur : Tms) (samples : List Tms)
    (printed : Option Int) (yields : Bool) (rest : List Action) (h : ¬ Grown 12 cur start) :
    Paced start lastPrint lastYield (cur :: samples) (.goesOn printed yields :: rest) ↔
      (printed.isSome = true ↔ Grown 1 cur lastPrint) ∧
      (yields = true ↔ Grown 4 cur lastYield) ∧
      Paced start (if printed.isSome then cur else lastPrint) (if yields then cur else lastYield)
        samples rest := by
  constructor
  · rintro (⟨hgrown, _⟩ | ⟨_, printed', yields', rest', heq, hpaced⟩)
    · exact absurd hgrown h
    · cases heq
      exact hpaced
  · intro hpaced
    exact Or.inr ⟨h, printed, yields, rest, rfl, hpaced⟩

/-- The loop is right if and only if the system time matters to none of its
    tests. -/
theorem paced_useTimeFrom_iff (start lastPrint lastYield : Tms) (samples : List Tms) :
    Paced start lastPrint lastYield samples (useTimeFrom start lastPrint lastYield samples) ↔
      Harmless start lastPrint lastYield samples := by
  -- By induction on the samples, for any last print and yield.
  induction samples generalizing lastPrint lastYield with
  | nil => exact ⟨fun _ => trivial, fun _ => rfl⟩
  | cons cur samples ih =>
      have hend := test_iff 12 cur start (by decide)
      rw [useTimeFrom, Harmless, ← hend]
      by_cases hgrown : Grown 12 cur start
      · -- The loop should be left here.
        by_cases hleaves : diff4time cur start ≥ 12
        · rw [if_pos hleaves]
          exact ⟨fun _ => ⟨⟨fun _ => hgrown, fun _ => hleaves⟩, fun h => absurd hgrown h⟩,
            fun _ => Or.inl ⟨hgrown, rfl⟩⟩
        · rw [if_neg hleaves]
          refine ⟨fun h => ?_, fun h => absurd (h.1.mpr hgrown) hleaves⟩
          rcases h with ⟨_, heq⟩ | ⟨h, _⟩
          · cases heq
          · exact absurd hgrown h
      · by_cases hleaves : diff4time cur start ≥ 12
        · rw [if_pos hleaves]
          refine ⟨fun h => ?_, fun h => absurd (h.1.mp hleaves) hgrown⟩
          rcases h with ⟨h, _⟩ | ⟨_, _, _, _, heq, _⟩
          · exact absurd h hgrown
          · cases heq
        · -- The loop goes on, as it should. The other two tests decide what comes then.
          rw [if_neg hleaves, paced_goesOn_iff start lastPrint lastYield cur samples _ _ _ hgrown]
          have hprint := test_iff 1 cur lastPrint (by decide)
          have hyield := test_iff 4 cur lastYield (by decide)
          simp only [Option.isSome_ite, decide_eq_true_eq, ih]
          constructor
          · rintro ⟨hp, hy, hrest⟩
            refine ⟨⟨fun h => absurd h hleaves, fun h => absurd h hgrown⟩, fun _ =>
              ⟨hprint.mp hp, hyield.mp hy, ?_⟩⟩
            rwa [← if_congr hp rfl rfl, ← if_congr hy rfl rfl]
          · rintro ⟨_, hharmless⟩
            rcases hharmless hgrown with ⟨hp, hy, hrest⟩
            refine ⟨hprint.mpr hp, hyield.mpr hy, ?_⟩
            rwa [if_congr (hprint.mpr hp) rfl rfl, if_congr (hyield.mpr hy) rfl rfl]

/-- The function does what it should if and only if the system time matters to
    none of its tests. -/
theorem paced_useTime_iff (start : Tms) (samples : List Tms) :
    Paced start start start samples (useTime start samples) ↔
      Harmless start start start samples :=
  paced_useTimeFrom_iff start start start samples

theorem sameSide_of_stime_eq_zero (quarters : Int) (cur base : Tms) (h : base.tmsStime = 0) :
    SameSide quarters cur base := by
  rw [SameSide, h, Int.mul_zero, Int.add_zero]

/-- A process that spends no time in the system is paced as it should be. -/
theorem harmless_of_noSystemTime (start lastPrint lastYield : Tms) (samples : List Tms)
    (hstart : start.tmsStime = 0) (hprint : lastPrint.tmsStime = 0)
    (hyield : lastYield.tmsStime = 0) (h : ∀ cur ∈ samples, cur.tmsStime = 0) :
    Harmless start lastPrint lastYield samples := by
  induction samples generalizing lastPrint lastYield with
  | nil => trivial
  | cons cur samples ih =>
      have hcur := h cur List.mem_cons_self
      refine ⟨sameSide_of_stime_eq_zero _ _ _ hstart, fun _ =>
        ⟨sameSide_of_stime_eq_zero _ _ _ hprint, sameSide_of_stime_eq_zero _ _ _ hyield,
          ih _ _ ?_ ?_ (fun x hx => h x (List.mem_cons_of_mem cur hx))⟩⟩
      · split
        · exact hcur
        · exact hprint
      · split
        · exact hcur
        · exact hyield

/-- A process that has spent two seconds in the system before. -/
def busyStart : Tms := ⟨0, 2000000⟩

/-- It leaves the loop at once. -/
theorem busyStart_wrong :
    Nondecreasing [busyStart, busyStart] ∧
      ¬ Paced busyStart busyStart busyStart [busyStart] (useTime busyStart [busyStart]) := by
  constructor
  · unfold Nondecreasing
    decide
  · rintro (⟨hgrown, _⟩ | ⟨_, _, _, _, heq, _⟩)
    · exact absurd hgrown (by decide)
    · have hleaves : useTime busyStart [busyStart] = [.leaves] := by decide
      rw [hleaves] at heq
      cases heq

end SchedFifo

end TlpiPractice
