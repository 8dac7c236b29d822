import Mathlib.Logic.Function.Basic

/-!
# System V Semaphores with Undo

One System V semaphore: its value, and for each process the adjustment that
the kernel will make when the process ends.

An operation adds a number to the value. It has to wait while the value would
become negative, and it fails when the value or the adjustment would leave
their range. An operation with `SEM_UNDO` subtracts the same number from the
adjustment of its process, so that the adjustment is the opposite of what the
process has done with that flag. At the end of a process the adjustment is
added to the value, as far as the range of the value allows.

## Main definitions

* `Sem`: A semaphore and the adjustments.
* `Outcome`: What an operation meets with.
* `semop`: An operation of a process.
* `semexit`: The end of a process.

## Theorems

* `semop_done`: What an operation that goes through has done.
* `semexit_semval`: The value a process leaves behind.
-/

namespace UndoSem

/-- `SEMVMX`, the largest value. -/
def semvmx : Int := 32767

/-- `SEMAEM`, the largest adjustment. -/
def semaem : Int := 32767

structure Sem (ι : Type) where
  semval : Int
  semadj : ι → Int

inductive Outcome (ι : Type) where
  | done (k : Sem ι)
  /-- It has to wait, or fails with `EAGAIN` where it must not. -/
  | wouldBlock
  | erange

variable {ι : Type} [DecidableEq ι]

/-- A process adds `op`, which is not zero, to the value. -/
def semop (k : Sem ι) (p : ι) (op : Int) (undo : Bool) : Outcome ι :=
  if k.semval + op < 0 then .wouldBlock
  else if semvmx < k.semval + op then .erange
  else if undo then
    if k.semadj p - op < -semaem - 1 ∨ semaem < k.semadj p - op then .erange
    else .done ⟨k.semval + op, Function.update k.semadj p (k.semadj p - op)⟩
  else .done { k with semval := k.semval + op }

/-- A process ends, and its adjustment is made. -/
def semexit (k : Sem ι) (p : ι) : Sem ι where
  semval := max 0 (min semvmx (k.semval + k.semadj p))
  semadj := Function.update k.semadj p 0

theorem semop_done (k : Sem ι) (p : ι) (op : Int) (undo : Bool) (k' : Sem ι)
    (h : semop k p op undo = .done k') :
    0 ≤ k.semval + op ∧ k'.semval = k.semval + op ∧
      k'.semadj = if undo then Function.update k.semadj p (k.semadj p - op) else k.semadj := by
  unfold semop at h
  split at h
  · cases h
  · split at h
    · cases h
    · split at h
      · next hundo =>
          split at h
          · cases h
          · cases h
            refine ⟨by omega, rfl, ?_⟩
            rw [if_pos hundo]
      · next hundo =>
          cases h
          refine ⟨by omega, rfl, ?_⟩
          rw [if_neg hundo]

theorem semexit_semval (k : Sem ι) (p : ι) :
    (semexit k p).semval = max 0 (min semvmx (k.semval + k.semadj p)) := rfl

theorem semexit_semadj_of_ne (k : Sem ι) (p q : ι) (h : q ≠ p) :
    (semexit k p).semadj q = k.semadj q := Function.update_of_ne h _ _

end UndoSem
