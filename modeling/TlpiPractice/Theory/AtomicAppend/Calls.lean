import Mathlib.Algebra.BigOperators.Group.Finset.Basic
import TlpiPractice.Core.AtomicAppend

/-!
# The Calls of the Appending Processes

What a single step of one of the processes can be, and what all of them know
of their loops. Nothing here depends on where a write goes.

## Main definitions

* `times`: How often a process writes.
* `Counted`: What the counter of a process says of where it stands.

## Theorems

* `step_cases`: What a step can be.
* `counted_head`: The counters stay right.
* `sum_update`: A sum over all processes after one has changed.
-/

namespace TlpiPractice

namespace AtomicAppend

open ByteFile Runs

variable {ι : Type} [DecidableEq ι]

/-- How often a process writes. -/
def times (a : Invocation) : Nat := a.numBytes.toNat

theorem replicate_append_x (file : List UInt8) (k : Nat) :
    file ++ List.replicate k 120 ++ x = file ++ List.replicate (k + 1) 120 := by
  rw [List.append_assoc, List.replicate_succ', x]

/-- A byte that is written where it is already. -/
theorem writeAt_x_of_lt (file : List UInt8) (m k : Nat) (h : m < k) :
    writeAt (file ++ List.replicate k 120) (file.length + m) x =
      file ++ List.replicate k 120 := by
  have hlen : (file ++ List.replicate k (120 : UInt8)).length = file.length + k := by
    rw [List.length_append, List.length_replicate]
  have hx : x.length = 1 := rfl
  refine ext_byteAt _ _ ?_ (fun j _ => ?_)
  · rw [length_writeAt _ _ _ (by decide), hlen, hx]
    omega
  · rw [byteAt_writeAt, hx]
    split
    · have hj : j = file.length + m := by omega
      rw [hj, byteAt_append, if_neg (by omega), Nat.add_sub_cancel_left, Nat.sub_self]
      have hbyte : byteAt (List.replicate k (120 : UInt8)) m = 120 := by
        rw [byteAt, List.getD_eq_getElem _ _ (by rw [List.length_replicate]; exact h),
          List.getElem_replicate]
      rw [hbyte]
      rfl
    · rfl

theorem head_of_lt (a : Invocation) (i : Nat) (h : i < times a) :
    head a i = if a.seeks then .seeking else .writing := by
  unfold times at h
  rw [head, if_pos (by omega)]

theorem head_of_le (a : Invocation) (i : Nat) (h : times a ≤ i) : head a i = .ended := by
  unfold times at h
  rw [head, if_neg (by omega)]

theorem next_seeking (args : ι → Invocation) (s : State ι) (p : ι)
    (hpc : (s.procs p).pc = .seeking) :
    next args s (.call p) =
      { s with procs := Function.update s.procs p ((s.procs p).lseek s.file) } := by
  simp only [next, call, hpc]

theorem next_writing (args : ι → Invocation) (s : State ι) (p : ι)
    (hpc : (s.procs p).pc = .writing) :
    next args s (.call p) =
      { file := writeAt s.file (target (args p) s.file (s.procs p)) x
        procs := Function.update s.procs p ((s.procs p).write (args p) s.file) } := by
  simp only [next, call, hpc]

/-- What a step can be. -/
theorem step_cases (args : ι → Invocation) (s s' : State ι) (e : Event ι)
    (h : Step args s e s') :
    (∃ p, (s.procs p).pc = .seeking ∧
      s' = { s with procs := Function.update s.procs p ((s.procs p).lseek s.file) }) ∨
    (∃ p, (s.procs p).pc = .writing ∧
      s' = { file := writeAt s.file (target (args p) s.file (s.procs p)) x
             procs := Function.update s.procs p ((s.procs p).write (args p) s.file) }) ∨
    (∃ p, ((s.procs p).pc = .seeking ∨ (s.procs p).pc = .writing) ∧
      s' = { s with procs := Function.update s.procs p { s.procs p with pc := .failed } }) := by
  rcases h with ⟨hen, rfl⟩
  cases e with
  | call p =>
      rcases hen with hpc | hpc
      · exact .inl ⟨p, hpc, next_seeking args s p hpc⟩
      · exact .inr (.inl ⟨p, hpc, next_writing args s p hpc⟩)
  | failure p => exact .inr (.inr ⟨p, hen, rfl⟩)

/-- A process that has come to its end has done all its writes, and one that
    goes on has not. -/
def Counted (a : Invocation) (q : Process) : Prop :=
  match q.pc with
  | .seeking => q.i < times a
  | .writing => q.i < times a
  | .ended => q.i = times a
  | .failed => True

theorem counted_head (a : Invocation) (i offset : Nat) (h : i ≤ times a) :
    Counted a ⟨i, offset, head a i⟩ := by
  unfold Counted
  by_cases hi : i < times a
  · simp only [head_of_lt a i hi]
    cases a.seeks <;> exact hi
  · simp only [head_of_le a i (by omega)]
    omega

/-- What holds of every process holds when one of them has changed. -/
theorem forall_update {P : ι → Process → Prop} (procs : ι → Process) (p : ι) (q : Process)
    (h : ∀ u, u ≠ p → P u (procs u)) (hq : P p q) (u : ι) : P u (Function.update procs p q u) := by
  by_cases hu : u = p
  · rw [hu, Function.update_self]
    exact hq
  · rw [Function.update_of_ne hu]
    exact h u hu

omit [DecidableEq ι] in
theorem counted_initial (args : ι → Invocation) (file : List UInt8) (p : ι) :
    Counted (args p) ((initial args file).procs p) :=
  counted_head (args p) 0 0 (Nat.zero_le _)

/-- A process that stands where it can stop has written as often as it should. -/
theorem eq_times_of_ended (a : Invocation) (q : Process) (h : Counted a q) (hpc : q.pc = .ended) :
    q.i = times a := by
  rw [Counted, hpc] at h
  exact h

/-- A sum over all processes after one of them has changed. -/
theorem sum_update [Fintype ι] (w : ι → Process → Nat) (procs : ι → Process) (p : ι)
    (q : Process) :
    ∑ u, w u (Function.update procs p q u) + w p (procs p) = ∑ u, w u (procs u) + w p q := by
  rw [← Finset.add_sum_erase _ _ (Finset.mem_univ p),
    ← Finset.add_sum_erase _ (fun u => w u (procs u)) (Finset.mem_univ p), Function.update_self]
  have hrest : ∑ u ∈ Finset.univ.erase p, w u (Function.update procs p q u) =
      ∑ u ∈ Finset.univ.erase p, w u (procs u) := by
    refine Finset.sum_congr rfl (fun u hu => ?_)
    rw [Function.update_of_ne (Finset.ne_of_mem_erase hu)]
  rw [hrest]
  omega

end AtomicAppend

end TlpiPractice
