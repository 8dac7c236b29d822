import Mathlib.Algebra.Order.BigOperators.Group.Finset
import Mathlib.Data.Finset.Lattice.Fold
import Mathlib.Order.Lattice.Nat
import TlpiPractice.Theory.AtomicAppend.Calls

/-!
# Processes That Start at the First Byte

What is left when no process has a fourth argument. None of them looks for the
end, and all start at the first byte of the file. So each writes over what was
there before and over what the others have written, and how much the file has
changed is up to the one that has come furthest. This does not depend on the
order of the writes.

## Main definitions

* `covered`: A file after its first bytes have been written over.
* `Inv`: What holds in every state.

## Theorems

* `writeAt_covered`: A write within what is covered, or right behind it.
* `inv_step`: A step keeps the invariant.
* `leaves_covered_iff`: The only file that can be left behind.
-/

namespace TlpiPractice

namespace AtomicAppend

open ByteFile Runs

variable {ι : Type} [Fintype ι]

/-- A file after its first bytes have been written over. -/
def covered (file : List UInt8) (m : Nat) : List UInt8 :=
  List.replicate m 120 ++ file.drop m

/-- How far the furthest process has come. -/
def furthest (i : ι → Nat) : Nat := Finset.univ.sup i

/-- What holds in every state. -/
structure Inv (args : ι → Invocation) (file : List UInt8) (s : State ι) : Prop where
  contents : s.file = covered file (furthest (fun p => (s.procs p).i))
  counted : ∀ p, Counted (args p) (s.procs p)
  place : ∀ p, (s.procs p).offset = (s.procs p).i ∧ (s.procs p).pc ≠ .seeking

theorem length_covered (file : List UInt8) (m : Nat) :
    (covered file m).length = max m file.length := by
  rw [covered, List.length_append, List.length_replicate, List.length_drop]
  omega

theorem byteAt_covered (file : List UInt8) (m j : Nat) :
    byteAt (covered file m) j = if j < m then 120 else byteAt file j := by
  rw [covered, byteAt_append, List.length_replicate]
  split
  · rename_i hj
    rw [byteAt, List.getD_eq_getElem _ _ (by rw [List.length_replicate]; exact hj),
      List.getElem_replicate]
  · rw [byteAt_drop]
    congr 1
    omega

/-- A write within what is covered, or right behind it. -/
theorem writeAt_covered (file : List UInt8) (m i : Nat) (h : i ≤ m) :
    writeAt (covered file m) i x = covered file (max m (i + 1)) := by
  have hx : x.length = 1 := rfl
  refine ext_byteAt _ _ ?_ (fun j _ => ?_)
  · rw [length_writeAt _ _ _ (by decide), length_covered, length_covered, hx]
    omega
  · rw [byteAt_writeAt, byteAt_covered, byteAt_covered, hx]
    by_cases hj : i ≤ j ∧ j < i + 1
    · have hzero : j - i = 0 := by omega
      rw [if_pos hj, if_pos (by omega), hzero]
      rfl
    · rw [if_neg hj]
      by_cases hm : j < m
      · rw [if_pos hm, if_pos (by omega)]
      · rw [if_neg hm, if_neg (by omega)]

section Steps

variable [DecidableEq ι]

/-- One process has come one byte further. -/
theorem furthest_update (i i' : ι → Nat) (p : ι) (hp : i' p = i p + 1)
    (hrest : ∀ u, u ≠ p → i' u = i u) : furthest i' = max (furthest i) (i p + 1) := by
  have hle : ∀ u, i u ≤ furthest i := fun u => Finset.le_sup (f := i) (Finset.mem_univ u)
  have hle' : ∀ u, i' u ≤ furthest i' := fun u => Finset.le_sup (f := i') (Finset.mem_univ u)
  refine Nat.le_antisymm (Finset.sup_le (fun u _ => ?_)) (Nat.max_le.mpr ⟨?_, hp ▸ hle' p⟩)
  · by_cases hu : u = p
    · rw [hu, hp]
      exact Nat.le_max_right _ _
    · rw [hrest u hu]
      exact Nat.le_trans (hle u) (Nat.le_max_left _ _)
  · refine Finset.sup_le (fun u _ => ?_)
    by_cases hu : u = p
    · have := hle' p
      rw [hu]
      omega
    · exact hrest u hu ▸ hle' u

variable (args : ι → Invocation) (file : List UInt8) (hfirst : ∀ p, (args p).fourth = none)
include hfirst

omit [Fintype ι] [DecidableEq ι] in
theorem head_ne_seeking (p : ι) (i : Nat) : head (args p) i ≠ .seeking := by
  unfold head Invocation.seeks
  rw [hfirst p]
  split <;> exact Pc.noConfusion

theorem inv_write (s : State ι) (p : ι) (h : Inv args file s) (hpc : (s.procs p).pc = .writing) :
    Inv args file (next args s (.call p)) := by
  -- Without `lseek` and `O_APPEND` the offset is the number of bytes written.
  have htarget : target (args p) s.file (s.procs p) = (s.procs p).i := by
    unfold target Invocation.append
    rw [hfirst p]
    exact (h.place p).1
  have hcounted := h.counted p
  rw [Counted, hpc] at hcounted
  rw [next_writing args s p hpc]
  have hself : (Function.update s.procs p ((s.procs p).write (args p) s.file) p).i =
      (s.procs p).i + 1 := by
    rw [Function.update_self]
    rfl
  have hrest : ∀ u, u ≠ p →
      (Function.update s.procs p ((s.procs p).write (args p) s.file) u).i = (s.procs u).i :=
    fun u hu => by rw [Function.update_of_ne hu]
  refine ⟨?_, ?_, ?_⟩
  · have hle : (s.procs p).i ≤ furthest (fun u => (s.procs u).i) :=
      Finset.le_sup (f := fun u => (s.procs u).i) (Finset.mem_univ p)
    rw [furthest_update (fun u => (s.procs u).i) _ p hself hrest, htarget, h.contents]
    exact writeAt_covered file _ _ hle
  · exact forall_update (P := fun u => Counted (args u)) s.procs p _ (fun u _ => h.counted u)
      (counted_head (args p) _ _ hcounted)
  · refine forall_update (P := fun _ r => r.offset = r.i ∧ r.pc ≠ .seeking) s.procs p _
      (fun u _ => h.place u) ⟨?_, head_ne_seeking args hfirst p _⟩
    rw [Process.write, htarget]

/-- A step keeps the invariant. -/
theorem inv_step (s : State ι) (e : Event ι) (s' : State ι) (h : Inv args file s)
    (hstep : Step args s e s') : Inv args file s' := by
  cases e with
  | call p =>
      rcases hstep.1 with hpc | hpc
      · exact absurd hpc (h.place p).2
      · rw [hstep.2]
        exact inv_write args file hfirst s p h hpc
  | failure p =>
      have hsame : (fun u => (Function.update s.procs p { s.procs p with pc := .failed } u).i) =
          fun u => (s.procs u).i :=
        funext (forall_update (P := fun u r => r.i = (s.procs u).i) s.procs p _
          (fun _ _ => rfl) rfl)
      rw [hstep.2]
      refine ⟨?_, ?_, ?_⟩
      · have hcontents : s.file = covered file
            (furthest
              (fun u => (Function.update s.procs p { s.procs p with pc := .failed } u).i)) := by
          rw [hsame]
          exact h.contents
        exact hcontents
      · exact forall_update (P := fun u => Counted (args u)) s.procs p _
          (fun u _ => h.counted u) trivial
      · exact forall_update (P := fun _ r => r.offset = r.i ∧ r.pc ≠ .seeking) s.procs p _
          (fun u _ => h.place u) ⟨(h.place p).1, Pc.noConfusion⟩

omit [DecidableEq ι] in
theorem inv_initial : Inv args file (initial args file) where
  contents := by
    have hzero : furthest (fun _ : ι => 0) = 0 :=
      Nat.le_zero.mp (Finset.sup_le (fun _ _ => Nat.le_refl 0))
    have hcontents : file = covered file (furthest (fun _ : ι => 0)) := by
      rw [hzero]
      rfl
    exact hcontents
  counted := counted_initial args file
  place := fun p => ⟨rfl, head_ne_seeking args hfirst p 0⟩

omit hfirst in
omit [Fintype ι] [DecidableEq ι] in
theorem head_ne_failed (p : ι) (i : Nat) : head (args p) i ≠ .failed := by
  unfold head
  split
  · split <;> exact Pc.noConfusion
  · exact Pc.noConfusion

/-- As long as no call has failed and some process is not at its end, one can
    write. -/
theorem exists_write (s : State ι) (hs : Inv args file s ∧ ∀ p, (s.procs p).pc ≠ .failed) :
    (Inv args file s ∧ ∀ p, (s.procs p).pc = .ended) ∨ ∃ e s', Step args s e s' ∧
      (Inv args file s' ∧ ∀ p, (s'.procs p).pc ≠ .failed) ∧
      ∑ p, (times (args p) - (s'.procs p).i) < ∑ p, (times (args p) - (s.procs p).i) := by
  rcases hs with ⟨h, hok⟩
  by_cases hall : ∀ p, (s.procs p).pc = .ended
  · exact .inl ⟨h, hall⟩
  rcases not_forall.mp hall with ⟨p, hp⟩
  have hpc : (s.procs p).pc = .writing := by
    have hseeking := (h.place p).2
    have hfailed := hok p
    cases hpc : (s.procs p).pc with
    | seeking => exact absurd hpc hseeking
    | writing => rfl
    | ended => exact absurd hpc hp
    | failed => exact absurd hpc hfailed
  -- Each write brings its process one byte nearer to its end.
  refine .inr ⟨.call p, _, ⟨.inr hpc, rfl⟩, ⟨inv_write args file hfirst s p h hpc, ?_⟩, ?_⟩
  · rw [next_writing args s p hpc]
    exact forall_update (P := fun _ r => r.pc ≠ .failed) s.procs p _ (fun u _ => hok u)
      (head_ne_failed args p _)
  · have hcounted := h.counted p
    rw [Counted, hpc] at hcounted
    have hsum := sum_update (fun u r => times (args u) - r.i) s.procs p
      ((s.procs p).write (args p) s.file)
    have hi : ((s.procs p).write (args p) s.file).i = (s.procs p).i + 1 := rfl
    rw [hi] at hsum
    rw [next_writing args s p hpc]
    have hnew : ∑ u, (times (args u) -
        (Function.update s.procs p ((s.procs p).write (args p) s.file) u).i) <
        ∑ u, (times (args u) - (s.procs u).i) := by omega
    exact hnew

end Steps

/-- If no process has a fourth argument, then in every state the file is covered
    as far as the furthest process has come. When no call fails, one file can be
    left behind, whatever the order of the writes. -/
theorem leaves_covered_iff [DecidableEq ι] (args : ι → Invocation) (file : List UInt8)
    (hfirst : ∀ p, (args p).fourth = none) :
    (∀ tr, AllSteps (Step args) (initial args file) tr →
      Always (fun s => s.file = covered file (furthest (fun p => (s.procs p).i)))
        (initial args file) tr) ∧
      ∀ result, Leaves args file result ↔
        result = covered file (furthest (fun p => times (args p))) := by
  have hstep := inv_step args file hfirst
  have hinitial := inv_initial args file hfirst
  have hfinal : ∀ s : State ι, Inv args file s → (∀ p, (s.procs p).pc = .ended) →
      s.file = covered file (furthest (fun p => times (args p))) := by
    intro s h hended
    rw [h.contents]
    exact congrArg (fun i => covered file (furthest i))
      (funext (fun p => eq_times_of_ended (args p) _ (h.counted p) (hended p)))
  refine ⟨fun tr hrun => ?_, fun result => ⟨fun h => ?_, fun h => ?_⟩⟩
  · exact always_mono (fun s h => h.contents) _ tr (always_of_allSteps hstep _ tr hinitial hrun)
  · rcases exists_of_canReach hstep hinitial h with ⟨s, hi, hended, rfl⟩
    exact hfinal s hi hended
  · have hreach := canReach_of_progress (exists_write args file hfirst) (initial args file)
      ⟨hinitial, fun p => head_ne_failed args p 0⟩
    refine canReach_mono hreach (fun s hs => ⟨hs.2, ?_⟩)
    rw [h]
    exact hfinal s hs.1 hs.2

/-- Two bytes and three. -/
def twoAndThree : Bool → Invocation
  | true => { numBytes := 2, fourth := none }
  | false => { numBytes := 3, fourth := none }

theorem leaves_covered_iff_twoAndThree :
    (∀ tr, AllSteps (Step twoAndThree) (initial twoAndThree [97, 98, 99, 100]) tr →
      Always (fun s => s.file = covered [97, 98, 99, 100] (furthest (fun p => (s.procs p).i)))
        (initial twoAndThree [97, 98, 99, 100]) tr) ∧
      ∀ result, Leaves twoAndThree [97, 98, 99, 100] result ↔
        result = covered [97, 98, 99, 100] (furthest (fun p => times (twoAndThree p))) :=
  leaves_covered_iff twoAndThree [97, 98, 99, 100] (fun p => by cases p <;> rfl)

end AtomicAppend

end TlpiPractice
