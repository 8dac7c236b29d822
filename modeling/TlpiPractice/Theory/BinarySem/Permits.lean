import Mathlib.Data.List.Count
import TlpiPractice.Core.BinarySem

/-!
# Permits and Their Undo

When the value of the semaphore and the number of its holders add up to one.

Every operation moves a permit between the value and a holder, so the sum can
change at the end of a process only, where the kernel makes the adjustment of
that process. What a live process holds and what its adjustment says differ by
the number of times it has reserved with `reserveSemNB`, which does not pass
`SEM_UNDO`, while `releaseSem` does. A process that has never done so leaves
exactly what it holds. One that has takes a permit with it: the one it holds,
which nobody gives back, or one that it has released and that the adjustment
takes away again. If another process holds the semaphore at that moment the
value is zero, and the kernel does not take it below zero, so nothing is lost.

## Main definitions

* `Conserved`: The value and the holders add up to one.
* `KeepsPermit`: The steps that lose nothing.
* `PermitInv`: The invariant.
* `handOver`: A run in which both reserving functions are used.
* `reserveNBExit`: A run that loses the permit.

## Theorems

* `permitInv_grant`, `permitInv_release`: A permit is taken and given back.
* `permitInv_step`: A step that loses nothing keeps the invariant.
* `not_conserved_exit`: Any other step loses the permit.
* `conserved_iff_keepsPermit`: The sum is one throughout a run exactly when
  every step of it loses nothing.
-/

namespace TlpiPractice

namespace BinarySem

open Runs UndoSem

variable {ι : Type}

/-- The value and the number of live holders add up to one. -/
def Conserved (s : State ι) : Prop := s.sem.semval + s.holders.length = 1

/-- A process that has reserved with `reserveSemNB` ends only while another
    process holds the semaphore. -/
def KeepsPermit (s : State ι) : Event ι → Prop
  | .exit p => s.reservedNB p = 0 ∨ ∃ q ∈ s.holders, q ≠ p
  | _ => True

variable [DecidableEq ι]

structure PermitInv (s : State ι) : Prop where
  conserved : Conserved s
  nonneg : 0 ≤ s.sem.semval
  /-- What a live process holds, less what it has reserved without undo. -/
  adjusted : ∀ p, s.pc p ≠ .exited →
    s.sem.semadj p = (s.holders.count p : Int) - s.reservedNB p

theorem permitInv_initial : PermitInv (initial : State ι) :=
  ⟨rfl, Int.zero_le_ofNat 1, fun _ _ => rfl⟩

/-- A process that has not ended after a step had not ended before it. -/
theorem alive_update (pc : ι → Pc) (p : ι) (c : Pc) (hp : pc p ≠ .exited) (q : ι)
    (hq : Function.update pc p c q ≠ .exited) : pc q ≠ .exited := by
  by_cases hqp : q = p
  · rw [hqp]
    exact hp
  · rwa [Function.update_of_ne hqp] at hq

/-- Only the place of a process changes, and it does not come back to life. -/
theorem permitInv_move (s : State ι) (h : PermitInv s) (p : ι) (c : Pc)
    (hp : s.pc p ≠ .exited) : PermitInv { s with pc := Function.update s.pc p c } :=
  ⟨h.conserved, h.nonneg, fun q hq => h.adjusted q (alive_update s.pc p c hp q hq)⟩

/-- A reserve that goes through, with undo or without. -/
theorem permitInv_grant (s s' : State ι) (h : PermitInv s) (p : ι) (undo : Bool)
    (hdone : semop s.sem p (-1) undo = .done s'.sem) (hp : s.pc p ≠ .exited)
    (hpc : ∀ q, s'.pc q ≠ .exited → s.pc q ≠ .exited) (hhold : s'.holders = p :: s.holders)
    (hnb : s'.reservedNB =
      Function.update s.reservedNB p (s.reservedNB p + if undo then 0 else 1)) :
    PermitInv s' := by
  rcases semop_done _ _ _ _ _ hdone with ⟨hpos, hval, hadj⟩
  have hsum := h.conserved
  unfold Conserved at hsum
  refine ⟨?_, by omega, fun q hq => ?_⟩
  · unfold Conserved
    rw [hval, hhold, List.length_cons]
    omega
  · have hold := h.adjusted q (hpc q hq)
    rw [hadj, hhold, hnb]
    by_cases hqp : q = p
    · subst hqp
      rw [Function.update_self, List.count_cons_self]
      cases undo with
      | false =>
          simp only [Bool.false_eq_true, if_false]
          omega
      | true =>
          simp only [if_true, Function.update_self]
          omega
    · rw [Function.update_of_ne hqp, List.count_cons_of_ne (Ne.symm hqp)]
      cases undo with
      | false => exact hold
      | true =>
          simp only [if_true]
          rw [Function.update_of_ne hqp]
          exact hold

theorem permitInv_release (s : State ι) (h : PermitInv s) (p : ι) (k : Sem ι)
    (hdone : semop s.sem p 1 true = .done k) (hmem : p ∈ s.holders) :
    PermitInv { s with sem := k, holders := s.holders.erase p } := by
  rcases semop_done _ _ _ _ _ hdone with ⟨hpos, hval, hadj⟩
  have hsum := h.conserved
  unfold Conserved at hsum
  have hlen := List.length_erase_of_mem hmem
  have hnonempty := List.length_pos_of_mem hmem
  refine ⟨?_, ?_, fun q hq => ?_⟩
  · show k.semval + ((s.holders.erase p).length : Int) = 1
    omega
  · show 0 ≤ k.semval
    omega
  · have hold := h.adjusted q hq
    show k.semadj q = ((s.holders.erase p).count q : Int) - s.reservedNB q
    rw [hadj, if_pos rfl]
    by_cases hqp : q = p
    · subst hqp
      -- The adjustment and the number of its reserves go down together.
      have hcount := List.count_pos_iff.mpr hmem
      rw [Function.update_self, List.count_erase_self]
      omega
    · rw [Function.update_of_ne hqp, List.count_erase_of_ne hqp]
      exact hold

/-- The holders left when a process ends. -/
theorem length_filter_ne (l : List ι) (p : ι) :
    (l.filter (fun q => decide (q ≠ p))).length + l.count p = l.length := by
  induction l with
  | nil => rfl
  | cons q l ih =>
      by_cases hqp : q = p
      · subst hqp
        rw [List.filter_cons_of_neg (by simp), List.count_cons_self, List.length_cons]
        omega
      · rw [List.filter_cons_of_pos (by simpa using hqp), List.count_cons_of_ne hqp]
        simp only [List.length_cons]
        omega

/-- What is left of the semaphore and its holders when a process ends. -/
theorem exit_sum (s : State ι) (h : PermitInv s) (f : Flags) (p : ι) (hp : s.pc p ≠ .exited) :
    (next f s (.exit p)).sem.semval + (next f s (.exit p)).holders.length =
      max 0 (s.sem.semval + s.holders.count p - s.reservedNB p) +
        (s.holders.length - s.holders.count p : Int) := by
  have hadj := h.adjusted p hp
  have hsum := h.conserved
  unfold Conserved at hsum
  have hfilter := length_filter_ne s.holders p
  have hval := semexit_semval s.sem p
  unfold semvmx at hval
  show (semexit s.sem p).semval + ((s.holders.filter (fun q => decide (q ≠ p))).length : Int) = _
  omega

theorem permitInv_exit (s : State ι) (h : PermitInv s) (f : Flags) (p : ι)
    (hp : s.pc p ≠ .exited) (hkeep : KeepsPermit s (.exit p)) :
    PermitInv (next f s (.exit p)) := by
  have hexit := exit_sum s h f p hp
  have hsum := h.conserved
  have hnonneg := h.nonneg
  have hfilter := length_filter_ne s.holders p
  unfold Conserved at hsum
  refine ⟨?_, ?_, fun q hq => ?_⟩
  · unfold Conserved
    rw [hexit]
    -- Without a reserve of the other kind the adjustment is what it holds.
    rcases hkeep with hnb | ⟨q, hq, hqp⟩
    · omega
    · -- The other holder has the permit, so the value is zero and stays so.
      have hcount : 0 < (s.holders.filter (fun r => decide (r ≠ p))).length :=
        List.length_pos_of_mem (List.mem_filter.mpr ⟨hq, decide_eq_true hqp⟩)
      omega
  · show 0 ≤ (semexit s.sem p).semval
    rw [semexit_semval]
    omega
  · by_cases hqp : q = p
    · subst hqp
      simp only [next, Function.update_self, ne_eq, not_true_eq_false] at hq
    · have hold := h.adjusted q (by
        simp only [next, Function.update_of_ne hqp] at hq
        exact hq)
      show (semexit s.sem p).semadj q =
        ((s.holders.filter (fun r => decide (r ≠ p))).count q : Int) - s.reservedNB q
      rw [semexit_semadj_of_ne s.sem p q hqp,
        List.count_filter (p := fun r => decide (r ≠ p)) (decide_eq_true hqp)]
      exact hold

theorem not_conserved_exit (s : State ι) (h : PermitInv s) (f : Flags) (p : ι)
    (hp : s.pc p ≠ .exited) (hlose : ¬ KeepsPermit s (.exit p)) :
    ¬ Conserved (next f s (.exit p)) := by
  intro hcons
  unfold Conserved at hcons
  rw [exit_sum s h f p hp] at hcons
  have hsum := h.conserved
  unfold Conserved at hsum
  have hnb : s.reservedNB p ≠ 0 := fun hc => hlose (.inl hc)
  -- All holders, if there are any, are the process that ends.
  have hall : s.holders.count p = s.holders.length := by
    refine List.count_eq_length.mpr (fun q hq => ?_)
    by_cases hqp : q = p
    · exact hqp.symm
    · exact absurd (.inr ⟨q, hq, hqp⟩) hlose
  omega

theorem permitInv_step (f : Flags) (hundo : f.bsUseSemUndo = true) (s : State ι) (e : Event ι)
    (s' : State ι) (h : PermitInv s) (hkeep : KeepsPermit s e) (hstep : Step f s e s') :
    PermitInv s' := by
  rcases hstep with ⟨hen, rfl⟩
  cases e with
  | reserve p => exact permitInv_move s h p .reserving (by rw [hen]; exact Pc.noConfusion)
  | reserved p =>
      have hp : s.pc p ≠ .exited := by rw [hen.1]; exact Pc.noConfusion
      simp only [next]
      split
      · next k hk =>
          unfold reserveSem at hk
          rw [hundo] at hk
          refine permitInv_grant s _ h p true hk hp (alive_update s.pc p .running hp) rfl ?_
          rw [if_pos rfl, Nat.add_zero, Function.update_eq_self]
      · exact permitInv_move s h p .running hp
  | interrupted p =>
      simp only [next]
      split
      · exact h
      · exact permitInv_move s h p .running (by rw [hen]; exact Pc.noConfusion)
  | reserveNB p =>
      simp only [next]
      split
      · next k hk =>
          exact permitInv_grant s _ h p false hk (by rw [hen]; exact Pc.noConfusion)
            (fun _ hq => hq) rfl rfl
      · exact h
  | release p =>
      simp only [next]
      split
      · next k hk =>
          unfold releaseSem at hk
          rw [hundo] at hk
          exact permitInv_release s h p k hk hen.2
      · exact h
  | exit p => exact permitInv_exit s h f p hen hkeep

/-- With undo, the value and the number of holders add up to one throughout a
    run exactly when every process that ends in it either has never reserved
    with `reserveSemNB` or ends while another one holds the semaphore. -/
theorem conserved_iff_keepsPermit (retry : Bool) (tr : List (Event ι × State ι))
    (hrun : AllSteps (Step ⟨true, retry⟩) initial tr) :
    Always Conserved initial tr ↔ StepsMeet KeepsPermit initial tr := by
  refine always_iff_allSteps (permitInv_step _ rfl) ?_ (fun _ h => h.conserved) initial tr
    permitInv_initial hrun
  rintro s e s' h hlose ⟨hen, rfl⟩
  cases e with
  | exit p => exact not_conserved_exit s h _ p hen hlose
  | reserve p => exact absurd trivial hlose
  | reserved p => exact absurd trivial hlose
  | interrupted p => exact absurd trivial hlose
  | reserveNB p => exact absurd trivial hlose
  | release p => exact absurd trivial hlose

/-- The semaphore goes from one process to another, which reserves it without
    waiting, and the first one ends. -/
def handOver : List (Event Nat) :=
  [.reserve 1, .reserved 1, .reserveNB 2, .release 1, .reserveNB 2, .exit 1, .release 2]

theorem conserved_iff_keepsPermit_handOver :
    Always Conserved initial (record (next ⟨true, true⟩) initial handOver) ↔
      StepsMeet KeepsPermit initial (record (next ⟨true, true⟩) initial handOver) := by
  refine conserved_iff_keepsPermit true _ (allSteps_record (Enabled ⟨true, true⟩) _ _ _ ?_)
  refine ⟨rfl, ⟨rfl, fun h => ?_⟩, rfl, ⟨rfl, List.mem_cons_self⟩, rfl, Pc.noConfusion,
    ⟨rfl, List.mem_cons_self⟩, trivial⟩
  cases h

/-- A process reserves the semaphore without waiting and ends. -/
def reserveNBExit : List (Event Nat) := [.reserveNB 1, .exit 1]

/-- At the end the value is zero and nobody holds the semaphore. -/
theorem reserveNBExit_loses :
    ¬ ∀ tr : List (Event Nat × State Nat), AllSteps (Step ⟨true, true⟩) initial tr →
      Always Conserved initial tr := by
  intro hall
  have h := hall (record (next ⟨true, true⟩) initial reserveNBExit)
    (allSteps_record (Enabled ⟨true, true⟩) _ _ _ ⟨rfl, Pc.noConfusion, trivial⟩)
  have hlast : (0 : Int) + 0 = 1 := always_last _ _ h
  omega

end BinarySem

end TlpiPractice
