import Mathlib.Algebra.Order.BigOperators.Group.Finset
import TlpiPractice.Library.Runs

/-!
# Where Runs Lead

What some run of a transition system can come to, and that its runs come to
an end.

`CanReach` is the side of a system that a safety result says nothing about: a
state with a property is really reached by some run. Such a run is put
together from parts, each of which leads from one description of the state to
the next, so the rules are those of a sequence, of a loop and of a single
step. An invariant limits what can be reached, and the two together give the
exact outcomes of a system.

A system whose steps make a number smaller has no run longer than this number
(`length_le_of_decreasing`). If it is also never stuck before its goal, every
run can be completed to one that comes to it (`canReach_of_progress`).

## Main definitions

* `CanReach`: Some run leads to a state with a property.

## Theorems

* `canReach_trans`: One part of a run after the other.
* `canReach_iterate`: A part that is repeated.
* `exists_of_canReach`: What is reached satisfies the invariants.
* `counted_of_allSteps`: An invariant that counts the steps.
* `length_le_of_decreasing`: Runs are not longer than a number that gets
  smaller.
* `canReach_of_progress`: A run that is never stuck comes to its goal.
* `sum_update_lt`: What all threads have left to do gets less with every step
  of one of them.
-/

namespace Runs

variable {σ ε : Type*}

/-- Some run from `s` ends in a state with the property `P`. -/
def CanReach (Q : σ → ε → σ → Prop) (s : σ) (P : σ → Prop) : Prop :=
  ∃ tr, AllSteps Q s tr ∧ P (lastState s tr)

theorem allSteps_append {Q : σ → ε → σ → Prop} (s : σ) (tr tr' : List (ε × σ))
    (h : AllSteps Q s tr) (h' : AllSteps Q (lastState s tr) tr') : AllSteps Q s (tr ++ tr') := by
  induction tr generalizing s with
  | nil => exact h'
  | cons p tr ih => exact ⟨h.1, ih p.2 h.2 h'⟩

theorem lastState_append (s : σ) (tr tr' : List (ε × σ)) :
    lastState s (tr ++ tr') = lastState (lastState s tr) tr' := by
  induction tr generalizing s with
  | nil => rfl
  | cons p tr ih => exact ih p.2

section Rules

variable {Q : σ → ε → σ → Prop} {s : σ} {P R : σ → Prop}

theorem canReach_here (h : P s) : CanReach Q s P := ⟨[], trivial, h⟩

theorem canReach_step (e : ε) (s' : σ) (hq : Q s e s') (h : CanReach Q s' P) :
    CanReach Q s P := by
  rcases h with ⟨tr, hrun, hp⟩
  exact ⟨(e, s') :: tr, ⟨hq, hrun⟩, hp⟩

theorem canReach_trans (h : CanReach Q s P) (h' : ∀ s', P s' → CanReach Q s' R) :
    CanReach Q s R := by
  rcases h with ⟨tr, hrun, hp⟩
  rcases h' _ hp with ⟨tr', hrun', hr⟩
  refine ⟨tr ++ tr', allSteps_append s tr tr' hrun hrun', ?_⟩
  rw [lastState_append]
  exact hr

theorem canReach_mono (h : CanReach Q s P) (h' : ∀ s', P s' → R s') : CanReach Q s R :=
  canReach_trans h (fun s' hp => canReach_here (h' s' hp))

/-- A part of a run that can be repeated up to a number of times. -/
theorem canReach_iterate {I : Nat → σ → Prop} (n : Nat) (hs : I 0 s)
    (hstep : ∀ k < n, ∀ s', I k s' → CanReach Q s' (I (k + 1))) : CanReach Q s (I n) := by
  induction n with
  | zero => exact canReach_here hs
  | succ n ih =>
      refine canReach_trans (ih (fun k hk => hstep k (Nat.lt_succ_of_lt hk))) ?_
      exact hstep n (Nat.lt_succ_self n)

/-- An invariant holds of what is reached. -/
theorem exists_of_canReach {Inv : σ → Prop} (hstep : ∀ s e s', Inv s → Q s e s' → Inv s')
    (hs : Inv s) (h : CanReach Q s P) : ∃ s', Inv s' ∧ P s' := by
  rcases h with ⟨tr, hrun, hp⟩
  exact ⟨_, always_last s tr (always_of_allSteps hstep s tr hs hrun), hp⟩

end Rules

/-- An invariant may mention how many steps have been taken. -/
theorem counted_of_allSteps {Q : σ → ε → σ → Prop} {I : Nat → σ → Prop}
    (hstep : ∀ n s e s', I n s → Q s e s' → I (n + 1) s') (n : Nat) (s : σ)
    (tr : List (ε × σ)) (hs : I n s) (hrun : AllSteps Q s tr) :
    I (n + tr.length) (lastState s tr) := by
  induction tr generalizing n s with
  | nil => exact hs
  | cons p tr ih =>
      have hrest := ih (n + 1) p.2 (hstep _ _ _ _ hs hrun.1) hrun.2
      rw [List.length_cons, Nat.add_comm tr.length, ← Nat.add_assoc]
      exact hrest

section Endings

variable {Q : σ → ε → σ → Prop} {Inv : σ → Prop} {measure : σ → Nat}

/-- If every step makes a number smaller, no run is longer than the number. -/
theorem length_le_of_decreasing (hstep : ∀ s e s', Inv s → Q s e s' → Inv s')
    (hless : ∀ s e s', Inv s → Q s e s' → measure s' < measure s) (s : σ) (tr : List (ε × σ))
    (hs : Inv s) (hrun : AllSteps Q s tr) : tr.length ≤ measure s := by
  induction tr generalizing s with
  | nil => exact Nat.zero_le _
  | cons p tr ih =>
      have hrest := ih p.2 (hstep _ _ _ hs hrun.1) hrun.2
      have hone := hless _ _ _ hs hrun.1
      rw [List.length_cons]
      omega

/-- If there is always a step that makes a number smaller, until a goal is
    reached, then the goal can be reached. -/
theorem canReach_of_progress {P : σ → Prop}
    (hprogress : ∀ s, Inv s → P s ∨ ∃ e s', Q s e s' ∧ Inv s' ∧ measure s' < measure s) (s : σ)
    (hs : Inv s) : CanReach Q s P := by
  induction h : measure s using Nat.strongRecOn generalizing s with
  | ind n ih =>
      rcases hprogress s hs with hp | ⟨e, s', hq, hs', hless⟩
      · exact canReach_here hp
      · exact canReach_step e s' hq (ih (measure s') (h ▸ hless) s' hs' rfl)

/-- What all threads together have left to do gets less when one of them goes
    on. -/
theorem sum_update_lt {ι κ : Type*} [Fintype ι] [DecidableEq ι] (left : κ → Nat) (pc : ι → κ)
    (t : ι) (p : κ) (h : left p < left (pc t)) :
    ∑ u, left (Function.update pc t p u) < ∑ u, left (pc u) := by
  refine Finset.sum_lt_sum (fun u _ => ?_) ⟨t, Finset.mem_univ t, ?_⟩
  · by_cases hut : u = t
    · subst hut
      rw [Function.update_self]
      exact h.le
    · rw [Function.update_of_ne hut]
  · rw [Function.update_self]
    exact h

end Endings

end Runs
