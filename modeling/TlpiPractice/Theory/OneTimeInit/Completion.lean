import Mathlib.Algebra.Group.Action.Defs
import TlpiPractice.Library.Reach
import TlpiPractice.Theory.OneTimeInit.Once

/-!
# Calls that Return

That no call of `one_time_init` waits for ever, as long as the functions that
are passed to it return.

A call takes at most eight steps, so once no thread calls it any more, no run
is longer than eight steps for each thread. Such a run cannot stop early
either: the thread that holds the mutex can always go on, and when nobody holds
it, every thread can. When nothing but a new call can happen, all calls have
returned, the mutex is free, and if there has been any call at all, the flag is
set and some thread's `init` has run.

## Main definitions

* `IsCall`: The events that start a call.
* `left`: How many steps of its call a thread has left.
* `CallInv`: The invariant, which counts the steps.
* `Completed`: All calls have returned.

## Theorems

* `allLeft_next`: Every step but a call leaves less to do.
* `callInv_step`: Every step keeps the invariant.
* `idle_of_stuck`: Nothing is stuck in a call.
* `calls_complete`: Every call returns.
-/

namespace TlpiPractice

namespace OneTimeInit

open Mutex Runs

variable {ι φ : Type}

/-- The events that start a call. -/
def IsCall : Event ι φ → Prop
  | .call _ _ => True
  | _ => False

/-- How many steps of its call a thread has left, at most. -/
def left : Pc φ → Nat
  | .idle => 0
  | .testing _ => 8
  | .locking _ => 7
  | .retesting _ => 6
  | .calling _ => 5
  | .running => 4
  | .setting => 3
  | .unlocking => 2
  | .returning => 1

/-- The holder of the mutex is in the protected code. -/
def HolderInside (s : State ι φ) : Prop := ∀ t, s.lock = some t → (s.pc t).Inside

/-- After `n` steps: besides the invariant, the mutex is given back in time,
    and what has been called shows. -/
structure CallInv (n : Nat) (s : State ι φ) : Prop where
  once : ∃ g, OnceInv g s
  holder : HolderInside s
  called : 0 < n → s.inited = 1 ∨ ∃ t, 0 < left (s.pc t)

/-- All calls have returned, and one of them has run its function. -/
structure Completed (s : State ι φ) : Prop where
  inited : s.inited = 1
  lock : s.lock = none
  idle : ∀ t, s.pc t = .idle
  initRun : InitRun s

theorem left_le (p : Pc φ) : left p ≤ 8 := by
  cases p <;> exact Nat.le_of_ble_eq_true rfl

theorem callInv_initial : CallInv 0 (initial : State ι φ) where
  once := ⟨.untouched, onceInv_initial⟩
  holder := fun _ ht => (Option.some_ne_none _ ht.symm).elim
  called := fun h => (Nat.lt_irrefl 0 h).elim

/-- When all threads are out of the function, the shared fields say what has
    happened. -/
theorem completed_of_idle (n : Nat) (s : State ι φ) (h : CallInv n s) (hn : 0 < n)
    (hidle : ∀ t, s.pc t = .idle) : Completed s := by
  have hinited : s.inited = 1 := by
    rcases h.called hn with hset | ⟨t, ht⟩
    · exact hset
    · rw [hidle t] at ht
      exact absurd ht (Nat.lt_irrefl 0)
  rcases h.once with ⟨g, hg⟩
  have hcounts := hg.counts
  refine ⟨hinited, ?_, hidle, ?_⟩
  · cases hlock : s.lock with
    | none => rfl
    | some t =>
        have hin := h.holder t hlock
        rw [hidle t] at hin
        exact hin.elim
  · cases g with
    | published => exact hcounts.2
    | untouched => exact absurd (hinited.symm.trans hcounts.1) Int.one_ne_zero
    | running => exact absurd (hinited.symm.trans hcounts.1) Int.one_ne_zero
    | finished => exact absurd (hinited.symm.trans hcounts.1) Int.one_ne_zero

/-- Nothing is stuck in a call: the holder of the mutex can go on, and so can
    everybody when it is free. -/
theorem idle_of_stuck (n : Nat) (s : State ι φ) (h : CallInv n s)
    (hstuck : ∀ e, Enabled s e → IsCall e) (t : ι) : s.pc t = .idle := by
  have hinside : ∀ u, ¬ (s.pc u).Inside := by
    intro u hu
    cases hpc : s.pc u with
    | retesting init => exact hstuck (.retest u) ⟨init, hpc⟩
    | calling init => exact hstuck (.startInit u) ⟨init, hpc⟩
    | running => exact hstuck (.endInit u) hpc
    | setting => exact hstuck (.setInited u) hpc
    | unlocking => exact hstuck (.unlock u) hpc
    | idle => exact (hpc ▸ hu : (Pc.idle : Pc φ).Inside)
    | testing init => exact (hpc ▸ hu : (Pc.testing init).Inside)
    | locking init => exact (hpc ▸ hu : (Pc.locking init).Inside)
    | returning => exact (hpc ▸ hu : (Pc.returning : Pc φ).Inside)
  have hfree : s.lock = none := by
    cases hlock : s.lock with
    | none => rfl
    | some u => exact absurd (h.holder u hlock) (hinside u)
  cases hpc : s.pc t with
  | idle => rfl
  | testing init => exact (hstuck (.test t) ⟨init, hpc⟩).elim
  | locking init => exact (hstuck (.lock t) ⟨⟨init, hpc⟩, hfree⟩).elim
  | returning => exact (hstuck (.ret t) hpc).elim
  | retesting init => exact absurd (hpc ▸ trivial) (hinside t)
  | calling init => exact absurd (hpc ▸ trivial) (hinside t)
  | running => exact absurd (hpc ▸ trivial) (hinside t)
  | setting => exact absurd (hpc ▸ trivial) (hinside t)
  | unlocking => exact absurd (hpc ▸ trivial) (hinside t)

variable [DecidableEq ι]

/-- A thread that moves within the protected code, or does not hold the mutex. -/
theorem holder_move (s : State ι φ) (t : ι) (p : Pc φ) (h : HolderInside s)
    (hp : (s.pc t).Inside → p.Inside) :
    ∀ u, s.lock = some u → (Function.update s.pc t p u).Inside := by
  intro u hu
  by_cases hut : u = t
  · subst hut
    rw [Function.update_self]
    exact hp (h u hu)
  · rw [Function.update_of_ne hut]
    exact h u hu

theorem holder_step (s : State ι φ) (e : Event ι φ) (h : HolderInside s) (hen : Enabled s e) :
    HolderInside (next s e) := by
  cases e with
  | call t init =>
      refine holder_move s t _ h ?_
      rw [hen]
      exact False.elim
  | test t =>
      rcases hen with ⟨init, ht⟩
      simp only [next, ht]
      refine holder_move s t _ h ?_
      rw [ht]
      exact False.elim
  | lock t =>
      rcases hen with ⟨⟨init, ht⟩, _⟩
      simp only [next, ht]
      intro u hu
      obtain rfl : t = u := Option.some.inj hu
      show (Function.update s.pc t (.retesting init) t).Inside
      rw [Function.update_self]
      exact trivial
  | retest t =>
      rcases hen with ⟨init, ht⟩
      simp only [next, ht]
      refine holder_move s t _ h (fun _ => ?_)
      unfold afterRetest
      split
      · exact trivial
      · exact trivial
  | startInit t =>
      rcases hen with ⟨init, ht⟩
      simp only [next, ht]
      exact holder_move s t _ h (fun _ => trivial)
  | endInit t => exact holder_move s t _ h (fun _ => trivial)
  | setInited t => exact holder_move s t _ h (fun _ => trivial)
  | unlock t => exact fun u hu => (Option.some_ne_none _ hu.symm).elim
  | ret t =>
      refine holder_move s t _ h ?_
      rw [hen]
      exact False.elim

/-- Every step but the last of a call leaves its thread in the call. -/
theorem busy_of_update (pc : ι → Pc φ) (t : ι) (p : Pc φ) (hp : 0 < left p) :
    ∃ u, 0 < left (Function.update pc t p u) :=
  ⟨t, by rw [Function.update_self]; exact hp⟩

/-- After a step the flag is set or somebody is in a call. -/
theorem called_step (s : State ι φ) (e : Event ι φ) (h : ∃ g, OnceInv g s) (hen : Enabled s e) :
    (next s e).inited = 1 ∨ ∃ t, 0 < left ((next s e).pc t) := by
  cases e with
  | call t init => exact .inr (busy_of_update s.pc t _ (Nat.succ_pos _))
  | test t =>
      rcases hen with ⟨init, ht⟩
      simp only [next, ht]
      refine .inr (busy_of_update s.pc t _ ?_)
      unfold afterTest
      split
      · exact Nat.succ_pos _
      · exact Nat.succ_pos _
  | lock t =>
      rcases hen with ⟨⟨init, ht⟩, _⟩
      simp only [next, ht]
      exact .inr (busy_of_update s.pc t _ (Nat.succ_pos _))
  | retest t =>
      rcases hen with ⟨init, ht⟩
      simp only [next, ht]
      refine .inr (busy_of_update s.pc t _ ?_)
      unfold afterRetest
      split
      · exact Nat.succ_pos _
      · exact Nat.succ_pos _
  | startInit t =>
      rcases hen with ⟨init, ht⟩
      simp only [next, ht]
      exact .inr (busy_of_update s.pc t _ (Nat.succ_pos _))
  | endInit t => exact .inr (busy_of_update s.pc t _ (Nat.succ_pos _))
  | setInited t => exact .inl rfl
  | unlock t => exact .inr (busy_of_update s.pc t _ (Nat.succ_pos _))
  | ret t =>
      -- A thread that returns has seen the flag set.
      rcases h with ⟨g, hg⟩
      have hpub := published_of_done hg t (.inr hen)
      subst hpub
      exact .inl hg.counts.1

theorem callInv_step (n : Nat) (s : State ι φ) (e : Event ι φ) (s' : State ι φ)
    (h : CallInv n s) (hstep : Step s e s') : CallInv (n + 1) s' := by
  refine ⟨onceInv_step s e s' h.once hstep, ?_, fun _ => ?_⟩
  · rw [hstep.2]
    exact holder_step s e h.holder hstep.1
  · rw [hstep.2]
    exact called_step s e h.once hstep.1

variable [Fintype ι]

/-- What all threads have left to do. -/
def allLeft (s : State ι φ) : Nat := ∑ t, left (s.pc t)

omit [DecidableEq ι] in
theorem allLeft_le (s : State ι φ) : allLeft s ≤ 8 * Fintype.card ι := by
  have hsum := Finset.sum_le_card_nsmul Finset.univ (fun t => left (s.pc t)) 8
    (fun t _ => left_le (s.pc t))
  rw [Finset.card_univ, smul_eq_mul] at hsum
  unfold allLeft
  omega

/-- Every step but a call leaves less to do. -/
theorem allLeft_next (s : State ι φ) (e : Event ι φ) (hen : Enabled s e) (hcall : ¬ IsCall e) :
    allLeft (next s e) < allLeft s := by
  have hone : ∀ t p q, s.pc t = q → left p < left q →
      ∑ u, left (Function.update s.pc t p u) < allLeft s := by
    intro t p q hq hless
    exact sum_update_lt left s.pc t p (hq ▸ hless)
  cases e with
  | call t init => exact absurd trivial hcall
  | test t =>
      rcases hen with ⟨init, ht⟩
      simp only [next, ht]
      refine hone t _ _ ht ?_
      unfold afterTest
      split
      · exact Nat.lt_succ_self 7
      · exact Nat.lt_of_sub_eq_succ rfl
  | lock t =>
      rcases hen with ⟨⟨init, ht⟩, _⟩
      simp only [next, ht]
      exact hone t _ _ ht (Nat.lt_succ_self 6)
  | retest t =>
      rcases hen with ⟨init, ht⟩
      simp only [next, ht]
      refine hone t _ _ ht ?_
      unfold afterRetest
      split
      · exact Nat.lt_succ_self 5
      · exact Nat.lt_of_sub_eq_succ rfl
  | startInit t =>
      rcases hen with ⟨init, ht⟩
      simp only [next, ht]
      exact hone t _ _ ht (Nat.lt_succ_self 4)
  | endInit t => exact hone t _ _ hen (Nat.lt_succ_self 3)
  | setInited t => exact hone t _ _ hen (Nat.lt_succ_self 2)
  | unlock t => exact hone t _ _ hen (Nat.lt_succ_self 1)
  | ret t => exact hone t _ _ hen (Nat.lt_succ_self 0)

/-- Once there are no new calls, every run is short, and it can only stop when
    all calls have returned and, if there was any, one function has run. -/
theorem calls_complete (tr tr' : List (Event ι φ × State ι φ))
    (hrun : AllSteps Step initial tr) (hrun' : AllSteps Step (lastState initial tr) tr')
    (hquiet : StepsMeet (fun _ e => ¬ IsCall e) (lastState initial tr) tr') :
    tr'.length ≤ 8 * Fintype.card ι ∧
      ((∀ e, Enabled (lastState (lastState initial tr) tr') e → IsCall e) → tr ≠ [] →
        Completed (lastState (lastState initial tr) tr')) := by
  have hquietRun := allSteps_and _ _ hrun' hquiet
  constructor
  · have hlen := length_le_of_decreasing (fun _ _ _ _ _ => trivial)
      (fun s e s' _ hq => hq.1.2 ▸ allLeft_next s e hq.1.1 hq.2) _ tr' trivial hquietRun
    exact hlen.trans (allLeft_le _)
  · intro hstuck hsome
    have hfirst := counted_of_allSteps callInv_step 0 initial tr callInv_initial hrun
    have hlast := counted_of_allSteps callInv_step _ _ tr' hfirst hrun'
    refine completed_of_idle _ _ hlast ?_ (idle_of_stuck _ _ hlast hstuck)
    have hpos := List.length_pos_iff.mpr hsome
    omega

/-- The first two events of `twoCallers`, and then the others. -/
theorem calls_complete_twoCallers :
    (record next (lastState initial (record next initial (twoCallers.take 2)))
        (twoCallers.drop 2)).length ≤ 8 * Fintype.card Bool ∧
      ((∀ e, Enabled (lastState (lastState initial (record next initial (twoCallers.take 2)))
          (record next (lastState initial (record next initial (twoCallers.take 2)))
            (twoCallers.drop 2))) e → IsCall e) →
        record next initial (twoCallers.take 2) ≠ [] →
        Completed (lastState (lastState initial (record next initial (twoCallers.take 2)))
          (record next (lastState initial (record next initial (twoCallers.take 2)))
            (twoCallers.drop 2)))) := by
  refine calls_complete _ _ (allSteps_record Enabled next _ _ ⟨rfl, rfl, trivial⟩)
    (allSteps_record Enabled next _ _ ?_) ?_
  · exact ⟨⟨_, rfl⟩, ⟨_, rfl⟩, ⟨⟨_, rfl⟩, rfl⟩, ⟨_, rfl⟩, ⟨_, rfl⟩, rfl, rfl, rfl,
      ⟨⟨_, rfl⟩, rfl⟩, ⟨_, rfl⟩, rfl, rfl, rfl, trivial⟩
  · exact ⟨id, id, id, id, id, id, id, id, id, id, id, id, id, trivial⟩

end OneTimeInit

end TlpiPractice
