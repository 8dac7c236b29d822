import TlpiPractice.Core.SimpleThread
import TlpiPractice.Library.Ints

/-!
# What Two Counting Threads Can Come To

The numbers that the program can print at its end, for every order of the
steps of its threads.

No number is larger than the stores so far, as a thread stores one more than
some earlier number. That is the upper bound, and it shows that the additions
stay in the range of an `int`. For the lower bound it matters that a number is
at least one as soon as anything has been stored: what a thread stores after
its first turn is then at least two. When both have ended the last store was
the last one of a thread, so unless there is one turn only, the number is at
least two, however many turns there were.

All numbers in between are printed in some run. A thread that has loaded the
number and waits undoes all that the other one does meanwhile. In `lossy` the
second thread does this to some turns of the first one, and before that the
first thread to some turns of the second.

## Main definitions

* `stores`: How often a thread has stored.
* `Inv`: What holds in every state.
* `Pair`: Where both threads stand while `main` waits.

## Theorems

* `inv_step`: A step keeps the invariant.
* `noOverflow_of_inv`: No addition leaves the range of an `int`.
* `pair_turn`: A turn that is not disturbed.
* `prints_iff`: The numbers that can be printed.
-/

namespace TlpiPractice

namespace SimpleThread

open Runs Ints

/-- How often a thread has stored. -/
def stores (loops : Nat) : Pc → Nat
  | .notCreated => 0
  | .testing j => j
  | .loading j => j
  | .adding j _ => j
  | .storing j _ => j
  | .printing j => j + 1
  | .ended => loops

/-- How often both have stored. -/
def done (loops : Nat) (pc : Thread → Pc) : Nat := stores loops (pc .t1) + stores loops (pc .t2)

/-- What is known of a thread, after so many stores of both. What it has loaded
    is not zero if it has stored before. -/
def LocalOk (loops total : Nat) : Pc → Prop
  | .notCreated => True
  | .testing j => j ≤ loops
  | .loading j => j < loops
  | .adding j loc => j < loops ∧ 0 ≤ loc ∧ (0 < j → 1 ≤ loc) ∧ loc ≤ total
  | .storing j loc => j < loops ∧ 1 ≤ loc ∧ (0 < j → 2 ≤ loc) ∧ loc ≤ total + 1
  | .printing j => j < loops
  | .ended => True

/-- What `main` knows of the threads. -/
def MainOk : MainPc → (Thread → Pc) → Prop
  | .createFirst, pc => ∀ t, pc t = .notCreated
  | .createSecond, pc => pc .t2 = .notCreated
  | .joinFirst, _ => True
  | .joinSecond, pc => pc .t1 = .ended
  | .printing, pc => ∀ t, pc t = .ended
  | .exited, pc => ∀ t, pc t = .ended

/-- What holds in every state. -/
structure Inv (loops : Nat) (s : State) : Prop where
  threads : ∀ t, LocalOk loops (done loops s.pc) (s.pc t)
  nonneg : 0 ≤ s.glob
  le : s.glob ≤ done loops s.pc
  once : 0 < done loops s.pc → 1 ≤ s.glob
  both : (∀ t, stores loops (s.pc t) = loops) → (min loops 2 : Nat) ≤ s.glob
  main : MainOk s.main s.pc
  printed : s.main = .exited → s.out.getLast? = some (.total s.glob)

/-! ### The invariant -/

theorem done_update (loops : Nat) (pc : Thread → Pc) (t : Thread) (p : Pc) :
    done loops (Function.update pc t p) + stores loops (pc t) =
      done loops pc + stores loops p := by
  unfold done
  cases t with
  | t1 =>
      rw [Function.update_self, Function.update_of_ne (by decide)]
      omega
  | t2 =>
      rw [Function.update_self, Function.update_of_ne (by decide)]
      omega

theorem localOk_mono (loops total total' : Nat) (p : Pc) (h : total ≤ total')
    (hp : LocalOk loops total p) : LocalOk loops total' p := by
  cases p with
  | adding j loc => exact ⟨hp.1, hp.2.1, hp.2.2.1, by have := hp.2.2.2; omega⟩
  | storing j loc => exact ⟨hp.1, hp.2.1, hp.2.2.1, by have := hp.2.2.2; omega⟩
  | _ => exact hp

/-- One thread goes on, and there may be more stores. -/
theorem localOk_update (loops total total' : Nat) (pc : Thread → Pc) (t : Thread) (p : Pc)
    (hpc : ∀ u, LocalOk loops total (pc u)) (h : total ≤ total') (hp : LocalOk loops total' p)
    (u : Thread) : LocalOk loops total' (Function.update pc t p u) := by
  by_cases hu : u = t
  · rw [hu, Function.update_self]
    exact hp
  · rw [Function.update_of_ne hu]
    exact localOk_mono loops total total' _ h (hpc u)

theorem mainOk_update (m : MainPc) (pc : Thread → Pc) (t : Thread) (p : Pc)
    (hlive : pc t ≠ .notCreated ∧ pc t ≠ .ended) (h : MainOk m pc) :
    MainOk m (Function.update pc t p) ∧ m ≠ .exited := by
  cases m with
  | createFirst => exact absurd (h t) hlive.1
  | createSecond =>
      refine ⟨?_, by decide⟩
      cases t with
      | t1 =>
          rw [MainOk, Function.update_of_ne (by decide)]
          exact h
      | t2 => exact absurd h hlive.1
  | joinFirst => exact ⟨trivial, by decide⟩
  | joinSecond =>
      refine ⟨?_, by decide⟩
      cases t with
      | t1 => exact absurd h hlive.2
      | t2 =>
          rw [MainOk, Function.update_of_ne (by decide)]
          exact h
  | printing => exact absurd (h t) hlive.2
  | exited => exact absurd (h t) hlive.2

section ThreadStep

variable (loops : Nat) (s : State) (t : Thread) (p : Pc) (hi : Inv loops s)
  (hlive : s.pc t ≠ .notCreated ∧ s.pc t ≠ .ended)
include hi hlive

/-- A step of a thread that stores nothing. -/
theorem inv_move (out : List Line) (hp : LocalOk loops (done loops s.pc) p)
    (hsame : stores loops p = stores loops (s.pc t)) :
    Inv loops { s with pc := Function.update s.pc t p, out := out } := by
  have hdone : done loops (Function.update s.pc t p) = done loops s.pc := by
    have := done_update loops s.pc t p
    omega
  rcases mainOk_update s.main s.pc t p hlive hi.main with ⟨hmain, hexit⟩
  have hstores : ∀ u, stores loops (Function.update s.pc t p u) = stores loops (s.pc u) := by
    intro u
    by_cases hu : u = t
    · rw [hu, Function.update_self, hsame]
    · rw [Function.update_of_ne hu]
  refine ⟨?_, hi.nonneg, ?_, ?_, ?_, hmain, fun h => absurd h hexit⟩
  · rw [hdone]
    exact localOk_update loops _ _ s.pc t p hi.threads (Nat.le_refl _) hp
  · rw [hdone]
    exact hi.le
  · rw [hdone]
    exact hi.once
  · intro h
    exact hi.both (fun u => (hstores u).symm.trans (h u))

/-- A store. -/
theorem inv_store (j : Nat) (loc : Int) (hpc : s.pc t = .storing j loc) :
    Inv loops { s with pc := Function.update s.pc t (.printing j), glob := loc } := by
  have hlocal := hi.threads t
  rw [hpc] at hlocal
  rcases hlocal with ⟨hj, hone, htwo, hle⟩
  have hdone : done loops (Function.update s.pc t (.printing j)) = done loops s.pc + 1 := by
    have := done_update loops s.pc t (.printing j)
    rw [hpc, stores, stores] at this
    omega
  rcases mainOk_update s.main s.pc t (.printing j) hlive hi.main with ⟨hmain, hexit⟩
  have hnonneg : 0 ≤ loc := by omega
  refine ⟨?_, hnonneg, ?_, fun _ => hone, fun h => ?_, hmain, fun h => absurd h hexit⟩
  · rw [hdone]
    exact localOk_update loops _ _ s.pc t _ hi.threads (Nat.le_succ _) hj
  · rw [hdone]
    exact hle
  · -- The last store of a thread is not its first, unless there is one only.
    have hlast : stores loops (Function.update s.pc t (.printing j) t) = loops := h t
    rw [Function.update_self, stores] at hlast
    have hmin : (min loops 2 : Nat) ≤ loc := by
      by_cases hzero : j = 0
      · omega
      · have := htwo (Nat.pos_of_ne_zero hzero)
        omega
    exact hmin

/-- Every step of a thread keeps the invariant. -/
theorem inv_threadFunc : Inv loops (threadFunc loops s t) := by
  have hlocal := hi.threads t
  unfold threadFunc
  cases hpc : s.pc t with
  | notCreated => exact absurd hpc hlive.1
  | ended => exact absurd hpc hlive.2
  | testing j =>
      rw [hpc, LocalOk] at hlocal
      by_cases hj : j < loops
      · simp only [hj, if_true]
        exact inv_move loops s t (.loading j) hi hlive s.out hj (by rw [hpc]; rfl)
      · simp only [hj, if_false]
        refine inv_move loops s t .ended hi hlive s.out trivial ?_
        rw [hpc, stores, stores]
        omega
  | loading j =>
      rw [hpc, LocalOk] at hlocal
      refine inv_move loops s t (.adding j s.glob) hi hlive s.out ?_ (by rw [hpc]; rfl)
      refine ⟨hlocal, hi.nonneg, fun hpos => hi.once ?_, hi.le⟩
      -- The thread has stored before, and so something has been stored.
      have hstores : stores loops (s.pc t) = j := by rw [hpc, stores]
      unfold done
      cases t with
      | t1 => omega
      | t2 => omega
  | adding j loc =>
      rw [hpc, LocalOk] at hlocal
      refine inv_move loops s t (.storing j (loc + 1)) hi hlive s.out ?_ (by rw [hpc]; rfl)
      exact ⟨hlocal.1, by omega, fun h => by have := hlocal.2.2.1 h; omega, by omega⟩
  | storing j loc => exact inv_store loops s t hi hlive j loc hpc
  | printing j =>
      rw [hpc, LocalOk] at hlocal
      exact inv_move loops s t (.testing (j + 1)) hi hlive _ hlocal (by rw [hpc]; rfl)

end ThreadStep

/-- Every step of `main` keeps the invariant. -/
theorem inv_mainFunc (loops : Nat) (hloops : 0 < loops) (s : State) (hi : Inv loops s)
    (hen : Enabled s .main) : Inv loops (mainFunc s) := by
  have hcreate : ∀ t m, s.pc t = .notCreated →
      MainOk m (Function.update s.pc t (.testing 0)) → m ≠ .exited →
      Inv loops { s with pc := Function.update s.pc t (.testing 0), main := m } := by
    intro t m hpc hmain hexit
    have hdone : done loops (Function.update s.pc t (.testing 0)) = done loops s.pc := by
      have := done_update loops s.pc t (.testing 0)
      rw [hpc, stores, stores] at this
      omega
    refine ⟨?_, hi.nonneg, ?_, ?_, fun h => ?_, hmain, fun h => absurd h hexit⟩
    · rw [hdone]
      exact localOk_update loops _ _ s.pc t _ hi.threads (Nat.le_refl _) (Nat.zero_le _)
    · rw [hdone]
      exact hi.le
    · rw [hdone]
      exact hi.once
    · -- A new thread has turns to do.
      have hnone : stores loops (Function.update s.pc t (.testing 0) t) = loops := h t
      rw [Function.update_self, stores] at hnone
      omega
  have hmain := hi.main
  unfold mainFunc
  cases hm : s.main with
  | createFirst =>
      rw [hm, MainOk] at hmain
      refine hcreate .t1 .createSecond (hmain .t1) ?_ (by decide)
      rw [MainOk, Function.update_of_ne (by decide)]
      exact hmain .t2
  | createSecond =>
      rw [hm, MainOk] at hmain
      exact hcreate .t2 .joinFirst hmain trivial (by decide)
  | joinFirst =>
      rw [Enabled, hm] at hen
      exact ⟨hi.threads, hi.nonneg, hi.le, hi.once, hi.both, hen, nofun⟩
  | joinSecond =>
      rw [Enabled, hm] at hen
      rw [hm, MainOk] at hmain
      refine ⟨hi.threads, hi.nonneg, hi.le, hi.once, hi.both, fun t => ?_, nofun⟩
      cases t with
      | t1 => exact hmain
      | t2 => exact hen
  | printing =>
      rw [hm, MainOk] at hmain
      exact ⟨hi.threads, hi.nonneg, hi.le, hi.once, hi.both, hmain,
        fun _ => List.getLast?_concat⟩
  | exited =>
      rw [Enabled, hm] at hen
      exact hen.elim

theorem inv_step (loops : Nat) (hloops : 0 < loops) (s : State) (e : Event) (s' : State)
    (hi : Inv loops s) (hstep : Step loops s e s') : Inv loops s' := by
  rcases hstep with ⟨hen, rfl⟩
  cases e with
  | thread t => exact inv_threadFunc loops s t hi hen
  | main => exact inv_mainFunc loops hloops s hi hen

theorem inv_initial (loops : Nat) (hloops : 0 < loops) : Inv loops initial := by
  refine ⟨fun _ => trivial, Int.le_refl 0, Int.le_refl 0, fun h => ?_, fun h => ?_,
    fun _ => rfl, nofun⟩
  · exact absurd h (Nat.lt_irrefl 0)
  · have hzero : 0 = loops := h .t1
    omega

/-- No addition has a result that is not an `int`. -/
def NoOverflow (s : State) : Prop := ∀ t j loc, s.pc t = .adding j loc → InRange (loc + 1)

theorem stores_le (loops total : Nat) (p : Pc) (h : LocalOk loops total p) :
    stores loops p ≤ loops := by
  cases p with
  | notCreated => exact Nat.zero_le _
  | testing j => exact h
  | loading j => exact Nat.le_of_lt h
  | adding j loc => exact Nat.le_of_lt h.1
  | storing j loc => exact Nat.le_of_lt h.1
  | printing j => exact h
  | ended => exact Nat.le_refl _

theorem noOverflow_of_inv (loops : Nat) (hfits : (2 * loops : Nat) ≤ intMax) (s : State)
    (hi : Inv loops s) : NoOverflow s := by
  intro t j loc hpc
  have hlocal := hi.threads t
  rw [hpc] at hlocal
  rcases hlocal with ⟨hj, hnonneg, -, hle⟩
  have h1 := stores_le loops _ _ (hi.threads .t1)
  have h2 := stores_le loops _ _ (hi.threads .t2)
  -- The turn that adds has not stored yet.
  have hlt : stores loops (s.pc t) < loops := by
    rw [hpc]
    exact hj
  have hdone : done loops s.pc < 2 * loops := by
    unfold done
    cases t with
    | t1 => omega
    | t2 => omega
  unfold InRange intMin intMax at *
  omega

/-! ### Runs that lose turns -/

def Thread.other : Thread → Thread
  | .t1 => .t2
  | .t2 => .t1

/-- Both threads have been created, and `main` waits for the first. -/
structure Pair (t : Thread) (p q : Pc) (g : Int) (s : State) : Prop where
  here : s.pc t = p
  there : s.pc t.other = q
  glob : s.glob = g
  main : s.main = .joinFirst

theorem Thread.other_ne (t : Thread) : t.other ≠ t := by
  cases t with
  | t1 => exact nofun
  | t2 => exact nofun

theorem pair_swap (t : Thread) (p q : Pc) (g : Int) (s : State) (h : Pair t p q g s) :
    Pair t.other q p g s := by
  have hback : t.other.other = t := by cases t <;> rfl
  exact ⟨h.there, hback.symm ▸ h.here, h.glob, h.main⟩

/-- Where a thread is after its next step, and the number then. -/
def after (loops : Nat) (g : Int) : Pc → Pc × Int
  | .notCreated => (.notCreated, g)
  | .testing j => (if j < loops then .loading j else .ended, g)
  | .loading j => (.adding j g, g)
  | .adding j loc => (.storing j (loc + 1), g)
  | .storing j loc => (.printing j, loc)
  | .printing j => (.testing (j + 1), g)
  | .ended => (.ended, g)

section Schedule

variable (loops : Nat) (t : Thread) (q : Pc) (g : Int) (s : State)

theorem pair_step (p : Pc) (h : Pair t p q g s) (hlive : p ≠ .notCreated ∧ p ≠ .ended) :
    CanReach (Step loops) s (Pair t (after loops g p).1 q (after loops g p).2) := by
  have hen : Enabled s (.thread t) := by
    rw [Enabled, h.here]
    exact hlive
  refine canReach_step (.thread t) _ ⟨hen, rfl⟩ (canReach_here ?_)
  have hpair : ∀ (r : Pc) (g' : Int) (out : List Line),
      Pair t r q g' { s with pc := Function.update s.pc t r, glob := g', out := out } := by
    intro r g' out
    refine ⟨Function.update_self _ _ _, ?_, rfl, h.main⟩
    exact (Function.update_of_ne t.other_ne _ _).trans h.there
  have hg := h.glob
  unfold next threadFunc
  cases p with
  | notCreated => exact absurd rfl hlive.1
  | ended => exact absurd rfl hlive.2
  | testing j =>
      simp only [h.here, after]
      rw [← hg]
      exact hpair _ _ _
  | loading j =>
      simp only [h.here, after]
      rw [← hg]
      exact hpair _ _ _
  | adding j loc =>
      simp only [h.here, after]
      rw [← hg]
      exact hpair _ _ _
  | storing j loc =>
      simp only [h.here, after]
      exact hpair _ _ _
  | printing j =>
      simp only [h.here, after]
      rw [← hg]
      exact hpair _ _ _

theorem pair_load (j : Nat) (hj : j < loops) (h : Pair t (.testing j) q g s) :
    CanReach (Step loops) s (Pair t (.adding j g) q g) := by
  refine canReach_trans (pair_step loops t q g s _ h ⟨nofun, nofun⟩) (fun s' h' => ?_)
  simp only [after, hj, if_true] at h'
  exact pair_step loops t q g s' _ h' ⟨nofun, nofun⟩

theorem pair_store (j : Nat) (loc : Int) (h : Pair t (.adding j loc) q g s) :
    CanReach (Step loops) s (Pair t (.testing (j + 1)) q (loc + 1)) := by
  refine canReach_trans (pair_step loops t q g s _ h ⟨nofun, nofun⟩) (fun s₁ h₁ => ?_)
  refine canReach_trans (pair_step loops t q g s₁ _ h₁ ⟨nofun, nofun⟩) (fun s₂ h₂ => ?_)
  exact pair_step loops t q (loc + 1) s₂ _ h₂ ⟨nofun, nofun⟩

/-- A turn that is not disturbed adds one. -/
theorem pair_turn (j : Nat) (hj : j < loops) (h : Pair t (.testing j) q g s) :
    CanReach (Step loops) s (Pair t (.testing (j + 1)) q (g + 1)) :=
  canReach_trans (pair_load loops t q g s j hj h) (fun s' h' => pair_store loops t q g s' j g h')

theorem pair_turns (j k : Nat) (hk : j + k ≤ loops) (h : Pair t (.testing j) q g s) :
    CanReach (Step loops) s (Pair t (.testing (j + k)) q (g + k)) := by
  refine canReach_iterate (I := fun k => Pair t (.testing (j + k)) q (g + k)) k ?_ ?_
  · rwa [Nat.add_zero, Int.natCast_zero, Int.add_zero]
  · intro m hm s' h'
    have hturn := pair_turn loops t q (g + m) s' (j + m) (by omega) h'
    rwa [Int.add_assoc] at hturn

/-- A thread that has done its turns ends. -/
theorem pair_end (h : Pair t (.testing loops) q g s) :
    CanReach (Step loops) s (Pair t .ended q g) := by
  have hend := pair_step loops t q g s _ h ⟨nofun, nofun⟩
  simpa only [after, Nat.lt_irrefl, if_false] using hend

end Schedule

/-- Both threads are created, and neither has taken a step. -/
theorem created (loops : Nat) :
    CanReach (Step loops) initial (Pair .t1 (.testing 0) (.testing 0) 0) :=
  canReach_step .main _ ⟨trivial, rfl⟩
    (canReach_step .main _ ⟨trivial, rfl⟩ (canReach_here ⟨rfl, rfl, rfl, rfl⟩))

/-- When both have done their turns, the number is printed. -/
theorem prints_of_pair (loops : Nat) (g : Int) (s : State)
    (h : Pair .t1 (.testing loops) (.testing loops) g s) :
    CanReach (Step loops) s (fun s => s.main = .exited ∧ s.out.getLast? = some (.total g)) := by
  refine canReach_trans (pair_end loops .t1 _ g s h) (fun s₁ h₁ => ?_)
  refine canReach_trans (pair_end loops .t2 _ g s₁ (pair_swap _ _ _ _ _ h₁)) (fun s₂ h₂ => ?_)
  have hen : Enabled s₂ .main := by
    rw [Enabled, h₂.main]
    exact h₂.there
  refine canReach_step .main _ ⟨hen, rfl⟩ ?_
  have hjoin : next loops s₂ .main = { s₂ with main := .joinSecond } := by
    simp only [next, mainFunc, h₂.main]
  rw [hjoin]
  refine canReach_step .main _ ⟨h₂.here, rfl⟩ (canReach_step .main _ ⟨trivial, rfl⟩ ?_)
  refine canReach_here ⟨rfl, ?_⟩
  have hlast : (s₂.out ++ [Line.total s₂.glob]).getLast? = some (.total g) := by
    rw [List.getLast?_concat, h₂.glob]
  exact hlast

/-- The first thread has loaded the zero. When it stores, the turns that the
    second has done meanwhile are lost. -/
theorem lossy_first (loops m : Nat) (hloops : 0 < loops) (hm : m ≤ loops) :
    CanReach (Step loops) initial (Pair .t1 (.testing 1) (.testing m) 1) := by
  refine canReach_trans (created loops) (fun s h => ?_)
  refine canReach_trans (pair_load loops .t1 _ 0 s 0 hloops h) (fun s₁ h₁ => ?_)
  refine canReach_trans (pair_turns loops .t2 _ 0 s₁ 0 m (by omega) (pair_swap _ _ _ _ _ h₁))
    (fun s₂ h₂ => ?_)
  rw [Nat.zero_add] at h₂
  exact pair_store loops .t1 _ _ s₂ 0 0 (pair_swap _ _ _ _ _ h₂)

/-- After that, the second does the same to the last `r` turns of the first. -/
theorem lossy (loops m r : Nat) (hm : m < loops) (hr : r < loops) :
    Prints loops (2 * loops - m - r : Nat) := by
  refine canReach_trans (lossy_first loops m (by omega) (by omega)) (fun s h => ?_)
  refine canReach_trans (pair_turns loops .t1 _ 1 s 1 (loops - 1 - r) (by omega) h)
    (fun s₁ h₁ => ?_)
  refine canReach_trans (pair_load loops .t2 _ _ s₁ m hm (pair_swap _ _ _ _ _ h₁))
    (fun s₂ h₂ => ?_)
  refine canReach_trans (pair_turns loops .t1 _ _ s₂ (1 + (loops - 1 - r)) r (by omega)
    (pair_swap _ _ _ _ _ h₂)) (fun s₃ h₃ => ?_)
  refine canReach_trans (pair_store loops .t2 _ _ s₃ m _ (pair_swap _ _ _ _ _ h₃))
    (fun s₄ h₄ => ?_)
  refine canReach_trans (pair_turns loops .t2 _ _ s₄ (m + 1) (loops - (m + 1)) (by omega) h₄)
    (fun s₅ h₅ => ?_)
  have hfirst : 1 + (loops - 1 - r) + r = loops := by omega
  have hsecond : m + 1 + (loops - (m + 1)) = loops := by omega
  have hglob : (1 : Int) + (loops - 1 - r : Nat) + 1 + (loops - (m + 1) : Nat) =
      (2 * loops - m - r : Nat) := by omega
  rw [hfirst, hsecond, hglob] at h₅
  exact prints_of_pair loops _ s₅ (pair_swap _ _ _ _ _ h₅)

/-- A single turn that is lost. -/
theorem prints_one : Prints 1 1 :=
  canReach_trans (lossy_first 1 1 Nat.one_pos (Nat.le_refl 1)) (prints_of_pair 1 1)

/-- Where the sum fits into an `int`, no addition overflows, and the numbers that
    can be printed are those from two, or from one if there is one turn only, up
    to the sum. -/
theorem prints_iff (loops : Nat) (hloops : 0 < loops) (hfits : (2 * loops : Nat) ≤ intMax) :
    (∀ tr, AllSteps (Step loops) initial tr → Always NoOverflow initial tr) ∧
      ∀ v, Prints loops v ↔ (min loops 2 : Nat) ≤ v ∧ v ≤ (2 * loops : Nat) := by
  have hstep := inv_step loops hloops
  have hinit := inv_initial loops hloops
  refine ⟨fun tr hrun => ?_, fun v => ⟨fun h => ?_, fun h => ?_⟩⟩
  · exact always_mono (noOverflow_of_inv loops hfits) _ tr
      (always_of_allSteps hstep _ tr hinit hrun)
  · rcases exists_of_canReach hstep hinit h with ⟨s, hi, hexit, hlast⟩
    have hv : s.glob = v := by
      have := (hi.printed hexit).symm.trans hlast
      exact Line.total.inj (Option.some.inj this)
    have hended : ∀ t, s.pc t = .ended := by
      have := hi.main
      rwa [hexit] at this
    have hdone : done loops s.pc = 2 * loops := by
      rw [done, hended .t1, hended .t2, stores]
      omega
    have hle := hi.le
    rw [hdone] at hle
    rw [← hv]
    exact ⟨hi.both (fun t => by rw [hended t, stores]), hle⟩
  · by_cases hone : loops = 1 ∧ v = 1
    · rw [hone.1, hone.2]
      exact prints_one
    · -- The turns that are to be lost are divided between the two.
      obtain ⟨m, r, hm, hr, hv⟩ : ∃ m r : Nat, m < loops ∧ r < loops ∧
          v = (2 * loops - m - r : Nat) := by
        refine ⟨min (2 * loops - v.toNat) (loops - 1),
          2 * loops - v.toNat - min (2 * loops - v.toNat) (loops - 1), ?_, ?_, ?_⟩ <;> omega
      rw [hv]
      exact lossy loops m r hm hr

/-- Three turns each. -/
theorem prints_iff_three :
    (∀ tr, AllSteps (Step 3) initial tr → Always NoOverflow initial tr) ∧
      ∀ v, Prints 3 v ↔ (min 3 2 : Nat) ≤ v ∧ v ≤ (2 * 3 : Nat) :=
  prints_iff 3 (by decide) (by decide)

end SimpleThread

end TlpiPractice
