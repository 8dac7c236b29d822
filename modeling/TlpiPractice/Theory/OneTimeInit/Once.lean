import TlpiPractice.Core.OneTimeInit
import TlpiPractice.Library.Mutex

/-!
# Double-Checked Initialisation

That `init` runs once, and that no call returns before it has.

The control block goes through four stages: nothing has happened, `init` is
running, it has returned, and the flag is set. `Stage.Counts` says what the
shared fields are in each, and `Stage.Admits` where a thread can stand in each.
A thread that is not in the function, or has not got past the lock, is at home
in every stage. What it finds when it goes on is decided by the stage then.

The stage advances in three places, each reached by a single thread: the one
that holds the mutex. All other threads are outside the protected code at
that moment, so the new stage admits them where they are. A thread that is
about to return has seen the flag set, with or without the mutex, and this is
admitted in the last stage only.

## Main definitions

* `Stage`: How far the control block has got.
* `Stage.Counts`: The shared fields in a stage.
* `Stage.Admits`: Where a thread can stand in a stage.
* `OnceInv`: The invariant.
* `InitRun`: `init` has been started once and has returned.
* `twoCallers`: Two threads that both pass the first test.

## Theorems

* `onceInv_move`: A step that leaves the stage.
* `onceInv_advance`: A step that ends it.
* `onceInv_step`: Every step keeps the invariant.
* `init_once`: `init` is started at most once, and before any return it has
  been started and has returned.
-/

namespace TlpiPractice

namespace OneTimeInit

open Mutex Runs

variable {ι φ : Type}

/-- Between the lock and the unlock. -/
def Pc.Inside : Pc φ → Prop
  | .retesting _ | .calling _ | .running | .setting | .unlocking => True
  | _ => False

/-- In front of the lock, or not in the function at all. -/
def Pc.Outside : Pc φ → Prop
  | .idle | .testing _ | .locking _ => True
  | _ => False

/-- Between the start of `init` and the assignment to the flag. -/
def Pc.Works : Pc φ → Prop
  | .running | .setting => True
  | _ => False

/-- How far the control block has got. -/
inductive Stage where
  | untouched
  | running
  | finished
  | published

/-- The shared fields in each stage. -/
def Stage.Counts (s : State ι φ) : Stage → Prop
  | .untouched => s.inited = 0 ∧ s.started.length = 0 ∧ s.finished = 0
  | .running => s.inited = 0 ∧ s.started.length = 1 ∧ s.finished = 0
  | .finished => s.inited = 0 ∧ s.started.length = 1 ∧ s.finished = 1
  | .published => s.inited = 1 ∧ s.started.length = 1 ∧ s.finished = 1

/-- Where a thread can stand in each stage. -/
def Stage.Admits : Stage → Pc φ → Prop
  | .untouched, .retesting _ | .untouched, .calling _ => True
  | .running, .running => True
  | .finished, .setting => True
  | .published, .retesting _ | .published, .unlocking | .published, .returning => True
  | _, p => p.Outside

/-- The thread that will end the stage. -/
def Stage.Owner (pc : ι → Pc φ) : Stage → Prop
  | .running => ∃ t, pc t = .running
  | .finished => ∃ t, pc t = .setting
  | _ => True

structure OnceInv (g : Stage) (s : State ι φ) : Prop where
  held : Held Pc.Inside s.pc s.lock
  counts : g.Counts s
  admits : ∀ t, g.Admits (s.pc t)
  owner : g.Owner s.pc

theorem admits_of_outside (g : Stage) (p : Pc φ) (h : p.Outside) : g.Admits p := by
  cases p <;> cases g <;> first | exact trivial | exact h

/-- Outside the protected code, only the last stage tells threads apart. -/
theorem outside_of_admits (g : Stage) (p : Pc φ) (hg : g ≠ .published) (h : g.Admits p)
    (hp : ¬ p.Inside) : p.Outside := by
  cases g with
  | published => exact absurd rfl hg
  | untouched => cases p <;> first | exact h | exact absurd trivial hp
  | running => cases p <;> first | exact h | exact absurd trivial hp
  | finished => cases p <;> first | exact h | exact absurd trivial hp

theorem onceInv_initial : OnceInv .untouched (initial : State ι φ) :=
  ⟨fun _ ht => ht.elim, ⟨rfl, rfl, rfl⟩, fun _ => trivial, trivial⟩

/-- A thread that works on `init` or on the flag shows the stage. -/
theorem stage_of_calling {g : Stage} {init : φ} (h : g.Admits (.calling init)) :
    g = .untouched := by
  cases g with
  | untouched => rfl
  | running => exact h.elim
  | finished => exact h.elim
  | published => exact h.elim

theorem stage_of_running {g : Stage} (h : g.Admits (.running : Pc φ)) : g = .running := by
  cases g with
  | running => rfl
  | untouched => exact h.elim
  | finished => exact h.elim
  | published => exact h.elim

theorem stage_of_setting {g : Stage} (h : g.Admits (.setting : Pc φ)) : g = .finished := by
  cases g with
  | finished => rfl
  | untouched => exact h.elim
  | running => exact h.elim
  | published => exact h.elim

/-- A free mutex is not to be had while somebody works on the stage. -/
theorem stage_of_free {g : Stage} {s : State ι φ} (h : OnceInv g s) (hfree : s.lock = none) :
    g = .untouched ∨ g = .published := by
  cases g with
  | untouched => exact .inl rfl
  | published => exact .inr rfl
  | running =>
      rcases h.owner with ⟨u, hu⟩
      exact absurd (hu ▸ trivial) (held_free h.held hfree u)
  | finished =>
      rcases h.owner with ⟨u, hu⟩
      exact absurd (hu ▸ trivial) (held_free h.held hfree u)

/-- From the unlock on a thread has seen the flag set. -/
theorem published_of_done {g : Stage} {s : State ι φ} (h : OnceInv g s) (t : ι)
    (ht : s.pc t = .unlocking ∨ s.pc t = .returning) : g = .published := by
  have ha := h.admits t
  cases g with
  | published => rfl
  | untouched => rcases ht with ht | ht <;> · rw [ht] at ha; exact ha.elim
  | running => rcases ht with ht | ht <;> · rw [ht] at ha; exact ha.elim
  | finished => rcases ht with ht | ht <;> · rw [ht] at ha; exact ha.elim

theorem started_le (s : State ι φ) (h : ∃ g, OnceInv g s) : s.started.length ≤ 1 := by
  rcases h with ⟨g, h⟩
  have hc := h.counts
  cases g <;> · have hlen := hc.2.1; omega

variable [DecidableEq ι]

/-- The owner of the stage is still there after a step of another thread. -/
theorem owner_update (g : Stage) (pc : ι → Pc φ) (t : ι) (p : Pc φ) (h : g.Owner pc)
    (hw : ¬ (pc t).Works) : g.Owner (Function.update pc t p) := by
  have hother : ∀ u, (pc u).Works → u ≠ t := by
    intro u hu hc
    rw [hc] at hu
    exact hw hu
  cases g with
  | untouched => exact trivial
  | published => exact trivial
  | running =>
      rcases h with ⟨u, hu⟩
      exact ⟨u, by rw [Function.update_of_ne (hother u (by rw [hu]; trivial)), hu]⟩
  | finished =>
      rcases h with ⟨u, hu⟩
      exact ⟨u, by rw [Function.update_of_ne (hother u (by rw [hu]; trivial)), hu]⟩

/-- A step that leaves the shared fields, and with them the stage. -/
theorem onceInv_move {g : Stage} {s : State ι φ} (h : OnceInv g s) (t : ι) (p : Pc φ)
    (lock : Option ι) (hheld : Held Pc.Inside (Function.update s.pc t p) lock)
    (hw : ¬ (s.pc t).Works) (hp : g.Admits p) :
    OnceInv g { s with pc := Function.update s.pc t p, lock := lock } := by
  refine ⟨hheld, ?_, fun u => ?_, owner_update g s.pc t p h.owner hw⟩
  · have hc := h.counts
    cases g <;> exact hc
  · show g.Admits (Function.update s.pc t p u)
    by_cases hut : u = t
    · rw [hut, Function.update_self]
      exact hp
    · rw [Function.update_of_ne hut]
      exact h.admits u

/-- A step that ends the stage: the thread is inside, so all others are
    outside. -/
theorem onceInv_advance {g g' : Stage} {s s' : State ι φ} (h : OnceInv g s) (t : ι) (p : Pc φ)
    (hg : g ≠ .published) (ht : (s.pc t).Inside)
    (hpc : s'.pc = Function.update s.pc t p) (hlock : s'.lock = s.lock)
    (hcounts : g'.Counts s') (hadm : g'.Admits p) (howner : g'.Owner s'.pc) :
    OnceInv g' s' := by
  refine ⟨?_, hcounts, fun u => ?_, howner⟩
  · rw [hpc, hlock]
    exact held_move h.held t p (fun _ => ht)
  · rw [hpc]
    by_cases hut : u = t
    · rw [hut, Function.update_self]
      exact hadm
    · rw [Function.update_of_ne hut]
      -- Only one thread is inside, so the stage says nothing of this one.
      have hu : ¬ (s.pc u).Inside := fun hu => hut (held_unique h.held u t hu ht)
      exact admits_of_outside g' _ (outside_of_admits g _ hg (h.admits u) hu)

theorem onceInv_test {g : Stage} {s : State ι φ} (h : OnceInv g s) (t : ι) (init : φ)
    (ht : s.pc t = .testing init) :
    OnceInv g { s with pc := Function.update s.pc t (afterTest s.inited init) } := by
  have hout : ¬ (afterTest s.inited init).Inside := by
    unfold afterTest
    split <;> exact id
  refine onceInv_move h t _ s.lock (held_move h.held t _ (fun hc => absurd hc hout)) ?_ ?_
  · rw [ht]
    exact id
  · -- The flag is set in the last stage only.
    have hc := h.counts
    unfold afterTest
    cases g with
    | untouched => rw [if_pos hc.1]; exact trivial
    | running => rw [if_pos hc.1]; exact trivial
    | finished => rw [if_pos hc.1]; exact trivial
    | published => rw [if_neg (by rw [hc.1]; omega)]; exact trivial

theorem onceInv_lock {g : Stage} {s : State ι φ} (h : OnceInv g s) (t : ι) (init : φ)
    (ht : s.pc t = .locking init) (hfree : s.lock = none) :
    OnceInv g { s with pc := Function.update s.pc t (.retesting init), lock := some t } := by
  refine onceInv_move h t _ (some t) (held_acquire h.held hfree t _) ?_ ?_
  · rw [ht]
    exact id
  · rcases stage_of_free h hfree with rfl | rfl <;> exact trivial

theorem onceInv_retest {g : Stage} {s : State ι φ} (h : OnceInv g s) (t : ι) (init : φ)
    (ht : s.pc t = .retesting init) :
    OnceInv g { s with pc := Function.update s.pc t (afterRetest s.inited init) } := by
  refine onceInv_move h t _ s.lock (held_move h.held t _ (fun _ => by rw [ht]; trivial)) ?_ ?_
  · rw [ht]
    exact id
  · have hc := h.counts
    have ha := h.admits t
    rw [ht] at ha
    unfold afterRetest
    cases g with
    | untouched => rw [if_pos hc.1]; exact trivial
    | running => exact ha.elim
    | finished => exact ha.elim
    | published => rw [if_neg (by rw [hc.1]; omega)]; exact trivial

theorem onceInv_startInit {g : Stage} {s : State ι φ} (h : OnceInv g s) (t : ι) (init : φ)
    (ht : s.pc t = .calling init) :
    OnceInv .running
      { s with pc := Function.update s.pc t .running, started := s.started ++ [init] } := by
  have hg := stage_of_calling (ht ▸ h.admits t)
  subst hg
  rcases h.counts with ⟨hflag, hlen, hfin⟩
  refine onceInv_advance h t .running Stage.noConfusion (by rw [ht]; trivial) rfl rfl
    ⟨hflag, ?_, hfin⟩ trivial ⟨t, Function.update_self t _ _⟩
  rw [List.length_append, hlen]
  rfl

theorem onceInv_endInit {g : Stage} {s : State ι φ} (h : OnceInv g s) (t : ι)
    (ht : s.pc t = .running) :
    OnceInv .finished
      { s with pc := Function.update s.pc t .setting, finished := s.finished + 1 } := by
  have hg := stage_of_running (ht ▸ h.admits t)
  subst hg
  rcases h.counts with ⟨hflag, hlen, hfin⟩
  exact onceInv_advance h t .setting Stage.noConfusion (by rw [ht]; trivial) rfl rfl
    ⟨hflag, hlen, by simp only [hfin]⟩ trivial ⟨t, Function.update_self t _ _⟩

theorem onceInv_setInited {g : Stage} {s : State ι φ} (h : OnceInv g s) (t : ι)
    (ht : s.pc t = .setting) :
    OnceInv .published { s with pc := Function.update s.pc t .unlocking, inited := 1 } := by
  have hg := stage_of_setting (ht ▸ h.admits t)
  subst hg
  rcases h.counts with ⟨_, hlen, hfin⟩
  exact onceInv_advance h t .unlocking Stage.noConfusion (by rw [ht]; trivial) rfl rfl
    ⟨rfl, hlen, hfin⟩ trivial trivial

theorem onceInv_step (s : State ι φ) (e : Event ι φ) (s' : State ι φ)
    (h : ∃ g, OnceInv g s) (hstep : Step s e s') : ∃ g, OnceInv g s' := by
  rcases h with ⟨g, h⟩
  rcases hstep with ⟨hen, rfl⟩
  cases e with
  -- Outside the protected code a thread may do what it likes.
  | call t init =>
      refine ⟨g, onceInv_move h t _ s.lock (held_move h.held t _ False.elim) ?_
        (admits_of_outside g _ trivial)⟩
      · rw [hen]
        exact id
  | test t =>
      rcases hen with ⟨init, ht⟩
      refine ⟨g, ?_⟩
      simp only [next, ht]
      exact onceInv_test h t init ht
  | lock t =>
      rcases hen with ⟨⟨init, ht⟩, hfree⟩
      refine ⟨g, ?_⟩
      simp only [next, ht]
      exact onceInv_lock h t init ht hfree
  | retest t =>
      rcases hen with ⟨init, ht⟩
      refine ⟨g, ?_⟩
      simp only [next, ht]
      exact onceInv_retest h t init ht
  | startInit t =>
      rcases hen with ⟨init, ht⟩
      refine ⟨.running, ?_⟩
      simp only [next, ht]
      exact onceInv_startInit h t init ht
  | endInit t => exact ⟨.finished, onceInv_endInit h t hen⟩
  | setInited t => exact ⟨.published, onceInv_setInited h t hen⟩
  | unlock t =>
      -- The mutex is given back in the last stage only.
      have hg := published_of_done h t (.inl hen)
      subst hg
      refine ⟨.published, onceInv_move h t _ none (held_release h.held t _ ?_ id) ?_ trivial⟩
      · rw [hen]
        exact trivial
      · rw [hen]
        exact id
  | ret t =>
      refine ⟨g, onceInv_move h t _ s.lock (held_move h.held t _ False.elim) ?_
        (admits_of_outside g _ trivial)⟩
      · rw [hen]
        exact id

/-- `init` has run: it has been started once and has returned. -/
def InitRun (s : State ι φ) : Prop := s.started.length = 1 ∧ s.finished = 1

theorem initRun_of_ret (s : State ι φ) (e : Event ι φ) (s' : State ι φ)
    (h : ∃ g, OnceInv g s) (hstep : Step s e s') (t : ι) (he : e = .ret t) : InitRun s := by
  rcases h with ⟨g, h⟩
  subst he
  have hg := published_of_done h t (.inr hstep.1)
  subst hg
  exact h.counts.2

/-- Whatever threads call it and however their steps interleave, `init` is
    started at most once, and whenever a call returns it has run. -/
theorem init_once (tr : List (Event ι φ × State ι φ)) (hrun : AllSteps Step initial tr) :
    Always (fun s => s.started.length ≤ 1) initial tr ∧
      StepsMeet (fun s e => ∀ t, e = .ret t → InitRun s) initial tr := by
  have hinv := always_of_allSteps onceInv_step initial tr ⟨.untouched, onceInv_initial⟩ hrun
  exact ⟨always_mono started_le initial tr hinv,
    allSteps_of_always initRun_of_ret initial tr hinv hrun⟩

/-- Two threads that both find the flag unset without the mutex. -/
def twoCallers : List (Event Bool Nat) :=
  [.call true 1, .call false 2, .test true, .test false, .lock false, .retest false,
    .startInit false, .endInit false, .setInited false, .unlock false, .lock true, .retest true,
    .unlock true, .ret true, .ret false]

theorem init_once_twoCallers :
    Always (fun s => s.started.length ≤ 1) initial (record next initial twoCallers) ∧
      StepsMeet (fun s e => ∀ t, e = .ret t → InitRun s) initial
        (record next initial twoCallers) := by
  refine init_once _ (allSteps_record Enabled next _ _ ?_)
  exact ⟨rfl, rfl, ⟨_, rfl⟩, ⟨_, rfl⟩, ⟨⟨_, rfl⟩, rfl⟩, ⟨_, rfl⟩, ⟨_, rfl⟩, rfl, rfl, rfl,
    ⟨⟨_, rfl⟩, rfl⟩, ⟨_, rfl⟩, rfl, rfl, rfl, trivial⟩

end OneTimeInit

end TlpiPractice
