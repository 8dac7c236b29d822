import Mathlib.Tactic.ByContra

/-!
# Recorded Runs

A run of a transition system, recorded as the list of its events together
with the state each of them led to, and the rules for proving facts about
every state of a run.

A run is kept as data rather than as a derivation, so that a hypothesis about
its events and a conclusion about its states can be stated over the same
list. `AllSteps` reads it three states at a time: the state before, the event
and the state after. Being a run of a step relation is `AllSteps` of that
relation, and a restriction on which events may happen in which states is
`AllSteps` of a predicate that ignores the state after.

`always_of_allSteps` is the induction every safety result goes through: an
invariant that a single step preserves holds wherever the run goes.
`always_iff_allSteps` is its two-sided form, for a property that a step loses
exactly when the step breaks a rule. It turns two one-step facts into a
characterisation of the runs on which the property is never lost.

## Main definitions

* `AllSteps`: Every step of a recorded run satisfies a predicate.
* `StepsMeet`: Every event of a recorded run is allowed where it happens.
* `Always`: Every state of a recorded run satisfies a predicate.
* `lastState`: The state a recorded run ends in.
* `record`: The run that a list of events makes.
* `outputs`: What the steps of a run put out.
* `countBefore`: How much was put out before the first step of a kind.

## Theorems

* `allSteps_mono`: A weaker predicate holds of the same steps.
* `allSteps_and`: Two predicates hold of all steps together.
* `allSteps_record`: Enabled events make a run.
* `always_mono`: A weaker predicate holds of the same states.
* `always_last`: What holds in every state holds in the last one.
* `always_of_allSteps`: A preserved invariant holds in every state.
* `always_of_guarded`: The same, for a run whose events meet a condition.
* `allSteps_of_always`: An invariant strengthens what is known of each step.
* `always_iff_allSteps`: A property is kept exactly by the runs that keep a
  rule.
* `allSteps_iff_stepsMeet`: Every step is right exactly in the runs that keep
  a rule.
* `exists_between`: What only one kind of event can end.
* `outputs_of_field`: A field that each step appends to has what was put out.
* `countBefore_of_field`: A field that one kind of step sets has how much was
  put out before it.
-/

namespace Runs

variable {σ ε : Type*}

/-- Every step of the run recorded as `tr` from `s` satisfies `Q`, which sees
    the state before, the event and the state after. -/
def AllSteps (Q : σ → ε → σ → Prop) : σ → List (ε × σ) → Prop
  | _, [] => True
  | s, (e, s') :: tr => Q s e s' ∧ AllSteps Q s' tr

/-- Every event of the run is one that `G` allows in the state before it. -/
def StepsMeet (G : σ → ε → Prop) (s : σ) (tr : List (ε × σ)) : Prop :=
  AllSteps (fun s e _ => G s e) s tr

/-- Every state of the run satisfies `P`, the first one included. -/
def Always (P : σ → Prop) : σ → List (ε × σ) → Prop
  | s, [] => P s
  | s, (_, s') :: tr => P s ∧ Always P s' tr

/-- The state the run ends in. -/
def lastState : σ → List (ε × σ) → σ
  | s, [] => s
  | _, (_, s') :: tr => lastState s' tr

/-- The run that a list of events makes when every event has one outcome. -/
def record (next : σ → ε → σ) : σ → List ε → List (ε × σ)
  | _, [] => []
  | s, e :: es => (e, next s e) :: record next (next s e) es

/-- What the steps of a run put out, in order. -/
def outputs {α : Type*} (f : σ → ε → List α) : σ → List (ε × σ) → List α
  | _, [] => []
  | s, (e, s') :: tr => f s e ++ outputs f s' tr

/-- How much the steps of a run put out before the first one of a kind. -/
def countBefore {α : Type*} (f : σ → ε → List α) (hit : σ → ε → Bool) :
    σ → List (ε × σ) → Option Nat
  | _, [] => none
  | s, (e, s') :: tr =>
      if hit s e then some 0 else (countBefore f hit s' tr).map (fun n => (f s e).length + n)

theorem allSteps_mono {Q R : σ → ε → σ → Prop} (h : ∀ s e s', Q s e s' → R s e s')
    (s : σ) (tr : List (ε × σ)) (hq : AllSteps Q s tr) : AllSteps R s tr := by
  induction tr generalizing s with
  | nil => trivial
  | cons p tr ih => exact ⟨h _ _ _ hq.1, ih p.2 hq.2⟩

theorem allSteps_and {Q R : σ → ε → σ → Prop} (s : σ) (tr : List (ε × σ))
    (hq : AllSteps Q s tr) (hr : AllSteps R s tr) :
    AllSteps (fun s e s' => Q s e s' ∧ R s e s') s tr := by
  induction tr generalizing s with
  | nil => trivial
  | cons p tr ih => exact ⟨⟨hq.1, hr.1⟩, ih p.2 hq.2 hr.2⟩

/-- A list of events makes a run when each is enabled where it happens. -/
theorem allSteps_record (En : σ → ε → Prop) (next : σ → ε → σ) (s : σ) (es : List ε)
    (h : StepsMeet En s (record next s es)) :
    AllSteps (fun s e s' => En s e ∧ s' = next s e) s (record next s es) := by
  induction es generalizing s with
  | nil => trivial
  | cons e es ih => exact ⟨⟨h.1, rfl⟩, ih (next s e) h.2⟩

theorem always_mono {P R : σ → Prop} (h : ∀ s, P s → R s) (s : σ) (tr : List (ε × σ))
    (hp : Always P s tr) : Always R s tr := by
  induction tr generalizing s with
  | nil => exact h s hp
  | cons p tr ih => exact ⟨h s hp.1, ih p.2 hp.2⟩

theorem always_head {P : σ → Prop} (s : σ) (tr : List (ε × σ)) (h : Always P s tr) : P s := by
  cases tr with
  | nil => exact h
  | cons p tr => exact h.1

theorem always_last {P : σ → Prop} (s : σ) (tr : List (ε × σ)) (h : Always P s tr) :
    P (lastState s tr) := by
  induction tr generalizing s with
  | nil => exact h
  | cons p tr ih => exact ih p.2 h.2

/-- An invariant that holds at the start and that every step preserves holds
    in every state of the run. -/
theorem always_of_allSteps {Q : σ → ε → σ → Prop} {Inv : σ → Prop}
    (hstep : ∀ s e s', Inv s → Q s e s' → Inv s') (s : σ) (tr : List (ε × σ))
    (hs : Inv s) (hrun : AllSteps Q s tr) : Always Inv s tr := by
  induction tr generalizing s with
  | nil => exact hs
  | cons p tr ih => exact ⟨hs, ih p.2 (hstep _ _ _ hs hrun.1) hrun.2⟩

/-- The invariant rule for a run whose events all meet a condition. -/
theorem always_of_guarded {Q : σ → ε → σ → Prop} {G : σ → ε → Prop} {Inv : σ → Prop}
    (hstep : ∀ s e s', Inv s → G s e → Q s e s' → Inv s') (s : σ) (tr : List (ε × σ))
    (hs : Inv s) (hrun : AllSteps Q s tr) (hmeet : StepsMeet G s tr) : Always Inv s tr :=
  always_of_allSteps (fun s e s' hi hq => hstep s e s' hi hq.2 hq.1) s tr hs
    (allSteps_and s tr hrun hmeet)

/-- What an invariant adds to each single step, read off all steps at once. -/
theorem allSteps_of_always {Q R : σ → ε → σ → Prop} {Inv : σ → Prop}
    (h : ∀ s e s', Inv s → Q s e s' → R s e s') (s : σ) (tr : List (ε × σ))
    (hinv : Always Inv s tr) (hrun : AllSteps Q s tr) : AllSteps R s tr := by
  induction tr generalizing s with
  | nil => trivial
  | cons p tr ih => exact ⟨h _ _ _ hinv.1 hrun.1, ih p.2 hinv.2 hrun.2⟩

/-- A property is kept throughout a run exactly when every event of the run
    is allowed, provided allowed events keep an invariant that implies the
    property and a forbidden event loses the property at once. -/
theorem always_iff_allSteps {Q : σ → ε → σ → Prop} {G : σ → ε → Prop} {Inv P : σ → Prop}
    (hkeep : ∀ s e s', Inv s → G s e → Q s e s' → Inv s')
    (hlose : ∀ s e s', Inv s → ¬ G s e → Q s e s' → ¬ P s')
    (himp : ∀ s, Inv s → P s) (s : σ) (tr : List (ε × σ)) (hs : Inv s)
    (hrun : AllSteps Q s tr) : Always P s tr ↔ StepsMeet G s tr := by
  constructor
  · intro hp
    induction tr generalizing s with
    | nil => trivial
    | cons p tr ih =>
        have hg : G s p.1 := by
          by_contra hg
          exact hlose s p.1 p.2 hs hg hrun.1 (always_head _ _ hp.2)
        exact ⟨hg, ih p.2 (hkeep _ _ _ hs hg hrun.1) hrun.2 hp.2⟩
  · intro hg
    exact always_mono himp s tr (always_of_guarded hkeep s tr hs hrun hg)

/-- Every step of a run is right exactly when every event of it is allowed,
    provided allowed events keep an invariant under which the two are the same
    for a single step. -/
theorem allSteps_iff_stepsMeet {Q R : σ → ε → σ → Prop} {G : σ → ε → Prop} {Inv : σ → Prop}
    (hkeep : ∀ s e s', Inv s → G s e → Q s e s' → Inv s')
    (hright : ∀ s e s', Inv s → Q s e s' → (R s e s' ↔ G s e)) (s : σ) (tr : List (ε × σ))
    (hs : Inv s) (hrun : AllSteps Q s tr) : AllSteps R s tr ↔ StepsMeet G s tr := by
  induction tr generalizing s with
  | nil => exact Iff.rfl
  | cons p tr ih =>
      have hone := hright s p.1 p.2 hs hrun.1
      constructor
      · intro h
        rcases h with ⟨hr, hrest⟩
        have hg := hone.mp hr
        exact ⟨hg, (ih p.2 (hkeep _ _ _ hs hg hrun.1) hrun.2).mp hrest⟩
      · intro h
        rcases h with ⟨hg, hrest⟩
        exact ⟨hone.mpr hg, (ih p.2 (hkeep _ _ _ hs hg hrun.1) hrun.2).mpr hrest⟩

/-- A state that one kind of event leads to, that only another kind can end, and
    in which nothing of a third kind happens: between the first and the third there
    is one of the second. -/
theorem exists_between {Q : σ → ε → σ → Prop} {Inv : σ → Prop} {A B C : ε → Prop}
    (hstart : ∀ s e s', Q s e s' → A e → Inv s')
    (hkeep : ∀ s e s', Inv s → Q s e s' → ¬ C e → Inv s')
    (hnot : ∀ s e s', Inv s → Q s e s' → ¬ B e) (s : σ) (pre mid rest : List (ε × σ))
    (a b : ε × σ) (hrun : AllSteps Q s (pre ++ a :: (mid ++ b :: rest))) (ha : A a.1)
    (hb : B b.1) : ∃ c ∈ mid, C c.1 := by
  by_contra hnone
  have hlast : ∀ mid, (∀ c ∈ mid, ¬ C c.1) → ∀ s, Inv s →
      ¬ AllSteps Q s (mid ++ b :: rest) := by
    intro mid
    induction mid with
    | nil => exact fun _ s hs h => hnot s b.1 b.2 hs h.1 hb
    | cons c mid ih =>
        intro hno s hs h
        have hkept := hkeep s c.1 c.2 hs h.1 (hno c List.mem_cons_self)
        exact ih (fun d hd => hno d (List.mem_cons_of_mem c hd)) c.2 hkept h.2
  induction pre generalizing s with
  | nil =>
      exact hlast mid (fun c hc hend => hnone ⟨c, hc, hend⟩) a.2
        (hstart s a.1 a.2 hrun.1 ha) hrun.2
  | cons d pre ih => exact ih d.2 hrun.2

section Outputs

variable {α : Type*} {Q : σ → ε → σ → Prop} (Inv : σ → Prop) {f : σ → ε → List α}
  (field : σ → List α)

/-- A field to which each step appends what it puts out. -/
theorem outputs_of_field (hstep : ∀ s e s', Inv s → Q s e s' → Inv s')
    (hfield : ∀ s e s', Inv s → Q s e s' → field s' = field s ++ f s e) (s : σ)
    (tr : List (ε × σ)) (hs : Inv s) (hrun : AllSteps Q s tr) :
    field (lastState s tr) = field s ++ outputs f s tr := by
  induction tr generalizing s with
  | nil => exact (List.append_nil _).symm
  | cons p tr ih =>
      rw [lastState, ih p.2 (hstep _ _ _ hs hrun.1) hrun.2, hfield _ _ _ hs hrun.1,
        List.append_assoc]
      rfl

/-- A field that a kind of step sets, once, to what it makes of the length of
    what has been put out. -/
theorem countBefore_of_field (hit : σ → ε → Bool) (mark : σ → Option Nat) (g : Nat → Nat)
    (hstep : ∀ s e s', Inv s → Q s e s' → Inv s')
    (hfield : ∀ s e s', Inv s → Q s e s' → field s' = field s ++ f s e)
    (hset : ∀ s e s', Inv s → Q s e s' → hit s e = true →
      mark s = none ∧ mark s' = some (g (field s).length))
    (hkeep : ∀ s e s', Inv s → Q s e s' → hit s e = false → mark s' = mark s) (s : σ)
    (tr : List (ε × σ)) (hs : Inv s) (hrun : AllSteps Q s tr) :
    mark (lastState s tr) =
      (mark s).or ((countBefore f hit s tr).map (fun n => g ((field s).length + n))) := by
  induction tr generalizing s with
  | nil => exact (Option.or_none).symm
  | cons p tr ih =>
      have hrest := ih p.2 (hstep _ _ _ hs hrun.1) hrun.2
      rw [lastState, hrest, countBefore]
      by_cases hhit : hit s p.1 = true
      · rcases hset _ _ _ hs hrun.1 hhit with ⟨hnone, hsome⟩
        rw [if_pos hhit, hnone, hsome]
        rfl
      · rw [if_neg hhit, hkeep _ _ _ hs hrun.1 (Bool.eq_false_iff.mpr hhit),
          hfield _ _ _ hs hrun.1, List.length_append, Option.map_map]
        simp only [Function.comp_def, Nat.add_assoc]

/-- The same from a state in which nothing has been put out. -/
theorem countBefore_eq (hit : σ → ε → Bool) (mark : σ → Option Nat) (g : Nat → Nat)
    (hstep : ∀ s e s', Inv s → Q s e s' → Inv s')
    (hfield : ∀ s e s', Inv s → Q s e s' → field s' = field s ++ f s e)
    (hset : ∀ s e s', Inv s → Q s e s' → hit s e = true →
      mark s = none ∧ mark s' = some (g (field s).length))
    (hkeep : ∀ s e s', Inv s → Q s e s' → hit s e = false → mark s' = mark s) (s : σ)
    (tr : List (ε × σ)) (hs : Inv s) (hnil : field s = []) (hnone : mark s = none)
    (hrun : AllSteps Q s tr) :
    mark (lastState s tr) = (countBefore f hit s tr).map g := by
  have hmark := countBefore_of_field Inv field hit mark g hstep hfield hset hkeep s tr hs hrun
  rw [hmark, hnone, hnil, Option.none_or]
  simp only [List.length_nil, Nat.zero_add]

end Outputs

end Runs
