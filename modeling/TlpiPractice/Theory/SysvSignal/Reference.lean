import TlpiPractice.Core.SysvSignal

/-!
# The Functions and Their Reference

How far the functions do what System V says they do.

The reference is the interface as it is documented, on a mask and a table of
handlers: `sighold` and `sigrelse` add one signal to the mask and take it out,
`sigset` does one or the other and reports what was there before, `sigignore`
changes the table alone, and `sigpause` waits with one signal less.

The functions agree on the table and on what is reported, but for the variable
that has not been assigned. What they miss is the change of the mask, so a
call agrees with the reference when the mask is already what it should be.
`sigpause` waits with a mask that contains the very signal, and never agrees.

Both sides start each call in the same state as long as all calls before have
agreed. The first call that does not is seen at once, so the two runs are the
same exactly when every call agrees.

## Main definitions

* `View`: The mask and the handlers.
* `Observation`: What is seen of a call.
* `observe`, `reference`: What is seen of the functions, and what should be.
* `Agreeing`: The calls that agree.
* `heldFirst`: Calls that agree, on a signal blocked before.

## Theorems

* `observe_eq_iff`: When a call agrees.
* `observations_eq_iff`: When all calls of a sequence do.
* `sighold_disagrees`: A sequence that does not.
-/

namespace TlpiPractice

namespace SysvSignal

open Runs Signals

/-- The signal of a call. -/
def Call.sig : Call → Nat
  | .sigset sig _ _ | .sighold sig | .sigrelse sig | .sigignore sig | .sigpause sig => sig

/-- The blocked signals and the handlers. -/
@[ext]
structure View where
  mask : Finset Nat
  disposition : Nat → Handler

/-- What the reference knows of a process. -/
def view (s : Process) : View := ⟨s.mask, fun sig => (s.table sig).handler⟩

/-- What is seen of a call: the view after it, what `sigset` returns, and what
    `sigpause` waits with. -/
@[ext]
structure Observation where
  after : View
  returned : Option Handler
  waited : Option (Finset Nat)

/-- What is seen of a call of the functions. -/
def observe (s : Process) (c : Call) : Observation :=
  ⟨view (next s c), (perform s c).2.1, (perform s c).2.2⟩

/-- What `sigset` is to return. -/
def previous (v : View) (sig : Nat) : Handler :=
  if sig ∈ v.mask then .hold else v.disposition sig

/-- What System V says of a call. -/
def reference (v : View) : Call → Observation
  | .sigset sig handler _ =>
      if handler = .hold then
        ⟨{ v with mask := insert sig v.mask }, some (previous v sig), none⟩
      else
        ⟨⟨v.mask.erase sig, Function.update v.disposition sig handler⟩,
          some (previous v sig), none⟩
  | .sighold sig => ⟨{ v with mask := insert sig v.mask }, none, none⟩
  | .sigrelse sig => ⟨{ v with mask := v.mask.erase sig }, none, none⟩
  | .sigignore sig =>
      ⟨{ v with disposition := Function.update v.disposition sig .ign }, none, none⟩
  | .sigpause sig => ⟨v, none, some (v.mask.erase sig)⟩

/-- What is seen of the calls of a sequence. -/
def observations (s : Process) : List Call → List Observation
  | [] => []
  | c :: cs => observe s c :: observations (next s c) cs

/-- What should be seen of them. -/
def references (v : View) : List Call → List Observation
  | [] => []
  | c :: cs => reference v c :: references (reference v c).after cs

/-- The mask is already what the call should make it, and the variable that
    has not been assigned is not returned, or holds the right value. -/
def Agreeing (s : Process) : Call → Prop
  | .sigset sig handler junk =>
      if handler = .hold then sig ∈ s.mask ∨ junk = (s.table sig).handler else sig ∉ s.mask
  | .sighold sig => sig ∈ s.mask
  | .sigrelse sig => sig ∉ s.mask
  | .sigignore _ => True
  | .sigpause _ => False

/-- Setting an action sets its handler in the view. -/
theorem view_update (s : Process) (sig : Nat) (act : Action) :
    view { s with table := Function.update s.table sig act } =
      { view s with disposition := Function.update (view s).disposition sig act.handler } := by
  ext x
  · rfl
  · unfold view
    by_cases hx : x = sig
    · rw [hx]
      simp only [Function.update_self]
    · simp only [Function.update_of_ne hx]

theorem observe_sigset_hold (s : Process) (sig : Nat) (junk : Handler) (h : Usable sig) :
    observe s (.sigset sig .hold junk) =
      ⟨{ view s with mask := insert sig s.mask },
        some (if sig ∈ s.mask then .hold else junk), none⟩ := by
  have hset : sigset s sig .hold junk =
      (if sig ∈ s.mask then .hold else junk, { s with mask := insert sig s.mask }) := by
    unfold sigset
    simp only [if_true, ne_eq, not_true_eq_false, if_false, sigaddset_of_usable _ _ h,
      sigemptyset, insert_empty_eq, sigprocmask_block_singleton s sig h]
  unfold observe next perform
  simp only [hset]
  rfl

theorem observe_sigset (s : Process) (sig : Nat) (handler junk : Handler) (h : Usable sig)
    (hne : handler ≠ .hold) :
    observe s (.sigset sig handler junk) =
      ⟨{ view s with disposition := Function.update (view s).disposition sig handler },
        some (previous (view s) sig), none⟩ := by
  have hset : sigset s sig handler junk =
      (previous (view s) sig, { s with
        table := Function.update s.table sig ⟨handler, sigemptyset \ reserved, saRestart⟩ }) := by
    unfold sigset
    simp only [ne_eq, hne, not_false_eq_true, if_true, sigprocmask,
      sigaction_of_usable _ _ _ h]
    rfl
  unfold observe next perform
  simp only [hset, view_update]

/-- Two observations that can differ in the mask only. -/
theorem observation_eq_iff (mask mask' : Finset Nat) (disposition : Nat → Handler)
    (returned : Option Handler) :
    (⟨⟨mask, disposition⟩, returned, none⟩ : Observation) = ⟨⟨mask', disposition⟩, returned, none⟩ ↔
      mask = mask' := by
  constructor
  · intro h
    exact congrArg (fun o => o.after.mask) h
  · intro h
    rw [h]

theorem agreeing_hold_iff (s : Process) (sig : Nat) (junk : Handler) (h : Usable sig) :
    observe s (.sigset sig .hold junk) = reference (view s) (.sigset sig .hold junk) ↔
      sig ∈ s.mask ∨ junk = (s.table sig).handler := by
  have href : reference (view s) (.sigset sig .hold junk) =
      ⟨{ view s with mask := insert sig s.mask }, some (previous (view s) sig), none⟩ := rfl
  have hret : ∀ x, previous (view s) sig = x ↔
      (if sig ∈ s.mask then .hold else (s.table sig).handler) = x := fun _ => Iff.rfl
  rw [observe_sigset_hold s sig junk h, href]
  by_cases hmem : sig ∈ s.mask
  · rw [(hret .hold).mpr (if_pos hmem), if_pos hmem]
    exact ⟨fun _ => .inl hmem, fun _ => rfl⟩
  · rw [(hret (s.table sig).handler).mpr (if_neg hmem), if_neg hmem]
    constructor
    · intro heq
      exact .inr (Option.some.inj (congrArg Observation.returned heq))
    · intro hcase
      rcases hcase with hin | hjunk
      · exact absurd hin hmem
      · rw [hjunk]

/-- A call agrees with the reference exactly when it is an agreeing one. -/
theorem observe_eq_iff (s : Process) (c : Call) (h : Usable c.sig) :
    observe s c = reference (view s) c ↔ Agreeing s c := by
  cases c with
  | sigset sig handler junk =>
      by_cases hhold : handler = .hold
      · subst hhold
        simp only [Agreeing, if_true]
        exact agreeing_hold_iff s sig junk h
      · rw [observe_sigset s sig handler junk h hhold]
        simp only [reference, Agreeing, if_neg hhold]
        exact (observation_eq_iff _ _ _ _).trans (eq_comm.trans Finset.erase_eq_self)
  | sighold sig =>
      have hobs : observe s (.sighold sig) = ⟨view s, none, none⟩ := by
        unfold observe next perform sighold
        rw [sigprocmask_empty]
      rw [hobs]
      exact (observation_eq_iff _ _ _ _).trans (eq_comm.trans Finset.insert_eq_self)
  | sigrelse sig =>
      have hobs : observe s (.sigrelse sig) = ⟨view s, none, none⟩ := by
        unfold observe next perform sigrelse
        rw [sigprocmask_empty]
      rw [hobs]
      exact (observation_eq_iff _ _ _ _).trans (eq_comm.trans Finset.erase_eq_self)
  | sigignore sig =>
      have hsig : Usable sig := h
      have hobs : observe s (.sigignore sig) =
          ⟨{ view s with disposition := Function.update (view s).disposition sig .ign },
            none, none⟩ := by
        unfold observe next perform sigignore
        simp only [sigaction_of_usable _ _ _ hsig, view_update]
      rw [hobs]
      exact ⟨fun _ => trivial, fun _ => rfl⟩
  | sigpause sig =>
      have hsig : Usable sig := h
      refine ⟨fun heq => ?_, fun hno => hno.elim⟩
      have hwait : (sigpause sig).2 = {sig} := by
        unfold sigpause sigsuspend
        rw [sigaddset_of_usable _ _ hsig]
        exact singleton_sdiff_reserved sig hsig
      have hmask := Option.some.inj (congrArg Observation.waited heq)
      rw [hwait] at hmask
      exact Finset.notMem_erase sig s.mask (hmask ▸ Finset.mem_singleton_self sig)

/-- What is seen of a sequence of calls on signals that can be blocked and
    caught is what the reference says exactly when every call of it agrees. -/
theorem observations_eq_iff (s : Process) (cs : List Call) (h : ∀ c ∈ cs, Usable c.sig) :
    observations s cs = references (view s) cs ↔ StepsMeet Agreeing s (record next s cs) := by
  induction cs generalizing s with
  | nil => exact ⟨fun _ => trivial, fun _ => rfl⟩
  | cons c cs ih =>
      have hc := observe_eq_iff s c (h c List.mem_cons_self)
      have hcs := ih (next s c) (fun d hd => h d (List.mem_cons_of_mem c hd))
      constructor
      · intro heq
        rcases List.cons.inj heq with ⟨hone, hrest⟩
        -- The first call agrees, so the reference goes on in the same state.
        rw [← hone] at hrest
        exact ⟨hc.mp hone, hcs.mp hrest⟩
      · intro hcase
        rcases hcase with ⟨hone, hrest⟩
        unfold observations references
        rw [← hc.mpr hone]
        exact congrArg _ (hcs.mpr hrest)

/-- `SIGINT` is blocked at first: it is held, its handler is asked for, and
    `SIGTERM`, which is not blocked, is given a handler. -/
def heldFirst : List Call :=
  [.sighold 2, .sigset 2 .hold .dfl, .sigignore 2, .sigset 15 (.fn 4096) .dfl, .sigrelse 15]

/-- A process with `SIGINT` blocked and all dispositions at their default. -/
def interruptBlocked : Process := ⟨{2}, fun _ => ⟨.dfl, ∅, 0⟩⟩

theorem observations_eq_iff_heldFirst :
    observations interruptBlocked heldFirst = references (view interruptBlocked) heldFirst ↔
      StepsMeet Agreeing interruptBlocked (record next interruptBlocked heldFirst) :=
  observations_eq_iff interruptBlocked heldFirst (by decide)

/-- `sighold` leaves a signal unblocked that was. -/
theorem sighold_disagrees :
    ¬ ∀ (s : Process) (cs : List Call), (∀ c ∈ cs, Usable c.sig) →
      observations s cs = references (view s) cs := by
  intro hall
  have h := hall ⟨∅, fun _ => ⟨.dfl, ∅, 0⟩⟩ [.sighold 2] (by decide)
  have hmask := congrArg (fun o => o.after.mask) (List.cons.inj h).1
  have hmem : 2 ∈ (∅ : Finset Nat) := by
    rw [show (∅ : Finset Nat) = insert 2 ∅ from hmask]
    exact Finset.mem_insert_self 2 ∅
  exact Finset.notMem_empty 2 hmem

end SysvSignal

end TlpiPractice
