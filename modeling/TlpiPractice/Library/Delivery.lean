import Mathlib.Logic.Function.Basic
import TlpiPractice.Library.Signals

/-!
# Sending and Delivering Signals

What becomes of a signal between the process that sends it and the handler.

A signal that is sent waits until the process does not block it and is not
stopped. A standard signal waits at most once, and a realtime signal as often
as it has been sent. A signal that is ignored and not blocked is dropped at
once. The signals that stop a process and the one that lets it go on cancel
each other, whatever is done about them, when they are sent. In an orphaned
process group only `SIGSTOP` stops a process, since nobody could let it go on.

How many realtime signals can wait has no limit here.

Of several realtime signals the one with the lowest number is delivered first.
Nothing is said about the order of the others.

## Main definitions

* `Process`: A process, with the signals that wait.
* `send`: A signal is sent.
* `Deliverable`, `Chosen`: Which signals can be delivered, and which is next.
* `UserMode`: There is nothing to deliver first.
* `enter`: A handler starts.
* `dispose`: What is done when there is no handler.
* `setAction`: Another action for a signal.

## Theorems

* `send_realtime`: A realtime signal waits once more.
* `send_standard`: A standard signal waits, once.
* `send_le_one`: A standard signal waits at most once.
* `send_of_ne`: Other signals stay, but for those that are cancelled.
* `dispose_spec`: What a signal without a handler leaves alone.
-/

namespace Delivery

open Signals

def sigCont : Nat := 18

def sigStop : Nat := 19

/-- The signals that stop a process. -/
def stopSignals : Finset Nat := {19, 20, 21, 22}

/-- One of the signals that cancel each other. -/
def JobControl (sig : Nat) : Prop := sig = sigCont ∨ sig ∈ stopSignals

instance (sig : Nat) : Decidable (JobControl sig) :=
  inferInstanceAs (Decidable (sig = sigCont ∨ sig ∈ stopSignals))

/-- The first realtime signal. -/
def sigRtMin : Nat := 34

def Realtime (sig : Nat) : Prop := sigRtMin ≤ sig

instance (sig : Nat) : Decidable (Realtime sig) :=
  inferInstanceAs (Decidable (sigRtMin ≤ sig))

inductive Default where
  | terminate
  | ignore
  | stop
  | resume
  deriving DecidableEq

/-- What happens by default. -/
def defaultOf (sig : Nat) : Default :=
  if sig = sigCont then .resume
  else if sig ∈ stopSignals then .stop
  else if sig ∈ ({17, 23, 28} : Finset Nat) then .ignore
  else .terminate

structure Process extends Signals.Process where
  /-- How often a signal waits. -/
  pending : Nat → Nat
  stopped : Bool
  dead : Bool
  /-- The process is in an orphaned process group. -/
  orphaned : Bool

/-- Nothing is done about a signal. -/
def ignores (p : Process) (sig : Nat) : Bool :=
  match (p.table sig).handler with
  | .ign => true
  | .dfl => defaultOf sig == .ignore || defaultOf sig == .resume
  | _ => false

/-- The signals that do not wait any longer when this one is sent. -/
def cancelled (sig : Nat) : Finset Nat :=
  if sig = sigCont then stopSignals else if sig ∈ stopSignals then {sigCont} else ∅

/-- A signal is sent to the process. -/
def send (p : Process) (sig : Nat) : Process :=
  let kept := fun r => if r ∈ cancelled sig then 0 else p.pending r
  { p with
    stopped := p.stopped && sig != sigCont
    pending :=
      if ignores p sig = true ∧ sig ∉ p.mask then kept
      else Function.update kept sig (if Realtime sig then kept sig + 1 else 1) }

/-- The signal waits, and nothing keeps it from being delivered. -/
structure Deliverable (p : Process) (sig : Nat) : Prop where
  alive : p.dead = false
  pending : 0 < p.pending sig
  unblocked : sig ∉ p.mask
  running : p.stopped = true → sig = sigKill

/-- The signal can be the next one. -/
structure Chosen (p : Process) (sig : Nat) : Prop extends Deliverable p sig where
  lowest : Realtime sig → ∀ r, Deliverable p r → Realtime r → sig ≤ r

/-- The process goes on in user mode, with nothing to deliver first. -/
structure UserMode (p : Process) : Prop where
  alive : p.dead = false
  running : p.stopped = false
  none : ∀ sig, ¬ Deliverable p sig

theorem userMode_of_pending (p : Process) (halive : p.dead = false)
    (hrunning : p.stopped = false) (h : ∀ sig, 0 < p.pending sig → sig ∈ p.mask) : UserMode p :=
  ⟨halive, hrunning, fun sig hsig => hsig.unblocked (h sig hsig.pending)⟩

/-- A signal does not wait any longer. -/
def Process.take (p : Process) (sig : Nat) : Process :=
  { p with pending := Function.update p.pending sig (p.pending sig - 1) }

/-- The handler of a signal starts, with more signals blocked. -/
def enter (p : Process) (sig : Nat) : Process :=
  { p.take sig with mask := p.mask ∪ (insert sig (p.table sig).mask \ reserved) }

/-- A signal without a handler is delivered. -/
def dispose (p : Process) (sig : Nat) : Process :=
  if ignores p sig then p.take sig
  else
    match defaultOf sig with
    | .stop =>
        if p.orphaned = true ∧ sig ≠ sigStop then p.take sig
        else { p.take sig with stopped := true }
    | _ => { p.take sig with dead := true }

/-- `sigaction`. A signal that is ignored from now on does not wait any longer. -/
def setAction (p : Process) (sig : Nat) (act : Action) : Process :=
  match sigaction p.toProcess sig act with
  | none => p
  | some (_, q) =>
      let p' : Process := { p with toProcess := q }
      { p' with
        pending := if ignores p' sig then Function.update p.pending sig 0 else p.pending }

/-- There is a handler for this signal. -/
def Caught (p : Process) (sig : Nat) : Prop := ∃ address, (p.table sig).handler = .fn address

/-- No handler is set, as in a program that has just been started. -/
def NoHandlers (p : Signals.Process) : Prop :=
  ∀ sig address, (p.table sig).handler ≠ .fn address

/-- Nothing is blocked, and every signal has its default action. -/
def plain : Signals.Process := ⟨∅, fun _ => ⟨.dfl, ∅, 0⟩⟩

theorem noHandlers_plain : NoHandlers plain := fun _ _ h => by cases h

theorem ignores_of_caught (p : Process) (sig : Nat) (h : Caught p sig) :
    ignores p sig = false := by
  rcases h with ⟨address, h⟩
  rw [ignores, h]

theorem cancelled_of_realtime (sig : Nat) (h : Realtime sig) : cancelled sig = ∅ := by
  have hcont : sig ≠ sigCont := by
    rintro rfl
    exact absurd h (by decide)
  have hstop : sig ∉ stopSignals := by
    intro hmem
    have hlow : ∀ r ∈ stopSignals, ¬ Realtime r := by decide
    exact hlow sig hmem h
  rw [cancelled, if_neg hcont, if_neg hstop]

theorem jobControl_of_cancelled (sig r : Nat) (h : r ∈ cancelled sig) : JobControl r := by
  rw [cancelled] at h
  split at h
  · exact .inr h
  · split at h
    · exact .inl (Finset.mem_singleton.mp h)
    · exact absurd h (Finset.notMem_empty r)

theorem send_realtime (p : Process) (sig : Nat) (h : Realtime sig)
    (hkept : ignores p sig = false ∨ sig ∈ p.mask) :
    (send p sig).pending sig = p.pending sig + 1 := by
  have hcond : ¬ (ignores p sig = true ∧ sig ∉ p.mask) := by
    rintro ⟨hi, hm⟩
    rcases hkept with hf | hin
    · rw [hf] at hi
      cases hi
    · exact hm hin
  simp only [send, if_neg hcond, Function.update_self, if_pos h, cancelled_of_realtime sig h,
    Finset.notMem_empty, if_false]

theorem send_standard (p : Process) (sig : Nat) (h : ¬ Realtime sig)
    (hkept : ignores p sig = false ∨ sig ∈ p.mask) : (send p sig).pending sig = 1 := by
  have hcond : ¬ (ignores p sig = true ∧ sig ∉ p.mask) := by
    rintro ⟨hi, hm⟩
    rcases hkept with hf | hin
    · rw [hf] at hi
      cases hi
    · exact hm hin
  simp only [send, if_neg hcond, Function.update_self, if_neg h]

/-- A signal that cannot be cancelled and is not the one that is sent. -/
theorem send_of_ne (p : Process) (sig r : Nat) (h : r ≠ sig) (hr : r ∉ cancelled sig) :
    (send p sig).pending r = p.pending r := by
  simp only [send]
  split
  · exact if_neg hr
  · rw [Function.update_of_ne h]
    exact if_neg hr

/-- One of the signals that stop a process waits, or lets it stop. -/
theorem ignores_of_stop (p : Process) (sig : Nat) (hsig : sig ∈ stopSignals)
    (h : (p.table sig).handler = .dfl) : ignores p sig = false := by
  have hstop : ∀ sig ∈ stopSignals,
      (defaultOf sig == .ignore || defaultOf sig == .resume) = false := by decide
  rw [ignores, h]
  exact hstop sig hsig

theorem cancelled_of_not_jobControl (sig : Nat) (h : ¬ JobControl sig) : cancelled sig = ∅ := by
  rw [cancelled, if_neg (fun hc => h (.inl hc)), if_neg (fun hc => h (.inr hc))]

/-- At most one more of any signal waits. -/
theorem send_le (p : Process) (sig r : Nat) :
    (send p sig).pending r ≤ p.pending r + (if r = sig then 1 else 0) := by
  have hkept : (if r ∈ cancelled sig then 0 else p.pending r) ≤ p.pending r := by
    split
    · exact Nat.zero_le _
    · exact Nat.le_refl _
  simp only [send]
  split
  · exact Nat.le_add_right_of_le hkept
  · by_cases hr : r = sig
    · subst hr
      rw [Function.update_self, if_pos rfl]
      split
      · exact Nat.add_le_add_right hkept 1
      · exact Nat.le_add_left 1 _
    · rw [Function.update_of_ne hr, if_neg hr]
      exact hkept

theorem send_le_one (p : Process) (sig r : Nat) (hr : ¬ Realtime r) (h : p.pending r ≤ 1) :
    (send p sig).pending r ≤ 1 := by
  have hkept : (if r ∈ cancelled sig then 0 else p.pending r) ≤ 1 := by
    split
    · exact Nat.zero_le 1
    · exact h
  simp only [send]
  split
  · exact hkept
  · by_cases hrs : r = sig
    · subst hrs
      rw [Function.update_self, if_neg hr]
    · rw [Function.update_of_ne hrs]
      exact hkept

theorem send_cancelled (p : Process) (sig r : Nat) (hr : r ∈ cancelled sig) (hne : r ≠ sig) :
    (send p sig).pending r = 0 := by
  simp only [send]
  split
  · exact if_pos hr
  · rw [Function.update_of_ne hne]
    exact if_pos hr

theorem take_self (p : Process) (sig : Nat) : (p.take sig).pending sig = p.pending sig - 1 :=
  Function.update_self sig _ _

theorem take_of_ne (p : Process) (sig r : Nat) (h : r ≠ sig) :
    (p.take sig).pending r = p.pending r := Function.update_of_ne h _ _

theorem take_le (p : Process) (sig r : Nat) : (p.take sig).pending r ≤ p.pending r := by
  by_cases hrs : r = sig
  · subst hrs
    rw [take_self]
    exact Nat.sub_le _ _
  · rw [take_of_ne p sig r hrs]

/-- Where nothing waits, only the signal that is sent waits. -/
theorem eq_of_send (p : Process) (sig r : Nat) (hnone : ∀ r, p.pending r = 0)
    (h : 0 < (send p sig).pending r) : r = sig := by
  by_contra hne
  have hle := send_le p sig r
  rw [if_neg hne, hnone r] at hle
  exact absurd (Nat.lt_of_lt_of_le h hle) (Nat.lt_irrefl 0)

/-- When it has been taken nothing waits again. -/
theorem take_send (p : Process) (sig r : Nat) (hnone : ∀ r, p.pending r = 0) :
    ((send p sig).take sig).pending r = 0 := by
  by_cases hr : r = sig
  · subst hr
    have hle := send_le p r r
    rw [if_pos rfl, hnone r] at hle
    rw [take_self]
    exact Nat.sub_eq_zero_of_le hle
  · rw [take_of_ne _ _ _ hr]
    by_contra hne
    exact hr (eq_of_send p sig r hnone (Nat.pos_of_ne_zero hne))

/-- Without a handler nothing changes but that the signal waits once less, and
    whether the process runs. -/
theorem dispose_spec (p : Process) (sig : Nat) :
    (dispose p sig).table = p.table ∧ (dispose p sig).mask = p.mask ∧
      (dispose p sig).pending = (p.take sig).pending := by
  unfold dispose
  split
  · exact ⟨rfl, rfl, rfl⟩
  · split
    · split
      · exact ⟨rfl, rfl, rfl⟩
      · exact ⟨rfl, rfl, rfl⟩
    · exact ⟨rfl, rfl, rfl⟩

/-- The mask stays, and so do the other actions. -/
theorem setAction_spec (p : Process) (sig : Nat) (act : Action) (h : Usable sig) :
    (setAction p sig act).mask = p.mask ∧
      (setAction p sig act).table =
        Function.update p.table sig { act with mask := act.mask \ reserved } := by
  simp only [setAction, sigaction_of_usable p.toProcess sig act h, and_self]

theorem orphaned_dispose (p : Process) (sig : Nat) :
    (dispose p sig).orphaned = p.orphaned := by
  unfold dispose
  split
  · rfl
  · split
    · split
      · rfl
      · rfl
    · rfl

/-- A signal that stops a process does so, unless the group is orphaned. -/
theorem dispose_of_stop (p : Process) (sig : Nat) (hsig : sig ∈ stopSignals)
    (h : (p.table sig).handler = .dfl) (hgroup : p.orphaned = false) :
    (dispose p sig).stopped = true := by
  have hstop : ∀ sig ∈ stopSignals, defaultOf sig = .stop := by decide
  have hnot : ¬ (p.orphaned = true ∧ sig ≠ sigStop) := by
    rw [hgroup]
    exact fun hc => Bool.false_ne_true hc.1
  rw [dispose, ignores_of_stop p sig hsig h, if_neg Bool.false_ne_true, hstop sig hsig]
  simp only [if_neg hnot]

/-- A stopped process stays stopped. -/
theorem stopped_dispose (p : Process) (sig : Nat) (h : p.stopped = true) :
    (dispose p sig).stopped = true := by
  unfold dispose
  split
  · exact h
  · split
    · split
      · exact h
      · rfl
    · exact h

end Delivery
