import TlpiPractice.Core.UseWaitid

/-!
# One Report

What the parent prints, and how it ends, whatever becomes of the child.

The macros are for what `wait` gives, where the status of an exit is in the
second byte. Here every number but those whose low seven bits are all set
looks like an end of the child. So the parent leaves its loop after the first
report, also when the child has only been stopped or has gone on. It asks
again only after an exit with such a number, and then there is no child left
to ask about.

## Main definitions

* `Missed`: The changes that the parent does not take for an end.
* `WaitInv`: The invariant.

## Theorems

* `looksEnded_iff`: Which numbers look like an end.
* `wstopsig_eq_zero`: Which signal a stop is shown with.
* `waitInv_step`: A step keeps the invariant.
* `progress`: The parent can always come to an end.
* `reports_once`: One report, and the exit status.
-/

namespace TlpiPractice

namespace UseWaitid

open Runs

/-- The changes after which the parent goes on waiting. -/
def Missed (c : Change) : Prop := ∃ status, c = .exited status ∧ status % 128 = 127

theorem looksEnded_iff (status : Nat) :
    (wifexited status || wifsignaled status) = true ↔ status % 128 ≠ 127 := by
  have hmask : wtermsig status = status % 128 := Nat.and_two_pow_sub_one_eq_mod status 7
  have hlt : status % 128 < 128 := Nat.mod_lt _ (by decide)
  rw [Bool.or_eq_true, wifexited, wifsignaled, hmask, beq_iff_eq, decide_eq_true_eq,
    Int.shiftRight_eq_div_pow]
  split <;> omega

/-- The changes there are. -/
def Change.Valid : Change → Prop
  | .exited _ => True
  | .killed sig | .dumped sig | .stopped sig => sig ≤ sigMax
  | .continued => True

theorem missed_iff (c : Change) (h : c.Valid) : Missed c ↔ c.siStatus % 128 = 127 := by
  have hsmall : ∀ sig, sig ≤ sigMax → ¬ sig % 128 = 127 := by
    intro sig hsig
    unfold sigMax at hsig
    omega
  refine ⟨fun hm => ?_, fun hm => ?_⟩
  · rcases hm with ⟨status, rfl, hs⟩
    exact hs
  · cases c with
    | exited status => exact ⟨status, rfl, hm⟩
    | killed sig => exact absurd hm (hsmall sig h)
    | dumped sig => exact absurd hm (hsmall sig h)
    | stopped sig => exact absurd hm (hsmall sig h)
    | continued => exact absurd hm (by decide)

/-- Whatever stops the child, it is shown as stopped by signal 0. -/
theorem wstopsig_eq_zero (sig : Nat) (h : sig ≤ sigMax) : wstopsig sig = 0 := by
  have hshift : sig >>> 8 = 0 := by
    rw [Nat.shiftRight_eq_div_pow]
    unfold sigMax at h
    omega
  rw [wstopsig, hshift, Nat.zero_and]

/-- What is so between any two steps. -/
structure WaitInv (s : State) : Prop where
  /-- What has not been asked for has happened. -/
  news : ∀ c, s.news = some c → c.Valid ∧ c ∈ s.history ∧ (c.isEnd = true ↔ s.child = .dead)
  /-- The end of a child is there to ask about until it has been asked for. -/
  dead : s.child = .dead → s.reaped = false → s.news.isSome = true
  reaped : s.reaped = true → s.child = .dead ∧ s.news = none
  waiting : s.parent = .waiting →
    s.printed = [] ∧ s.reaped = false ∨
      ∃ c, c ∈ s.history ∧ Missed c ∧ s.printed = report 0 c ∧ s.reaped = true
  ended : ∀ code, s.parent = .ended code →
    ∃ c, c ∈ s.history ∧ s.printed = report 0 c ∧ (code = 0 ↔ ¬ Missed c) ∧
      (c.isEnd = true ↔ s.reaped = true)

theorem waitInv_initial : WaitInv initial where
  news := fun _ h => by cases h
  dead := fun h => by cases h
  reaped := fun h => by cases h
  waiting := fun _ => .inl ⟨rfl, rfl⟩
  ended := fun _ h => by cases h

/-- Something becomes of a child that is not dead. -/
theorem waitInv_change (s : State) (child : Child) (c : Change) (h : WaitInv s)
    (halive : s.child ≠ .dead) (hvalid : c.Valid) (hend : c.isEnd = true ↔ child = .dead) :
    WaitInv (s.change child c) where
  news := fun d hd => by
    have hcd : some c = some d := hd
    rw [Option.some_inj] at hcd
    subst hcd
    exact ⟨hvalid, List.mem_append_right _ (List.mem_singleton_self c), hend⟩
  dead := fun _ _ => rfl
  reaped := fun hr => absurd (h.reaped hr).1 halive
  waiting := fun hw => by
    rcases h.waiting hw with hnone | ⟨d, hd, hm, hp, hr⟩
    · exact .inl hnone
    · exact .inr ⟨d, List.mem_append_left _ hd, hm, hp, hr⟩
  ended := fun code hc => by
    rcases h.ended code hc with ⟨d, hd, hrest⟩
    exact ⟨d, List.mem_append_left _ hd, hrest⟩

/-- The parent asks. -/
theorem waitInv_turn (s : State) (h : WaitInv s) (hw : s.parent = .waiting)
    (hready : s.reaped = true ∨ s.news.isSome = true) : WaitInv (turn s) := by
  cases hnews : s.news with
  | none =>
      rw [hnews] at hready
      have hreaped : s.reaped = true := hready.resolve_right Bool.false_ne_true
      have hstep : turn s = { s with parent := .ended 1 } := by
        rw [turn, hnews]
      rw [hstep]
      refine ⟨h.news, h.dead, h.reaped, fun hc => (by cases hc), fun code hc => ?_⟩
      -- The end has been asked for before, and the parent has gone on, so it was missed.
      rcases h.waiting hw with ⟨-, hfresh⟩ | ⟨c, hmem, hm, hp, -⟩
      · rw [hreaped] at hfresh
        cases hfresh
      · have hcode : code = 1 := by
          cases hc
          rfl
        rcases hm with ⟨status, rfl, hs⟩
        refine ⟨.exited status, hmem, hp, ?_, ?_⟩
        · rw [hcode]
          exact ⟨fun h => absurd h Nat.one_ne_zero, fun h => absurd ⟨status, rfl, hs⟩ h⟩
        · exact ⟨fun _ => hreaped, fun _ => rfl⟩
  | some c =>
      rcases h.news c hnews with ⟨hvalid, hmem, hend⟩
      have hfresh : s.reaped = false := by
        cases hr : s.reaped with
        | false => rfl
        | true =>
            have hnone := (h.reaped hr).2
            rw [hnews] at hnone
            cases hnone
      have hprinted : s.printed = [] := by
        rcases h.waiting hw with ⟨hp, -⟩ | ⟨_, -, -, -, hr⟩
        · exact hp
        · rw [hfresh] at hr
          cases hr
      have hstep : turn s =
          { s with
            news := none
            reaped := c.isEnd
            printed := report 0 c
            parent :=
              if wifexited c.siStatus || wifsignaled c.siStatus then .ended 0 else .waiting } := by
        rw [turn, hnews, hprinted]
        rfl
      have hmissed := missed_iff c hvalid
      rw [hstep]
      refine ⟨fun _ hc => (by cases hc), fun hd hr => ?_, fun hr => ⟨hend.mp hr, rfl⟩, ?_, ?_⟩
      · have hdead := hend.mpr hd
        have hnot : c.isEnd = false := hr
        rw [hdead] at hnot
        cases hnot
      · intro hc
        have hstay : ¬ (wifexited c.siStatus || wifsignaled c.siStatus) = true := by
          intro hleave
          have hc' : (if (wifexited c.siStatus || wifsignaled c.siStatus) = true then
              Parent.ended 0 else .waiting) = .waiting := hc
          rw [if_pos hleave] at hc'
          cases hc'
        have hm := hmissed.mpr (not_not.mp (fun hne => hstay ((looksEnded_iff _).mpr hne)))
        refine .inr ⟨c, hmem, hm, rfl, ?_⟩
        rcases hm with ⟨status, rfl, -⟩
        rfl
      · intro code hc
        have hc' : (if (wifexited c.siStatus || wifsignaled c.siStatus) = true then
            Parent.ended 0 else .waiting) = .ended code := hc
        split at hc'
        · rename_i hleave
          cases hc'
          refine ⟨c, hmem, rfl, ?_, Iff.rfl⟩
          refine ⟨fun _ hm => (looksEnded_iff _).mp hleave (hmissed.mp hm), fun _ => rfl⟩
        · cases hc'

theorem waitInv_step (arg : Option CString) (s : State) (e : Event) (s' : State)
    (h : WaitInv s) (hstep : Step arg s e s') : WaitInv s' := by
  rcases hstep with ⟨hen, rfl⟩
  have halive : ∀ child, s.child = child → child ≠ .dead → s.child ≠ .dead := by
    rintro child rfl hne
    exact hne
  cases e with
  | exits =>
      rcases hen with ⟨hrun, hsome⟩
      cases arg with
      | none => exact h
      | some arg =>
          exact waitInv_change s .dead _ h (halive _ hrun Child.noConfusion) trivial
            ⟨fun _ => rfl, fun _ => rfl⟩
  | stops sig =>
      rcases hen with ⟨hrun, hsig⟩
      have hsmall : ∀ sig ∈ stopSignals, sig ≤ sigMax := by decide
      exact waitInv_change s .stopped _ h (halive _ hrun Child.noConfusion) (hsmall sig hsig)
        ⟨fun hc => (by cases hc), fun hc => (by cases hc)⟩
  | continues =>
      exact waitInv_change s .running _ h (halive _ hen Child.noConfusion) trivial
        ⟨fun hc => (by cases hc), fun hc => (by cases hc)⟩
  | kills sig core =>
      rcases hen with ⟨hne, -, hsmall⟩
      cases core with
      | true => exact waitInv_change s .dead _ h hne hsmall ⟨fun _ => rfl, fun _ => rfl⟩
      | false => exact waitInv_change s .dead _ h hne hsmall ⟨fun _ => rfl, fun _ => rfl⟩
  | waits => exact waitInv_turn s h hen.1 hen.2

def Child.remaining : Child → Nat
  | .dead => 0
  | _ => 1

/-- How often the parent asks at most once the child is dead. -/
def Parent.remaining (reaped : Bool) : Parent → Nat
  | .waiting => if reaped then 1 else 2
  | .ended _ => 0

/-- How far the parent is from its end, if somebody kills the child. -/
def remaining (s : State) : Nat := s.child.remaining + s.parent.remaining s.reaped

theorem remaining_pos (reaped : Bool) : 0 < Parent.waiting.remaining reaped := by
  cases reaped <;> decide

theorem remaining_reaped (p : Parent) : p.remaining true < Parent.waiting.remaining false := by
  cases p with
  | waiting => decide
  | ended code => exact remaining_pos false

/-- Until the parent has ended, the child can be killed, or there is something
    to ask for. -/
theorem progress (arg : Option CString) (s : State) (h : WaitInv s) :
    (∃ code, s.parent = .ended code) ∨
      ∃ e s', Step arg s e s' ∧ WaitInv s' ∧ remaining s' < remaining s := by
  cases hw : s.parent with
  | ended code => exact .inl ⟨code, rfl⟩
  | waiting =>
      refine .inr ?_
      by_cases hdead : s.child = .dead
      · have hready : s.reaped = true ∨ s.news.isSome = true := by
          cases hr : s.reaped with
          | true => exact .inl rfl
          | false => exact .inr (h.dead hdead hr)
        refine ⟨.waits, _, ⟨⟨hw, hready⟩, rfl⟩, waitInv_turn s h hw hready, ?_⟩
        show remaining (turn s) < remaining s
        cases hnews : s.news with
        | none =>
            have hstep : turn s = { s with parent := .ended 1 } := by
              rw [turn, hnews]
            rw [hstep, remaining, remaining, hw]
            exact Nat.add_lt_add_left (remaining_pos s.reaped) _
        | some c =>
            have hend := (h.news c hnews).2.2.mpr hdead
            have hfresh : s.reaped = false := by
              cases hr : s.reaped with
              | false => rfl
              | true =>
                  have hnone := (h.reaped hr).2
                  rw [hnews] at hnone
                  cases hnone
            rw [remaining, remaining, hw, hfresh]
            simp only [turn, hnews, hend]
            exact Nat.add_lt_add_left (remaining_reaped _) _
      -- Somebody can always kill the child.
      · have hkill : Enabled arg s (.kills 9 false) := ⟨hdead, by decide, by decide⟩
        refine ⟨_, _, ⟨hkill, rfl⟩, waitInv_step arg s _ _ h ⟨hkill, rfl⟩, ?_⟩
        have hless : Child.dead.remaining < s.child.remaining := by
          cases hc : s.child with
          | dead => exact absurd hc hdead
          | running => decide
          | stopped => decide
        exact Nat.add_lt_add_right hless _

/-- Whatever becomes of the child and whenever the parent asks, the parent prints
    one report and fails exactly if the child has exited with a number that it
    does not take for an end. -/
theorem reports_once (arg : Option CString) (tr : List (Event × State))
    (hrun : AllSteps (Step arg) initial tr) :
    ((lastState initial tr).parent = .waiting →
        (lastState initial tr).printed = [] ∨
          ∃ c, Missed c ∧ (lastState initial tr).printed = report 0 c) ∧
      (∀ code, (lastState initial tr).parent = .ended code →
        ∃ c, c ∈ (lastState initial tr).history ∧ (lastState initial tr).printed = report 0 c ∧
          (code = 0 ↔ ¬ Missed c)) ∧
      CanReach (Step arg) (lastState initial tr) (fun s => ∃ code, s.parent = .ended code) := by
  have hinv := always_last _ tr
    (always_of_allSteps (waitInv_step arg) initial tr waitInv_initial hrun)
  refine ⟨fun hw => ?_, fun code hc => ?_, canReach_of_progress (progress arg) _ hinv⟩
  · rcases hinv.waiting hw with ⟨hp, -⟩ | ⟨c, -, hm, hp, -⟩
    · exact .inl hp
    · exact .inr ⟨c, hm, hp⟩
  · rcases hinv.ended code hc with ⟨c, hmem, hp, hcode, -⟩
    exact ⟨c, hmem, hp, hcode⟩

/-- The child exits with 127, and the parent asks twice. -/
def exit127 : List Event := [.exits, .waits, .waits]

def arg127 : Option CString := some (.ofBytes [49, 50, 55])

theorem reports_once_exit127 :
    ((lastState initial (record (next arg127) initial exit127)).parent = .waiting →
        (lastState initial (record (next arg127) initial exit127)).printed = [] ∨
          ∃ c, Missed c ∧
            (lastState initial (record (next arg127) initial exit127)).printed = report 0 c) ∧
      (∀ code,
        (lastState initial (record (next arg127) initial exit127)).parent = .ended code →
        ∃ c, c ∈ (lastState initial (record (next arg127) initial exit127)).history ∧
          (lastState initial (record (next arg127) initial exit127)).printed = report 0 c ∧
          (code = 0 ↔ ¬ Missed c)) ∧
      CanReach (Step arg127) (lastState initial (record (next arg127) initial exit127))
        (fun s => ∃ code, s.parent = .ended code) := by
  refine reports_once arg127 _ (allSteps_record (Enabled arg127) _ _ _ ?_)
  refine ⟨⟨rfl, rfl⟩, ⟨rfl, .inr rfl⟩, ⟨?_, .inl rfl⟩, trivial⟩
  decide

end UseWaitid

end TlpiPractice
