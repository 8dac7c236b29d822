import TlpiPractice.Theory.SigHandleOrder.Handlers

/-!
# Every Signal Reported

Which signals the program reports, how often, and in which order.

Whenever the signals come, and with any mask to come back to, the program has
reported every signal that it does not block as soon as there is nothing left
to deliver: a realtime signal as often as it was sent, and another one at
least once.

If they come while the program sleeps, as it is meant, the realtime signals
are reported in the order of their numbers and no standard signal twice.

## Main definitions

* `Quiet`: There is nothing left to report.
* `OrderInv`: What holds as well if the signals come during the sleep.

## Theorems

* `reported`: How often each signal is reported.
* `delivered_in_order`: The reports come in the order of the deliveries.
* `orderInv_step`: A step keeps the order.
* `reported_ordered`: The order of the reports.
-/

namespace TlpiPractice

namespace SigHandleOrder

open Delivery Runs Signals

/-- The program has come to its last loop, and there is nothing left to
    deliver. -/
structure Quiet (s : State) : Prop where
  user : UserMode s.p
  looping : s.pc = .looping
  frames : s.frames = []

theorem told_of_quiet (s : State) (h : Quiet s) : told s = s.lines := by
  rw [told, h.frames]
  exact List.append_nil _

theorem pending_of_quiet (handler : Nat) (origin : Finset Nat) (s : State)
    (h : HandleInv handler origin s) (hq : Quiet s) (sig : Nat) (hsig : sig ∉ origin) :
    s.p.pending sig = 0 := by
  by_contra hne
  refine hq.user.none sig ⟨hq.user.alive, Nat.pos_of_ne_zero hne, ?_, ?_⟩
  · rw [h.looping hq.looping hq.frames]
    exact fun hc => hsig (Finset.mem_sdiff.mp hc).1
  · rw [hq.user.running]
    exact fun hc => absurd hc Bool.false_ne_true

/-- However the signals come, as soon as there is nothing left to deliver the
    program has reported those it does not block. -/
theorem reported (handler : Nat) (p : Signals.Process) (hp : NoHandlers p) (pending : Nat → Nat)
    (orphaned : Bool) (tr : List (Event × State))
    (hrun : AllSteps (Step (setUp handler p).1) (initial (setUp handler p).2 pending orphaned) tr)
    (hquiet : Quiet (lastState (initial (setUp handler p).2 pending orphaned) tr)) :
    (∀ sig ∈ (lastState (initial (setUp handler p).2 pending orphaned) tr).lines,
        Usable sig ∧ sig ∉ p.mask) ∧
      ∀ sig, Usable sig → sig ∉ p.mask →
        (Realtime sig →
          (lastState (initial (setUp handler p).2 pending orphaned) tr).lines.count sig =
            (lastState (initial (setUp handler p).2 pending orphaned) tr).sent sig) ∧
        (lastState (initial (setUp handler p).2 pending orphaned) tr).lines.count sig ≤
            (lastState (initial (setUp handler p).2 pending orphaned) tr).sent sig ∧
        (¬ JobControl sig →
          0 < (lastState (initial (setUp handler p).2 pending orphaned) tr).sent sig →
            sig ∈ (lastState (initial (setUp handler p).2 pending orphaned) tr).lines) := by
  have hinv := always_last _ tr (always_of_allSteps handleInv_step _ tr
    (handleInv_initial handler p hp pending orphaned) hrun)
  have htold := told_of_quiet _ hquiet
  have horigin : (setUp handler p).1 = p.mask := rfl
  refine ⟨fun sig hsig => ?_, fun sig husable hmask => ?_⟩
  · rw [← htold] at hsig
    exact hinv.told sig hsig
  · have hnone := pending_of_quiet handler _ _ hinv hquiet sig hmask
    refine ⟨fun hrt => ?_, ?_, fun hjob hsent => ?_⟩
    · have hsame := hinv.realtime sig husable hrt
      rw [htold, hnone] at hsame
      exact hsame.symm
    · have hle := hinv.bounded sig
      rw [htold, hnone] at hle
      exact hle
    · have hpos := hinv.kept sig husable hjob hsent
      rw [htold, hnone] at hpos
      exact List.count_pos_iff.mp hpos

/-! ### The order -/

/-- The signal is sent while the program sleeps. -/
def SentAsleep (s : State) : Event → Prop
  | .send _ => s.pc = .sleeping
  | _ => True

/-- The realtime signals of a list. -/
def realtimes (l : List Nat) : List Nat := l.filter (fun sig => decide (Realtime sig))

structure OrderInv (origin : Finset Nat) (s : State) : Prop where
  sorted : (realtimes (told s)).Pairwise (· ≤ ·)
  /-- What has been told comes before what waits. -/
  ahead : ∀ a ∈ told s, Realtime a → ∀ r, Realtime r → 0 < s.p.pending r → r ∉ origin → a ≤ r
  once : ∀ sig, ¬ Realtime sig → (told s).count sig + s.p.pending sig ≤ 1

theorem told_of_sleeping {handler : Nat} {origin : Finset Nat} (s : State)
    (h : HandleInv handler origin s) (hpc : s.pc = .sleeping) : told s = [] := by
  rcases h.sleeping hpc with ⟨hframes, hlines, -⟩
  rw [told, hframes, hlines]
  rfl

section Order

variable {handler : Nat} {origin : Finset Nat}

theorem orderInv_enter (s : State) (sig : Nat) (h : HandleInv handler origin s)
    (ho : OrderInv origin s) (hsig : Chosen s.p sig) (hpc : s.pc = .looping)
    (horigin : sig ∉ origin) (hframes : s.frames = []) :
    OrderInv origin
      { s with p := enter s.p sig, frames := ⟨sig, s.p.mask, false⟩ :: s.frames } := by
  have htold := told_enter s sig hframes
  refine ⟨?_, ?_, fun r hr => ?_⟩
  · rw [htold]
    unfold realtimes
    rw [List.filter_append, List.pairwise_append]
    refine ⟨ho.sorted, ?_, fun a ha b hb => ?_⟩
    · exact List.Pairwise.sublist List.filter_sublist (List.pairwise_singleton _ sig)
    · rcases List.mem_filter.mp ha with ⟨ha, hart⟩
      rcases List.mem_filter.mp hb with ⟨hb, hbrt⟩
      rw [List.mem_singleton.mp hb] at hbrt ⊢
      exact ho.ahead a ha (of_decide_eq_true hart) sig (of_decide_eq_true hbrt) hsig.pending
        horigin
  · rw [htold]
    intro a ha hart r hrt hpending hr
    have hpending' : 0 < s.p.pending r := hpending.trans_le (take_le s.p sig r)
    rcases List.mem_append.mp ha with ha | ha
    · exact ho.ahead a ha hart r hrt hpending' hr
    · rw [List.mem_singleton.mp ha] at hart ⊢
      -- Of those that wait, the one that was chosen has the lowest number.
      refine hsig.lowest hart r ⟨hsig.alive, hpending', ?_, fun hstopped => ?_⟩ hrt
      · rw [h.looping hpc hframes]
        exact fun hc => hr (Finset.mem_sdiff.mp hc).1
      · -- A stopped process gets no realtime signal.
        rw [hsig.running hstopped] at hart
        exact absurd hart (by decide)
  · rw [htold, List.count_append]
    have hold := ho.once r hr
    show (told s).count r + [sig].count r + (s.p.take sig).pending r ≤ 1
    by_cases hrs : r = sig
    · subst hrs
      have hpos := hsig.pending
      rw [take_self, List.count_singleton_self]
      omega
    · rw [take_of_ne s.p sig r hrs, List.count_singleton, beq_false_of_ne (Ne.symm hrs)]
      exact hold

theorem orderInv_step (s : State) (e : Event) (s' : State)
    (h : HandleInv handler origin s ∧ OrderInv origin s) (hasleep : SentAsleep s e)
    (hstep : Step origin s e s') : HandleInv handler origin s' ∧ OrderInv origin s' := by
  refine ⟨handleInv_step s e s' h.1 hstep, ?_⟩
  rcases step_cases s e s' h.1 hstep with ⟨sig, rfl, rfl⟩ |
    ⟨sig, hsig, -, horigin, hpc, hframes, -, rfl⟩ | ⟨sig, -, -, rfl⟩ |
    ⟨-, -, htold, hpending, -⟩
  · -- Nothing has been told yet.
    have hnil := told_of_sleeping s h.1 hasleep
    have hnil' : told (next origin s (.send sig)) = [] := hnil
    refine ⟨?_, ?_, fun r hr => ?_⟩
    · rw [hnil']
      exact List.Pairwise.nil
    · rw [hnil']
      exact fun a ha => absurd ha List.not_mem_nil
    · rw [hnil', List.count_nil, Nat.zero_add]
      show (send s.p sig).pending r ≤ 1
      have hold := h.2.once r hr
      rw [hnil, List.count_nil, Nat.zero_add] at hold
      exact send_le_one s.p sig r hr hold
  · exact orderInv_enter s sig h.1 h.2 hsig hpc horigin hframes
  · have hless : ∀ r, (dispose s.p sig).pending r ≤ s.p.pending r := by
      intro r
      rw [(dispose_spec s.p sig).2.2]
      exact take_le s.p sig r
    refine ⟨h.2.sorted, fun a ha hart r hrt hr hout => ?_, fun r hr => ?_⟩
    · exact h.2.ahead a ha hart r hrt (Nat.lt_of_lt_of_le hr (hless r)) hout
    · exact (Nat.add_le_add_left (hless r) _).trans (h.2.once r hr)
  · refine ⟨?_, ?_, ?_⟩
    · rw [htold]
      exact h.2.sorted
    · rw [htold, hpending]
      exact h.2.ahead
    · rw [htold, hpending]
      exact h.2.once

end Order

/-- The handlers never nest, so the lines come in the order of the deliveries. A
    handler that has not printed yet is the last one. -/
theorem delivered_in_order (handler : Nat) (p : Signals.Process) (hp : NoHandlers p)
    (pending : Nat → Nat) (orphaned : Bool) (tr : List (Event × State))
    (hrun : AllSteps (Step (setUp handler p).1) (initial (setUp handler p).2 pending orphaned) tr) :
    Always (fun s => s.frames.length ≤ 1) (initial (setUp handler p).2 pending orphaned) tr ∧
      outputs handled (initial (setUp handler p).2 pending orphaned) tr =
        told (lastState (initial (setUp handler p).2 pending orphaned) tr) := by
  have hfirst := handleInv_initial handler p hp pending orphaned
  refine ⟨always_mono (fun s hs => ?_) _ tr
    (always_of_allSteps handleInv_step _ tr hfirst hrun), ?_⟩
  · cases hframes : s.frames with
    | nil => exact Nat.zero_le 1
    | cons f rest =>
        rw [(hs.frames f rest hframes).1]
        exact Nat.le_refl 1
  · exact (outputs_of_field _ told handleInv_step told_step _ tr hfirst hrun).symm

/-- If the signals come while the program sleeps, the realtime signals are reported
    in the order of their numbers, and no other one is reported twice. The lines
    come in the order of the deliveries. -/
theorem reported_ordered (handler : Nat) (p : Signals.Process) (hp : NoHandlers p)
    (pending : Nat → Nat) (orphaned : Bool) (hpending : ∀ sig, ¬ Realtime sig → pending sig ≤ 1)
    (tr : List (Event × State))
    (hrun : AllSteps (Step (setUp handler p).1) (initial (setUp handler p).2 pending orphaned) tr)
    (hasleep : StepsMeet SentAsleep (initial (setUp handler p).2 pending orphaned) tr) :
    (realtimes (lastState (initial (setUp handler p).2 pending orphaned) tr).lines).Pairwise
        (· ≤ ·) ∧
      (∀ sig, ¬ Realtime sig →
        (lastState (initial (setUp handler p).2 pending orphaned) tr).lines.count sig ≤ 1) ∧
      Always (fun s => s.frames.length ≤ 1) (initial (setUp handler p).2 pending orphaned) tr ∧
      outputs handled (initial (setUp handler p).2 pending orphaned) tr =
        (lastState (initial (setUp handler p).2 pending orphaned) tr).lines ++
          ((lastState (initial (setUp handler p).2 pending orphaned) tr).frames.filter
            (fun f => !f.printed)).map Frame.sig := by
  have hfirst : OrderInv (setUp handler p).1 (initial (setUp handler p).2 pending orphaned) :=
    ⟨List.Pairwise.nil, fun a ha => absurd ha List.not_mem_nil,
      fun sig hsig => (Nat.zero_add _).trans_le (hpending sig hsig)⟩
  have hinv := always_last _ tr (always_of_guarded orderInv_step _ tr
    ⟨handleInv_initial handler p hp pending orphaned, hfirst⟩ hrun hasleep)
  have hlines : (lastState (initial (setUp handler p).2 pending orphaned) tr).lines.Sublist
      (told (lastState (initial (setUp handler p).2 pending orphaned) tr)) :=
    List.sublist_append_left _ _
  refine ⟨hinv.2.sorted.sublist (hlines.filter _), fun sig hsig => ?_,
    delivered_in_order handler p hp pending orphaned tr hrun⟩
  have hone := hinv.2.once sig hsig
  have hless := hlines.count_le sig
  omega

/-! ### A run with one signal -/

/-- One realtime signal waits. -/
def oneWaits (sig : Nat) : Nat := if sig = 34 then 1 else 0

def oneSignal : List Event := [.main, .deliver 34, .print, .ret]

/-- The run of `oneSignal`. -/
def oneRun : List (Event × State) :=
  record (next (setUp 7 plain).1) (initial (setUp 7 plain).2 oneWaits false) oneSignal

theorem oneSignal_meets :
    StepsMeet Enabled (initial (setUp 7 plain).2 oneWaits false) oneRun ∧
      Quiet (lastState (initial (setUp 7 plain).2 oneWaits false) oneRun) := by
  have hone : ∀ sig, 0 < oneWaits sig → sig = 34 := by
    intro sig h
    by_contra hne
    rw [oneWaits, if_neg hne] at h
    exact absurd h (Nat.lt_irrefl 0)
  have hasleep : UserMode (initial (setUp 7 plain).2 oneWaits false).p := by
    refine userMode_of_pending _ rfl rfl (fun sig h => ?_)
    rw [hone sig h]
    exact blocksAll_setUp 7 plain 34 (by decide)
  have hmain : Enabled (initial (setUp 7 plain).2 oneWaits false) .main := ⟨hasleep, rfl, rfl⟩
  have hinv :=
    handleInv_step _ _ _ (handleInv_initial 7 plain noHandlers_plain oneWaits false) ⟨hmain, rfl⟩
  have hchosen : Chosen (next (setUp 7 plain).1 (initial (setUp 7 plain).2 oneWaits false) .main).p
      34 :=
    ⟨⟨rfl, Nat.one_pos, fun h => Finset.notMem_empty 34 (Finset.mem_sdiff.mp h).1,
      fun h => by cases h⟩, fun _ r hr _ => (hone r hr.pending).ge⟩
  rcases deliver_cases _ 34 hinv hchosen with ⟨-, -, -, -, -, heq⟩ | ⟨hother, -⟩
  · have hnone : ∀ sig, ¬ 0 < ((next (setUp 7 plain).1
        (initial (setUp 7 plain).2 oneWaits false) .main).p.take 34).pending sig := by
      intro sig h
      by_cases hsig : sig = 34
      · subst hsig
        rw [take_self] at h
        exact absurd h (Nat.lt_irrefl 0)
      · rw [take_of_ne _ 34 sig hsig] at h
        exact hsig (hone sig h)
    have hmeets : ∀ s, s = next (setUp 7 plain).1
        (next (setUp 7 plain).1 (initial (setUp 7 plain).2 oneWaits false) .main) (.deliver 34) →
        StepsMeet Enabled s (record (next (setUp 7 plain).1) s [.print, .ret]) ∧
          Quiet (lastState s (record (next (setUp 7 plain).1) s [.print, .ret])) := by
      rintro s hs
      rw [hs.trans heq]
      have huser : ∀ mask, UserMode { enter (next (setUp 7 plain).1
          (initial (setUp 7 plain).2 oneWaits false) .main).p 34 with mask := mask } := fun mask =>
        ⟨rfl, rfl, fun sig h => hnone sig h.pending⟩
      exact ⟨⟨⟨huser _, _, _, rfl, rfl⟩, ⟨huser _, _, _, rfl, rfl⟩, trivial⟩,
        ⟨huser _, rfl, rfl⟩⟩
    have hrest := hmeets _ rfl
    exact ⟨⟨hmain, hchosen, hrest.1⟩, hrest.2⟩
  · exact absurd (by decide) hother

theorem reported_oneSignal :
    (∀ sig ∈ (lastState (initial (setUp 7 plain).2 oneWaits false) oneRun).lines,
        Usable sig ∧ sig ∉ plain.mask) ∧
      ∀ sig, Usable sig → sig ∉ plain.mask →
        (Realtime sig →
          (lastState (initial (setUp 7 plain).2 oneWaits false) oneRun).lines.count sig =
            (lastState (initial (setUp 7 plain).2 oneWaits false) oneRun).sent sig) ∧
        (lastState (initial (setUp 7 plain).2 oneWaits false) oneRun).lines.count sig ≤
            (lastState (initial (setUp 7 plain).2 oneWaits false) oneRun).sent sig ∧
        (¬ JobControl sig →
          0 < (lastState (initial (setUp 7 plain).2 oneWaits false) oneRun).sent sig →
            sig ∈ (lastState (initial (setUp 7 plain).2 oneWaits false) oneRun).lines) :=
  reported 7 plain noHandlers_plain oneWaits false oneRun
    (allSteps_record Enabled _ _ _ oneSignal_meets.1) oneSignal_meets.2

theorem reported_ordered_oneSignal :
    (realtimes (lastState (initial (setUp 7 plain).2 oneWaits false) oneRun).lines).Pairwise
        (· ≤ ·) ∧
      (∀ sig, ¬ Realtime sig →
        (lastState (initial (setUp 7 plain).2 oneWaits false) oneRun).lines.count sig ≤ 1) ∧
      Always (fun s => s.frames.length ≤ 1) (initial (setUp 7 plain).2 oneWaits false) oneRun ∧
      outputs handled (initial (setUp 7 plain).2 oneWaits false) oneRun =
        (lastState (initial (setUp 7 plain).2 oneWaits false) oneRun).lines ++
          ((lastState (initial (setUp 7 plain).2 oneWaits false) oneRun).frames.filter
            (fun f => !f.printed)).map Frame.sig :=
  reported_ordered 7 plain noHandlers_plain oneWaits false
    (fun sig _ => by unfold oneWaits; split <;> decide) oneRun
    (allSteps_record Enabled _ _ _ oneSignal_meets.1) ⟨trivial, trivial, trivial, trivial, trivial⟩

end SigHandleOrder

end TlpiPractice
