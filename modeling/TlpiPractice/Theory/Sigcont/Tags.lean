import TlpiPractice.Core.Sigcont

/-!
# The Tag in Each Line

What each line shows, however often the program is stopped and let go on.

For the first ten lines `SIGCONT` is blocked, so the handler does not run. It
lets the process go on all the same. Behind the tenth line the handler has run
by the time of the next line if any `SIGCONT` was sent. A signal that stops the
process makes one that waits disappear, but then the process is stopped, and
only another `SIGCONT` lets it print again. In an orphaned process group it
would not be stopped, and the tag could stay.

## Main definitions

* `Early`: The old mask has not come back yet.
* `StopsPending`: The process is stopped or about to be.
* `TagInv`: The invariant.

## Theorems

* `setUp_spec`: The mask and the handler.
* `stopsPending_step`: Only a `SIGCONT` keeps the process from being stopped.
* `tagInv_send`, `tagInv_deliver`, `tagInv_print`, `tagInv_unblock`: Every event
  keeps the invariant.
* `tags`: What each line shows.
-/

namespace TlpiPractice

namespace Sigcont

open Delivery Runs Signals

/-- The old mask has not come back yet. -/
def Early (s : State) : Prop := s.cnt < 10 ∨ s.pc = .unblocking

/-- The process is stopped, or a signal that stops it waits. -/
def StopsPending (p : Delivery.Process) : Prop :=
  p.stopped = true ∨ ∃ sig ∈ stopSignals, 0 < p.pending sig

/-- What is so between any two steps. -/
structure TagInv (origin : Finset Nat) (s : State) : Prop where
  caught : Caught s.p sigCont
  others : ∀ sig, sig ≠ sigCont → ∀ address, (s.p.table sig).handler ≠ .fn address
  stops : ∀ sig ∈ stopSignals, (s.p.table sig).handler = .dfl
  group : s.p.orphaned = false
  unblocking : s.pc = .unblocking → s.cnt = 10
  early : Early s → s.frame = none ∧ s.tag = 10086 ∧ sigCont ∈ s.p.mask ∧
    ∀ sig ∈ stopSignals, sig ∉ s.p.mask
  late : ¬ Early s → s.frame = none → s.p.mask = origin \ reserved
  frame : ∀ saved, s.frame = some saved → saved = origin \ reserved ∧ sigCont ∈ s.p.mask
  /-- A `SIGCONT` that was sent has been handled, or will be before the next
      line. -/
  sent : s.continued = true →
    s.tag = 0 ∨ s.frame.isSome = true ∨ 0 < s.p.pending sigCont ∨ StopsPending s.p
  unsent : s.continued = false → s.tag = 10086 ∧ s.frame = none ∧ s.p.pending sigCont = 0
  length : s.lines.length = s.cnt
  lines : ∀ k l, s.lines[k]? = some l →
    l.tag = if 10 ≤ k ∧ l.continued = true then 0 else 10086

theorem setUp_spec (handler : Nat) (p : Signals.Process) :
    (setUp handler p).1 = p.mask ∧ (setUp handler p).2.mask = insert sigCont p.mask ∧
      (setUp handler p).2.table = Function.update p.table sigCont
        { sa handler with mask := (sa handler).mask \ reserved } := by
  have husable : Usable sigCont := by decide
  have hset : sigaddset sigemptyset sigCont = {sigCont} :=
    (sigaddset_of_usable _ _ husable).trans (insert_empty_eq sigCont)
  unfold setUp
  rw [hset, sigprocmask_block_singleton p sigCont husable]
  simp only [sigaction_of_usable _ _ _ husable]
  exact ⟨trivial, trivial, trivial⟩

theorem tagInv_initial (handler : Nat) (p : Signals.Process) (hp : NoHandlers p)
    (hdefault : ∀ sig ∈ stopSignals, (p.table sig).handler = .dfl ∧ sig ∉ p.mask)
    (pending : Nat → Nat) :
    TagInv (setUp handler p).1 (initial (setUp handler p).2 pending false) := by
  have hspec := setUp_spec handler p
  have hne : ∀ sig ∈ stopSignals, sig ≠ sigCont := by decide
  have hother : ∀ sig, sig ≠ sigCont → (setUp handler p).2.table sig = p.table sig := by
    intro sig hsig
    rw [hspec.2.2, Function.update_of_ne hsig]
  refine ⟨⟨handler, ?_⟩, fun sig hsig address => ?_, fun sig hsig => ?_, rfl,
    fun h => (by cases h), fun _ => ⟨rfl, rfl, ?_, fun sig hsig => ?_⟩,
    fun h => absurd (.inl (Nat.succ_pos 9)) h, fun _ h => (by cases h),
    fun h => .inr (.inr (.inl (of_decide_eq_true h))),
    fun h => ⟨rfl, rfl, Nat.eq_zero_of_not_pos (of_decide_eq_false h)⟩, rfl,
    fun k l h => (by cases h)⟩
  · show ((setUp handler p).2.table sigCont).handler = .fn handler
    rw [hspec.2.2, Function.update_self]
    rfl
  · show ((setUp handler p).2.table sig).handler ≠ .fn address
    rw [hother sig hsig]
    exact hp sig address
  · show ((setUp handler p).2.table sig).handler = .dfl
    rw [hother sig (hne sig hsig)]
    exact (hdefault sig hsig).1
  · show sigCont ∈ (setUp handler p).2.mask
    rw [hspec.2.1]
    exact Finset.mem_insert_self _ _
  · show sig ∉ (setUp handler p).2.mask
    rw [hspec.2.1]
    exact fun h => (Finset.mem_insert.mp h).elim (hne sig hsig) (hdefault sig hsig).2

/-- A process that is about to stop is about to stop, or has stopped. -/
theorem stopsPending_dispose (p : Delivery.Process) (sig : Nat)
    (hdefault : ∀ r ∈ stopSignals, (p.table r).handler = .dfl) (hgroup : p.orphaned = false)
    (h : StopsPending p) : StopsPending (dispose p sig) := by
  rcases h with hstopped | ⟨r, hr, hpending⟩
  · exact .inl (stopped_dispose p sig hstopped)
  · by_cases hrs : r = sig
    · subst hrs
      exact .inl (dispose_of_stop p r hr (hdefault r hr) hgroup)
    · refine .inr ⟨r, hr, ?_⟩
      rw [(dispose_spec p sig).2.2, take_of_ne p sig r hrs]
      exact hpending

section Steps

variable {origin : Finset Nat}

theorem stopsPending_stop (s : State) (sig : Nat) (h : TagInv origin s)
    (hstop : sig ∈ stopSignals) : StopsPending (send s.p sig) := by
  have hlow : ∀ sig ∈ stopSignals, ¬ Realtime sig := by decide
  refine .inr ⟨sig, hstop, ?_⟩
  rw [send_standard s.p sig (hlow sig hstop)
    (.inl (ignores_of_stop s.p sig hstop (h.stops sig hstop)))]
  exact Nat.one_pos

/-- Only a `SIGCONT` lets the process go on. -/
theorem stopsPending_send (s : State) (sig : Nat) (h : TagInv origin s) (hsig : sig ≠ sigCont)
    (hs : StopsPending s.p) : StopsPending (send s.p sig) := by
  rcases hs with hstopped | ⟨r, hr, hpending⟩
  · refine .inl ?_
    show (s.p.stopped && sig != sigCont) = true
    rw [hstopped, bne_iff_ne.mpr hsig]
    rfl
  · by_cases hstop : sig ∈ stopSignals
    · exact stopsPending_stop s sig h hstop
    · refine .inr ⟨r, hr, ?_⟩
      have hrs : r ≠ sig := by
        rintro rfl
        exact hstop hr
      have hjob : cancelled sig = ∅ :=
        cancelled_of_not_jobControl sig (fun hj => hj.elim hsig hstop)
      rw [send_of_ne s.p sig r hrs (by rw [hjob]; exact Finset.notMem_empty r)]
      exact hpending

theorem tagInv_send (s : State) (sig : Nat) (h : TagInv origin s) :
    TagInv origin (next origin s (.send sig)) := by
  have hcont : ¬ Realtime sigCont := by decide
  have hcaught := ignores_of_caught s.p sigCont h.caught
  refine ⟨h.caught, h.others, h.stops, h.group, h.unblocking, h.early, h.late, h.frame,
    fun hc => ?_, fun hc => ?_, h.length, h.lines⟩
  · show s.tag = 0 ∨ s.frame.isSome = true ∨ 0 < (send s.p sig).pending sigCont ∨
      StopsPending (send s.p sig)
    by_cases hsig : sig = sigCont
    · subst hsig
      refine .inr (.inr (.inl ?_))
      rw [send_standard s.p sigCont hcont (.inl hcaught)]
      exact Nat.one_pos
    · by_cases hstop : sig ∈ stopSignals
      · -- It cancels a `SIGCONT` that waits, but then it stops the process.
        exact .inr (.inr (.inr (stopsPending_stop s sig h hstop)))
      · have hjob : cancelled sig = ∅ :=
          cancelled_of_not_jobControl sig (fun hj => hj.elim hsig hstop)
        have hold : s.continued = true := by
          have hc' : (s.continued || sig == sigCont) = true := hc
          rw [beq_false_of_ne hsig, Bool.or_false] at hc'
          exact hc'
        rcases h.sent hold with htag | hframe | hpending | hstops
        · exact .inl htag
        · exact .inr (.inl hframe)
        · refine .inr (.inr (.inl ?_))
          rw [send_of_ne s.p sig sigCont (Ne.symm hsig)
            (by rw [hjob]; exact Finset.notMem_empty sigCont)]
          exact hpending
        · exact .inr (.inr (.inr (stopsPending_send s sig h hsig hstops)))
  · have hc' : (s.continued || sig == sigCont) = false := hc
    rw [Bool.or_eq_false_iff, beq_eq_false_iff_ne] at hc'
    rcases h.unsent hc'.1 with ⟨htag, hframe, hpending⟩
    refine ⟨htag, hframe, ?_⟩
    have hle := send_le s.p sig sigCont
    rw [if_neg (Ne.symm hc'.2), hpending] at hle
    exact Nat.le_zero.mp hle

theorem tagInv_deliver (s : State) (sig : Nat) (h : TagInv origin s) (hsig : Chosen s.p sig) :
    TagInv origin (deliver s sig) := by
  by_cases hcont : sig = sigCont
  · subst hcont
    rcases h.caught with ⟨address, haddress⟩
    have hstep : deliver s sigCont =
        { s with p := enter s.p sigCont, frame := some s.p.mask } := by
      rw [deliver, haddress]
    -- It is blocked for the first ten lines.
    have hlate : ¬ Early s := fun hc => hsig.unblocked (h.early hc).2.2.1
    have hframe : s.frame = none := by
      cases hf : s.frame with
      | none => rfl
      | some saved => exact absurd (h.frame saved hf).2 hsig.unblocked
    rw [hstep]
    refine ⟨⟨address, haddress⟩, h.others, h.stops, h.group, h.unblocking,
      fun hc => absurd hc hlate, fun _ hc => (by cases hc), fun saved hc => ?_,
      fun _ => .inr (.inl rfl), fun hc => ?_, h.length, h.lines⟩
    · have hmask := h.late hlate hframe
      cases hc
      refine ⟨hmask, Finset.mem_union_right _ (Finset.mem_sdiff.mpr ?_)⟩
      exact ⟨Finset.mem_insert_self _ _, by decide⟩
    · have hpos := hsig.pending
      have hnone := (h.unsent hc).2.2
      omega
  · have hother := h.others sig hcont
    have hstep : deliver s sig = { s with p := dispose s.p sig } := by
      unfold deliver
      cases hact : (s.p.table sig).handler with
      | fn address => exact absurd hact (hother address)
      | _ => rfl
    have hspec := dispose_spec s.p sig
    have hpending : (dispose s.p sig).pending sigCont = s.p.pending sigCont := by
      rw [hspec.2.2, take_of_ne s.p sig sigCont (Ne.symm hcont)]
    rw [hstep]
    refine ⟨?_, ?_, ?_, (orphaned_dispose s.p sig).trans h.group, h.unblocking, ?_, ?_, ?_,
      fun hc => ?_, fun hc => ?_, h.length, h.lines⟩
    · show ∃ address, ((dispose s.p sig).table sigCont).handler = .fn address
      rw [hspec.1]
      exact h.caught
    · show ∀ sig', sig' ≠ sigCont → ∀ address,
        ((dispose s.p sig).table sig').handler ≠ .fn address
      rw [hspec.1]
      exact h.others
    · show ∀ sig' ∈ stopSignals, ((dispose s.p sig).table sig').handler = .dfl
      rw [hspec.1]
      exact h.stops
    · show Early s → s.frame = none ∧ s.tag = 10086 ∧ sigCont ∈ (dispose s.p sig).mask ∧
        ∀ sig' ∈ stopSignals, sig' ∉ (dispose s.p sig).mask
      rw [hspec.2.1]
      exact h.early
    · show ¬ Early s → s.frame = none → (dispose s.p sig).mask = origin \ reserved
      rw [hspec.2.1]
      exact h.late
    · show ∀ saved, s.frame = some saved →
        saved = origin \ reserved ∧ sigCont ∈ (dispose s.p sig).mask
      rw [hspec.2.1]
      exact h.frame
    · show s.tag = 0 ∨ s.frame.isSome = true ∨ 0 < (dispose s.p sig).pending sigCont ∨
        StopsPending (dispose s.p sig)
      rw [hpending]
      rcases h.sent hc with htag | hframe | hpos | hstop
      · exact .inl htag
      · exact .inr (.inl hframe)
      · exact .inr (.inr (.inl hpos))
      · exact .inr (.inr (.inr (stopsPending_dispose s.p sig h.stops h.group hstop)))
    · show s.tag = 10086 ∧ s.frame = none ∧ (dispose s.p sig).pending sigCont = 0
      rw [hpending]
      exact h.unsent hc

/-- Where `main` goes on the process is not about to be stopped. -/
theorem not_stopsPending (s : State) (h : TagInv origin s) (huser : UserMode s.p)
    (hframe : s.frame = none) (hstops : ∀ sig ∈ stopSignals, sig ∉ origin) :
    ¬ StopsPending s.p := by
  rintro (hstopped | ⟨sig, hsig, hpending⟩)
  · rw [huser.running] at hstopped
    cases hstopped
  · refine huser.none sig ⟨huser.alive, hpending, ?_, ?_⟩
    · by_cases hearly : Early s
      · exact (h.early hearly).2.2.2 sig hsig
      · rw [h.late hearly hframe]
        exact fun hc => hstops sig hsig (Finset.mem_sdiff.mp hc).1
    · rw [huser.running]
      exact fun hc => absurd hc Bool.false_ne_true

/-- Nothing is left to deliver, so a `SIGCONT` that was sent has been handled. -/
theorem tag_of_user (s : State) (h : TagInv origin s) (huser : UserMode s.p)
    (hframe : s.frame = none) (horigin : sigCont ∉ origin)
    (hstops : ∀ sig ∈ stopSignals, sig ∉ origin) (hlate : ¬ Early s) :
    s.tag = if s.continued = true then 0 else 10086 := by
  have hnone : ¬ 0 < s.p.pending sigCont := by
    intro hpending
    refine huser.none sigCont ⟨huser.alive, hpending, ?_, ?_⟩
    · rw [h.late hlate hframe]
      exact fun hc => horigin (Finset.mem_sdiff.mp hc).1
    · rw [huser.running]
      exact fun hc => absurd hc Bool.false_ne_true
  cases hc : s.continued with
  | false => exact (h.unsent hc).1
  | true =>
      rcases h.sent hc with htag | hsome | hpending | hstop
      · exact htag
      · rw [hframe] at hsome
        cases hsome
      · exact absurd hpending hnone
      · exact absurd hstop (not_stopsPending s h huser hframe hstops)

/-- The old mask has come back before a line or has not. -/
theorem early_print (s : State) (lines : List Line) (hpc : s.pc = .printing) :
    Early { s with
      cnt := s.cnt + 1, lines := lines,
      pc := if s.cnt + 1 = 10 then .unblocking else .printing } ↔ Early s := by
  show (s.cnt + 1 < 10 ∨ (if s.cnt + 1 = 10 then Pc.unblocking else .printing) = .unblocking) ↔
    (s.cnt < 10 ∨ s.pc = .unblocking)
  rw [hpc]
  split
  · exact ⟨fun _ => .inl (by omega), fun _ => .inr rfl⟩
  · rename_i hne
    refine ⟨fun h => .inl ?_, fun h => .inl ?_⟩
    · have hlt := h.resolve_right Pc.noConfusion
      omega
    · have hlt := h.resolve_right Pc.noConfusion
      omega

/-- `main` prints a line. -/
theorem tagInv_print (s : State) (h : TagInv origin s) (huser : UserMode s.p)
    (hframe : s.frame = none) (horigin : sigCont ∉ origin)
    (hstops : ∀ sig ∈ stopSignals, sig ∉ origin) (hpc : s.pc = .printing) :
    TagInv origin { s with
      cnt := s.cnt + 1
      lines := s.lines ++ [⟨s.tag, s.continued⟩]
      pc := if s.cnt + 1 = 10 then .unblocking else .printing } := by
  have hearly := early_print s (s.lines ++ [⟨s.tag, s.continued⟩]) hpc
  refine ⟨h.caught, h.others, h.stops, h.group, fun hc => ?_, fun hc => h.early (hearly.mp hc),
    fun hc => h.late (fun he => hc (hearly.mpr he)), h.frame, h.sent, h.unsent, ?_,
    fun k l hl => ?_⟩
  · have hc' : (if s.cnt + 1 = 10 then Pc.unblocking else .printing) = .unblocking := hc
    by_contra hne
    rw [if_neg hne] at hc'
    cases hc'
  · show (s.lines ++ [(⟨s.tag, s.continued⟩ : Line)]).length = s.cnt + 1
    rw [List.length_append, h.length]
    rfl
  · have hl' : (s.lines ++ [(⟨s.tag, s.continued⟩ : Line)])[k]? = some l := hl
    by_cases hk : k < s.lines.length
    · rw [List.getElem?_append_left hk] at hl'
      exact h.lines k l hl'
    · rw [List.getElem?_append_right (Nat.le_of_not_lt hk)] at hl'
      have hlast : k = s.lines.length ∧ l = ⟨s.tag, s.continued⟩ := by
        cases hd : k - s.lines.length with
        | zero =>
            rw [hd] at hl'
            cases hl'
            exact ⟨by omega, rfl⟩
        | succ d =>
            rw [hd] at hl'
            cases hl'
      rcases hlast with ⟨hk, rfl⟩
      rw [h.length] at hk
      show s.tag = if 10 ≤ k ∧ s.continued = true then 0 else 10086
      -- Only the new line can be a late one.
      by_cases hten : 10 ≤ k
      · have hlate : ¬ Early s := by
          rintro (hlt | hun)
          · omega
          · rw [hpc] at hun
            cases hun
        rw [tag_of_user s h huser hframe horigin hstops hlate]
        exact if_congr ⟨fun hc => ⟨hten, hc⟩, fun hc => hc.2⟩ rfl rfl
      · rw [if_neg (fun hc => hten hc.1)]
        exact (h.early (.inl (by omega))).2.1

/-- `main` gets its mask back. -/
theorem tagInv_unblock (s : State) (h : TagInv origin s) (hframe : s.frame = none)
    (hpc : s.pc = .unblocking) :
    TagInv origin { s with p := { s.p with mask := origin \ reserved }, pc := .printing } := by
  have hten := h.unblocking hpc
  have hnot : ¬ Early { s with p := { s.p with mask := origin \ reserved }, pc := .printing } := by
    rintro (hlt | hun)
    · have hlt' : s.cnt < 10 := hlt
      omega
    · cases hun
  refine ⟨h.caught, h.others, h.stops, h.group, fun hc => (by cases hc),
    fun hc => absurd hc hnot, fun _ _ => rfl, fun saved hc => ?_, h.sent, h.unsent, h.length,
    h.lines⟩
  have hc' : s.frame = some saved := hc
  rw [hframe] at hc'
  cases hc'

theorem tagInv_step (horigin : sigCont ∉ origin) (hstops : ∀ sig ∈ stopSignals, sig ∉ origin)
    (s : State) (e : Event) (s' : State) (h : TagInv origin s) (hstep : Step origin s e s') :
    TagInv origin s' := by
  rcases hstep with ⟨hen, rfl⟩
  cases e with
  | send sig => exact tagInv_send s sig h
  | deliver sig => exact tagInv_deliver s sig h hen
  | handle =>
      rcases hen with ⟨-, hsome⟩
      rcases Option.isSome_iff_exists.mp hsome with ⟨saved, hframe⟩
      have hstep : next origin s .handle =
          { s with p := { s.p with mask := saved }, tag := 0, frame := none } := by
        rw [next, hframe]
      -- The handler cannot have started before the old mask came back.
      have hlate : ¬ Early s := by
        intro hc
        have hnone := (h.early hc).1
        rw [hframe] at hnone
        cases hnone
      rw [hstep]
      refine ⟨h.caught, h.others, h.stops, h.group, h.unblocking, fun hc => absurd hc hlate,
        fun _ _ => (h.frame saved hframe).1, fun _ hc => (by cases hc), fun _ => .inl rfl,
        fun hc => ?_, h.length, h.lines⟩
      have hnone := (h.unsent hc).2.1
      rw [hframe] at hnone
      cases hnone
  | main =>
      rcases hen with ⟨huser, hframe⟩
      rw [next]
      cases hpc : s.pc with
      | printing => exact tagInv_print s h huser hframe horigin hstops hpc
      | unblocking => exact tagInv_unblock s h hframe hpc

/-- A process that is about to be stopped stays so until somebody sends a
    `SIGCONT`. -/
theorem stopsPending_step (hstops : ∀ sig ∈ stopSignals, sig ∉ origin) (s : State) (e : Event)
    (s' : State) (h : TagInv origin s) (hs : StopsPending s.p) (hstep : Step origin s e s')
    (hne : e ≠ .send sigCont) : StopsPending s'.p := by
  rcases hstep with ⟨hen, rfl⟩
  cases e with
  | send sig =>
      refine stopsPending_send s sig h ?_ hs
      rintro rfl
      exact hne rfl
  | deliver sig =>
      show StopsPending (deliver s sig).p
      unfold deliver
      cases hact : (s.p.table sig).handler with
      | fn address =>
          have hcont : sig = sigCont := by
            by_contra hsig
            exact h.others sig hsig address hact
          subst hcont
          have hother : ∀ sig ∈ stopSignals, sig ≠ sigCont := by decide
          refine hs.imp_right (fun ⟨r, hr, hpending⟩ => ⟨r, hr, ?_⟩)
          show 0 < (s.p.take sigCont).pending r
          rw [take_of_ne s.p sigCont r (hother r hr)]
          exact hpending
      | _ => exact stopsPending_dispose s.p sig h.stops h.group hs
  | handle =>
      rcases Option.isSome_iff_exists.mp hen.2 with ⟨saved, hframe⟩
      rw [next, hframe]
      exact hs
  | main => exact absurd hs (not_stopsPending s h hen.1 hen.2 hstops)

end Steps

/-- For the first ten lines the tag is as it was, and from then on it is cleared
    exactly if a `SIGCONT` had been sent before the line. A signal that stops the
    process discards a `SIGCONT` that waits, but `main` does not go on before it has
    got another one. The process group is not orphaned. -/
theorem tags (handler : Nat) (p : Signals.Process) (hp : NoHandlers p)
    (hcont : sigCont ∉ p.mask)
    (hdefault : ∀ sig ∈ stopSignals, (p.table sig).handler = .dfl ∧ sig ∉ p.mask)
    (pending : Nat → Nat) (tr : List (Event × State))
    (hrun : AllSteps (Step (setUp handler p).1) (initial (setUp handler p).2 pending false) tr) :
    (∀ k l, (lastState (initial (setUp handler p).2 pending false) tr).lines[k]? = some l →
        l.tag = if 10 ≤ k ∧ l.continued = true then 0 else 10086) ∧
      AllSteps (fun _ e s' => ∀ sig ∈ stopSignals, e = .send sig → s'.p.pending sigCont = 0)
        (initial (setUp handler p).2 pending false) tr ∧
      ∀ pre sig s₁ mid s₂ rest, tr = pre ++ (.send sig, s₁) :: (mid ++ (.main, s₂) :: rest) →
        sig ∈ stopSignals → ∃ c ∈ mid, c.1 = .send sigCont := by
  have horigin : (setUp handler p).1 = p.mask := (setUp_spec handler p).1
  have hstops : ∀ sig ∈ stopSignals, sig ∉ (setUp handler p).1 := by
    intro sig hsig
    rw [horigin]
    exact (hdefault sig hsig).2
  have hinv := always_of_allSteps (tagInv_step (by rw [horigin]; exact hcont) hstops) _ tr
    (tagInv_initial handler p hp hdefault pending) hrun
  refine ⟨(always_last _ tr hinv).lines, allSteps_mono ?_ _ tr hrun, ?_⟩
  · rintro s e s' ⟨-, rfl⟩ sig hsig rfl
    have hcancel : ∀ sig ∈ stopSignals, sigCont ∈ cancelled sig ∧ sigCont ≠ sig := by decide
    exact send_cancelled s.p sig sigCont (hcancel sig hsig).1 (hcancel sig hsig).2
  · rintro pre sig s₁ mid s₂ rest rfl hsig
    have hall : AllSteps (fun s e s' => TagInv (setUp handler p).1 s ∧
        Step (setUp handler p).1 s e s') _ _ :=
      allSteps_of_always (fun s e s' hs hstep => ⟨hs, hstep⟩) _ _ hinv hrun
    have hstart : ∀ s e s', TagInv (setUp handler p).1 s ∧ Step (setUp handler p).1 s e s' →
        e = .send sig → StopsPending s'.p := by
      rintro s e s' ⟨hs, -, rfl⟩ rfl
      exact stopsPending_stop s sig hs hsig
    have hkeep : ∀ s e s', StopsPending s.p →
        TagInv (setUp handler p).1 s ∧ Step (setUp handler p).1 s e s' →
        ¬ e = .send sigCont → StopsPending s'.p :=
      fun s e s' hp hs hne => stopsPending_step hstops s e s' hs.1 hp hs.2 hne
    have hnot : ∀ s e s', StopsPending s.p →
        TagInv (setUp handler p).1 s ∧ Step (setUp handler p).1 s e s' → ¬ e = .main := by
      rintro s e s' hp ⟨hs, hen, -⟩ rfl
      exact not_stopsPending s hs hen.1 hen.2 hstops hp
    exact exists_between hstart hkeep hnot _ pre mid rest _ _ hall rfl rfl

/-- A signal is sent before the first line, and the handler runs before the
    eleventh. -/
def sentEarly : List Event :=
  .send 18 :: (List.replicate 11 .main ++ [.deliver 18, .handle, .main])

/-- The run of `sentEarly`. -/
def earlyRun : List (Event × State) :=
  record (next (setUp 7 plain).1) (initial (setUp 7 plain).2 (fun _ => 0) false) sentEarly

theorem sentEarly_enabled :
    StepsMeet Enabled (initial (setUp 7 plain).2 (fun _ => 0) false) earlyRun := by
  have hnone : ∀ r, (initial (setUp 7 plain).2 (fun _ => 0) false).p.pending r = 0 :=
    fun _ => rfl
  have hblocked : UserMode (send (initial (setUp 7 plain).2 (fun _ => 0) false).p 18) := by
    refine userMode_of_pending _ rfl rfl (fun r hr => ?_)
    rw [eq_of_send _ 18 r hnone hr]
    show sigCont ∈ (setUp 7 plain).2.mask
    rw [(setUp_spec 7 plain).2.1]
    exact Finset.mem_insert_self _ _
  have htaken : ∀ mask, UserMode
      { (send (initial (setUp 7 plain).2 (fun _ => 0) false).p 18).take 18 with mask := mask } :=
    fun mask => userMode_of_pending _ rfl rfl (fun r hr =>
      absurd ((take_send _ 18 r hnone).symm.trans_gt hr) (Nat.lt_irrefl 0))
  refine ⟨⟨rfl, by decide⟩, ⟨hblocked, rfl⟩, ⟨hblocked, rfl⟩, ⟨hblocked, rfl⟩, ⟨hblocked, rfl⟩,
    ⟨hblocked, rfl⟩, ⟨hblocked, rfl⟩, ⟨hblocked, rfl⟩, ⟨hblocked, rfl⟩, ⟨hblocked, rfl⟩,
    ⟨hblocked, rfl⟩, ⟨hblocked, rfl⟩, ⟨⟨rfl, Nat.one_pos, ?_, ?_⟩, ?_⟩, ⟨htaken _, rfl⟩,
    ⟨htaken _, rfl⟩, trivial⟩
  · show 18 ∉ (∅ : Finset Nat) \ reserved
    decide
  · exact fun hc => absurd hc (by decide)
  · exact fun hc => absurd hc (by decide)

theorem tags_sentEarly :
    (∀ k l, (lastState (initial (setUp 7 plain).2 (fun _ => 0) false) earlyRun).lines[k]? =
          some l →
        l.tag = if 10 ≤ k ∧ l.continued = true then 0 else 10086) ∧
      AllSteps (fun _ e s' => ∀ sig ∈ stopSignals, e = .send sig → s'.p.pending sigCont = 0)
        (initial (setUp 7 plain).2 (fun _ => 0) false) earlyRun ∧
      ∀ pre sig s₁ mid s₂ rest,
        earlyRun = pre ++ (.send sig, s₁) :: (mid ++ (.main, s₂) :: rest) →
        sig ∈ stopSignals → ∃ c ∈ mid, c.1 = .send sigCont :=
  tags 7 plain noHandlers_plain (Finset.notMem_empty 18)
    (fun sig _ => ⟨rfl, Finset.notMem_empty sig⟩) (fun _ => 0) earlyRun
    (allSteps_record Enabled _ _ _ sentEarly_enabled)

end Sigcont

end TlpiPractice
