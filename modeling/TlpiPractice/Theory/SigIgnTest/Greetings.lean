import TlpiPractice.Core.SigIgnTest

/-!
# When the Handler Prints

The lines of the handler, in every order in which signals can be sent.

A `SIGINT` that is sent while all signals are blocked waits, and the handler
runs when the old mask comes back. By the time the signals are blocked again
every `SIGINT` that was sent has been handled, though several of them may have
led to one line. From then on the handler does not run: when the old mask
comes back again `SIGINT` is ignored, and a `SIGINT` that waits is dropped.

If `SIGINT` was blocked when the program was started the handler never runs.

## Main definitions

* `Pc.mask`, `Pc.ignored`: What is blocked and ignored at a call of `main`.
* `State.greetings`: The lines of the handler.
* `GreetInv`: The invariant.

## Theorems

* `greetInv_send`, `greetInv_deliver`, `greetInv_handle`, `greetInv_main`:
  Every event keeps the invariant.
* `greets_iff`: When there is such a line, how many, and where.
-/

namespace TlpiPractice

namespace SigIgnTest

open Delivery Runs Signals

/-- The mask at a call of `main`. The program was started with `origin`. -/
def Pc.mask (origin : Finset Nat) : Pc → Finset Nat
  | .blocking => origin
  | .tellingUnlocked | .blockingAgain | .tellingIgnored | .exiting => origin \ reserved
  | _ => sigfillset \ reserved

/-- `SIGINT` is ignored. -/
def Pc.ignored : Pc → Bool
  | .unblockingAgain | .tellingIgnored | .exiting => true
  | _ => false

/-- The lines of the handler, with the one that it is about to print. -/
def State.greetings (s : State) : Nat :=
  s.lines.count .hh + (if s.frame.isSome then 1 else 0)

/-- What is so between any two steps. -/
structure GreetInv (p : Signals.Process) (s : State) : Prop where
  others : ∀ sig, sig ≠ sigInt → ∀ address, (s.p.table sig).handler ≠ .fn address
  caught : s.pc.ignored = false → Caught s.p sigInt
  ignored : s.pc.ignored = true → (s.p.table sigInt).handler = .ign
  origin : s.pc ≠ .blocking → s.origin = p.mask
  mask : s.frame = none → s.p.mask = s.pc.mask p.mask
  frame : ∀ saved, s.frame = some saved →
    s.pc.late = false ∧ saved = s.pc.mask p.mask ∧ sigInt ∉ p.mask ∧ sigInt ∈ s.p.mask
  bounded : s.pc.late = false → s.greetings + s.p.pending sigInt ≤ s.early
  /-- A `SIGINT` that was sent has been handled, or will be. -/
  met : s.pc.late = false → 0 < s.early → 0 < s.greetings + s.p.pending sigInt
  late : s.pc.late = true → s.lines.count .hh ≤ s.early ∧
    (0 < s.early → sigInt ∉ p.mask → 0 < s.lines.count .hh)
  blocked : sigInt ∈ p.mask → s.lines.count .hh = 0
  again : .blockedAgain ∈ s.lines → s.pc.late = true
  ordered : s.lines.Pairwise fun l l' => l = .blockedAgain → l' ≠ .hh

theorem usable_sigInt : Usable sigInt := by decide

theorem late_of_ignored (pc : Pc) (h : pc.ignored = true) : pc.late = true := by
  cases pc <;> first | rfl | cases h

/-- The handler of `SIGINT` can only run before the signals are blocked again. -/
theorem early_of_unblocked (pc : Pc) (origin : Finset Nat) (hcaught : pc.ignored = false)
    (h : sigInt ∉ pc.mask origin) : pc.late = false ∧ sigInt ∉ origin := by
  -- At any other call the signals are blocked.
  have hfull : sigInt ∈ sigfillset \ reserved := by decide
  have hopen : sigInt ∉ origin \ reserved → sigInt ∉ origin := fun hnot hmem =>
    hnot (Finset.mem_sdiff.mpr ⟨hmem, usable_sigInt.2⟩)
  cases pc with
  | blocking => exact ⟨rfl, h⟩
  | tellingUnlocked => exact ⟨rfl, hopen h⟩
  | blockingAgain => exact ⟨rfl, hopen h⟩
  | unblockingAgain => cases hcaught
  | tellingIgnored => cases hcaught
  | exiting => cases hcaught
  | _ => exact absurd hfull h

theorem frame_of_late (p : Signals.Process) (s : State) (h : GreetInv p s)
    (hlate : s.pc.late = true) : s.frame = none := by
  cases hframe : s.frame with
  | none => rfl
  | some saved =>
      have hearly := (h.frame saved hframe).1
      rw [hlate] at hearly
      cases hearly

theorem greetInv_initial (handler : Nat) (p : Signals.Process) (hp : NoHandlers p)
    (orphaned : Bool) :
    GreetInv p (initial handler p orphaned) := by
  have hset : installed handler p = { p with
      table := Function.update p.table sigInt
        { sg (.fn handler) with mask := (sg (.fn handler)).mask \ reserved } } := by
    simp only [installed, sigaction_of_usable p sigInt _ usable_sigInt]
  refine ⟨fun sig hsig address => ?_, fun _ => ⟨handler, ?_⟩, fun h => (by cases h),
    fun h => absurd rfl h, fun _ => ?_, fun _ h => (by cases h), fun _ => Nat.le_refl 0,
    fun _ h => (by cases h), fun h => (by cases h), fun _ => rfl,
    fun h => absurd h List.not_mem_nil, List.Pairwise.nil⟩
  · show ((installed handler p).table sig).handler ≠ .fn address
    rw [hset]
    show (Function.update p.table sigInt _ sig).handler ≠ .fn address
    rw [Function.update_of_ne hsig]
    exact hp sig address
  · show ((installed handler p).table sigInt).handler = .fn handler
    rw [hset]
    show (Function.update p.table sigInt _ sigInt).handler = .fn handler
    rw [Function.update_self]
    rfl
  · show (installed handler p).mask = p.mask
    rw [hset]

section Steps

variable {p : Signals.Process}

theorem greetInv_send (s : State) (sig : Nat) (h : GreetInv p s) :
    GreetInv p (next s (.send sig)) := by
  by_cases hsig : sig = sigInt
  · subst hsig
    cases hlate : s.pc.late with
    -- It waits, or is ignored, and nothing is said about it any longer.
    | true =>
        have hstep : next s (.send sigInt) = { s with p := send s.p sigInt } := by
          rw [next, hlate, if_neg (fun hc => Bool.noConfusion hc.2)]
        rw [hstep]
        exact ⟨h.others, h.caught, h.ignored, h.origin, h.mask, h.frame,
          fun hc => absurd (hlate.symm.trans hc) (by decide),
          fun hc => absurd (hlate.symm.trans hc) (by decide), h.late, h.blocked, h.again,
          h.ordered⟩
    | false =>
        have hstep : next s (.send sigInt) =
            { s with p := send s.p sigInt, early := s.early + 1 } := by
          rw [next, hlate, if_pos ⟨rfl, rfl⟩]
        have hcaught : ignores s.p sigInt = false := by
          refine ignores_of_caught s.p sigInt (h.caught ?_)
          cases hign : s.pc.ignored with
          | false => rfl
          | true => exact absurd (hlate.symm.trans (late_of_ignored s.pc hign)) (by decide)
        have hone : (send s.p sigInt).pending sigInt = 1 :=
          send_standard s.p sigInt (by decide) (.inl hcaught)
        rw [hstep]
        refine ⟨h.others, h.caught, h.ignored, h.origin, h.mask, h.frame, fun _ => ?_,
          fun _ _ => ?_, fun hc => absurd (hlate.symm.trans hc) (by decide), h.blocked,
          h.again, h.ordered⟩
        · show s.greetings + (send s.p sigInt).pending sigInt ≤ s.early + 1
          have hbounded := h.bounded hlate
          omega
        · show 0 < s.greetings + (send s.p sigInt).pending sigInt
          omega
  · have hstep : next s (.send sig) = { s with p := send s.p sig } := by
      rw [next, if_neg (fun hc => hsig hc.1)]
    have hjob : ¬ JobControl sigInt := by decide
    have hsame : (send s.p sig).pending sigInt = s.p.pending sigInt :=
      send_of_ne s.p sig sigInt (Ne.symm hsig)
        (fun hc => hjob (jobControl_of_cancelled sig sigInt hc))
    rw [hstep]
    refine ⟨h.others, h.caught, h.ignored, h.origin, h.mask, h.frame, ?_, ?_, h.late,
      h.blocked, h.again, h.ordered⟩
    · show s.pc.late = false → s.greetings + (send s.p sig).pending sigInt ≤ s.early
      rw [hsame]
      exact h.bounded
    · show s.pc.late = false → 0 < s.early → 0 < s.greetings + (send s.p sig).pending sigInt
      rw [hsame]
      exact h.met

/-- A signal without a handler is delivered. -/
theorem greetInv_dispose (s : State) (sig : Nat) (h : GreetInv p s)
    (hsig : s.pc.late = false → sig ≠ sigInt) :
    GreetInv p { s with p := dispose s.p sig } := by
  have hspec := dispose_spec s.p sig
  have hsame : s.pc.late = false → (dispose s.p sig).pending sigInt = s.p.pending sigInt := by
    intro hlate
    rw [hspec.2.2, take_of_ne s.p sig sigInt (Ne.symm (hsig hlate))]
  refine ⟨?_, ?_, ?_, h.origin, ?_, ?_, fun hlate => ?_, fun hlate => ?_, h.late, h.blocked,
    h.again, h.ordered⟩
  · show ∀ sig', sig' ≠ sigInt → ∀ address,
      ((dispose s.p sig).table sig').handler ≠ .fn address
    rw [hspec.1]
    exact h.others
  · show s.pc.ignored = false → ∃ address, ((dispose s.p sig).table sigInt).handler = .fn address
    rw [hspec.1]
    exact h.caught
  · show s.pc.ignored = true → ((dispose s.p sig).table sigInt).handler = .ign
    rw [hspec.1]
    exact h.ignored
  · show s.frame = none → (dispose s.p sig).mask = s.pc.mask p.mask
    rw [hspec.2.1]
    exact h.mask
  · show ∀ saved, s.frame = some saved →
      s.pc.late = false ∧ saved = s.pc.mask p.mask ∧ sigInt ∉ p.mask ∧
        sigInt ∈ (dispose s.p sig).mask
    rw [hspec.2.1]
    exact h.frame
  · show s.greetings + (dispose s.p sig).pending sigInt ≤ s.early
    rw [hsame hlate]
    exact h.bounded hlate
  · show 0 < s.early → 0 < s.greetings + (dispose s.p sig).pending sigInt
    rw [hsame hlate]
    exact h.met hlate

/-- The handler starts. -/
theorem greetInv_enter (s : State) (h : GreetInv p s) (hsig : Chosen s.p sigInt)
    (hcaught : s.pc.ignored = false) :
    GreetInv p { s with p := enter s.p sigInt, frame := some s.p.mask } := by
  have hframe : s.frame = none := by
    cases hf : s.frame with
    | none => rfl
    | some saved => exact absurd (h.frame saved hf).2.2.2 hsig.unblocked
  have hmask := h.mask hframe
  have hunblocked := hsig.unblocked
  rw [hmask] at hunblocked
  rcases early_of_unblocked s.pc p.mask hcaught hunblocked with ⟨hearly, hopen⟩
  have hpending : (enter s.p sigInt).pending sigInt = s.p.pending sigInt - 1 :=
    take_self s.p sigInt
  have hpos := hsig.pending
  -- A signal waits once less, and one more line is about to be printed.
  refine ⟨h.others, h.caught, h.ignored, h.origin, fun hc => (by cases hc), fun saved hc => ?_,
    fun _ => ?_, fun _ _ => ?_, h.late, h.blocked, h.again, h.ordered⟩
  · cases hc
    refine ⟨hearly, hmask, hopen, Finset.mem_union_right _ (Finset.mem_sdiff.mpr ?_)⟩
    exact ⟨Finset.mem_insert_self _ _, usable_sigInt.2⟩
  · show s.lines.count .hh + 1 + (enter s.p sigInt).pending sigInt ≤ s.early
    have hbounded := h.bounded hearly
    rw [State.greetings, hframe] at hbounded
    rw [hpending]
    have hbounded' : s.lines.count .hh + 0 + s.p.pending sigInt ≤ s.early := hbounded
    omega
  · show 0 < s.lines.count .hh + 1 + (enter s.p sigInt).pending sigInt
    omega

theorem greetInv_deliver (s : State) (sig : Nat) (h : GreetInv p s) (hsig : Chosen s.p sig) :
    GreetInv p (deliver s sig) := by
  by_cases hint : sig = sigInt
  · subst hint
    cases hign : s.pc.ignored with
    | true =>
        have hstep : deliver s sigInt = { s with p := dispose s.p sigInt } := by
          rw [deliver, h.ignored hign]
        rw [hstep]
        refine greetInv_dispose s sigInt h (fun hearly => ?_)
        exact absurd (hearly.symm.trans (late_of_ignored s.pc hign)) (by decide)
    | false =>
        rcases h.caught hign with ⟨address, haddress⟩
        have hstep : deliver s sigInt =
            { s with p := enter s.p sigInt, frame := some s.p.mask } := by
          rw [deliver, haddress]
        rw [hstep]
        exact greetInv_enter s h hsig hign
  · have hstep : deliver s sig = { s with p := dispose s.p sig } := by
      unfold deliver
      cases hact : (s.p.table sig).handler with
      | fn address => exact absurd hact (h.others sig hint address)
      | _ => rfl
    rw [hstep]
    exact greetInv_dispose s sig h (fun _ => hint)

theorem greetInv_handle (s : State) (h : GreetInv p s) (hsome : s.frame.isSome = true) :
    GreetInv p (handle s) := by
  rcases Option.isSome_iff_exists.mp hsome with ⟨saved, hframe⟩
  rcases h.frame saved hframe with ⟨hearly, hsaved, hopen, -⟩
  have hstep : handle s = { s with
      p := { s.p with mask := saved }, frame := none, lines := s.lines ++ [.hh] } := by
    rw [handle, hframe]
  have hcount : (s.lines ++ [Line.hh]).count .hh = s.lines.count .hh + 1 := by
    rw [List.count_append, List.count_singleton_self]
  have hgreetings : s.greetings = s.lines.count .hh + 1 := by
    rw [State.greetings, hframe]
    rfl
  have hnot : .blockedAgain ∉ s.lines := fun hc =>
    absurd (hearly.symm.trans (h.again hc)) (by decide)
  rw [hstep]
  refine ⟨h.others, h.caught, h.ignored, h.origin, fun _ => hsaved, fun _ hc => (by cases hc),
    fun _ => ?_, fun _ hpos => ?_, fun hc => absurd (hearly.symm.trans hc) (by decide),
    fun hc => absurd hc hopen, fun hc => ?_, ?_⟩
  · show (s.lines ++ [Line.hh]).count .hh + 0 + s.p.pending sigInt ≤ s.early
    have hbounded := h.bounded hearly
    omega
  · show 0 < (s.lines ++ [Line.hh]).count .hh + 0 + s.p.pending sigInt
    omega
  · rcases List.mem_append.mp hc with hc | hc
    · exact absurd hc hnot
    · cases List.mem_singleton.mp hc
  · refine List.pairwise_append.mpr ⟨h.ordered, List.pairwise_singleton _ _, ?_⟩
    intro l hl l' _ heq
    rw [heq] at hl
    exact absurd hl hnot

/-- `main` prints a line. -/
theorem greetInv_tell (s : State) (l : Line) (here pc : Pc) (h : GreetInv p s)
    (hframe : s.frame = none) (hpc : s.pc = here) (hl : l ≠ .hh)
    (hagain : l = .blockedAgain → here.late = true) (horigin : here ≠ .blocking)
    (hlate : pc.late = here.late) (hignored : pc.ignored = here.ignored)
    (hmask : pc.mask p.mask = here.mask p.mask) :
    GreetInv p { s with lines := s.lines ++ [l], pc := pc } := by
  subst hpc
  have hcount : (s.lines ++ [l]).count .hh = s.lines.count .hh := by
    rw [List.count_append, List.count_eq_zero_of_not_mem
      (fun hc => hl (List.mem_singleton.mp hc).symm), Nat.add_zero]
  have hgreetings : ({ s with lines := s.lines ++ [l], pc := pc } : State).greetings =
      s.greetings := by
    show (s.lines ++ [l]).count .hh + _ = s.lines.count .hh + _
    rw [hcount]
  refine ⟨h.others, fun hc => h.caught (hignored.symm.trans hc),
    fun hc => h.ignored (hignored.symm.trans hc), fun _ => h.origin horigin,
    fun hc => (h.mask hc).trans hmask.symm, fun saved hc => ?_, fun hc => ?_, fun hc hpos => ?_,
    fun hc => ?_, fun hc => hcount.trans (h.blocked hc), fun hc => ?_, ?_⟩
  · exact absurd (hframe.symm.trans hc) (Option.some_ne_none saved).symm
  · rw [hgreetings]
    exact h.bounded (hlate.symm.trans hc)
  · rw [hgreetings]
    exact h.met (hlate.symm.trans hc) hpos
  · show (s.lines ++ [l]).count .hh ≤ s.early ∧
      (0 < s.early → sigInt ∉ p.mask → 0 < (s.lines ++ [l]).count .hh)
    rw [hcount]
    exact h.late (hlate.symm.trans hc)
  · show pc.late = true
    rw [hlate]
    rcases List.mem_append.mp hc with hc | hc
    · exact h.again hc
    · exact hagain (List.mem_singleton.mp hc).symm
  · refine List.pairwise_append.mpr ⟨h.ordered, List.pairwise_singleton _ _, ?_⟩
    intro _ _ l' hl' _
    rw [List.mem_singleton.mp hl']
    exact hl

/-- `main` gets another mask. -/
theorem greetInv_mask (s : State) (mask origin : Finset Nat) (here pc : Pc) (h : GreetInv p s)
    (hframe : s.frame = none) (hpc : s.pc = here) (hmask : mask = pc.mask p.mask)
    (horigin : origin = p.mask) (hlate : pc.late = here.late)
    (hignored : pc.ignored = here.ignored) :
    GreetInv p { s with p := { s.p with mask := mask }, origin := origin, pc := pc } := by
  subst hpc
  refine ⟨h.others, fun hc => h.caught (hignored.symm.trans hc),
    fun hc => h.ignored (hignored.symm.trans hc), fun _ => horigin, fun _ => hmask,
    fun saved hc => ?_, fun hc => h.bounded (hlate.symm.trans hc),
    fun hc => h.met (hlate.symm.trans hc), fun hc => h.late (hlate.symm.trans hc), h.blocked,
    fun hc => hlate.trans (h.again hc), h.ordered⟩
  exact absurd (hframe.symm.trans hc) (Option.some_ne_none saved).symm

/-- Nothing is left to deliver when the signals are blocked again. -/
theorem greetInv_blockAgain (s : State) (h : GreetInv p s) (huser : UserMode s.p)
    (hframe : s.frame = none) (hpc : s.pc = .blockingAgain) :
    GreetInv p { s with
      p := { s.p with mask := sigfillset \ reserved }, pc := .tellingAgain } := by
  have hearly : s.pc.late = false := by rw [hpc]; rfl
  have hcount : s.greetings = s.lines.count .hh := by
    rw [State.greetings, hframe]
    rfl
  have hbounded := h.bounded hearly
  rw [hcount] at hbounded
  refine ⟨h.others, fun _ => h.caught (by rw [hpc]; rfl), fun hc => (by cases hc),
    fun _ => h.origin (by rw [hpc]; exact Pc.noConfusion), fun _ => rfl, fun saved hc => ?_,
    fun hc => (by cases hc), fun hc => (by cases hc),
    fun _ => ⟨Nat.le_of_add_right_le hbounded, fun hpos hopen => ?_⟩, h.blocked, fun _ => rfl,
    h.ordered⟩
  · exact absurd (hframe.symm.trans hc) (Option.some_ne_none saved).symm
  · -- `origin` lets `SIGINT` through, so none can wait in user mode.
    have hnone : s.p.pending sigInt = 0 := by
      by_contra hne
      refine huser.none sigInt ⟨huser.alive, Nat.pos_of_ne_zero hne, ?_, ?_⟩
      · rw [h.mask hframe, hpc]
        exact fun hc => hopen (Finset.mem_sdiff.mp hc).1
      · rw [huser.running]
        exact fun hc => absurd hc Bool.false_ne_true
    have hmet := h.met hearly hpos
    rw [hcount, hnone] at hmet
    exact hmet

theorem greetInv_ignore (s : State) (h : GreetInv p s) (hpc : s.pc = .ignoring) :
    GreetInv p { s with p := setAction s.p sigInt (sg .ign), pc := .unblockingAgain } := by
  have hspec := setAction_spec s.p sigInt (sg .ign) usable_sigInt
  have hlate : s.pc.late = true := by rw [hpc]; rfl
  refine ⟨fun sig hsig address => ?_, fun hc => (by cases hc), fun _ => ?_,
    fun _ => h.origin (by rw [hpc]; exact Pc.noConfusion), fun hc => ?_, fun saved hc => ?_,
    fun hc => (by cases hc), fun hc => (by cases hc), fun _ => h.late hlate, h.blocked,
    fun _ => rfl, h.ordered⟩
  · show ((setAction s.p sigInt (sg .ign)).table sig).handler ≠ .fn address
    rw [hspec.2, Function.update_of_ne hsig]
    exact h.others sig hsig address
  · show ((setAction s.p sigInt (sg .ign)).table sigInt).handler = .ign
    rw [hspec.2, Function.update_self]
    rfl
  · show (setAction s.p sigInt (sg .ign)).mask = _
    rw [hspec.1, h.mask hc, hpc]
    rfl
  · exact absurd ((frame_of_late p s h hlate).symm.trans hc) (Option.some_ne_none saved).symm

theorem greetInv_main (s : State) (h : GreetInv p s) (huser : UserMode s.p)
    (hframe : s.frame = none) : GreetInv p (mainStep s) := by
  unfold mainStep
  cases hpc : s.pc with
  | blocking =>
      have hmask : s.p.mask = p.mask := by rw [h.mask hframe, hpc]; rfl
      exact greetInv_mask s _ _ .blocking .tellingBlocked h hframe hpc rfl hmask rfl rfl
  | tellingBlocked =>
      exact greetInv_tell s .nowBlocked .tellingBlocked .unblocking h hframe hpc (by decide)
        (fun hc => by cases hc) (by decide) rfl rfl rfl
  | unblocking =>
      have horigin := h.origin (by rw [hpc]; decide)
      exact greetInv_mask s _ _ .unblocking .tellingUnlocked h hframe hpc (by rw [horigin]; rfl)
        horigin rfl rfl
  | tellingUnlocked =>
      exact greetInv_tell s .nowUnlocked .tellingUnlocked .blockingAgain h hframe hpc (by decide)
        (fun hc => by cases hc) (by decide) rfl rfl rfl
  | blockingAgain => exact greetInv_blockAgain s h huser hframe hpc
  | tellingAgain =>
      exact greetInv_tell s .blockedAgain .tellingAgain .ignoring h hframe hpc (by decide)
        (fun _ => rfl) (by decide) rfl rfl rfl
  | ignoring => exact greetInv_ignore s h hpc
  | unblockingAgain =>
      have horigin := h.origin (by rw [hpc]; decide)
      exact greetInv_mask s _ _ .unblockingAgain .tellingIgnored h hframe hpc
        (by rw [horigin]; rfl) horigin rfl rfl
  | tellingIgnored =>
      exact greetInv_tell s .nowIgnored .tellingIgnored .exiting h hframe hpc (by decide)
        (fun hc => by cases hc) (by decide) rfl rfl rfl
  | exiting =>
      have hexit : GreetInv p { s with p := { s.p with dead := true } } :=
        ⟨h.others, h.caught, h.ignored, h.origin, h.mask, h.frame, h.bounded, h.met, h.late,
          h.blocked, h.again, h.ordered⟩
      rw [hpc] at hexit
      exact hexit

theorem greetInv_step (s : State) (e : Event) (s' : State) (h : GreetInv p s)
    (hstep : Step s e s') : GreetInv p s' := by
  rcases hstep with ⟨hen, rfl⟩
  cases e with
  | send sig => exact greetInv_send s sig h
  | deliver sig => exact greetInv_deliver s sig h hen
  | handle => exact greetInv_handle s h hen.2
  | main => exact greetInv_main s h hen.1 hen.2

end Steps

/-- The handler has at most one line for each `SIGINT` that was sent before the
    signals are blocked again. It has one by then exactly if there was such a
    `SIGINT`, and `SIGINT` was not blocked from the start. Behind what `main`
    prints then there is none. -/
theorem greets_iff (handler : Nat) (p : Signals.Process) (hp : NoHandlers p) (orphaned : Bool)
    (tr : List (Event × State)) (hrun : AllSteps Step (initial handler p orphaned) tr) :
    (lastState (initial handler p orphaned) tr).lines.count .hh ≤
        (lastState (initial handler p orphaned) tr).early ∧
      ((lastState (initial handler p orphaned) tr).pc.late = true →
        (.hh ∈ (lastState (initial handler p orphaned) tr).lines ↔
          0 < (lastState (initial handler p orphaned) tr).early ∧ sigInt ∉ p.mask)) ∧
      (lastState (initial handler p orphaned) tr).lines.Pairwise
        fun l l' => l = .blockedAgain → l' ≠ .hh := by
  have hinv := always_last _ tr (always_of_allSteps greetInv_step _ tr
    (greetInv_initial handler p hp orphaned) hrun)
  have hcount : (lastState (initial handler p orphaned) tr).lines.count .hh ≤
      (lastState (initial handler p orphaned) tr).early := by
    cases hlate : (lastState (initial handler p orphaned) tr).pc.late with
    | true => exact (hinv.late hlate).1
    | false =>
        have hbounded := hinv.bounded hlate
        rw [State.greetings] at hbounded
        omega
  refine ⟨hcount, fun hlate => ⟨fun hmem => ?_, fun hdue => ?_⟩, hinv.ordered⟩
  · have hpos := List.count_pos_iff.mpr hmem
    refine ⟨Nat.lt_of_lt_of_le hpos hcount, fun hblocked => ?_⟩
    rw [hinv.blocked hblocked] at hpos
    exact absurd hpos (Nat.lt_irrefl 0)
  · exact List.count_pos_iff.mp ((hinv.late hlate).2 hdue.1 hdue.2)

/-- A `SIGINT` is sent while the signals are blocked, and they are blocked again. -/
def sentBlocked : List Event :=
  [.main, .send 2, .main, .main, .deliver 2, .handle, .main, .main, .main]

theorem sentBlocked_enabled :
    StepsMeet Enabled (initial 7 plain false)
      (record next (initial 7 plain false) sentBlocked) := by
  -- The process as `send` finds it.
  have hnone : ∀ r, (next (initial 7 plain false) .main).p.pending r = 0 := fun _ => rfl
  have hfree : ∀ mask, UserMode { (initial 7 plain false).p with mask := mask } := fun mask =>
    userMode_of_pending _ rfl rfl (fun r hr => absurd hr (Nat.lt_irrefl 0))
  have hblocked : UserMode (send (next (initial 7 plain false) .main).p 2) := by
    refine userMode_of_pending _ rfl rfl (fun r hr => ?_)
    rw [eq_of_send _ 2 r hnone hr]
    show 2 ∈ sigfillset \ reserved
    decide
  have htaken : ∀ mask,
      UserMode { (send (next (initial 7 plain false) .main).p 2).take 2 with mask := mask } :=
    fun mask => userMode_of_pending _ rfl rfl (fun r hr =>
      absurd ((take_send _ 2 r hnone).symm.trans_gt hr) (Nat.lt_irrefl 0))
  refine ⟨⟨hfree _, rfl⟩, ⟨rfl, by decide⟩, ⟨hblocked, rfl⟩, ⟨hblocked, rfl⟩,
    ⟨⟨rfl, Nat.one_pos, ?_, ?_⟩, ?_⟩, ⟨htaken _, rfl⟩, ⟨htaken _, rfl⟩, ⟨htaken _, rfl⟩,
    ⟨htaken _, rfl⟩, trivial⟩
  · show 2 ∉ (∅ : Finset Nat) \ reserved
    decide
  · exact fun hc => absurd hc (by decide)
  · exact fun hc => absurd hc (by decide)

theorem greets_iff_sentBlocked :
    (lastState (initial 7 plain false)
        (record next (initial 7 plain false) sentBlocked)).lines.count .hh ≤
        (lastState (initial 7 plain false)
          (record next (initial 7 plain false) sentBlocked)).early ∧
      ((lastState (initial 7 plain false)
          (record next (initial 7 plain false) sentBlocked)).pc.late = true →
        (.hh ∈ (lastState (initial 7 plain false)
            (record next (initial 7 plain false) sentBlocked)).lines ↔
          0 < (lastState (initial 7 plain false)
            (record next (initial 7 plain false) sentBlocked)).early ∧
            sigInt ∉ plain.mask)) ∧
      (lastState (initial 7 plain false)
        (record next (initial 7 plain false) sentBlocked)).lines.Pairwise
        fun l l' => l = .blockedAgain → l' ≠ .hh :=
  greets_iff 7 plain noHandlers_plain false _
    (allSteps_record Enabled next _ _ sentBlocked_enabled)

end SigIgnTest

end TlpiPractice
