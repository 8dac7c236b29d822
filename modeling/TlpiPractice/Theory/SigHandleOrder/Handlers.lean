import TlpiPractice.Core.SigHandleOrder

/-!
# Handlers One at a Time

What the loop sets, and what holds between any two steps behind it.

All signals are blocked while a handler runs, so handlers are never nested. A
realtime signal that can be caught has been told to its handler or waits as
often as it was sent. A standard signal waits at most once, so that it can be
told fewer times than it was sent, and those that stop a process or let it go
on can cancel each other.

## Main definitions

* `handled`: The signal that a step delivers to a handler.
* `told`: The signals whose handlers have started.
* `HandleInv`: The invariant.

## Theorems

* `setHandlers_table`: The handlers that the loop sets.
* `deliver_cases`: What a delivery does.
* `handleInv_send`, `handleInv_enter`, `handleInv_dispose`, `handleInv_return`:
  Every event keeps the invariant.
* `handleInv_step`: A step keeps it.
* `told_step`: What has been told is what was delivered.
-/

namespace TlpiPractice

namespace SigHandleOrder

open Delivery Runs Signals

/-! ### Setting the handlers -/

/-- The action of a signal that can be caught. -/
def installed (handler : Nat) : Action where
  handler := .fn handler
  mask := sigfillset \ reserved
  flags := 0

theorem setHandler_table (handler : Nat) (p : Signals.Process) (i sig : Nat) :
    (setHandler handler p i).mask = p.mask ∧
      (setHandler handler p i).table sig =
        if sig = i ∧ Usable sig then installed handler else p.table sig := by
  unfold setHandler
  by_cases hi : Usable i
  · rw [sigaction_of_usable p i (sa handler) hi]
    refine ⟨rfl, ?_⟩
    by_cases hsig : sig = i
    · subst hsig
      rw [if_pos ⟨rfl, hi⟩]
      exact Function.update_self sig _ _
    · rw [if_neg (fun h => hsig h.1)]
      exact Function.update_of_ne hsig _ _
  · have hnone : sigaction p i (sa handler) = none := if_neg hi
    rw [hnone, if_neg]
    · exact ⟨rfl, rfl⟩
    · rintro ⟨rfl, hsig⟩
      exact hi hsig

theorem setHandlers_foldl (handler : Nat) (l : List Nat) (p : Signals.Process) (sig : Nat) :
    (l.foldl (setHandler handler) p).mask = p.mask ∧
      (l.foldl (setHandler handler) p).table sig =
        if sig ∈ l ∧ Usable sig then installed handler else p.table sig := by
  induction l generalizing p with
  | nil => exact ⟨rfl, (if_neg (fun h => List.not_mem_nil h.1)).symm⟩
  | cons i l ih =>
      have hone := setHandler_table handler p i sig
      have hrest := ih (setHandler handler p i)
      rw [List.foldl_cons, hrest.1, hone.1, hrest.2, hone.2]
      refine ⟨rfl, ?_⟩
      by_cases hmem : sig ∈ l ∧ Usable sig
      · rw [if_pos hmem, if_pos ⟨List.mem_cons_of_mem i hmem.1, hmem.2⟩]
      · rw [if_neg hmem]
        refine if_congr ⟨fun h => ⟨?_, h.2⟩, fun h => ⟨?_, h.2⟩⟩ rfl rfl
        · rw [h.1]
          exact List.mem_cons_self
        · exact (List.mem_cons.mp h.1).resolve_right (fun hl => hmem ⟨hl, h.2⟩)

theorem setHandlers_table (handler : Nat) (p : Signals.Process) (sig : Nat) :
    (setHandlers handler p).table sig =
      if Usable sig then installed handler else p.table sig := by
  unfold setHandlers
  rw [(setHandlers_foldl handler (List.range' 1 sigRtMax) p sig).2]
  refine if_congr ⟨fun h => h.2, fun h => ⟨?_, h⟩⟩ rfl rfl
  have hrange := Finset.mem_Icc.mp (Finset.mem_sdiff.mp h.1).1
  rw [List.mem_range'_1]
  unfold sigRtMax
  omega

theorem setHandlers_mask (handler : Nat) (p : Signals.Process) :
    (setHandlers handler p).mask = p.mask :=
  (setHandlers_foldl handler (List.range' 1 sigRtMax) p 0).1

/-- All signals that can be blocked are. -/
def BlocksAll (mask : Finset Nat) : Prop := ∀ sig, Usable sig → sig ∈ mask

theorem blocksAll_setUp (handler : Nat) (p : Signals.Process) :
    BlocksAll (setUp handler p).2.mask := by
  intro sig h
  show sig ∈ (setHandlers handler (sigprocmask p .block (some sigfillset)).2).mask
  rw [setHandlers_mask]
  exact Finset.mem_union_right _ (Finset.mem_sdiff.mpr h)

/-! ### The invariant -/

/-- The signals that an event delivers to a handler. -/
def handled (s : State) : Event → List Nat
  | .deliver sig =>
      match (s.p.table sig).handler with
      | .fn _ => [sig]
      | _ => []
  | _ => []

/-- The signals whose handlers have started, in this order. -/
def told (s : State) : List Nat :=
  s.lines ++ (s.frames.filter (fun f => !f.printed)).map Frame.sig

/-- What is so between any two steps. -/
structure HandleInv (handler : Nat) (origin : Finset Nat) (s : State) : Prop where
  table : ∀ sig, Usable sig → s.p.table sig = installed handler
  others : ∀ sig, ¬ Usable sig → ∀ address, (s.p.table sig).handler ≠ .fn address
  sleeping : s.pc = .sleeping → s.frames = [] ∧ s.lines = [] ∧ BlocksAll s.p.mask
  looping : s.pc = .looping → s.frames = [] → s.p.mask = origin \ reserved
  frames : ∀ f rest, s.frames = f :: rest →
    rest = [] ∧ s.pc = .looping ∧ BlocksAll s.p.mask ∧ f.saved = origin \ reserved
  told : ∀ sig ∈ told s, Usable sig ∧ sig ∉ origin
  realtime : ∀ sig, Usable sig → Realtime sig →
    s.sent sig = (SigHandleOrder.told s).count sig + s.p.pending sig
  bounded : ∀ sig, (SigHandleOrder.told s).count sig + s.p.pending sig ≤ s.sent sig
  kept : ∀ sig, Usable sig → ¬ JobControl sig → 0 < s.sent sig →
    0 < (SigHandleOrder.told s).count sig + s.p.pending sig

theorem handleInv_initial (handler : Nat) (p : Signals.Process) (hp : NoHandlers p)
    (pending : Nat → Nat) (orphaned : Bool) :
    HandleInv handler (setUp handler p).1 (initial (setUp handler p).2 pending orphaned) where
  table := fun sig h => by
    show (setHandlers handler (sigprocmask p .block (some sigfillset)).2).table sig = _
    rw [setHandlers_table, if_pos h]
  others := fun sig h address => by
    show ((setHandlers handler (sigprocmask p .block (some sigfillset)).2).table sig).handler ≠ _
    rw [setHandlers_table, if_neg h]
    exact hp sig address
  sleeping := fun _ => ⟨rfl, rfl, blocksAll_setUp handler p⟩
  looping := fun h => by cases h
  frames := fun _ _ h => by cases h
  told := fun sig h => absurd h List.not_mem_nil
  realtime := fun sig _ _ => (Nat.zero_add _).symm
  bounded := fun sig => Nat.le_of_eq (Nat.zero_add _)
  kept := fun sig _ _ h => Nat.lt_of_lt_of_eq h (Nat.zero_add _).symm

section Steps

variable {handler : Nat} {origin : Finset Nat}

theorem caught_of_usable (s : State) (h : HandleInv handler origin s) (sig : Nat)
    (hsig : Usable sig) : ignores s.p sig = false :=
  ignores_of_caught s.p sig ⟨handler, by rw [h.table sig hsig]; rfl⟩

/-- A signal is delivered to its handler when no other handler runs, and without
    a handler it is one that nobody can catch. -/
theorem deliver_cases (s : State) (sig : Nat) (h : HandleInv handler origin s)
    (hsig : Chosen s.p sig) :
    (Usable sig ∧ sig ∉ origin ∧ s.pc = .looping ∧ s.frames = [] ∧
      handled s (.deliver sig) = [sig] ∧ deliver s sig =
        { s with p := enter s.p sig, frames := ⟨sig, s.p.mask, false⟩ :: s.frames }) ∨
    (¬ Usable sig ∧ handled s (.deliver sig) = [] ∧
      deliver s sig = { s with p := dispose s.p sig }) := by
  by_cases husable : Usable sig
  · refine .inl ⟨husable, ?_⟩
    have hpc : s.pc = .looping := by
      cases hc : s.pc with
      | looping => rfl
      | sleeping => exact absurd ((h.sleeping hc).2.2 sig husable) hsig.unblocked
    have hframes : s.frames = [] := by
      cases hf : s.frames with
      | nil => rfl
      | cons f rest => exact absurd ((h.frames f rest hf).2.2.1 sig husable) hsig.unblocked
    refine ⟨fun horigin => ?_, hpc, hframes, ?_, ?_⟩
    · refine hsig.unblocked ?_
      rw [h.looping hpc hframes]
      exact Finset.mem_sdiff.mpr ⟨horigin, husable.2⟩
    · rw [handled, h.table sig husable]
      rfl
    · rw [deliver, h.table sig husable]
      rfl
  · refine .inr ⟨husable, ?_⟩
    have hother := h.others sig husable
    unfold deliver
    rw [handled]
    cases hact : (s.p.table sig).handler with
    | fn address => exact absurd hact (hother address)
    | _ => exact ⟨rfl, rfl⟩

/-- A signal is sent. -/
theorem handleInv_send (s : State) (sig : Nat) (h : HandleInv handler origin s) :
    HandleInv handler origin (next origin s (.send sig)) where
  table := h.table
  others := h.others
  sleeping := h.sleeping
  looping := h.looping
  frames := h.frames
  told := h.told
  realtime := fun r hr hrt => by
    show Function.update s.sent sig (s.sent sig + 1) r =
      (told s).count r + (send s.p sig).pending r
    have hold := h.realtime r hr hrt
    by_cases hrs : r = sig
    · subst hrs
      rw [Function.update_self, send_realtime s.p r hrt (.inl (caught_of_usable s h r hr)), hold]
      rfl
    · have hkeep : r ∉ cancelled sig := by
        intro hc
        -- The signals that cancel each other are standard ones.
        have hlow : ∀ q, JobControl q → ¬ Realtime q := by
          rintro q (rfl | hq) hrt'
          · exact absurd hrt' (by decide)
          · have hall : ∀ q ∈ stopSignals, ¬ Realtime q := by decide
            exact hall q hq hrt'
        exact hlow r (jobControl_of_cancelled sig r hc) hrt
      rw [Function.update_of_ne hrs, send_of_ne s.p sig r hrs hkeep, hold]
  bounded := fun r => by
    show (told s).count r + (send s.p sig).pending r ≤
      Function.update s.sent sig (s.sent sig + 1) r
    have hold := h.bounded r
    have hmore := send_le s.p sig r
    by_cases hrs : r = sig
    · subst hrs
      rw [if_pos rfl] at hmore
      rw [Function.update_self]
      omega
    · rw [if_neg hrs] at hmore
      rw [Function.update_of_ne hrs]
      omega
  kept := fun r hr hjob hsent => by
    show 0 < (told s).count r + (send s.p sig).pending r
    have hsent' : 0 < Function.update s.sent sig (s.sent sig + 1) r := hsent
    by_cases hrs : r = sig
    · subst hrs
      have hcaught : ignores s.p r = false ∨ r ∈ s.p.mask := .inl (caught_of_usable s h r hr)
      by_cases hrt : Realtime r
      · rw [send_realtime s.p r hrt hcaught]
        omega
      · rw [send_standard s.p r hrt hcaught]
        omega
    · rw [Function.update_of_ne hrs] at hsent'
      rw [send_of_ne s.p sig r hrs (fun hc => hjob (jobControl_of_cancelled sig r hc))]
      exact h.kept r hr hjob hsent'

/-- A signal is delivered to its handler. -/
theorem told_enter (s : State) (sig : Nat) (hframes : s.frames = []) :
    told { s with p := enter s.p sig, frames := ⟨sig, s.p.mask, false⟩ :: s.frames } =
      told s ++ [sig] := by
  unfold told
  rw [hframes]
  show s.lines ++ [sig] = s.lines ++ [] ++ [sig]
  rw [List.append_nil]

theorem handleInv_enter (s : State) (sig : Nat) (h : HandleInv handler origin s)
    (hsig : Chosen s.p sig) (husable : Usable sig) (horigin : sig ∉ origin)
    (hpc : s.pc = .looping) (hframes : s.frames = []) :
    HandleInv handler origin
      { s with p := enter s.p sig, frames := ⟨sig, s.p.mask, false⟩ :: s.frames } := by
  have htold := told_enter s sig hframes
  have hcount : ∀ r, (told s ++ [sig]).count r + (s.p.take sig).pending r =
      (told s).count r + s.p.pending r := by
    intro r
    have hpos := hsig.pending
    rw [List.count_append]
    by_cases hrs : r = sig
    · subst hrs
      rw [take_self, List.count_singleton_self]
      omega
    · rw [take_of_ne s.p sig r hrs, List.count_singleton, beq_false_of_ne (Ne.symm hrs)]
      rfl
  refine ⟨h.table, h.others, fun hc => ?_, fun _ hc => (by cases hc), fun f rest hf => ?_, ?_, ?_,
    ?_, ?_⟩
  · have hc' : s.pc = .sleeping := hc
    rw [hpc] at hc'
    cases hc'
  · have hf' : (⟨sig, s.p.mask, false⟩ : Frame) :: s.frames = f :: rest := hf
    rw [hframes] at hf'
    rcases List.cons.inj hf' with ⟨rfl, rfl⟩
    refine ⟨rfl, hpc, fun r hr => ?_, h.looping hpc hframes⟩
    show r ∈ s.p.mask ∪ (insert sig (s.p.table sig).mask \ reserved)
    rw [h.table sig husable]
    refine Finset.mem_union_right _ (Finset.mem_sdiff.mpr ⟨Finset.mem_insert_of_mem ?_, hr.2⟩)
    exact Finset.mem_sdiff.mpr hr
  · rw [htold]
    intro r hr
    rcases List.mem_append.mp hr with hr | hr
    · exact h.told r hr
    · rw [List.mem_singleton.mp hr]
      exact ⟨husable, horigin⟩
  · intro r hr hrt
    rw [htold, h.realtime r hr hrt]
    exact (hcount r).symm
  · intro r
    rw [htold]
    exact (hcount r).trans_le (h.bounded r)
  · intro r hr hjob hsent
    rw [htold]
    exact (h.kept r hr hjob hsent).trans_eq (hcount r).symm

/-- A signal that nobody can catch is delivered. -/
theorem handleInv_dispose (s : State) (sig : Nat) (h : HandleInv handler origin s)
    (hother : ¬ Usable sig) : HandleInv handler origin { s with p := dispose s.p sig } := by
  have hspec := dispose_spec s.p sig
  have hsame : ∀ r, Usable r → (s.p.take sig).pending r = s.p.pending r := by
    intro r hr
    refine take_of_ne s.p sig r ?_
    rintro rfl
    exact hother hr
  refine ⟨?_, ?_, ?_, ?_, ?_, h.told, ?_, ?_, ?_⟩
  · show ∀ r, Usable r → (dispose s.p sig).table r = installed handler
    rw [hspec.1]
    exact h.table
  · show ∀ r, ¬ Usable r → ∀ address, ((dispose s.p sig).table r).handler ≠ .fn address
    rw [hspec.1]
    exact h.others
  · show s.pc = .sleeping → s.frames = [] ∧ s.lines = [] ∧ BlocksAll (dispose s.p sig).mask
    rw [hspec.2.1]
    exact h.sleeping
  · show s.pc = .looping → s.frames = [] → (dispose s.p sig).mask = origin \ reserved
    rw [hspec.2.1]
    exact h.looping
  · show ∀ f rest, s.frames = f :: rest →
      rest = [] ∧ s.pc = .looping ∧ BlocksAll (dispose s.p sig).mask ∧ f.saved = origin \ reserved
    rw [hspec.2.1]
    exact h.frames
  · intro r hr hrt
    show s.sent r = (told s).count r + (dispose s.p sig).pending r
    rw [hspec.2.2, hsame r hr]
    exact h.realtime r hr hrt
  · intro r
    show (told s).count r + (dispose s.p sig).pending r ≤ s.sent r
    rw [hspec.2.2]
    exact (Nat.add_le_add_left (take_le s.p sig r) _).trans (h.bounded r)
  · intro r hr hjob hsent
    show 0 < (told s).count r + (dispose s.p sig).pending r
    rw [hspec.2.2, hsame r hr]
    exact h.kept r hr hjob hsent

theorem told_print (s : State) (f : Frame) (rest : List Frame) (hframes : s.frames = f :: rest)
    (hprinted : f.printed = false) (hrest : rest = []) :
    told { s with lines := s.lines ++ [f.sig], frames := { f with printed := true } :: rest } =
      told s := by
  unfold told
  rw [hframes, hrest]
  simp [hprinted]

theorem told_ret (s : State) (f : Frame) (rest : List Frame) (mask : Finset Nat)
    (hframes : s.frames = f :: rest) (hprinted : f.printed = true) :
    told { s with p := { s.p with mask := mask }, frames := rest } = told s := by
  unfold told
  rw [hframes]
  simp [hprinted]

/-- The signals stay as they are, and so does what has been told. -/
theorem handleInv_return (s s' : State) (h : HandleInv handler origin s)
    (htable : s'.p.table = s.p.table) (hpending : s'.p.pending = s.p.pending)
    (hsent : s'.sent = s.sent) (htold : told s' = told s)
    (hsleeping : s'.pc = .sleeping → s'.frames = [] ∧ s'.lines = [] ∧ BlocksAll s'.p.mask)
    (hlooping : s'.pc = .looping → s'.frames = [] → s'.p.mask = origin \ reserved)
    (hframes : ∀ f rest, s'.frames = f :: rest →
      rest = [] ∧ s'.pc = .looping ∧ BlocksAll s'.p.mask ∧ f.saved = origin \ reserved) :
    HandleInv handler origin s' := by
  refine ⟨?_, ?_, hsleeping, hlooping, hframes, ?_, ?_, ?_, ?_⟩
  · rw [htable]
    exact h.table
  · rw [htable]
    exact h.others
  · rw [htold]
    exact h.told
  · rw [htold, hpending, hsent]
    exact h.realtime
  · rw [htold, hpending, hsent]
    exact h.bounded
  · rw [htold, hpending, hsent]
    exact h.kept

/-- What a step does to the signals: one is sent, one is told, one that nobody can
    catch is taken, or nothing. -/
theorem step_cases (s : State) (e : Event) (s' : State) (h : HandleInv handler origin s)
    (hstep : Step origin s e s') :
    (∃ sig, e = .send sig ∧ s' = next origin s (.send sig)) ∨
      (∃ sig, Chosen s.p sig ∧ Usable sig ∧ sig ∉ origin ∧ s.pc = .looping ∧ s.frames = [] ∧
        handled s e = [sig] ∧
        s' = { s with p := enter s.p sig, frames := ⟨sig, s.p.mask, false⟩ :: s.frames }) ∨
      (∃ sig, ¬ Usable sig ∧ handled s e = [] ∧ s' = { s with p := dispose s.p sig }) ∨
      (HandleInv handler origin s' ∧ handled s e = [] ∧ told s' = told s ∧
        s'.p.pending = s.p.pending ∧ s'.sent = s.sent) := by
  rcases hstep with ⟨hen, rfl⟩
  cases e with
  | send sig => exact .inl ⟨sig, rfl, rfl⟩
  | deliver sig =>
      rcases deliver_cases s sig h hen with ⟨husable, horigin, hpc, hframes, hto, heq⟩ |
        ⟨hother, hto, heq⟩
      · exact .inr (.inl ⟨sig, hen, husable, horigin, hpc, hframes, hto, heq⟩)
      · exact .inr (.inr (.inl ⟨sig, hother, hto, heq⟩))
  | print =>
      rcases hen with ⟨-, f, rest, hframes, hprinted⟩
      rcases h.frames f rest hframes with ⟨hrest, hpc, hmask, hsaved⟩
      have hnext : next origin s .print =
          { s with lines := s.lines ++ [f.sig], frames := { f with printed := true } :: rest } := by
        rw [next, hframes]
      have htold := told_print s f rest hframes hprinted hrest
      rw [hnext]
      refine .inr (.inr (.inr ⟨?_, rfl, htold, rfl, rfl⟩))
      refine handleInv_return s _ h rfl rfl rfl htold (fun hc => ?_) (fun _ hc => (by cases hc))
        (fun g rest' hg => ?_)
      · have hc' : s.pc = .sleeping := hc
        rw [hpc] at hc'
        cases hc'
      · rcases List.cons.inj hg with ⟨rfl, rfl⟩
        exact ⟨hrest, hpc, hmask, hsaved⟩
  | ret =>
      rcases hen with ⟨-, f, rest, hframes, hprinted⟩
      rcases h.frames f rest hframes with ⟨hrest, hpc, hmask, hsaved⟩
      have hnext : next origin s .ret =
          { s with p := { s.p with mask := f.saved }, frames := rest } := by
        rw [next, hframes]
      have htold := told_ret s f rest f.saved hframes hprinted
      rw [hnext]
      refine .inr (.inr (.inr ⟨?_, rfl, htold, rfl, rfl⟩))
      refine handleInv_return s _ h rfl rfl rfl htold (fun hc => ?_) (fun _ _ => hsaved)
        (fun g rest' hg => ?_)
      · have hc' : s.pc = .sleeping := hc
        rw [hpc] at hc'
        cases hc'
      · have hg' : rest = g :: rest' := hg
        rw [hrest] at hg'
        cases hg'
  | main =>
      rcases hen with ⟨-, hframes, hpc⟩
      refine .inr (.inr (.inr ⟨?_, rfl, rfl, rfl, rfl⟩))
      refine handleInv_return s _ h rfl rfl rfl rfl (fun hc => (by cases hc)) (fun _ _ => rfl)
        (fun g rest' hg => ?_)
      have hg' : s.frames = g :: rest' := hg
      rw [hframes] at hg'
      cases hg'

theorem handleInv_step (s : State) (e : Event) (s' : State) (h : HandleInv handler origin s)
    (hstep : Step origin s e s') : HandleInv handler origin s' := by
  rcases step_cases s e s' h hstep with ⟨sig, -, rfl⟩ |
    ⟨sig, hsig, husable, horigin, hpc, hframes, -, rfl⟩ | ⟨sig, hother, -, rfl⟩ | ⟨hinv, -⟩
  · exact handleInv_send s sig h
  · exact handleInv_enter s sig h hsig husable horigin hpc hframes
  · exact handleInv_dispose s sig h hother
  · exact hinv

/-- What has been told grows by what is delivered to a handler. -/
theorem told_step (s : State) (e : Event) (s' : State) (h : HandleInv handler origin s)
    (hstep : Step origin s e s') : told s' = told s ++ handled s e := by
  rcases step_cases s e s' h hstep with ⟨sig, rfl, rfl⟩ |
    ⟨sig, -, -, -, -, hframes, hto, rfl⟩ | ⟨sig, -, hto, rfl⟩ | ⟨-, hto, htold, -⟩
  · exact (List.append_nil _).symm
  · rw [hto]
    exact told_enter s sig hframes
  · rw [hto]
    exact (List.append_nil _).symm
  · rw [hto, htold, List.append_nil]

end Steps

end SigHandleOrder

end TlpiPractice
