import TlpiPractice.Core.FlockDeadLock

/-!
# How the Two Processes End

When the two processes come to rest, and how, in whatever order they make
their calls.

The program looks like the textbook deadlock, as each process asks for the lock
that the other has. There is none: the lock is that of an open file
description, and the two processes have the same ones. The second `flock` of a
process finds a lock that it has itself, and both come to `pause`.

It is another matter if `f1` and `f2` are names of one file. Then there are two
open file descriptions of the same file and the second lock of a process
conflicts with its own first one. The process that is first never gets its
second lock, and the other never its first one. If there is no `f2`, each
process exits at the call that uses this descriptor.

## Main definitions

* `Inv`: What holds in every state.
* `Outcome`: How the processes come to rest.

## Theorems

* `inv_step`: A step keeps the invariant.
* `outcome_of_stuck`: Where no process can go on.
* `ends`: Runs are short, and end in the outcome.
-/

namespace TlpiPractice

namespace FlockDeadLock

open Runs

/-- How many calls a process can still make. -/
def rank : Pc → Nat
  | .flockFirst => 6
  | .semWait => 5
  | .printWake => 4
  | .printPost => 3
  | .semPost => 2
  | .flockSecond => 1
  | .pause => 0
  | .exited => 0

/-- Between `sem_wait` and `sem_post`. -/
def critical : Pc → Nat
  | .printWake => 1
  | .printPost => 1
  | .semPost => 1
  | _ => 0

/-- Both lines of a process. -/
def lines (w : Who) : List Line := [.wake w, .post w]

/-- What a process has printed. -/
def printed (w : Who) : Pc → List Line
  | .printPost => [.wake w]
  | .semPost => lines w
  | .flockSecond => lines w
  | .pause => lines w
  -- Without an `f2` the parent exits at its first call.
  | .exited => if w = .child then lines w else []
  | _ => []

/-- What holds in every state. -/
structure Inv (files : Files) (s : State) : Prop where
  /-- What is not open is not locked. -/
  closed : ∀ d, files.inode d = none → s.held d = false
  first : ∀ w, s.pc w ≠ .flockFirst → s.pc w ≠ .exited → s.held (firstFd w) = true
  /-- A lock that its first process has not taken is the second of the other. -/
  taken : ∀ w, s.pc w = .flockFirst → s.held (firstFd w) = true → s.pc w.other = .pause
  second : ∀ w, s.pc w = .pause → s.held (secondFd w) = true
  /-- One file has one lock. -/
  alone : files.inode .fd1 = files.inode .fd2 → ¬ (s.held .fd1 = true ∧ s.held .fd2 = true)
  exits : ∀ w, s.pc w = .exited → files.f2 = none
  sem : s.sem + critical (s.pc .parent) + critical (s.pc .child) = 1
  /-- The lines of one process are all before those of the other. -/
  out : ∃ w, s.out = printed w (s.pc w) ++ printed w.other (s.pc w.other) ∧
    (printed w.other (s.pc w.other) ≠ [] → rank (s.pc w) ≤ 1)

/-! ### Both processes and both files -/

theorem other_ne (w : Who) : w.other ≠ w := by cases w <;> exact Who.noConfusion

theorem other_other (w : Who) : w.other.other = w := by cases w <;> rfl

theorem eq_or_eq_other (v w : Who) : v = w ∨ v = w.other := by
  cases v <;> cases w <;> first | exact .inl rfl | exact .inr rfl

theorem firstFd_other (w : Who) : firstFd w.other = secondFd w := by cases w <;> rfl

theorem other_firstFd (w : Who) : (firstFd w).other = secondFd w := by cases w <;> rfl

theorem other_secondFd (w : Who) : (secondFd w).other = firstFd w := by cases w <;> rfl

/-- What holds of both processes holds when one of them has changed. -/
theorem forall_update {α : Type} {P : Who → α → Prop} (f : Who → α) (w : Who) (a : α)
    (hother : P w.other (f w.other)) (ha : P w a) (v : Who) : P v (Function.update f w a v) := by
  rcases eq_or_eq_other v w with rfl | rfl
  · rw [Function.update_self]
    exact ha
  · rw [Function.update_of_ne (other_ne w)]
    exact hother

theorem critical_add (pc : Who → Pc) (w : Who) :
    critical (pc .parent) + critical (pc .child) = critical (pc w) + critical (pc w.other) := by
  cases w
  · rfl
  · exact Nat.add_comm _ _

/-- One process has changed, and the other may still have its first call to do. -/
theorem taken_update (pc : Who → Pc) (held : Ofd → Bool) (w : Who) (p : Pc)
    (hp : p ≠ .flockFirst)
    (hother : pc w.other = .flockFirst → held (secondFd w) = true → p = .pause) (v : Who)
    (hv : Function.update pc w p v = .flockFirst) (hheld : held (firstFd v) = true) :
    Function.update pc w p v.other = .pause := by
  rcases eq_or_eq_other v w with rfl | rfl
  · rw [Function.update_self] at hv
    exact absurd hv hp
  · rw [Function.update_of_ne (other_ne w)] at hv
    rw [firstFd_other] at hheld
    rw [other_other, Function.update_self]
    exact hother hv hheld

theorem one_lt_rank_of_critical (p : Pc) (h : 0 < critical p) : 1 < rank p := by
  cases p <;> first | exact absurd h (Nat.lt_irrefl 0) | decide

/-- A process that has printed and is not between its semaphore calls. -/
theorem rank_le_one_of_printed (w : Who) (p : Pc) (hp : printed w p ≠ [])
    (hc : critical p = 0) : rank p ≤ 1 := by
  cases p <;> first | exact absurd rfl hp | exact Nat.noConfusion hc | decide

/-! ### The invariant -/

section Steps

variable (files : Files) (s : State) (w : Who) (h : Inv files s)
include h

/-- While one process is between its semaphore calls the other is not. -/
theorem critical_other (hw : 0 < critical (s.pc w)) : critical (s.pc w.other) = 0 := by
  have hsem := h.sem
  have hsum := critical_add s.pc w
  omega

theorem taken_other (hv : s.pc w.other = .flockFirst) (hheld : s.held (secondFd w) = true) :
    s.pc w = .pause := by
  have hpause := h.taken w.other hv (by rw [firstFd_other]; exact hheld)
  rwa [other_other] at hpause

theorem sem_update (p : Pc) (sem' : Nat)
    (hsem : sem' + critical p = s.sem + critical (s.pc w)) :
    sem' + critical (Function.update s.pc w p .parent) +
      critical (Function.update s.pc w p .child) = 1 := by
  have hold := h.sem
  have hsum := critical_add s.pc w
  have hnew := critical_add (Function.update s.pc w p) w
  rw [Function.update_self, Function.update_of_ne (other_ne w)] at hnew
  omega

/-- The lines stay in order when a process goes on and prints some of them. -/
theorem out_update (p : Pc) (new : List Line)
    (hprinted : printed w p = printed w (s.pc w) ++ new) (hrank : rank p ≤ rank (s.pc w))
    (hcritical : new ≠ [] → 0 < critical (s.pc w)) :
    ∃ v, s.out ++ new = printed v (Function.update s.pc w p v) ++
        printed v.other (Function.update s.pc w p v.other) ∧
      (printed v.other (Function.update s.pc w p v.other) ≠ [] →
        rank (Function.update s.pc w p v) ≤ 1) := by
  -- The order can be said for this process and the other one.
  have hself : Function.update s.pc w p w = p := Function.update_self w p s.pc
  have hother : Function.update s.pc w p w.other = s.pc w.other :=
    Function.update_of_ne (other_ne w) p s.pc
  obtain ⟨v, hout, hlate⟩ := h.out
  rcases eq_or_eq_other v w with rfl | rfl
  · refine ⟨v, ?_, ?_⟩
    · rw [hself, hother, hprinted, hout, List.append_assoc, List.append_assoc]
      by_cases hnew : new = []
      · rw [hnew, List.append_nil, List.nil_append]
      · have hnone : printed v.other (s.pc v.other) = [] := by
          by_contra hc
          have := one_lt_rank_of_critical _ (hcritical hnew)
          have := hlate hc
          omega
        rw [hnone, List.append_nil, List.nil_append]
    · rw [hself, hother]
      exact fun hc => Nat.le_trans hrank (hlate hc)
  · rw [other_other] at hout hlate
    by_cases hnone : printed w.other (s.pc w.other) = []
    · refine ⟨w, ?_, ?_⟩
      · rw [hself, hother, hprinted, hout, hnone, List.nil_append, List.append_nil]
      · rw [hother, hnone]
        exact fun hc => absurd rfl hc
    · refine ⟨w.other, ?_, fun hc => ?_⟩
      · rw [other_other, hself, hother, hprinted, hout, List.append_assoc]
      · rw [hother]
        by_cases hbefore : printed w (s.pc w) = []
        · -- The process prints its first line, so the other one has printed both.
          have hnew : new ≠ [] := by
            rw [other_other, hself, hprinted, hbefore, List.nil_append] at hc
            exact hc
          have hzero := critical_other files s w h (hcritical hnew)
          exact rank_le_one_of_printed _ _ hnone hzero
        · exact hlate hbefore

/-- A step of a process with or within its semaphore calls. -/
theorem inv_move (p : Pc) (sem' : Nat) (new : List Line)
    (hlock : s.held (firstFd w) = true) (hw : rank (s.pc w) ≠ 0)
    (hp : 0 < rank p ∧ p ≠ .flockFirst) (hsem : sem' + critical p = s.sem + critical (s.pc w))
    (hprinted : printed w p = printed w (s.pc w) ++ new) (hrank : rank p ≤ rank (s.pc w))
    (hcritical : new ≠ [] → 0 < critical (s.pc w)) :
    Inv files { held := s.held, sem := sem', pc := Function.update s.pc w p,
                out := s.out ++ new } := by
  refine ⟨h.closed, ?_, ?_, ?_, h.alone, ?_, ?_, out_update files s w h p new hprinted hrank
    hcritical⟩
  · exact forall_update (P := fun v p => p ≠ .flockFirst → p ≠ .exited →
      s.held (firstFd v) = true) s.pc w p (h.first _) (fun _ _ => hlock)
  · exact taken_update s.pc s.held w p hp.2
      (fun hv hheld => absurd (congrArg rank (taken_other files s w h hv hheld)) hw)
  · refine forall_update (P := fun v p => p = .pause → s.held (secondFd v) = true) s.pc w p
      (h.second _) (fun hc => ?_)
    rw [hc] at hp
    exact absurd hp.1 (Nat.lt_irrefl 0)
  · refine forall_update (P := fun _ p => p = .exited → files.f2 = none) s.pc w p (h.exits _)
      (fun hc => ?_)
    rw [hc] at hp
    exact absurd hp.1 (Nat.lt_irrefl 0)
  · exact sem_update files s w h p sem' hsem

/-- A `flock` that succeeds. -/
theorem inv_flock (d : Ofd) (p : Pc) (i : Nat) (hinode : files.inode d = some i)
    (hfree : ¬ Conflict files s d) (hdp : (s.pc w = .flockFirst ∧ d = firstFd w ∧ p = .semWait) ∨
      (s.pc w = .flockSecond ∧ d = secondFd w ∧ p = .pause)) :
    Inv files { s with held := Function.update s.held d true,
                       pc := Function.update s.pc w p } := by
  have hmono : ∀ d', s.held d' = true → Function.update s.held d true d' = true := by
    intro d' hd'
    by_cases hd : d' = d
    · rw [hd, Function.update_self]
    · rw [Function.update_of_ne hd]
      exact hd'
  have hnew : Function.update s.held d true d = true := Function.update_self d true s.held
  have hp : p ≠ .flockFirst ∧ p ≠ .exited ∧ critical p = critical (s.pc w) ∧
      printed w p = printed w (s.pc w) ++ [] ∧ rank p ≤ rank (s.pc w) := by
    rcases hdp with ⟨hpc, -, rfl⟩ | ⟨hpc, -, rfl⟩
    all_goals
      rw [hpc]
      exact ⟨Pc.noConfusion, Pc.noConfusion, rfl, rfl, by decide⟩
  have hout := out_update files s w h p [] hp.2.2.2.1 hp.2.2.2.2 (fun hc => absurd rfl hc)
  rw [List.append_nil] at hout
  refine ⟨?_, ?_, ?_, ?_, ?_, ?_, ?_, hout⟩
  · intro d' hd'
    by_cases hd : d' = d
    · rw [hd, hinode] at hd'
      exact absurd hd' (Option.some_ne_none i)
    · have hsame : Function.update s.held d true d' = s.held d' := Function.update_of_ne hd _ _
      exact hsame.trans (h.closed d' hd')
  · refine forall_update (P := fun v p => p ≠ .flockFirst → p ≠ .exited →
      Function.update s.held d true (firstFd v) = true) s.pc w p
      (fun ha hb => hmono _ (h.first _ ha hb)) (fun _ _ => ?_)
    rcases hdp with ⟨-, rfl, -⟩ | ⟨hpc, -, -⟩
    · exact hnew
    · refine hmono _ (h.first w ?_ ?_) <;> rw [hpc] <;> exact Pc.noConfusion
  · refine taken_update s.pc (Function.update s.held d true) w p hp.1 (fun hv hheld => ?_)
    rcases hdp with ⟨hpc, rfl, -⟩ | ⟨-, -, hpause⟩
    · -- The lock just taken is not the first of the other process.
      have hne : secondFd w ≠ firstFd w := by cases w <;> exact Ofd.noConfusion
      rw [Function.update_of_ne hne] at hheld
      have hpause := taken_other files s w h hv hheld
      rw [hpc] at hpause
      exact Pc.noConfusion hpause
    · exact hpause
  · refine forall_update (P := fun v p => p = .pause →
      Function.update s.held d true (secondFd v) = true) s.pc w p
      (fun hc => hmono _ (h.second _ hc)) (fun hc => ?_)
    rcases hdp with ⟨-, -, hsem⟩ | ⟨-, rfl, -⟩
    · exact Pc.noConfusion (hsem.symm.trans hc)
    · exact hnew
  · intro hsame hboth
    have hinodes : files.inode d = files.inode d.other := by
      cases d
      · exact hsame
      · exact hsame.symm
    have hne : d.other ≠ d := by cases d <;> exact Ofd.noConfusion
    have hheld : Function.update s.held d true d.other = true := by
      cases d
      · exact hboth.2
      · exact hboth.1
    rw [Function.update_of_ne hne] at hheld
    exact hfree ⟨hheld, hinodes⟩
  · exact forall_update (P := fun _ p => p = .exited → files.f2 = none) s.pc w p (h.exits _)
      (fun hc => absurd hc hp.2.1)
  · exact sem_update files s w h p s.sem (by rw [hp.2.2.1])

/-- A `flock` of a descriptor that is not open. -/
theorem inv_exit (d : Ofd) (hinode : files.inode d = none)
    (hd : (s.pc w = .flockFirst ∧ d = firstFd w) ∨ (s.pc w = .flockSecond ∧ d = secondFd w)) :
    Inv files { s with pc := Function.update s.pc w .exited } := by
  have hf2 : d = .fd2 ∧ files.f2 = none := by
    cases d
    · exact absurd hinode (Option.some_ne_none _)
    · exact ⟨rfl, hinode⟩
  have hp : rank (s.pc w) ≠ 0 ∧ critical .exited = critical (s.pc w) ∧
      printed w .exited = printed w (s.pc w) ++ [] := by
    rcases hd with ⟨hpc, hfd⟩ | ⟨hpc, hfd⟩
    all_goals
      rw [hf2.1] at hfd
      rw [hpc]
      cases w
    · exact ⟨by decide, rfl, rfl⟩
    · exact Ofd.noConfusion hfd
    · exact Ofd.noConfusion hfd
    · exact ⟨by decide, rfl, rfl⟩
  have hout := out_update files s w h .exited [] hp.2.2 (Nat.zero_le _) (fun hc => absurd rfl hc)
  rw [List.append_nil] at hout
  refine ⟨h.closed, ?_, ?_, ?_, h.alone, fun _ _ => hf2.2, ?_, hout⟩
  · exact forall_update (P := fun v p => p ≠ .flockFirst → p ≠ .exited →
      s.held (firstFd v) = true) s.pc w .exited (h.first _) (fun _ hc => absurd rfl hc)
  · exact taken_update s.pc s.held w .exited Pc.noConfusion
      (fun hv hheld => absurd (congrArg rank (taken_other files s w h hv hheld)) hp.1)
  · exact forall_update (P := fun v p => p = .pause → s.held (secondFd v) = true) s.pc w .exited
      (h.second _) (fun hc => Pc.noConfusion hc)
  · exact sem_update files s w h .exited s.sem (by rw [hp.2.1])

end Steps

/-- What both processes can still do. -/
def measure (s : State) : Nat := rank (s.pc .parent) + rank (s.pc .child)

theorem measure_update (pc : Who → Pc) (w : Who) (p : Pc) (h : rank p < rank (pc w)) :
    rank (Function.update pc w p .parent) + rank (Function.update pc w p .child) <
      rank (pc .parent) + rank (pc .child) := by
  have hother : Function.update pc w p w.other = pc w.other :=
    Function.update_of_ne (other_ne w) p pc
  have hself : Function.update pc w p w = p := Function.update_self w p pc
  cases w
  · have hsame : Function.update pc .parent p .child = pc .child := hother
    rw [hsame, hself]
    omega
  · have hsame : Function.update pc .child p .parent = pc .parent := hother
    rw [hsame, hself]
    omega

/-- A `flock` that need not wait either locks or ends its process. -/
theorem flock_spec (files : Files) (s : State) (w : Who) (d : Ofd) (p : Pc) (h : Inv files s)
    (hfree : ¬ Conflict files s d)
    (hdp : (s.pc w = .flockFirst ∧ d = firstFd w ∧ p = .semWait) ∨
      (s.pc w = .flockSecond ∧ d = secondFd w ∧ p = .pause)) :
    Inv files (flock files s w d p) ∧ measure (flock files s w d p) < measure s := by
  have hless : ∀ p', rank p' ≤ rank p → rank p' < rank (s.pc w) := by
    intro p' hp'
    rcases hdp with ⟨hpc, -, rfl⟩ | ⟨hpc, -, rfl⟩
    all_goals
      rw [hpc]
      exact Nat.lt_of_le_of_lt hp' (by decide)
  unfold flock
  cases hinode : files.inode d with
  | some i =>
      exact ⟨inv_flock files s w h d p i hinode hfree hdp,
        measure_update s.pc w p (hless p (Nat.le_refl _))⟩
  | none =>
      exact ⟨inv_exit files s w h d hinode (hdp.imp (fun ha => ⟨ha.1, ha.2.1⟩)
        (fun ha => ⟨ha.1, ha.2.1⟩)), measure_update s.pc w .exited (hless _ (Nat.zero_le _))⟩

/-- A step keeps the invariant, and less is left to do. -/
theorem inv_step (files : Files) (s : State) (w : Who) (s' : State) (h : Inv files s)
    (hstep : Step files s w s') : Inv files s' ∧ measure s' < measure s := by
  rcases hstep with ⟨hen, rfl⟩
  unfold Enabled at hen
  unfold next
  have hlock := h.first w
  cases hpc : s.pc w with
  | flockFirst =>
      rw [hpc] at hen
      exact flock_spec files s w _ _ h hen (.inl ⟨hpc, rfl, rfl⟩)
  | flockSecond =>
      rw [hpc] at hen
      exact flock_spec files s w _ _ h hen (.inr ⟨hpc, rfl, rfl⟩)
  | semWait =>
      rw [hpc] at hen hlock
      have hmove := inv_move files s w h .printWake (s.sem - 1) []
        (hlock Pc.noConfusion Pc.noConfusion) (by rw [hpc]; decide) ⟨by decide, Pc.noConfusion⟩
        (by rw [hpc]; exact Nat.sub_add_cancel hen) (by rw [hpc]; rfl) (by rw [hpc]; decide)
        (fun hc => absurd rfl hc)
      rw [List.append_nil] at hmove
      exact ⟨hmove, measure_update s.pc w .printWake (by rw [hpc]; decide)⟩
  | printWake =>
      rw [hpc] at hlock
      exact ⟨inv_move files s w h .printPost s.sem [.wake w]
        (hlock Pc.noConfusion Pc.noConfusion) (by rw [hpc]; decide) ⟨by decide, Pc.noConfusion⟩
        (by rw [hpc]; rfl) (by rw [hpc]; rfl) (by rw [hpc]; decide)
        (fun _ => by rw [hpc]; exact Nat.one_pos),
        measure_update s.pc w .printPost (by rw [hpc]; decide)⟩
  | printPost =>
      rw [hpc] at hlock
      exact ⟨inv_move files s w h .semPost s.sem [.post w]
        (hlock Pc.noConfusion Pc.noConfusion) (by rw [hpc]; decide) ⟨by decide, Pc.noConfusion⟩
        (by rw [hpc]; rfl) (by rw [hpc]; rfl) (by rw [hpc]; decide)
        (fun _ => by rw [hpc]; exact Nat.one_pos),
        measure_update s.pc w .semPost (by rw [hpc]; decide)⟩
  | semPost =>
      rw [hpc] at hlock
      have hmove := inv_move files s w h .flockSecond (s.sem + 1) []
        (hlock Pc.noConfusion Pc.noConfusion) (by rw [hpc]; decide) ⟨by decide, Pc.noConfusion⟩
        (by rw [hpc]; rfl) (by rw [hpc]; rfl) (by rw [hpc]; decide) (fun hc => absurd rfl hc)
      rw [List.append_nil] at hmove
      exact ⟨hmove, measure_update s.pc w .flockSecond (by rw [hpc]; decide)⟩
  | pause =>
      rw [hpc] at hen
      exact hen.elim
  | exited =>
      rw [hpc] at hen
      exact hen.elim

theorem inv_initial (files : Files) : Inv files initial where
  closed := fun _ _ => rfl
  first := fun _ hc _ => absurd rfl hc
  taken := fun _ _ hc => Bool.noConfusion hc
  second := fun _ hc => Pc.noConfusion hc
  alone := fun _ hc => Bool.noConfusion hc.1
  exits := fun _ hc => Pc.noConfusion hc
  sem := rfl
  out := ⟨.parent, rfl, fun hc => absurd rfl hc⟩

/-! ### Where no process can go on -/

/-- How the processes come to rest. -/
def Outcome (files : Files) (s : State) : Prop :=
  match files.f2 with
  | none => (∀ w, s.pc w = .exited) ∧ s.out = lines .child
  | some i =>
      if i = files.f1 then
        ∃ w, s.pc w = .flockSecond ∧ s.pc w.other = .flockFirst ∧ s.out = lines w
      else (∀ w, s.pc w = .pause) ∧ ∃ w, s.out = lines w ++ lines w.other

/-- What keeps a process from going on. -/
def Waits (files : Files) (s : State) (w : Who) : Prop :=
  (s.pc w = .flockFirst ∧ Conflict files s (firstFd w)) ∨
    (s.pc w = .flockSecond ∧ Conflict files s (secondFd w)) ∨ s.pc w = .pause ∨ s.pc w = .exited

theorem waits_of_stuck (files : Files) (s : State) (h : Inv files s)
    (hstuck : ∀ w, ¬ Enabled files s w) (w : Who) : Waits files s w := by
  -- Nobody is between the semaphore calls, since nothing stops a process there.
  have hnone : ∀ v, critical (s.pc v) = 0 := by
    intro v
    have hv := hstuck v
    unfold Enabled at hv
    cases hpc : s.pc v <;> rw [hpc] at hv <;> first | rfl | exact absurd trivial hv
  have hw := hstuck w
  unfold Enabled at hw
  unfold Waits
  cases hpc : s.pc w with
  | flockFirst =>
      rw [hpc] at hw
      exact .inl ⟨rfl, Classical.not_not.mp hw⟩
  | flockSecond =>
      rw [hpc] at hw
      exact .inr (.inl ⟨rfl, Classical.not_not.mp hw⟩)
  | semWait =>
      have hsem := h.sem
      rw [hpc] at hw
      rw [hnone, hnone] at hsem
      omega
  | pause => exact .inr (.inr (.inl rfl))
  | exited => exact .inr (.inr (.inr rfl))
  | _ =>
      rw [hpc] at hw
      exact absurd trivial hw

theorem both_held (s : State) (w : Who) (h : s.held (firstFd w) = true)
    (h' : s.held (secondFd w) = true) : s.held .fd1 = true ∧ s.held .fd2 = true := by
  cases w
  · exact ⟨h', h⟩
  · exact ⟨h, h'⟩

/-- A conflict is one of two names for one file. -/
theorem inode_eq_of_conflict (files : Files) (s : State) (d : Ofd) (h : Conflict files s d) :
    files.inode .fd1 = files.inode .fd2 := by
  cases d
  · exact h.2
  · exact h.2.symm

theorem held_of_pause (files : Files) (s : State) (h : Inv files s) (w : Who)
    (hpc : s.pc w = .pause) : s.held .fd1 = true ∧ s.held .fd2 = true := by
  have hfirst := h.first w (by rw [hpc]; exact Pc.noConfusion) (by rw [hpc]; exact Pc.noConfusion)
  exact both_held s w hfirst (h.second w hpc)

/-- Without a conflict each process comes to one of its two ends. -/
theorem pause_or_exited (files : Files) (s : State) (hne : files.inode .fd1 ≠ files.inode .fd2)
    (w : Who) (h : Waits files s w) : s.pc w = .pause ∨ s.pc w = .exited := by
  rcases h with ⟨-, hc⟩ | ⟨-, hc⟩ | h
  · exact absurd (inode_eq_of_conflict files s _ hc) hne
  · exact absurd (inode_eq_of_conflict files s _ hc) hne
  · exact h

/-- With two names for one file, one process has the lock and waits for itself,
    and the other one waits for it too. -/
theorem second_and_first (files : Files) (s : State) (h : Inv files s)
    (hsame : files.inode .fd1 = files.inode .fd2) (hopen : files.f2 ≠ none)
    (hwaits : ∀ w, Waits files s w) :
    ∃ w, s.pc w = .flockSecond ∧ s.pc w.other = .flockFirst := by
  have halone := h.alone hsame
  have hlocks : ∀ w, (s.pc w = .flockFirst ∧ s.held (secondFd w) = true) ∨
      (s.pc w = .flockSecond ∧ s.held (firstFd w) = true) := by
    intro w
    rcases hwaits w with ⟨hpc, hc⟩ | ⟨hpc, hc⟩ | hpc | hpc
    · exact .inl ⟨hpc, other_firstFd w ▸ hc.1⟩
    · exact .inr ⟨hpc, other_secondFd w ▸ hc.1⟩
    · exact absurd (held_of_pause files s h w hpc) halone
    · exact absurd (h.exits w hpc) hopen
  rcases hlocks .parent with ⟨hp, hheld⟩ | ⟨hp, hheld⟩ <;>
    rcases hlocks .child with ⟨hc, hheld'⟩ | ⟨hc, hheld'⟩
  · exact absurd ⟨hheld, hheld'⟩ halone
  · exact ⟨.child, hc, hp⟩
  · exact ⟨.parent, hp, hc⟩
  · exact absurd ⟨hheld', hheld⟩ halone

/-- Where the processes come to rest. -/
theorem outcome_of_stuck (files : Files) (s : State) (h : Inv files s)
    (hstuck : ∀ w, ¬ Enabled files s w) : Outcome files s := by
  have hwaits := waits_of_stuck files s h hstuck
  obtain ⟨v, hout, -⟩ := h.out
  unfold Outcome
  cases hf2 : files.f2 with
  | none =>
      have hne : files.inode .fd1 ≠ files.inode .fd2 := fun hc =>
        absurd (hc.trans hf2) (Option.some_ne_none _)
      have hall : ∀ w, s.pc w = .exited := by
        intro w
        refine (pause_or_exited files s hne w (hwaits w)).resolve_left (fun hpc => ?_)
        have hheld := (held_of_pause files s h w hpc).2
        rw [h.closed .fd2 hf2] at hheld
        exact Bool.noConfusion hheld
      refine ⟨hall, ?_⟩
      rw [hout, hall, hall]
      cases v
      · rfl
      · rfl
  | some i =>
      have hopen : files.f2 ≠ none := by
        rw [hf2]
        exact Option.some_ne_none i
      by_cases hi : i = files.f1
      · have hsame : files.inode .fd1 = files.inode .fd2 := by
          rw [Files.inode, Files.inode, hf2, hi]
        obtain ⟨w, hsecond, hfirst⟩ := second_and_first files s h hsame hopen hwaits
        have hlines : s.out = lines w := by
          rcases eq_or_eq_other v w with rfl | rfl
          · rw [hout, hsecond, hfirst]
            rfl
          · rw [hout, other_other, hsecond, hfirst]
            rfl
        simp only [if_pos hi]
        exact ⟨w, hsecond, hfirst, hlines⟩
      · have hne : files.inode .fd1 ≠ files.inode .fd2 := by
          intro hc
          rw [Files.inode, Files.inode, hf2] at hc
          exact hi (Option.some.inj hc).symm
        have hall : ∀ w, s.pc w = .pause := fun w =>
          (pause_or_exited files s hne w (hwaits w)).resolve_right
            (fun hpc => hopen (h.exits w hpc))
        simp only [if_neg hi]
        refine ⟨hall, v, ?_⟩
        rw [hout, hall, hall]
        rfl

/-- However the calls of the two processes follow each other, there are at most
    twelve, and when none is possible any more, the two have come to rest as
    `Outcome` says. -/
theorem ends (files : Files) (tr : List (Who × State)) (hrun : AllSteps (Step files) initial tr) :
    tr.length ≤ 12 ∧ ((∀ w s', ¬ Step files (lastState initial tr) w s') →
      Outcome files (lastState initial tr)) := by
  have hkeep : ∀ s w s', Inv files s → Step files s w s' → Inv files s' :=
    fun s w s' h hstep => (inv_step files s w s' h hstep).1
  refine ⟨?_, fun hstuck => ?_⟩
  · exact length_le_of_decreasing hkeep (fun s w s' h hstep => (inv_step files s w s' h hstep).2)
      initial tr (inv_initial files) hrun
  · refine outcome_of_stuck files _ ?_ (fun w hen => hstuck w _ ⟨hen, rfl⟩)
    exact always_last initial tr (always_of_allSteps hkeep initial tr (inv_initial files) hrun)

/-- Both processes take their first locks, and then one after the other goes on to
    its `pause`. -/
def childFirst : List Who :=
  [.child, .parent] ++ (List.replicate 5 .child ++ List.replicate 5 .parent)

theorem ends_two_files :
    (record (next ⟨1, some 2⟩) initial childFirst).length ≤ 12 ∧
      Outcome ⟨1, some 2⟩ (lastState initial (record (next ⟨1, some 2⟩) initial childFirst)) := by
  have hfree : ∀ s d, ¬ Conflict ⟨1, some 2⟩ s d := by
    intro s d hc
    have hne : ∀ d : Ofd, (⟨1, some 2⟩ : Files).inode d ≠ (⟨1, some 2⟩ : Files).inode d.other := by
      rintro (_ | _) <;> decide
    exact hne d hc.2
  have hrun := ends ⟨1, some 2⟩ (record (next ⟨1, some 2⟩) initial childFirst)
    (allSteps_record (Enabled ⟨1, some 2⟩) _ _ _
      ⟨hfree _ _, hfree _ _, Nat.one_pos, trivial, trivial, trivial, hfree _ _, Nat.one_pos,
        trivial, trivial, trivial, hfree _ _, trivial⟩)
  refine ⟨hrun.1, hrun.2 ?_⟩
  -- Both processes are in `pause`.
  rintro (_ | _) s' ⟨hen, -⟩
  · exact hen
  · exact hen

end FlockDeadLock

end TlpiPractice
