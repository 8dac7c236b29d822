import TlpiPractice.Core.SyncWithSem

/-!
# The Orders of the Lines

In which order the three lines can appear, and that the program ends.

The parent gets past its `semop` only when the child has made its own, and
this is behind the line of the child. So on a terminal the last line is that
of the parent. Elsewhere the lines of a process appear when it exits, and
nothing is said about which of the two exits first: the parent can be done
before the child has written the line that the parent has waited for.

What has been written and what is in the buffers follow from where the two
stand, but for the order, so the invariant is a table over their places.

## Main definitions

* `value`: The semaphore.
* `buffered`: What is in the buffer of a process.
* `written`: What can have been written.
* `SyncInv`: The invariant.
* `remaining`: How many steps are left.
* `endings`: The outputs of whole runs.

## Theorems

* `syncInv_print`: What is printed by either.
* `syncInv_parent`, `syncInv_child`: A step of either keeps the invariant.
* `progress`: Until both have exited there is a step that leaves fewer.
* `ends_iff`: The order of the calls, the outputs, and that the program ends.
-/

namespace TlpiPractice

namespace SyncWithSem

open Runs UndoSem

/-- The parent has got past its `semop`. -/
def ParentPc.past : ParentPc → Bool
  | .printing | .waiting => false
  | _ => true

/-- The child has made its `semop`. -/
def ChildPc.posted : ChildPc → Bool
  | .sleeping | .posting => false
  | _ => true

/-- The value of the semaphore. -/
def value (p : ParentPc) (c : ChildPc) : Int := if c.posted ∧ ¬ p.past then 1 else 0

/-- What the parent has printed. -/
def ParentPc.printed : ParentPc → List Line
  | .printing => []
  | .waiting | .leaving => [.waiting]
  | _ => [.waiting, .exit]

/-- What the child has printed. -/
def ChildPc.printed : ChildPc → List Line
  | .sleeping => []
  | _ => [.finished]

/-- What is in the buffer of a process. -/
def buffered (lines : Bool) (p : ParentPc) (c : ChildPc) : Proc → List Line
  | .parent => if lines = true ∨ p = .exited then [] else p.printed
  | .child => if lines = true ∨ c = .exited then [] else c.printed

/-- What can have been written: on a terminal the lines as they were printed,
    and else those of the processes that have exited. -/
def written (lines : Bool) (p : ParentPc) (c : ChildPc) : List (List Line) :=
  if lines then
    match p.printed, c.printed with
    | [], own => [own]
    | own, [] => [own]
    | first :: rest, own => [first :: (own ++ rest), own ++ first :: rest]
  else
    match p, c with
    | .exited, .exited => [p.printed ++ c.printed, c.printed ++ p.printed]
    | .exited, _ => [p.printed]
    | _, .exited => [c.printed]
    | _, _ => [[]]

structure SyncInv (lines : Bool) (s : State) : Prop where
  sem : s.sem.semval = value s.parent s.child
  order : s.parent.past = true → s.child.posted = true
  buffers : s.buffers = buffered lines s.parent s.child
  out : s.out ∈ written lines s.parent s.child

/-- The outputs of whole runs. -/
def endings (lines : Bool) : List (List Line) :=
  if lines then [[.waiting, .finished, .exit], [.finished, .waiting, .exit]]
  else [[.waiting, .exit, .finished], [.finished, .waiting, .exit]]

def ParentPc.remaining : ParentPc → Nat
  | .printing => 4
  | .waiting => 3
  | .leaving => 2
  | .exiting => 1
  | .exited => 0

def ChildPc.remaining : ChildPc → Nat
  | .sleeping => 3
  | .posting => 2
  | .exiting => 1
  | .exited => 0

/-- How many steps are left. -/
def remaining (s : State) : Nat := s.parent.remaining + s.child.remaining

theorem syncInv_initial (lines : Bool) : SyncInv lines initial where
  sem := rfl
  order := fun h => h
  buffers := by
    funext p
    cases p <;> · rw [buffered]; split <;> rfl
  out := by cases lines <;> exact List.mem_cons_self

/-- The `semop` of the parent, which waits for the child. -/
theorem take_eq (lines : Bool) (s : State) (h : SyncInv lines s) (hpc : s.parent = .waiting) :
    take s = if s.child.posted then .done { s.sem with semval := 0 } else .wouldBlock := by
  have hsem := h.sem
  rw [value, hpc] at hsem
  unfold take semop
  cases hposted : s.child.posted with
  | true =>
      rw [hposted, if_pos ⟨rfl, Bool.false_ne_true⟩] at hsem
      rw [hsem]
      rfl
  | false =>
      rw [hposted, if_neg (fun hc => Bool.false_ne_true hc.1)] at hsem
      rw [hsem]
      rfl

/-- The `semop` of the child, which goes through. -/
theorem post_eq (lines : Bool) (s : State) (h : SyncInv lines s) (hpc : s.child = .posting) :
    post s = .done { s.sem with semval := 1 } := by
  have hsem := h.sem
  rw [value, hpc, if_neg (fun hc => Bool.false_ne_true hc.1)] at hsem
  unfold post semop
  rw [hsem]
  rfl

/-- What has been written before a line, and with it. -/
theorem written_print (lines : Bool) (p p' : ParentPc) (c c' : ChildPc) (out : List Line)
    (l : Line) (hold : ∀ o ∈ written true p c, o ++ [l] ∈ written true p' c')
    (hsame : written false p' c' = written false p c) (h : out ∈ written lines p c) :
    (if lines then out ++ [l] else out) ∈ written lines p' c' := by
  cases lines with
  | true => exact hold out h
  | false =>
      rw [hsame]
      exact h

theorem print_out (lines : Bool) (s : State) (p : Proc) (l : Line) :
    (print lines s p l).out = if lines then s.out ++ [l] else s.out := by
  unfold print
  cases lines <;> rfl

theorem print_buffers (lines : Bool) (s : State) (p : Proc) (l : Line) :
    (print lines s p l).buffers =
      if lines then s.buffers else Function.update s.buffers p (s.buffers p ++ [l]) := by
  unfold print
  cases lines <;> rfl

theorem print_sem (lines : Bool) (s : State) (p : Proc) (l : Line) :
    (print lines s p l).sem = s.sem := by
  unfold print
  cases lines <;> rfl

theorem print_pcs (lines : Bool) (s : State) (p : Proc) (l : Line) :
    (print lines s p l).parent = s.parent ∧ (print lines s p l).child = s.child := by
  unfold print
  cases lines <;> exact ⟨rfl, rfl⟩

/-- Whatever a process prints, where the two stand then says what has been
    printed. -/
theorem syncInv_print (lines : Bool) (s : State) (h : SyncInv lines s) (proc : Proc) (l : Line)
    (p : ParentPc) (c : ChildPc) (hvalue : value s.parent s.child = value p c)
    (horder : p.past = true → c.posted = true)
    (hbuffers : buffered lines p c =
      if lines then buffered lines s.parent s.child
      else Function.update (buffered lines s.parent s.child) proc
        (buffered lines s.parent s.child proc ++ [l]))
    (hwritten : ∀ o ∈ written true s.parent s.child, o ++ [l] ∈ written true p c)
    (hsame : written false p c = written false s.parent s.child) :
    SyncInv lines { print lines s proc l with parent := p, child := c } where
  sem := by
    show (print lines s proc l).sem.semval = _
    rw [print_sem, h.sem]
    exact hvalue
  order := horder
  buffers := by
    show (print lines s proc l).buffers = _
    rw [print_buffers, h.buffers, hbuffers]
  out := by
    show (print lines s proc l).out ∈ _
    rw [print_out]
    exact written_print lines s.parent p s.child c s.out l hwritten hsame h.out

/-- Until the child has posted the parent waits. -/
theorem not_past (lines : Bool) (s : State) (h : SyncInv lines s)
    (hposted : s.child.posted = false) : s.parent.past = false := by
  cases hp : s.parent.past with
  | false => rfl
  | true =>
      rw [h.order hp] at hposted
      cases hposted

section Parent

variable (lines : Bool) (s : State) (h : SyncInv lines s)
include h

/-- The first `printf` of the parent. -/
theorem syncInv_waiting (hpc : s.parent = .printing) :
    SyncInv lines { print lines s .parent .waiting with parent := .waiting } := by
  have hchild := (print_pcs lines s .parent .waiting).2
  have hprint := syncInv_print lines s h .parent .waiting .waiting s.child
    (by rw [hpc]; rfl) (fun hpast => absurd hpast Bool.false_ne_true)
    (by
      rw [hpc]
      funext p
      cases lines <;> cases p <;> simp [buffered, ParentPc.printed])
    (by
      rw [hpc]
      cases s.child <;> decide)
    (by
      rw [hpc]
      cases s.child <;> rfl)
  rw [← hchild] at hprint
  exact hprint

/-- The `semop` of the parent, once the child has made its own. -/
theorem syncInv_take (hpc : s.parent = .waiting) (hposted : s.child.posted = true) :
    SyncInv lines { s with sem := { s.sem with semval := 0 }, parent := .leaving } where
  sem := (if_neg (fun hc => hc.2 rfl)).symm
  order := fun _ => hposted
  buffers := by
    show s.buffers = _
    rw [h.buffers, hpc]
    funext p
    cases lines <;> cases p <;> simp [buffered, ParentPc.printed]
  out := by
    have hsame : written lines .leaving s.child = written lines s.parent s.child := by
      rw [hpc]
      cases lines <;> cases s.child <;> rfl
    show s.out ∈ written lines .leaving s.child
    rw [hsame]
    exact h.out

/-- The second `printf` of the parent. -/
theorem syncInv_leaving (hpc : s.parent = .leaving) :
    SyncInv lines { print lines s .parent .exit with parent := .exiting } := by
  have hchild := (print_pcs lines s .parent .exit).2
  have hposted := h.order (by rw [hpc]; rfl)
  have hprint := syncInv_print lines s h .parent .exit .exiting s.child
    (by rw [hpc]; rfl) (fun _ => hposted)
    (by
      rw [hpc]
      funext p
      cases lines <;> cases p <;> simp [buffered, ParentPc.printed])
    (by
      -- The line of the child is there already.
      rw [hpc]
      cases hc : s.child with
      | sleeping => rw [hc] at hposted; cases hposted
      | posting => rw [hc] at hposted; cases hposted
      | exiting => decide
      | exited => decide)
    (by
      rw [hpc]
      cases s.child <;> rfl)
  rw [← hchild] at hprint
  exact hprint

/-- The `exit` of the parent. -/
theorem syncInv_exit (hpc : s.parent = .exiting) :
    SyncInv lines { flush s .parent with parent := .exited } where
  sem := by
    show s.sem.semval = value .exited s.child
    rw [h.sem, hpc]
    rfl
  order := fun _ => h.order (by rw [hpc]; rfl)
  buffers := by
    show Function.update s.buffers .parent [] = buffered lines .exited s.child
    rw [h.buffers, hpc]
    funext p
    cases p <;> simp [buffered]
  out := by
    have hposted := h.order (by rw [hpc]; rfl)
    have hout := h.out
    rw [hpc] at hout
    show s.out ++ s.buffers .parent ∈ written lines .exited s.child
    rw [h.buffers, hpc]
    cases lines with
    | true =>
        rw [buffered, if_pos (.inl rfl), List.append_nil]
        exact hout
    | false =>
        rw [buffered, if_neg (by simp)]
        cases hc : s.child <;> rw [hc] at hout hposted
        · cases hposted
        · cases hposted
        · rw [List.mem_singleton.mp hout]
          decide
        · rw [List.mem_singleton.mp hout]
          decide

/-- A step of the parent. -/
theorem syncInv_parent (hen : Enabled s (.step .parent)) :
    SyncInv lines (parentStep lines s) ∧ remaining (parentStep lines s) < remaining s := by
  cases hpc : s.parent with
  | printing =>
      have hchild := (print_pcs lines s .parent .waiting).2
      rw [parentStep, hpc]
      refine ⟨syncInv_waiting lines s h hpc, ?_⟩
      simp only [remaining, hpc, hchild, ParentPc.remaining]
      omega
  | waiting =>
      rw [Enabled, hpc] at hen
      have htake := take_eq lines s h hpc
      cases hposted : s.child.posted with
      | false =>
          rw [hposted] at htake
          exact absurd htake hen
      | true =>
          rw [hposted, if_pos rfl] at htake
          rw [parentStep, hpc]
          simp only [htake]
          refine ⟨syncInv_take lines s h hpc hposted, ?_⟩
          simp only [remaining, hpc, ParentPc.remaining]
          omega
  | leaving =>
      have hchild := (print_pcs lines s .parent .exit).2
      rw [parentStep, hpc]
      refine ⟨syncInv_leaving lines s h hpc, ?_⟩
      simp only [remaining, hpc, hchild, ParentPc.remaining]
      omega
  | exiting =>
      rw [parentStep, hpc]
      refine ⟨syncInv_exit lines s h hpc, ?_⟩
      simp only [remaining, hpc, flush, ParentPc.remaining]
      omega
  | exited =>
      rw [Enabled, hpc] at hen
      exact hen.elim

end Parent

section Child

variable (lines : Bool) (s : State) (h : SyncInv lines s)
include h

/-- The `printf` of the child. -/
theorem syncInv_finished (hpc : s.child = .sleeping) :
    SyncInv lines { print lines s .child .finished with child := .posting } := by
  have hparent := (print_pcs lines s .child .finished).1
  -- The parent is still in front of its `semop`, or waits in it.
  have hpast := not_past lines s h (by rw [hpc]; rfl)
  have hprint := syncInv_print lines s h .child .finished s.parent .posting
    (by rw [hpc]; rfl) (fun hc => absurd (hc.symm.trans hpast) Bool.noConfusion)
    (by
      rw [hpc]
      funext p
      cases lines <;> cases p <;> simp [buffered, ChildPc.printed])
    (by
      rw [hpc]
      cases hp : s.parent with
      | printing => decide
      | waiting => decide
      | leaving => rw [hp] at hpast; cases hpast
      | exiting => rw [hp] at hpast; cases hpast
      | exited => rw [hp] at hpast; cases hpast)
    (by
      rw [hpc]
      cases s.parent <;> rfl)
  rw [← hparent] at hprint
  exact hprint

/-- The `semop` of the child. -/
theorem syncInv_post (hpc : s.child = .posting) :
    SyncInv lines { s with sem := { s.sem with semval := 1 }, child := .exiting } where
  sem := by
    show (1 : Int) = value s.parent .exiting
    rw [value, not_past lines s h (by rw [hpc]; rfl)]
    rfl
  order := fun _ => rfl
  buffers := by
    show s.buffers = buffered lines s.parent .exiting
    rw [h.buffers, hpc]
    funext p
    cases lines <;> cases p <;> simp [buffered, ChildPc.printed]
  out := by
    have hsame : written lines s.parent .exiting = written lines s.parent s.child := by
      rw [hpc]
      cases lines <;> cases s.parent <;> rfl
    show s.out ∈ written lines s.parent .exiting
    rw [hsame]
    exact h.out

/-- The `exit` of the child. -/
theorem syncInv_childExit (hpc : s.child = .exiting) :
    SyncInv lines { flush s .child with child := .exited } where
  sem := by
    show s.sem.semval = value s.parent .exited
    rw [h.sem, hpc]
    rfl
  order := fun _ => rfl
  buffers := by
    show Function.update s.buffers .child [] = buffered lines s.parent .exited
    rw [h.buffers, hpc]
    funext p
    cases p <;> simp [buffered]
  out := by
    have hout := h.out
    rw [hpc] at hout
    show s.out ++ s.buffers .child ∈ written lines s.parent .exited
    rw [h.buffers, hpc]
    cases lines with
    | true =>
        have hsame : written true s.parent .exited = written true s.parent .exiting := by
          cases s.parent <;> rfl
        rw [buffered, if_pos (.inl rfl), List.append_nil, hsame]
        exact hout
    | false =>
        rw [buffered, if_neg (by simp)]
        cases hp : s.parent <;> rw [hp] at hout
        all_goals
          rw [List.mem_singleton.mp hout]
          decide

/-- A step of the child. -/
theorem syncInv_child (hen : Enabled s (.step .child)) :
    SyncInv lines (childStep lines s) ∧ remaining (childStep lines s) < remaining s := by
  cases hpc : s.child with
  | sleeping =>
      have hparent := (print_pcs lines s .child .finished).1
      rw [childStep, hpc]
      refine ⟨syncInv_finished lines s h hpc, ?_⟩
      simp only [remaining, hpc, hparent, ChildPc.remaining]
      omega
  | posting =>
      rw [childStep, hpc]
      simp only [post_eq lines s h hpc]
      refine ⟨syncInv_post lines s h hpc, ?_⟩
      simp only [remaining, hpc, ChildPc.remaining]
      omega
  | exiting =>
      rw [childStep, hpc]
      refine ⟨syncInv_childExit lines s h hpc, ?_⟩
      simp only [remaining, hpc, flush, ChildPc.remaining]
      omega
  | exited => exact absurd hpc hen

end Child

theorem syncInv_step (lines : Bool) (s : State) (e : Event) (s' : State) (h : SyncInv lines s)
    (hstep : Step lines s e s') : SyncInv lines s' := by
  rcases hstep with ⟨hen, rfl⟩
  cases e with
  | step p =>
      cases p with
      | parent => exact (syncInv_parent lines s h hen).1
      | child => exact (syncInv_child lines s h hen).1
  | interrupted => exact h

/-- Until both have exited, one of them can go on. -/
theorem progress (lines : Bool) (s : State) (h : SyncInv lines s) :
    Done s ∨ ∃ e s', Step lines s e s' ∧ SyncInv lines s' ∧ remaining s' < remaining s := by
  by_cases hchild : s.child = .exited
  · by_cases hparent : s.parent = .exited
    · exact .inl ⟨hparent, hchild⟩
    · -- The child has posted, so the parent does not wait.
      have hen : Enabled s (.step .parent) := by
        cases hpc : s.parent with
        | printing => rw [Enabled, hpc]; exact trivial
        | leaving => rw [Enabled, hpc]; exact trivial
        | exiting => rw [Enabled, hpc]; exact trivial
        | exited => exact absurd hpc hparent
        | waiting =>
            have htake := take_eq lines s h hpc
            rw [if_pos (by rw [hchild]; rfl)] at htake
            rw [Enabled, hpc]
            show take s ≠ .wouldBlock
            rw [htake]
            exact fun hc => by cases hc
      exact .inr ⟨.step .parent, _, ⟨hen, rfl⟩, syncInv_parent lines s h hen⟩
  · exact .inr ⟨.step .child, _, ⟨hchild, rfl⟩, syncInv_child lines s h hchild⟩

/-- The parent prints, the child runs to its end, and the parent goes on. -/
def childInside : List Event :=
  [.step .parent, .step .child, .step .child, .step .child, .step .parent, .step .parent,
    .step .parent]

/-- The child has exited before the parent prints. -/
def childFirst : List Event :=
  [.step .child, .step .child, .step .child, .step .parent, .step .parent, .step .parent,
    .step .parent]

/-- The parent exits while the child is between its `semop` and its exit. -/
def parentFirst : List Event :=
  [.step .parent, .step .child, .step .child, .step .parent, .step .parent, .step .parent,
    .step .child]

theorem ends_of_events (lines : Bool) (events : List Event)
    (h : StepsMeet Enabled initial (record (next lines) initial events))
    (hdone : Done (lastState initial (record (next lines) initial events))) :
    Ends lines (lastState initial (record (next lines) initial events)).out :=
  ⟨_, allSteps_record Enabled (next lines) initial events h, hdone, rfl⟩

/-- The parent gets past its `semop` only when the child has made its own, the
    program can always come to its end, and the outputs it can end with are
    these. -/
theorem ends_iff (lines : Bool) :
    (∀ tr, AllSteps (Step lines) initial tr →
        Always (fun s => s.parent.past = true → s.child.posted = true) initial tr ∧
          CanReach (Step lines) (lastState initial tr) Done) ∧
      ∀ out, Ends lines out ↔ out ∈ endings lines := by
  have hinit := syncInv_initial lines
  refine ⟨fun tr hrun => ?_, fun out => ⟨fun h => ?_, fun h => ?_⟩⟩
  · have hinv := always_of_allSteps (syncInv_step lines) _ tr hinit hrun
    exact ⟨always_mono (fun s h => h.order) _ tr hinv,
      canReach_of_progress (progress lines) _ (always_last _ tr hinv)⟩
  · rcases exists_of_canReach (syncInv_step lines) hinit h with ⟨s, hi, ⟨hparent, hchild⟩, rfl⟩
    have hout := hi.out
    rw [hparent, hchild] at hout
    cases lines <;> exact hout
  · have htake : Outcome.done (⟨0, fun _ => 0⟩ : Sem Proc) ≠ .wouldBlock := fun hc => by cases hc
    cases lines with
    | true =>
        rcases List.mem_cons.mp h with rfl | h
        · exact ends_of_events true childInside
            ⟨trivial, (nofun), (nofun), (nofun), htake, trivial, trivial, trivial⟩ ⟨rfl, rfl⟩
        · rw [List.mem_singleton.mp h]
          exact ends_of_events true childFirst
            ⟨(nofun), (nofun), (nofun), trivial, htake, trivial, trivial, trivial⟩ ⟨rfl, rfl⟩
    | false =>
        rcases List.mem_cons.mp h with rfl | h
        · exact ends_of_events false parentFirst
            ⟨trivial, (nofun), (nofun), htake, trivial, trivial, (nofun), trivial⟩ ⟨rfl, rfl⟩
        · rw [List.mem_singleton.mp h]
          exact ends_of_events false childFirst
            ⟨(nofun), (nofun), (nofun), trivial, htake, trivial, trivial, trivial⟩ ⟨rfl, rfl⟩

end SyncWithSem

end TlpiPractice
