import TlpiPractice.Theory.Popen.ChildSide

/-!
# A Popen That Fails

What is left in the caller when `popen` returns a null pointer.

Up to the pipe nothing has to be undone: the dummy head stays, but that is no
entry of the list. From then on nothing is undone. When `fork` fails both ends
of the pipe stay open, and when `fdopen` fails the list gets an entry with a
null pointer, one end of the pipe stays open and the child is left to itself.

## Main definitions

* `Clean`: A failure that leaves nothing behind.
* `PipeFails`: There is no pipe.

## Theorems

* `popen_cases`: How far a call gets.
* `clean_iff`: When a failure is clean.
* `forkFails_not_clean`: One that is not.
* `sound_popen`: Whatever a call does, the streams of the list are open.
-/

namespace TlpiPractice

namespace PopenCalls

open Descriptors

/-- The descriptors and the list are those from before, and there is no child
    that was not there. -/
structure Clean (s s' : Process) : Prop where
  fds : s'.fds = s.fds
  entries : s'.entries = s.entries
  children : s'.children = s.children

/-- `pipe` fails, for lack of descriptors or for another reason. -/
def PipeFails (s : Process) (o : Outcome) : Prop :=
  o.pipe = false ∨ pipe s.limit s.fds (.readEnd s.pipes) (.writeEnd s.pipes) = none

/-- How far a call gets in the caller: to the pipe, to `fork`, or behind. -/
theorem popen_cases (s : Process) (type : List UInt8) (o : Outcome) :
    ((isRead type = none ∨ PipeFails s o) ∧
        (popen s type o).1 = (.returned none, withHead s o.head)) ∨
      ∃ r pfd0 pfd1 fds, isRead type = some r ∧ ¬ PipeFails s o ∧
        pipe s.limit s.fds (.readEnd s.pipes) (.writeEnd s.pipes) = some (pfd0, pfd1, fds) ∧
        ((o.fork = none ∧ (popen s type o).1 = (.returned none,
            { withHead s o.head with fds := fds, pipes := s.pipes + 1 })) ∨
          ∃ child, o.fork = some child ∧ (popen s type o).1 = parentSide
            { withHead s o.head with
              fds := fds, pipes := s.pipes + 1, children := child :: s.children }
            o r child pfd0 pfd1) := by
  rcases withHead_eq s o.head with ⟨hfds, hlimit, hpipes, hchildren, -⟩
  simp only [popen, hfds, hlimit, hpipes, hchildren]
  cases hr : isRead type with
  | none => exact Or.inl ⟨Or.inl rfl, rfl⟩
  | some r =>
      cases hp : o.pipe with
      | false => exact Or.inl ⟨Or.inr (Or.inl hp), rfl⟩
      | true =>
          rcases hpipe : pipe s.limit s.fds (.readEnd s.pipes) (.writeEnd s.pipes) with
            - | ⟨pfd0, pfd1, fds⟩
          · -- There are not two free descriptors.
            refine Or.inl ⟨Or.inr (Or.inr hpipe), ?_⟩
            rw [if_pos rfl]
          · have hmade : ¬ PipeFails s o := by
              rintro (hfalse | hnone)
              · rw [hp] at hfalse
                cases hfalse
              · rw [hpipe] at hnone
                cases hnone
            refine Or.inr ⟨r, pfd0, pfd1, fds, rfl, hmade, rfl, ?_⟩
            rw [if_pos rfl]
            cases hf : o.fork with
            | none => exact Or.inl ⟨rfl, rfl⟩
            | some child => exact Or.inr ⟨child, rfl, rfl⟩

theorem parentSide_children (s s' : Process) (o : Outcome) (r : Bool) (child pfd0 pfd1 : Nat)
    (result : Result) (h : parentSide s o r child pfd0 pfd1 = (result, s')) :
    s'.children = s.children := by
  rw [parentSide] at h
  cases hp : s.pHeader with
  | none =>
      rw [hp] at h
      rw [← (Prod.mk.inj h).2]
  | some entries =>
      simp only [hp] at h
      split at h
      · rw [← (Prod.mk.inj h).2]
      · rw [← (Prod.mk.inj h).2]

/-- A call that returns a null pointer leaves nothing behind exactly when it
    fails for its type, or for want of a pipe. -/
theorem clean_iff (s s' : Process) (type : List UInt8) (o : Outcome)
    (hnull : (popen s type o).1 = (.returned none, s')) :
    Clean s s' ↔ isRead type = none ∨ PipeFails s o := by
  rcases withHead_eq s o.head with ⟨hfds, -, -, hchildren, hentries⟩
  rcases popen_cases s type o with ⟨hearly, hpopen⟩ | ⟨r, pfd0, pfd1, fds, hr, hmade, hpipe, hlate⟩
  · rw [hpopen] at hnull
    rw [← (Prod.mk.inj hnull).2]
    exact ⟨fun _ => hearly, fun _ => ⟨hfds, hentries, hchildren⟩⟩
  · have hnot : ¬ (isRead type = none ∨ PipeFails s o) := by
      rintro (hnone | hfails)
      · rw [hr] at hnone
        cases hnone
      · exact hmade hfails
    refine ⟨fun hclean => ?_, fun h => absurd h hnot⟩
    rcases hlate with ⟨-, hpopen⟩ | ⟨child, -, hpopen⟩
    · -- The pipe is still there.
      rcases pipe_spec _ _ _ _ _ _ _ hpipe with ⟨rfl, -, -, -, hfree, -, -⟩
      rw [hpopen] at hnull
      have hopen := congrFun hclean.fds pfd1
      rw [← (Prod.mk.inj hnull).2, hfree] at hopen
      simp only [Function.update_self] at hopen
      cases hopen
    · -- The child is still there.
      rw [hpopen] at hnull
      have hlen := congrArg List.length
        ((parentSide_children _ _ _ _ _ _ _ _ hnull).symm.trans hclean.children)
      simp only [List.length_cons] at hlen
      omega

theorem clean_iff_plain :
    Clean plain (withHead plain true) ↔ isRead [120] = none ∨ PipeFails plain succeeds :=
  clean_iff plain (withHead plain true) [120] succeeds rfl

/-- `fork` fails. -/
def forkFails : Outcome := { succeeds with fork := none }

/-- Both ends of the pipe stay open. -/
theorem forkFails_not_clean :
    ∃ s', (popen plain [114] forkFails).1 = (.returned none, s') ∧ ¬ Clean plain s' := by
  refine ⟨_, rfl, fun hclean => ?_⟩
  have hopen := congrFun hclean.fds 4
  cases hopen

/-! ### The streams of the list -/

theorem sound_withHead (s : Process) (head : Bool) (hs : Sound s) : Sound (withHead s head) := by
  rcases withHead_eq s head with ⟨hfds, -, hpipes, -, hentries⟩
  refine ⟨?_, ?_⟩
  · rw [hentries, hfds]
    exact hs.streams
  · rw [hfds, hpipes]
    exact hs.pipes

/-- The pipe has descriptors of its own. -/
theorem sound_piped (s : Process) (hs : Sound s) (pfd0 pfd1 : Nat) (fds : Table File)
    (hpipe : pipe s.limit s.fds (.readEnd s.pipes) (.writeEnd s.pipes) = some (pfd0, pfd1, fds))
    (children : List Nat) :
    Sound { s with fds := fds, pipes := s.pipes + 1, children := children } := by
  rcases pipe_spec _ _ _ _ _ _ _ hpipe with ⟨rfl, -, -, hfree0, hfree1, -, -⟩
  refine ⟨fun e he f hf => ?_, fun fd n h => ?_⟩
  · have hopen := hs.streams e he f hf
    have hne0 : f.fd ≠ pfd0 := fun h => hopen (h ▸ hfree0)
    have hne1 : f.fd ≠ pfd1 := fun h => hopen (h ▸ hfree1)
    change Function.update (Function.update s.fds pfd0 _) pfd1 _ f.fd ≠ none
    rwa [Function.update_of_ne hne1, Function.update_of_ne hne0]
  · change n < s.pipes + 1
    -- The new ends have the number of the pipe, all others are older.
    by_cases h1 : fd = pfd1
    · simp only [h1, Function.update_self, Option.some.injEq, reduceCtorEq, false_or,
        File.writeEnd.injEq] at h
      omega
    by_cases h0 : fd = pfd0
    · subst h0
      simp only [Function.update_of_ne h1, Function.update_self, Option.some.injEq, reduceCtorEq,
        or_false, File.readEnd.injEq] at h
      omega
    · simp only [Function.update_of_ne h1, Function.update_of_ne h0] at h
      have := hs.pipes fd n h
      omega

/-- A stream for one end of the pipe, when the other has been closed. -/
theorem sound_parentSide (s s' : Process) (hs : Sound s) (o : Outcome) (r : Bool)
    (child pfd0 pfd1 : Nat) (result : Result) (hne : pfd0 ≠ pfd1)
    (hopen : s.fds (if r then pfd0 else pfd1) ≠ none)
    (hout : (if r then pfd1 else pfd0) ∉ streamFds s.entries)
    (h : parentSide s o r child pfd0 pfd1 = (result, s')) : Sound s' := by
  rw [parentSide] at h
  cases hp : s.pHeader with
  | none =>
      rw [hp] at h
      rwa [← (Prod.mk.inj h).2]
  | some entries =>
      simp only [hp] at h
      split at h
      · rw [Process.entries, hp, Option.getD_some] at hout
        have hstreams := hs.streams
        rw [Process.entries, hp, Option.getD_some] at hstreams
        rw [← (Prod.mk.inj h).2]
        generalize hc : (if r then pfd1 else pfd0) = closed at hout ⊢
        generalize hk : (if r then pfd0 else pfd1) = kept at hopen ⊢
        have hdiff : kept ≠ closed := by
          rw [← hc, ← hk]
          cases r with
          | true => exact hne
          | false => exact hne.symm
        -- The new entry has the end that is kept, and the end closed is in no entry.
        refine ⟨fun e he f hf => ?_, fun fd n hfd => ?_⟩
        · change close s.fds closed f.fd ≠ none
          rcases List.mem_cons.mp he with rfl | he
          · rcases Option.map_eq_some_iff.mp hf with ⟨id, -, rfl⟩
            rwa [close, Function.update_of_ne hdiff]
          · have hfd : f.fd ≠ closed := fun heq =>
              hout ((mem_streamFds entries closed).mpr ⟨e, he, f, hf, heq⟩)
            rw [close, Function.update_of_ne hfd]
            exact hstreams e he f hf
        · change close s.fds closed fd = _ ∨ close s.fds closed fd = _ at hfd
          by_cases hfc : fd = closed
          · rw [hfc, close, Function.update_self] at hfd
            rcases hfd with hfd | hfd <;> cases hfd
          · rw [close, Function.update_of_ne hfc] at hfd
            exact hs.pipes fd n hfd
      · rwa [← (Prod.mk.inj h).2]

/-- Whatever a call does, the streams of the list stay open. -/
theorem sound_popen (s : Process) (hs : Sound s) (type : List UInt8) (o : Outcome) :
    Sound (popen s type o).1.2 := by
  rcases withHead_eq s o.head with ⟨hfds, hlimit, hpipes, -, hentries⟩
  have hhead := sound_withHead s o.head hs
  rcases popen_cases s type o with ⟨-, hpopen⟩ | ⟨r, pfd0, pfd1, fds, -, -, hpipe, hlate⟩
  · rw [hpopen]
    exact hhead
  · have hpiped : ∀ children, Sound { withHead s o.head with
        fds := fds, pipes := s.pipes + 1, children := children } := by
      intro children
      rw [← hpipes]
      refine sound_piped _ hhead pfd0 pfd1 fds ?_ children
      rwa [hlimit, hfds, hpipes]
    rcases pipe_spec _ _ _ _ _ _ _ hpipe with ⟨hnew, hlt, -, hfree0, hfree1, -, -⟩
    rcases hlate with ⟨-, hpopen⟩ | ⟨child, -, hpopen⟩
    · rw [hpopen]
      exact hpiped (withHead s o.head).children
    · refine sound_parentSide _ _ (hpiped (child :: s.children)) o r child pfd0 pfd1
        (popen s type o).1.1 (Nat.ne_of_lt hlt) ?_ ?_ hpopen.symm
      · change fds _ ≠ none
        rw [hnew]
        cases r with
        | true =>
            rw [if_pos rfl, Function.update_of_ne (Nat.ne_of_lt hlt), Function.update_self]
            exact Option.some_ne_none _
        | false =>
            rw [if_neg Bool.false_ne_true, Function.update_self]
            exact Option.some_ne_none _
      · change _ ∉ streamFds (withHead s o.head).entries
        rw [hentries]
        cases r with
        | true => exact notMem_streamFds s hs pfd1 hfree1
        | false => exact notMem_streamFds s hs pfd0 hfree0

end PopenCalls

end TlpiPractice
