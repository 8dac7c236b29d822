import Mathlib.Tactic.Common
import TlpiPractice.Core.PopenCalls

/-!
# The Child of Popen

What the child of `popen` has when it starts the command, and what it does
after that.

The end of the pipe is put in the place of the standard descriptor by `dup2`,
and its old number is closed. If it had the number of the standard descriptor
from the start, `dup2` does nothing, and what is closed is the standard
descriptor itself. The pipe has the two lowest free numbers, so this happens
for `"w"` if standard input is closed, and for `"r"` if both are.

When the command has ended, the child goes on as if it were the caller.

## Main definitions

* `Sound`: What holds of a process that has used `popen`.
* `ChildRight`: What the child should do.
* `StandardOpen`, `NoCopies`: What it takes for the descriptors to be right.
* `plain`: A process with the standard descriptors.

## Theorems

* `childFds_apply`: The descriptors with which the command starts.
* `standardOpen_iff`: The number that the end of the pipe gets.
* `fdsRight_iff`: When they are right.
* `popen_child`: What a child does that starts the command.
* `childRight_iff`: When the child is right.
* `plain_child_wrong`: A child that is not.
-/

namespace TlpiPractice

namespace PopenCalls

open Descriptors

/-- The streams of the list are open, and pipes are known by their numbers. -/
structure Sound (s : Process) : Prop where
  streams : ∀ e ∈ s.entries, ∀ f, e.file = some f → s.fds f.fd ≠ none
  pipes : ∀ fd n, s.fds fd = some (.readEnd n) ∨ s.fds fd = some (.writeEnd n) → n < s.pipes

/-- The end of a new pipe that the child should have. -/
def childEnd (s : Process) (isRead : Bool) : File :=
  if isRead then .writeEnd s.pipes else .readEnd s.pipes

/-- The descriptors that the command should start with: the standard one is the
    child's end of the pipe, and no other is an end of the pipe or refers to
    what a stream opened earlier refers to. -/
structure FdsRight (s : Process) (isRead : Bool) (fds : Table File) : Prop where
  standard : fds (standard isRead) = some (childEnd s isRead)
  pipe : ∀ fd, fd ≠ PopenCalls.standard isRead →
    fds fd ≠ some (.readEnd s.pipes) ∧ fds fd ≠ some (.writeEnd s.pipes)
  streams : ∀ e ∈ s.entries, ∀ f, e.file = some f → ∀ fd, fd ≠ PopenCalls.standard isRead →
    fds fd ≠ s.fds f.fd

/-- What the child should do: start the command with these descriptors, and
    not go on as the caller does. -/
structure ChildRight (s : Process) (isRead : Bool) (events : List ChildEvent) : Prop where
  command : ∀ fds, .command fds ∈ events → FdsRight s isRead fds
  stays : .parentBranch ∉ events ∧ .returned ∉ events

/-- The end of the pipe does not get the number of the standard descriptor: for
    `"r"` standard input or output is open, for `"w"` standard input is. -/
def StandardOpen (s : Process) (isRead : Bool) : Prop :=
  s.fds 0 ≠ none ∨ (isRead = true ∧ s.fds 1 ≠ none)

/-- No other descriptor, but for the standard one, refers to what a stream
    refers to. -/
def NoCopies (s : Process) (isRead : Bool) : Prop :=
  ∀ e ∈ s.entries, ∀ f, e.file = some f → ∀ fd, fd ∉ streamFds s.entries →
    fd ≠ standard isRead → s.fds fd ≠ s.fds f.fd

/-- The number of the pipe's end that the child keeps. -/
def keptEnd (isRead : Bool) (pfd0 pfd1 : Nat) : Nat := if isRead then pfd1 else pfd0

theorem mem_streamFds (entries : List Entry) (fd : Nat) :
    fd ∈ streamFds entries ↔ ∃ e ∈ entries, ∃ f, e.file = some f ∧ f.fd = fd := by
  rw [streamFds, List.mem_filterMap]
  refine exists_congr (fun e => and_congr_right (fun _ => ?_))
  rw [Option.map_eq_some_iff]

/-- A free number is not that of a stream. -/
theorem notMem_streamFds (s : Process) (hs : Sound s) (fd : Nat) (h : s.fds fd = none) :
    fd ∉ streamFds s.entries := by
  intro hmem
  rcases (mem_streamFds _ fd).mp hmem with ⟨e, he, f, hf, rfl⟩
  exact hs.streams e he f hf h

section Child

variable (s : Process) (hs : Sound s) (isRead : Bool) (pfd0 pfd1 : Nat) (fds : Table File)
  (hpipe : pipe s.limit s.fds (.readEnd s.pipes) (.writeEnd s.pipes) = some (pfd0, pfd1, fds))
include hpipe

/-- The end of the pipe gets the number of the standard descriptor if that is
    free, and for `"r"` the number below it too. -/
theorem standardOpen_iff :
    StandardOpen s isRead ↔ keptEnd isRead pfd0 pfd1 ≠ standard isRead := by
  rcases pipe_spec _ _ _ _ _ _ _ hpipe with ⟨-, hlt, -, hfree0, hfree1, hused0, hused1⟩
  cases isRead with
  | true =>
      change s.fds 0 ≠ none ∨ (true = true ∧ s.fds 1 ≠ none) ↔ pfd1 ≠ 1
      constructor
      · -- The write end would have number 1, and the read end number 0.
        rintro h rfl
        have hzero : pfd0 = 0 := by omega
        rw [hzero] at hfree0
        rcases h with h | ⟨-, h⟩
        · exact h hfree0
        · exact h hfree1
      · intro hne
        by_cases hzero : pfd0 = 0
        · exact Or.inr ⟨rfl, hused1 1 (by omega) (by omega)⟩
        · exact Or.inl (hused0 0 (by omega))
  | false =>
      change s.fds 0 ≠ none ∨ (false = true ∧ s.fds 1 ≠ none) ↔ pfd0 ≠ 0
      constructor
      · rintro h rfl
        rcases h with h | ⟨h, -⟩
        · exact h hfree0
        · cases h
      · exact fun hne => Or.inl (hused0 0 (by omega))

include hs

/-- The descriptors with which the command starts. -/
theorem childFds_apply (fd : Nat) :
    childFds s.limit s.entries isRead fds pfd0 pfd1 fd =
      if fd = keptEnd isRead pfd0 pfd1 then none
      else if fd = standard isRead then some (childEnd s isRead)
      else if fd = keptEnd (!isRead) pfd0 pfd1 ∨ fd ∈ streamFds s.entries then none
      else s.fds fd := by
  rcases pipe_spec _ _ _ _ _ _ _ hpipe with ⟨rfl, hlt, hlimit, hfree0, hfree1, -, -⟩
  have hout0 := notMem_streamFds s hs pfd0 hfree0
  have hout1 := notMem_streamFds s hs pfd1 hfree1
  generalize ht : Function.update (Function.update s.fds pfd0 (some (.readEnd s.pipes))) pfd1
    (some (.writeEnd s.pipes)) = t
  have h0 : closeAll t (streamFds s.entries) pfd0 = some (.readEnd s.pipes) := by
    rw [closeAll_of_notMem _ _ _ hout0, ← ht, Function.update_of_ne (Nat.ne_of_lt hlt),
      Function.update_self]
  have h1 : closeAll t (streamFds s.entries) pfd1 = some (.writeEnd s.pipes) := by
    rw [closeAll_of_notMem _ _ _ hout1, ← ht, Function.update_self]
  have hrest : ∀ fd, fd ≠ pfd0 → fd ≠ pfd1 → closeAll t (streamFds s.entries) fd
      = if fd ∈ streamFds s.entries then none else s.fds fd := by
    intro fd hne0 hne1
    split
    · rename_i hmem
      exact closeAll_of_mem _ _ _ hmem
    · rename_i hmem
      rw [closeAll_of_notMem _ _ _ hmem, ← ht, Function.update_of_ne hne1,
        Function.update_of_ne hne0]
  -- Both cases move the end that is kept and close the other one.
  have hmoved : childFds s.limit s.entries isRead t pfd0 pfd1 fd =
      if fd = keptEnd isRead pfd0 pfd1 then none
      else if fd = standard isRead then some (childEnd s isRead)
      else if fd = keptEnd (!isRead) pfd0 pfd1 then none
      else closeAll t (streamFds s.entries) fd := by
    cases isRead with
    | true => exact moved_apply _ _ pfd1 pfd0 1 _ h1 (Nat.ne_of_gt hlt) (by omega) fd
    | false => exact moved_apply _ _ pfd0 pfd1 0 _ h0 (Nat.ne_of_lt hlt) (by omega) fd
  have hends : fd ≠ keptEnd isRead pfd0 pfd1 → fd ≠ keptEnd (!isRead) pfd0 pfd1 →
      fd ≠ pfd0 ∧ fd ≠ pfd1 := by
    cases isRead with
    | true => exact fun h1 h0 => ⟨h0, h1⟩
    | false => exact fun h0 h1 => ⟨h0, h1⟩
  rw [hmoved]
  by_cases hkept : fd = keptEnd isRead pfd0 pfd1
  · rw [if_pos hkept, if_pos hkept]
  rw [if_neg hkept, if_neg hkept]
  by_cases hstd : fd = standard isRead
  · rw [if_pos hstd, if_pos hstd]
  rw [if_neg hstd, if_neg hstd]
  by_cases hother : fd = keptEnd (!isRead) pfd0 pfd1
  · rw [if_pos hother, if_pos (Or.inl hother)]
  · rcases hends hkept hother with ⟨hne0, hne1⟩
    simp only [hother, if_false, false_or]
    exact hrest fd hne0 hne1

/-- The descriptors are right if the end of the pipe does not take the standard
    number, and no stream has a copy. -/
theorem fdsRight_iff :
    FdsRight s isRead (childFds s.limit s.entries isRead fds pfd0 pfd1) ↔
      StandardOpen s isRead ∧ NoCopies s isRead := by
  have happly := childFds_apply s hs isRead pfd0 pfd1 fds hpipe
  rcases pipe_spec _ _ _ _ _ _ _ hpipe with ⟨-, -, -, hfree0, hfree1, -, -⟩
  have hfree : ∀ r fd, fd = keptEnd r pfd0 pfd1 → s.fds fd = none := by
    rintro r fd rfl
    cases r with
    | true => exact hfree1
    | false => exact hfree0
  rw [standardOpen_iff s isRead pfd0 pfd1 fds hpipe]
  constructor
  · intro h
    refine ⟨fun hkept => ?_, fun e he f hf fd hout hne heq => ?_⟩
    · -- The standard number was closed last.
      have hstd := h.standard
      rw [happly, if_pos hkept.symm] at hstd
      cases hstd
    · -- A free descriptor is not what an open one is.
      have hopen := hs.streams e he f hf
      have hk : ∀ r, fd ≠ keptEnd r pfd0 pfd1 := fun r hk => hopen (heq ▸ hfree r fd hk)
      refine h.streams e he f hf fd hne ?_
      rw [happly, if_neg (hk isRead), if_neg hne,
        if_neg (fun h => h.elim (hk (!isRead)) hout), heq]
  · rintro ⟨hkept, hcopies⟩
    -- Any other descriptor is closed, or what it was and not that of a stream.
    have hother : ∀ fd, fd ≠ standard isRead →
        childFds s.limit s.entries isRead fds pfd0 pfd1 fd = none ∨
          (childFds s.limit s.entries isRead fds pfd0 pfd1 fd = s.fds fd ∧
            fd ∉ streamFds s.entries) := by
      intro fd hne
      rw [happly, if_neg hne]
      split
      · exact Or.inl rfl
      split
      · exact Or.inl rfl
      · rename_i hout
        exact Or.inr ⟨rfl, fun h => hout (Or.inr h)⟩
    refine ⟨?_, fun fd hne => ?_, fun e he f hf fd hne heq => ?_⟩
    · rw [happly, if_neg hkept.symm, if_pos rfl]
    · -- What was open before is no end of the new pipe.
      rcases hother fd hne with hnone | ⟨hsame, -⟩
      · rw [hnone]
        exact ⟨(Option.some_ne_none _).symm, (Option.some_ne_none _).symm⟩
      · rw [hsame]
        exact ⟨fun h => Nat.lt_irrefl _ (hs.pipes fd _ (Or.inl h)),
          fun h => Nat.lt_irrefl _ (hs.pipes fd _ (Or.inr h))⟩
    · rcases hother fd hne with hnone | ⟨hsame, hout⟩
      · exact hs.streams e he f hf (heq.symm.trans hnone)
      · exact hcopies e he f hf fd hout hne (hsame.symm.trans heq)

end Child

/-! ### The call -/

/-- The head of the list changes nothing else. -/
theorem withHead_eq (s : Process) (head : Bool) :
    (withHead s head).fds = s.fds ∧ (withHead s head).limit = s.limit ∧
      (withHead s head).pipes = s.pipes ∧ (withHead s head).children = s.children ∧
      (withHead s head).entries = s.entries := by
  rw [withHead]
  split
  · rename_i h
    refine ⟨rfl, rfl, rfl, rfl, ?_⟩
    rw [Process.entries, Process.entries, h]
    cases head with
    | true => rfl
    | false => rfl
  · exact ⟨rfl, rfl, rfl, rfl, rfl⟩

/-- A child that starts the command does so with the descriptors for that, and
    goes on behind it. -/
theorem childSide_start (s : Process) (o : Outcome) (r : Bool) (piped fds : Table File)
    (pfd0 pfd1 : Nat) (hstart : .command fds ∈ childSide s o r piped pfd0 pfd1) :
    childSide s o r piped pfd0 pfd1
      = .command (childFds s.limit s.entries r piped pfd0 pfd1) ::
        (if o.ends then .parentBranch :: (if o.childEntry then [.returned] else []) else []) := by
  rw [childSide] at hstart ⊢
  cases hp : s.pHeader with
  | none =>
      rw [hp] at hstart
      exact absurd hstart List.not_mem_nil
  | some entries =>
      simp only [hp] at hstart ⊢
      split at hstart
      · exact absurd hstart List.not_mem_nil
      · rename_i hfiles
        rw [if_neg hfiles, Process.entries, hp, Option.getD_some]

/-- There is a child when the pipe was made, and it starts the command with
    the descriptors for that. -/
theorem popen_child (s : Process) (type : List UInt8) (o : Outcome) (events : List ChildEvent)
    (fds : Table File) (hchild : (popen s type o).2 = some events)
    (hstart : .command fds ∈ events) :
    ∃ r pfd0 pfd1 piped, isRead type = some r ∧
      pipe s.limit s.fds (.readEnd s.pipes) (.writeEnd s.pipes) = some (pfd0, pfd1, piped) ∧
      events = .command (childFds s.limit s.entries r piped pfd0 pfd1) ::
        (if o.ends then .parentBranch :: (if o.childEntry then [.returned] else []) else []) := by
  rcases withHead_eq s o.head with ⟨hfds, hlimit, hpipes, -, hentries⟩
  simp only [popen] at hchild
  cases hr : isRead type with
  | none =>
      rw [hr] at hchild
      cases hchild
  | some r =>
      simp only [hr, hfds, hlimit, hpipes] at hchild
      cases hp : o.pipe with
      | false =>
          simp only [hp, Bool.false_eq_true, if_false] at hchild
          cases hchild
      | true =>
          simp only [hp, if_true] at hchild
          rcases hpipe : pipe s.limit s.fds (.readEnd s.pipes) (.writeEnd s.pipes) with
            - | ⟨pfd0, pfd1, piped⟩
          · rw [hpipe] at hchild
            cases hchild
          simp only [hpipe] at hchild
          cases hf : o.fork with
          | none =>
              rw [hf] at hchild
              cases hchild
          | some child =>
              simp only [hf, Option.some.injEq] at hchild
              rw [← hchild] at hstart
              have hevents := childSide_start _ o r piped fds pfd0 pfd1 hstart
              rw [hchild] at hevents
              refine ⟨r, pfd0, pfd1, piped, rfl, rfl, hevents.trans ?_⟩
              rw [← hentries]
              rfl

/-- A child that starts the command is right exactly when it never gets
    beyond the command, and the standard descriptors were open and no stream had
    a copy when `popen` was called. -/
theorem childRight_iff (s : Process) (hs : Sound s) (type : List UInt8) (o : Outcome)
    (events : List ChildEvent) (fds : Table File) (hchild : (popen s type o).2 = some events)
    (hstart : .command fds ∈ events) (r : Bool) (hr : isRead type = some r) :
    ChildRight s r events ↔ o.ends = false ∧ StandardOpen s r ∧ NoCopies s r := by
  rcases popen_child s type o events fds hchild hstart with
    ⟨r', pfd0, pfd1, piped, hr', hpipe, rfl⟩
  have hrr : r' = r := Option.some.inj (hr'.symm.trans hr)
  subst hrr
  rw [← fdsRight_iff s hs r' pfd0 pfd1 piped hpipe]
  cases o.ends with
  | true =>
      refine ⟨fun h => absurd (List.mem_cons_of_mem _ List.mem_cons_self) h.stays.1, fun h => ?_⟩
      exact absurd h.1 (by decide)
  | false =>
      rw [if_neg Bool.false_ne_true]
      refine ⟨fun h => ⟨rfl, h.command _ List.mem_cons_self⟩, fun h => ⟨fun fds hfds => ?_, ?_⟩⟩
      · rw [ChildEvent.command.inj (List.mem_singleton.mp hfds)]
        exact h.2
      · rw [List.mem_singleton, List.mem_singleton]
        exact ⟨nofun, nofun⟩

/-- A process with the standard descriptors, which has opened no stream. -/
def plain : Process where
  fds := fun fd => if fd < 3 then some (.other fd) else none
  limit := 16
  pHeader := none
  children := []
  pipes := 0

/-- Every call succeeds, and the command ends. -/
def succeeds : Outcome where
  head := true
  pipe := true
  fork := some 100
  entry := true
  childEntry := true
  fdopen := some 0
  ends := true

theorem sound_plain : Sound plain := by
  refine ⟨fun e he => absurd he List.not_mem_nil, fun fd n h => ?_⟩
  have hother : plain.fds fd = some (.other fd) ∨ plain.fds fd = none := by
    rw [plain]
    by_cases hfd : fd < 3
    · exact Or.inl (if_pos hfd)
    · exact Or.inr (if_neg hfd)
  rcases hother with heq | heq <;> rw [heq] at h <;> rcases h with h | h <;> cases h


theorem childRight_iff_plain :
    ∃ events fds, (popen plain [114] succeeds).2 = some events ∧ .command fds ∈ events ∧
      (ChildRight plain true events ↔
        succeeds.ends = false ∧ StandardOpen plain true ∧ NoCopies plain true) :=
  ⟨_, _, rfl, List.mem_cons_self,
    childRight_iff plain sound_plain [114] succeeds _ _ rfl List.mem_cons_self true rfl⟩

/-- When the command has ended, the child goes on as the caller. -/
theorem plain_child_wrong :
    ∃ events fds, (popen plain [114] succeeds).2 = some events ∧ .command fds ∈ events ∧
      ¬ ChildRight plain true events :=
  ⟨_, _, rfl, List.mem_cons_self,
    fun h => h.stays.1 (List.mem_cons_of_mem _ List.mem_cons_self)⟩

end PopenCalls

end TlpiPractice
