import TlpiPractice.Core.PipeEcho

/-!
# Messages in Lockstep

That parent and child exchange one message at a time as long as `fgets` finds
something to read.

A message has no length on the wire, so it survives only because nothing else
is on the wire with it. The parent does not go on before it has the answer, and
the child is at its `read` whenever the parent writes. `Carrying` says where
the one message is, for every pair of places the processes can stand at. All
pairs it does not list are excluded.

What `fgets` reads has at most 4095 bytes and, since the input has no NUL, none
of them is NUL. So the string in the buffer is what was read, the message with
its NUL fits into one `read`, and turning it into upper case stops at its end.

## Main definitions

* `chunks`: What the calls of `fgets` read, one after the other.
* `Carrying`: Where a message is.
* `EchoInv`: The invariant.
* `Lockstep`: What is to be proved of every state.
* `WholeReads`: What is to be proved of every read.
* `oneLine`: A line on its way through both pipes.

## Theorems

* `carrying_write`, `carrying_childRead`, `carrying_childWrite`,
  `carrying_read`: The way of a message.
* `echoInv_step`: Every step keeps the invariant.
* `echo_lockstep`: Before the end of the input both properties hold.
-/

namespace TlpiPractice

namespace PipeEcho

open CString Lines Runs

/-- What the calls of `fgets` read of an input. -/
def chunks (input : List UInt8) : List (List UInt8) := pieces newline (bufSize - 1) input

/-- In upper case. -/
def up (c : List UInt8) : List UInt8 := c.map toupper

/-- What a call of `fgets` can leave in the buffer: no NUL, and short enough. -/
structure IsChunk (c : List UInt8) : Prop where
  noNul : ∀ b ∈ c, b ≠ 0
  length_lt : c.length < bufSize

/-- Where the message with chunk `c` is. -/
def Carrying (c : List UInt8) (s : State) : Prop :=
  match s.parent, s.child with
  | .write, .read => (∃ rest, s.buf = c ++ 0 :: rest) ∧ s.pfd1 = [] ∧ s.pfd2 = []
  | .read, .read =>
      (s.pfd1 = c ++ [0] ∧ s.pfd2 = []) ∨ (s.pfd1 = [] ∧ s.pfd2 = up c ++ [0])
  | .read, .write n =>
      n = c.length + 1 ∧ (∃ rest, s.childBuf = c ++ 0 :: rest) ∧ s.pfd1 = [] ∧ s.pfd2 = []
  | .print, .read => (∃ rest, s.buf = up c ++ 0 :: rest) ∧ s.pfd1 = [] ∧ s.pfd2 = []
  | _, _ => False

/-- No message is under way. -/
structure Resting (s : State) : Prop where
  parent : s.parent = .fgets
  child : s.child = .read
  pfd1 : s.pfd1 = []
  pfd2 : s.pfd2 = []

/-- The chunks in `done` have been printed, and the next one is under way or
    has not been read yet. -/
def EchoInv (input : List UInt8) (s : State) : Prop :=
  ∃ done, (∀ b ∈ s.stdin, b ≠ 0) ∧ s.printed = up done.flatten ∧
    ((Resting s ∧ chunks input = done ++ chunks s.stdin) ∨
      ∃ c, IsChunk c ∧ Carrying c s ∧ chunks input = done ++ c :: chunks s.stdin)

/-- A message on its way to the child. -/
def IsQuestion (input m : List UInt8) : Prop := ∃ c ∈ chunks input, m = c ++ [0]

/-- A message on its way back. -/
def IsAnswer (input m : List UInt8) : Prop := ∃ c ∈ chunks input, m = up c ++ [0]

/-- At most one message is in the two pipes together, and what has been printed
    is the first `k` chunks in upper case. -/
structure Lockstep (input : List UInt8) (s : State) : Prop where
  pipes : (s.pfd1 = [] ∧ s.pfd2 = []) ∨ (IsQuestion input s.pfd1 ∧ s.pfd2 = []) ∨
    (s.pfd1 = [] ∧ IsAnswer input s.pfd2)
  printed : ∃ k, s.printed = up ((chunks input).take k).flatten

/-- A read returns a whole message and leaves nothing. -/
def WholeReads (input : List UInt8) (s : State) : Event → Prop
  | .childRead => IsQuestion input (received s.pfd1) ∧ s.pfd1.drop bufSize = []
  | .read => IsAnswer input (received s.pfd2) ∧ s.pfd2.drop bufSize = []
  | _ => True

theorem toupper_ne_zero (b : UInt8) (h : b ≠ 0) : toupper b ≠ 0 := by
  unfold toupper
  split
  · next hb =>
      intro hc
      have hlow := UInt8.le_iff_toNat_le.mp hb.1
      have hhigh := UInt8.le_iff_toNat_le.mp hb.2
      have hsub := congrArg UInt8.toNat hc
      rw [UInt8.toNat_sub] at hsub
      simp only [UInt8.reduceToNat] at hlow hhigh hsub
      omega
  · exact h

theorem up_noNul (c : List UInt8) (h : ∀ b ∈ c, b ≠ 0) : ∀ b ∈ up c, b ≠ 0 := by
  intro b hb
  rcases List.mem_map.mp hb with ⟨a, ha, rfl⟩
  exact toupper_ne_zero a (h a ha)

theorem length_up (c : List UInt8) : (up c).length = c.length := List.length_map toupper

/-- The loop of the child stops at the NUL. -/
theorem upcase_append (c rest : List UInt8) (n : Nat) (h : ∀ b ∈ c, b ≠ 0) :
    upcase (c.length + n) (c ++ 0 :: rest) = up c ++ 0 :: rest := by
  induction c with
  | nil =>
      cases n with
      | zero => rfl
      | succ n => rfl
  | cons a c ih =>
      have ha : a ≠ 0 := h a List.mem_cons_self
      rw [List.length_cons, Nat.add_right_comm, List.cons_append, upcase, if_neg ha,
        ih (fun b hb => h b (List.mem_cons_of_mem a hb))]
      rfl

/-- A whole message fits into one read. -/
theorem received_message (c : List UInt8) (h : c.length < bufSize) :
    received (c ++ [0]) = c ++ [0] ∧ (c ++ [0]).drop bufSize = [] := by
  have hlen : (c ++ [0]).length ≤ bufSize := by
    rw [List.length_append, List.length_singleton]
    omega
  exact ⟨List.take_of_length_le hlen, List.drop_of_length_le hlen⟩

theorem fill_message (buf c : List UInt8) : ∃ rest, fill buf (c ++ [0]) = c ++ 0 :: rest := by
  unfold fill
  exact ⟨_, List.append_assoc c [0] _⟩

/-- A string is written with its NUL. -/
theorem take_message (c rest : List UInt8) : (c ++ 0 :: rest).take (c.length + 1) = c ++ [0] := by
  rw [List.take_append, List.take_of_length_le (by omega)]
  simp only [Nat.add_sub_cancel_left, List.take_succ_cons, List.take_zero]

theorem message_append (c rest : List UInt8) (h : ∀ b ∈ c, b ≠ 0) :
    message (c ++ 0 :: rest) = c ++ [0] := by
  unfold message
  rw [str_append c rest h, take_message]

/-- What `fgets` reads is a chunk, and the first of what is left. -/
theorem chunks_fgets (s : List UInt8) (h : ∀ b ∈ s, b ≠ 0) (hs : s ≠ []) :
    IsChunk (taken newline (bufSize - 1) s) ∧
      chunks s = taken newline (bufSize - 1) s ::
        chunks (s.drop (taken newline (bufSize - 1) s).length) := by
  have hlen := length_taken_le newline (bufSize - 1) s
  have hpos : 0 < bufSize - 1 := by
    unfold bufSize
    omega
  exact ⟨⟨fun b hb => h b (taken_mem newline _ s b hb), by omega⟩,
    pieces_of_ne_nil newline (bufSize - 1) s hpos hs⟩

theorem carrying_fgets (s : State) (h : Resting s) (c : List UInt8) (stdin : List UInt8) :
    Carrying c { s with parent := .write, buf := fill s.buf (c ++ [0]), stdin := stdin } := by
  unfold Carrying
  simp only [h.child]
  exact ⟨fill_message s.buf c, h.pfd1, h.pfd2⟩

/-- Unless the parent waits for the answer, the child waits for the message. -/
theorem child_of_carrying (c : List UInt8) (s : State) (h : Carrying c s)
    (hpc : s.parent ≠ .read) : s.child = .read := by
  unfold Carrying at h
  cases hchild : s.child with
  | read => rfl
  | write n =>
      rw [hchild] at h
      cases hparent : s.parent with
      | read => exact absurd hparent hpc
      | fgets =>
          rw [hparent] at h
          exact h.elim
      | write =>
          rw [hparent] at h
          exact h.elim
      | print =>
          rw [hparent] at h
          exact h.elim

theorem carrying_write (c : List UInt8) (s : State) (hc : IsChunk c) (h : Carrying c s)
    (hpc : s.parent = .write) : Carrying c (next s .write) := by
  have hchild := child_of_carrying c s h (by rw [hpc]; exact ParentPc.noConfusion)
  unfold Carrying at h
  rw [hpc, hchild] at h
  rcases h with ⟨⟨rest, hbuf⟩, h1, h2⟩
  unfold Carrying
  simp only [next, hchild]
  refine .inl ⟨?_, h2⟩
  rw [h1, hbuf, message_append c rest hc.noNul, List.nil_append]

theorem carrying_childRead (c : List UInt8) (s : State) (hc : IsChunk c) (h : Carrying c s)
    (hpc : s.child = .read) (hsome : s.pfd1 ≠ []) :
    s.pfd1 = c ++ [0] ∧ Carrying c (next s .childRead) := by
  unfold Carrying at h
  rw [hpc] at h
  cases hparent : s.parent with
  | fgets =>
      rw [hparent] at h
      exact h.elim
  | write =>
      rw [hparent] at h
      exact absurd h.2.1 hsome
  | print =>
      rw [hparent] at h
      exact absurd h.2.1 hsome
  | read =>
      rw [hparent] at h
      rcases h with ⟨h1, h2⟩ | ⟨h1, _⟩
      · rcases received_message c hc.length_lt with ⟨hrec, hdrop⟩
        refine ⟨h1, ?_⟩
        unfold Carrying
        simp only [next, hparent, h1, hrec]
        exact ⟨by rw [List.length_append, List.length_singleton], fill_message _ c, hdrop, h2⟩
      · exact absurd h1 hsome

theorem carrying_childWrite (c : List UInt8) (s : State) (hc : IsChunk c) (h : Carrying c s)
    (n : Nat) (hpc : s.child = .write n) : Carrying c (next s .childWrite) := by
  have hparent : s.parent = .read := by
    by_contra hother
    rw [child_of_carrying c s h hother] at hpc
    cases hpc
  unfold Carrying at h
  rw [hpc, hparent] at h
  rcases h with ⟨rfl, ⟨rest, hbuf⟩, h1, h2⟩
  have htake := take_message (up c) rest
  rw [length_up] at htake
  unfold Carrying
  simp only [next, hpc, hparent, hbuf]
  refine .inr ⟨h1, ?_⟩
  rw [upcase_append c rest 1 hc.noNul, htake, h2, List.nil_append]

theorem carrying_read (c : List UInt8) (s : State) (hc : IsChunk c) (h : Carrying c s)
    (hpc : s.parent = .read) (hsome : s.pfd2 ≠ []) :
    s.pfd2 = up c ++ [0] ∧ Carrying c (next s .read) := by
  unfold Carrying at h
  rw [hpc] at h
  cases hchild : s.child with
  | write n =>
      rw [hchild] at h
      exact absurd h.2.2.2 hsome
  | read =>
      rw [hchild] at h
      rcases h with ⟨_, h2⟩ | ⟨h1, h2⟩
      · exact absurd h2 hsome
      · have hup : (up c).length < bufSize := by
          rw [length_up]
          exact hc.length_lt
        rcases received_message (up c) hup with ⟨hrec, hdrop⟩
        refine ⟨h2, ?_⟩
        unfold Carrying
        simp only [next, hchild, h2, hrec]
        exact ⟨fill_message _ (up c), h1, hdrop⟩

theorem carrying_print (c : List UInt8) (s : State) (hc : IsChunk c) (h : Carrying c s)
    (hpc : s.parent = .print) : str s.buf = up c ∧ Resting (next s .print) := by
  have hchild := child_of_carrying c s h (by rw [hpc]; exact ParentPc.noConfusion)
  unfold Carrying at h
  rw [hpc, hchild] at h
  rcases h with ⟨⟨rest, hbuf⟩, h1, h2⟩
  refine ⟨?_, ⟨rfl, hchild, h1, h2⟩⟩
  rw [hbuf, str_append (up c) rest (up_noNul c hc.noNul)]

/-- A message that stays under way. -/
theorem echoInv_of_carrying (input : List UInt8) (s s' : State) (done : List (List UInt8))
    (c : List UInt8) (hnul : ∀ b ∈ s.stdin, b ≠ 0) (hprinted : s.printed = up done.flatten)
    (hc : IsChunk c) (hchunks : chunks input = done ++ c :: chunks s.stdin)
    (hcarry : Carrying c s') (hstdin : s'.stdin = s.stdin) (hsame : s'.printed = s.printed) :
    EchoInv input s' := by
  refine ⟨done, ?_, hsame.trans hprinted, .inr ⟨c, hc, hcarry, ?_⟩⟩
  · rw [hstdin]
    exact hnul
  · rw [hstdin]
    exact hchunks

/-- Every step keeps the invariant, but for a `fgets` at the end. -/
theorem echoInv_step (input : List UInt8) (s : State) (e : Event) (s' : State)
    (h : s.atEof = false → EchoInv input s) (hstep : Step s e s') :
    s'.atEof = false → EchoInv input s' := by
  rcases hstep with ⟨hen, rfl⟩
  intro heof
  have hold : s.atEof = false := by
    cases e with
    | fgets =>
        simp only [next] at heof
        split at heof
        · cases heof
        · exact heof
    | childWrite =>
        rcases hen with ⟨n, hn, _⟩
        simp only [next, hn] at heof
        exact heof
    | write => exact heof
    | childRead => exact heof
    | read => exact heof
    | print => exact heof
  rcases h hold with ⟨done, hnul, hprinted, ⟨hrest, hchunks⟩ | ⟨c, hc, hcarry, hchunks⟩⟩
  · -- Only the parent can take a step.
    cases e with
    | fgets =>
        -- At the end of the input nothing is claimed any more.
        by_cases hs : s.stdin = []
        · simp only [next, if_pos hs] at heof
          cases heof
        · rcases chunks_fgets s.stdin hnul hs with ⟨hc, hfirst⟩
          simp only [next, if_neg hs]
          refine ⟨done, fun b hb => hnul b (List.mem_of_mem_drop hb), hprinted,
            .inr ⟨_, hc, carrying_fgets s hrest _ _, ?_⟩⟩
          rw [hchunks, hfirst]
    | write =>
        rw [Enabled, hrest.parent] at hen
        cases hen.1
    | childRead => exact absurd hrest.pfd1 hen.2
    | childWrite =>
        rcases hen with ⟨n, hn, _⟩
        rw [hrest.child] at hn
        cases hn
    | read => exact absurd hrest.pfd2 hen.2
    | print =>
        rw [Enabled, hrest.parent] at hen
        cases hen
  · -- The message moves on, and only the last step of its way prints it.
    cases e with
    | fgets =>
        rw [Carrying, hen] at hcarry
        exact hcarry.elim
    | write =>
        exact echoInv_of_carrying input s _ done c hnul hprinted hc hchunks
          (carrying_write c s hc hcarry hen.1) rfl rfl
    | childRead =>
        exact echoInv_of_carrying input s _ done c hnul hprinted hc hchunks
          (carrying_childRead c s hc hcarry hen.1 hen.2).2 rfl rfl
    | childWrite =>
        rcases hen with ⟨n, hn, _⟩
        have hcarry' := carrying_childWrite c s hc hcarry n hn
        simp only [next, hn] at hcarry' ⊢
        exact echoInv_of_carrying input s _ done c hnul hprinted hc hchunks hcarry' rfl rfl
    | read =>
        exact echoInv_of_carrying input s _ done c hnul hprinted hc hchunks
          (carrying_read c s hc hcarry hen.1 hen.2).2 rfl rfl
    | print =>
        rcases carrying_print c s hc hcarry hen with ⟨hstr, hrest⟩
        refine ⟨done ++ [c], hnul, ?_, .inl ⟨hrest, ?_⟩⟩
        · show s.printed ++ str s.buf = _
          rw [hstr, hprinted, List.flatten_append, List.flatten_singleton]
          exact (List.map_append (f := toupper)).symm
        · rw [List.append_assoc]
          exact hchunks

theorem echoInv_initial (input junk : List UInt8) (h : ∀ b ∈ input, b ≠ 0) :
    EchoInv input (initial input junk) :=
  ⟨[], h, rfl, .inl ⟨⟨rfl, rfl, rfl, rfl⟩, rfl⟩⟩

theorem lockstep_of_inv (input : List UInt8) (s : State) (h : EchoInv input s) :
    Lockstep input s := by
  rcases h with ⟨done, _, hprinted, ⟨hrest, hchunks⟩ | ⟨c, _, hcarry, hchunks⟩⟩
  · refine ⟨.inl ⟨hrest.pfd1, hrest.pfd2⟩, done.length, ?_⟩
    rw [hchunks, List.take_left, hprinted]
  · refine ⟨?_, done.length, by rw [hchunks, List.take_left, hprinted]⟩
    have hmem : c ∈ chunks input := by
      rw [hchunks]
      exact List.mem_append_right _ List.mem_cons_self
    unfold Carrying at hcarry
    split at hcarry
    · exact .inl hcarry.2
    · rcases hcarry with ⟨h1, h2⟩ | ⟨h1, h2⟩
      · exact .inr (.inl ⟨⟨c, hmem, h1⟩, h2⟩)
      · exact .inr (.inr ⟨h1, c, hmem, h2⟩)
    · exact .inl hcarry.2.2
    · exact .inl hcarry.2
    · exact hcarry.elim

theorem wholeReads_of_inv (input : List UInt8) (s : State) (e : Event) (hen : Enabled s e)
    (h : EchoInv input s) : WholeReads input s e := by
  rcases h with ⟨done, _, _, ⟨hrest, _⟩ | ⟨c, hc, hcarry, hchunks⟩⟩
  · cases e with
    | childRead => exact absurd hrest.pfd1 hen.2
    | read => exact absurd hrest.pfd2 hen.2
    | fgets => exact trivial
    | write => exact trivial
    | childWrite => exact trivial
    | print => exact trivial
  · have hmem : c ∈ chunks input := by
      rw [hchunks]
      exact List.mem_append_right _ List.mem_cons_self
    cases e with
    | childRead =>
        have h1 := (carrying_childRead c s hc hcarry hen.1 hen.2).1
        rcases received_message c hc.length_lt with ⟨hrec, hdrop⟩
        unfold WholeReads
        rw [h1, hrec, hdrop]
        exact ⟨⟨c, hmem, rfl⟩, rfl⟩
    | read =>
        have h2 := (carrying_read c s hc hcarry hen.1 hen.2).1
        have hup : (up c).length < bufSize := by
          rw [length_up]
          exact hc.length_lt
        rcases received_message (up c) hup with ⟨hrec, hdrop⟩
        unfold WholeReads
        rw [h2, hrec, hdrop]
        exact ⟨⟨c, hmem, rfl⟩, rfl⟩
    | fgets => exact trivial
    | write => exact trivial
    | childWrite => exact trivial
    | print => exact trivial

/-- For an input without NUL bytes: as long as no `fgets` has met the end of
    it, at most one message is in the pipes, what has been printed is the first
    chunks in upper case, and every read returns one whole message. -/
theorem echo_lockstep (input junk : List UInt8) (hnul : ∀ b ∈ input, b ≠ 0)
    (tr : List (Event × State)) (hrun : AllSteps Step (initial input junk) tr) :
    Always (fun s => s.atEof = false → Lockstep input s) (initial input junk) tr ∧
      StepsMeet (fun s e => s.atEof = false → WholeReads input s e) (initial input junk) tr := by
  have hinv := always_of_allSteps (echoInv_step input) _ tr
    (fun _ => echoInv_initial input junk hnul) hrun
  refine ⟨always_mono ?_ _ tr hinv, allSteps_of_always ?_ _ tr hinv hrun⟩
  · intro s h heof
    exact lockstep_of_inv input s (h heof)
  · intro s e _ h hstep heof
    exact wholeReads_of_inv input s e hstep.1 (h heof)

/-- A line goes to the child and back and is printed. -/
def oneLine : List Event := [.fgets, .write, .childRead, .childWrite, .read, .print]

/-- `"hi"` and a newline. -/
def hi : CString := .cons 104 (by decide) (.cons 105 (by decide) (.cons 10 (by decide) .empty))

theorem echo_lockstep_oneLine :
    Always (fun s => s.atEof = false → Lockstep [104, 105, 10] s) (initial [104, 105, 10] [])
        (record next (initial [104, 105, 10] []) oneLine) ∧
      StepsMeet (fun s e => s.atEof = false → WholeReads [104, 105, 10] s e)
        (initial [104, 105, 10] []) (record next (initial [104, 105, 10] []) oneLine) := by
  refine echo_lockstep _ _ hi.noNul _ (allSteps_record Enabled next _ _ ?_)
  exact ⟨rfl, ⟨rfl, by decide⟩, ⟨rfl, by decide⟩, ⟨_, rfl, by decide⟩, ⟨rfl, by decide⟩, rfl,
    trivial⟩

end PipeEcho

end TlpiPractice
