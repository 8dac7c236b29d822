import TlpiPractice.Library.Reach
import TlpiPractice.Theory.PipeEcho.Lockstep

/-!
# An Echo without an End

What the program does after the end of its input, and that it never stops.

The parent does not look at what `fgets` returns. When there is nothing left to
read, the buffer still holds the last answer, and this goes to the child once
more, comes back as it is, since it is in upper case already, and is printed
again. No `read` returns zero and no process waits for ever, so this goes on
without an end.

Every message takes six steps, in one order only, so the number of steps that
have been taken says where the processes stand and how many messages have been
printed. The invariant counts the steps.

## Main definitions

* `piece`: The message of each turn of the loop.
* `shown`: What a number of turns prints.
* `place`: How many of the six steps have been taken.
* `Kept`: The last answer is still in the buffer.
* `TurnInv`: The invariant.

## Theorems

* `turnInv_fgets`: The first of the six steps, with input or without.
* `turnInv_step`: Every step keeps the invariant.
* `enabled_of_turnInv`: Some process can always go on.
* `echo_endless`: What every run prints, and that it can be continued.
-/

namespace TlpiPractice

namespace PipeEcho

open CString Lines Runs

/-- The message of turn `k`: a chunk of the input, and at last always the
    last one. -/
def piece (input : List UInt8) (k : Nat) : List UInt8 :=
  (chunks input).getD k ((chunks input).getLastD [])

/-- What the first `n` turns print. -/
def shown (input : List UInt8) (n : Nat) : List UInt8 :=
  ((List.range n).map (fun k => up (piece input k))).flatten

/-- How many steps the message under way has taken. -/
def place (s : State) : Nat :=
  match s.parent, s.child with
  | .fgets, _ => 0
  | .write, _ => 1
  | .read, .read => if s.pfd1 = [] then 4 else 2
  | .read, .write _ => 3
  | .print, _ => 5

/-- After a turn the buffer holds the answer of the turn before. -/
def Kept (input : List UInt8) (k : Nat) (s : State) : Prop :=
  ∀ j, k = j + 1 →
    ∃ c rest, IsChunk c ∧ up c = up (piece input j) ∧ s.buf = up c ++ 0 :: rest

/-- After `m` steps. -/
def TurnInv (input : List UInt8) (m : Nat) (s : State) : Prop :=
  ∃ k, m = 6 * k + place s ∧ (∀ b ∈ s.stdin, b ≠ 0) ∧ s.printed = shown input k ∧
    ((Resting s ∧ Kept input k s ∧ chunks s.stdin = (chunks input).drop k) ∨
      ∃ c, IsChunk c ∧ up c = up (piece input k) ∧ Carrying c s ∧
        chunks s.stdin = (chunks input).drop (k + 1))

theorem toupper_toupper (b : UInt8) : toupper (toupper b) = toupper b := by
  unfold toupper
  split
  · next hb =>
      refine if_neg (fun hc => ?_)
      have hlow := UInt8.le_iff_toNat_le.mp hb.1
      have hhigh := UInt8.le_iff_toNat_le.mp hb.2
      have hagain := UInt8.le_iff_toNat_le.mp hc.1
      rw [UInt8.toNat_sub] at hagain
      simp only [UInt8.reduceToNat] at hlow hhigh hagain
      omega
  · rfl

theorem up_up (c : List UInt8) : up (up c) = up c := by
  unfold up
  rw [List.map_map]
  exact List.map_congr_left (fun b _ => toupper_toupper b)

theorem isChunk_up (c : List UInt8) (h : IsChunk c) : IsChunk (up c) where
  noNul := up_noNul c h.noNul
  length_lt := by
    rw [length_up]
    exact h.length_lt

theorem place_lt (s : State) : place s < 6 := by
  unfold place
  split
  · omega
  · omega
  · split <;> omega
  · omega
  · omega

theorem shown_succ (input : List UInt8) (k : Nat) :
    shown input (k + 1) = shown input k ++ up (piece input k) := by
  unfold shown
  rw [List.range_succ, List.map_append, List.flatten_append, List.map_singleton,
    List.flatten_singleton]

/-- While there is input, the message is the next chunk. -/
theorem piece_of_drop (input c : List UInt8) (k : Nat) (rest : List (List UInt8))
    (h : (chunks input).drop k = c :: rest) :
    piece input k = c ∧ (chunks input).drop (k + 1) = rest := by
  constructor
  · unfold piece
    rw [List.getD_eq_getElem?_getD, ← List.head?_drop, h]
    rfl
  · rw [← List.tail_drop, h, List.tail_cons]

/-- Without input, the message is the one before. -/
theorem piece_succ (input : List UInt8) (j : Nat) (h : (chunks input).drop (j + 1) = []) :
    piece input (j + 1) = piece input j := by
  have hlen := List.drop_eq_nil_iff.mp h
  unfold piece
  rw [List.getD_eq_getElem?_getD, List.getD_eq_getElem?_getD, List.getElem?_eq_none hlen]
  rcases Nat.lt_or_ge j (chunks input).length with hj | hj
  · have hlast : (chunks input).length - 1 = j := by omega
    rw [List.getLastD_eq_getLast?, List.getLast?_eq_getElem?, hlast, List.getElem?_eq_getElem hj]
    rfl
  · rw [List.getElem?_eq_none hj]

/-- The first step of a turn. -/
theorem turnInv_fgets (input : List UInt8) (hsome : input ≠ []) (k : Nat) (s : State)
    (hnul : ∀ b ∈ s.stdin, b ≠ 0) (hprinted : s.printed = shown input k) (hrest : Resting s)
    (hkept : Kept input k s) (hchunks : chunks s.stdin = (chunks input).drop k) :
    TurnInv input (6 * k + 1) (next s .fgets) := by
  by_cases hs : s.stdin = []
  · simp only [next, if_pos hs]
    have hend : (chunks input).drop k = [] := by
      rw [← hchunks, hs]
      rfl
    cases k with
    | zero =>
        -- The input was not empty, so this is not the first turn.
        have hpos : 0 < bufSize - 1 := by
          unfold bufSize
          omega
        rw [List.drop_zero, chunks, pieces_of_ne_nil newline (bufSize - 1) input hpos hsome] at hend
        cases hend
    | succ j =>
        rcases hkept j rfl with ⟨c, rest, hc, hup, hbuf⟩
        refine ⟨j + 1, rfl, hnul, hprinted, .inr ⟨up c, isChunk_up c hc, ?_, ?_, ?_⟩⟩
        · rw [up_up, hup, piece_succ input j hend]
        · unfold Carrying
          simp only [hrest.child]
          exact ⟨⟨rest, hbuf⟩, hrest.pfd1, hrest.pfd2⟩
        · rw [hchunks, hend, ← List.tail_drop, hend, List.tail_nil]
  · rcases chunks_fgets s.stdin hnul hs with ⟨hc, hfirst⟩
    rcases piece_of_drop input _ k _ (hchunks.symm.trans hfirst) with ⟨hpiece, hdrop⟩
    simp only [next, if_neg hs]
    refine ⟨k, rfl, fun b hb => hnul b (List.mem_of_mem_drop hb), hprinted,
      .inr ⟨_, hc, ?_, carrying_fgets s hrest _ _, hdrop.symm⟩⟩
    rw [hpiece]

/-- A message that stays under way takes one more step. -/
theorem turnInv_of_carrying (input : List UInt8) (k : Nat) (s s' : State) (c : List UInt8)
    (hnul : ∀ b ∈ s.stdin, b ≠ 0) (hprinted : s.printed = shown input k) (hc : IsChunk c)
    (hup : up c = up (piece input k)) (hchunks : chunks s.stdin = (chunks input).drop (k + 1))
    (hcarry : Carrying c s') (hstdin : s'.stdin = s.stdin) (hsame : s'.printed = s.printed)
    (hplace : place s' = place s + 1) : TurnInv input (6 * k + place s + 1) s' := by
  refine ⟨k, ?_, ?_, hsame.trans hprinted, .inr ⟨c, hc, hup, hcarry, ?_⟩⟩
  · rw [hplace, Nat.add_assoc]
  · rw [hstdin]
    exact hnul
  · rw [hstdin]
    exact hchunks

/-- A step of a message under way leads to the next place, but for the last. -/
theorem place_next (c : List UInt8) (s : State) (e : Event) (hc : IsChunk c)
    (hcarry : Carrying c s) (hen : Enabled s e) (hprint : e ≠ .print) :
    place (next s e) = place s + 1 := by
  cases e with
  | fgets =>
      rw [Carrying, hen] at hcarry
      exact hcarry.elim
  | write =>
      have hchild := child_of_carrying c s hcarry (by rw [hen.1]; exact ParentPc.noConfusion)
      rw [Carrying, hen.1, hchild] at hcarry
      rcases hcarry with ⟨⟨rest, hbuf⟩, h1, _⟩
      have hsome : (next s .write).pfd1 ≠ [] := by
        simp only [next, h1, hbuf, message_append c rest hc.noNul]
        exact List.append_ne_nil_of_right_ne_nil c (List.cons_ne_nil 0 [])
      simp only [place, hen.1]
      simp only [next] at hsome ⊢
      rw [hchild]
      exact if_neg hsome
  | childRead =>
      have hsome := hen.2
      cases hparent : s.parent with
      | read =>
          simp only [place, next, hparent, hen.1, if_neg hsome]
      | fgets =>
          rw [Carrying, hparent] at hcarry
          exact hcarry.elim
      | write =>
          rw [Carrying, hparent, hen.1] at hcarry
          exact absurd hcarry.2.1 hsome
      | print =>
          rw [Carrying, hparent, hen.1] at hcarry
          exact absurd hcarry.2.1 hsome
  | childWrite =>
      rcases hen with ⟨n, hn, _⟩
      have hparent : s.parent = .read := by
        by_contra hother
        rw [child_of_carrying c s hcarry hother] at hn
        cases hn
      rw [Carrying, hparent, hn] at hcarry
      simp only [place, next, hparent, hn, if_pos hcarry.2.2.1]
  | read =>
      cases hchild : s.child with
      | write n =>
          rw [Carrying, hen.1, hchild] at hcarry
          exact absurd hcarry.2.2.2 hen.2
      | read =>
          rw [Carrying, hen.1, hchild] at hcarry
          rcases hcarry with ⟨_, h2⟩ | ⟨h1, _⟩
          · exact absurd h2 hen.2
          · simp only [place, next, hen.1, hchild, if_pos h1]
  | print => exact absurd rfl hprint

theorem turnInv_step (input : List UInt8) (hsome : input ≠ []) (m : Nat) (s : State) (e : Event)
    (s' : State) (h : TurnInv input m s) (hstep : Step s e s') : TurnInv input (m + 1) s' := by
  rcases hstep with ⟨hen, rfl⟩
  rcases h with ⟨k, rfl, hnul, hprinted, ⟨hrest, hkept, hchunks⟩ | ⟨c, hc, hup, hcarry, hchunks⟩⟩
  · -- Only the parent can take a step.
    have hplace : place s = 0 := by simp only [place, hrest.parent]
    rw [hplace]
    cases e with
    | fgets => exact turnInv_fgets input hsome k s hnul hprinted hrest hkept hchunks
    | write =>
        rw [Enabled, hrest.parent] at hen
        cases hen.1
    | childRead => exact absurd hrest.pfd1 hen.2
    | childWrite =>
        rcases hen with ⟨n, hn, _⟩
        rw [hrest.child] at hn
        cases hn
    | read => exact absurd hrest.pfd2 hen.2
    | print =>
        rw [Enabled, hrest.parent] at hen
        cases hen
  · have hmove : ∀ s', Carrying c s' → s'.stdin = s.stdin → s'.printed = s.printed →
        place s' = place s + 1 → TurnInv input (6 * k + place s + 1) s' :=
      fun s' => turnInv_of_carrying input k s s' c hnul hprinted hc hup hchunks
    cases e with
    | fgets =>
        rw [Carrying, hen] at hcarry
        exact hcarry.elim
    | write =>
        exact hmove _ (carrying_write c s hc hcarry hen.1) rfl rfl
          (place_next c s .write hc hcarry hen Event.noConfusion)
    | childRead =>
        exact hmove _ (carrying_childRead c s hc hcarry hen.1 hen.2).2 rfl rfl
          (place_next c s .childRead hc hcarry hen Event.noConfusion)
    | childWrite =>
        have hplace := place_next c s .childWrite hc hcarry hen Event.noConfusion
        rcases hen with ⟨n, hn, _⟩
        refine hmove _ (carrying_childWrite c s hc hcarry n hn) ?_ ?_ hplace
        · simp only [next, hn]
        · simp only [next, hn]
    | read =>
        exact hmove _ (carrying_read c s hc hcarry hen.1 hen.2).2 rfl rfl
          (place_next c s .read hc hcarry hen Event.noConfusion)
    | print =>
        -- The turn is over, and the buffer keeps what has been printed.
        rcases carrying_print c s hc hcarry hen with ⟨hstr, hrest⟩
        have hchild := hrest.child
        have hplace : place s = 5 := by
          rw [Enabled] at hen
          simp only [place, hen]
        rw [Carrying, hen, show s.child = .read from hchild] at hcarry
        rcases hcarry.1 with ⟨rest, hbuf⟩
        refine ⟨k + 1, ?_, hnul, ?_, .inl ⟨hrest, ?_, hchunks⟩⟩
        · have hnext : place (next s .print) = 0 := by simp only [place, hrest.parent]
          rw [hnext, hplace]
          omega
        · show s.printed ++ str s.buf = _
          rw [hstr, hprinted, hup, shown_succ]
        · intro j hj
          obtain rfl : k = j := by omega
          exact ⟨c, rest, hc, hup, hbuf⟩

/-- Some process can always go on. -/
theorem enabled_of_turnInv (input : List UInt8) (m : Nat) (s : State) (h : TurnInv input m s) :
    ∃ e, Enabled s e := by
  rcases h with ⟨k, _, _, _, ⟨hrest, _, _⟩ | ⟨c, hc, _, hcarry, _⟩⟩
  · exact ⟨.fgets, hrest.parent⟩
  · have hlen := hc.length_lt
    rw [bufSize] at hlen
    unfold Carrying at hcarry
    split at hcarry
    · next hparent hchild =>
        rcases hcarry with ⟨⟨rest, hbuf⟩, h1, _⟩
        refine ⟨.write, hparent, ?_⟩
        rw [h1, hbuf, message_append c rest hc.noNul, List.length_append, List.length_singleton,
          List.length_nil, pipeCapacity]
        omega
    · next hparent hchild =>
        rcases hcarry with ⟨h1, _⟩ | ⟨_, h2⟩
        · refine ⟨.childRead, hchild, ?_⟩
          rw [h1]
          exact List.append_ne_nil_of_right_ne_nil c (List.cons_ne_nil 0 [])
        · refine ⟨.read, hparent, ?_⟩
          rw [h2]
          exact List.append_ne_nil_of_right_ne_nil (up c) (List.cons_ne_nil 0 [])
    · next n hparent hchild =>
        rcases hcarry with ⟨rfl, _, _, h2⟩
        refine ⟨.childWrite, _, hchild, ?_⟩
        rw [h2, List.length_nil, pipeCapacity]
        omega
    · next hparent hchild => exact ⟨.print, hparent⟩
    · exact hcarry.elim

theorem turnInv_initial (input junk : List UInt8) (h : ∀ b ∈ input, b ≠ 0) :
    TurnInv input 0 (initial input junk) :=
  ⟨0, rfl, h, rfl, .inl ⟨⟨rfl, rfl, rfl, rfl⟩, fun _ hj => (Nat.succ_ne_zero _ hj.symm).elim, rfl⟩⟩

/-- For an input with something in it and without NUL bytes: every run can be
    continued, and after every six steps it has printed one more message, each
    chunk of the input in turn and then the last one over and over. -/
theorem echo_endless (input junk : List UInt8) (hsome : input ≠ []) (hnul : ∀ b ∈ input, b ≠ 0)
    (tr : List (Event × State)) (hrun : AllSteps Step (initial input junk) tr) :
    (∃ e, Enabled (lastState (initial input junk) tr) e) ∧
      (lastState (initial input junk) tr).printed = shown input (tr.length / 6) := by
  have hinv := counted_of_allSteps (turnInv_step input hsome) 0 _ tr
    (turnInv_initial input junk hnul) hrun
  refine ⟨enabled_of_turnInv input _ _ hinv, ?_⟩
  rcases hinv with ⟨k, hm, _, hprinted, _⟩
  have hlt := place_lt (lastState (initial input junk) tr)
  have hk : tr.length / 6 = k := by omega
  rw [hk]
  exact hprinted

theorem echo_endless_oneLine :
    (∃ e, Enabled (lastState (initial [104, 105, 10] [])
        (record next (initial [104, 105, 10] []) oneLine)) e) ∧
      (lastState (initial [104, 105, 10] [])
        (record next (initial [104, 105, 10] []) oneLine)).printed =
          shown [104, 105, 10]
            ((record next (initial [104, 105, 10] []) oneLine).length / 6) := by
  refine echo_endless _ _ (List.cons_ne_nil _ _) hi.noNul _ (allSteps_record Enabled next _ _ ?_)
  exact ⟨rfl, ⟨rfl, by decide⟩, ⟨rfl, by decide⟩, ⟨_, rfl, by decide⟩, ⟨rfl, by decide⟩, rfl,
    trivial⟩

end PipeEcho

end TlpiPractice
