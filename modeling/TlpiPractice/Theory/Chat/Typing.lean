import TlpiPractice.Core.ChatTyping

/-!
# The Texts a Chat Client Sends

What the parent of a chat client sends, if `msgsnd` never fails.

The input is cut into lines, the longer ones into pieces of 511 bytes. As long
as there is something to read, every turn sends the next piece. Then every
turn sends what the turn before has sent, and there is no last turn.

## Main definitions

* `Buffer.text`: The text in a message.
* `lines`: What is typed, line after line.
* `TypingRight`: What the parent should do.
* `SentSoFar`: What is known at the start of every turn.

## Theorems

* `text_typed`: What a turn reads.
* `sentSoFar_turn`: What one turn keeps.
* `texts_after`: What has been sent after any number of turns.
* `turns_go_on`: There is always another turn.
* `sends_after_end`: More is sent than was typed.
* `not_returns`: The loop is never left.
* `typing_never`: What should happen does not.
* `typing_hi`: Two letters and a newline.
-/

namespace TlpiPractice

namespace ChatClient

open Loops

/-- What the server finds in a message: the text up to its NUL. -/
def Buffer.text (msg : Buffer) : List UInt8 := CString.str msg.mtext

/-- What is typed, line after line, with at most 511 bytes each. -/
def lines (stdin : List UInt8) : List (List UInt8) := Lines.pieces 10 (maxTextLen - 1) stdin

def texts (sent : List (Nat × Buffer)) : List (List UInt8) := sent.map (fun m => m.2.text)

/-- Before the first turn. What is in `msg` is from the login. -/
def atFirst (stdin : List UInt8) (msg : Buffer) : Typing := ⟨stdin, msg, [], 0⟩

/-- A turn, if `msgsnd` never fails. -/
def turn : Typing → Turn Typing (Ending × List (Nat × Buffer)) := parentTurn (fun _ => .sent)

/-- What the parent should do: send nothing but the lines, in order, and leave
    the loop when all of them are sent. -/
structure TypingRight (stdin : List UInt8) (msg : Buffer) : Prop where
  inOrder : ∀ s, After turn (atFirst stdin msg) s → texts s.sent <+: lines stdin
  type : ∀ s, After turn (atFirst stdin msg) s → ∀ m ∈ s.sent, m.1 = textMsg
  leaves : ∃ r, Returns turn (atFirst stdin msg) r ∧ texts r.2 = lines stdin

/-- The first `done` of the lines are sent. Beyond the end of the input the
    last text is sent `k` times more. -/
structure SentSoFar (stdin : List UInt8) (msg : Buffer) (s : Typing) : Prop where
  noNul : 0 ∉ s.stdin
  type : ∀ m ∈ s.sent, m.1 = textMsg
  texts : ∃ done k, lines stdin = done ++ lines s.stdin ∧
    texts s.sent = done ++ List.replicate k s.msg.text ∧
    s.msg.text = done.getLast?.getD msg.text ∧ (k = 0 ∨ s.stdin = [])

theorem lines_nil : lines [] = [] := rfl

theorem lines_of_ne_nil (stdin : List UInt8) (h : stdin ≠ []) :
    lines stdin = typedLine stdin :: lines (stdin.drop (typedLine stdin).length) :=
  Lines.pieces_of_ne_nil 10 (maxTextLen - 1) stdin (by decide) h

/-- A line that has been read is the text of the message. -/
theorem text_typed (msg : Buffer) (stdin : List UInt8) (h : 0 ∉ stdin) :
    (msg.typed stdin).text = typedLine stdin := by
  refine CString.str_append _ _ ?_
  intro b hb heq
  exact h (heq ▸ Lines.taken_mem 10 (maxTextLen - 1) stdin b hb)

theorem turn_eq (s : Typing) :
    turn s = .again ⟨(s.msg.fgets s.stdin).2, (s.msg.fgets s.stdin).1,
      s.sent ++ [(textMsg, (s.msg.fgets s.stdin).1)], s.sends + 1⟩ := rfl

theorem texts_concat (sent : List (Nat × Buffer)) (msg : Buffer) :
    texts (sent ++ [(textMsg, msg)]) = texts sent ++ [msg.text] := by
  rw [texts, List.map_append, List.map_singleton]
  rfl

theorem type_concat (sent : List (Nat × Buffer)) (msg : Buffer) (h : ∀ m ∈ sent, m.1 = textMsg) :
    ∀ m ∈ sent ++ [(textMsg, msg)], m.1 = textMsg := by
  intro m hm
  rcases List.mem_append.mp hm with hm | hm
  · exact h m hm
  · rw [List.mem_singleton.mp hm]

/-- One turn sends the next line, or the last one again. -/
theorem sentSoFar_turn (stdin : List UInt8) (msg : Buffer) (s s' : Typing)
    (hs : SentSoFar stdin msg s) (h : turn s = .again s') : SentSoFar stdin msg s' := by
  rw [turn_eq] at h
  cases h
  rcases hs.texts with ⟨done, k, hlines, htexts, htext, hk⟩
  by_cases hend : s.stdin = []
  · -- `fgets` leaves the text as it is.
    have hread : s.msg.fgets s.stdin = (s.msg, []) := if_pos hend
    rw [hread]
    refine ⟨List.not_mem_nil, type_concat _ _ hs.type, done, k + 1, ?_, ?_, htext, Or.inr rfl⟩
    · rw [hlines, hend]
    · rw [texts_concat, htexts, List.append_assoc, List.replicate_succ']
  · -- There is a line, and as nothing has been sent twice, it is the next.
    have hread : s.msg.fgets s.stdin =
        (s.msg.typed s.stdin, s.stdin.drop (typedLine s.stdin).length) := if_neg hend
    have hzero : k = 0 := hk.resolve_right hend
    have htyped := text_typed s.msg s.stdin hs.noNul
    rw [hread]
    refine ⟨fun hm => hs.noNul (List.mem_of_mem_drop hm), type_concat _ _ hs.type,
      done ++ [typedLine s.stdin], 0, ?_, ?_, ?_, Or.inl rfl⟩
    · rw [hlines, lines_of_ne_nil s.stdin hend, List.append_assoc, List.singleton_append]
    · rw [texts_concat, htexts, hzero, htyped, List.replicate_zero, List.replicate_zero,
        List.append_nil, List.append_nil]
    · rw [List.getLast?_concat, Option.getD_some]
      exact htyped

theorem sentSoFar_after (stdin : List UInt8) (msg : Buffer) (hnul : 0 ∉ stdin) (s : Typing)
    (h : After turn (atFirst stdin msg) s) : SentSoFar stdin msg s :=
  after_of_invariant turn (SentSoFar stdin msg) (sentSoFar_turn stdin msg) _
    ⟨hnul, fun _ hm => absurd hm List.not_mem_nil, [], 0, rfl, rfl, rfl, Or.inl rfl⟩ s h

/-- After any number of turns the first lines have been sent, in order, and
    for every turn too many the last one once more. -/
theorem texts_after (stdin : List UInt8) (msg : Buffer) (hnul : 0 ∉ stdin) (s : Typing)
    (h : After turn (atFirst stdin msg) s) :
    texts s.sent = (lines stdin).take s.sent.length ++
      List.replicate (s.sent.length - (lines stdin).length)
        ((lines stdin).getLast?.getD msg.text) := by
  rcases (sentSoFar_after stdin msg hnul s h).texts with ⟨done, k, hlines, htexts, htext, hk⟩
  -- What has been sent are `done` and `k` texts more.
  have hlen : s.sent.length = done.length + k := by
    have hcount := congrArg List.length htexts
    rwa [texts, List.length_map, List.length_append, List.length_replicate] at hcount
  rw [htexts, htext]
  rcases hk with rfl | hend
  · -- There is something left, and nothing has been sent twice.
    have htake : (done ++ lines s.stdin).take done.length = done :=
      List.take_left
    have hnone : done.length + 0 - (done ++ lines s.stdin).length = 0 := by
      rw [List.length_append]
      omega
    rw [hlen, hlines, hnone, Nat.add_zero, htake]
    rfl
  · -- All of the lines are sent.
    rw [hend, lines_nil, List.append_nil] at hlines
    rw [hlen, hlines, Nat.add_sub_cancel_left, List.take_of_length_le (Nat.le_add_right _ _)]

/-- There is always another turn, and each of them sends a message. -/
theorem turns_go_on (stdin : List UInt8) (msg : Buffer) (n : Nat) :
    ∃ s, After turn (atFirst stdin msg) s ∧ s.sent.length = n := by
  induction n with
  | zero => exact ⟨atFirst stdin msg, After.start, rfl⟩
  | succ n ih =>
      rcases ih with ⟨s, hafter, hlen⟩
      refine ⟨_, After.again s _ hafter (turn_eq s), ?_⟩
      rw [List.length_append, hlen, List.length_singleton]

/-- When the input is exhausted more is sent. -/
theorem sends_after_end (stdin : List UInt8) (msg : Buffer) :
    ∃ s, After turn (atFirst stdin msg) s ∧ ¬ texts s.sent <+: lines stdin := by
  rcases turns_go_on stdin msg ((lines stdin).length + 1) with ⟨s, hafter, hlen⟩
  refine ⟨s, hafter, fun hprefix => ?_⟩
  have hle := hprefix.length_le
  rw [texts, List.length_map, hlen] at hle
  omega

/-- The loop is never left. -/
theorem not_returns (s : Typing) (r : Ending × List (Nat × Buffer)) : ¬ Returns turn s r := by
  intro h
  refine returns_of_invariant turn (fun _ => True) (fun _ => False) (fun _ _ _ _ => trivial)
    ?_ s trivial r h
  intro s r' _ hturn
  rw [turn_eq] at hturn
  cases hturn

/-- What should happen never does: neither is the loop left, nor does the
    sending stop. -/
theorem typing_never (stdin : List UInt8) (msg : Buffer) :
    ¬ (∃ r, Returns turn (atFirst stdin msg) r ∧ texts r.2 = lines stdin) ∧
      ¬ (∀ s, After turn (atFirst stdin msg) s → texts s.sent <+: lines stdin) ∧
      ¬ TypingRight stdin msg := by
  rcases sends_after_end stdin msg with ⟨s, hafter, hmore⟩
  refine ⟨?_, fun h => hmore (h s hafter), fun h => hmore (h.inOrder s hafter)⟩
  rintro ⟨r, hreturns, _⟩
  exact not_returns _ r hreturns

/-- What the login leaves in `msg`, if the rest of it happens to be zero. -/
def loggedIn : Buffer where
  pid := 7
  mtext := 5 :: List.replicate 511 0
  full := by rw [List.length_cons, List.length_replicate, maxTextLen]

/-- The text `hi` is sent over and over. -/
theorem typing_hi : ¬ TypingRight [104, 105, 10] loggedIn := by
  intro h
  rcases h.leaves with ⟨r, hreturns, _⟩
  exact not_returns _ r hreturns

end ChatClient

end TlpiPractice
