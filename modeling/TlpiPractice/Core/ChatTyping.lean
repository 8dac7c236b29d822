import TlpiPractice.Core.ChatClient
import TlpiPractice.Library.Lines
import TlpiPractice.Library.Loops

/-!
# The Sending Parent of the Chat Client

The loop of `46-6-talk_client.c` in the parent process, which sends what is
typed to the server.

Every turn reads a line with `fgets` into the text of `msg` and sends the
whole of `msg`. The result of `fgets` is not looked at. At the end of the
input it leaves the text as it is, so the last line is sent again, or, if
nothing has been typed at all, what is there from the login. There is no way
out of the loop but a `msgsnd` that fails, which ends the process.

## Main definitions

* `Buffer.fgets`: What `fgets` does.
* `Answer`: How a `msgsnd` goes.
* `Typing`: The parent at the start of a turn.
* `parentTurn`: The body of the loop.
-/

namespace TlpiPractice

namespace ChatClient

open Loops

/-- `TEXT_MSG`. -/
def textMsg : Nat := 3

/-- What `fgets` reads: at most 511 bytes, up to a newline and with it. -/
def typedLine (stdin : List UInt8) : List UInt8 := Lines.taken 10 (maxTextLen - 1) stdin

theorem length_typedLine (stdin : List UInt8) : (typedLine stdin).length + 1 ≤ maxTextLen :=
  Nat.succ_le_succ (Lines.length_taken_le 10 (maxTextLen - 1) stdin)

/-- The buffer with a line and a NUL at the front of its text. -/
def Buffer.typed (msg : Buffer) (stdin : List UInt8) : Buffer where
  pid := msg.pid
  mtext := typedLine stdin ++ 0 :: msg.mtext.drop ((typedLine stdin).length + 1)
  full := by
    have hle := length_typedLine stdin
    rw [List.length_append, List.length_cons, List.length_drop, msg.full]
    omega

/-- `fgets(msg.mtext, 512, stdin)`: the buffer, and what is left of the
    input. -/
def Buffer.fgets (msg : Buffer) (stdin : List UInt8) : Buffer × List UInt8 :=
  if stdin = [] then (msg, []) else (msg.typed stdin, stdin.drop (typedLine stdin).length)

/-- How a `msgsnd` goes. -/
inductive Answer where
  | sent
  | eintr
  | failed
  deriving DecidableEq

/-- How the parent ends. -/
inductive Ending where
  /-- `"Unable to sent text to the server"`. -/
  | fatal
  /-- `errExit("msgsnd")`. -/
  | errExit
  deriving DecidableEq

/-- The parent at the start of a turn. The messages that it has sent are given
    with their type. -/
structure Typing where
  stdin : List UInt8
  msg : Buffer
  sent : List (Nat × Buffer)
  /-- How many calls of `msgsnd` there were. -/
  sends : Nat

/-- The body of the loop. -/
def parentTurn (msgsnd : Nat → Answer) (s : Typing) :
    Turn Typing (Ending × List (Nat × Buffer)) :=
  -- At the end of the input the buffer is sent as it is.
  let (msg, stdin) := s.msg.fgets s.stdin
  match msgsnd s.sends with
  | .sent => .again ⟨stdin, msg, s.sent ++ [(textMsg, msg)], s.sends + 1⟩
  | .eintr => .done (.fatal, s.sent)
  | .failed => .done (.errExit, s.sent)

end ChatClient

end TlpiPractice
