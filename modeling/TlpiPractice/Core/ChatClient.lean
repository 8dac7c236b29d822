import TlpiPractice.Library.CString

/-!
# The Receiving Child of the Chat Client

The loop of `46-6-talk_client.c` in the child process, which prints what comes
in on the client's queue.

Every turn waits for a message for at most as long as the alarm says. If the
alarm interrupts it a line goes to the standard error, and then the program
prints a message all the same: the one that is in `msg` from before. At the
beginning this is the one that the client has logged in with.

A message has at least the pid and a text with its NUL. The `%ld` for the pid,
which is an `int`, is read as `%d`.

## Main definitions

* `Message`: What is received.
* `Buffer`: The variable `msg`.
* `Event`: The outcome of a `msgrcv`.
* `child`: The loop.
-/

namespace TlpiPractice

namespace ChatClient

/-- `MAX_TEXT_LEN`. -/
def maxTextLen : Nat := 512

/-- A message on the queue, which may be shorter than the buffer. -/
structure Message where
  pid : BitVec 32
  mtext : List UInt8
  fits : mtext.length ≤ maxTextLen
  terminated : 0 ∈ mtext

/-- `struct clientMsg`, less its type. -/
structure Buffer where
  pid : BitVec 32
  mtext : List UInt8
  full : mtext.length = maxTextLen

/-- The buffer with a message in it. The bytes behind the message stay. -/
def Buffer.receive (msg : Buffer) (m : Message) : Buffer where
  pid := m.pid
  mtext := m.mtext ++ msg.mtext.drop m.mtext.length
  full := by rw [List.length_append, List.length_drop, msg.full, Nat.add_sub_cancel' m.fits]

/-- What `msgrcv` does. -/
inductive Event where
  | received (m : Message)
  | eintr
  /-- It fails in another way, and the child exits. -/
  | failed

inductive Output where
  /-- `"%ld: %s\n\n"` with a pid and a text. -/
  | message (pid : BitVec 32) (text : List UInt8)
  /-- `"No message from server!\n"`, on the standard error. -/
  | noMessage
  deriving DecidableEq

/-- `printf`, unless there is no NUL in the array. -/
def Buffer.print (msg : Buffer) : Option Output :=
  if 0 ∈ msg.mtext then some (.message msg.pid (CString.str msg.mtext)) else none

/-- The loop in the child, as far as these events go. There is no result if a
    text is printed that does not end. -/
def child : Buffer → List Event → Option (List Output)
  | _, [] => some []
  | _, .failed :: _ => some []
  | msg, .received m :: events =>
      match (msg.receive m).print with
      | none => none
      | some output => (child (msg.receive m) events).map (fun outputs => output :: outputs)
  | msg, .eintr :: events =>
      match msg.print with
      | none => none
      | some output =>
          (child msg events).map (fun outputs => .noMessage :: output :: outputs)

end ChatClient

end TlpiPractice
