import Mathlib.Logic.Function.Basic
import TlpiPractice.Core.Chat

/-!
# The Broadcast Loop of the Chat Server

The loop of `46-6-talk_server.c` that handles one `TEXT_MSG`, with the list
of clients as it lies in memory. `Core.Chat` has the same loop with the list
cut in two; here the cut is the pointer `p`, and a client is dropped by
changing the link of the node before it.

Memory holds a node at each address that has been allocated and not freed.
Following a pointer to any other address is undefined, and so is what comes
after it.

Each round reads `p->next` and tries to send to that client. A send that
succeeds moves `p` on. One that the two-second alarm interrupts takes the
client out of the list, removes its queue, frees its node and goes round
again with the same `p`. Any other failure ends the server.

The kernel decides which sends succeed, by the number of the call. It lets a
queue be removed when the queue exists and the server may do so; where that
fails the server prints a line and carries on.

## Main definitions

* `Node`: `struct client`, with its link.
* `Kernel`: Which calls succeed.
* `Server`: Memory, the queues that exist, and what has been called.
* `drop`: What a timeout does.
* `round`, `broadcast`: The loop.
-/

namespace TlpiPractice

namespace ChatBroadcast

open Chat

/-- `struct client`. -/
structure Node (α : Type) extends Client where
  next : Option α

/-- How a `msgsnd` ends. -/
inductive SendResult where
  | sent
  /-- Interrupted by the alarm. -/
  | eintr
  | error
  deriving DecidableEq

structure Kernel where
  /-- How the `msgsnd` with this number ends. -/
  msgsnd : Nat → SendResult
  /-- Whether the server may remove the queue. -/
  mayRemove : Nat → Bool

inductive Call where
  | alarm (seconds : Nat)
  | msgsnd (msgid : Nat) (msg : ClientMsg) (len : Nat)
  /-- `msgctl` with `IPC_RMID`. -/
  | rmid (msgid : Nat)
  deriving DecidableEq

structure Server (α : Type) where
  /-- The nodes allocated and not freed. -/
  mem : α → Option (Node α)
  /-- Which queues exist. -/
  queues : Nat → Bool
  /-- The system calls made, in order. -/
  calls : List Call
  /-- The processes named by "fail to close message queue of process". -/
  reported : List Nat

/-- The queue, the message and the length of a send. -/
def Call.send : Call → Option (Nat × ClientMsg × Nat)
  | .msgsnd msgid msg len => some (msgid, msg, len)
  | .alarm _ => none
  | .rmid _ => none

/-- The queue that a call removes. -/
def Call.removal : Call → Option Nat
  | .rmid msgid => some msgid
  | .alarm _ => none
  | .msgsnd _ _ _ => none

variable {α : Type}

/-- The sends attempted so far, in order. -/
def Server.sends (s : Server α) : List (Nat × ClientMsg × Nat) := s.calls.filterMap Call.send

/-- The removals of queues attempted so far, in order. -/
def Server.removals (s : Server α) : List Nat := s.calls.filterMap Call.removal

/-- A system call is recorded. -/
def Server.call (s : Server α) (c : Call) : Server α := { s with calls := s.calls ++ [c] }

variable [DecidableEq α]

/-- `p->next = q`. -/
def Server.setNext (s : Server α) (p : α) (q : Option α) : Server α :=
  { s with mem := Function.update s.mem p ((s.mem p).map (fun n => { n with next := q })) }

/-- `free(a)`. -/
def Server.free (s : Server α) (a : α) : Server α :=
  { s with mem := Function.update s.mem a none }

/-- `msgctl(tmp->msgid, IPC_RMID, NULL)`, and the line printed when it fails. -/
def Server.removeQueue (K : Kernel) (s : Server α) (c : Client) : Server α :=
  if s.queues c.msgid = true ∧ K.mayRemove c.msgid = true then
    { s.call (.rmid c.msgid) with queues := Function.update s.queues c.msgid false }
  else { s.call (.rmid c.msgid) with reported := s.reported ++ [c.pid] }

/-- The branch of the loop for `EINTR`: `tmp` is the node after `p`. -/
def drop (K : Kernel) (s : Server α) (p tmp : α) (n : Node α) : Server α :=
  ((s.setNext p n.next).removeQueue K n.toClient).free tmp

/-- How the loop ends. -/
inductive Ending where
  | returned
  /-- By `errExit`. -/
  | exited
  /-- A pointer to no node has been followed. -/
  | undefined
  deriving DecidableEq

/-- What one round of the loop leads to. -/
inductive Round (α : Type) where
  | ended (e : Ending) (s : Server α)
  | again (s : Server α) (p : α)

/-- One round of `while (p->next)`. -/
def round (K : Kernel) (msg : ClientMsg) (len : Nat) (s : Server α) (p : α) : Round α :=
  match s.mem p with
  | none => .ended .undefined s
  | some at_p =>
    match at_p.next with
    | none => .ended .returned s
    | some tmp =>
      match s.mem tmp with
      | none => .ended .undefined (s.call (.alarm 2))
      | some n =>
        let called := (s.call (.alarm 2)).call (.msgsnd n.msgid msg len)
        match K.msgsnd s.sends.length with
        | .sent => .again (called.call (.alarm 0)) tmp
        | .eintr => .again (drop K called p tmp n) p
        | .error => .ended .exited called

/-- The loop, with a bound on the number of its rounds. -/
def broadcast (K : Kernel) (msg : ClientMsg) (len : Nat) :
    Nat → Server α → α → Option (Ending × Server α)
  | 0, _, _ => none
  | fuel + 1, s, p =>
    match round K msg len s p with
    | .ended e s' => some (e, s')
    | .again s' p' => broadcast K msg len fuel s' p'

end ChatBroadcast

end TlpiPractice
