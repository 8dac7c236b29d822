import Mathlib.Logic.Function.Basic
import TlpiPractice.Library.MsgQueue
import TlpiPractice.Library.Runs

/-!
# The Message Queue Chat

The chat of `46-6-talk_server.c` and `46-6-talk_client.c`: one server, any
number of client processes, and System V message queues between them. The
server owns one queue that all clients send to, each client owns one that the
server sends to.

A client announces itself with a `LOGIN_MSG` that carries its queue's
identifier, sends `TEXT_MSG`s, and leaves. Leaving on `SIGINT` or `SIGTERM`
goes through `handler`, which removes the client's queue and then sends a
`LOGOUT_MSG`; leaving through `exit` only runs `clear_msq`, which removes the
queue. Everything that can end a client without the handler does so: a
`msgsnd` that fails or is interrupted calls `errExit` or `fatal`.

The server reads its queue with `msgrcv` and type `-3`, so a LOGIN overtakes
a LOGOUT and both overtake a TEXT. It keeps the clients in a list with a dummy
head, adds at the front, and removes the first entry with the pid of a LOGOUT.
A TEXT is sent to one client after the other; clients may send, log in and
leave in between, so a broadcast is as many steps as it has receivers. A
`msgsnd` to a full queue blocks until the two-second alarm interrupts it, and
then the server drops the client and removes its queue. A `msgsnd` to a queue
that no longer exists fails at once, and the server calls `errExit`.

The list is cut in two at the position of the broadcast loop: `kept` is what
the loop has passed, `pending` what it has still to reach. Outside a
broadcast everything is in `kept`.

The last fields of the state record what has happened, and no step looks at
them: the texts the server has taken off its queue, what it has put into each
client's queue, and how many texts had been taken when a client logged in or
out, or at which of them a send to it failed.

The processes are named by a type of identities, with a pid and a queue
identifier for each. The kernel gives distinct queues distinct identifiers;
pids may come back after a process has gone.

## Main definitions

* `ClientMsg`: The messages, by type.
* `Client`: An entry of the server's list.
* `Phase`: How far a client process has got.
* `Procs`: The pid and the queue identifier of each client process.
* `State`: Both programs and all queues.
* `Event`: The steps of the clients and of the server.
* `Enabled`, `next`, `Step`: When a step can happen and what it does.
-/

namespace TlpiPractice

namespace Chat

open MsgQueue

/-- `struct clientMsg`. The text of a LOGIN is the sender's queue identifier,
    a LOGOUT has none. -/
inductive ClientMsg where
  | login (pid msgid : Nat)
  | logout (pid : Nat)
  | text (pid : Nat) (mtext : List UInt8)
  deriving DecidableEq

/-- `LOGIN_MSG`, `LOGOUT_MSG` and `TEXT_MSG`. -/
def ClientMsg.mtype : ClientMsg → Nat
  | .login _ _ => 1
  | .logout _ => 2
  | .text _ _ => 3

/-- `struct client`, less its link. -/
structure Client where
  pid : Nat
  msgid : Nat
  deriving DecidableEq

/-- How far a client process has got. -/
inductive Phase where
  /-- Not running yet. -/
  | absent
  /-- Its queue exists, its LOGIN has not been sent. -/
  | started
  /-- Its LOGIN has been sent. -/
  | active
  /-- In `handler`, its queue removed, its LOGOUT not yet sent. -/
  | closing
  /-- Its LOGOUT has been sent, the signal not yet raised again. -/
  | leaving
  /-- Ended after its LOGOUT. -/
  | gone
  /-- Ended without a LOGOUT. -/
  | dead
  deriving DecidableEq

/-- What the server is doing. -/
inductive Mode where
  /-- At the top of its loop. -/
  | receiving
  /-- In the loop that sends a TEXT to every client. -/
  | broadcasting (msg : ClientMsg)
  /-- Ended by `errExit` after a failed send. -/
  | failed
  deriving DecidableEq

/-- The client processes: the pid of each, and the identifier `msgget` gave
    its queue. Distinct queues have distinct identifiers. -/
structure Procs (ι : Type) where
  pid : ι → Nat
  msgid : ι → Nat
  msgid_inj : Function.Injective msgid

/-- The entry the server keeps for a client process. -/
def Procs.entry {ι : Type} (P : Procs ι) (c : ι) : Client := ⟨P.pid c, P.msgid c⟩

structure State (ι : Type) where
  /-- The server's queue, oldest message first. -/
  queue : List ClientMsg
  kept : List Client
  pending : List Client
  mode : Mode
  phase : ι → Phase
  /-- Which client queues exist. -/
  isOpen : Nat → Bool
  /-- The texts the server has taken off its queue, in order. -/
  taken : List ClientMsg
  /-- The texts the server has put into each client queue, in order. -/
  delivered : Nat → List ClientMsg
  /-- How many texts had been taken when the client sent its LOGIN. -/
  joinedAt : ι → Option Nat
  /-- How many texts had been taken when the client sent its LOGOUT. -/
  leftAt : ι → Option Nat
  /-- The index of the first text that could not be sent to a queue. -/
  failedAt : Nat → Option Nat

inductive Event (ι : Type) where
  | start (c : ι)
  | login (c : ι)
  | text (c : ι) (mtext : List UInt8)
  | signal (c : ι)
  | logout (c : ι)
  | logoutFails (c : ι)
  | raise (c : ι)
  | exit (c : ι)
  | receive
  | send
  | timeout
  | sendFails
  | finish

variable {ι : Type} [DecidableEq ι]

/-- When an event can happen. -/
def Enabled (s : State ι) : Event ι → Prop
  | .start c => s.phase c = .absent
  | .login c => s.phase c = .started
  | .text c _ => s.phase c = .active
  | .signal c => s.phase c = .started ∨ s.phase c = .active
  | .logout c => s.phase c = .closing
  | .logoutFails c => s.phase c = .closing
  | .raise c => s.phase c = .leaving
  | .exit c => s.phase c = .started ∨ s.phase c = .active
  | .receive => s.mode = .receiving ∧ (receiveLowest ClientMsg.mtype 3 s.queue).isSome
  | .send => ∃ m e rest, s.mode = .broadcasting m ∧ s.pending = e :: rest ∧ s.isOpen e.msgid = true
  | .timeout =>
      ∃ m e rest, s.mode = .broadcasting m ∧ s.pending = e :: rest ∧ s.isOpen e.msgid = true
  | .sendFails =>
      ∃ m e rest, s.mode = .broadcasting m ∧ s.pending = e :: rest ∧ s.isOpen e.msgid = false
  | .finish => ∃ m, s.mode = .broadcasting m ∧ s.pending = []

/-- What the server does with the message it has received. -/
def handle (s : State ι) (q : List ClientMsg) : ClientMsg → State ι
  | .login pid msgid => { s with queue := q, kept := ⟨pid, msgid⟩ :: s.kept }
  | .logout pid => { s with queue := q, kept := s.kept.eraseP (fun e => decide (e.pid = pid)) }
  | .text pid mtext =>
      { s with
        queue := q
        mode := .broadcasting (.text pid mtext)
        kept := []
        pending := s.kept
        taken := s.taken ++ [.text pid mtext] }

/-- What an event does. -/
def next (P : Procs ι) (s : State ι) : Event ι → State ι
  | .start c =>
      { s with
        phase := Function.update s.phase c .started
        isOpen := Function.update s.isOpen (P.msgid c) true }
  | .login c =>
      { s with
        phase := Function.update s.phase c .active
        queue := s.queue ++ [.login (P.pid c) (P.msgid c)]
        joinedAt := Function.update s.joinedAt c (some s.taken.length) }
  | .text c mtext => { s with queue := s.queue ++ [.text (P.pid c) mtext] }
  | .signal c =>
      { s with
        phase := Function.update s.phase c .closing
        isOpen := Function.update s.isOpen (P.msgid c) false }
  | .logout c =>
      { s with
        phase := Function.update s.phase c .leaving
        queue := s.queue ++ [.logout (P.pid c)]
        leftAt := Function.update s.leftAt c (some s.taken.length) }
  | .logoutFails c => { s with phase := Function.update s.phase c .dead }
  | .raise c => { s with phase := Function.update s.phase c .gone }
  | .exit c =>
      { s with
        phase := Function.update s.phase c .dead
        isOpen := Function.update s.isOpen (P.msgid c) false }
  | .receive =>
      match receiveLowest ClientMsg.mtype 3 s.queue with
      | some (m, q) => handle s q m
      | none => s
  | .send =>
      match s.mode, s.pending with
      | .broadcasting m, e :: rest =>
          { s with
            kept := s.kept ++ [e]
            pending := rest
            delivered := Function.update s.delivered e.msgid (s.delivered e.msgid ++ [m]) }
      | _, _ => s
  | .timeout =>
      match s.pending with
      | e :: rest =>
          { s with
            pending := rest
            isOpen := Function.update s.isOpen e.msgid false
            failedAt := Function.update s.failedAt e.msgid (some (s.taken.length - 1)) }
      | [] => s
  | .sendFails => { s with mode := .failed }
  | .finish => { s with mode := .receiving }

/-- One step of one of the programs. -/
def Step (P : Procs ι) (s : State ι) (e : Event ι) (s' : State ι) : Prop :=
  Enabled s e ∧ s' = next P s e

/-- Before the first client starts: the server at the top of its loop, with an
    empty queue and an empty list. -/
def initial : State ι where
  queue := []
  kept := []
  pending := []
  mode := .receiving
  phase := fun _ => .absent
  isOpen := fun _ => false
  taken := []
  delivered := fun _ => []
  joinedAt := fun _ => none
  leftAt := fun _ => none
  failedAt := fun _ => none

end Chat

end TlpiPractice
