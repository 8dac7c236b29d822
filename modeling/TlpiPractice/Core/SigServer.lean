import Mathlib.Data.List.GetD
import TlpiPractice.Library.Ints
import TlpiPractice.Library.Runs
import TlpiPractice.Library.Words

/-!
# The Sequence Server with Signal Handlers

The server of `44-4-changed_server_with_sig.c` and its clients. The server
hands out ranges of sequence numbers: a request says how many, the response is
the first of them. The number to hand out next is in memory only.

Any number of clients write requests to the FIFO of the server. A request has
eight bytes, the pid and the length, and is written in one piece. The server
reads as many bytes as a request has. When there are fewer it takes these, and
discards them. For a whole request it opens the FIFO of the client, writes the
response and closes the FIFO. It gives up on a client whose FIFO it cannot
open, and goes on to the next request; a response that it cannot write has its
numbers taken all the same.

Each system call of the server is a step, and clients write in between. A
`SIGINT` or a `SIGTERM` can come at any time, and its handler removes the FIFO
and ends the process.

Two fields record what has happened: the requests that have been written, and
what became of those that the server has read. No step looks at them.

## Main definitions

* `Request`: What a client asks for.
* `encode`, `decode`: A request as bytes.
* `Outcome`: What became of a request.
* `State`: The server and its FIFO.
* `Event`: The system calls, with their outcomes, and what comes from outside.
* `Enabled`, `next`, `Step`: When a step can happen and what it does.
-/

namespace TlpiPractice

namespace SigServer

open Ints Words

/-- `struct request`. -/
structure Request where
  pid : Int
  seqLen : Int
  deriving DecidableEq

/-- `sizeof(struct request)`. -/
def requestSize : Nat := 8

/-- The bytes of a request. -/
def encode (req : Request) : List UInt8 :=
  wordBytes (word req.pid) ++ wordBytes (word req.seqLen)

/-- The request that some bytes are taken for. -/
def decode (bytes : List UInt8) : Request :=
  let memory : Memory := fun i => bytes.getD i 0
  ⟨wrap (getWord memory 0), wrap (getWord memory 4)⟩

/-- What became of a request. -/
inductive Outcome where
  /-- The FIFO of the client could not be opened. -/
  | noFifo
  | answered (seqNum : Int)
  /-- The response could not be written. -/
  | unwritten (seqNum : Int)
  deriving DecidableEq

/-- Where the server is. -/
inductive Pc where
  /-- At the top of its loop. -/
  | ready
  /-- It has read a request. -/
  | received (req : Request)
  /-- It has opened the FIFO of the client. -/
  | connected (req : Request)
  /-- It has tried to write the response. -/
  | answered (req : Request)
  /-- Its handler has run. -/
  | ended
  deriving DecidableEq

structure State where
  /-- The bytes in the FIFO of the server. -/
  fifo : List UInt8
  pc : Pc
  seqNum : Int
  /-- The requests that have been written. -/
  sent : List Request
  /-- What became of the requests that have been read. -/
  handled : List (Request × Outcome)
  deriving DecidableEq

inductive Event where
  /-- A client writes a request. -/
  | send (req : Request)
  | receive
  | receiveFails
  | connect
  | connectFails
  | respond
  | respondFails
  | close
  | signal

/-- When an event can happen. A `read` waits while there is nothing to read. -/
def Enabled (s : State) : Event → Prop
  | .send req => s.pc ≠ .ended ∧ InRange req.pid ∧ InRange req.seqLen
  | .receive => s.pc = .ready ∧ s.fifo ≠ []
  | .receiveFails => s.pc = .ready
  | .connect => ∃ req, s.pc = .received req
  | .connectFails => ∃ req, s.pc = .received req
  | .respond => ∃ req, s.pc = .connected req
  | .respondFails => ∃ req, s.pc = .connected req
  | .close => ∃ req, s.pc = .answered req
  | .signal => s.pc ≠ .ended

/-- What an event does. -/
def next (s : State) : Event → State
  | .send req => { s with fifo := s.fifo ++ encode req, sent := s.sent ++ [req] }
  -- A partial read is discarded, and the next one begins behind it.
  | .receive =>
      let bytes := s.fifo.take requestSize
      { s with
        fifo := s.fifo.drop requestSize
        pc := if bytes.length = requestSize then .received (decode bytes) else .ready }
  | .receiveFails => s
  | .connect =>
      match s.pc with
      | .received req => { s with pc := .connected req }
      | _ => s
  | .connectFails =>
      match s.pc with
      | .received req => { s with pc := .ready, handled := s.handled ++ [(req, .noFifo)] }
      | _ => s
  | .respond =>
      match s.pc with
      | .connected req =>
          { s with pc := .answered req, handled := s.handled ++ [(req, .answered s.seqNum)] }
      | _ => s
  | .respondFails =>
      match s.pc with
      | .connected req =>
          { s with pc := .answered req, handled := s.handled ++ [(req, .unwritten s.seqNum)] }
      | _ => s
  -- The counter is advanced whether or not the response was written.
  | .close =>
      match s.pc with
      | .answered req => { s with pc := .ready, seqNum := wrap (s.seqNum + req.seqLen) }
      | _ => s
  | .signal => { s with pc := .ended }

/-- One system call of the server, or what comes from outside. -/
def Step (s : State) (e : Event) (s' : State) : Prop := Enabled s e ∧ s' = next s e

/-- The server has opened its FIFO. -/
def initial : State where
  fifo := []
  pc := .ready
  seqNum := 0
  sent := []
  handled := []

end SigServer

end TlpiPractice
