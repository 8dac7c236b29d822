import TlpiPractice.Library.Ints
import TlpiPractice.Library.Runs

/-!
# The Persistent Sequence Server

The server of `44-3-changed_server_with_conf.c`. It hands out ranges of
sequence numbers: a request says how many, the response is the first of them.
The number to hand out next is kept in `server.conf`, so that it survives a
restart.

For each request the server writes the response, then advances its counter,
then writes the counter to the file. Every system call is a step here, and
the server can go down before each of them: a crash, a signal, or one of the
`errExit`s before the loop. A failing `read` of `server.conf` is reported and
otherwise ignored, so the server goes on with the zero that the counter was
initialised with.

The file is a sequence of integers. The server reads the first, and rewinds
before it writes. A write of the file is atomic and durable and does not
fail; requests and responses are small enough for a FIFO to take them whole.

Two fields record what has happened: the responses that were written
successfully, each with the length of its request, and the sum of all lengths
received. No step looks at them.

## Main definitions

* `Request`: What a client asks for.
* `Pc`: Where the server is.
* `Server`: The process, its file, and what has happened.
* `Event`: The system calls, with their outcomes, and the crash.
* `Enabled`, `next`, `Step`: When a step can happen and what it does.
-/

namespace TlpiPractice

namespace SeqServer

open Ints

/-- `struct request`. -/
structure Request where
  pid : Int
  seqLen : Int
  deriving DecidableEq

/-- Where the server is: what it has done last. -/
inductive Pc where
  /-- It is not running. -/
  | down
  /-- It has opened `server.conf`. -/
  | opened
  /-- It has read `server.conf`. -/
  | loaded
  /-- It is at the top of its loop. -/
  | ready
  /-- It has read a request. -/
  | received (req : Request)
  /-- It has opened the FIFO of the client. -/
  | connected (req : Request)
  /-- It has tried to write the response. -/
  | answered (req : Request) (sent : Bool)
  /-- It has closed the FIFO and advanced its counter. -/
  | advanced (req : Request) (sent : Bool)
  /-- It has rewound `server.conf`. -/
  | rewound (req : Request) (sent : Bool)
  deriving DecidableEq

structure Server where
  /-- `server.conf`, as the integers in it. -/
  conf : List Int
  /-- The offset of `fd`, in integers. -/
  offset : Nat
  pc : Pc
  seqNum : Int
  /-- The responses written successfully, with the lengths asked for. -/
  responses : List (Int × Int)
  /-- The sum of the lengths of all requests read. -/
  total : Int
  deriving DecidableEq

inductive Event where
  | open
  | load
  | loadFails
  | listen
  | receive (req : Request)
  | discard
  | connect
  | connectFails
  | respond
  | respondFails
  | close
  | rewind
  | save
  | crash

/-- The integers of a file after one of them has been written. -/
def putInt (conf : List Int) (offset : Nat) (x : Int) : List Int :=
  conf.take offset ++ x :: conf.drop (offset + 1)

/-- When an event can happen. -/
def Enabled (s : Server) : Event → Prop
  | .open => s.pc = .down
  | .load => s.pc = .opened
  | .loadFails => s.pc = .opened
  | .listen => s.pc = .loaded
  | .receive _ => s.pc = .ready
  | .discard => s.pc = .ready
  | .connect => ∃ req, s.pc = .received req
  | .connectFails => ∃ req, s.pc = .received req
  | .respond => ∃ req, s.pc = .connected req
  | .respondFails => ∃ req, s.pc = .connected req
  | .close => ∃ req sent, s.pc = .answered req sent
  | .rewind => ∃ req sent, s.pc = .advanced req sent
  | .save => ∃ req sent, s.pc = .rewound req sent
  | .crash => s.pc ≠ .down

/-- What an event does. -/
def next (s : Server) : Event → Server
  | .open => { s with pc := .opened, offset := 0, seqNum := 0 }
  -- An empty file leaves the counter at its initial zero.
  | .load =>
      { s with
        pc := .loaded
        offset := min 1 s.conf.length
        seqNum := s.conf.headD s.seqNum }
  | .loadFails => { s with pc := .loaded }
  | .listen => { s with pc := .ready }
  | .receive req => { s with pc := .received req, total := s.total + req.seqLen }
  | .discard => s
  | .connect =>
      match s.pc with
      | .received req => { s with pc := .connected req }
      | _ => s
  | .connectFails => { s with pc := .ready }
  | .respond =>
      match s.pc with
      | .connected req =>
          { s with
            pc := .answered req true
            responses := s.responses ++ [(s.seqNum, req.seqLen)] }
      | _ => s
  | .respondFails =>
      match s.pc with
      | .connected req => { s with pc := .answered req false }
      | _ => s
  -- The counter is advanced whether or not the response was written.
  | .close =>
      match s.pc with
      | .answered req sent =>
          { s with pc := .advanced req sent, seqNum := wrap (s.seqNum + req.seqLen) }
      | _ => s
  | .rewind =>
      match s.pc with
      | .advanced req sent => { s with pc := .rewound req sent, offset := 0 }
      | _ => s
  | .save =>
      { s with
        pc := .ready
        conf := putInt s.conf s.offset s.seqNum
        offset := s.offset + 1 }
  -- The counter is lost with the process, the file is not.
  | .crash => { s with pc := .down }

/-- One system call of the server, or a crash. -/
def Step (s : Server) (e : Event) (s' : Server) : Prop := Enabled s e ∧ s' = next s e

/-- Before the first start, with what is in `server.conf` then. -/
def initial (conf : List Int) : Server :=
  { conf := conf, offset := 0, pc := .down, seqNum := 0, responses := [], total := 0 }

end SeqServer

end TlpiPractice
