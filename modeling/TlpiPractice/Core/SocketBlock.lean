import Mathlib.Logic.Function.Basic
import TlpiPractice.Library.Runs

/-!
# Filling a Socket

`57-1-socket_block.c`: a child writes blocks to one end of a pair of sockets,
and its parent reads from the other end, a block a second. Neither closes an
end, so each of them holds both.

The socket takes a number of bytes that have not been read. A `write` puts its
bytes there in pieces, whenever there is room, and returns when all of them
are there. A `read` returns what there is, up to a block. If nobody holds the
end that is read from, a `write` fails, and if nobody holds the end that is
written to and nothing is left, a `read` returns zero. The two processes take
turns in any order, and either can be killed at any time.

The blocks that have been written are counted without a limit, and what is
printed counts as printed when `printf` is called.

## Main definitions

* `State`: The processes and the bytes on their way.
* `State.held`: Somebody holds an end.
* `Enabled`, `next`, `Step`: When a call can go on and what it does.
-/

namespace TlpiPractice

namespace SocketBlock

/-- The size of `buf`. -/
def blockSize : Nat := 4096

inductive Proc where
  | parent
  | child
  deriving DecidableEq

inductive Status where
  | running
  | killed
  /-- It has ended by itself. -/
  | exited
  deriving DecidableEq

/-- What the child does next. -/
inductive ChildPc where
  /-- `printf("send ")`. -/
  | sending
  /-- `write`, with this many bytes to go. -/
  | writing (left : Nat)
  /-- `printf(" over %d\n", cnt++)`. -/
  | counting
  deriving DecidableEq

/-- What the parent does next. -/
inductive ParentPc where
  /-- `sleep` and `printf("read ")`. -/
  | sleeping
  | reading
  /-- `printf("%d ", read_num)`. -/
  | showing (readNum : Nat)
  deriving DecidableEq

structure State where
  status : Proc → Status
  child : ChildPc
  parent : ParentPc
  /-- The bytes on their way. -/
  inFlight : Nat
  /-- How many bytes have been written. -/
  entered : Nat
  /-- `cnt`. -/
  cnt : Nat
  /-- The numbers that the parent has printed. -/
  shown : List Nat

inductive Event where
  /-- The next call of the child goes on, by `k` bytes if it is a `write`. -/
  | child (k : Nat)
  /-- The next call of the parent returns, with `k` bytes if it is a `read`. -/
  | parent (k : Nat)
  | kill (p : Proc)

/-- Somebody holds this end, or the other one. Both processes hold both until
    they end. -/
def State.held (s : State) : Prop :=
  s.status .parent = .running ∨ s.status .child = .running

instance (s : State) : Decidable s.held :=
  inferInstanceAs (Decidable (_ ∨ _))

/-- When an event can happen. `room` is what the socket takes. -/
def Enabled (room : Nat) (s : State) : Event → Prop
  | .child k =>
      s.status .child = .running ∧
        match s.child with
        | .writing left => ¬ s.held ∨ (0 < k ∧ k ≤ left ∧ s.inFlight + k ≤ room)
        | _ => True
  | .parent k =>
      s.status .parent = .running ∧
        match s.parent with
        | .reading =>
            if k = 0 then s.inFlight = 0 ∧ ¬ s.held else k ≤ blockSize ∧ k ≤ s.inFlight
        | _ => True
  | .kill p => s.status p = .running

/-- The next call of the child. -/
def childStep (s : State) (k : Nat) : State :=
  match s.child with
  | .sending => { s with child := .writing blockSize }
  | .writing left =>
      -- It comes back when the whole block is there.
      if s.held then
        { s with
          inFlight := s.inFlight + k
          entered := s.entered + k
          child := if left = k then .counting else .writing (left - k) }
      -- Nobody holds the other end, and `SIGPIPE` is not caught.
      else { s with status := Function.update s.status .child .exited }
  | .counting => { s with child := .sending, cnt := s.cnt + 1 }

/-- The next call of the parent. -/
def parentStep (s : State) (k : Nat) : State :=
  match s.parent with
  | .sleeping => { s with parent := .reading }
  | .reading => { s with inFlight := s.inFlight - k, parent := .showing k }
  | .showing readNum => { s with parent := .sleeping, shown := s.shown ++ [readNum] }

def next (s : State) : Event → State
  | .child k => childStep s k
  | .parent k => parentStep s k
  | .kill p => { s with status := Function.update s.status p .killed }

def Step (room : Nat) (s : State) (e : Event) (s' : State) : Prop :=
  Enabled room s e ∧ s' = next s e

/-- After the `fork`. -/
def initial : State where
  status := fun _ => .running
  child := .sending
  parent := .sleeping
  inFlight := 0
  entered := 0
  cnt := 0
  shown := []

end SocketBlock

end TlpiPractice
