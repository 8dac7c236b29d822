import TlpiPractice.Library.Loops

/-!
# Sendfile by Read and Write

`my_sendfile` of `61-3-do_sendfile_with_read_write.c`.

The position of `in_fd` is asked for and set, one `read` fills a buffer, and a
loop writes the buffer. The position that is set is the pointer `offset` as a
number, and not what it points to. `origin` is not looked at again, and neither
is `*offset`. The loop is a `while (1)` that only an error leaves, so the
`return` behind it is never reached.

The kernel decides how the calls go. A `write` that is asked for some bytes
takes at most as many, and one that is asked for none takes none.

## Main definitions

* `Kernel`: How the system calls go.
* `Files`: The input, the output and `*offset`.
* `turn`: The body of the loop.
* `mySendfile`: What is returned, and the files then.
-/

namespace TlpiPractice

namespace Sendfile

open Loops

/-- How a `write` goes. -/
inductive Answer where
  /-- It is interrupted, `EINTR`. -/
  | eintr
  /-- Any other error. -/
  | failed
  /-- It takes as many bytes, or all there are. -/
  | wrote (n : Nat)
  deriving DecidableEq

/-- How the system calls go. -/
structure Kernel where
  /-- `in_fd` has a position. -/
  tells : Bool
  /-- It can be set to this one. -/
  seeks : Nat → Bool
  /-- The largest buffer for which there is room on the stack. -/
  stack : Nat
  /-- A `read` fails, or gets at most as many bytes. -/
  read : Option Nat
  /-- The calls of `write`, by how many there were before. -/
  write : Nat → Answer

structure Files where
  input : List UInt8
  /-- The position of `in_fd`. -/
  position : Nat
  /-- What `out_fd` has received. -/
  output : List UInt8
  /-- `*offset`. -/
  offset : Nat
  deriving DecidableEq

inductive Outcome where
  | returned (result : Int) (files : Files)
  /-- There is no room for the buffer. -/
  | overflowed
  deriving DecidableEq

/-- The loop, at the start of a turn. -/
structure Sending where
  sendTotal : Nat
  output : List UInt8
  /-- How many calls of `write` there were. -/
  writes : Nat

/-- The body of the loop, where `buf` is what has been read. -/
def turn (K : Kernel) (buf : List UInt8) (s : Sending) : Turn Sending (Int × List UInt8) :=
  match K.write s.writes with
  | .eintr => .again { s with writes := s.writes + 1 }
  | .failed => .done (-1, s.output)
  | .wrote n =>
      .again
        { sendTotal := s.sendTotal + ((buf.drop s.sendTotal).take n).length
          output := s.output ++ (buf.drop s.sendTotal).take n
          writes := s.writes + 1 }

/-- `my_sendfile`, with at most `fuel` turns of the loop. The pointer `offset`
    is the number `address`. -/
def mySendfile (K : Kernel) (fuel : Nat) (s : Files) (address : Int) (count : Nat) :
    Option Outcome :=
  if K.tells = false then some (.returned (-1) s)
  -- The pointer, and not what it points to, is the new position.
  else if address < 0 ∨ K.seeks address.toNat = false then some (.returned (-1) s)
  else if K.stack < count then some .overflowed
  else
    match K.read with
    | none => some (.returned (-1) { s with position := address.toNat })
    | some n =>
        let buf := ((s.input.drop address.toNat).take count).take n
        (run (turn K buf) fuel ⟨0, s.output, 0⟩).map (fun r =>
          .returned r.1 { s with position := address.toNat + buf.length, output := r.2 })

end Sendfile

end TlpiPractice
