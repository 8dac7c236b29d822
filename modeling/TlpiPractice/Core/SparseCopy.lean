import TlpiPractice.Library.ByteFile
import TlpiPractice.Library.Ints

/-!
# The Sparse Copy

The copy of `4-2-cp.c`, from a source that is read in blocks of at most
`BUF_SIZE` bytes to a destination that exists and is not truncated.

Bytes other than zero are collected in `wbuf` and written when a zero or the
end of the source follows. Zeros are counted and turned into one `lseek` when
another byte follows. Neither counter is checked. A stretch of more than
`BUF_SIZE` bytes without a zero is stored past the end of `wbuf`, and
`zero_cnt` is an `int`. The new offset that `lseek` returns is kept in an
`int` too, and compared with `-1` there. After the loop the bytes in `wbuf`
are written, but zeros that have been counted are forgotten.

The state is that of the process together with the destination file and its
offset. A process that has ended, or has done what C leaves undefined, stays
as it is. `wbuf` holds the bytes stored in it so far, so `write_index` is its
length. `zero_cnt` never decreases except to zero and is a natural number.

What `int` can hold, and how an offset is converted to it, is a parameter:
`int32` for the machine, `unbounded` for a program whose counters never run
out.

The kernel decides how each system call goes, and by their order which one
is meant. A `write` may fail, or take fewer bytes than it was given, which the
program does not notice.

## Main definitions

* `CInt`: What `int` can hold.
* `Kernel`: How the system calls go.
* `Block`: What one `read` returns.
* `Copy`: The process, the destination and its offset.
* `copyByte`: The body of the inner loop.
* `main`: The program.
-/

namespace TlpiPractice

namespace SparseCopy

open ByteFile

/-- `BUF_SIZE`. -/
def bufSize : Nat := 1024

/-- `OPEN_FAILURE`. -/
def openFailure : Int := -10001

/-- `READ_FAILURE`. -/
def readFailure : Int := -10002

/-- `WRITE_FAILURE`. -/
def writeFailure : Int := -10003

/-- `LSEEK_FAILURE`. -/
def lseekFailure : Int := -10004

/-- An integer type for counters: its largest value, if it has one, and the
    conversion of a file offset to it. -/
structure CInt where
  max : Option Nat
  ofOff : Int → Int

/-- Whether a counter can take this value. -/
def CInt.holds (A : CInt) (n : Nat) : Bool := A.max.all (fun m => decide (n ≤ m))

/-- Two's complement of 32 bits. -/
def int32 : CInt where
  max := some Ints.intMax.toNat
  ofOff := Ints.wrap

/-- Integers without bounds. -/
def unbounded : CInt where
  max := none
  ofOff := fun x => x

/-- How the system calls go. Those on the destination are told apart by how
    many there were before. A `write` fails, or takes at most the given number
    of bytes. -/
structure Kernel where
  opensSource : Bool
  opensDest : Bool
  write : Nat → Option Nat
  lseek : Nat → Bool
  /-- The `read` after the last block reports the end of the source. -/
  readsEnd : Bool

/-- What a `read` returns before the end of the source. -/
structure Block where
  bytes : List UInt8
  ne_nil : bytes ≠ []
  length_le : bytes.length ≤ bufSize

/-- The system calls on the destination, at the offset before them. A `write`
    gives the number of bytes taken. -/
inductive Sys where
  | write (off : Nat) (data : List UInt8) (taken : Option Nat)
  | lseek (off : Nat) (dist : Nat) (done : Bool)
  deriving DecidableEq

inductive Status where
  | running
  /-- `main` has returned 0. -/
  | returned
  | exited (code : Int)
  /-- A store past the end of `wbuf`, or an overflow of `zero_cnt`. -/
  | undefined
  deriving DecidableEq

structure Copy where
  dest : List UInt8
  /-- The offset of `wfd`. -/
  offset : Nat
  /-- `wbuf` up to `write_index`. -/
  wbuf : List UInt8
  zeroCnt : Nat
  status : Status
  /-- The calls on the destination so far. -/
  calls : List Sys
  deriving DecidableEq

/-- `write(wfd, wbuf, write_index)`, and what follows when it fails. -/
def writeOut (K : Kernel) (s : Copy) : Copy :=
  match K.write s.calls.length with
  | none =>
      { s with
        status := .exited writeFailure
        calls := s.calls ++ [.write s.offset s.wbuf none] }
  -- A short write is not noticed: `write_index` goes back to zero all the same.
  | some k =>
      { s with
        dest := writeAt s.dest s.offset (s.wbuf.take k)
        offset := s.offset + (s.wbuf.take k).length
        wbuf := []
        calls := s.calls ++ [.write s.offset s.wbuf (some (s.wbuf.take k).length)] }

/-- The write of what is in `wbuf`, if anything is. -/
def flush (K : Kernel) (s : Copy) : Copy :=
  if s.wbuf = [] then s else writeOut K s

/-- `curr = lseek(wfd, zero_cnt, SEEK_CUR)`, and what follows. -/
def seek (A : CInt) (K : Kernel) (s : Copy) : Copy :=
  if K.lseek s.calls.length = true then
    -- The offset is right, but as an `int` it may look like a failure.
    if A.ofOff (s.offset + s.zeroCnt : Nat) = -1 then
      { s with
        offset := s.offset + s.zeroCnt
        status := .exited lseekFailure
        calls := s.calls ++ [.lseek s.offset s.zeroCnt true] }
    else
      { s with
        offset := s.offset + s.zeroCnt
        zeroCnt := 0
        calls := s.calls ++ [.lseek s.offset s.zeroCnt true] }
  else
    { s with
      status := .exited lseekFailure
      calls := s.calls ++ [.lseek s.offset s.zeroCnt false] }

/-- The seek over the zeros counted, if there are any. -/
def skip (A : CInt) (K : Kernel) (s : Copy) : Copy :=
  if s.zeroCnt = 0 then s else seek A K s

/-- `zero_cnt++`. -/
def countZero (A : CInt) (s : Copy) : Copy :=
  if A.holds (s.zeroCnt + 1) = true then { s with zeroCnt := s.zeroCnt + 1 }
  else { s with status := .undefined }

/-- `wbuf[write_index++] = rbuf[i]`. -/
def store (s : Copy) (b : UInt8) : Copy :=
  if s.wbuf.length < bufSize then { s with wbuf := s.wbuf ++ [b] }
  else { s with status := .undefined }

/-- Goes on only while the process runs. -/
def Copy.andThen (s : Copy) (f : Copy → Copy) : Copy :=
  if s.status = .running then f s else s

/-- The body of the inner loop. -/
def copyByte (A : CInt) (K : Kernel) (s : Copy) (b : UInt8) : Copy :=
  s.andThen (fun s =>
    -- A zero is counted, after the bytes before it have been written.
    if b = 0 then (flush K s).andThen (countZero A)
    else (skip A K s).andThen (fun s => store s b))

/-- The inner loop over one block. -/
def copyBlock (A : CInt) (K : Kernel) (s : Copy) (block : Block) : Copy :=
  block.bytes.foldl (copyByte A K) s

/-- What follows the outer loop. -/
def finish (K : Kernel) (s : Copy) : Copy :=
  -- Only the bytes in `wbuf` are seen to; `zero_cnt` is not looked at again.
  if K.readsEnd = true then (flush K s).andThen (fun s => { s with status := .returned })
  else { s with status := .exited readFailure }

/-- The process before the loop. -/
def opened (old : List UInt8) : Copy :=
  { dest := old, offset := 0, wbuf := [], zeroCnt := 0, status := .running, calls := [] }

/-- The program: the source is read as `blocks`, the destination contains
    `old`. -/
def main (A : CInt) (K : Kernel) (blocks : List Block) (old : List UInt8) : Copy :=
  if K.opensSource = true ∧ K.opensDest = true then
    (blocks.foldl (copyBlock A K) (opened old)).andThen (finish K)
  else { opened old with status := .exited openFailure }

/-- The bytes of the source. -/
def source (blocks : List Block) : List UInt8 := (blocks.map Block.bytes).flatten

end SparseCopy

end TlpiPractice
