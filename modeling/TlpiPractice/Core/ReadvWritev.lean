import TlpiPractice.Library.Ints
import TlpiPractice.Library.Memory

/-!
# Scatter and Gather

`my_readv` and `my_writev` of `5-7-my_readv_writev.c`. Each makes one system
call on a buffer of its own, which is as long as all the caller's buffers
together, and copies between it and them.

A block that `malloc` returns lies outside the caller's memory, so it is a
memory of its own. Whether there is one for the size that is asked for, and
what is in it at first, is a parameter, and so is the answer of the kernel to
the one system call. Neither function looks at the result of `malloc`: without
a block `read` has nowhere to put anything, and the copies of `my_writev` go to
`NULL`.

## Main definitions

* `Iovec`: `struct iovec`.
* `Read`: The system call `read`.
* `totalSpace`: The sum both functions begin with.
* `myReadv`: Read, and copy into the buffers.
* `myWritev`: Copy out of the buffers, and write.
* `copies`: The copies of the second, one by one.
-/

namespace TlpiPractice

namespace ReadvWritev

open Ints Memory

/-- `struct iovec`. -/
structure Iovec where
  iovBase : Nat
  iovLen : Nat
  deriving DecidableEq

/-- The system call `read`: nothing on failure, else the bytes read. It is asked
    for a number of bytes and has a buffer or `NULL` to put them. -/
structure Read where
  answer : Bool → Nat → Option (List UInt8)
  length_le : ∀ buffer count data, answer buffer count = some data → data.length ≤ count
  null : ∀ count data, answer false count = some data → data = []

/-- The sum of the lengths, in a `ssize_t`. -/
def totalSpace : List Iovec → Int → Int
  | [], total => total
  | v :: iov, total => totalSpace iov (wrapLong (total + v.iovLen))

/-- How many bytes the buffer gets: the comparison is unsigned, the result an
    `int`. -/
def chunk (total ind : Int) (v : Iovec) : Int :=
  if v.iovLen < toSize (wrapLong (total - ind)) then wrap v.iovLen
  else wrap (wrapLong (total - ind))

/-- The loop of `my_readv`: the buffers are filled one after the other. -/
def scatter (buffer : Nat → UInt8) (total : Int) :
    List Iovec → Int → (Nat → UInt8) → Nat → UInt8
  | [], _, mem => mem
  | v :: iov, ind, mem =>
      if ind < total then
        scatter buffer total iov (wrap (ind + chunk total ind v))
          (store mem v.iovBase (load buffer ind.toNat (toSize (chunk total ind v))))
      else mem

/-- `my_readv`. The result is what is returned, and the memory. -/
def myReadv (mem : Nat → UInt8) (iov : List Iovec) (malloc : Nat → Option (Nat → UInt8))
    (read : Read) : Int × (Nat → UInt8) :=
  let size := toSize (totalSpace iov 0)
  let buffer := malloc size
  match read.answer buffer.isSome size with
  | none => (-1, mem)
  | some data =>
      if (data.length : Int) ≤ 0 then (data.length, mem)
      else
        match buffer with
        | some junk => (data.length, scatter (store junk 0 data) data.length iov 0 mem)
        -- `read` has put nothing to `NULL`.
        | none => (data.length, mem)

/-- The loop of `my_writev`: the buffers are put one behind the other. -/
def gather (mem : Nat → UInt8) : List Iovec → Int → (Nat → UInt8) → Nat → UInt8
  | [], _, buffer => buffer
  | v :: iov, cnt, buffer =>
      -- `cnt` is an `int`.
      gather mem iov (wrap (cnt + v.iovLen))
        (store buffer cnt.toNat (load mem v.iovBase v.iovLen))

/-- The copies that the loop of `my_writev` makes: where in its buffer each of
    them goes, and what is copied. -/
def copies : List Iovec → Int → List (Int × Iovec)
  | [], _ => []
  | v :: iov, cnt => (cnt, v) :: copies iov (wrap (cnt + v.iovLen))

/-- `my_writev`, where `write` returns `answer`. The result is the data of
    every `write`, and what is returned. Without a block to copy to there is
    none. -/
def myWritev (mem : Nat → UInt8) (iov : List Iovec) (malloc : Nat → Option (Nat → UInt8))
    (answer : Int) : Option (List (List UInt8) × Int) :=
  let size := toSize (totalSpace iov 0)
  (malloc size).map (fun junk => ([load (gather mem iov 0 junk) 0 size], answer))

end ReadvWritev

end TlpiPractice
