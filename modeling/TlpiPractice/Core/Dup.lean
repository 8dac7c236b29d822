import TlpiPractice.Library.Descriptors

/-!
# Duplicating a Descriptor With `fcntl`

The functions `mydup` and `mydup2` of `5-4-fcntl_to_dup.c`, which do what
`dup` and `dup2` do with the request `F_DUPFD`.

The second closes the new descriptor if it is open, and then asks for the
lowest free one that is not below it. It closes it before it knows that the
request will not fail.

There is one thread. A descriptor is what it refers to, and the request fails
for a number that is not below the limit.

## Main definitions

* `State`: The descriptors and `errno`.
* `fcntlGetfl`, `fcntlDupfd`: The requests.
* `mydup`, `mydup2`: The functions.
-/

namespace TlpiPractice

namespace Dup

open Descriptors

variable {δ : Type*}

/-- `EBADF`. -/
def ebadf : Int := 9

/-- `EINVAL`. -/
def einval : Int := 22

/-- `EMFILE`. -/
def emfile : Int := 24

/-- The descriptors of the process, and `errno`. -/
structure State (δ : Type*) where
  table : Table δ
  errno : Int

/-- What a number refers to. -/
def lookup (t : Table δ) (fd : Int) : Option δ := if fd < 0 then none else t fd.toNat

/-- `fcntl(fd, F_GETFL)`, and whether it gives something other than -1. -/
def fcntlGetfl (s : State δ) (fd : Int) : Bool × State δ :=
  match lookup s.table fd with
  | none => (false, { s with errno := ebadf })
  | some _ => (true, s)

/-- `close`. -/
def close (s : State δ) (fd : Int) : State δ :=
  match lookup s.table fd with
  | none => { s with errno := ebadf }
  | some _ => { s with table := Descriptors.close s.table fd.toNat }

/-- `fcntl(oldfd, F_DUPFD, low)`. -/
def fcntlDupfd (limit : Nat) (s : State δ) (oldfd low : Int) : Int × State δ :=
  match lookup s.table oldfd with
  | none => (-1, { s with errno := ebadf })
  | some d =>
      if low < 0 ∨ (limit : Int) ≤ low then (-1, { s with errno := einval })
      else
        match lowestFree limit s.table low.toNat with
        | none => (-1, { s with errno := emfile })
        | some fd => (fd, { s with table := Function.update s.table fd (some d) })

/-- `mydup`. -/
def mydup (limit : Nat) (s : State δ) (oldfd : Int) : Int × State δ := fcntlDupfd limit s oldfd 0

/-- `mydup2`. -/
def mydup2 (limit : Nat) (s : State δ) (oldfd newfd : Int) : Int × State δ :=
  if newfd < 0 then (-1, s)
  else
    match fcntlGetfl s oldfd with
    | (false, s) => (-1, { s with errno := ebadf })
    | (true, s) =>
        if oldfd = newfd then (newfd, s)
        else
          match fcntlGetfl s newfd with
          | (false, s) => fcntlDupfd limit s oldfd newfd
          | (true, s) => fcntlDupfd limit (close s newfd) oldfd newfd

end Dup

end TlpiPractice
