import Mathlib.Logic.Function.Basic
import TlpiPractice.Library.ByteFile

/-!
# Copying Through Memory

`49-1-my_cp.c`. Both files are mapped, and `memcpy` copies the one into the
other. The file that is written gets the length of the other one first, and the
names may be names of one file.

Any call can fail, and then `errExit` ends the program: with the status 1, as
`EF_DUMPCORE` is not set here. A mapping of no bytes always fails. `memcpy`
copies the bytes in any order, and the process can be killed before it has
copied all of them.

A file that is made is one that had no name before. The bytes of a page behind
the end of a file are not part of it and left out.

## Main definitions

* `Files`: Names and contents.
* `Kernel`: Which calls fail, and which file is made.
* `memcpy`: Some bytes are copied.
* `main`: How the program ends, and the files then.
-/

namespace TlpiPractice

namespace MmapCopy

open ByteFile

structure Files (ν ι : Type) where
  name : ν → Option ι
  content : ι → List UInt8

inductive Call where
  | openSource
  | openDest
  | fstat
  | ftruncate
  | mmapSource
  | mmapDest
  deriving DecidableEq

structure Kernel (ι : Type) where
  fails : Call → Bool
  /-- The file that is made. -/
  fresh : ι

inductive Outcome where
  | exited (status : Nat)
  | killed
  deriving DecidableEq

variable {ν ι : Type} [DecidableEq ν] [DecidableEq ι]

/-- `open` with `O_CREAT`. -/
def openDest (fresh : ι) (s : Files ν ι) (dest : ν) : ι × Files ν ι :=
  match s.name dest with
  | some w => (w, s)
  | none =>
      (fresh, { name := Function.update s.name dest (some fresh)
                content := Function.update s.content fresh [] })

/-- The file becomes shorter, or gets zeros at its end. -/
def ftruncate (s : Files ν ι) (w : ι) (size : Nat) : Files ν ι :=
  { s with
    content := Function.update s.content w
      ((s.content w).take size ++ List.replicate (size - (s.content w).length) 0) }

/-- One byte is copied from one mapping to the other. -/
def copyByte (r w : ι) (s : Files ν ι) (i : Nat) : Files ν ι :=
  { s with
    content := Function.update s.content w
      (writeAt (s.content w) i [byteAt (s.content r) i]) }

/-- The bytes at these places are copied, in this order. -/
def memcpy (r w : ι) (places : List Nat) (s : Files ν ι) : Files ν ι :=
  places.foldl (copyByte r w) s

/-- `main`, where `places` are those of the `size` bytes that have been copied
    when `memcpy` returns or the process is killed, and `EF_DUMPCORE` is not
    set. -/
def main (K : Kernel ι) (places : List Nat) (source dest : ν) (s : Files ν ι) :
    Outcome × Files ν ι :=
  if K.fails .openSource then (.exited 1, s)
  else
    match s.name source with
    | none => (.exited 1, s)
    | some r =>
        if K.fails .openDest then (.exited 1, s)
        else
          let (w, s) := openDest K.fresh s dest
          if K.fails .fstat then (.exited 1, s)
          else
            let size := (s.content r).length
            if K.fails .ftruncate then (.exited 1, s)
            else
              let s := ftruncate s w size
              -- A length of zero is not allowed.
              if K.fails .mmapSource ∨ size = 0 then (.exited 1, s)
              else if K.fails .mmapDest then (.exited 1, s)
              else
                let copied := places.filter (fun i => decide (i < size))
                let s := memcpy r w copied s
                if ∀ i < size, i ∈ copied then (.exited 0, s) else (.killed, s)

end MmapCopy

end TlpiPractice
