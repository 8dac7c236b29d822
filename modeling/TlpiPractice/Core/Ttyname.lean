import TlpiPractice.Library.CString
import TlpiPractice.Library.Memory

/-!
# The Name of a Terminal

The function `my_ttyname` of `62-2-do_ttyname.c`, which looks in `/dev` and in
`/dev/pts` for an entry that is the same device as a descriptor.

It gives up at the first entry that `stat` fails for. It does not ask whether
`/dev/pts` could be opened, and reads it then through a null pointer. A name
from `/dev/pts` is put one byte too far behind `/dev/pts`, so the NUL between
the two ends the string.

No other program changes the two directories.

## Main definitions

* `Entry`, `Dir`: A directory, with what `stat` gives for its entries.
* `scanDir`: The loop over a directory.
* `ttyname`: The function.
-/

namespace TlpiPractice

namespace Ttyname

open Memory

/-- `dev_t`. -/
abbrev Dev := BitVec 64

/-- An entry with what `stat` gives as its device, if it does not fail. -/
structure Entry where
  dName : CString
  stRdev : Option Dev
  noSlash : 47 ∉ dName.bytes
  short : dName.bytes.length ≤ 255

/-- A directory in the order in which it is read, and whether the read behind
    its last entry fails. -/
structure Dir where
  entries : List Entry
  readFails : Bool
  distinct : (entries.map Entry.dName).Nodup

/-- `PATH_MAX`. -/
def pathMax : Nat := 4096

/-- `"/dev/"`. -/
def devSlash : List UInt8 := [47, 100, 101, 118, 47]

/-- `"/pts"`. -/
def slashPts : List UInt8 := [47, 112, 116, 115]

/-- `strcpy`. -/
def strcpy (mem : Nat → UInt8) (to' : Nat) (s : List UInt8) : Nat → UInt8 :=
  store mem to' (s ++ [0])

inductive Scan where
  /-- An entry with this name is the device. -/
  | found (dName : CString)
  /-- `stat` or `readdir` has failed. -/
  | failed
  | ended

/-- The loop over a directory. -/
def scanDir (rdev : Dev) (readFails : Bool) : List Entry → Scan
  | [] => if readFails then .failed else .ended
  | ent :: rest =>
      match ent.stRdev with
      | none => .failed
      | some stRdev =>
          if stRdev = rdev then .found ent.dName else scanDir rdev readFails rest

inductive Outcome where
  /-- The string that is at the pointer, or nothing for a null pointer. -/
  | returned (path : Option (List UInt8))
  | undefined

/-- `my_ttyname`, where `isatty` and `fstat` are what these two give for the
    descriptor, and a directory is missing if it cannot be opened. -/
def ttyname (isatty : Bool) (fstat : Option Dev) (dev pts : Option Dir) : Outcome :=
  let res := strcpy (fun _ => 0) 0 devSlash
  match isatty, fstat, dev with
  | true, some rdev, some dev =>
      match scanDir rdev dev.readFails dev.entries with
      | .found dName =>
          let res := strcpy res 5 dName.bytes
          .returned (some (CString.str (load res 0 pathMax)))
      | .failed => .returned none
      | .ended =>
          let res := strcpy res 4 slashPts
          match pts with
          | none => .undefined
          | some pts =>
              match scanDir rdev pts.readFails pts.entries with
              | .found dName =>
                  let res := strcpy res 9 dName.bytes
                  .returned (some (CString.str (load res 0 pathMax)))
              | .failed => .returned none
              | .ended => .returned none
  | _, _, _ => .returned none

end Ttyname

end TlpiPractice
