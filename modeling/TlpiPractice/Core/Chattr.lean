import TlpiPractice.Library.CString
import TlpiPractice.Library.Loops

/-!
# Changing the Attributes of a File

The program `15-7-my_chattr.c`, which changes the attributes of a file by a
mode such as `+a`, from where it has its two arguments.

The operator is looked for at the head of the file's name, in place of the
mode's. The attributes are only fetched for `=`, and for the other two the
program gives up there. The loop over the letters asks whether the mode is
empty and not whether it has come to its end, so it goes on to the NUL behind
the letters. There, and at a letter that it does not know, `FLAG` has no value
and is used.

The flags have the values of `linux/fs.h`, which the file does not include.

## Main definitions

* `flag`: The `switch` on a letter.
* `flagTurn`: The body of the loop over the letters.
* `main`: The program.
-/

namespace TlpiPractice

namespace Chattr

open Loops

/-- `'+'`, `'-'` or `'='`. -/
def isOperator (c : UInt8) : Bool := c == 43 || c == 45 || c == 61

/-- The value that `FLAG` gets, or none. -/
def flag : UInt8 → Option (BitVec 32)
  -- `'a'`: `FS_APPEND_FL`.
  | 97 => some 0x20
  -- `'c'`: `FS_COMPR_FL`.
  | 99 => some 0x4
  -- `'D'`: `FS_DIRSYNC_FL`.
  | 68 => some 0x10000
  -- `'i'`: `FS_IMMUTABLE_FL`.
  | 105 => some 0x10
  -- `'j'`: `FS_JOURNAL_DATA_FL`.
  | 106 => some 0x4000
  -- `'A'`: `FS_NOATIME_FL`.
  | 65 => some 0x80
  -- `'d'`: `FS_NODUMP_FL`.
  | 100 => some 0x40
  -- `'t'`: `FS_NOTAIL_FL`.
  | 116 => some 0x8000
  -- `'s'`: `FS_SECRM_FL`.
  | 115 => some 0x1
  -- `'S'`: `FS_SYNC_FL`.
  | 83 => some 0x8
  -- `'T'`: `FS_TOPDIR_FL`.
  | 84 => some 0x20000
  -- `'u'`: `FS_UNRM_FL`.
  | 117 => some 0x2
  | _ => none

/-- The body of the loop over the letters, at `i` and with `attr`. The result
    is the value of `attr` behind the loop, or none where what happens is not
    defined. -/
def flagTurn (arg : CString) : Nat × BitVec 32 → Turn (Nat × BitVec 32) (Option (BitVec 32))
  | (i, attr) =>
      match arg.bytes.head? with
      | none => .done (some attr)
      | some op =>
          -- The NUL is behind the last letter.
          match flag (arg.bytes.getD i 0) with
          | none => .done none
          | some FLAG => .again (i + 1, if op = 61 then attr &&& FLAG else attr ||| FLAG)

/-- Whether `open`, the request for the attributes and the one that sets them
    succeed. -/
structure Calls where
  opens : Bool
  gets : Bool
  sets : Bool

inductive Outcome where
  /-- `return 0`, with the attributes of the file. -/
  | returned (attrs : BitVec 32)
  /-- The program has given up. -/
  | exited (attrs : BitVec 32)
  | undefined
  deriving DecidableEq

/-- The program with the mode `arg`, for a file with the attributes `attrs`,
    with at most `fuel` turns of the loop. -/
def main (fuel : Nat) (calls : Calls) (arg file : CString) (attrs : BitVec 32) : Option Outcome :=
  match file.bytes.head?.map isOperator with
  | some true =>
      if calls.opens = false then some (.exited attrs)
      else if file.bytes.head? ≠ some 61 then some (.exited attrs)
      else if calls.gets = false then some (.exited attrs)
      else
        match run (flagTurn arg) fuel (1, attrs) with
        | none => none
        | some none => some .undefined
        | some (some attr) =>
            if calls.sets then some (.returned attr) else some (.exited attrs)
  -- `usageErr`.
  | _ => some (.exited attrs)

end Chattr

end TlpiPractice
