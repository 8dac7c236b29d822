import Mathlib.Logic.Function.Basic
import TlpiPractice.Library.Environment
import TlpiPractice.Library.Ints
import TlpiPractice.Library.Loops

/-!
# Setting and Unsetting Variables

`setenv` and `unsetenv` of `6-3-environ.c`.

`setenv` puts a string together and hands it to `putenv`. The lengths are kept
in an `int`, so one of 2^31 or more comes out negative or too small. A length
that is negative, as a size, is larger than any block, and a string that is
copied without its NUL has no end.

`unsetenv` works on the array that `environ` points to. One loop moves the
strings that stay to the front, a second one puts NULL behind them.

## Main definitions

* `Outcome`: How a call ends.
* `setenv`: The first function.
* `moveTurn`, `clearTurn`: The bodies of the loops of the second.
* `unsetenv`: The second function.
-/

namespace TlpiPractice

namespace Environ

open Environment Ints Loops

/-- How a call ends, where `ε` is what an environment is. -/
inductive Outcome (ε : Type) where
  | returned (result : Int) (env : ε)
  /-- A null pointer is followed. -/
  | crashed
  | undefined

/-- How the calls of `setenv` go. -/
structure Calls where
  malloc : Bool
  putenv : Bool
  deriving DecidableEq

/-- What is copied of a name: as many bytes as the length says. -/
def copiedName (name : CString) : List UInt8 :=
  name.bytes.take (wrap name.bytes.length).toNat

/-- The bytes in `buffer`: the name, a `=`, and the value with its NUL, if
    that is copied too. -/
def buffer (name value : CString) : List UInt8 :=
  copiedName name ++
    eqSign :: (value.bytes ++ [0]).take ((wrap value.bytes.length).toNat + 1)

def setenv (env : List CString) (name value : CString) (overwrite : Int) (calls : Calls) :
    Outcome (List CString) :=
  -- It is the absent variable that is left alone.
  if getenv env name.bytes = none ∧ overwrite = 0 then .returned 0 env
  else
    let lenName := wrap name.bytes.length
    let lenValue := wrap value.bytes.length
    -- The sum is an `int` too.
    if lenName < 0 ∨ lenValue < 0 ∨ intMax < lenName + lenValue + 2 then .undefined
    else if calls.malloc = false then .crashed
    else if 0 ∉ buffer name value then .undefined
    else if calls.putenv = false then .returned (-1) env
    else .returned 0 (putenv env (.ofBytes (buffer name value)))

/-- What `environ` points to: a pointer may be NULL. -/
abbrev Cells := Nat → Option CString

/-- The loops of `unsetenv`, at the start of a turn. -/
structure Scan where
  environ : Cells
  i : Nat
  j : Nat

/-- The body of the first loop. It is done at the NULL, or when an `int` is too
    small for `j`. -/
def moveTurn (name : CString) (s : Scan) : Turn Scan (Option Scan) :=
  match s.environ s.j with
  | none => .done (some s)
  | some entry =>
      if intMax ≤ s.j then .done none
      -- The name may be anywhere in the string.
      else if CString.strstr entry.bytes name.bytes = none then
        .again ⟨Function.update s.environ s.i (some entry), s.i + 1, s.j + 1⟩
      else .again { s with j := s.j + 1 }

/-- The body of the second loop, in which `i` is not increased. -/
def clearTurn (s : Scan) : Turn Scan Cells :=
  if s.i < s.j then .again { s with environ := Function.update s.environ s.i none }
  else .done s.environ

/-- `unsetenv`, with at most `fuel` turns of each loop. -/
def unsetenv (fuel : Nat) (environ : Cells) (name : CString) : Option (Outcome Cells) :=
  match run (moveTurn name) fuel ⟨environ, 0, 0⟩ with
  | none => none
  | some none => some .undefined
  | some (some s) => (run clearTurn fuel s).map (.returned 0)

end Environ

end TlpiPractice
