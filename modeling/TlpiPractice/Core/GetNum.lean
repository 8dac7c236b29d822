import TlpiPractice.Library.CString
import TlpiPractice.Library.Ints
import TlpiPractice.Library.Numerals

/-!
# Numeric Arguments

`get_num.c`, which the programs read the numbers on their command lines with.
A number that is not accepted ends the process, with a text on standard error
that says what is wrong with it.

`long` has 64 bits. The flags are a bit mask.

## Main definitions

* `gnFail`: What is written when a number is not accepted.
* `getNum`: What the two functions have in common.
* `getLong`, `getInt`: The functions.
-/

namespace TlpiPractice

namespace GetNum

open Ints Numerals

def longMin : Int := -9223372036854775808

def longMax : Int := 9223372036854775807

/-- `GN_NONNEG`. -/
def gnNonneg : Nat := 1

/-- `GN_GT_0`. -/
def gnGt0 : Nat := 2

/-- `GN_ANY_BASE`. -/
def gnAnyBase : Nat := 64

/-- `GN_BASE_8`. -/
def gnBase8 : Nat := 128

/-- `GN_BASE_16`. -/
def gnBase16 : Nat := 256

def hasFlag (flags flag : Nat) : Bool := flags &&& flag != 0

/-- The bytes of a text of the program. -/
def ascii (s : String) : List UInt8 := s.toList.map (fun c => UInt8.ofNat c.toNat)

/-- What is written to `stderr` before the process exits. A null pointer is
    `none`. -/
def gnFail (fname msg : String) (arg name : Option CString) : List UInt8 :=
  ascii fname ++ ascii " error" ++
    (match name with
      | some s => ascii " (in " ++ s.bytes ++ ascii ")"
      | none => []) ++
    ascii ": " ++ ascii msg ++ [10] ++
    match arg with
    | some s =>
        if s.bytes = [] then [] else ascii "        offending text: " ++ s.bytes ++ [10]
    | none => []

/-- `base`. -/
def baseOf (flags : Nat) : Nat :=
  if hasFlag flags gnAnyBase then 0
  else if hasFlag flags gnBase8 then 8
  else if hasFlag flags gnBase16 then 16
  else 10

/-- The number, or what is written before the process exits. -/
def getNum (fname : String) (arg : Option CString) (flags : Nat) (name : Option CString) :
    Except (List UInt8) Int :=
  match arg with
  | none => .error (gnFail fname "null or empty string" arg name)
  | some s =>
      let r := strtol longMin longMax (baseOf flags) s.bytes
      if s.bytes = [] then .error (gnFail fname "null or empty string" arg name)
      else if r.erange then .error (gnFail fname "strtol() failed" arg name)
      else if r.rest ≠ [] then .error (gnFail fname "nonnumeric characters" arg name)
      else if hasFlag flags gnNonneg ∧ r.result < 0 then
        .error (gnFail fname "negative value not allowed" arg name)
      else if hasFlag flags gnGt0 ∧ r.result ≤ 0 then
        .error (gnFail fname "value must be > 0" arg name)
      else .ok r.result

def getLong (arg : Option CString) (flags : Nat) (name : Option CString) :
    Except (List UInt8) Int :=
  getNum "getLong" arg flags name

def getInt (arg : Option CString) (flags : Nat) (name : Option CString) :
    Except (List UInt8) Int :=
  match getNum "getInt" arg flags name with
  | .error text => .error text
  | .ok res =>
      if intMax < res ∨ res < intMin then
        .error (gnFail "getInt" "integer out of range" arg name)
      else .ok res

end GetNum

end TlpiPractice
