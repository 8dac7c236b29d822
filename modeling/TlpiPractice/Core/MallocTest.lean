import TlpiPractice.Core.GetNum
import TlpiPractice.Library.Loops

/-!
# Allocating and Freeing Blocks

`7-1-malloc_test.c`: the program allocates a number of blocks, and then frees
those whose indices it reaches from a first to a last one in steps. All five
numbers are arguments, read by `getInt`, and the last three of them have
default values.

The blocks that are allocated are kept as their indices. There is no defined
behaviour when a pointer is freed that is not that of an allocated block, or
when the index goes beyond an `int`, which a step can make it do after the
last block has been freed.

What is printed about the program break is left out, and so is the size of the
blocks once it has been read.

## Main definitions

* `Args`: The arguments.
* `arguments`: How they are read.
* `freeTurn`: The body of the loop that frees blocks.
* `Main`: How the program ends.
-/

namespace TlpiPractice

namespace MallocTest

open GetNum Ints Loops

/-- `MAX_ALLOCS`. -/
def maxAllocs : Int := 1000000

structure Args where
  numAllocs : Int
  blockSize : Int
  freeStep : Int
  freeMin : Int
  freeMax : Int
  deriving DecidableEq

/-- A string of the source. -/
def text (s : String) : CString := .ofBytes (ascii s)

/-- What `usageErr` writes. -/
def usageErr (program : List UInt8) : List UInt8 :=
  ascii "Usage: " ++ program ++ ascii " num-allocs block-size [step [min [max]]]\n"

/-- What `cmdLineErr` writes. -/
def cmdLineErr (s : String) : List UInt8 := ascii "Command-line usage error: " ++ ascii s

/-- An argument that may be missing. -/
def getIntOr (arg : Option CString) (name : String) (default : Int) : Except (List UInt8) Int :=
  match arg with
  | none => .ok default
  | some s => getInt (some s) gnGt0 (some (text name))

/-- The arguments, or what is written before the program exits. -/
def arguments (argv : List CString) : Except (List UInt8) Args :=
  match argv with
  | program :: first :: second :: rest =>
      if first = text "--help" then .error (usageErr program.bytes)
      else do
        let numAllocs ← getInt (some first) gnGt0 (some (text "num-allocs"))
        if maxAllocs < numAllocs then .error (cmdLineErr "num-allocs > 1000000\n")
        else
          let blockSize ← getInt (some second) (gnGt0 ||| gnAnyBase) (some (text "block-size"))
          let freeStep ← getIntOr rest[0]? "step" 1
          let freeMin ← getIntOr rest[1]? "min" 1
          let freeMax ← getIntOr rest[2]? "max" numAllocs
          if numAllocs < freeMax then .error (cmdLineErr "free-max > num-allocs\n")
          else .ok ⟨numAllocs, blockSize, freeStep, freeMin, freeMax⟩
  | program :: _ => .error (usageErr program.bytes)
  | [] => .error (usageErr [])

/-- The loop that frees blocks, at the start of a turn. -/
structure Freeing where
  j : Int
  /-- The blocks that are allocated. -/
  live : List Nat
  deriving DecidableEq

/-- The body of the loop, with the test in front of it. There is no result if
    what happens is not defined. -/
def freeTurn (a : Args) (s : Freeing) : Turn Freeing (Option (List Nat)) :=
  if s.j < a.freeMax then
    if 0 ≤ s.j ∧ s.j.toNat ∈ s.live then
      if intMax < s.j + a.freeStep then .done none
      else .again ⟨s.j + a.freeStep, s.live.erase s.j.toNat⟩
    else .done none
  else .done (some s.live)

/-- After the first loop, with all blocks allocated. -/
def allocated (a : Args) : Freeing := ⟨a.freeMin - 1, List.range a.numAllocs.toNat⟩

/-- How the program ends. -/
inductive Ending where
  /-- With a text on standard error, about its arguments. -/
  | exits (text : List UInt8)
  | mallocFails
  | undefined
  /-- At its end, with the blocks that are still allocated. -/
  | finishes (live : List Nat)
  deriving DecidableEq

/-- The program can end like this, where `mallocs` says which calls succeed. -/
def Main (argv : List CString) (mallocs : Nat → Bool) (e : Ending) : Prop :=
  match arguments argv with
  | .error text => e = .exits text
  | .ok a =>
      if ∀ j < a.numAllocs.toNat, mallocs j = true then
        ∃ r, Returns (freeTurn a) (allocated a) r ∧
          e = match r with
            | none => .undefined
            | some live => .finishes live
      else e = .mallocFails

end MallocTest

end TlpiPractice
