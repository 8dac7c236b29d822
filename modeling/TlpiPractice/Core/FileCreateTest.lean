import TlpiPractice.Library.CString
import TlpiPractice.Library.LinkedList
import TlpiPractice.Library.Loops

/-!
# Creating and Removing Many Files

The program `14-1-file_create_test.c`, which creates a number of files with
random names in its directory and removes them in the order of their names,
from where it has the number.

A file is created with `O_EXCL`, so a name that is there already is given up
for the next random one. The names that have been created are kept in a list
in order, behind a dummy node without a name. No other program changes the
directory. The nodes are freed at the end, which is left out.

It is given what every call of `rand` gives, and which calls fail.

## Main definitions

* `Heap`: The nodes of the list.
* `insert`: The function.
* `createTurn`: The body of the loop that creates the files.
* `unlinkLoop`: The loop that removes them.
* `main`: The program.
-/

namespace TlpiPractice

namespace FileCreateTest

open Loops

/-- The `struct file_node`s that have been allocated, which are those with the
    numbers below `brk`, and `arr` is the first. -/
structure Heap where
  filename : Nat → Option CString
  next : Nat → Option Nat
  brk : Nat

/-- How a run ends that does not come to its `return 0`. -/
inductive Stop where
  /-- `errExit` or `usageErr`. -/
  | exited
  /-- A null pointer is used. -/
  | undefined
  /-- The run goes on. -/
  | unfinished
  deriving DecidableEq

/-- `init`. -/
def init (mem : Bool) : Except Stop Heap :=
  if mem then .ok ⟨fun _ => none, fun _ => none, 1⟩ else .error .undefined

/-- The body of the loop in `insert`, with `p` and `pre`. The result is where
    the new node goes, or none if a null pointer is used. -/
def insertTurn (h : Heap) (filename : CString) :
    Option Nat × Option Nat → Turn (Option Nat × Option Nat) (Option (Option Nat × Option Nat))
  | (none, pre) => .done (some (none, pre))
  | (some p, pre) =>
      match h.filename p with
      | none => .done none
      | some other =>
          if CString.strcmp filename.bytes other.bytes < 0 then .done (some (some p, pre))
          else
            match pre with
            | none => .done none
            | some pre => .again (h.next p, h.next pre)

/-- `insert`, with at most `fuel` turns of its loop, where `mem` says whether
    there is memory for the node and for the name. -/
def insert (fuel : Nat) (h : Heap) (filename : CString) (mem : Bool × Bool) : Except Stop Heap :=
  match run (insertTurn h filename) fuel (h.next 0, some 0) with
  | none => .error .unfinished
  | some none => .error .undefined
  | some (some (p, pre)) =>
      match mem, pre with
      | (true, true), some pre =>
          let tmp := h.brk
          .ok ⟨Function.update h.filename tmp (some filename),
            Function.update (Function.update h.next tmp p) pre (some tmp), tmp + 1⟩
      | _, _ => .error .undefined

/-- `"x%06d"`, for a number with at most six digits. -/
def nameOf (code : Nat) : CString :=
  .ofBytes (120 :: [100000, 10000, 1000, 100, 10, 1].map (fun d =>
    UInt8.ofNat (48 + code / d % 10)))

/-- The directory by its names, the list, what has been counted, and the names
    of the files that have been created and removed. -/
structure State where
  dir : CString → Option (List UInt8)
  heap : Heap
  i : Nat
  created : List CString
  unlinked : List CString

/-- What a turn of the first loop gets: the result of `rand`, whether `open`
    fails for another reason than that the name is there, what `write` gives,
    and whether there is memory. -/
structure Event where
  rand : Nat
  openFails : Bool
  written : Option Nat
  mem : Bool × Bool

/-- The body of the loop that creates the files. -/
def createTurn (fuel : Nat) (s : State) (e : Event) : Except Stop State :=
  let code := e.rand % 1000000
  let filename := nameOf code
  if e.openFails then .error .exited
  -- `EEXIST`.
  else if s.dir filename ≠ none then .ok s
  else
    match e.written with
    | none => .error .exited
    | some n =>
        match insert fuel s.heap filename e.mem with
        | .error stop => .error stop
        | .ok heap =>
            .ok { dir := Function.update s.dir filename (some ([49].take n)), heap := heap
                  i := s.i + 1, created := s.created ++ [filename], unlinked := s.unlinked }

/-- The loop that creates the files. -/
def createLoop (fuel nf : Nat) : List Event → State → Except Stop State
  | [], s => if s.i < nf then .error .unfinished else .ok s
  | e :: events, s =>
      if s.i < nf then
        match createTurn fuel s e with
        | .error stop => .error stop
        | .ok s => createLoop fuel nf events s
      else .ok s

/-- The loop that removes the files, from the node `p` on, where `fails` says
    of every call whether it fails for another reason than that there is no
    such file. -/
def unlinkLoop : List Bool → Option Nat → State → Except Stop State
  | _, none, s => .ok s
  | [], some _, _ => .error .unfinished
  | fails :: rest, some p, s =>
      match s.heap.filename p with
      | none => .error .exited
      | some filename =>
          if fails = true ∨ s.dir filename = none then .error .exited
          else
            unlinkLoop rest (s.heap.next p)
              { s with dir := Function.update s.dir filename none
                       unlinked := s.unlinked ++ [filename] }

/-- What a run gets from outside. -/
structure Outside where
  mem : Bool
  startTime : Bool
  events : List Event
  unlinks : List Bool
  endTime : Bool

/-- The program, with the state in which it returns zero. -/
def main (fuel : Nat) (nf : Int) (dir : CString → Option (List UInt8)) (out : Outside) :
    Except Stop State :=
  if nf < 1000 ∨ 20000 < nf then .error .exited
  else
    match init out.mem with
    | .error stop => .error stop
    | .ok heap =>
        if out.startTime = false then .error .exited
        else
          match createLoop fuel nf.toNat out.events ⟨dir, heap, 0, [], []⟩ with
          | .error stop => .error stop
          | .ok s =>
              match unlinkLoop out.unlinks (s.heap.next 0) s with
              | .error stop => .error stop
              | .ok s => if out.endTime = false then .error .exited else .ok s

end FileCreateTest

end TlpiPractice
