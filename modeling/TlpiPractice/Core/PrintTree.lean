import TlpiPractice.Core.ProcessTree

/-!
# Printing the Process Tree

`print_tree` of `12-2-print_process_tree.c`.

Each call prints one process: behind the bars of the processes above it, if it
begins a line, and behind a connector. Its first child goes on on the same
line, every further child on a line of its own, at the column `blank_num`. The
array `mark` holds what such a line begins with. While the children of a
process are printed there is a `|` at their column, if there is more than one.

The output is kept as what each `printf` printed, with the process it was
printed for. The arrays `mark` and `buffer` are taken to be as large as is
needed, and the indices at which `mark` is read or written are recorded.

A node made for a parent has no name, and printing it is undefined. So is
following a pointer to nowhere. Calls have a bound on their depth, and on the
number of siblings.

## Main definitions

* `Piece`: What one `printf` prints.
* `Printer`: `mark` and the output.
* `printTree`, `printSiblings`: The function, and its loop.
* `printed`: The tree from `process[1]`.
-/

namespace TlpiPractice

namespace ProcessTree

/-- `"%d"`. -/
def decimal (x : Int) : List UInt8 :=
  (if x < 0 then [45] else []) ++ (Nat.toDigits 10 x.natAbs).map (fun c => UInt8.ofNat c.toNat)

/-- `"%s(%d)"`. -/
def label (ins : List UInt8) (pid : Int) : List UInt8 := ins ++ [40] ++ decimal pid ++ [41]

/-- `' '`. -/
def blank : UInt8 := 32

/-- `'|'`. -/
def bar : UInt8 := 124

/-- The first child goes on with `"-+-"`, or with `"---"` when it is the only
    one. -/
def firstConnector (several : Bool) : List UInt8 := if several then [45, 43, 45] else [45, 45, 45]

/-- Another child begins with `"|-"`, the last one with "`-". -/
def laterConnector (more : Bool) : List UInt8 := if more then [124, 45] else [96, 45]

/-- What is printed. -/
inductive Piece where
  /-- A process, behind bars if it begins a line, and behind `pre`. -/
  | process (node : Nat) (bars pre buffer : List UInt8)
  | newline
  deriving DecidableEq

structure Printer where
  mark : Nat → UInt8
  out : List Piece
  /-- The indices at which `mark` has been read or written. -/
  touched : List Nat

/-- The first elements of `mark`, then `pre` and the label. -/
def Printer.process (s : Printer) (node bars : Nat) (pre buffer : List UInt8) : Printer :=
  { s with
    out := s.out ++ [.process node ((List.range bars).map s.mark) pre buffer]
    touched := s.touched ++ List.range bars }

/-- `printf("\n")`. -/
def Printer.newline (s : Printer) : Printer := { s with out := s.out ++ [.newline] }

/-- `mark[i] = c`. -/
def Printer.setMark (s : Printer) (i : Nat) (c : UInt8) : Printer :=
  { s with mark := Function.update s.mark i c, touched := s.touched ++ [i] }

mutual

/-- `print_tree`. -/
def printTree : Nat → Table → Nat → Nat → List UInt8 → Nat → Printer → Option Printer
  | 0, _, _, _, _, _, _ => none
  | fuel + 1, t, root, blankNum, pre, print, s =>
      match t root with
      | none => none
      | some n =>
          match n.ins with
          -- The name of a node that was made for a parent.
          | none => none
          | some ins =>
              let buffer := label ins n.pid
              let s := s.process root (print * blankNum) pre buffer
              let blankNum := blankNum + buffer.length + (if n.pid = 1 then 1 else 3)
              match n.child with
              | none => some s.newline
              | some p =>
                  let first :=
                    if (nextOf t p).isSome then
                      printTree fuel t p blankNum (firstConnector true) 0 (s.setMark blankNum bar)
                    else printTree fuel t p blankNum (firstConnector false) 0 s
                  (first.bind (printSiblings fuel t (nextOf t p) blankNum)).map
                    (fun s => s.setMark blankNum blank)

/-- `while (p)`: the children behind the first. -/
def printSiblings : Nat → Table → Option Nat → Nat → Printer → Option Printer
  | 0, _, _, _, _ => none
  | fuel + 1, t, p, blankNum, s =>
      match p with
      | none => some s
      | some p =>
          (printTree fuel t p blankNum (laterConnector (nextOf t p).isSome) 1 s).bind
            (printSiblings fuel t (nextOf t p) blankNum)

end

/-- Before the first call every element of `mark` is a blank. -/
def blankPrinter : Printer where
  mark := fun _ => blank
  out := []
  touched := []

/-- `print_tree(process[1], 0, "", 0)`. -/
def printed (fuel : Nat) (t : Table) : Option Printer := printTree fuel t 1 0 [] 0 blankPrinter

end ProcessTree

end TlpiPractice
