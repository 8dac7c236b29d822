import TlpiPractice.Core.PrintTree
import TlpiPractice.Library.Forest

/-!
# What Is Printed

The output of `print_tree` for a finite tree, as a function of the tree.

`Rooted` says that the nodes from `process[1]` on are a finite tree: every
process has a name, a list of children that ends, and one place. Then the
function returns, and what it has printed follows the tree. `pieces` is the
output for a list of children; the first of them goes on on the line of its
parent, the others begin lines of their own.

The array `mark` is left as it was. A call changes only the element at the
column of its children, and beyond the column it was called with the array is
blank. That is why every call finds the bars of the processes above it, and
those alone.

## Main definitions

* `Held`: The nodes of a list of children, with everything below.
* `Rooted`: A finite tree from `process[1]` on.
* `Prints`: What `print_tree` leaves.
* `pieces`, `touches`: The output for a list of children, and the elements of
  `mark` that are used for it.

## Theorems

* `prints`: What is printed for a process and for the rest of a list.
* `prints_output`: What is printed for the whole tree.
-/

namespace TlpiPractice

namespace ProcessTree

/-! ### Trees -/

/-- A node with its pid and a name. -/
def Named (t : Table) (i : Nat) : Prop := ∃ n, t i = some n ∧ n.pid = i ∧ n.ins ≠ none

/-- The nodes from a pointer on, with everything below, are those of the
    forest. -/
def Held (t : Table) : Option Nat → Forest Nat → Prop
  | p, .nil => p = none
  | p, .cons i kids sibs =>
      p = some i ∧ Named t i ∧ Held t (childOf t i) kids ∧ Held t (nextOf t i) sibs

/-- A finite tree of processes from `process[1]` on. Every process is in it
    once, so pid 1 is at the root only. -/
structure Rooted (t : Table) where
  kids : Forest Nat
  root : Named t 1
  held : Held t (childOf t 1) kids
  nodup : (1 :: kids.preorder).Nodup

/-- The tree with its root. -/
def Rooted.tree {t : Table} (T : Rooted t) : Forest Nat := .cons 1 T.kids .nil

/-- What is printed for a process. -/
def labelOf (t : Table) (i : Nat) : List UInt8 :=
  ((t i).map (fun n => label (n.ins.getD []) n.pid)).getD []

/-- How far the column of the children is from that of the process. -/
def widthOf (t : Table) (i : Nat) : Nat := (labelOf t i).length + (if i = 1 then 1 else 3)

theorem isSome_of_held (t : Table) (p : Option Nat) (f : Forest Nat) (h : Held t p f) :
    p.isSome = f.nonempty := by
  cases f with
  | nil =>
      rw [Held] at h
      rw [h]
      rfl
  | cons i kids sibs =>
      rw [h.1]
      rfl

/-! ### The output -/

/-- The bars in front of a line. -/
def barsOf (mark : Nat → UInt8) (b : Nat) : List UInt8 := (List.range b).map mark

/-- `mark` while the first child, and then the others, are printed. -/
def opened (first several : Bool) (b : Nat) (mark : Nat → UInt8) : Nat → UInt8 :=
  if first && several then Function.update mark b bar else mark

/-- What comes in front of the label of a child. -/
def connector (first several : Bool) : List UInt8 :=
  if first then firstConnector several else laterConnector several

/-- The output for the children whose column is `b`. -/
def pieces (t : Table) : Bool → Forest Nat → Nat → (Nat → UInt8) → List Piece
  | first, .nil, _, _ => if first then [.newline] else []
  | first, .cons i kids sibs, b, mark =>
      let mark' := opened first sibs.nonempty b mark
      .process i (if first then [] else barsOf mark b) (connector first sibs.nonempty)
          (labelOf t i) ::
        (pieces t true kids (b + widthOf t i) mark' ++ pieces t false sibs b mark')

/-- The elements of `mark` used for them. -/
def touches (t : Table) : Bool → Forest Nat → Nat → List Nat
  | _, .nil, _ => []
  | first, .cons i kids sibs, b =>
      (if first then (if sibs.nonempty then [b] else []) else List.range b) ++
        (touches t true kids (b + widthOf t i) ++ (touches t false sibs b ++
          (if first then [b] else [])))

/-! ### Calls -/

/-- A printer that has gone on. -/
def Printer.step (s : Printer) (mark : Nat → UInt8) (out : List Piece) (touched : List Nat) :
    Printer :=
  { mark := mark, out := s.out ++ out, touched := s.touched ++ touched }

theorem step_step (s : Printer) (mark mark' : Nat → UInt8) (out out' : List Piece)
    (touched touched' : List Nat) :
    (s.step mark out touched).step mark' out' touched'
      = s.step mark' (out ++ out') (touched ++ touched') := by
  simp only [Printer.step, List.append_assoc]

theorem process_eq (s : Printer) (i bars : Nat) (pre buffer : List UInt8) :
    s.process i bars pre buffer
      = s.step s.mark [.process i (barsOf s.mark bars) pre buffer] (List.range bars) := rfl

theorem setMark_eq (s : Printer) (i : Nat) (c : UInt8) :
    s.setMark i c = s.step (Function.update s.mark i c) [] [i] := by
  rw [Printer.setMark, Printer.step, List.append_nil]

theorem newline_eq (s : Printer) : s.newline = s.step s.mark [.newline] [] := by
  rw [Printer.newline, Printer.step, List.append_nil]

/-- Enough for the calls that a forest needs. -/
def fuelFor : Forest Nat → Nat
  | .nil => 1
  | .cons _ kids sibs => fuelFor kids + fuelFor sibs + 1

/-- What a call for a process prints. -/
def PrintsProcess (t : Table) (kids : Forest Nat) : Prop :=
  ∀ (fuel i b : Nat) (pre : List UInt8) (print : Nat) (s : Printer), fuelFor kids + 1 ≤ fuel →
    Named t i → Held t (childOf t i) kids → (∀ k, b + widthOf t i ≤ k → s.mark k = blank) →
    printTree fuel t i b pre print s = some (s.step s.mark
      (.process i (barsOf s.mark (print * b)) pre (labelOf t i) ::
        pieces t true kids (b + widthOf t i) s.mark)
      (List.range (print * b) ++ touches t true kids (b + widthOf t i)))

/-- What the loop prints for the rest of a list. -/
def PrintsSiblings (t : Table) (sibs : Forest Nat) : Prop :=
  ∀ (fuel b : Nat) (p : Option Nat) (s : Printer), fuelFor sibs ≤ fuel → Held t p sibs →
    (∀ k, b < k → s.mark k = blank) →
    printSiblings fuel t p b s
      = some (s.step s.mark (pieces t false sibs b s.mark) (touches t false sibs b))

theorem fuelFor_pos (f : Forest Nat) : 0 < fuelFor f := by
  cases f with
  | nil => exact Nat.one_pos
  | cons i kids sibs => exact Nat.succ_pos _

theorem widthOf_pos (t : Table) (i : Nat) : 0 < widthOf t i := by
  rw [widthOf]
  split <;> omega

/-- Beyond the column of the children the array is blank, whether or not there
    is a bar at the column itself. -/
theorem opened_beyond (first several : Bool) (b : Nat) (mark : Nat → UInt8)
    (h : ∀ k, b < k → mark k = blank) (k : Nat) (hk : b < k) :
    opened first several b mark k = blank := by
  rw [opened]
  split
  · rw [Function.update_of_ne (Nat.ne_of_gt hk)]
    exact h k hk
  · exact h k hk

/-- The bar is taken away again. -/
theorem closed_opened (first several : Bool) (b : Nat) (mark : Nat → UInt8) (h : mark b = blank) :
    Function.update (opened first several b mark) b blank = mark := by
  rw [opened]
  split
  · rw [Function.update_idem, ← h, Function.update_eq_self]
  · rw [← h, Function.update_eq_self]

/-- The first child is printed with a bar set, if there are others. -/
theorem first_eq (several : Bool) (b : Nat) (s : Printer) :
    (if several then s.setMark b bar else s)
      = s.step (opened true several b s.mark) [] (if several then [b] else []) := by
  cases several with
  | true => exact setMark_eq s b bar
  | false =>
      simp only [opened, Bool.true_and, Bool.false_eq_true, if_false, Printer.step,
        List.append_nil]

section Calls

variable (t : Table)

theorem labelOf_eq (i : Nat) (n : Node) (ins : List UInt8) (hn : t i = some n)
    (hins : n.ins = some ins) : labelOf t i = label ins n.pid := by
  rw [labelOf, hn, Option.map_some, hins]
  rfl

/-- The function for a process without children, -/
theorem printTree_leaf (fuel i b : Nat) (pre : List UInt8) (print : Nat) (s : Printer)
    (h : Named t i) (hchild : childOf t i = none) :
    printTree (fuel + 1) t i b pre print s
      = some (s.process i (print * b) pre (labelOf t i)).newline := by
  rcases h with ⟨n, hn, hpid, hins⟩
  rcases Option.ne_none_iff_exists'.mp hins with ⟨ins, hins⟩
  rw [childOf, hn, Option.bind_some] at hchild
  rw [printTree, labelOf_eq t i n ins hn hins]
  simp only [hn, hins, hchild]

/-- and for one with children. -/
theorem printTree_parent (fuel i b : Nat) (pre : List UInt8) (print : Nat) (s : Printer) (p : Nat)
    (h : Named t i) (hchild : childOf t i = some p) :
    printTree (fuel + 1) t i b pre print s
      = (((if (nextOf t p).isSome then
            printTree fuel t p (b + widthOf t i) (firstConnector true) 0
              ((s.process i (print * b) pre (labelOf t i)).setMark (b + widthOf t i) bar)
          else
            printTree fuel t p (b + widthOf t i) (firstConnector false) 0
              (s.process i (print * b) pre (labelOf t i))).bind
          (printSiblings fuel t (nextOf t p) (b + widthOf t i))).map
        (fun s => s.setMark (b + widthOf t i) blank)) := by
  rcases h with ⟨n, hn, hpid, hins⟩
  rcases Option.ne_none_iff_exists'.mp hins with ⟨ins, hins⟩
  rw [childOf, hn, Option.bind_some] at hchild
  have hone : n.pid = 1 ↔ i = 1 := by omega
  have hwidth : b + (labelOf t i).length + (if n.pid = 1 then 1 else 3) = b + widthOf t i := by
    rw [widthOf, Nat.add_assoc]
    simp only [hone]
  rw [printTree, ← hwidth, labelOf_eq t i n ins hn hins]
  simp only [hn, hins, hchild]

theorem prints_leaf : PrintsProcess t .nil := by
  intro fuel i b pre print s hfuel hnamed hheld _
  rcases Nat.exists_eq_add_of_le' hfuel with ⟨k, rfl⟩
  rw [fuelFor, printTree_leaf t (k + 1) i b pre print s hnamed hheld, newline_eq, process_eq,
    step_step]
  rfl

/-- A process with children: the first of them, and then the others. -/
theorem prints_parent (p : Nat) (kids sibs : Forest Nat) (hkids : PrintsProcess t kids)
    (hsibs : PrintsSiblings t sibs) : PrintsProcess t (.cons p kids sibs) := by
  intro fuel i b pre print s hfuel hnamed hheld hblank
  rcases hheld with ⟨hp, hnamed', hheldk, hhelds⟩
  rw [fuelFor] at hfuel
  have hpos := fuelFor_pos sibs
  have hpos' := widthOf_pos t p
  have hopen := opened_beyond true sibs.nonempty (b + widthOf t i) s.mark
    (fun k hk => hblank k (Nat.le_of_lt hk))
  obtain ⟨rest, rfl⟩ : ∃ rest, fuel = rest + 1 := ⟨fuel - 1, by omega⟩
  rw [printTree_parent t rest i b pre print s p hnamed hp, isSome_of_held t _ sibs hhelds]
  generalize b + widthOf t i = c at hopen hblank ⊢
  generalize hs' : s.process i (print * b) pre (labelOf t i) = s'
  have hmark : s'.mark = s.mark := by rw [← hs', process_eq, Printer.step]
  -- The two calls for the first child differ in the connector and the bar.
  have hfirst : (if sibs.nonempty = true then
        printTree rest t p c (firstConnector true) 0 (s'.setMark c bar)
      else printTree rest t p c (firstConnector false) 0 s')
      = printTree rest t p c (connector true sibs.nonempty) 0
          (s'.step (opened true sibs.nonempty c s.mark) []
            (if sibs.nonempty then [c] else [])) := by
    rw [← hmark, ← first_eq]
    cases sibs.nonempty with
    | true => rfl
    | false => rfl
  rw [hfirst, hkids rest p c _ 0 _ (by omega) hnamed' hheldk
    (fun k hk => hopen k (by omega)), Option.bind_some,
    hsibs rest c _ _ (by omega) hhelds hopen, Option.map_some, setMark_eq]
  -- The bar is taken away, so the array is what it was.
  simp only [step_step]
  rw [← hs', process_eq, step_step]
  simp only [Printer.step]
  rw [closed_opened _ _ _ _ (hblank c (Nat.le_refl c)), pieces, touches]
  simp only [Nat.zero_mul, List.range_zero, barsOf, List.map_nil, List.nil_append,
    List.append_assoc, List.cons_append, List.append_nil, if_true]

theorem prints_none : PrintsSiblings t .nil := by
  intro fuel b p s hfuel hheld _
  rcases Nat.exists_eq_add_of_le' hfuel with ⟨k, rfl⟩
  rw [Held] at hheld
  subst hheld
  simp only [fuelFor, printSiblings, Option.some.injEq]
  rw [Printer.step, pieces, touches, if_neg Bool.false_ne_true, List.append_nil, List.append_nil]

/-- One more child, and the rest of the list. -/
theorem prints_more (i : Nat) (kids sibs : Forest Nat) (hkids : PrintsProcess t kids)
    (hsibs : PrintsSiblings t sibs) : PrintsSiblings t (.cons i kids sibs) := by
  intro fuel b p s hfuel hheld hblank
  rw [fuelFor] at hfuel
  rcases hheld with ⟨rfl, hnamed, hheldk, hhelds⟩
  have hpos := fuelFor_pos sibs
  have hpos' := fuelFor_pos kids
  have hwidth := widthOf_pos t i
  obtain ⟨rest, rfl⟩ : ∃ rest, fuel = rest + 1 := ⟨fuel - 1, by omega⟩
  rw [printSiblings, isSome_of_held t _ sibs hhelds,
    hkids _ i b _ 1 s (by omega) hnamed hheldk (fun k hk => hblank k (by omega)), Option.bind_some,
    hsibs rest b _ (s.step s.mark _ _) (by omega) hhelds hblank, step_step, Nat.one_mul, pieces,
    touches]
  simp only [Printer.step, opened, Bool.false_and, Bool.false_eq_true, if_false, connector,
    List.cons_append, List.append_assoc, List.append_nil]

/-- What is printed for a process, and for the rest of a list of children. -/
theorem prints (f : Forest Nat) : PrintsProcess t f ∧ PrintsSiblings t f := by
  induction f with
  | nil => exact ⟨prints_leaf t, prints_none t⟩
  | cons i kids sibs ihk ihs =>
      exact ⟨prints_parent t i kids sibs ihk.1 ihs.2, prints_more t i kids sibs ihk.1 ihs.2⟩

end Calls

/-- What is printed for the whole tree. -/
def outputOf {t : Table} (T : Rooted t) : List Piece :=
  .process 1 [] [] (labelOf t 1) :: pieces t true T.kids (widthOf t 1) (fun _ => blank)

/-- `print_tree` returns and leaves this: it does for all large enough bounds. -/
def Prints (t : Table) (s : Printer) : Prop := ∃ n, ∀ fuel, n ≤ fuel → printed fuel t = some s

theorem prints_unique (t : Table) (s s' : Printer) (h : Prints t s) (h' : Prints t s') :
    s = s' := by
  rcases h with ⟨n, hn⟩
  rcases h' with ⟨n', hn'⟩
  exact Option.some.inj ((hn _ (Nat.le_max_left n n')).symm.trans (hn' _ (Nat.le_max_right n n')))

theorem prints_output (t : Table) (T : Rooted t) :
    Prints t ⟨fun _ => blank, outputOf T, touches t true T.kids (widthOf t 1)⟩ := by
  refine ⟨fuelFor T.kids + 1, fun fuel hfuel => ?_⟩
  rw [printed, (prints t T.kids).1 fuel 1 0 [] 0 blankPrinter hfuel T.root T.held
    (fun _ _ => rfl)]
  simp only [Printer.step, blankPrinter, Nat.zero_mul, List.range_zero, barsOf, List.map_nil,
    Nat.zero_add, List.nil_append, outputOf]

end ProcessTree

end TlpiPractice
