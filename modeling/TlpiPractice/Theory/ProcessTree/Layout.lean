import Mathlib.Algebra.GroupWithZero.Nat
import TlpiPractice.Theory.ProcessTree.Printing

/-!
# The Layout of the Tree

Where the processes stand in the output.

`spots` reads the output from its beginning and keeps the line and the column,
counted in bytes, of every process. Behind the connector the labels of all
children of a process begin in the same column, and the connector of a later
child stands below the middle of that of the first.

The column of the children of a process is the sum of the widths on the way to
it from the root. The connector of the first child begins one byte before, that
of a later child right there, behind as many bars and blanks.

## Main definitions

* `Spot`, `spots`: A process in the output.
* `columnOf`: The column of the children of a process.
* `markAt`: `mark` while they are printed.
* `ChildSpot`: Where a child should stand.
* `Aligned`: The layout of a tree.

## Theorems

* `nodes_spots`: The processes come in preorder.
* `count_pieces`: There is a line for every leaf.
* `topSpot_siblings`, `topSpot_first`: Where the children of one process stand.
* `childSpot`: Where any child stands.
* `printed_aligned`: The layout is as it should be.
-/

namespace TlpiPractice

namespace ProcessTree

open Forest

/-- A process in the output: its line, and the column at which its connector
    begins. -/
structure Spot where
  node : Nat
  line : Nat
  col : Nat
  /-- What was printed before the connector, if it begins the line. -/
  bars : List UInt8
  pre : List UInt8
  label : List UInt8

/-- The processes in the rest of the output, from a line and a column on. -/
def spots : Nat → Nat → List Piece → List Spot
  | _, _, [] => []
  | line, col, .process node bars pre buffer :: out =>
      ⟨node, line, col + bars.length, bars, pre, buffer⟩ ::
        spots line (col + bars.length + pre.length + buffer.length) out
  | line, _, .newline :: out => spots (line + 1) 0 out

/-- The line and the column behind some output. -/
def endOf : Nat → Nat → List Piece → Nat × Nat
  | line, col, [] => (line, col)
  | line, col, .process _ bars pre buffer :: out =>
      endOf line (col + bars.length + pre.length + buffer.length) out
  | line, _, .newline :: out => endOf (line + 1) 0 out

theorem spots_append (line col : Nat) (xs ys : List Piece) :
    spots line col (xs ++ ys)
      = spots line col xs ++ spots (endOf line col xs).1 (endOf line col xs).2 ys := by
  induction xs generalizing line col with
  | nil => rfl
  | cons x xs ih =>
      cases x with
      | process node bars pre buffer =>
          rw [List.cons_append, spots, spots, endOf, ih, List.cons_append]
      | newline => rw [List.cons_append, spots, spots, endOf, ih]

theorem endOf_append (line col : Nat) (xs ys : List Piece) :
    endOf line col (xs ++ ys) = endOf (endOf line col xs).1 (endOf line col xs).2 ys := by
  induction xs generalizing line col with
  | nil => rfl
  | cons x xs ih =>
      cases x with
      | process node bars pre buffer => rw [List.cons_append, endOf, endOf, ih]
      | newline => rw [List.cons_append, endOf, endOf, ih]

/-- The column of the children of a process, in a list of children whose own
    column is `b`. -/
def columnOf (t : Table) (f : Forest Nat) (b q : Nat) : Nat := b + ((f.path q).map (widthOf t)).sum

section Column

variable (t : Table) (i q : Nat) (kids sibs : Forest Nat) (b : Nat)

theorem columnOf_self : columnOf t (cons i kids sibs) b i = b + widthOf t i := by
  rw [columnOf, path_self, List.map_singleton, List.sum_singleton]

theorem columnOf_kids (hne : q ≠ i) (hq : q ∈ kids.preorder) :
    columnOf t (cons i kids sibs) b q = columnOf t kids (b + widthOf t i) q := by
  rw [columnOf, columnOf, path_kids i q kids sibs hne hq, List.map_cons, List.sum_cons,
    Nat.add_assoc]

theorem columnOf_sibs (hne : q ≠ i) (hq : q ∉ kids.preorder) :
    columnOf t (cons i kids sibs) b q = columnOf t sibs b q := by
  rw [columnOf, columnOf, path_sibs i q kids sibs hne hq]

end Column

/-- The layout of a tree: every label once, in preorder; a line for every leaf;
    and below each process its children in one column, the connectors of the
    later ones beginning below the plus in that of the first. -/
structure Aligned (t : Table) (f : Forest Nat) (out : List Piece) : Prop where
  labels : (spots 0 0 out).map (fun x => (x.node, x.label))
    = f.preorder.map (fun i => (i, labelOf t i))
  lines : out.count .newline = f.leaves
  ended : out.getLast? = some .newline
  inLine : ∀ q c cs, f.children q = c :: cs → ∀ x ∈ spots 0 0 out, x.node = c →
    ∀ c' ∈ cs, ∀ y ∈ spots 0 0 out, y.node = c' →
      x.pre = firstConnector true ∧ (y.pre = laterConnector true ∨ y.pre = laterConnector false) ∧
        x.line < y.line ∧ y.col = x.col + 1 ∧ y.col + y.pre.length = x.col + x.pre.length

section Pieces

variable (t : Table)

/-- The processes in the output for a list of children, in preorder. -/
theorem nodes_spots (f : Forest Nat) (first : Bool) (b : Nat) (mark : Nat → UInt8)
    (line col : Nat) :
    (spots line col (pieces t first f b mark)).map (fun x => (x.node, x.label))
      = f.preorder.map (fun i => (i, labelOf t i)) := by
  induction f generalizing first b mark line col with
  | nil =>
      cases first with
      | true => rfl
      | false => rfl
  | cons i kids sibs ihk ihs =>
      simp only [pieces, spots, spots_append, List.map_cons, List.map_append, ihk, ihs, preorder]

theorem node_mem (f : Forest Nat) (first : Bool) (b : Nat) (mark : Nat → UInt8) (line col : Nat)
    (x : Spot) (hx : x ∈ spots line col (pieces t first f b mark)) : x.node ∈ f.preorder := by
  have hmem := List.mem_map_of_mem (f := fun x : Spot => (x.node, x.label)) hx
  rw [nodes_spots] at hmem
  rcases List.mem_map.mp hmem with ⟨i, hi, heq⟩
  have hnode : i = x.node := congrArg Prod.fst heq
  exact hnode ▸ hi

/-- There is a line for every leaf, also when there are no children. -/
theorem count_pieces (f : Forest Nat) (first : Bool) (b : Nat) (mark : Nat → UInt8) :
    (pieces t first f b mark).count .newline
      = if f.nonempty then f.leaves else if first then 1 else 0 := by
  induction f generalizing first b mark with
  | nil =>
      cases first with
      | true => rfl
      | false => rfl
  | cons i kids sibs ihk ihs =>
      have hsibs : (if sibs.nonempty = true then sibs.leaves else 0) = sibs.leaves := by
        cases sibs with
        | nil => rfl
        | cons j kids' sibs' => rfl
      have hne : Piece.process i (if first then [] else barsOf mark b)
          (connector first sibs.nonempty) (labelOf t i) ≠ Piece.newline := by
        intro h
        cases h
      simp only [pieces, List.count_cons_of_ne hne, List.count_append, ihk, ihs]
      rw [nonempty, if_pos rfl, leaves, if_neg Bool.false_ne_true, hsibs, if_pos trivial]

/-- The last line is ended. -/
theorem getLast?_pieces (f : Forest Nat) (first : Bool) (b : Nat) (mark : Nat → UInt8)
    (h : first = true ∨ f.nonempty = true) :
    (pieces t first f b mark).getLast? = some .newline := by
  induction f generalizing first b mark with
  | nil =>
      rcases h with rfl | h
      · rfl
      · cases h
  | cons i kids sibs ihk ihs =>
      rw [pieces, List.getLast?_cons, List.getLast?_append, ihk true _ _ (Or.inl rfl)]
      cases sibs with
      | nil => rfl
      | cons j kids' sibs' =>
          rw [ihs false b _ (Or.inr rfl)]
          rfl

/-- A list of children begins behind its parent, or at the beginning of a
    line. -/
def Starts (first : Bool) (b col : Nat) : Prop := if first then col + 1 = b else col = 0

/-- The output for a list of children ends at the beginning of a line. -/
theorem endOf_pieces (f : Forest Nat) (first : Bool) (b : Nat) (mark : Nat → UInt8)
    (line col : Nat) (h : first = true ∨ col = 0) :
    (endOf line col (pieces t first f b mark)).2 = 0 ∧
      line + (if first then 1 else 0) ≤ (endOf line col (pieces t first f b mark)).1 := by
  induction f generalizing first b mark line col with
  | nil =>
      cases first with
      | true => exact ⟨rfl, Nat.le_refl _⟩
      | false => exact ⟨h.resolve_left Bool.false_ne_true, Nat.le_refl _⟩
  | cons i kids sibs ihk ihs =>
      simp only [pieces, endOf, endOf_append]
      generalize col + (if first then [] else barsOf mark b).length +
        (connector first sibs.nonempty).length + (labelOf t i).length = c
      have hkids := ihk true (b + widthOf t i) (opened first sibs.nonempty b mark) line c
        (Or.inl rfl)
      generalize endOf line c
        (pieces t true kids (b + widthOf t i) (opened first sibs.nonempty b mark)) = e at hkids ⊢
      have hsibs := ihs false b (opened first sibs.nonempty b mark) e.1 e.2 (Or.inr hkids.1)
      rw [if_pos rfl] at hkids
      rw [if_neg Bool.false_ne_true] at hsibs
      refine ⟨hsibs.1, ?_⟩
      split <;> omega

/-- The process at the front of a list of children. -/
def headSpot (first : Bool) (i : Nat) (sibs : Forest Nat) (b : Nat) (mark : Nat → UInt8)
    (line col : Nat) : Spot :=
  ⟨i, line, if first then col else b, if first then [] else barsOf mark b,
    connector first sibs.nonempty, labelOf t i⟩

/-- Where to look for a process: at the front, below it, or behind. -/
theorem mem_spots_cons (i : Nat) (kids sibs : Forest Nat) (first : Bool) (b : Nat)
    (mark : Nat → UInt8) (line col : Nat) (hi : i ≠ 1) (hstart : Starts first b col) :
    ∃ c l, Starts true (b + widthOf t i) c ∧ line < l ∧
      ∀ x ∈ spots line col (pieces t first (.cons i kids sibs) b mark),
        x = headSpot t first i sibs b mark line col ∨
        (x.node ∈ kids.preorder ∧ x ∈ spots line c
          (pieces t true kids (b + widthOf t i) (opened first sibs.nonempty b mark))) ∨
        (x.node ∈ sibs.preorder ∧
          x ∈ spots l 0 (pieces t false sibs b (opened first sibs.nonempty b mark))) := by
  -- The first child goes on behind its parent, the others begin a line with bars.
  have hbars : col + (if first then [] else barsOf mark b).length = if first then col else b := by
    cases first with
    | true => rfl
    | false =>
        rw [if_neg Bool.false_ne_true, if_neg Bool.false_ne_true, barsOf, List.length_map,
          List.length_range, show col = 0 from hstart, Nat.zero_add]
  have hcol : Starts true (b + widthOf t i) (col + (if first then [] else barsOf mark b).length +
      (connector first sibs.nonempty).length + (labelOf t i).length) := by
    rw [Starts, if_pos rfl, hbars, widthOf, if_neg hi]
    cases first with
    | true =>
        have hcb : col + 1 = b := hstart
        have hlen : (connector true sibs.nonempty).length = 3 := by cases sibs.nonempty <;> rfl
        rw [if_pos rfl, hlen]
        omega
    | false =>
        have hlen : (connector false sibs.nonempty).length = 2 := by cases sibs.nonempty <;> rfl
        rw [if_neg Bool.false_ne_true, hlen]
        omega
  -- Behind what is below it a new line begins.
  have hend := endOf_pieces t kids true (b + widthOf t i) (opened first sibs.nonempty b mark)
    line (col + (if first then [] else barsOf mark b).length +
      (connector first sibs.nonempty).length + (labelOf t i).length) (Or.inl rfl)
  refine ⟨_, _, hcol, hend.2, fun x hx => ?_⟩
  simp only [pieces, spots, spots_append, List.mem_cons, List.mem_append] at hx
  rcases hx with hx | hx | hx
  · refine Or.inl ?_
    rw [hx, headSpot, hbars]
  · exact Or.inr (Or.inl ⟨node_mem t kids _ _ _ _ _ x hx, hx⟩)
  · rw [hend.1] at hx
    exact Or.inr (Or.inr ⟨node_mem t sibs _ _ _ _ _ x hx, hx⟩)

/-- The children of a process, whose column is `c`, with the first of them on
    line `l`. -/
def ChildSpot (mark : Nat → UInt8) (c l : Nat) (f : Forest Nat) (x : Spot) : Prop :=
  (f.tops.head? = some x.node ∧ x.line = l ∧ x.col + 1 = c ∧ x.pre = firstConnector f.several) ∨
    (x.node ∈ f.tops.tail ∧ l < x.line ∧ x.col = c ∧ x.bars = barsOf mark c ∧
      ∃ more, x.pre = laterConnector more)

/-- The children of one process: the first of them is at the front, and the
    others are behind all that is below it. -/
theorem top_spots_cons (i : Nat) (kids sibs : Forest Nat) (first : Bool) (b : Nat)
    (mark : Nat → UInt8) (line col : Nat) (hi : i ≠ 1) (hstart : Starts first b col)
    (hnodup : (cons i kids sibs).preorder.Nodup) :
    ∃ l, line < l ∧ ∀ x ∈ spots line col (pieces t first (.cons i kids sibs) b mark),
      x.node ∈ (cons i kids sibs).tops → x = headSpot t first i sibs b mark line col ∨
        (x.node ∈ sibs.tops ∧
          x ∈ spots l 0 (pieces t false sibs b (opened first sibs.nonempty b mark))) := by
  rcases (nodup_cons_iff i kids sibs).mp hnodup with ⟨⟨hik, his⟩, -, -, hdisj⟩
  rcases mem_spots_cons t i kids sibs first b mark line col hi hstart with ⟨c, l, -, hl, hsplit⟩
  refine ⟨l, hl, fun x hx htop => ?_⟩
  rcases hsplit x hx with hhead | ⟨hmem, -⟩ | ⟨hmem, hx'⟩
  · exact Or.inl hhead
  · -- A process below the first of them is none of them.
    rcases List.mem_cons.mp htop with heq | htop
    · exact absurd (heq ▸ hmem) hik
    · exact absurd (tops_subset sibs htop) (hdisj hmem)
  · rcases List.mem_cons.mp htop with heq | htop
    · exact absurd (heq ▸ hmem) his
    · exact Or.inr ⟨htop, hx'⟩

/-- Pid 1 is no root of a forest without it, and not in its other trees. -/
theorem ne_one_of_notMem (i : Nat) (kids sibs : Forest Nat)
    (h : 1 ∉ (cons i kids sibs).preorder) : i ≠ 1 ∧ 1 ∉ kids.preorder ∧ 1 ∉ sibs.preorder := by
  rw [mem_preorder_cons, not_or, not_or] at h
  exact ⟨Ne.symm h.1, h.2⟩

/-- The children behind the first. -/
theorem topSpot_siblings (f : Forest Nat) (b : Nat) (mark : Nat → UInt8) (line : Nat)
    (hnodup : f.preorder.Nodup) (hone : 1 ∉ f.preorder) (x : Spot)
    (hx : x ∈ spots line 0 (pieces t false f b mark)) (htop : x.node ∈ f.tops) :
    line ≤ x.line ∧ x.col = b ∧ x.bars = barsOf mark b ∧ ∃ more, x.pre = laterConnector more := by
  induction f generalizing line with
  | nil => exact absurd htop List.not_mem_nil
  | cons i kids sibs _ ihs =>
      rcases ne_one_of_notMem i kids sibs hone with ⟨hi, -, hones⟩
      have hns := ((nodup_cons_iff i kids sibs).mp hnodup).2.2.1
      rcases top_spots_cons t i kids sibs false b mark line 0 hi rfl hnodup with ⟨l, hl, hsplit⟩
      rcases hsplit x hx htop with rfl | ⟨htop', hx'⟩
      · exact ⟨Nat.le_refl _, rfl, rfl, _, rfl⟩
      · rcases ihs l hns hones hx' htop' with ⟨hline, hrest⟩
        exact ⟨Nat.le_trans (Nat.le_of_lt hl) hline, hrest⟩

/-- The children of a process, from the first on. -/
theorem topSpot_first (f : Forest Nat) (b : Nat) (mark : Nat → UInt8) (line col : Nat)
    (hnodup : f.preorder.Nodup) (hone : 1 ∉ f.preorder) (hstart : Starts true b col) (x : Spot)
    (hx : x ∈ spots line col (pieces t true f b mark)) (htop : x.node ∈ f.tops) :
    ChildSpot mark b line f x := by
  cases f with
  | nil => exact absurd htop List.not_mem_nil
  | cons i kids sibs =>
      rcases ne_one_of_notMem i kids sibs hone with ⟨hi, -, hones⟩
      have hns := ((nodup_cons_iff i kids sibs).mp hnodup).2.2.1
      rcases top_spots_cons t i kids sibs true b mark line col hi hstart hnodup with ⟨l, hl, hsplit⟩
      rcases hsplit x hx htop with rfl | ⟨htop', hx'⟩
      · exact Or.inl ⟨rfl, rfl, hstart, rfl⟩
      · rcases topSpot_siblings t sibs b _ l hns hones x hx' htop' with ⟨hline, hcol, hbars, hpre⟩
        refine Or.inr ⟨htop', Nat.lt_of_lt_of_le hl hline, hcol, ?_, hpre⟩
        -- The bar of the children is no bar in front of them.
        rw [hbars, barsOf, barsOf]
        refine List.map_congr_left (fun k hk => ?_)
        rw [opened]
        split
        · exact Function.update_of_ne (Nat.ne_of_lt (List.mem_range.mp hk)) _ _
        · rfl

/-- `mark` while the children of a process are printed, without their own
    bar. -/
def markAt : Forest Nat → Nat → Nat → (Nat → UInt8) → (Nat → UInt8)
  | .nil, _, _, mark => mark
  | .cons i kids sibs, b, q, mark =>
      if q = i then mark
      else if q ∈ kids.preorder then
        markAt kids (b + widthOf t i) q (opened true kids.several (b + widthOf t i) mark)
      else markAt sibs b q mark

/-- The children of any process stand where they should. -/
theorem childSpot (f : Forest Nat) (first : Bool) (b : Nat) (mark : Nat → UInt8) (line col : Nat)
    (hnodup : f.preorder.Nodup) (hone : 1 ∉ f.preorder) (hstart : Starts first b col) (q : Nat)
    (hq : q ∈ f.preorder) :
    ∃ l, ∀ x ∈ spots line col (pieces t first f b mark), x.node ∈ f.children q →
      ChildSpot (markAt t f b q (opened first f.several b mark)) (columnOf t f b q) l (f.under q)
        x := by
  induction f generalizing first b mark line col with
  | nil => exact absurd hq List.not_mem_nil
  | cons i kids sibs ihk ihs =>
      rcases (nodup_cons_iff i kids sibs).mp hnodup with ⟨⟨hik, his⟩, hnk, hns, hdisj⟩
      rcases ne_one_of_notMem i kids sibs hone with ⟨hi, honek, hones⟩
      rcases mem_spots_cons t i kids sibs first b mark line col hi hstart with
        ⟨c, l, hc, -, hsplit⟩
      by_cases hqi : q = i
      · -- Its children come right behind it.
        subst hqi
        refine ⟨line, fun x hx hchild => ?_⟩
        rw [children, under_self] at hchild
        rw [markAt, if_pos rfl, columnOf_self, under_self]
        have hmem := tops_subset kids hchild
        rcases hsplit x hx with rfl | ⟨-, hx'⟩ | ⟨hmem', -⟩
        · exact absurd hmem hik
        · exact topSpot_first t kids _ _ line c hnk honek hc x hx' hchild
        · exact absurd hmem' (hdisj hmem)
      by_cases hqk : q ∈ kids.preorder
      · -- It is below the first of them: look in the lines for its children.
        rcases ihk true (b + widthOf t i) (opened first sibs.nonempty b mark) line c hnk honek hc
          hqk with ⟨l', hspot⟩
        refine ⟨l', fun x hx hchild => ?_⟩
        rw [children, under_kids i q kids sibs hqi hqk] at hchild
        rw [markAt, if_neg hqi, if_pos hqk, columnOf_kids t i q kids sibs b hqi hqk,
          under_kids i q kids sibs hqi hqk]
        have hmem := children_subset kids q hchild
        rcases hsplit x hx with rfl | ⟨-, hx'⟩ | ⟨hmem', -⟩
        · exact absurd hmem hik
        · exact hspot x hx' hchild
        · exact absurd hmem' (hdisj hmem)
      · -- It is one of the others, or below one, and they begin at the next line.
        have hqs : q ∈ sibs.preorder := mem_sibs i q kids sibs hq hqi hqk
        rcases ihs false b (opened first sibs.nonempty b mark) l 0 hns hones rfl hqs with
          ⟨l', hspot⟩
        refine ⟨l', fun x hx hchild => ?_⟩
        rw [children, under_sibs i q kids sibs hqi hqk] at hchild
        rw [markAt, if_neg hqi, if_neg hqk, columnOf_sibs t i q kids sibs b hqi hqk,
          under_sibs i q kids sibs hqi hqk]
        have hmem := children_subset sibs q hchild
        rcases hsplit x hx with rfl | ⟨hmem', -⟩ | ⟨-, hx'⟩
        · exact absurd hmem his
        · exact absurd hmem (hdisj hmem')
        · exact hspot x hx' hchild

end Pieces

/-! ### The whole tree -/

section Tree

variable (t : Table) (T : Rooted t)

theorem one_not_below : 1 ∉ T.kids.preorder := (List.nodup_cons.mp T.nodup).1

theorem nodup_tree : T.tree.preorder.Nodup := by
  rw [Rooted.tree, preorder, preorder, List.append_nil]
  exact T.nodup

theorem spots_output :
    spots 0 0 (outputOf T) = ⟨1, 0, 0, [], [], labelOf t 1⟩ ::
      spots 0 (labelOf t 1).length
        (pieces t true T.kids (widthOf t 1) (fun _ => blank)) := by
  rw [outputOf, spots]
  simp only [List.length_nil, Nat.zero_add]

/-- The children of any process of the tree stand where they should. -/
theorem childSpot_tree (q : Nat) (hq : q ∈ T.tree.preorder) :
    ∃ l, ∀ x ∈ spots 0 0 (outputOf T), x.node ∈ T.tree.children q →
      ChildSpot (markAt t T.tree 0 q (fun _ => blank)) (columnOf t T.tree 0 q) l (T.tree.under q)
        x := by
  have hone := one_not_below t T
  have hnodup := (List.nodup_cons.mp T.nodup).2
  have hstart : Starts true (widthOf t 1) (labelOf t 1).length := rfl
  have hmem : ∀ x ∈ spots 0 0 (outputOf T), x.node ∈ T.kids.preorder →
      x ∈ spots 0 (labelOf t 1).length
        (pieces t true T.kids (widthOf t 1) (fun _ => blank)) := by
    intro x hx hnode
    rw [spots_output] at hx
    rcases List.mem_cons.mp hx with rfl | hx
    · exact absurd hnode hone
    · exact hx
  rw [Rooted.tree] at hq ⊢
  by_cases hq1 : q = 1
  · subst hq1
    refine ⟨0, fun x hx hchild => ?_⟩
    rw [children, under_self] at hchild
    rw [markAt, if_pos rfl, columnOf_self, under_self, Nat.zero_add]
    exact topSpot_first t T.kids _ _ 0 _ hnodup hone hstart x
      (hmem x hx (tops_subset _ hchild)) hchild
  · have hqk : q ∈ T.kids.preorder :=
      (((mem_preorder_cons 1 q T.kids .nil).mp hq).resolve_left hq1).resolve_right
        List.not_mem_nil
    rcases childSpot t T.kids true (widthOf t 1) (fun _ => blank) 0 _ hnodup hone hstart q hqk with
      ⟨l, hspot⟩
    refine ⟨l, fun x hx hchild => ?_⟩
    rw [children, under_kids 1 q T.kids .nil hq1 hqk] at hchild
    rw [markAt, if_neg hq1, if_pos hqk, columnOf_kids t 1 q T.kids .nil 0 hq1 hqk,
      under_kids 1 q T.kids .nil hq1 hqk, Nat.zero_add]
    exact hspot x (hmem x hx (children_subset _ q hchild)) hchild

/-- The output has the layout that it should have. -/
theorem aligned_output : Aligned t T.tree (outputOf T) := by
  refine ⟨?_, ?_, ?_, ?_⟩
  · rw [spots_output, List.map_cons, nodes_spots, Rooted.tree, preorder, preorder,
      List.append_nil, List.map_cons]
  · have hne : Piece.process 1 [] [] (labelOf t 1) ≠ Piece.newline := by
      intro h
      cases h
    rw [outputOf, List.count_cons_of_ne hne, count_pieces, Rooted.tree, leaves, leaves, if_pos rfl,
      Nat.add_zero]
  · rw [outputOf, List.getLast?_cons, getLast?_pieces t T.kids true _ _ (Or.inl rfl)]
    rfl
  · intro q c cs hkids x hx hxc c' hc' y hy hyc
    have hq : q ∈ T.tree.preorder := by
      refine mem_of_children _ _ ?_
      rw [hkids]
      exact List.cons_ne_nil _ _
    have hnodup := children_nodup T.tree q (nodup_tree t T)
    rw [hkids] at hnodup
    have hhead := (List.nodup_cons.mp hnodup).1
    rcases childSpot_tree t T q hq with ⟨l, hspot⟩
    have hxs := hspot x hx (by rw [hkids, hxc]; exact List.mem_cons_self)
    have hys := hspot y hy (by rw [hkids, hyc]; exact List.mem_cons_of_mem _ hc')
    have htops : (T.tree.under q).tops = c :: cs := hkids
    have hseveral : (T.tree.under q).several = true := by
      rw [several_iff, htops, List.length_cons]
      have := List.length_pos_of_mem hc'
      omega
    simp only [ChildSpot, htops, List.head?_cons, List.tail_cons, hseveral] at hxs hys
    -- The first child is not among the later ones, and the other way round.
    rcases hxs with ⟨-, hxl, hxcol, hxpre⟩ | ⟨hmem, -⟩
    · rcases hys with ⟨hcy, -⟩ | ⟨-, hyl, hycol, -, more, hypre⟩
      · exact absurd (Option.some.inj hcy ▸ hyc ▸ hc') hhead
      · refine ⟨hxpre, ?_, by omega, by omega, ?_⟩
        · cases more with
          | true => exact Or.inl hypre
          | false => exact Or.inr hypre
        · have hlen : (laterConnector more).length = 2 := by cases more <;> rfl
          rw [hxpre, hypre, hlen]
          change y.col + 2 = x.col + 3
          omega
    · exact absurd (hxc ▸ hmem) hhead

end Tree

/-- For every finite tree `print_tree` returns, and the output has the layout
    that it should have. -/
theorem printed_aligned (t : Table) (T : Rooted t) :
    ∃ s, Prints t s ∧ Aligned t T.tree s.out :=
  ⟨_, prints_output t T, aligned_output t T⟩

end ProcessTree

end TlpiPractice
