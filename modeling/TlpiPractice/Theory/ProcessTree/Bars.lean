import TlpiPractice.Theory.ProcessTree.Layout

/-!
# The Bars of the Tree

What the lines of the output begin with.

A bar belongs on a line where a process above has more children to come. The
function sets the bar of a process with several children before the first of
them and takes it away behind the last, so it also stands on the lines below
the last child, whose connector has ended it. Those lines are right only if
there are none: below the last child, and it included, no process may have
more than one child.

## Main definitions

* `BarsRight`: The bars that should be on the lines of later children.
* `Straight`: No process with several children is at or below the last of
  several children.
* `forked`: A tree that is not straight.

## Theorems

* `markAt_eq_bar`: Where the function has bars.
* `bars_of_passes`: A bar for every process above with several children.
* `barsRight_iff`: The trees for which the bars are right.
* `forked_wrong`: One for which they are not.
-/

namespace TlpiPractice

namespace ProcessTree

open Forest

/-- The bars in front of the connector of a child `n` of `q` that begins a
    line. On the way to `q`, at the column where the children of `a` have their
    connectors, there is a bar if the child of `a` on the way has a later
    sibling and a blank if it is the last. There are no other bars. -/
structure BarsRight (f : Forest Nat) (out : List Piece) : Prop where
  atStart : ∀ q, ∀ n ∈ (f.children q).tail, ∀ y ∈ spots 0 0 out, y.node = n →
    y.bars.length = y.col
  shown : ∀ q, ∀ n ∈ (f.children q).tail, ∀ y ∈ spots 0 0 out, y.node = n →
    ∀ a c, f.Passes q a c → 2 ≤ (f.children a).length →
      ∀ x ∈ spots 0 0 out, (f.children a).head? = some x.node →
        y.bars[x.col + 1]? = some (if (f.children a).getLast? = some c then blank else bar)
  only : ∀ q, ∀ n ∈ (f.children q).tail, ∀ y ∈ spots 0 0 out, y.node = n →
    ∀ k, y.bars[k]? = some bar → ∃ a c, f.Passes q a c ∧ 2 ≤ (f.children a).length ∧
      ∃ x ∈ spots 0 0 out, (f.children a).head? = some x.node ∧ k = x.col + 1

/-- No process with several children is, or is below, the last child of a
    process with several children. -/
def Straight (f : Forest Nat) : Prop :=
  ∀ q a c, 2 ≤ (f.children q).length → f.Passes q a c → 2 ≤ (f.children a).length →
    (f.children a).getLast? ≠ some c

/-! ### Where there are bars -/

section Columns

variable (t : Table)

theorem opened_eq_bar (several : Bool) (b : Nat) (mark : Nat → UInt8) (k : Nat) :
    opened true several b mark k = bar ↔ mark k = bar ∨ (several = true ∧ k = b) := by
  rw [opened, Bool.true_and]
  cases several with
  | true =>
      rw [if_pos rfl]
      by_cases hk : k = b
      · rw [hk, Function.update_self]
        exact ⟨fun _ => Or.inr ⟨rfl, rfl⟩, fun _ => rfl⟩
      · rw [Function.update_of_ne hk]
        exact ⟨Or.inl, fun h => h.resolve_right (fun h' => hk h'.2)⟩
  | false =>
      rw [if_neg Bool.false_ne_true]
      exact ⟨Or.inl, fun h => h.resolve_right (fun h' => Bool.false_ne_true h'.1)⟩

/-- A process on the way to `q` with several children, and their column. -/
def OpenAt (f : Forest Nat) (b q k : Nat) : Prop :=
  ∃ a c, f.Passes q a c ∧ (f.under a).several = true ∧ k = columnOf t f b a

section Cons

variable (i q : Nat) (kids sibs : Forest Nat) (b k : Nat)

/-- On the way to what is below a process is that process itself. -/
theorem openAt_kids (hik : i ∉ kids.preorder) (hqi : q ≠ i) (hq : q ∈ kids.preorder) :
    OpenAt t (cons i kids sibs) b q k ↔
      (kids.several = true ∧ k = b + widthOf t i) ∨ OpenAt t kids (b + widthOf t i) q k := by
  have hsame : ∀ a c, kids.Passes q a c → (cons i kids sibs).under a = kids.under a ∧
      columnOf t (cons i kids sibs) b a = columnOf t kids (b + widthOf t i) a := by
    intro a c hp
    have ha := mem_of_passes kids q a c hp
    have hai : a ≠ i := fun h => hik (h ▸ ha)
    exact ⟨under_kids i a kids sibs hai ha, columnOf_kids t i a kids sibs b hai ha⟩
  constructor
  · rintro ⟨a, c, hp, hs, hk⟩
    rcases (passes_kids i kids sibs q a c hqi hq).mp hp with ⟨rfl, -⟩ | hp
    · rw [under_self] at hs
      rw [columnOf_self] at hk
      exact Or.inl ⟨hs, hk⟩
    · rw [(hsame a c hp).1] at hs
      rw [(hsame a c hp).2] at hk
      exact Or.inr ⟨a, c, hp, hs, hk⟩
  · rintro (⟨hs, hk⟩ | ⟨a, c, hp, hs, hk⟩)
    · -- The way goes on to some root of what is below.
      rcases List.exists_cons_of_ne_nil (path_ne_nil kids q hq) with ⟨c, after, hpath⟩
      refine ⟨i, c, (passes_kids i kids sibs q i c hqi hq).mpr (Or.inl ⟨rfl, ?_⟩), ?_, ?_⟩
      · rw [hpath, List.head?_cons]
      · rwa [under_self]
      · rwa [columnOf_self]
    · refine ⟨a, c, (passes_kids i kids sibs q a c hqi hq).mpr (Or.inr hp), ?_, ?_⟩
      · rwa [(hsame a c hp).1]
      · rwa [(hsame a c hp).2]

/-- A process is not on the way to its siblings. -/
theorem openAt_sibs (his : i ∉ sibs.preorder) (hdisj : kids.preorder.Disjoint sibs.preorder)
    (hqi : q ≠ i) (hq : q ∉ kids.preorder) :
    OpenAt t (cons i kids sibs) b q k ↔ OpenAt t sibs b q k := by
  refine exists_congr (fun a => exists_congr (fun c => ?_))
  rw [passes_sibs i kids sibs q a c hqi hq]
  refine and_congr_right (fun hp => ?_)
  have ha := mem_of_passes sibs q a c hp
  have hai : a ≠ i := fun h => his (h ▸ ha)
  have hak : a ∉ kids.preorder := fun h => hdisj h ha
  rw [under_sibs i a kids sibs hai hak, columnOf_sibs t i a kids sibs b hai hak]

end Cons

/-- The bars are those from before, and those of the processes on the way that
    have several children. -/
theorem markAt_eq_bar (f : Forest Nat) (b q : Nat) (mark : Nat → UInt8) (k : Nat)
    (hnodup : f.preorder.Nodup) (hq : q ∈ f.preorder) :
    markAt t f b q mark k = bar ↔ mark k = bar ∨ OpenAt t f b q k := by
  induction f generalizing b mark with
  | nil => exact absurd hq List.not_mem_nil
  | cons i kids sibs ihk ihs =>
      rcases (nodup_cons_iff i kids sibs).mp hnodup with ⟨⟨hik, his⟩, hnk, hns, hdisj⟩
      by_cases hqi : q = i
      · subst hqi
        rw [markAt, if_pos rfl]
        refine ⟨Or.inl, fun h => h.resolve_right ?_⟩
        rintro ⟨a, c, hp, -⟩
        exact not_passes_self q kids sibs a c hp
      by_cases hqk : q ∈ kids.preorder
      · rw [markAt, if_neg hqi, if_pos hqk, ihk _ _ hnk hqk, opened_eq_bar, or_assoc,
          openAt_kids t i q kids sibs b k hik hqi hqk]
      · have hqs : q ∈ sibs.preorder := mem_sibs i q kids sibs hq hqi hqk
        rw [markAt, if_neg hqi, if_neg hqk, ihs _ _ hns hqs,
          openAt_sibs t i q kids sibs b k his hdisj hqi hqk]

/-- The columns grow on the way down. -/
theorem columnOf_lt (f : Forest Nat) (b q a c : Nat) (hnodup : f.preorder.Nodup)
    (hp : f.Passes q a c) (hq : q ∈ f.preorder) : columnOf t f b a < columnOf t f b q := by
  induction f generalizing b with
  | nil => exact absurd hq List.not_mem_nil
  | cons i kids sibs ihk ihs =>
      rcases (nodup_cons_iff i kids sibs).mp hnodup with ⟨⟨hik, his⟩, hnk, hns, hdisj⟩
      have hqi : q ≠ i := by
        rintro rfl
        exact not_passes_self q kids sibs a c hp
      by_cases hqk : q ∈ kids.preorder
      · rw [columnOf_kids t i q kids sibs b hqi hqk]
        rcases (passes_kids i kids sibs q a c hqi hqk).mp hp with ⟨rfl, h⟩ | hp
        · -- From the root itself it is at least one more width.
          rcases List.head?_eq_some_iff.mp h with ⟨after, h⟩
          have hpos := widthOf_pos t c
          rw [columnOf_self, columnOf, h, List.map_cons, List.sum_cons]
          omega
        · have ha := mem_of_passes kids q a c hp
          rw [columnOf_kids t i a kids sibs b (fun h => hik (h ▸ ha)) ha]
          exact ihk _ hnk hp hqk
      · have hqs : q ∈ sibs.preorder := mem_sibs i q kids sibs hq hqi hqk
        have hp' := (passes_sibs i kids sibs q a c hqi hqk).mp hp
        have ha := mem_of_passes sibs q a c hp'
        rw [columnOf_sibs t i q kids sibs b hqi hqk,
          columnOf_sibs t i a kids sibs b (fun h => his (h ▸ ha)) (fun h => hdisj h ha)]
        exact ihs b hns hp' hqs

end Columns

/-! ### The bars of the whole tree -/

section Tree

variable (t : Table) (T : Rooted t)

/-- Every process of the tree is somewhere in the output. -/
theorem exists_spot (i : Nat) (hi : i ∈ T.tree.preorder) :
    ∃ x ∈ spots 0 0 (outputOf T), x.node = i := by
  have hmem := List.mem_map_of_mem (f := fun i => (i, labelOf t i)) hi
  rw [← (aligned_output t T).labels] at hmem
  rcases List.mem_map.mp hmem with ⟨x, hx, heq⟩
  exact ⟨x, hx, congrArg Prod.fst heq⟩

/-- The first child stands before the column of the children. -/
theorem head_spot (q : Nat) (x : Spot) (hx : x ∈ spots 0 0 (outputOf T))
    (h : (T.tree.children q).head? = some x.node) : x.col + 1 = columnOf t T.tree 0 q := by
  have hmem := List.mem_of_mem_head? h
  have hq := mem_of_children T.tree q (List.ne_nil_of_mem hmem)
  rcases childSpot_tree t T q hq with ⟨l, hspot⟩
  rcases hspot x hx hmem with ⟨-, -, hcol, -⟩ | ⟨htail, -⟩
  · exact hcol
  · rcases List.head?_eq_some_iff.mp h with ⟨cs, hkids⟩
    have hnodup := children_nodup T.tree q (nodup_tree t T)
    have htops : (T.tree.under q).tops = x.node :: cs := hkids
    rw [hkids] at hnodup
    rw [htops, List.tail_cons] at htail
    exact absurd htail (List.nodup_cons.mp hnodup).1

/-- A later child begins a line, and `mark` is what the line begins with. -/
theorem tail_spot (q : Nat) (y : Spot) (hy : y ∈ spots 0 0 (outputOf T))
    (h : y.node ∈ (T.tree.children q).tail) :
    y.col = columnOf t T.tree 0 q ∧
      y.bars = barsOf (markAt t T.tree 0 q (fun _ => blank)) (columnOf t T.tree 0 q) := by
  have hmem := List.mem_of_mem_tail h
  have hq := mem_of_children T.tree q (List.ne_nil_of_mem hmem)
  rcases childSpot_tree t T q hq with ⟨l, hspot⟩
  rcases hspot y hy hmem with ⟨hhead, -⟩ | ⟨-, -, hcol, hbars, -⟩
  · rcases List.head?_eq_some_iff.mp hhead with ⟨cs, htops⟩
    have hnodup := children_nodup T.tree q (nodup_tree t T)
    rw [children, htops] at hnodup h
    exact absurd h (List.nodup_cons.mp hnodup).1
  · exact ⟨hcol, hbars⟩

/-- What a line begins with: a bar for each process on the way that has several
    children. -/
theorem bars_eq_bar (q : Nat) (y : Spot) (hy : y ∈ spots 0 0 (outputOf T))
    (h : y.node ∈ (T.tree.children q).tail) (k : Nat) :
    y.bars[k]? = some bar ↔ k < columnOf t T.tree 0 q ∧ OpenAt t T.tree 0 q k := by
  have hq := mem_of_children T.tree q (List.ne_nil_of_mem (List.mem_of_mem_tail h))
  rw [(tail_spot t T q y hy h).2, barsOf, List.getElem?_map, Option.map_eq_some_iff]
  have hmark := markAt_eq_bar t T.tree 0 q (fun _ => blank) k (nodup_tree t T) hq
  have hblank : blank ≠ bar := by decide
  constructor
  · rintro ⟨k', hk', hbar⟩
    rcases List.getElem?_eq_some_iff.mp hk' with ⟨hlt, heq⟩
    rw [List.getElem_range] at heq
    rw [← heq] at hbar
    rw [List.length_range] at hlt
    exact ⟨hlt, (hmark.mp hbar).resolve_left hblank⟩
  · rintro ⟨hlt, hopen⟩
    exact ⟨k, List.getElem?_range hlt, hmark.mpr (Or.inr hopen)⟩

/-- So there is one for each such process, whether or not it has more children
    to come. -/
theorem bars_of_passes (q a c : Nat) (y x : Spot) (hy : y ∈ spots 0 0 (outputOf T))
    (h : y.node ∈ (T.tree.children q).tail) (hp : T.tree.Passes q a c)
    (hs : 2 ≤ (T.tree.children a).length) (hx : x ∈ spots 0 0 (outputOf T))
    (hhead : (T.tree.children a).head? = some x.node) : y.bars[x.col + 1]? = some bar := by
  have hq := mem_of_children T.tree q (List.ne_nil_of_mem (List.mem_of_mem_tail h))
  have hcol := head_spot t T a x hx hhead
  rw [bars_eq_bar t T q y hy h, hcol]
  exact ⟨columnOf_lt t T.tree 0 q a c (nodup_tree t T) hp hq, a, c, hp,
    (several_iff _).mpr hs, rfl⟩

end Tree

/-- On a straight tree the bars are right, -/
theorem barsRight_of_straight (t : Table) (T : Rooted t) (h : Straight T.tree) :
    BarsRight T.tree (outputOf T) := by
  refine ⟨?_, ?_, ?_⟩
  · rintro q n hn y hy rfl
    have hspot := tail_spot t T q y hy hn
    rw [hspot.1, hspot.2, barsOf, List.length_map, List.length_range]
  · rintro q n hn y hy rfl a c hp hs x hx hhead
    -- There are at least two children, since one is a later one.
    have hq : 2 ≤ (T.tree.children q).length := by
      have := List.length_pos_of_mem hn
      rw [List.length_tail] at this
      omega
    rw [if_neg (h q a c hq hp hs)]
    exact bars_of_passes t T q a c y x hy hn hp hs hx hhead
  · -- A bar is that of a process on the way, whose first child is one byte before.
    rintro q n hn y hy rfl k hk
    rcases ((bars_eq_bar t T q y hy hn k).mp hk).2 with ⟨a, c, hp, hs, rfl⟩
    have hlen := (several_iff _).mp hs
    rcases List.exists_cons_of_ne_nil (List.ne_nil_of_length_pos (Nat.lt_of_succ_lt hlen)) with
      ⟨d, ds, hkids⟩
    have hhead : (T.tree.children a).head? = some d := by
      rw [children, hkids, List.head?_cons]
    rcases exists_spot t T d (children_subset _ a (List.mem_of_mem_head? hhead)) with
      ⟨x, hx, rfl⟩
    exact ⟨a, c, hp, hlen, x, hx, hhead, (head_spot t T a x hx hhead).symm⟩

/-- and on another they are not. -/
theorem straight_of_barsRight (t : Table) (T : Rooted t) (h : BarsRight T.tree (outputOf T)) :
    Straight T.tree := by
  intro q a c hq hp hs hlast
  -- The second child of `q` begins a line on which there is a bar for `a`.
  obtain ⟨n, hn⟩ : ∃ n, n ∈ (T.tree.children q).tail := by
    refine List.exists_mem_of_length_pos ?_
    rw [List.length_tail]
    omega
  rcases exists_spot t T n (children_subset _ q (List.mem_of_mem_tail hn)) with ⟨y, hy, rfl⟩
  rcases List.exists_cons_of_ne_nil (List.ne_nil_of_length_pos (Nat.lt_of_succ_lt hs)) with
    ⟨d, ds, hkids⟩
  have hhead : (T.tree.children a).head? = some d := by
    rw [hkids, List.head?_cons]
  rcases exists_spot t T d (children_subset _ a (List.mem_of_mem_head? hhead)) with ⟨x, hx, rfl⟩
  have hblank := h.shown q y.node hn y hy rfl a c hp hs x hx hhead
  rw [if_pos hlast, bars_of_passes t T q a c y x hy hn hp hs hx hhead] at hblank
  exact absurd (Option.some.inj hblank) (by decide)

/-- What `print_tree` prints for a finite tree has the right bars exactly when
    no process with several children is at or below the last of several
    children. -/
theorem barsRight_iff (t : Table) (T : Rooted t) :
    (∃ s, Prints t s ∧ BarsRight T.tree s.out) ↔ Straight T.tree := by
  constructor
  · rintro ⟨s, hs, hright⟩
    rw [prints_unique t s _ hs (prints_output t T)] at hright
    exact straight_of_barsRight t T hright
  · exact fun h => ⟨_, prints_output t T, barsRight_of_straight t T h⟩

/-- Pid 1 has two children, and the last of them has two. -/
def forkedTable : Table :=
  enumerate [⟨1, 0, [105]⟩, ⟨3, 1, [98]⟩, ⟨2, 1, [97]⟩, ⟨5, 3, [100]⟩, ⟨4, 3, [99]⟩]

def forked : Rooted forkedTable where
  kids := .cons 2 .nil (.cons 3 (.cons 4 .nil (.cons 5 .nil .nil)) .nil)
  root := ⟨_, rfl, rfl, nofun⟩
  held := ⟨rfl, ⟨_, rfl, rfl, nofun⟩, rfl, rfl, ⟨_, rfl, rfl, nofun⟩,
    ⟨rfl, ⟨_, rfl, rfl, nofun⟩, rfl, rfl, ⟨_, rfl, rfl, nofun⟩, rfl, rfl⟩, rfl⟩
  nodup := by decide

/-- The line of process 5 begins with the bar of pid 1, whose last child is
    above it. -/
theorem forked_wrong : ¬ ∃ s, Prints forkedTable s ∧ BarsRight forked.tree s.out := by
  rintro ⟨s, hs, hright⟩
  rw [prints_unique _ s _ hs (prints_output _ forked)] at hright
  have hstraight := straight_of_barsRight _ forked hright
  exact hstraight 3 1 3 (by decide) ⟨[], [], rfl⟩ (by decide) rfl

end ProcessTree

end TlpiPractice
