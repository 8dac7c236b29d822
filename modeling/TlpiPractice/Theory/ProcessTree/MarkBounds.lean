import Mathlib.Data.List.Range
import TlpiPractice.Theory.ProcessTree.Layout

/-!
# The Bounds of the Bar Array

Which elements of `mark` printing a tree uses.

The array has 1024 elements, and nothing checks an index. Behind the last
child of a process a blank is stored at the column of its children, and what
is read for their lines lies before it. So the indices are within bounds
exactly if these columns are, that is if the labels on the way from pid 1 to
any process with children, with the connectors between them, are not too long
together. Names of 15 bytes are too long for about forty generations.

## Main definitions

* `markSize`: The size of `mark`.
* `Narrow`: No process with children is too far to the right.
* `deep`: A tree of 58 generations.

## Theorems

* `touches_lt`: The bounds for a list of children.
* `touched_iff`: The trees that stay within bounds.
* `deep_out_of_bounds`: One that does not.
-/

namespace TlpiPractice

namespace ProcessTree

open Forest

/-- The size of `mark`. -/
def markSize : Nat := 1024

/-- For every process with children, the labels on the way to it from the root,
    with one more byte for pid 1 and three for each other process, end within
    the array. -/
def Narrow (t : Table) (f : Forest Nat) : Prop :=
  ∀ q, f.children q ≠ [] → ((f.path q).map (widthOf t)).sum < markSize

section Bounds

variable (t : Table) (bound : Nat)

/-- No column of children is beyond the bound. -/
def ColumnsBelow (f : Forest Nat) (b : Nat) : Prop :=
  ∀ q ∈ f.preorder, f.children q ≠ [] → columnOf t f b q < bound

theorem columnsBelow_cons (i : Nat) (kids sibs : Forest Nat) (b : Nat)
    (hnodup : (cons i kids sibs).preorder.Nodup) :
    ColumnsBelow t bound (cons i kids sibs) b ↔
      (kids.nonempty = true → b + widthOf t i < bound) ∧
        ColumnsBelow t bound kids (b + widthOf t i) ∧ ColumnsBelow t bound sibs b := by
  rcases (nodup_cons_iff i kids sibs).mp hnodup with ⟨⟨hik, his⟩, -, -, hdisj⟩
  have hkids : ∀ q ∈ kids.preorder, q ≠ i := fun q hq h => hik (h ▸ hq)
  have hsibs : ∀ q ∈ sibs.preorder, q ≠ i ∧ q ∉ kids.preorder :=
    fun q hq => ⟨fun h => his (h ▸ hq), fun h => hdisj h hq⟩
  constructor
  · refine fun h => ⟨fun hne => ?_, fun q hq hc => ?_, fun q hq hc => ?_⟩
    · have hi := h i List.mem_cons_self
      rw [children, under_self, columnOf_self] at hi
      exact hi ((nonempty_iff kids).mp hne)
    · have hqk := h q ((mem_preorder_cons i q kids sibs).mpr (Or.inr (Or.inl hq)))
      rw [children, under_kids i q kids sibs (hkids q hq) hq,
        columnOf_kids t i q kids sibs b (hkids q hq) hq] at hqk
      exact hqk hc
    · have hqs := h q ((mem_preorder_cons i q kids sibs).mpr (Or.inr (Or.inr hq)))
      rcases hsibs q hq with ⟨hqi, hqk⟩
      rw [children, under_sibs i q kids sibs hqi hqk,
        columnOf_sibs t i q kids sibs b hqi hqk] at hqs
      exact hqs hc
  · rintro ⟨hself, hk, hs⟩ q hq hc
    rcases (mem_preorder_cons i q kids sibs).mp hq with rfl | hq | hq
    · rw [children, under_self] at hc
      rw [columnOf_self]
      exact hself ((nonempty_iff kids).mpr hc)
    · rw [children, under_kids i q kids sibs (hkids q hq) hq] at hc
      rw [columnOf_kids t i q kids sibs b (hkids q hq) hq]
      exact hk q hq hc
    · rcases hsibs q hq with ⟨hqi, hqk⟩
      rw [children, under_sibs i q kids sibs hqi hqk] at hc
      rw [columnOf_sibs t i q kids sibs b hqi hqk]
      exact hs q hq hc

/-- The elements used for a list of children are below the bound if all columns
    of children are, their own among them. -/
theorem touches_lt (f : Forest Nat) (first : Bool) (b : Nat) (hnodup : f.preorder.Nodup)
    (hb : first = false → b ≤ bound) :
    (∀ k ∈ touches t first f b, k < bound) ↔
      (first = true → f.nonempty = true → b < bound) ∧ ColumnsBelow t bound f b := by
  induction f generalizing first b with
  | nil =>
      refine ⟨fun _ => ⟨fun _ h => ?_, fun q hq => absurd hq List.not_mem_nil⟩, fun _ k hk => ?_⟩
      · cases h
      · exact absurd hk List.not_mem_nil
  | cons i kids sibs ihk ihs =>
      have hk := ihk true (b + widthOf t i) ((nodup_cons_iff i kids sibs).mp hnodup).2.1
        (fun h => absurd h (by decide))
      have hs := ihs false b ((nodup_cons_iff i kids sibs).mp hnodup).2.2.1
      have hfalse : (false = true → sibs.nonempty = true → b < bound) :=
        fun h => absurd h (by decide)
      rw [columnsBelow_cons t bound i kids sibs b hnodup, touches]
      simp only [List.forall_mem_append]
      cases first with
      | true =>
          -- The last access is to the column of the list itself.
          simp only [if_true, List.forall_mem_singleton]
          constructor
          · rintro ⟨-, hkids, hsibs, hlt⟩
            rcases hk.mp hkids with ⟨hself, hcols⟩
            exact ⟨fun _ _ => hlt, hself rfl, hcols, ((hs (fun _ => hlt.le)).mp hsibs).2⟩
          · rintro ⟨hlt, hself, hcols, hsibs⟩
            have hlt := hlt trivial rfl
            refine ⟨fun k hk' => ?_, hk.mpr ⟨fun _ => hself, hcols⟩,
              (hs (fun _ => hlt.le)).mpr ⟨hfalse, hsibs⟩, hlt⟩
            split at hk'
            · rw [List.mem_singleton.mp hk']
              exact hlt
            · exact absurd hk' List.not_mem_nil
      | false =>
          -- The bars that are read lie before that column.
          simp only [Bool.false_eq_true, if_false]
          constructor
          · rintro ⟨-, hkids, hsibs, -⟩
            rcases hk.mp hkids with ⟨hself, hcols⟩
            exact ⟨fun h => absurd h (by decide), hself rfl, hcols,
              ((hs (fun _ => hb rfl)).mp hsibs).2⟩
          · rintro ⟨-, hself, hcols, hsibs⟩
            refine ⟨fun k hk' => Nat.lt_of_lt_of_le (List.mem_range.mp hk') (hb rfl),
              hk.mpr ⟨fun _ => hself, hcols⟩, (hs (fun _ => hb rfl)).mpr ⟨hfalse, hsibs⟩,
              fun k hk' => absurd hk' List.not_mem_nil⟩

end Bounds

/-- For a whole tree. -/
theorem touched_output (t : Table) (T : Rooted t) :
    (∀ k ∈ touches t true T.kids (widthOf t 1), k < markSize) ↔ Narrow t T.tree := by
  have hnodup := (List.nodup_cons.mp T.nodup).2
  have htree := columnsBelow_cons t markSize 1 T.kids .nil 0 (nodup_tree t T)
  rw [touches_lt t markSize T.kids true _ hnodup (fun h => absurd h (by decide))]
  have hnil : ColumnsBelow t markSize (.nil : Forest Nat) 0 :=
    fun q hq => absurd hq List.not_mem_nil
  rw [Nat.zero_add] at htree
  constructor
  · rintro ⟨hself, hcols⟩ q hq
    have hlt := htree.mpr ⟨hself rfl, hcols, hnil⟩ q (mem_of_children _ q hq) hq
    rwa [columnOf, Nat.zero_add] at hlt
  · intro h
    have hcols : ColumnsBelow t markSize T.tree 0 := by
      intro q _ hq
      rw [columnOf, Nat.zero_add]
      exact h q hq
    rcases htree.mp hcols with ⟨hself, hkids, -⟩
    exact ⟨fun _ => hself, hkids⟩

/-- Printing a finite tree stays within `mark` exactly when no process with
    children is too far to the right. -/
theorem touched_iff (t : Table) (T : Rooted t) :
    (∃ s, Prints t s ∧ ∀ k ∈ s.touched, k < markSize) ↔ Narrow t T.tree := by
  rw [← touched_output t T]
  constructor
  · rintro ⟨s, hs, hlt⟩
    rw [prints_unique t s _ hs (prints_output t T)] at hlt
    exact hlt
  · exact fun h => ⟨_, prints_output t T, h⟩

/-! ### A deep tree -/

/-- A name of 15 bytes. -/
def longName : List UInt8 := List.replicate 15 97

/-- Each process is the only child of the one before it. -/
def deepTable : Table := fun i =>
  if 1 ≤ i ∧ i ≤ 58 then
    some { pid := i, ppid := (i : Int) - 1, ins := some longName,
           child := if i < 58 then some (i + 1) else none, next := none }
  else none

/-- Some generations from a process on. -/
def generations : Nat → Nat → Forest Nat
  | 0, _ => .nil
  | k + 1, i => .cons i (generations k (i + 1)) .nil

theorem preorder_generations (k i : Nat) : (generations k i).preorder = List.range' i k := by
  induction k generalizing i with
  | zero => rfl
  | succ k ih => rw [generations, preorder, ih, preorder, List.append_nil, List.range'_succ]

theorem held_generations (k i : Nat) (hi : 1 ≤ i) (hk : i + k = 59) :
    Held deepTable (if k = 0 then none else some i) (generations k i) := by
  induction k generalizing i with
  | zero => rfl
  | succ k ih =>
      have hin : 1 ≤ i ∧ i ≤ 58 := ⟨hi, by omega⟩
      refine ⟨if_neg (Nat.succ_ne_zero k), ⟨_, if_pos hin, rfl, nofun⟩, ?_, ?_⟩
      · -- The last generation has no child, and the forest ends there.
        have hnext := ih (i + 1) (by omega) (by omega)
        rw [childOf, deepTable, if_pos hin, Option.bind_some]
        by_cases hlast : k = 0
        · rw [if_neg (show ¬ i < 58 by omega)]
          rwa [if_pos hlast] at hnext
        · rw [if_pos (show i < 58 by omega)]
          rwa [if_neg hlast] at hnext
      · rw [nextOf, deepTable, if_pos hin]
        rfl

theorem path_generations (k i j : Nat) (hj : j < k) :
    (generations k i).path (i + j) = List.range' i (j + 1) := by
  induction k generalizing i j with
  | zero => exact absurd hj (Nat.not_lt_zero j)
  | succ k ih =>
      cases j with
      | zero => exact path_self i _ _
      | succ j =>
          have hmem : i + (j + 1) ∈ (generations k (i + 1)).preorder := by
            rw [preorder_generations]
            exact List.mem_range'_1.mpr ⟨by omega, by omega⟩
          rw [generations, path_kids i _ _ _ (by omega) hmem, List.range'_succ,
            show i + (j + 1) = i + 1 + j by omega, ih (i + 1) j (by omega)]

/-- There are 58 generations. -/
def deep : Rooted deepTable where
  kids := generations 57 2
  root := ⟨_, rfl, rfl, nofun⟩
  held := held_generations 57 2 (by decide) rfl
  nodup := by
    rw [preorder_generations]
    exact List.nodup_range' (s := 1) (n := 58)

theorem widthOf_deep (i : Nat) (hi : 1 ≤ i ∧ i ≤ 58) : 18 ≤ widthOf deepTable i := by
  have hlen : 17 ≤ (labelOf deepTable i).length := by
    rw [labelOf, deepTable, if_pos hi, Option.map_some, Option.getD_some, Option.getD_some, label]
    simp only [List.length_append, List.length_cons, List.length_nil, longName,
      List.length_replicate]
    omega
  rw [widthOf]
  split <;> omega

theorem widths_deep (k i : Nat) (hi : 1 ≤ i) (hk : i + k ≤ 59) :
    18 * k ≤ ((List.range' i k).map (widthOf deepTable)).sum := by
  induction k generalizing i with
  | zero => exact Nat.zero_le _
  | succ k ih =>
      have hrest := ih (i + 1) (by omega) (by omega)
      have hfirst := widthOf_deep i ⟨hi, by omega⟩
      rw [List.range'_succ, List.map_cons, List.sum_cons]
      omega

/-- Printing the last but one process uses elements that `mark` does not
    have. -/
theorem deep_out_of_bounds :
    ¬ ∃ s, Prints deepTable s ∧ ∀ k ∈ s.touched, k < markSize := by
  rintro ⟨s, hs, hlt⟩
  rw [prints_unique _ s _ hs (prints_output _ deep)] at hlt
  have htree : deep.tree = generations 58 1 := rfl
  have hpath : deep.tree.path 57 = List.range' 1 57 := path_generations 58 1 56 (by decide)
  have hkids : deep.tree.children 57 ≠ [] := by
    rw [htree]
    decide
  have hnarrow := (touched_output _ deep).mp hlt 57 hkids
  rw [hpath] at hnarrow
  have hsum := widths_deep 57 1 (Nat.le_refl 1) (by decide)
  rw [markSize] at hnarrow
  omega

end ProcessTree

end TlpiPractice
