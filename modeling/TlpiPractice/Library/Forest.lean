import Mathlib.Data.List.Nodup
import Mathlib.Logic.Relation

/-!
# Forests

Trees side by side, as cells that have a first child and a next sibling each.
A list of children is a forest, and so is what hangs below each of them.

An element is found by going to it: `under` gives the trees that hang below
it, and `path` the elements passed on the way. In a forest that has no element
twice there is one way to go, and whether an element is below the first root
or in the other trees is settled by where it is, which is what the lemmas
about a cell say.

Where lists of children are given for all elements, `Shaped` says that a forest
is what they make of some roots. There is such a forest if a rank gets larger
from an element to its children and is bounded. If no element is a child of
two, it has no element twice.

## Main definitions

* `Forest`: A first tree, as its root and what is below, and the others.
* `preorder`: All elements, each before those below it.
* `tops`: The roots of the trees.
* `leaves`: How many elements have nothing below them.
* `under`, `children`: The trees below an element, and their roots.
* `path`: The elements from a root to an element.
* `Passes`: Two elements that come one after the other on the way.
* `Shaped`: The forest that lists of children make.

## Theorems

* `tops_subset`, `under_subset`, `path_subset`: They are among the elements.
* `mem_sibs`: An element of the other trees.
* `under_self`, `under_kids`, `under_sibs`: Where to look.
* `path_self`, `path_kids`, `path_sibs`: The way there.
* `passes_kids`, `passes_sibs`: What the way passes.
* `several_iff`: There are at least two trees.
* `exists_shaped`: Lists of children make a forest.
* `mem_shaped`, `nodup_shaped`: What is in it, and that it is there once.
-/

/-- Trees, the first of them as its root and what is below that. -/
inductive Forest (α : Type*) where
  | nil : Forest α
  | cons (a : α) (kids sibs : Forest α) : Forest α

namespace Forest

variable {α : Type*}

/-- All elements, each before those below it. -/
def preorder : Forest α → List α
  | nil => []
  | cons a kids sibs => a :: (kids.preorder ++ sibs.preorder)

/-- The roots. -/
def tops : Forest α → List α
  | nil => []
  | cons a _ sibs => a :: sibs.tops

/-- There is a tree. -/
def nonempty : Forest α → Bool
  | nil => false
  | cons _ _ _ => true

/-- There are at least two. -/
def several : Forest α → Bool
  | nil => false
  | cons _ _ sibs => sibs.nonempty

/-- How many elements have nothing below them. -/
def leaves : Forest α → Nat
  | nil => 0
  | cons _ kids sibs => (if kids.nonempty then kids.leaves else 1) + sibs.leaves

theorem mem_preorder_cons (a b : α) (kids sibs : Forest α) :
    b ∈ (cons a kids sibs).preorder ↔ b = a ∨ b ∈ kids.preorder ∨ b ∈ sibs.preorder := by
  rw [preorder, List.mem_cons, List.mem_append]

/-- An element of a forest that is not in the first tree is in the others. -/
theorem mem_sibs (a b : α) (kids sibs : Forest α) (h : b ∈ (cons a kids sibs).preorder)
    (hne : b ≠ a) (hb : b ∉ kids.preorder) : b ∈ sibs.preorder :=
  (((mem_preorder_cons a b kids sibs).mp h).resolve_left hne).resolve_left hb

theorem tops_sublist (f : Forest α) : f.tops.Sublist f.preorder := by
  induction f with
  | nil => exact List.Sublist.refl _
  | cons a kids sibs _ ih => exact (ih.trans (List.sublist_append_right _ _)).cons_cons a

theorem tops_subset (f : Forest α) : f.tops ⊆ f.preorder := (tops_sublist f).subset

theorem nonempty_iff (f : Forest α) : f.nonempty = true ↔ f.tops ≠ [] := by
  cases f with
  | nil => exact ⟨fun h => absurd h Bool.false_ne_true, fun h => absurd rfl h⟩
  | cons a kids sibs => exact ⟨fun _ => List.cons_ne_nil _ _, fun _ => rfl⟩

theorem several_iff (f : Forest α) : f.several = true ↔ 2 ≤ f.tops.length := by
  cases f with
  | nil => exact ⟨fun h => absurd h Bool.false_ne_true, fun h => absurd h (Nat.not_succ_le_zero 1)⟩
  | cons a kids sibs =>
      rw [several, nonempty_iff, tops, List.length_cons, ← List.length_pos_iff]
      omega

/-- The parts of a forest that has no element twice. -/
theorem nodup_cons_iff (a : α) (kids sibs : Forest α) :
    (cons a kids sibs).preorder.Nodup ↔ (a ∉ kids.preorder ∧ a ∉ sibs.preorder) ∧
      kids.preorder.Nodup ∧ sibs.preorder.Nodup ∧ kids.preorder.Disjoint sibs.preorder := by
  rw [preorder, List.nodup_cons, List.mem_append, not_or, List.nodup_append']

variable [DecidableEq α]

/-- The trees below an element. -/
def under : Forest α → α → Forest α
  | nil, _ => nil
  | cons a kids sibs, b =>
      if b = a then kids else if b ∈ kids.preorder then kids.under b else sibs.under b

/-- The elements from a root to an element, with both. -/
def path : Forest α → α → List α
  | nil, _ => []
  | cons a kids sibs, b =>
      if b = a then [a] else if b ∈ kids.preorder then a :: kids.path b else sibs.path b

/-- The children of an element. -/
def children (f : Forest α) (a : α) : List α := (f.under a).tops

section Cons

variable (a b : α) (kids sibs : Forest α)

theorem under_self : (cons a kids sibs).under a = kids := if_pos rfl

theorem under_kids (hne : b ≠ a) (hb : b ∈ kids.preorder) :
    (cons a kids sibs).under b = kids.under b := by
  rw [under, if_neg hne, if_pos hb]

theorem under_sibs (hne : b ≠ a) (hb : b ∉ kids.preorder) :
    (cons a kids sibs).under b = sibs.under b := by
  rw [under, if_neg hne, if_neg hb]

theorem path_self : (cons a kids sibs).path a = [a] := if_pos rfl

theorem path_kids (hne : b ≠ a) (hb : b ∈ kids.preorder) :
    (cons a kids sibs).path b = a :: kids.path b := by
  rw [path, if_neg hne, if_pos hb]

theorem path_sibs (hne : b ≠ a) (hb : b ∉ kids.preorder) :
    (cons a kids sibs).path b = sibs.path b := by
  rw [path, if_neg hne, if_neg hb]

end Cons

theorem under_sublist (f : Forest α) (a : α) : (f.under a).preorder.Sublist f.preorder := by
  induction f with
  | nil => exact List.Sublist.refl _
  | cons b kids sibs ihk ihs =>
      rw [under, preorder]
      split
      · exact (List.sublist_append_left _ _).cons b
      · split
        · exact (ihk.trans (List.sublist_append_left _ _)).cons b
        · exact (ihs.trans (List.sublist_append_right _ _)).cons b

theorem under_subset (f : Forest α) (a : α) : (f.under a).preorder ⊆ f.preorder :=
  (under_sublist f a).subset

/-- In a forest that has no element twice, no two children are the same. -/
theorem children_nodup (f : Forest α) (a : α) (h : f.preorder.Nodup) : (f.children a).Nodup :=
  h.sublist ((tops_sublist _).trans (under_sublist f a))

theorem children_subset (f : Forest α) (a : α) : f.children a ⊆ f.preorder :=
  fun _ hb => under_subset f a (tops_subset _ hb)

theorem path_subset (f : Forest α) (a : α) : f.path a ⊆ f.preorder := by
  induction f with
  | nil => exact List.Subset.refl _
  | cons b kids sibs ihk ihs =>
      intro c hc
      rw [mem_preorder_cons]
      rw [path] at hc
      split at hc
      · exact Or.inl (List.mem_singleton.mp hc)
      · split at hc
        · rcases List.mem_cons.mp hc with hc | hc
          · exact Or.inl hc
          · exact Or.inr (Or.inl (ihk hc))
        · exact Or.inr (Or.inr (ihs hc))

/-- An element that is not there has no children. -/
theorem mem_of_children (f : Forest α) (a : α) (h : f.children a ≠ []) : a ∈ f.preorder := by
  induction f with
  | nil => exact absurd rfl h
  | cons b kids sibs _ ihs =>
      -- Only the way to the other trees is open to an element that is not there.
      rw [mem_preorder_cons]
      by_cases hab : a = b
      · exact Or.inl hab
      by_cases hk : a ∈ kids.preorder
      · exact Or.inr (Or.inl hk)
      · rw [children, under_sibs b a kids sibs hab hk] at h
        exact Or.inr (Or.inr (ihs h))

/-- The way to `a` goes from `b` on to `c`, its child. -/
def Passes (f : Forest α) (a b c : α) : Prop :=
  ∃ before after, f.path a = before ++ b :: c :: after

theorem path_ne_nil (f : Forest α) (a : α) (h : a ∈ f.preorder) : f.path a ≠ [] := by
  induction f with
  | nil => exact absurd h List.not_mem_nil
  | cons b kids sibs _ ihs =>
      rw [path]
      split
      · exact List.cons_ne_nil _ _
      · split
        · exact List.cons_ne_nil _ _
        · rename_i hb hk
          exact ihs (mem_sibs b a kids sibs h hb hk)

theorem mem_of_passes (f : Forest α) (a b c : α) (h : f.Passes a b c) : b ∈ f.preorder := by
  rcases h with ⟨before, after, h⟩
  refine path_subset f a ?_
  rw [h]
  exact List.mem_append_right _ List.mem_cons_self

section Passes

variable (i : α) (kids sibs : Forest α) (a b c : α)

/-- The way to a root passes nothing. -/
theorem not_passes_self : ¬ (cons i kids sibs).Passes i b c := by
  rintro ⟨before, after, h⟩
  rw [path_self] at h
  have hlen := congrArg List.length h
  simp only [List.length_append, List.length_cons, List.length_nil] at hlen
  omega

/-- The way to what is below the first root starts at that. -/
theorem passes_kids (hne : a ≠ i) (ha : a ∈ kids.preorder) :
    (cons i kids sibs).Passes a b c ↔
      (b = i ∧ (kids.path a).head? = some c) ∨ kids.Passes a b c := by
  rw [Passes, path_kids i a kids sibs hne ha]
  constructor
  · rintro ⟨before, after, h⟩
    cases before with
    | nil =>
        rw [List.nil_append, List.cons_eq_cons] at h
        exact Or.inl ⟨h.1.symm, by rw [h.2, List.head?_cons]⟩
    | cons j before =>
        rw [List.cons_append, List.cons_eq_cons] at h
        exact Or.inr ⟨before, after, h.2⟩
  · rintro (⟨rfl, h⟩ | ⟨before, after, h⟩)
    · rcases List.head?_eq_some_iff.mp h with ⟨after, h⟩
      exact ⟨[], after, by rw [h, List.nil_append]⟩
    · exact ⟨i :: before, after, by rw [h, List.cons_append]⟩

theorem passes_sibs (hne : a ≠ i) (ha : a ∉ kids.preorder) :
    (cons i kids sibs).Passes a b c ↔ sibs.Passes a b c := by
  rw [Passes, path_sibs i a kids sibs hne ha, Passes]

end Passes

section Shaped

omit [DecidableEq α]

variable (kids : α → List α)

/-- The forest has these roots, and below each element its children. -/
def Shaped : Forest α → List α → Prop
  | nil, roots => roots = []
  | cons a below sibs, roots =>
      ∃ rest, roots = a :: rest ∧ Shaped below (kids a) ∧ Shaped sibs rest

/-- An element is a child of another. -/
def ChildOf (b a : α) : Prop := b ∈ kids a

/-- Lists of children make a forest if some rank of the children is larger than
    that of the element, but never larger than a bound. -/
theorem exists_shaped (rank : α → Nat) (n : Nat)
    (hrank : ∀ a b, b ∈ kids a → rank a < rank b ∧ rank b ≤ n) (roots : List α) :
    ∃ f : Forest α, Shaped kids f roots := by
  suffices hmain : ∀ m (l : List α), (∀ a ∈ l, n - rank a < m) → ∃ f, Shaped kids f l from
    hmain (n + 1) roots (fun a _ => by omega)
  intro m
  -- By induction on how far the ranks are from the bound, and then on the list.
  induction m with
  | zero =>
      intro l hl
      cases l with
      | nil => exact ⟨nil, rfl⟩
      | cons a l => exact absurd (hl a List.mem_cons_self) (Nat.not_lt_zero _)
  | succ m ih =>
      intro l hl
      induction l with
      | nil => exact ⟨nil, rfl⟩
      | cons a l ihl =>
          have ha := hl a List.mem_cons_self
          rcases ih (kids a) (fun b hb => by have := hrank a b hb; omega) with ⟨below, hbelow⟩
          rcases ihl (fun b hb => hl b (List.mem_cons_of_mem a hb)) with ⟨sibs, hsibs⟩
          exact ⟨cons a below sibs, l, rfl, hbelow, hsibs⟩

/-- Whatever is in the forest comes down from a root. -/
theorem mem_shaped (f : Forest α) (roots : List α) (h : Shaped kids f roots) (x : α)
    (hx : x ∈ f.preorder) : ∃ c ∈ roots, Relation.ReflTransGen (ChildOf kids) x c := by
  induction f generalizing roots with
  | nil => exact absurd hx List.not_mem_nil
  | cons a below sibs ihb ihs =>
      rcases h with ⟨rest, rfl, hbelow, hsibs⟩
      rcases (mem_preorder_cons a x below sibs).mp hx with rfl | hx | hx
      · exact ⟨x, List.mem_cons_self, Relation.ReflTransGen.refl⟩
      · rcases ihb (kids a) hbelow hx with ⟨c, hc, hxc⟩
        exact ⟨a, List.mem_cons_self, hxc.tail hc⟩
      · rcases ihs rest hsibs hx with ⟨c, hc, hxc⟩
        exact ⟨c, List.mem_cons_of_mem a hc, hxc⟩

variable (rank : α → Nat) (hrank : ∀ a b, b ∈ kids a → rank a < rank b)
  (hunique : ∀ a b c, c ∈ kids a → c ∈ kids b → a = b)

include hrank

/-- What comes down from an element has no smaller rank. -/
theorem rank_le_of_comesDown (x c : α) (h : Relation.ReflTransGen (ChildOf kids) x c) :
    rank c ≤ rank x := by
  induction h with
  | refl => exact Nat.le_refl _
  | tail _ hchild ih => exact Nat.le_trans (Nat.le_of_lt (hrank _ _ hchild)) ih

include hunique

/-- No child comes down from another child of the same element. -/
theorem eq_of_siblings (a x y : α) (hx : x ∈ kids a) (hy : y ∈ kids a)
    (h : Relation.ReflTransGen (ChildOf kids) x y) : x = y := by
  rcases Relation.ReflTransGen.cases_head h with heq | ⟨b, hxb, hby⟩
  · exact heq
  · -- The way from `x` leads over `a`, which has a smaller rank than `y`.
    have hle := rank_le_of_comesDown kids rank hrank b y hby
    have hlt := hrank a y hy
    rw [hunique b a x hxb hx] at hle
    omega

/-- If no element is a child of two, the forest has no element twice. -/
theorem nodup_shaped (f : Forest α) (roots : List α) (h : Shaped kids f roots)
    (hkids : ∀ a, (kids a).Nodup) (hroots : roots.Nodup)
    (hapart : ∀ x ∈ roots, ∀ y ∈ roots, Relation.ReflTransGen (ChildOf kids) x y → x = y) :
    f.preorder.Nodup := by
  induction f generalizing roots with
  | nil => exact List.nodup_nil
  | cons a below sibs ihb ihs =>
      rcases h with ⟨rest, rfl, hbelow, hsibs⟩
      rcases List.nodup_cons.mp hroots with ⟨harest, hrest⟩
      -- What is below `a` does not come down from another root.
      have hother : ∀ c ∈ rest, ∀ x, Relation.ReflTransGen (ChildOf kids) x a →
          ¬ Relation.ReflTransGen (ChildOf kids) x c := by
        intro c hc x hxa hxc
        have hca : a = c := by
          rcases Relation.ReflTransGen.total_of_right_unique
            (fun x y z hy hz => hunique y z x hy hz) hxa hxc with hac | hca
          · exact hapart a List.mem_cons_self c (List.mem_cons_of_mem a hc) hac
          · exact (hapart c (List.mem_cons_of_mem a hc) a List.mem_cons_self hca).symm
        exact harest (hca ▸ hc)
      refine (nodup_cons_iff a below sibs).mpr ⟨⟨fun ha => ?_, fun ha => ?_⟩, ?_, ?_, ?_⟩
      · rcases mem_shaped kids below _ hbelow a ha with ⟨c, hc, hac⟩
        have hle := rank_le_of_comesDown kids rank hrank a c hac
        have hlt := hrank a c hc
        omega
      · rcases mem_shaped kids sibs _ hsibs a ha with ⟨c, hc, hac⟩
        exact hother c hc a Relation.ReflTransGen.refl hac
      · exact ihb (kids a) hbelow (hkids a)
          (fun x hx y hy => eq_of_siblings kids rank hrank hunique a x y hx hy)
      · exact ihs rest hsibs hrest (fun x hx y hy => hapart x (List.mem_cons_of_mem a hx) y
          (List.mem_cons_of_mem a hy))
      · intro x hxb hxs
        rcases mem_shaped kids below _ hbelow x hxb with ⟨c, hc, hxc⟩
        rcases mem_shaped kids sibs _ hsibs x hxs with ⟨c', hc', hxc'⟩
        exact hother c' hc' x (hxc.tail hc) hxc'

end Shaped

end Forest
