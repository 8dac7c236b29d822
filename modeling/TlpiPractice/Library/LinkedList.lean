import Mathlib.Data.List.Nodup
import Mathlib.Logic.Function.Basic

/-!
# Singly Linked Lists

Cells linked by a pointer each, read as the list of cells from a first
pointer to the end. A pointer is an optional cell, and the links are a
function, so the same definitions serve any record that has a link in it.

A chain that ends has no cell twice: reading on from a cell always gives the
same, so a cell that came back would come back forever. This is what makes
the edits below local. A change to one cell's link leaves every chain alone
that does not go through that cell.

## Main definitions

* `Linked`: The cells from a pointer to the end.

## Theorems

* `linked_unique`: There is one way to read a chain.
* `linked_nodup`: A chain that ends has no cell twice.
* `linked_update`: A cell outside the chain can be relinked.
* `linked_cons`: A cell put in front of a chain.
* `linked_unlink`: A cell taken out of a chain.
* `linked_insert`: A cell put into a chain.
-/

namespace LinkedList

variable {α : Type*}

/-- The cells from the pointer `p` to the end are those of the list. -/
def Linked (next : α → Option α) : Option α → List α → Prop
  | p, [] => p = none
  | p, a :: l => p = some a ∧ Linked next (next a) l

theorem linked_unique (next : α → Option α) (p : Option α) (l l' : List α)
    (h : Linked next p l) (h' : Linked next p l') : l = l' := by
  induction l generalizing p l' with
  | nil =>
      cases l' with
      | nil => rfl
      | cons a l' => exact nomatch h.symm.trans h'.1
  | cons a l ih =>
      cases l' with
      | nil => exact nomatch h'.symm.trans h.1
      | cons b l' =>
          have hab : a = b := Option.some.inj (h.1.symm.trans h'.1)
          subst hab
          rw [ih (next a) l' h.2 h'.2]

/-- From a cell of the chain on it is a chain. -/
theorem linked_suffix (next : α → Option α) (p : Option α) (s : List α) (a : α) (u : List α)
    (h : Linked next p (s ++ a :: u)) : Linked next (some a) (a :: u) := by
  induction s generalizing p with
  | nil => exact ⟨rfl, h.2⟩
  | cons b s ih => exact ih (next b) h.2

/-- A chain that ends has no cell twice. -/
theorem linked_nodup (next : α → Option α) (p : Option α) (l : List α) (h : Linked next p l) :
    l.Nodup := by
  induction l generalizing p with
  | nil => exact List.nodup_nil
  | cons a l ih =>
      refine List.nodup_cons.mpr ⟨fun hmem => ?_, ih (next a) h.2⟩
      -- The rest from the second place on would be as long as from the first.
      rcases List.append_of_mem hmem with ⟨s, u, rfl⟩
      have hrest := linked_suffix next (next a) s a u h.2
      have hall : Linked next (some a) (a :: (s ++ a :: u)) := ⟨rfl, h.2⟩
      have hlen := congrArg List.length (linked_unique next _ _ _ hrest hall)
      simp only [List.length_cons, List.length_append] at hlen
      omega

theorem linked_congr (next next' : α → Option α) (p : Option α) (l : List α)
    (hsame : ∀ a ∈ l, next' a = next a) (h : Linked next p l) : Linked next' p l := by
  induction l generalizing p with
  | nil => exact h
  | cons a l ih =>
      refine ⟨h.1, ?_⟩
      rw [hsame a List.mem_cons_self]
      exact ih (next a) (fun b hb => hsame b (List.mem_cons_of_mem _ hb)) h.2

variable [DecidableEq α]

/-- A cell outside the chain can be relinked. -/
theorem linked_update (next : α → Option α) (p : Option α) (l : List α) (a : α) (x : Option α)
    (ha : a ∉ l) (h : Linked next p l) : Linked (Function.update next a x) p l := by
  refine linked_congr next _ p l (fun b hb => ?_) h
  exact Function.update_of_ne (fun (hba : b = a) => ha (hba ▸ hb)) x next

/-- A cell outside the chain, linked to its first cell, makes a longer
    chain. -/
theorem linked_cons (next : α → Option α) (p : Option α) (l : List α) (a : α) (ha : a ∉ l)
    (h : Linked next p l) : Linked (Function.update next a p) (some a) (a :: l) := by
  refine ⟨rfl, ?_⟩
  rw [Function.update_self]
  exact linked_update next p l a p ha h

/-- A cell is taken out by linking the one before it to the one behind it. -/
theorem linked_unlink (next : α → Option α) (p : Option α) (s : List α) (b a : α) (u : List α)
    (h : Linked next p (s ++ b :: a :: u)) :
    Linked (Function.update next b (next a)) p (s ++ b :: u) := by
  induction s generalizing p with
  | nil =>
      have hnodup := linked_nodup next p _ h
      have hb : b ∉ u := fun hb => (List.nodup_cons.mp hnodup).1 (List.mem_cons_of_mem _ hb)
      refine ⟨h.1, ?_⟩
      rw [Function.update_self]
      exact linked_update next _ u b _ hb h.2.2
  | cons c s ih =>
      have hnodup := linked_nodup next p _ h
      have hcb : c ≠ b := by
        intro hcb
        rw [List.cons_append] at hnodup
        exact (List.nodup_cons.mp hnodup).1
          (hcb ▸ List.mem_append_right _ List.mem_cons_self)
      refine ⟨h.1, ?_⟩
      rw [Function.update_of_ne hcb]
      exact ih (next c) h.2

/-- A new cell is put in behind another one of the chain that begins behind
    the cell `h`, or behind `h` itself. -/
theorem linked_insert (next : α → Option α) (h t : α) (r u : List α)
    (hl : Linked next (next h) (r ++ u)) (hh : h ∉ r ++ u) (ht : t ∉ r ++ u) (hth : t ≠ h)
    (b : α) (hb : (h :: r).getLast (List.cons_ne_nil h r) = b) (next' : α → Option α)
    (hnext : next' = Function.update (Function.update next t (next b)) b (some t)) :
    Linked next' (next' h) (r ++ t :: u) := by
  subst hnext
  induction r generalizing h with
  | nil =>
      rw [List.getLast_singleton] at hb
      subst hb
      rw [Function.update_self]
      refine ⟨rfl, ?_⟩
      rw [Function.update_of_ne hth, Function.update_self]
      exact linked_update _ _ u h _ hh (linked_update next _ u t _ ht hl)
  | cons c r ih =>
      rw [List.getLast_cons (List.cons_ne_nil c r)] at hb
      have hnodup := linked_nodup next _ _ hl
      rw [List.cons_append, List.nodup_cons] at hnodup
      rw [List.cons_append, List.mem_cons, not_or] at ht
      -- The link of `h` is not one of those that change.
      have hbh : h ≠ b := by
        rintro rfl
        exact hh (List.mem_append_left u (hb ▸ List.getLast_mem _))
      rw [Function.update_of_ne hbh, Function.update_of_ne hth.symm]
      exact ⟨hl.1, ih c hl.2 hnodup.1 ht.2 ht.1 hb⟩

end LinkedList
