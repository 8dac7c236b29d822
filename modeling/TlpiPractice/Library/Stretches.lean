import Mathlib.Data.List.DropRight
import Mathlib.Data.List.Infix

/-!
# Stretches of a List

A bound on every stretch of consecutive elements that pass a test, and how a
reader that goes through the list once can keep track of it.

Such a reader only ever sees the stretch that the elements read so far end
with. `runsHold_concat` says that this is enough: reading one more element
keeps the bound exactly when the stretch at the end keeps it.

## Main definitions

* `RunsHold`: The length of every stretch of passing elements is acceptable.

## Theorems

* `rtakeWhile_append_of_all`: Passing elements lengthen the stretch at the
  end.
* `length_le_rtakeWhile`: The stretch at the end is the longest one there.
* `runsHold_concat`: One more element.
-/

namespace Stretches

variable {α : Type*}

/-- The length of every stretch of elements that pass the test is
    acceptable. -/
def RunsHold (ok : Nat → Prop) (test : α → Bool) (l : List α) : Prop :=
  ∀ r, r <:+: l → (∀ x ∈ r, test x = true) → ok r.length

/-- Passing elements lengthen the stretch at the end. -/
theorem rtakeWhile_append_of_all (test : α → Bool) (l r : List α)
    (h : ∀ x ∈ r, test x = true) : (l ++ r).rtakeWhile test = l.rtakeWhile test ++ r := by
  induction r using List.reverseRecOn with
  | nil => rw [List.append_nil, List.append_nil]
  | append_singleton r x ih =>
      have hx : test x = true := h x (List.mem_append_right _ List.mem_cons_self)
      rw [← List.append_assoc, List.rtakeWhile_concat_pos _ _ _ hx,
        ih (fun y hy => h y (List.mem_append_left _ hy)), List.append_assoc]

/-- The stretch at the end is the longest one there. -/
theorem length_le_rtakeWhile (test : α → Bool) (l r : List α) (hr : r <:+ l)
    (h : ∀ x ∈ r, test x = true) : r.length ≤ (l.rtakeWhile test).length := by
  rcases hr with ⟨t, rfl⟩
  rw [rtakeWhile_append_of_all test t r h, List.length_append]
  exact Nat.le_add_left _ _

theorem runsHold_nil (ok : Nat → Prop) (test : α → Bool) (h : ok 0) : RunsHold ok test [] := by
  intro r hr _
  rw [List.infix_nil.mp hr]
  exact h

/-- One more element keeps the bound exactly when the stretch at the end
    keeps it. -/
theorem runsHold_concat (ok : Nat → Prop) (hmono : ∀ m n, m ≤ n → ok n → ok m)
    (test : α → Bool) (l : List α) (x : α) :
    RunsHold ok test (l ++ [x]) ↔
      RunsHold ok test l ∧ ok ((l ++ [x]).rtakeWhile test).length := by
  constructor
  · intro h
    refine ⟨fun r hr => h r (hr.trans (List.prefix_append l [x]).isInfix), ?_⟩
    exact h _ (List.rtakeWhile_suffix test (l ++ [x])).isInfix
      (fun y hy => List.mem_rtakeWhile_imp hy)
  · intro h r hr hall
    rcases List.infix_concat_iff.mp hr with hsuf | hin
    · exact hmono _ _ (length_le_rtakeWhile test (l ++ [x]) r hsuf hall) h.2
    · exact h.1 r hin hall

/-- A bound on the whole is a bound on the parts. -/
theorem runsHold_prefix (ok : Nat → Prop) (test : α → Bool) (l l' : List α) (hl : l <+: l')
    (h : RunsHold ok test l') : RunsHold ok test l :=
  fun r hr hall => h r (hr.trans hl.isInfix) hall

end Stretches
