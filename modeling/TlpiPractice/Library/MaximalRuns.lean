import Mathlib.Data.List.Induction
import Mathlib.Data.List.Infix
import Mathlib.Data.List.SplitBy
import Mathlib.Tactic.Common

/-!
# Maximal Runs

A list cut where the kind of its elements changes, for a test that tells two
kinds apart.

`List.splitBy` does the cutting. A reader that goes through the list once has
at each point some runs that have ended and one that may still go on. `ended`
and `current` are these. An element of the same kind makes the current run
longer, and one of the other kind ends it; `runs_concat_same` and
`runs_concat_other` say so. The first element of a list counts as one of the same kind, since
there is no run before it.

## Main definitions

* `runs`: The maximal runs.
* `ended`, `current`: All runs but the last, and the last.

## Theorems

* `runs_eq`: The runs that have ended and the current one.
* `same_kind`: A run has elements of one kind.
* `same_or_other`: The next element continues the current run or ends it.
* `runs_concat_same`, `runs_concat_other`: What it makes of the runs.
* `forall_runs_concat`: What holds of all runs after it.
* `ended_mono`: Runs that have ended stay.
-/

namespace MaximalRuns

variable {α : Type*} (kind : α → Bool)

/-- The maximal runs of elements of one kind. -/
def runs (l : List α) : List (List α) := l.splitBy (fun a b => kind a == kind b)

/-- The runs that have ended. -/
def ended (l : List α) : List (List α) := (runs kind l).dropLast

/-- The run that the list ends with. -/
def current (l : List α) : List α := (runs kind l).getLastD []

theorem runs_eq (l : List α) (h : l ≠ []) : runs kind l = ended kind l ++ [current kind l] := by
  have hne : runs kind l ≠ [] := List.splitBy_ne_nil.mpr h
  rw [ended, current, List.getLastD_eq_getLast?, List.getLast?_eq_some_getLast hne,
    Option.getD_some, List.dropLast_append_getLast hne]

theorem flatten_runs (l : List α) : (runs kind l).flatten = l := List.flatten_splitBy _ l

theorem current_ne_nil (l : List α) (h : l ≠ []) : current kind l ≠ [] := by
  refine List.ne_nil_of_mem_splitBy (r := fun a b => kind a == kind b) (l := l) ?_
  have hmem : current kind l ∈ runs kind l := by
    rw [runs_eq kind l h]
    exact List.mem_append_right _ List.mem_cons_self
  exact hmem

theorem current_mem (l : List α) (h : l ≠ []) : current kind l ∈ runs kind l := by
  rw [runs_eq kind l h]
  exact List.mem_append_right _ List.mem_cons_self

/-- A run has elements of one kind. -/
theorem same_kind (l r : List α) (hr : r ∈ runs kind l) (x y : α) (hx : x ∈ r) (hy : y ∈ r) :
    kind x = kind y := by
  have hchain : r.IsChain (fun x y => kind x = kind y) :=
    (List.isChain_of_mem_splitBy hr).imp (fun _ _ => beq_iff_eq.mp)
  have htrans : Trans (fun x y => kind x = kind y) (fun x y => kind x = kind y)
      (fun x y => kind x = kind y) := ⟨Eq.trans⟩
  have hpair := List.isChain_iff_pairwise.mp hchain
  have hsymm : Std.Symm (fun x y => kind x = kind y) := ⟨fun _ _ => Eq.symm⟩
  exact List.Pairwise.forall_of_forall (R := fun x y => kind x = kind y) (fun _ _ => rfl) hpair
    hx hy

/-- A list of one kind is one run. -/
theorem runs_of_same (l : List α) (hl : l ≠ []) (h : ∀ x ∈ l, ∀ y ∈ l, kind x = kind y) :
    runs kind l = [l] := by
  refine List.splitBy_of_isChain hl (List.Pairwise.isChain ?_)
  exact List.pairwise_of_forall_mem_list (fun x hx y hy => beq_iff_eq.mpr (h x hx y hy))

/-- The next element continues the current run, or ends it. -/
theorem same_or_other (l : List α) (b : α) :
    (∀ x ∈ current kind l, kind x = kind b) ∨
      (l ≠ [] ∧ ∀ x ∈ current kind l, kind x ≠ kind b) := by
  by_cases hl : l = []
  · subst hl
    exact .inl (fun x hx => absurd hx List.not_mem_nil)
  · rcases List.exists_mem_of_ne_nil _ (current_ne_nil kind l hl) with ⟨y, hy⟩
    have hsame := same_kind kind l _ (current_mem kind l hl)
    by_cases hb : kind y = kind b
    · exact .inl (fun x hx => (hsame x y hx hy).trans hb)
    · exact .inr ⟨hl, fun x hx hxb => hb ((hsame y x hy hx).trans hxb)⟩

/-! ### One more element -/

/-- An element of the same kind makes the current run longer. -/
theorem runs_concat_same (l : List α) (b : α) (h : ∀ x ∈ current kind l, kind x = kind b) :
    runs kind (l ++ [b]) = ended kind l ++ [current kind l ++ [b]] := by
  by_cases hl : l = []
  · subst hl
    rfl
  have hruns := runs_eq kind l hl
  have hcur := current_ne_nil kind l hl
  -- The runs of `l` are a cut of `l`, and so they are with the element added to the last.
  rcases List.splitBy_eq_iff.mp hruns with ⟨hflat, hnil, hchain, hturn⟩
  refine List.splitBy_eq_iff.mpr ⟨?_, ?_, ?_, ?_⟩
  · rw [List.flatten_append, List.flatten_singleton] at hflat ⊢
    rw [← List.append_assoc, ← hflat]
  · intro hmem
    rcases List.mem_append.mp hmem with hmem | hmem
    · exact hnil (List.mem_append_left _ hmem)
    · exact List.append_ne_nil_of_right_ne_nil _ (List.cons_ne_nil b [])
        (List.mem_singleton.mp hmem).symm
  · intro m hm
    rcases List.mem_append.mp hm with hm | hm
    · exact hchain m (List.mem_append_left _ hm)
    · rw [List.mem_singleton.mp hm]
      refine List.isChain_append.mpr
        ⟨hchain _ (List.mem_append_right _ List.mem_cons_self), List.isChain_singleton b, ?_⟩
      intro x hx y hy
      rw [List.head?_singleton, Option.mem_some] at hy
      exact beq_iff_eq.mpr (hy ▸ h x (List.mem_of_mem_getLast? hx))
  · rcases List.isChain_append.mp hturn with ⟨hold, -, hlast⟩
    refine List.isChain_append.mpr ⟨hold, List.isChain_singleton _, fun x hx y hy => ?_⟩
    rw [List.head?_singleton, Option.mem_some] at hy
    subst hy
    -- The run still begins with the same element, so the kind still changes there.
    rcases hlast x hx _ (Option.mem_some.mpr rfl) with ⟨hx', hcur', hne⟩
    refine ⟨hx', List.append_ne_nil_of_right_ne_nil _ (List.cons_ne_nil b []), ?_⟩
    rwa [List.head_append_of_ne_nil hcur]

/-- An element of the other kind ends the current run. -/
theorem runs_concat_other (l : List α) (b : α) (hl : l ≠ [])
    (h : ∀ x ∈ current kind l, kind x ≠ kind b) :
    runs kind (l ++ [b]) = ended kind l ++ [current kind l] ++ [[b]] := by
  rw [← runs_eq kind l hl]
  refine List.splitBy_append_cons [] (fun x hx => ?_)
  have hlast : x ∈ current kind l := by
    have hflat := flatten_runs kind l
    rw [runs_eq kind l hl, List.flatten_append, List.flatten_singleton] at hflat
    rw [← hflat, List.getLast?_append_of_ne_nil _ (current_ne_nil kind l hl)] at hx
    exact List.mem_of_mem_getLast? hx
  exact beq_eq_false_iff_ne.mpr (h x hlast)

section Concat

variable (l : List α) (b : α)

theorem ended_concat_same (h : ∀ x ∈ current kind l, kind x = kind b) :
    ended kind (l ++ [b]) = ended kind l := by
  unfold ended
  rw [runs_concat_same kind l b h, List.dropLast_concat]
  rfl

theorem current_concat_same (h : ∀ x ∈ current kind l, kind x = kind b) :
    current kind (l ++ [b]) = current kind l ++ [b] := by
  unfold current
  rw [runs_concat_same kind l b h, List.getLastD_concat]
  rfl

theorem ended_concat_other (hl : l ≠ []) (h : ∀ x ∈ current kind l, kind x ≠ kind b) :
    ended kind (l ++ [b]) = ended kind l ++ [current kind l] := by
  unfold ended
  rw [runs_concat_other kind l b hl h, List.dropLast_concat]
  rfl

theorem current_concat_other (hl : l ≠ []) (h : ∀ x ∈ current kind l, kind x ≠ kind b) :
    current kind (l ++ [b]) = [b] := by
  unfold current
  rw [runs_concat_other kind l b hl h, List.getLastD_concat]

end Concat

/-- One more element makes the current run longer, or begins one. So what
    passes from a run to its beginning holds of all runs exactly when it holds
    of those before and of the current one. -/
theorem forall_runs_concat (P : List α → Prop)
    (hP : ∀ r b, r ≠ [] → (∀ x ∈ r, kind x = kind b) → P (r ++ [b]) → P r) (l : List α) (b : α) :
    (∀ r ∈ runs kind (l ++ [b]), P r) ↔
      (∀ r ∈ runs kind l, P r) ∧ P (current kind (l ++ [b])) := by
  -- The empty list has no current run, and the element begins one.
  by_cases hl : l = []
  · subst hl
    exact ⟨fun h => ⟨fun r hr => absurd hr List.not_mem_nil, h [b] List.mem_cons_self⟩,
      fun h => List.forall_mem_singleton.mpr h.2⟩
  rcases same_or_other kind l b with hsame | ⟨-, hother⟩
  · rw [runs_concat_same kind l b hsame, current_concat_same kind l b hsame, runs_eq kind l hl]
    simp only [List.forall_mem_append, List.forall_mem_singleton]
    constructor
    · rintro ⟨hended, hcur⟩
      exact ⟨⟨hended, hP _ b (current_ne_nil kind l hl) hsame hcur⟩, hcur⟩
    · rintro ⟨⟨hended, -⟩, hcur⟩
      exact ⟨hended, hcur⟩
  · rw [runs_concat_other kind l b hl hother, current_concat_other kind l b hl hother,
      ← runs_eq kind l hl, List.forall_mem_append]
    exact and_congr_right (fun _ => List.forall_mem_singleton)

/-- Runs that have ended stay. -/
theorem ended_mono (p s : List α) (h : p <+: s) : ended kind p <+: ended kind s := by
  rcases h with ⟨t, rfl⟩
  induction t using List.reverseRecOn with
  | nil => rw [List.append_nil]
  | append_singleton t b ih =>
      rw [← List.append_assoc]
      rcases same_or_other kind (p ++ t) b with hsame | ⟨hne, hother⟩
      · rw [ended_concat_same kind _ b hsame]
        exact ih
      · rw [ended_concat_other kind _ b hne hother]
        exact ih.trans (List.prefix_append _ _)

end MaximalRuns
