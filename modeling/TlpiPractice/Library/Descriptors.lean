import Mathlib.Data.List.Range
import Mathlib.Logic.Function.Basic

/-!
# Descriptor Tables

The descriptors of a process: for each number what it refers to, if it is
open. New descriptors get the lowest free numbers below a limit.

## Main definitions

* `Table`: The descriptors.
* `lowestFree`: The number that a new descriptor gets.
* `close`, `dup2`, `pipe`: The calls.
* `closeAll`: Some descriptors are closed.

## Theorems

* `lowestFree_eq_some`: It is free, and all below it are in use.
* `pipe_spec`: The two descriptors of a pipe.
* `closeAll_of_mem`, `closeAll_of_notMem`: What closing leaves.
* `moved_apply`: What is left when one descriptor takes the place of another.
-/

namespace Descriptors

variable {δ : Type*}

/-- For each number what it refers to, if it is open. -/
abbrev Table (δ : Type*) := Nat → Option δ

/-- The lowest free number from `low` on. -/
def lowestFree (limit : Nat) (t : Table δ) (low : Nat) : Option Nat :=
  (List.range' low (limit - low)).find? (fun fd => (t fd).isNone)

theorem lowestFree_eq_some (limit : Nat) (t : Table δ) (low fd : Nat) :
    lowestFree limit t low = some fd ↔
      t fd = none ∧ (low ≤ fd ∧ fd < limit) ∧ ∀ k, low ≤ k → k < fd → t k ≠ none := by
  have hrange : fd ∈ List.range' low (limit - low) ↔ low ≤ fd ∧ fd < limit := by
    rw [List.mem_range'_1]
    omega
  have hused : ∀ k, (!(t k).isNone) = true ↔ t k ≠ none := by
    intro k
    rw [Bool.not_eq_true', Bool.eq_false_iff, ne_eq, Option.isNone_iff_eq_none]
  rw [lowestFree, List.find?_range'_eq_some, hrange, Option.isNone_iff_eq_none]
  simp only [hused]

/-- A descriptor that is closed is free. -/
def close (t : Table δ) (fd : Nat) : Table δ := Function.update t fd none

/-- Some descriptors are closed. -/
def closeAll (t : Table δ) (fds : List Nat) : Table δ := fds.foldl close t

/-- Another descriptor for the same, in place of what it was before. -/
def dup2 (limit : Nat) (t : Table δ) (old new : Nat) : Table δ :=
  if t old = none ∨ limit ≤ new then t else Function.update t new (t old)

/-- Two descriptors for the ends of a new pipe. -/
def pipe (limit : Nat) (t : Table δ) (readEnd writeEnd : δ) : Option (Nat × Nat × Table δ) :=
  (lowestFree limit t 0).bind (fun a =>
    let t' := Function.update t a (some readEnd)
    (lowestFree limit t' 0).map (fun b => (a, b, Function.update t' b (some writeEnd))))

theorem closeAll_of_notMem (t : Table δ) (fds : List Nat) (fd : Nat) (h : fd ∉ fds) :
    closeAll t fds fd = t fd := by
  induction fds generalizing t with
  | nil => rfl
  | cons a fds ih =>
      rw [List.mem_cons, not_or] at h
      rw [closeAll, List.foldl_cons]
      exact (ih (close t a) h.2).trans (Function.update_of_ne h.1 _ _)

theorem closeAll_of_mem (t : Table δ) (fds : List Nat) (fd : Nat) (h : fd ∈ fds) :
    closeAll t fds fd = none := by
  induction fds generalizing t with
  | nil => exact absurd h List.not_mem_nil
  | cons a fds ih =>
      rw [closeAll, List.foldl_cons]
      by_cases hfds : fd ∈ fds
      · exact ih (close t a) hfds
      · have ha : fd = a := (List.mem_cons.mp h).resolve_right hfds
        rw [← closeAll, closeAll_of_notMem _ _ _ hfds, ha, close, Function.update_self]

/-- The ends of a pipe get the two lowest free numbers. -/
theorem pipe_spec (limit : Nat) (t : Table δ) (r w : δ) (a b : Nat) (t' : Table δ)
    (h : pipe limit t r w = some (a, b, t')) :
    t' = Function.update (Function.update t a (some r)) b (some w) ∧ a < b ∧ b < limit ∧
      t a = none ∧ t b = none ∧ (∀ k, k < a → t k ≠ none) ∧ ∀ k, k < b → k ≠ a → t k ≠ none := by
  rcases Option.bind_eq_some_iff.mp h with ⟨a', ha, h⟩
  rcases Option.map_eq_some_iff.mp h with ⟨b', hb, heq⟩
  simp only [Prod.mk.injEq] at heq
  rcases heq with ⟨rfl, rfl, rfl⟩
  rcases (lowestFree_eq_some limit t 0 a').mp ha with ⟨hfree, -, hused⟩
  rcases (lowestFree_eq_some limit _ 0 b').mp hb with ⟨hfree', ⟨-, hlimit⟩, hused'⟩
  have hne : b' ≠ a' := by
    intro hab
    rw [hab, Function.update_self] at hfree'
    cases hfree'
  have hused₀ : ∀ k, k < a' → t k ≠ none := fun k hk => hused k (Nat.zero_le k) hk
  rw [Function.update_of_ne hne] at hfree'
  -- Below the first there is no free one, so the second is above it.
  have hlt : a' < b' := by
    rcases Nat.lt_or_gt_of_ne hne with hlt | hlt
    · exact absurd hfree' (hused₀ b' hlt)
    · exact hlt
  refine ⟨rfl, hlt, hlimit, hfree, hfree', hused₀, fun k hk hka => ?_⟩
  have hk' := hused' k (Nat.zero_le k) hk
  rwa [Function.update_of_ne hka] at hk'

/-- One descriptor is closed, and another takes the place of a third. Should it
    be the third, it is closed as well. -/
theorem moved_apply (limit : Nat) (t : Table δ) (kept other std : Nat) (d : δ)
    (hkept : t kept = some d) (hne : kept ≠ other) (hstd : std < limit) (fd : Nat) :
    close (dup2 limit (close t other) kept std) kept fd =
      if fd = kept then none else if fd = std then some d
      else if fd = other then none else t fd := by
  have hopen : close t other kept = some d := by
    rw [close, Function.update_of_ne hne, hkept]
  have hnot : ¬ (close t other kept = none ∨ limit ≤ std) := by
    rintro (hnone | hle)
    · rw [hopen] at hnone
      cases hnone
    · omega
  rw [dup2, if_neg hnot, hopen]
  -- The last call decides first what a descriptor is.
  by_cases hk : fd = kept
  · rw [if_pos hk, hk, close, Function.update_self]
  rw [if_neg hk, close, Function.update_of_ne hk]
  by_cases hs : fd = std
  · rw [if_pos hs, hs, Function.update_self]
  rw [if_neg hs, Function.update_of_ne hs]
  by_cases ho : fd = other
  · rw [if_pos ho, ho, close, Function.update_self]
  · rw [if_neg ho, close, Function.update_of_ne ho]

end Descriptors
