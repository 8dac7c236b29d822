import Mathlib.Tactic.Common

/-!
# Loops That May Not End

A loop is given by what one turn of it does: the loop goes on with another
state, or it is done and has a result. `run` takes at most a given number of
turns. A loop returns if some number of turns is enough.

A loop that is not known to end has two rules. What holds at the start of
every turn is known of the result (`returns_of_invariant`), and if no result
can satisfy it there is none, which is how a loop is shown to go on forever.
A loop ends if some number gets smaller in every turn (`exists_returns`).

## Main definitions

* `Turn`: What a turn of a loop does.
* `run`: The result after at most some number of turns.
* `Returns`: The result after any number of turns.
* `After`: The states at the start of the turns.

## Theorems

* `run_mono`: More turns give the same result.
* `returns_again`, `returns_done`: The first turn of a loop.
* `returns_of_invariant`: What is known of the result.
* `after_of_invariant`: What is known of the states.
* `exists_returns`: A loop that ends.
-/

namespace Loops

variable {σ ρ : Type*}

/-- What a turn of a loop does. -/
inductive Turn (σ ρ : Type*) where
  | again (s : σ)
  | done (r : ρ)

/-- The result, if it is there after at most this many turns. -/
def run (turn : σ → Turn σ ρ) : Nat → σ → Option ρ
  | 0, _ => none
  | n + 1, s => match turn s with
    | .again s' => run turn n s'
    | .done r => some r

/-- The result that is there after some number of turns. -/
def Returns (turn : σ → Turn σ ρ) (s : σ) (r : ρ) : Prop := ∃ n, run turn n s = some r

/-- The loop gets from one state to another. -/
inductive After (turn : σ → Turn σ ρ) (s : σ) : σ → Prop where
  | start : After turn s s
  | again (t t' : σ) (h : After turn s t) (hturn : turn t = .again t') : After turn s t'

/-- More turns do no harm. -/
theorem run_mono (turn : σ → Turn σ ρ) (n m : Nat) (s : σ) (r : ρ) (h : run turn n s = some r)
    (hle : n ≤ m) : run turn m s = some r := by
  induction n generalizing m s with
  | zero => cases h
  | succ n ih =>
      cases m with
      | zero => cases hle
      | succ m =>
          rw [run] at h ⊢
          cases hturn : turn s with
          | again s' =>
              rw [hturn] at h
              exact ih m s' h (Nat.le_of_succ_le_succ hle)
          | done r' =>
              rw [hturn] at h
              exact h

theorem returns_done (turn : σ → Turn σ ρ) (s : σ) (r : ρ) (h : turn s = .done r) (r' : ρ) :
    Returns turn s r' ↔ r' = r := by
  constructor
  · rintro ⟨n, hn⟩
    cases n with
    | zero => cases hn
    | succ n =>
        rw [run, h] at hn
        exact (Option.some.inj hn).symm
  · rintro rfl
    refine ⟨1, ?_⟩
    rw [run, h]

theorem returns_again (turn : σ → Turn σ ρ) (s s' : σ) (h : turn s = .again s') (r : ρ) :
    Returns turn s r ↔ Returns turn s' r := by
  constructor
  · rintro ⟨n, hn⟩
    cases n with
    | zero => cases hn
    | succ n =>
        rw [run, h] at hn
        exact ⟨n, hn⟩
  · rintro ⟨n, hn⟩
    refine ⟨n + 1, ?_⟩
    rw [run, h]
    exact hn

/-- What holds at the start of every turn is known of the result. -/
theorem returns_of_invariant (turn : σ → Turn σ ρ) (I : σ → Prop) (Q : ρ → Prop)
    (hagain : ∀ s s', I s → turn s = .again s' → I s')
    (hdone : ∀ s r, I s → turn s = .done r → Q r)
    (s : σ) (hs : I s) (r : ρ) (h : Returns turn s r) : Q r := by
  rcases h with ⟨n, hn⟩
  -- By induction on the number of turns, from any state.
  induction n generalizing s with
  | zero => cases hn
  | succ n ih =>
      rw [run] at hn
      cases hturn : turn s with
      | again s' =>
          rw [hturn] at hn
          exact ih s' (hagain s s' hs hturn) hn
      | done r' =>
          rw [hturn] at hn
          exact Option.some.inj hn ▸ hdone s r' hs hturn

/-- What the turns keep is known of all the states. -/
theorem after_of_invariant (turn : σ → Turn σ ρ) (I : σ → Prop)
    (hagain : ∀ s s', I s → turn s = .again s' → I s') (s : σ) (hs : I s) (t : σ)
    (h : After turn s t) : I t := by
  induction h with
  | start => exact hs
  | again t t' _ hturn ih => exact hagain t t' ih hturn

/-- A loop ends if some number gets smaller in every turn. -/
theorem exists_returns (turn : σ → Turn σ ρ) (I : σ → Prop) (m : σ → Nat)
    (hagain : ∀ s s', I s → turn s = .again s' → I s' ∧ m s' < m s) (s : σ) (hs : I s) :
    ∃ r, Returns turn s r := by
  induction hm : m s using Nat.strongRecOn generalizing s with
  | _ k ih =>
      cases hturn : turn s with
      | done r => exact ⟨r, (returns_done turn s r hturn r).mpr rfl⟩
      | again s' =>
          rcases hagain s s' hs hturn with ⟨hs', hlt⟩
          rcases ih (m s') (hm ▸ hlt) s' hs' rfl with ⟨r, hr⟩
          exact ⟨r, (returns_again turn s s' hturn r).mpr hr⟩

end Loops
