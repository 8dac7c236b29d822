import Mathlib.Tactic.Common
import TlpiPractice.Core.Environ

/-!
# What Unsetenv Leaves

The array after a call of `unsetenv`, if the call returns.

The first loop is a compaction in place: the strings that stay are moved to the
front in their order. But a string goes if the name is found anywhere in it, so
that `unsetenv("A")` takes `PATH=/bin` too. The second loop does not increase
its counter, and goes on forever unless all the strings have stayed.

## Main definitions

* `Holds`: The strings in an array that ends with NULL.
* `UnsetRight`: What a call should do.
* `Moved`: What the first loop has done before each turn.

## Theorems

* `moved_turn`: A turn of the first loop.
* `move_ends`: The first loop ends.
* `clear_returns_iff`: When the second loop ends.
* `unsetenv_returns_iff`: When a call returns.
* `unsetenv_right_iff`: When a call is right.
* `pathGone_wrong`: A call that is not.
-/

namespace TlpiPractice

namespace Environ

open Environment Ints Loops

/-- The array has these strings, and NULL behind them. -/
def Holds (environ : Cells) (entries : List CString) : Prop :=
  ∀ k ≤ entries.length, environ k = entries[k]?

/-- The call should return, and leave the strings with another name. -/
def UnsetRight (environ : Cells) (entries : List CString) (name : CString) : Prop :=
  ∃ fuel environ', unsetenv fuel environ name = some (.returned 0 environ') ∧
    Holds environ' (entries.filter (fun entry => decide (nameOf entry.bytes ≠ name.bytes)))

/-- The strings in which the name is not found. -/
def without (name : CString) (entries : List CString) : List CString :=
  entries.filter (fun entry => decide (CString.strstr entry.bytes name.bytes = none))

/-- Before each turn of the first loop, the cells below `i` have the strings
    that stay of those below `j`, and from `j` on nothing has changed. -/
structure Moved (name : CString) (entries : List CString) (s : Scan) : Prop where
  le : s.j ≤ entries.length
  fits : (s.j : Int) ≤ intMax
  length : s.i = (without name (entries.take s.j)).length
  front : ∀ k < s.i, s.environ k = (without name (entries.take s.j))[k]?
  back : ∀ k, s.j ≤ k → k ≤ entries.length → s.environ k = entries[k]?

theorem length_without_le (name : CString) (entries : List CString) (j : Nat) :
    (without name (entries.take j)).length ≤ j :=
  (List.length_filter_le _ _).trans (List.length_take_le j entries)

/-- One more string, which stays or does not. -/
theorem without_take_succ (name : CString) (entries : List CString) (j : Nat) (entry : CString)
    (h : entries[j]? = some entry) :
    without name (entries.take (j + 1)) = without name (entries.take j) ++
      if CString.strstr entry.bytes name.bytes = none then [entry] else [] := by
  rw [without, List.take_add_one, h, List.filter_append]
  split
  · rename_i hnone
    rw [Option.toList_some, List.filter_singleton, decide_eq_true hnone]
    rfl
  · rename_i hsome
    rw [Option.toList_some, List.filter_singleton, decide_eq_false hsome]
    rfl

/-- A turn of the first loop. -/
theorem moved_turn (name : CString) (entries : List CString) (s s' : Scan)
    (hs : Moved name entries s) (h : moveTurn name s = .again s') :
    Moved name entries s' ∧ s.j < entries.length ∧ s'.j = s.j + 1 := by
  have hcell := hs.back s.j (Nat.le_refl _) hs.le
  rw [moveTurn] at h
  cases hentry : s.environ s.j with
  | none =>
      rw [hentry] at h
      cases h
  | some entry =>
      rw [hentry] at h hcell
      have hlt : s.j < entries.length := (List.getElem?_eq_some_iff.mp hcell.symm).1
      have hnext := without_take_succ name entries s.j entry hcell.symm
      have hle : s.i ≤ s.j := hs.length ▸ length_without_le name entries s.j
      simp only at h
      split at h
      · cases h
      rename_i hmax
      have hfits : ((s.j + 1 : Nat) : Int) ≤ intMax := by omega
      split at h
      · -- The string is moved to `i`, which is not beyond `j`.
        rename_i hnone
        cases h
        rw [if_pos hnone] at hnext
        refine ⟨⟨hlt, hfits, ?_, fun k hk => ?_, fun k hjk hk => ?_⟩, hlt, rfl⟩
        · rw [hnext, List.length_append, List.length_singleton, ← hs.length]
        · rw [hnext]
          change Function.update s.environ s.i (some entry) k = _
          rcases Nat.lt_succ_iff_lt_or_eq.mp hk with hki | rfl
          · rw [Function.update_of_ne (Nat.ne_of_lt hki), hs.front k hki,
              List.getElem?_append_left (hs.length ▸ hki)]
          · rw [Function.update_self, hs.length, List.getElem?_concat_length]
        · -- What is still to be read lies behind.
          change s.j + 1 ≤ k at hjk
          change Function.update s.environ s.i (some entry) k = _
          rw [Function.update_of_ne (by omega), hs.back k (by omega) hk]
      · -- The string is passed over.
        rename_i hsome
        cases h
        rw [if_neg hsome, List.append_nil] at hnext
        refine ⟨⟨hlt, hfits, ?_, fun k hk => ?_, fun k hjk hk => ?_⟩, hlt, rfl⟩
        · rw [hnext]
          exact hs.length
        · rw [hnext]
          exact hs.front k hk
        · change s.j + 1 ≤ k at hjk
          exact hs.back k (by omega) hk

theorem moved_start (name : CString) (environ : Cells) (entries : List CString)
    (h : Holds environ entries) : Moved name entries ⟨environ, 0, 0⟩ := by
  refine ⟨Nat.zero_le _, ?_, ?_, fun k hk => ?_, fun k _ hk => h k hk⟩
  · change (0 : Int) ≤ intMax
    decide
  · rw [List.take_zero]
    rfl
  · exact absurd hk (Nat.not_lt_zero k)

/-- The first loop ends. -/
theorem move_ends (name : CString) (environ : Cells) (entries : List CString)
    (h : Holds environ entries) : ∃ r, Returns (moveTurn name) ⟨environ, 0, 0⟩ r := by
  refine exists_returns (moveTurn name) (Moved name entries) (fun s => entries.length - s.j) ?_ _
    (moved_start name environ entries h)
  intro s s' hs hturn
  rcases moved_turn name entries s s' hs hturn with ⟨hs', hlt, hj⟩
  exact ⟨hs', by omega⟩

/-- If it comes to the NULL, it has seen all the strings. If not, there are too
    many for an `int`. -/
theorem move_done (name : CString) (environ : Cells) (entries : List CString)
    (h : Holds environ entries) (r : Option Scan)
    (hr : Returns (moveTurn name) ⟨environ, 0, 0⟩ r) :
    (∃ s, r = some s ∧ Moved name entries s ∧ s.j = entries.length) ∨
      (r = none ∧ intMax < entries.length) := by
  refine returns_of_invariant (moveTurn name) (Moved name entries)
    (fun r => (∃ s, r = some s ∧ Moved name entries s ∧ s.j = entries.length) ∨
      (r = none ∧ intMax < entries.length))
    (fun s s' hs hturn => (moved_turn name entries s s' hs hturn).1) ?_ _
    (moved_start name environ entries h) r hr
  intro s r hs hturn
  have hcell := hs.back s.j (Nat.le_refl _) hs.le
  rw [moveTurn] at hturn
  cases hentry : s.environ s.j with
  | none =>
      rw [hentry] at hturn hcell
      cases hturn
      exact Or.inl ⟨s, rfl, hs, Nat.le_antisymm hs.le (List.getElem?_eq_none_iff.mp hcell.symm)⟩
  | some entry =>
      rw [hentry] at hturn hcell
      have hlt : s.j < entries.length := (List.getElem?_eq_some_iff.mp hcell.symm).1
      simp only at hturn
      split at hturn
      · rename_i hmax
        cases hturn
        exact Or.inr ⟨rfl, by omega⟩
      · split at hturn <;> cases hturn

/-- The second loop ends only if there is nothing for it to do. -/
theorem clear_returns_iff (s : Scan) (environ : Cells) :
    Returns clearTurn s environ ↔ ¬ s.i < s.j ∧ environ = s.environ := by
  by_cases hlt : s.i < s.j
  · -- A turn changes the array only, so there is always another one.
    refine ⟨fun h => ?_, fun h => absurd hlt h.1⟩
    refine (returns_of_invariant clearTurn (fun s => s.i < s.j) (fun _ => False) ?_ ?_ s hlt environ
      h).elim
    · intro t t' ht hturn
      rw [clearTurn, if_pos ht] at hturn
      cases hturn
      exact ht
    · intro t r ht hturn
      rw [clearTurn, if_pos ht] at hturn
      cases hturn
  · have hdone : clearTurn s = .done s.environ := by
      rw [clearTurn, if_neg hlt]
    rw [returns_done clearTurn s _ hdone]
    exact ⟨fun h => ⟨hlt, h⟩, fun h => h.2⟩

/-- A call returns if both loops end. -/
theorem unsetenv_returns_iff (environ environ' : Cells) (name : CString) :
    (∃ fuel, unsetenv fuel environ name = some (.returned 0 environ')) ↔
      ∃ s, Returns (moveTurn name) ⟨environ, 0, 0⟩ (some s) ∧ Returns clearTurn s environ' := by
  constructor
  · rintro ⟨fuel, h⟩
    rw [unsetenv] at h
    cases hmove : run (moveTurn name) fuel ⟨environ, 0, 0⟩ with
    | none =>
        rw [hmove] at h
        cases h
    | some r =>
        rw [hmove] at h
        cases r with
        | none => cases h
        | some s =>
            rcases Option.map_eq_some_iff.mp h with ⟨e, hclear, he⟩
            cases he
            exact ⟨s, ⟨fuel, hmove⟩, ⟨fuel, hclear⟩⟩
  · rintro ⟨s, ⟨n, hn⟩, ⟨m, hm⟩⟩
    refine ⟨max n m, ?_⟩
    rw [unsetenv, run_mono _ n _ _ _ hn (Nat.le_max_left n m)]
    simp only [run_mono _ m _ _ _ hm (Nat.le_max_right n m), Option.map_some]

/-- A call is right exactly when the name is found in no string, and the
    strings can be counted with an `int`. -/
theorem unsetenv_right_iff (environ : Cells) (entries : List CString) (name : CString)
    (h : Holds environ entries) :
    UnsetRight environ entries name ↔
      (entries.length : Int) ≤ intMax ∧ ∀ entry ∈ entries, ¬ name.bytes <:+: entry.bytes := by
  constructor
  · rintro ⟨fuel, environ', hcall, -⟩
    rcases (unsetenv_returns_iff environ environ' name).mp ⟨fuel, hcall⟩ with ⟨s, hmove, hclear⟩
    rcases move_done name environ entries h _ hmove with ⟨s', hs', hmoved, hj⟩ | ⟨hs', -⟩
    · cases hs'
      refine ⟨hj ▸ hmoved.fits, fun entry hmem => ?_⟩
      -- The second loop has ended, so all strings have stayed.
      have hall : (without name entries).length = entries.length := by
        have hlen := hmoved.length
        have hnot := ((clear_returns_iff s environ').mp hclear).1
        have hle := length_without_le name entries entries.length
        rw [hj, List.take_length] at hlen
        rw [List.take_length] at hle
        omega
      have hstays := List.length_filter_eq_length_iff.mp hall entry hmem
      exact (CString.strstr_eq_none_iff entry.bytes name.bytes).mp (of_decide_eq_true hstays)
    · cases hs'
  · rintro ⟨hfits, hnone⟩
    rcases move_ends name environ entries h with ⟨r, hr⟩
    rcases move_done name environ entries h r hr with ⟨s, rfl, hmoved, hj⟩ | ⟨-, hmany⟩
    · have hall : without name entries = entries := by
        refine List.filter_eq_self.mpr (fun entry hmem => decide_eq_true ?_)
        exact (CString.strstr_eq_none_iff entry.bytes name.bytes).mpr (hnone entry hmem)
      have hi := hmoved.length
      rw [hj, List.take_length, hall] at hi
      have hclear := (clear_returns_iff s s.environ).mpr ⟨by omega, rfl⟩
      rcases (unsetenv_returns_iff environ s.environ name).mpr ⟨s, hr, hclear⟩ with ⟨fuel, hcall⟩
      refine ⟨fuel, s.environ, hcall, ?_⟩
      -- A string with the name has it in front, so none is to go.
      have hothers : ∀ entry ∈ entries, nameOf entry.bytes ≠ name.bytes := by
        intro entry hmem heq
        refine hnone entry hmem ?_
        rw [← heq]
        exact (List.takeWhile_prefix _).isInfix
      rw [List.filter_eq_self.mpr (fun entry hmem => decide_eq_true (hothers entry hmem))]
      intro k hk
      -- All have been moved to where they were, and the NULL has not.
      rcases Nat.lt_or_ge k entries.length with hlt | hge
      · rw [hmoved.front k (hi ▸ hlt), hj, List.take_length, hall]
      · exact hmoved.back k (hj ▸ hge) hk
    · omega

/-- `A`. -/
def nameA : CString := .ofBytes [65]

/-- `PATH=/`. -/
def path : CString := .ofBytes [80, 65, 84, 72, 61, 47]

theorem unsetenv_right_iff_path :
    UnsetRight (fun k => [path][k]?) [path] nameA ↔
      (([path] : List CString).length : Int) ≤ intMax ∧
        ∀ entry ∈ [path], ¬ nameA.bytes <:+: entry.bytes :=
  unsetenv_right_iff _ [path] nameA (fun _ _ => rfl)

/-- To unset `A` takes `PATH=/`, and does not end. -/
theorem pathGone_wrong : ¬ UnsetRight (fun k => [path][k]?) [path] nameA := by
  rintro ⟨fuel, environ', hcall, -⟩
  rcases (unsetenv_returns_iff _ environ' nameA).mp ⟨fuel, hcall⟩ with ⟨s, hmove, hclear⟩
  rcases move_done nameA _ [path] (fun _ _ => rfl) _ hmove with ⟨s', hs', hmoved, hj⟩ | ⟨hs', -⟩
  · cases hs'
    refine ((clear_returns_iff s environ').mp hclear).1 ?_
    rw [hmoved.length, hj]
    decide
  · cases hs'

end Environ

end TlpiPractice
