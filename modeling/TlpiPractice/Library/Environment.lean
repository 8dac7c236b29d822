import Mathlib.Tactic.Common
import TlpiPractice.Library.CString

/-!
# Environments

The environment of a process, a list of strings such as `NAME=value`. The name
is what stands before the first `=`, so a name has no `=` in it, while a value
may have some. `getenv` and `putenv` are those of the standard. It leaves open
what `putenv` does with a string that has no `=`, and here it is added.

## Main definitions

* `nameOf`, `valueOf`: The two parts of a string.
* `getenv`: The value of a name.
* `putenv`: The environment with a string put into it.

## Theorems

* `nameOf_append`, `valueOf_append`: The parts of a string that is put
  together.
* `getenv_putenv`: The values after a string is put in.
-/

namespace Environment

/-- `=`. -/
def eqSign : UInt8 := 61

/-- What stands before the first `=`. -/
def nameOf (entry : List UInt8) : List UInt8 := entry.takeWhile (fun b => decide (b ≠ eqSign))

/-- What stands behind it, if there is one. -/
def valueOf (entry : List UInt8) : Option (List UInt8) :=
  match entry.dropWhile (fun b => decide (b ≠ eqSign)) with
  | [] => none
  | _ :: value => some value

/-- The value of a name. -/
def getenv : List CString → List UInt8 → Option (List UInt8)
  | [], _ => none
  | entry :: env, name =>
      if nameOf entry.bytes = name ∧ valueOf entry.bytes ≠ none then valueOf entry.bytes
      else getenv env name

/-- A string takes the place of the one with the same name, or is added. -/
def putenv : List CString → CString → List CString
  | [], string => [string]
  | entry :: env, string =>
      if nameOf entry.bytes = nameOf string.bytes ∧ valueOf entry.bytes ≠ none then string :: env
      else entry :: putenv env string

theorem nameOf_append (name value : List UInt8) (h : eqSign ∉ name) :
    nameOf (name ++ eqSign :: value) = name := by
  induction name with
  | nil => rfl
  | cons b name ih =>
      have hb : b ≠ eqSign := fun hb => h (hb ▸ List.mem_cons_self)
      rw [nameOf, List.cons_append, List.takeWhile_cons, if_pos (decide_eq_true hb)]
      exact congrArg (b :: ·) (ih (fun hmem => h (List.mem_cons_of_mem b hmem)))

theorem valueOf_append (name value : List UInt8) (h : eqSign ∉ name) :
    valueOf (name ++ eqSign :: value) = some value := by
  induction name with
  | nil => rfl
  | cons b name ih =>
      have hb : b ≠ eqSign := fun hb => h (hb ▸ List.mem_cons_self)
      rw [valueOf, List.cons_append, List.dropWhile_cons, if_pos (decide_eq_true hb)]
      exact ih (fun hmem => h (List.mem_cons_of_mem b hmem))

/-- A string put in gives its name its value, and leaves the other names. -/
theorem getenv_putenv (env : List CString) (string : CString) (value : List UInt8)
    (hvalue : valueOf string.bytes = some value) (name : List UInt8) :
    getenv (putenv env string) name =
      if nameOf string.bytes = name then some value else getenv env name := by
  induction env with
  | nil =>
      simp only [putenv, getenv, hvalue, ne_eq, reduceCtorEq, not_false_eq_true, and_true]
  | cons entry env ih =>
      rw [putenv]
      by_cases hsame : nameOf entry.bytes = nameOf string.bytes ∧ valueOf entry.bytes ≠ none
      · -- Here it takes the place of another.
        rw [if_pos hsame, getenv, hvalue]
        by_cases hname : nameOf string.bytes = name
        · rw [if_pos ⟨hname, Option.some_ne_none _⟩, if_pos hname]
        · rw [if_neg (fun h => hname h.1), if_neg hname, getenv,
            if_neg (fun h => hname (hsame.1 ▸ h.1))]
      · -- Here it goes on, and so does the search unless it is for this one.
        rw [if_neg hsame, getenv, ih]
        by_cases hentry : nameOf entry.bytes = name ∧ valueOf entry.bytes ≠ none
        · rw [if_pos hentry, getenv, if_pos hentry,
            if_neg (fun h => hsame ⟨hentry.1.trans h.symm, hentry.2⟩)]
        · rw [if_neg hentry, getenv, if_neg hentry]

end Environment
