import Mathlib.Tactic.Common
import TlpiPractice.Core.Environ

/-!
# What Setenv Sets

The values of all variables after a call of `setenv` that returns 0.

The test at the front is the wrong way round: it asks whether the variable is
absent where it should ask whether it is there. So an absent variable is not
added unless the caller wants to overwrite, and one that is there is
overwritten even if the caller does not want to.

A name of 2^32 bytes or more is cut, and then another variable is set.

## Main definitions

* `SetRight`: The values that the variables should have.
* `Right`: What a call should do.
* `SumFits`: The size of the block is an `int`.
* `Harmless`: When setting the variable is right.

## Theorems

* `setRight_putenv_iff`: When a string that is put in is right.
* `zero_mem_buffer_iff`: When the string has its NUL.
* `ofBytes_buffer`: The string that is put in.
* `setenv_right_iff`: When a call is right.
* `absent_wrong`: A call that is not.
-/

namespace TlpiPractice

namespace Environ

open Environment Ints

/-- The values after the call: the variable has the given value if it was
    absent or is overwritten, and all others have those they had. -/
structure SetRight (env : List CString) (name value : CString) (overwrite : Int)
    (env' : List CString) : Prop where
  own : getenv env' name.bytes =
    if getenv env name.bytes = none ∨ overwrite ≠ 0 then some value.bytes
    else getenv env name.bytes
  others : ∀ other, other ≠ name.bytes → getenv env' other = getenv env other

/-- What a call should do. One that does not return 0 has nothing to fulfil,
    unless what it does is not defined. -/
def Right (env : List CString) (name value : CString) (overwrite : Int) :
    Outcome (List CString) → Prop
  | .returned result env' => result = 0 → SetRight env name value overwrite env'
  | .crashed => True
  | .undefined => False

/-- The lengths as they are kept are not negative, and the size of the block is
    not too large for an `int`. -/
structure SumFits (name value : CString) : Prop where
  lenName : 0 ≤ wrap name.bytes.length
  lenValue : 0 ≤ wrap value.bytes.length
  sum : wrap name.bytes.length + wrap value.bytes.length + 2 ≤ intMax

/-- The variable may be set: it is to be overwritten, or has the value already.
    If the name is cut, the variable that is set has the value already. -/
def Harmless (env : List CString) (name value : CString) (overwrite : Int) : Prop :=
  if copiedName name = name.bytes then
    overwrite ≠ 0 ∨ getenv env name.bytes = some value.bytes
  else
    getenv env (copiedName name) = some value.bytes ∧
      (overwrite = 0 ∨ getenv env name.bytes = some value.bytes)

section PutIn

variable (env : List CString) (name value string : CString) (overwrite : Int)
  (hname : nameOf string.bytes = copiedName name) (hvalue : valueOf string.bytes = some value.bytes)
  (hguard : ¬ (getenv env name.bytes = none ∧ overwrite = 0))
include hname hvalue hguard

/-- Where the whole name is copied, the others are as they were. -/
theorem setRight_putenv_whole (hcopied : copiedName name = name.bytes) :
    SetRight env name value overwrite (putenv env string) ↔
      overwrite ≠ 0 ∨ getenv env name.bytes = some value.bytes := by
  have hget := getenv_putenv env string value.bytes hvalue
  rw [hname, hcopied] at hget
  have hothers : ∀ other, other ≠ name.bytes →
      getenv (putenv env string) other = getenv env other := by
    intro other hne
    rw [hget, if_neg hne.symm]
  constructor
  · intro h
    have hown := h.own
    rw [hget, if_pos rfl] at hown
    by_cases how : overwrite = 0
    · -- It is not to be overwritten, and it is there.
      rw [if_neg (fun hc => hc.elim (fun hn => hguard ⟨hn, how⟩) (fun hne => hne how))] at hown
      exact Or.inr hown.symm
    · exact Or.inl how
  · intro h
    refine ⟨?_, hothers⟩
    rw [hget, if_pos rfl]
    split
    · rfl
    · rename_i hnot
      rcases h with h | h
      · exact absurd (Or.inr h) hnot
      · exact h.symm

/-- A name that has been cut is that of another variable. -/
theorem setRight_putenv_cut (hcopied : copiedName name ≠ name.bytes) :
    SetRight env name value overwrite (putenv env string) ↔
      getenv env (copiedName name) = some value.bytes ∧
        (overwrite = 0 ∨ getenv env name.bytes = some value.bytes) := by
  have hget := getenv_putenv env string value.bytes hvalue
  rw [hname] at hget
  have hown : getenv (putenv env string) name.bytes = getenv env name.bytes := by
    rw [hget, if_neg hcopied]
  constructor
  · intro h
    have hcut := h.others (copiedName name) hcopied
    rw [hget, if_pos rfl] at hcut
    refine ⟨hcut.symm, ?_⟩
    by_cases how : overwrite = 0
    · exact Or.inl how
    · have hvalue' := h.own
      rw [hown, if_pos (Or.inr how)] at hvalue'
      exact Or.inr hvalue'
  · rintro ⟨hcut, hkept⟩
    refine ⟨?_, fun other _ => ?_⟩
    · rw [hown]
      split
      · rename_i hset
        rcases hkept with how | hkept
        · exact absurd ⟨hset.resolve_right (fun hne => hne how), how⟩ hguard
        · exact hkept
      · rfl
    · rw [hget]
      split
      · rename_i heq
        rw [← heq]
        exact hcut.symm
      · rfl

/-- When a string with the value is right, for the name it has. -/
theorem setRight_putenv_iff :
    SetRight env name value overwrite (putenv env string) ↔ Harmless env name value overwrite := by
  rw [Harmless]
  by_cases hcopied : copiedName name = name.bytes
  · rw [if_pos hcopied]
    exact setRight_putenv_whole env name value string overwrite hname hvalue hguard hcopied
  · rw [if_neg hcopied]
    exact setRight_putenv_cut env name value string overwrite hname hvalue hguard hcopied

end PutIn

/-- The string has its NUL when the value is not cut. -/
theorem zero_mem_buffer_iff (name value : CString) :
    0 ∈ buffer name value ↔ value.bytes.length ≤ (wrap value.bytes.length).toNat := by
  have hcopied : (0 : UInt8) ∉ copiedName name :=
    fun h => name.noNul 0 (List.mem_of_mem_take h) rfl
  have hsign : (0 : UInt8) ≠ eqSign := by decide
  rw [buffer, List.mem_append, List.mem_cons]
  constructor
  · rintro (h | h | h)
    · exact absurd h hcopied
    · exact absurd h hsign
    · -- If the value were cut, its NUL would not be copied.
      by_contra hlt
      rw [List.take_append_of_le_length (by omega)] at h
      exact value.noNul 0 (List.mem_of_mem_take h) rfl
  · intro h
    refine Or.inr (Or.inr ?_)
    rw [List.take_of_length_le (by simp only [List.length_append, List.length_singleton]; omega)]
    exact List.mem_append_right _ (List.mem_singleton.mpr rfl)

/-- The string that is put in, if it has its NUL. -/
theorem ofBytes_buffer (name value : CString) (h : 0 ∈ buffer name value) :
    (CString.ofBytes (buffer name value)).bytes = copiedName name ++ eqSign :: value.bytes := by
  have hlen := (zero_mem_buffer_iff name value).mp h
  have hwhole : buffer name value = (copiedName name ++ eqSign :: value.bytes) ++ 0 :: [] := by
    rw [buffer, List.take_of_length_le
      (by simp only [List.length_append, List.length_singleton]; omega), List.append_assoc]
    rfl
  rw [CString.bytes_ofBytes, hwhole]
  refine CString.str_append _ [] (fun b hb => ?_)
  rcases List.mem_append.mp hb with hb | hb
  · exact name.noNul b (List.mem_of_mem_take hb)
  · rcases List.mem_cons.mp hb with rfl | hb
    · decide
    · exact value.noNul b hb

/-- What a call does that gets to `putenv`. -/
theorem setRight_buffer_iff (env : List CString) (name value : CString) (overwrite : Int)
    (hname : eqSign ∉ name.bytes) (hguard : ¬ (getenv env name.bytes = none ∧ overwrite = 0))
    (hnul : 0 ∈ buffer name value) :
    SetRight env name value overwrite (putenv env (.ofBytes (buffer name value))) ↔
      Harmless env name value overwrite := by
  have hcopied : eqSign ∉ copiedName name := fun h => hname (List.mem_of_mem_take h)
  have hbytes := ofBytes_buffer name value hnul
  refine setRight_putenv_iff env name value _ overwrite ?_ ?_ hguard
  · rw [hbytes, nameOf_append _ _ hcopied]
  · rw [hbytes, valueOf_append _ _ hcopied]

/-- A call is right exactly when the variable is there or is to be overwritten,
    the size of the block fits, and the block or `putenv` fails or the variable
    may be set. -/
theorem setenv_right_iff (env : List CString) (name value : CString) (overwrite : Int)
    (calls : Calls) (hname : eqSign ∉ name.bytes) :
    Right env name value overwrite (setenv env name value overwrite calls) ↔
      (getenv env name.bytes ≠ none ∨ overwrite ≠ 0) ∧ SumFits name value ∧
        (calls.malloc = false ∨
          (value.bytes.length ≤ (wrap value.bytes.length).toNat ∧
            (calls.putenv = false ∨ Harmless env name value overwrite))) := by
  rw [setenv]
  by_cases hguard : getenv env name.bytes = none ∧ overwrite = 0
  · -- Nothing is set, so the variable is still absent.
    rw [if_pos hguard]
    constructor
    · intro h
      have hown := (h rfl).own
      rw [if_pos (Or.inl hguard.1), hguard.1] at hown
      cases hown
    · rintro ⟨h, -, -⟩
      rcases h with h | h
      · exact absurd hguard.1 h
      · exact absurd hguard.2 h
  have hthere : getenv env name.bytes ≠ none ∨ overwrite ≠ 0 := by
    by_cases how : overwrite = 0
    · exact Or.inl (fun h => hguard ⟨h, how⟩)
    · exact Or.inr how
  rw [if_neg hguard]
  simp only [hthere, true_and]
  by_cases hsum : wrap name.bytes.length < 0 ∨ wrap value.bytes.length < 0 ∨
      intMax < wrap name.bytes.length + wrap value.bytes.length + 2
  · rw [if_pos hsum]
    refine ⟨False.elim, fun h => ?_⟩
    have hfits := h.1
    have h1 := hfits.lenName
    have h2 := hfits.lenValue
    have h3 := hfits.sum
    omega
  have hfits : SumFits name value := ⟨by omega, by omega, by omega⟩
  rw [if_neg hsum]
  simp only [hfits, true_and]
  cases hmalloc : calls.malloc with
  | false => exact ⟨fun _ => Or.inl rfl, fun _ => trivial⟩
  | true =>
      simp only [Bool.true_eq_false, if_false, false_or]
      by_cases hnul : 0 ∈ buffer name value
      · rw [if_neg (not_not.mpr hnul), ← zero_mem_buffer_iff name value]
        simp only [hnul, true_and]
        cases hputenv : calls.putenv with
        | false => exact ⟨fun _ => Or.inl rfl, fun _ h => absurd h (by decide)⟩
        | true =>
            simp only [Bool.true_eq_false, if_false, false_or]
            rw [← setRight_buffer_iff env name value overwrite hname hguard hnul]
            exact ⟨fun h => h rfl, fun h _ => h⟩
      · rw [if_pos hnul]
        exact ⟨False.elim, fun h => hnul ((zero_mem_buffer_iff name value).mpr h.1)⟩

/-- `A=1`. -/
def aIsOne : CString := .ofBytes [65, 61, 49]

/-- `B`. -/
def nameB : CString := .ofBytes [66]

/-- `2`. -/
def valueTwo : CString := .ofBytes [50]

theorem setenv_right_iff_plain :
    Right [aIsOne] nameB valueTwo 1 (setenv [aIsOne] nameB valueTwo 1 ⟨true, true⟩) ↔
      (getenv [aIsOne] nameB.bytes ≠ none ∨ (1 : Int) ≠ 0) ∧ SumFits nameB valueTwo ∧
        (true = false ∨ (valueTwo.bytes.length ≤ (wrap valueTwo.bytes.length).toNat ∧
          (true = false ∨ Harmless [aIsOne] nameB valueTwo 1))) :=
  setenv_right_iff [aIsOne] nameB valueTwo 1 ⟨true, true⟩ (by decide)

/-- A variable that is absent is not added. -/
theorem absent_wrong :
    ¬ Right [aIsOne] nameB valueTwo 0 (setenv [aIsOne] nameB valueTwo 0 ⟨true, true⟩) := by
  have habsent : getenv [aIsOne] nameB.bytes = none := by decide
  rw [setenv, if_pos ⟨habsent, rfl⟩]
  intro h
  have hown := (h rfl).own
  rw [if_pos (Or.inl habsent), habsent] at hown
  cases hown

end Environ

end TlpiPractice
