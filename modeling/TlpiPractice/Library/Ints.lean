import Mathlib.Data.Int.DivMod

/-!
# Machine Integers

Integers of 32 and 64 bits in two's complement: their range, and the value
that a conversion or an operation on the machine leaves of an integer.

## Main definitions

* `intMin`, `intMax`: The ends of the range of 32 bits.
* `InRange`: An integer that fits.
* `wrap`: What 32 bits leave of an integer.
* `word`: The bits of an integer of 32 bits, as a number.
* `wrapLong`, `toSize`: What 64 bits leave of it, with a sign and without.

## Theorems

* `wrap_of_inRange`, `wrapLong_of_nonneg`, `toSize_of_nonneg`: An integer that
  fits is left as it is.
* `wrap_of_late`, `toSize_of_neg`: One that does not fit.
* `wrap_eq_self_iff`: The integers that fit.
* `wrap_eq_neg_one_iff`: One that looks like -1.
* `wrap_word`: The bits of an integer are those of no other.
* `le_tdiv_iff`: A quotient that reaches a positive number.
-/

namespace Ints

/-- The least integer of 32 bits. -/
def intMin : Int := -2147483648

/-- The greatest integer of 32 bits. -/
def intMax : Int := 2147483647

/-- The integers that fit into 32 bits. -/
def InRange (x : Int) : Prop := intMin ≤ x ∧ x ≤ intMax

/-- The integer of 32 bits with the same lowest 32 bits. -/
def wrap (x : Int) : Int := Int.bmod x 4294967296

theorem wrap_of_inRange (x : Int) (h : InRange x) : wrap x = x := by
  rw [InRange, intMin, intMax] at h
  rw [wrap]
  exact Int.bmod_eq_of_le_mul_two (by omega) (by omega)

/-- The lowest 32 bits, as a number without a sign. -/
def word (x : Int) : Nat := (x % 4294967296).toNat

theorem word_lt (x : Int) : word x < 4294967296 := by
  have hlt := Int.emod_lt_of_pos x (show (0 : Int) < 4294967296 by omega)
  unfold word
  omega

/-- An integer that fits is read back from its bits. -/
theorem wrap_word (x : Int) (h : InRange x) : wrap (word x : Int) = x := by
  have hnonneg := Int.emod_nonneg x (show (4294967296 : Int) ≠ 0 by omega)
  have hagain : wrap (x % 4294967296) = wrap x := Int.emod_bmod x 4294967296
  rw [word, Int.toNat_of_nonneg hnonneg, hagain, wrap_of_inRange x h]

/-- The integer of 64 bits with the same lowest 64 bits. -/
def wrapLong (x : Int) : Int := Int.bmod x 18446744073709551616

/-- The unsigned integer of 64 bits with the same lowest 64 bits. -/
def toSize (x : Int) : Nat := (x % 18446744073709551616).toNat

theorem wrap_of_nonneg (x : Int) (h : 0 ≤ x) (hx : x ≤ intMax) : wrap x = x := by
  unfold intMax at hx
  refine wrap_of_inRange x ⟨?_, hx⟩
  unfold intMin
  omega

theorem wrapLong_of_nonneg (x : Int) (h : 0 ≤ x) (hx : x < 9223372036854775808) :
    wrapLong x = x := by
  unfold wrapLong
  exact Int.bmod_eq_of_le_mul_two (by omega) (by omega)

theorem toSize_of_nonneg (x : Int) (h : 0 ≤ x) (hx : x < 18446744073709551616) :
    toSize x = x.toNat := by
  unfold toSize
  rw [Int.emod_eq_of_lt h hx]

/-- From 2^31 on, the value has become negative. -/
theorem wrap_of_late (x : Int) (h : 2147483648 ≤ x) (hx : x < 4294967296) :
    wrap x = x - 4294967296 := by
  have hmod : x % (4294967296 : Nat) = x := Int.emod_eq_of_lt (by omega) (by omega)
  have hbmod := Int.bmod_neg x 4294967296 (by omega)
  rw [hmod] at hbmod
  exact hbmod

/-- An integer that is not negative is left as it is if and only if it fits. -/
theorem wrap_eq_self_iff (x : Int) (h : 0 ≤ x) : wrap x = x ↔ x ≤ intMax := by
  constructor
  · intro hx
    have hlt := Int.bmod_lt (x := x) (m := 4294967296) (by decide)
    rw [wrap] at hx
    rw [hx] at hlt
    unfold intMax
    omega
  · exact wrap_of_nonneg x h

/-- The integers that look like -1. -/
theorem wrap_eq_neg_one_iff (n : Nat) : wrap n = -1 ↔ n % 4294967296 = 4294967295 := by
  rw [wrap, Int.bmod_def]
  split <;> omega

theorem toSize_of_neg (x : Int) (h : x < 0) (hx : -18446744073709551616 ≤ x) :
    toSize x = (x + 18446744073709551616).toNat := by
  unfold toSize
  rw [← Int.add_emod_right, Int.emod_eq_of_lt (by omega) (by omega)]

/-- A quotient is cut off towards zero, which does not matter to the question
    if it reaches a positive number. -/
theorem le_tdiv_iff (k a b : Int) (hk : 0 < k) (hb : 0 < b) : k ≤ a.tdiv b ↔ k * b ≤ a := by
  rcases Int.le_total 0 a with ha | ha
  · rw [Int.tdiv_eq_ediv_of_nonneg ha, Int.le_ediv_iff_mul_le hb]
  · have hquot : a.tdiv b ≤ 0 := by
      have hnonneg := Int.tdiv_nonneg (Int.neg_nonneg_of_nonpos ha) (Int.le_of_lt hb)
      rw [Int.neg_tdiv] at hnonneg
      omega
    have hprod : 0 < k * b := Int.mul_pos hk hb
    constructor
    · intro h
      omega
    · intro h
      omega

end Ints
