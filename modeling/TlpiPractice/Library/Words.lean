import Mathlib.Data.Nat.Basic
import Mathlib.Logic.Basic

/-!
# Words in a Byte Memory

A flat memory of bytes and the 32-bit little-endian words read from and
written to it. The address space is unbounded and total: which addresses a
program may touch is a question for the program, not for this layer.

Two words either coincide or are four bytes apart for every client of this
module, so the two lemmas that matter are `getWord_putWord_self` and
`getWord_putWord_of_disjoint`. A byte that lies outside a word is not touched
by writing it, and a word is not touched by writing a byte outside it.

## Main definitions

* `Memory`: A byte for every address.
* `getWord`: The 32-bit word at an address, little-endian.
* `putWord`: Storing a 32-bit word at an address.
* `putByte`: Storing one byte.
* `wordBytes`: The four bytes of a word.

## Theorems

* `getWord_lt`: A word is below `2 ^ 32`.
* `getWord_congr`: A word depends on its own four bytes only.
* `getWord_putWord_self`: A stored word is read back modulo `2 ^ 32`.
* `getWord_putWord_of_disjoint`: Storing a word leaves the others alone.
* `getWord_putByte_of_disjoint`: Storing a byte leaves the words around it
  alone.
* `getWord_of_drop`: Reading the word whose bytes are there.
-/

namespace Words

/-- A byte for every address. -/
abbrev Memory := Nat → UInt8

/-- The 32-bit word at address `a`, least significant byte first. -/
def getWord (m : Memory) (a : Nat) : Nat :=
  (m a).toNat + 256 * (m (a + 1)).toNat + 65536 * (m (a + 2)).toNat
    + 16777216 * (m (a + 3)).toNat

/-- Store the low 32 bits of `v` at address `a`, least significant byte
    first. -/
def putWord (m : Memory) (a v : Nat) : Memory := fun i =>
  if i = a then UInt8.ofNat v
  else if i = a + 1 then UInt8.ofNat (v / 256)
  else if i = a + 2 then UInt8.ofNat (v / 65536)
  else if i = a + 3 then UInt8.ofNat (v / 16777216)
  else m i

/-- Store one byte. -/
def putByte (m : Memory) (a : Nat) (b : UInt8) : Memory := fun i =>
  if i = a then b else m i

/-- The four bytes of a word, least significant byte first. -/
def wordBytes (v : Nat) : List UInt8 :=
  [UInt8.ofNat v, UInt8.ofNat (v / 256), UInt8.ofNat (v / 65536), UInt8.ofNat (v / 16777216)]

theorem getWord_lt (m : Memory) (a : Nat) : getWord m a < 4294967296 := by
  have h0 := (m a).toNat_lt
  have h1 := (m (a + 1)).toNat_lt
  have h2 := (m (a + 2)).toNat_lt
  have h3 := (m (a + 3)).toNat_lt
  unfold getWord
  omega

theorem getWord_congr (m m' : Memory) (a : Nat) (h : ∀ i, a ≤ i → i < a + 4 → m' i = m i) :
    getWord m' a = getWord m a := by
  unfold getWord
  rw [h a (by omega) (by omega), h (a + 1) (by omega) (by omega),
    h (a + 2) (by omega) (by omega), h (a + 3) (by omega) (by omega)]

theorem putWord_of_disjoint (m : Memory) (a v i : Nat) (h : i < a ∨ a + 4 ≤ i) :
    putWord m a v i = m i := by
  unfold putWord
  rw [if_neg (by omega), if_neg (by omega), if_neg (by omega), if_neg (by omega)]

theorem getWord_putWord_self (m : Memory) (a v : Nat) :
    getWord (putWord m a v) a = v % 4294967296 := by
  have h0 : putWord m a v a = UInt8.ofNat v := by simp only [putWord, if_true]
  have h1 : putWord m a v (a + 1) = UInt8.ofNat (v / 256) := by
    simp only [putWord, if_neg (show a + 1 ≠ a by omega), if_true]
  have h2 : putWord m a v (a + 2) = UInt8.ofNat (v / 65536) := by
    simp only [putWord, if_neg (show a + 2 ≠ a by omega), if_neg (show a + 2 ≠ a + 1 by omega),
      if_true]
  have h3 : putWord m a v (a + 3) = UInt8.ofNat (v / 16777216) := by
    simp only [putWord, if_neg (show a + 3 ≠ a by omega), if_neg (show a + 3 ≠ a + 1 by omega),
      if_neg (show a + 3 ≠ a + 2 by omega), if_true]
  unfold getWord
  rw [h0, h1, h2, h3]
  simp only [UInt8.toNat_ofNat']
  omega

theorem getWord_putWord_of_disjoint (m : Memory) (a b v : Nat) (h : a + 4 ≤ b ∨ b + 4 ≤ a) :
    getWord (putWord m b v) a = getWord m a :=
  getWord_congr m _ a (fun i hi hi' => putWord_of_disjoint m b v i (by omega))

theorem getWord_putByte_of_disjoint (m : Memory) (a i : Nat) (b : UInt8)
    (h : i < a ∨ a + 4 ≤ i) : getWord (putByte m i b) a = getWord m a := by
  refine getWord_congr m _ a (fun j hj hj' => ?_)
  unfold putByte
  rw [if_neg (by omega)]

/-- A word is read from a sequence of bytes where its four bytes are. -/
theorem getWord_of_drop (bytes rest : List UInt8) (a v : Nat) (d : UInt8)
    (h : bytes.drop a = wordBytes v ++ rest) (hv : v < 4294967296) :
    getWord (fun i => bytes.getD i d) a = v := by
  have hbyte : ∀ k, bytes.getD (a + k) d = (wordBytes v ++ rest).getD k d := by
    intro k
    rw [← h, List.getD_eq_getElem?_getD, List.getD_eq_getElem?_getD, List.getElem?_drop]
  have h0 := hbyte 0
  rw [Nat.add_zero] at h0
  unfold getWord
  simp only [h0, hbyte 1, hbyte 2, hbyte 3]
  simp only [wordBytes, List.cons_append, List.getD_cons_zero, List.getD_cons_succ,
    UInt8.toNat_ofNat']
  omega

end Words
