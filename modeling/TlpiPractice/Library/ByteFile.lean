import Mathlib.Data.UInt
import Mathlib.Data.List.GetD

/-!
# Files of Bytes

A regular file as the sequence of its bytes, and the write of some bytes at
an offset. An offset may lie beyond the end: the gap is a hole and reads as
zero. Writing nothing changes nothing, not even the length.

A file is a list, so a hole is kept as the zeros it reads as. Reading beyond
the end gives zero too, which lets a statement speak of a byte without
asking whether the file reaches that far. Two files are the same when they
have the same length and the same bytes.

## Main definitions

* `byteAt`: The byte at a position, zero beyond the end.
* `writeAt`: The file after a write at an offset.

## Theorems

* `length_writeAt`: A write extends the file to its last byte.
* `byteAt_writeAt`: What each byte is after a write.
* `byteAt_append`: The bytes of a file followed by others.
* `ext_byteAt`: Files are told apart by their length and their bytes.
* `writeAt_length`: A write at the end.
-/

namespace ByteFile

/-- The byte at a position, zero beyond the end. -/
def byteAt (f : List UInt8) (i : Nat) : UInt8 := f.getD i 0

/-- The file after writing `data` at offset `off`. -/
def writeAt (f : List UInt8) (off : Nat) (data : List UInt8) : List UInt8 :=
  if data = [] then f
  else f.take off ++ (List.replicate (off - f.length) 0 ++ (data ++ f.drop (off + data.length)))

theorem byteAt_of_length_le (f : List UInt8) (i : Nat) (h : f.length ≤ i) : byteAt f i = 0 := by
  rw [byteAt, List.getD_eq_getElem?_getD, List.getElem?_eq_none h, Option.getD_none]

theorem byteAt_append (f g : List UInt8) (i : Nat) :
    byteAt (f ++ g) i = if i < f.length then byteAt f i else byteAt g (i - f.length) := by
  simp only [byteAt, List.getD_eq_getElem?_getD, List.getElem?_append]
  split <;> rfl

theorem byteAt_replicate_zero (n i : Nat) : byteAt (List.replicate n 0) i = 0 := by
  simp only [byteAt, List.getD_eq_getElem?_getD, List.getElem?_replicate]
  split <;> rfl

theorem byteAt_take (f : List UInt8) (n i : Nat) (h : i < n) :
    byteAt (f.take n) i = byteAt f i := by
  simp only [byteAt, List.getD_eq_getElem?_getD, List.getElem?_take_of_lt h]

theorem byteAt_drop (f : List UInt8) (n i : Nat) : byteAt (f.drop n) i = byteAt f (n + i) := by
  simp only [byteAt, List.getD_eq_getElem?_getD, List.getElem?_drop]

/-- A byte of a file that has no zero bytes is not zero. -/
theorem byteAt_ne_zero (f : List UInt8) (hf : ∀ b ∈ f, b ≠ 0) (i : Nat) (h : i < f.length) :
    byteAt f i ≠ 0 := by
  rw [byteAt, List.getD_eq_getElem f 0 h]
  exact hf _ (List.getElem_mem h)

/-- Files are told apart by their length and their bytes. -/
theorem ext_byteAt (f g : List UInt8) (hlen : f.length = g.length)
    (h : ∀ i, i < f.length → byteAt f i = byteAt g i) : f = g := by
  refine List.ext_getElem hlen (fun i hf hg => ?_)
  have hi := h i hf
  rwa [byteAt, byteAt, List.getD_eq_getElem f 0 hf, List.getD_eq_getElem g 0 hg] at hi

/-- A write extends the file to its last byte, and never shortens it. -/
theorem length_writeAt (f : List UInt8) (off : Nat) (data : List UInt8) (h : data ≠ []) :
    (writeAt f off data).length = max f.length (off + data.length) := by
  rw [writeAt, if_neg h]
  simp only [List.length_append, List.length_take, List.length_replicate, List.length_drop]
  omega

/-- The bytes written are those of the data, the others are what they were,
    and a hole reads as zero. -/
theorem byteAt_writeAt (f : List UInt8) (off : Nat) (data : List UInt8) (i : Nat) :
    byteAt (writeAt f off data) i =
      if off ≤ i ∧ i < off + data.length then byteAt data (i - off) else byteAt f i := by
  by_cases hd : data = []
  · rw [writeAt, if_pos hd, hd, if_neg (by simp only [List.length_nil]; omega)]
  rw [writeAt, if_neg hd, byteAt_append, List.length_take]
  by_cases hlow : i < min off f.length
  · -- Before the data and within the old file.
    rw [if_pos hlow, byteAt_take f off i (by omega), if_neg (by omega)]
  rw [if_neg hlow, byteAt_append, List.length_replicate]
  by_cases hhole : i < off
  · -- In the hole.
    rw [if_pos (by omega), byteAt_replicate_zero, if_neg (by omega),
      byteAt_of_length_le f i (by omega)]
  rw [if_neg (by omega), byteAt_append]
  have hshift : i - min off f.length - (off - f.length) = i - off := by omega
  rw [hshift]
  by_cases hin : i - off < data.length
  · rw [if_pos hin, if_pos (by omega)]
  · rw [if_neg hin, if_neg (by omega), byteAt_drop]
    congr 1
    omega

/-- A write at the end puts the bytes behind the others. -/
theorem writeAt_length (f data : List UInt8) : writeAt f f.length data = f ++ data := by
  by_cases hd : data = []
  · rw [writeAt, if_pos hd, hd, List.append_nil]
  · rw [writeAt, if_neg hd, List.take_length, Nat.sub_self,
      List.drop_eq_nil_of_le (Nat.le_add_right _ _), List.append_nil]
    rfl

end ByteFile
