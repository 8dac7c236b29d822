import TlpiPractice.Theory.ReadvWritev.RoundTrip

/-!
# Where the Buffers Are Put

Where the loop of `my_writev` puts the buffers, if they are so long together
that an `int` may not hold the sum.

The sum of all lengths is kept in 64 bits, and so is the length of the buffer
that is allocated. The sum of the lengths so far is kept in 32, so it is what
32 bits leave of the sum. It is the sum itself if and only if it fits. The last
buffer is put behind all the others, and no other is put further back.

## Main definitions

* `ssizeMax`: What the first loop can add up to.
* `OffsetsRight`: Where the buffers should be put.
* `twoGigabytes`: Two buffers of 2^30 bytes and one more byte.

## Theorems

* `gather_eq_foldl`: The loop makes its copies one after the other.
* `copies_get`: Where the loop puts a buffer.
* `offsetsRight_iff`: When this is right.
* `offsetsRight_iff_threePieces`: Three small buffers.
* `twoGigabytes_wrong`: The buffers that are too long.
-/

namespace TlpiPractice

namespace ReadvWritev

open Ints Memory

/-- `SSIZE_MAX`. -/
def ssizeMax : Int := 9223372036854775807

/-- Each copy of the loop goes behind the buffers before it, and ends in the
    `total_space` bytes that have been allocated. -/
def OffsetsRight (iov : List Iovec) : Prop :=
  ∀ (i : Nat) (cnt : Int) (v : Iovec), (copies iov 0)[i]? = some (cnt, v) →
    cnt = totalLen (iov.take i) ∧ 0 ≤ cnt ∧ cnt + v.iovLen ≤ totalSpace iov 0

/-- The loop makes its copies one after the other. -/
theorem gather_eq_foldl (mem : Nat → UInt8) (iov : List Iovec) (cnt : Int)
    (buffer : Nat → UInt8) :
    gather mem iov cnt buffer = (copies iov cnt).foldl
      (fun buf c => store buf c.1.toNat (load mem c.2.iovBase c.2.iovLen)) buffer := by
  induction iov generalizing cnt buffer with
  | nil => rfl
  | cons v iov ih =>
      rw [gather, copies, List.foldl_cons]
      exact ih _ _

/-- What is added after a sum has been wrapped may be added before. -/
theorem wrap_wrap_add (x y : Int) : wrap (wrap x + y) = wrap (x + y) := by
  unfold wrap
  exact Int.bmod_add_bmod

/-- The loop puts a buffer where 32 bits say that the ones before it end. -/
theorem copies_get (iov : List Iovec) (x : Int) (i : Nat) :
    (copies iov (wrap x))[i]? =
      iov[i]?.map (fun v => (wrap (x + totalLen (iov.take i)), v)) := by
  induction iov generalizing x i with
  | nil => rfl
  | cons v iov ih =>
      rw [copies]
      cases i with
      | zero =>
          rw [List.take_zero, totalLen, Int.natCast_zero, Int.add_zero]
          rfl
      | succ i =>
          rw [List.getElem?_cons_succ, List.getElem?_cons_succ, wrap_wrap_add, ih,
            List.take_succ_cons, totalLen]
          rw [Int.natCast_add, Int.add_assoc]

theorem totalLen_append (iov iov' : List Iovec) :
    totalLen (iov ++ iov') = totalLen iov + totalLen iov' := by
  induction iov with
  | nil => rw [List.nil_append, totalLen, Nat.zero_add]
  | cons v iov ih => rw [List.cons_append, totalLen, totalLen, ih, Nat.add_assoc]

/-- The buffers up to one and this buffer are some of all the buffers. -/
theorem totalLen_take_add_le (iov : List Iovec) (i : Nat) (v : Iovec) (h : iov[i]? = some v) :
    totalLen (iov.take i) + v.iovLen ≤ totalLen iov := by
  have hsplit : iov.take (i + 1) ++ iov.drop (i + 1) = iov := List.take_append_drop _ _
  have hone : iov.take (i + 1) = iov.take i ++ [v] := by
    rw [List.take_add_one, h]
    rfl
  have htotal : totalLen iov = totalLen (iov.take i) + totalLen [v] + totalLen (iov.drop (i + 1)) :=
    by rw [← totalLen_append, ← hone, ← totalLen_append, hsplit]
  have hv : totalLen [v] = v.iovLen := rfl
  omega

/-- No buffer is put further back than the last one. -/
theorem totalLen_take_le_dropLast (iov : List Iovec) (i : Nat) (h : i < iov.length) :
    totalLen (iov.take i) ≤ totalLen iov.dropLast := by
  have htake : iov.take i = iov.dropLast.take i := by
    rw [List.dropLast_eq_take, List.take_take, Nat.min_eq_left (by omega)]
  have hsplit : totalLen iov.dropLast =
      totalLen (iov.dropLast.take i) + totalLen (iov.dropLast.drop i) := by
    rw [← totalLen_append, List.take_append_drop]
  rw [htake]
  omega

/-- The loop puts all buffers where they should be if and only if all but the
    last of them fit into an `int`. -/
theorem offsetsRight_iff (iov : List Iovec) (hsize : totalLen iov ≤ ssizeMax) :
    OffsetsRight iov ↔ totalLen iov.dropLast ≤ intMax := by
  -- The offsets are right up to 32 bits, and the space is right as it is.
  have hcopies : ∀ i, (copies iov 0)[i]? =
      iov[i]?.map (fun v => (wrap (totalLen (iov.take i)), v)) := by
    intro i
    have hget := copies_get iov 0 i
    rwa [Int.zero_add] at hget
  have hspace : totalSpace iov 0 = totalLen iov := by
    unfold ssizeMax at hsize
    rw [totalSpace_eq iov 0 (Int.le_refl 0) (by omega), Int.zero_add]
  constructor
  · intro hright
    rcases List.eq_nil_or_concat iov with rfl | ⟨front, v, rfl⟩
    · decide
    · -- The last buffer is put behind the others.
      rw [List.concat_eq_append] at hcopies hright ⊢
      have hlast := hcopies front.length
      rw [List.getElem?_append_right (Nat.le_refl _), Nat.sub_self, List.take_left] at hlast
      have hwrap := (hright front.length _ v hlast).1
      rw [List.take_left] at hwrap
      rw [List.dropLast_concat]
      exact (wrap_eq_self_iff _ (Int.natCast_nonneg _)).mp hwrap
  · intro hsmall i cnt v hget
    -- No buffer goes further back than the last, so none of them is wrapped.
    rw [hcopies, Option.map_eq_some_iff] at hget
    rcases hget with ⟨w, hw, heq⟩
    rcases Prod.mk.inj heq with ⟨rfl, rfl⟩
    rcases List.getElem?_eq_some_iff.mp hw with ⟨hlt, _⟩
    have hle := totalLen_take_le_dropLast iov i hlt
    have hfits := totalLen_take_add_le iov i w hw
    rw [(wrap_eq_self_iff _ (Int.natCast_nonneg _)).mpr (by omega), hspace]
    refine ⟨rfl, Int.natCast_nonneg _, ?_⟩
    omega

theorem offsetsRight_iff_threePieces :
    totalLen threePieces ≤ ssizeMax ∧
      (OffsetsRight threePieces ↔ totalLen threePieces.dropLast ≤ intMax) :=
  ⟨by decide, offsetsRight_iff threePieces (by decide)⟩

/-- Two buffers of 2^30 bytes and one of a byte, which may all be the same
    memory. -/
def twoGigabytes : List Iovec := [⟨0, 1073741824⟩, ⟨0, 1073741824⟩, ⟨0, 1⟩]

/-- The last byte goes 2^31 bytes in front of the buffer. -/
theorem twoGigabytes_wrong : totalLen twoGigabytes ≤ ssizeMax ∧ ¬ OffsetsRight twoGigabytes := by
  refine ⟨by decide, fun h => ?_⟩
  have hlast := (h 2 (-2147483648) ⟨0, 1⟩ (by decide)).1
  exact absurd hlast (by decide)

end ReadvWritev

end TlpiPractice
