import Mathlib.Data.Nat.Bitwise
import TlpiPractice.Core.Malloc

/-!
# Walking the Blocks

What the block macros compute, and what the walk from one block to the next
can do, whatever the memory holds.

`GET_SIZE` masks the three low bits away, so every stored size is a multiple
of eight and the walk never leaves the residue class modulo eight it started
in. The walk also never goes back, since it adds a size. These two facts hold
for arbitrary memory contents and are the only ones the allocator never loses.

`Scan` is the walk as `first_fit` performs it: it leaves a block only when
that block does not fit. `Visits` is the walk over all blocks up to
`list_end`. A scan that ends at a block which fits cannot have met a block of
size zero, since it would still be there, and so `visits_scan` can place any
visited block relative to the one found: wholly before it, equal to it, or
wholly behind it.

`scan_frame` says that a scan only reads headers below the block it ends at,
so a store at or above that block's header leaves the scan as it was.

## Main definitions

* `Scan`: The walk of `first_fit` over blocks that do not fit.
* `Visits`: The walk over the blocks before `list_end`.
* `IsBlock`: A block the walk from `free_list` meets.

## Theorems

* `getSize_eq`, `getAlloc_eq`: The macros as arithmetic.
* `getSize_put_self`: Reading back a stored header word.
* `split_words`, `split_outside`: What splitting a block writes, and what it leaves.
* `scan_lt_of_ne`: A scan moves on by at least eight bytes.
* `scan_unique`: Two scans for one size end at the same fitting block.
* `visits_scan`: Where a visited block lies relative to the block found.
* `scan_frame`: A scan survives stores above the headers it read.
* `firstFitFrom_scan`: What a returning `first_fit` has done.
-/

namespace TlpiPractice

namespace Malloc

open Words

/-! ### The block macros -/

theorem and_size_mask (w : Nat) (hw : w < 2 ^ 32) : w &&& 0xFFFFFFF8 = w / 8 * 8 := by
  -- Bit by bit: the mask has 29 ones above its three zeros.
  refine Nat.eq_of_testBit_eq (fun i => ?_)
  have hmask : (0xFFFFFFF8 : Nat) = (2 ^ 29 - 1) * 2 ^ 3 := by decide
  have hdiv : w / 8 * 8 = w / 2 ^ 3 * 2 ^ 3 := rfl
  rw [Nat.testBit_and, hmask, hdiv, Nat.testBit_mul_two_pow, Nat.testBit_mul_two_pow,
    Nat.testBit_two_pow_sub_one, Nat.testBit_div_two_pow]
  by_cases hi : 3 ≤ i
  · by_cases hj : i - 3 < 29
    · simp only [hi, hj, decide_true, Bool.and_true, Bool.true_and, Nat.sub_add_cancel hi]
    · -- Above the word there are no bits on either side.
      have hhigh : w.testBit i = false :=
        Nat.testBit_lt_two_pow (lt_of_lt_of_le hw (Nat.pow_le_pow_right (by omega) (by omega)))
      simp only [hhigh, Bool.false_and, Nat.sub_add_cancel hi, Bool.and_false]
  · simp only [hi, decide_false, Bool.false_and, Bool.and_false]

theorem pack_free (size : Nat) : pack size 0 = size := Nat.or_zero size

theorem pack_alloc (size : Nat) (h : size % 8 = 0) : pack size 1 = size + 1 := by
  have hsize : size = 2 ^ 3 * (size / 8) := by omega
  rw [pack, hsize, ← Nat.two_pow_add_eq_or_of_lt (by decide)]

theorem getSize_eq (h : Heap) (p : Nat) : getSize h p = getWord h.mem p / 8 * 8 :=
  and_size_mask _ (getWord_lt h.mem p)

theorem getAlloc_eq (h : Heap) (p : Nat) : getAlloc h p = getWord h.mem p % 2 :=
  Nat.and_one_is_mod _

theorem getSize_mod (h : Heap) (p : Nat) : getSize h p % 8 = 0 := by
  rw [getSize_eq]
  omega

theorem getSize_lt (h : Heap) (p : Nat) : getSize h p < 2 ^ 32 := by
  have := getWord_lt h.mem p
  rw [getSize_eq]
  omega

theorem getSize_put_self (h : Heap) (p val : Nat) :
    getSize (put h p val) p = val % 4294967296 / 8 * 8 := by
  rw [getSize_eq, put, getWord_putWord_self]

theorem getSize_put_of_disjoint (h : Heap) (p q val : Nat) (hd : p + 4 ≤ q ∨ q + 4 ≤ p) :
    getSize (put h q val) p = getSize h p := by
  rw [getSize_eq, getSize_eq, put, getWord_putWord_of_disjoint _ _ _ _ hd]

/-! ### The walk -/

/-- The walk of `first_fit` from `p` to `q`: it moves on only from blocks that
    are not `list_end` and do not fit. -/
inductive Scan (h : Heap) (size : Nat) : Nat → Nat → Prop
  | here (p : Nat) : Scan h size p p
  | next (p q : Nat) (hend : p ≠ h.listEnd) (hfit : ¬ Fits h size p)
      (hrest : Scan h size (nextBlkp h p) q) : Scan h size p q

/-- The walk from `p` over blocks that are not `list_end`. -/
inductive Visits (h : Heap) : Nat → Nat → Prop
  | here (p : Nat) : Visits h p p
  | next (p q : Nat) (hend : p ≠ h.listEnd) (hrest : Visits h (nextBlkp h p) q) : Visits h p q

/-- A block of the heap: the walk from `free_list` meets it before
    `list_end`. -/
def IsBlock (h : Heap) (q : Nat) : Prop := Visits h h.freeList q ∧ q ≠ h.listEnd

theorem le_nextBlkp (h : Heap) (p : Nat) : p ≤ nextBlkp h p := Nat.le_add_right _ _

theorem nextBlkp_mod (h : Heap) (p : Nat) : nextBlkp h p % 8 = p % 8 := by
  have hsize := getSize_mod h (p - wsize)
  unfold nextBlkp
  omega

theorem visits_le (h : Heap) (p q : Nat) (hv : Visits h p q) : p ≤ q := by
  -- The walk only ever adds a size.
  induction hv with
  | here p => exact le_refl p
  | next p q _ _ ih => exact le_trans (le_nextBlkp h p) ih

theorem visits_mod (h : Heap) (p q : Nat) (hv : Visits h p q) : q % 8 = p % 8 := by
  induction hv with
  | here p => rfl
  | next p q _ _ ih => rw [ih, nextBlkp_mod]

theorem visits_of_scan (h : Heap) (size p q : Nat) (hs : Scan h size p q) : Visits h p q := by
  induction hs with
  | here p => exact Visits.here p
  | next p q hend _ _ ih => exact Visits.next p q hend ih

/-- A scan that ends at a fitting block has either not moved or moved on by
    at least a double word: at a block of size zero it would still be. -/
theorem scan_lt_of_ne (h : Heap) (size p q : Nat) (hs : Scan h size p q) (hfit : Fits h size q) :
    p = q ∨ p + 8 ≤ q := by
  induction hs with
  | here p => exact Or.inl rfl
  | next p q _ hnot _ ih =>
      -- Sizes are multiples of eight, so a step that moves at all moves that far.
      have hsize := getSize_mod h (p - wsize)
      rcases ih hfit with heq | hlt
      · -- The step landed on `q`, so it was not a step in place.
        have hne : p ≠ q := fun hpq => hnot (hpq ▸ hfit)
        have hnext : nextBlkp h p = p + getSize h (p - wsize) := rfl
        exact Or.inr (by omega)
      · have hle := le_nextBlkp h p
        exact Or.inr (by omega)

/-- Two scans from one place that both end at a fitting block end at the same
    one. -/
theorem scan_unique (h : Heap) (size p q r : Nat) (hq : Scan h size p q) (hfq : Fits h size q)
    (hr : Scan h size p r) (hfr : Fits h size r) : q = r := by
  -- A fitting block stops a scan, so neither of the two can pass the other's.
  induction hq with
  | here p =>
      cases hr with
      | here => rfl
      | next _ _ _ hnot _ => exact absurd hfq hnot
  | next p q _ hnot _ ih =>
      cases hr with
      | here => exact absurd hfr hnot
      | next _ _ _ _ hrest => exact ih hfq hrest

/-- A visited block lies wholly before the block a scan ended at, is that
    block, or lies wholly behind it. -/
theorem visits_scan (h : Heap) (size p q r : Nat) (hs : Scan h size p q) (hfit : Fits h size q)
    (hv : Visits h p r) :
    (r + 8 ≤ q ∧ r + getSize h (hdrp r) ≤ q) ∨ r = q ∨ q + getSize h (hdrp q) ≤ r := by
  -- Along the scan: the visit either stops at its first block or goes the same way.
  induction hs with
  | here p =>
      cases hv with
      | here => exact Or.inr (Or.inl rfl)
      | next _ _ _ hrest => exact Or.inr (Or.inr (visits_le _ _ _ hrest))
  | next p q hend hnot hrest ih =>
      cases hv with
      | here =>
          rcases scan_lt_of_ne h size r q (Scan.next r q hend hnot hrest) hfit with heq | hlt
          · exact Or.inr (Or.inl heq)
          · exact Or.inl ⟨hlt, visits_le _ _ _ (visits_of_scan _ _ _ _ hrest)⟩
      | next _ _ _ hrest' => exact ih hfit hrest'

theorem fits_congr (h h' : Heap) (size p : Nat)
    (hw : getWord h'.mem (hdrp p) = getWord h.mem (hdrp p)) :
    Fits h' size p ↔ Fits h size p := by
  unfold Fits
  rw [getAlloc_eq, getAlloc_eq, getSize_eq, getSize_eq, hw]

/-- A scan reads no header at or above the one of the block it ends at. -/
theorem scan_frame (h h' : Heap) (size p q : Nat) (hs : Scan h size p q) (hfit : Fits h size q)
    (hp : 4 ≤ p) (hend : h'.listEnd = h.listEnd)
    (hmem : ∀ i, i + 4 < q → h'.mem i = h.mem i) : Scan h' size p q := by
  induction hs with
  | here p => exact Scan.here p
  | next p q hne hnot hrest ih =>
      -- The header read here is below the one of `q`.
      have hlt : p + 8 ≤ q := by
        rcases scan_lt_of_ne h size p q (Scan.next p q hne hnot hrest) hfit with heq | hlt
        · exact absurd (heq ▸ hfit) hnot
        · exact hlt
      have hw : getWord h'.mem (hdrp p) = getWord h.mem (hdrp p) := by
        refine getWord_congr h.mem h'.mem _ (fun i hi hi' => hmem i ?_)
        unfold hdrp wsize at hi hi'
        omega
      have hnext : nextBlkp h' p = nextBlkp h p := by
        have hw' : getWord h'.mem (p - wsize) = getWord h.mem (p - wsize) := hw
        unfold nextBlkp
        rw [getSize_eq, getSize_eq, hw']
      refine Scan.next p q (hend ▸ hne) (fun hf => hnot ((fits_congr h h' size p hw).mp hf)) ?_
      rw [hnext]
      exact ih hfit (le_trans hp (le_nextBlkp h p)) hmem

/-- A `first_fit` that returns has scanned to the block it returns, which
    fits, or to `list_end`, where it has grown the heap. -/
theorem firstFitFrom_scan (h : Heap) (size rounds p : Nat) (r : Heap × Nat)
    (hr : firstFitFrom h size rounds p = some r) :
    (r.1 = h ∧ Scan h size p r.2 ∧ Fits h size r.2 ∧ r.2 ≠ h.listEnd) ∨
      (Scan h size p h.listEnd ∧ r = newChunk h) := by
  -- On the rounds left; each either ends the scan or adds a step to it.
  induction rounds generalizing p with
  | zero => exact absurd hr (by simp only [firstFitFrom, reduceCtorEq, not_false_eq_true])
  | succ n ih =>
      simp only [firstFitFrom] at hr
      by_cases hend : p = h.listEnd
      · rw [if_pos hend, Option.some.injEq] at hr
        exact Or.inr ⟨hend ▸ Scan.here p, hr.symm⟩
      · rw [if_neg hend] at hr
        by_cases hfit : Fits h size p
        · rw [if_pos hfit, Option.some.injEq] at hr
          rw [← hr]
          exact Or.inl ⟨rfl, Scan.here p, hfit, hend⟩
        · rw [if_neg hfit] at hr
          rcases ih (nextBlkp h p) hr with ⟨h1, h2, h3, h4⟩ | ⟨h1, h2⟩
          · exact Or.inl ⟨h1, Scan.next p _ hend hfit h2, h3, h4⟩
          · exact Or.inr ⟨Scan.next p _ hend hfit h1, h2⟩

/-! ### Splitting a block -/

section Split

variable (h : Heap) (blk size : Nat)

@[simp] theorem split_freeList : (split h blk size).freeList = h.freeList := by
  dsimp only [split]
  split <;> rfl

@[simp] theorem split_listEnd : (split h blk size).listEnd = h.listEnd := by
  dsimp only [split]
  split <;> rfl

@[simp] theorem split_brk : (split h blk size).brk = h.brk := by
  dsimp only [split]
  split <;> rfl

/-- The four words that splitting a block writes: the two of the front, and
    the two of the rest. -/
theorem split_mem (hblk : 8 ≤ blk) (hsize : size % 8 = 0) (hpos : 8 ≤ size)
    (hbig : size < getSize h (hdrp blk)) :
    (split h blk size).mem =
      putWord (putWord (putWord (putWord h.mem (blk - 4) (size + 1)) (blk + size - 8) (size + 1))
          (blk + size - 4) (getSize h (hdrp blk) - size))
        (blk + getSize h (hdrp blk) - 8) (getSize h (hdrp blk) - size) := by
  have hmod := getSize_mod h (hdrp blk)
  have hlt := getSize_lt h (hdrp blk)
  have hh : hdrp blk = blk - 4 := rfl
  -- The four stores, one heap after the other.
  set s := getSize h (hdrp blk) with hs
  let h1 := put h (hdrp blk) (pack size 1)
  let h2 := put h1 (ftrp h1 blk) (pack size 1)
  let h3 := put h2 (hdrp (nextBlkp h2 blk)) (pack (s - size) 0)
  let h4 := put h3 (ftrp h3 (nextBlkp h2 blk)) (pack (s - size) 0)
  have hsplit : split h blk size = h4 := by
    unfold split
    rw [if_pos hbig]
  -- The footer and the next header are placed by the size just stored.
  have hsize1 : getSize h1 (hdrp blk) = size := by
    rw [getSize_put_self, pack_alloc size hsize]
    omega
  have hftr1 : ftrp h1 blk = blk + size - 8 := by
    unfold ftrp
    rw [hsize1]
    rfl
  have hsize2 : getSize h2 (hdrp blk) = size := by
    rw [getSize_put_of_disjoint _ _ _ _ (by omega), hsize1]
  have hnext : nextBlkp h2 blk = blk + size := by
    unfold nextBlkp
    exact congrArg (blk + ·) hsize2
  have hsize3 : getSize h3 (hdrp (nextBlkp h2 blk)) = s - size := by
    rw [getSize_put_self, pack_free]
    omega
  have hftr3 : ftrp h3 (nextBlkp h2 blk) = blk + s - 8 := by
    unfold ftrp
    rw [hsize3, hnext, dsize]
    omega
  have hmem : h4.mem = putWord (putWord (putWord (putWord h.mem (hdrp blk) (pack size 1))
      (ftrp h1 blk) (pack size 1)) (hdrp (nextBlkp h2 blk)) (pack (s - size) 0))
      (ftrp h3 (nextBlkp h2 blk)) (pack (s - size) 0) := rfl
  rw [hsplit, hmem, hftr3, hftr1, hnext, pack_alloc size hsize, pack_free]
  rfl

section Stores

variable (hblk : 8 ≤ blk) (hsize : size % 8 = 0) (hpos : 8 ≤ size)
  (hbig : size < getSize h (hdrp blk))
include hblk hsize hpos hbig

/-- Nothing is written below the header of the block, or behind its footer. -/
theorem split_outside (i : Nat) (hi : i + 4 < blk ∨ blk + getSize h (hdrp blk) - 4 ≤ i) :
    (split h blk size).mem i = h.mem i := by
  have hmod := getSize_mod h (hdrp blk)
  rw [split_mem h blk size hblk hsize hpos hbig, putWord_of_disjoint _ _ _ _ (by omega),
    putWord_of_disjoint _ _ _ _ (by omega), putWord_of_disjoint _ _ _ _ (by omega),
    putWord_of_disjoint _ _ _ _ (by omega)]

/-- The words of the front have its size with the allocation bit, and those of
    the rest have what is left. -/
theorem split_words :
    getWord (split h blk size).mem (blk - 4) = size + 1 ∧
      getWord (split h blk size).mem (blk + size - 8) = size + 1 ∧
      getWord (split h blk size).mem (blk + size - 4) = getSize h (hdrp blk) - size ∧
      getWord (split h blk size).mem (blk + getSize h (hdrp blk) - 8) =
        getSize h (hdrp blk) - size := by
  have hmod := getSize_mod h (hdrp blk)
  have hlt := getSize_lt h (hdrp blk)
  rw [split_mem h blk size hblk hsize hpos hbig]
  refine ⟨?_, ?_, ?_, ?_⟩
  · -- No later store meets the header of the front,
    rw [getWord_putWord_of_disjoint _ _ _ _ (by omega),
      getWord_putWord_of_disjoint _ _ _ _ (by omega),
      getWord_putWord_of_disjoint _ _ _ _ (by omega), getWord_putWord_self]
    omega
  · -- nor its footer,
    rw [getWord_putWord_of_disjoint _ _ _ _ (by omega),
      getWord_putWord_of_disjoint _ _ _ _ (by omega), getWord_putWord_self]
    omega
  · -- nor the header of the rest.
    rw [getWord_putWord_of_disjoint _ _ _ _ (by omega), getWord_putWord_self]
    omega
  · rw [getWord_putWord_self]
    omega

/-- The footer of the front has the allocation bit set. -/
theorem split_footer : getAlloc (split h blk size) (blk + size - 8) ≠ 0 := by
  rw [getAlloc_eq, (split_words h blk size hblk hsize hpos hbig).2.1]
  omega

end Stores

/-- An exact fit is not touched. -/
theorem split_of_le (hle : getSize h (hdrp blk) ≤ size) : split h blk size = h := by
  unfold split
  rw [if_neg (Nat.not_lt.mpr hle)]

/-- Splitting writes nothing below the header of the block split, and leaves
    that header with the requested size and the allocation bit set. -/
theorem split_spec (hblk : 8 ≤ blk) (hsize : size % 8 = 0) (hpos : 8 ≤ size)
    (hfit : Fits h size blk) :
    (∀ i, i + 4 < blk → (split h blk size).mem i = h.mem i) ∧
      getSize (split h blk size) (hdrp blk) = size ∧
      getAlloc (split h blk size) (hdrp blk) ≠ 0 := by
  by_cases hbig : size < getSize h (hdrp blk)
  · have hword : getWord (split h blk size).mem (hdrp blk) = size + 1 :=
      (split_words h blk size hblk hsize hpos hbig).1
    refine ⟨fun i hi => split_outside h blk size hblk hsize hpos hbig i (Or.inl hi), ?_, ?_⟩
    · rw [getSize_eq, hword]
      omega
    · rw [getAlloc_eq, hword]
      omega
  · rw [split_of_le h blk size (Nat.le_of_not_lt hbig)]
    exact ⟨fun _ _ => rfl, le_antisymm (Nat.le_of_not_lt hbig) hfit.2, hfit.1⟩

end Split

end Malloc

end TlpiPractice
