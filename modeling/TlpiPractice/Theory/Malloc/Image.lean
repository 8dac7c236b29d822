import TlpiPractice.Library.BoundaryTags
import TlpiPractice.Theory.Malloc.Walk

/-!
# Heap Images

Heaps whose blocks tile the region from `free_list` to `list_end`, whatever
calls may have led there.

The tags of the blocks are kept as a list. The macros read what the tags say,
`NEXT_BLKP` goes from a block to the one behind it, and the walk from
`free_list` meets just the blocks of the list. So `first_fit` comes to an end
in such a heap. If no block stops it, `new_chunk` takes the place of the
terminator for the header of the block it adds, and what it leaves is an image
with one block more.

## Main definitions

* `HeapImage`: A heap whose blocks have the tags of a list.

## Theorems

* `isBlock_iff_placed`: The walk meets the blocks of the list.
* `firstFitFrom_some`: The walk of `first_fit` ends.
* `not_fits_of_scan`: A walk that ends at `list_end` has met no block that fits.
* `newChunk_eq`: What `new_chunk` writes behind an allocated terminator.
* `tiled_newChunk`: The blocks behind the new one and in front of it.
* `heapImage_newChunk`: The image with the new block.
-/

namespace TlpiPractice

namespace Malloc

open Words BoundaryTags

/-- The blocks from `free_list` to `list_end` have the tags of the list, of
    which the first is that of the dummy head, and the terminator behind them
    is allocated. -/
structure HeapImage (h : Heap) (ws : List Nat) : Prop where
  base : 8 ≤ h.freeList
  tiled : Tiled h.mem h.freeList ws h.listEnd
  ne_nil : ws ≠ []
  terminator : getAlloc h (hdrp h.listEnd) ≠ 0

/-! ### Macros and tags -/

theorem getSize_of_word (h : Heap) (p w : Nat) (hw : getWord h.mem p = w) :
    getSize h p = size w := by
  rw [getSize_eq, hw]
  rfl

theorem getAlloc_of_word (h : Heap) (p w : Nat) (hw : getWord h.mem p = w) :
    getAlloc h p = 0 ↔ Free w := by
  rw [getAlloc_eq, hw]
  rfl

/-- What the macros say of a block. -/
theorem macros_placed (h : Heap) (p : Nat) (ws : List Nat) (e : Nat)
    (ht : Tiled h.mem p ws e) (b : Nat × Nat) (hb : b ∈ placed p ws) :
    getSize h (hdrp b.1) = size b.2 ∧ (getAlloc h (hdrp b.1) = 0 ↔ Free b.2) ∧
      nextBlkp h b.1 = b.1 + size b.2 := by
  rcases tiled_placed h.mem p ws e ht b hb with ⟨hhead, _, _, _⟩
  have hsize := getSize_of_word h (hdrp b.1) b.2 hhead
  exact ⟨hsize, getAlloc_of_word h _ b.2 hhead, congrArg (b.1 + ·) hsize⟩

/-! ### The walk over an image -/

/-- The walk meets the blocks of the list, and no others before `list_end`. -/
theorem visits_iff_placed (h : Heap) (p : Nat) (ws : List Nat) (ht : Tiled h.mem p ws h.listEnd)
    (q : Nat) : (Visits h p q ∧ q ≠ h.listEnd) ↔ ∃ w, (q, w) ∈ placed p ws := by
  induction ws generalizing p with
  | nil =>
      have hp : p = h.listEnd := ht
      constructor
      · intro hq
        rcases hq with ⟨hv, hne⟩
        cases hv with
        | here => exact absurd hp hne
        | next _ _ hend _ => exact absurd hp hend
      · intro hq
        rcases hq with ⟨w, hw⟩
        exact absurd hw List.not_mem_nil
  | cons w ws ih =>
      have hnext := (macros_placed h p (w :: ws) _ ht (p, w) List.mem_cons_self).2.2
      have hpos := ht.1.2.2
      have hend := tiled_end h.mem _ ws _ ht.2
      have hne : p ≠ h.listEnd := by omega
      have hrest := ih _ ht.2
      simp only at hnext
      constructor
      · intro hq
        rcases hq with ⟨hv, hq⟩
        cases hv with
        | here => exact ⟨w, List.mem_cons_self⟩
        | next _ _ _ hv =>
            rw [hnext] at hv
            rcases hrest.mp ⟨hv, hq⟩ with ⟨w', hw'⟩
            exact ⟨w', List.mem_cons_of_mem _ hw'⟩
      · intro hq
        rcases hq with ⟨w', hw'⟩
        rcases List.mem_cons.mp hw' with heq | hw'
        · rw [(Prod.mk.inj heq).1]
          exact ⟨Visits.here p, hne⟩
        · rcases hrest.mpr ⟨w', hw'⟩ with ⟨hv, hq⟩
          rw [← hnext] at hv
          exact ⟨Visits.next p q hne hv, hq⟩

theorem isBlock_iff_placed (h : Heap) (ws : List Nat) (hi : HeapImage h ws) (q : Nat) :
    IsBlock h q ↔ ∃ w, (q, w) ∈ placed h.freeList ws :=
  visits_iff_placed h h.freeList ws hi.tiled q

/-- The walk of `first_fit` over blocks up to `list_end` ends. -/
theorem firstFitFrom_some (h : Heap) (n p : Nat) (ws : List Nat)
    (ht : Tiled h.mem p ws h.listEnd) (rounds : Nat) (hr : ws.length < rounds) :
    ∃ r, firstFitFrom h n rounds p = some r := by
  induction ws generalizing p rounds with
  | nil =>
      obtain ⟨k, rfl⟩ : ∃ k, rounds = k + 1 := ⟨rounds - 1, by omega⟩
      exact ⟨newChunk h, if_pos ht⟩
  | cons w ws ih =>
      obtain ⟨k, rfl⟩ : ∃ k, rounds = k + 1 := ⟨rounds - 1, by omega⟩
      have hnext := (macros_placed h p (w :: ws) _ ht (p, w) List.mem_cons_self).2.2
      have hpos := ht.1.2.2
      have hend := tiled_end h.mem _ ws _ ht.2
      simp only [firstFitFrom]
      rw [if_neg (by omega)]
      by_cases hfit : Fits h n p
      · exact ⟨(h, p), if_pos hfit⟩
      · rw [if_neg hfit, hnext]
        exact ih _ ht.2 k (by simp only [List.length_cons] at hr; omega)

/-- A walk that has come to `list_end` has met no block that fits. -/
theorem not_fits_of_scan (h : Heap) (n p : Nat) (hs : Scan h n p h.listEnd) (q : Nat)
    (hv : Visits h p q) (hq : q ≠ h.listEnd) : ¬ Fits h n q := by
  generalize he : h.listEnd = e at hs hq
  induction hs with
  | here p =>
      cases hv with
      | here => exact absurd rfl hq
      | next _ _ hend _ => exact absurd he.symm hend
  | next p e _ hfit _ ih =>
      cases hv with
      | here => exact hfit
      | next _ _ _ hv => exact ih hv he hq

/-! ### The new chunk -/

/-- Behind an allocated terminator `new_chunk` adds a block of its own: three
    words are written, and the block is where the region used to end. -/
theorem newChunk_eq (h : Heap) (hend : 8 ≤ h.listEnd) (ht : getAlloc h (hdrp h.listEnd) ≠ 0) :
    newChunk h =
      ({ mem := putWord (putWord (putWord h.mem (h.listEnd - 4) chunkSize)
          (h.listEnd + chunkSize - 8) chunkSize) (h.listEnd + chunkSize - 4) 1
         brk := h.brk + chunkSize
         freeList := h.freeList
         listEnd := h.listEnd + chunkSize }, h.listEnd) := by
  have hc : chunkSize = 4096 := rfl
  let h0 := (sbrk h chunkSize).2
  let h1 := put h0 (hdrp h.listEnd) (pack chunkSize 0)
  let h2 := put h1 (ftrp h1 h.listEnd) (pack chunkSize 0)
  let h3 :=
    put { h2 with listEnd := nextBlkp h2 h.listEnd } (hdrp (nextBlkp h2 h.listEnd)) (pack 0 1)
  -- The footer and the end are placed by the size just stored.
  have hsize1 : getSize h1 (hdrp h.listEnd) = 4096 := by
    rw [getSize_put_self, pack_free, hc]
  have hftr : ftrp h1 h.listEnd = h.listEnd + chunkSize - 8 := by
    unfold ftrp
    rw [hsize1, hc]
    rfl
  have hsize2 : getSize h2 (h.listEnd - wsize) = 4096 := by
    rw [getSize_put_of_disjoint _ _ _ _ (by rw [hftr, hc]; unfold wsize; omega)]
    exact hsize1
  have hnext : nextBlkp h2 h.listEnd = h.listEnd + chunkSize := by
    unfold nextBlkp
    rw [hsize2, hc]
  -- The block returned is found by its footer.
  have hsize3 : getSize h3 (h.listEnd + chunkSize - dsize) = 4096 := by
    rw [getSize_put_of_disjoint _ _ _ _ (by rw [hnext]; unfold hdrp wsize dsize; omega)]
    have hself : getSize h2 (ftrp h1 h.listEnd) = 4096 := by
      rw [getSize_put_self, pack_free, hc]
    rw [hftr] at hself
    exact hself
  have hprev : prevBlkp h3 (h.listEnd + chunkSize) = h.listEnd := by
    unfold prevBlkp
    rw [hsize3, hc]
    omega
  have ht0 : getAlloc h0 (hdrp h0.listEnd) ≠ 0 := ht
  have hnew : newChunk h = (h3, prevBlkp h3 (nextBlkp h2 h.listEnd)) := by
    simp only [newChunk]
    rw [if_pos ht0]
    rfl
  have hmem2 : h2.mem = putWord (putWord h.mem (h.listEnd - 4) chunkSize)
      (h.listEnd + chunkSize - 8) chunkSize := by
    change putWord (putWord h.mem (h.listEnd - 4) chunkSize) (ftrp h1 h.listEnd) chunkSize = _
    rw [hftr]
  have hmem3 : h3.mem = putWord h2.mem (h.listEnd + chunkSize - 4) 1 := by
    change putWord h2.mem (nextBlkp h2 h.listEnd - 4) 1 = _
    rw [hnext]
  rw [← hmem2, ← hmem3, hnew, hnext, hprev, ← hnext]
  rfl

/-- Behind the blocks that were there is one more, and then the terminator. -/
theorem tiled_newChunk (h : Heap) (ws : List Nat) (hbase : 8 ≤ h.freeList)
    (htiled : Tiled h.mem h.freeList ws h.listEnd) (halloc : getAlloc h (hdrp h.listEnd) ≠ 0) :
    Tiled (newChunk h).1.mem h.freeList (ws ++ [chunkSize]) (h.listEnd + chunkSize) ∧
      getWord (newChunk h).1.mem (h.listEnd + chunkSize - 4) = 1 := by
  have hc : chunkSize = 4096 := rfl
  have hend := tiled_end h.mem _ ws _ htiled
  have hmem : (newChunk h).1.mem = putWord (putWord (putWord h.mem (h.listEnd - 4) chunkSize)
      (h.listEnd + chunkSize - 8) chunkSize) (h.listEnd + chunkSize - 4) 1 := by
    rw [newChunk_eq h (by omega) halloc]
  rw [hmem]
  refine ⟨(tiled_append _ h.freeList ws _ _).mpr ⟨?_, ?_⟩, ?_⟩
  · -- Nothing is written in front of the terminator.
    rw [← hend]
    refine tiled_congr h.mem _ h.freeList ws _ (by omega) (fun i _ hlt => ?_) htiled
    rw [putWord_of_disjoint _ _ _ _ (by omega), putWord_of_disjoint _ _ _ _ (by omega),
      putWord_of_disjoint _ _ _ _ (by omega)]
  · -- The header of the new block is where the terminator was.
    rw [← hend]
    refine ⟨⟨?_, ?_, by decide⟩, rfl⟩
    · rw [getWord_putWord_of_disjoint _ _ _ _ (by omega),
        getWord_putWord_of_disjoint _ _ _ _ (by omega), getWord_putWord_self, hc]
    · change getWord _ (h.listEnd + chunkSize - 8) = chunkSize
      rw [getWord_putWord_of_disjoint _ _ _ _ (by omega), getWord_putWord_self, hc]
  · rw [getWord_putWord_self]

/-- The heap that `new_chunk` leaves is an image with one more block, which
    is free. -/
theorem heapImage_newChunk (h : Heap) (ws : List Nat) (hi : HeapImage h ws) :
    HeapImage (newChunk h).1 (ws ++ [chunkSize]) ∧ (newChunk h).2 = h.listEnd ∧
      (newChunk h).1.brk = h.brk + chunkSize := by
  have hbase := hi.base
  have hend := tiled_end h.mem _ ws _ hi.tiled
  have hnew := newChunk_eq h (by omega) hi.terminator
  have hfree : (newChunk h).1.freeList = h.freeList := by rw [hnew]
  have hlast : (newChunk h).1.listEnd = h.listEnd + chunkSize := by rw [hnew]
  rcases tiled_newChunk h ws hbase hi.tiled hi.terminator with ⟨htiled, hword⟩
  refine ⟨⟨by rw [hfree]; exact hbase, by rw [hfree, hlast]; exact htiled,
    List.append_ne_nil_of_left_ne_nil hi.ne_nil _, ?_⟩, by rw [hnew], by rw [hnew]⟩
  have hat : hdrp (h.listEnd + chunkSize) = h.listEnd + chunkSize - 4 := rfl
  rw [hlast, hat, getAlloc_eq, hword]
  omega

end Malloc

end TlpiPractice
