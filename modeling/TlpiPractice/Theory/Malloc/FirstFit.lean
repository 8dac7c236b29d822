import TlpiPractice.Theory.Malloc.Image

/-!
# First Fit

When `first_fit` returns the lowest free block that is large enough, and grows
the heap only if there is none.

`first_fit` passes over the free blocks and stops at the first allocated one
that is large enough. The block it returns is free only if it is the one that
`new_chunk` adds, so the heap has to be grown for the answer to be right, and
that must be right too: no free block was large enough, and the new one is,
though a chunk is all it has. The dummy head is never looked at.

## Main definitions

* `FreeFits`: A free block that is large enough.
* `FirstFitRight`: What is asked of an answer.
* `NothingFits`: The condition.
* `memoryOf`: A memory with some words in it.
* `grownImage`, `usedImage`: Two heaps with few blocks.

## Theorems

* `firstFit_cases`: What `first_fit` does in an image.
* `firstFit_right_iff`: The requests that are answered right.
* `usedImage_wrong`: A request that is answered with a block in use.
-/

namespace TlpiPractice

namespace Malloc

open Words BoundaryTags

/-- The block is free and large enough. -/
def FreeFits (h : Heap) (n q : Nat) : Prop :=
  getAlloc h (hdrp q) = 0 ∧ n ≤ getSize h (hdrp q)

/-- The answer to a request for `n` bytes: the lowest free block that is large
    enough, in the heap as it was; a heap that has been grown only if there is
    no such block; and in any case a free block that is large enough. -/
structure FirstFitRight (h : Heap) (n : Nat) (r : Heap × Nat) : Prop where
  lowest : ∀ q, IsBlock h q → FreeFits h n q →
    (∀ q', IsBlock h q' → FreeFits h n q' → q ≤ q') → r = (h, q)
  grown : r.1.brk ≠ h.brk → ∀ q, IsBlock h q → ¬ FreeFits h n q
  returned : IsBlock r.1 r.2 ∧ FreeFits r.1 n r.2

/-- A chunk is enough, and nothing in the heap is: all blocks behind the dummy
    head are too small, and the dummy head is not a free block that would
    do. -/
structure NothingFits (h : Heap) (n : Nat) : Prop where
  le_chunk : n ≤ chunkSize
  behind : ∀ q, IsBlock h q → q ≠ h.freeList → getSize h (hdrp q) < n
  head : ¬ FreeFits h n h.freeList

/-- Behind the dummy head the walk goes on with the next block. -/
theorem visits_behind (h : Heap) (q : Nat) (hv : Visits h h.freeList q) (hq : q ≠ h.freeList) :
    Visits h (nextBlkp h h.freeList) q := by
  cases hv with
  | here => exact absurd rfl hq
  | next _ _ _ hv => exact hv

/-- The dummy head is a block, and the next one lies behind it. -/
theorem heapImage_head (h : Heap) (ws : List Nat) (hi : HeapImage h ws) :
    h.freeList ≠ h.listEnd ∧ h.freeList < nextBlkp h h.freeList := by
  rcases List.exists_cons_of_ne_nil hi.ne_nil with ⟨w, us, rfl⟩
  have ht := hi.tiled
  have hnext := (macros_placed h h.freeList (w :: us) _ ht _ List.mem_cons_self).2.2
  have hpos := ht.1.2.2
  have hend := tiled_end h.mem _ us _ ht.2
  simp only at hnext
  omega

/-- In an image `first_fit` comes to an end: either at a block behind the dummy
    head that is allocated and large enough, or with a new chunk, and then
    there is no such block. -/
theorem firstFit_cases (h : Heap) (ws : List Nat) (hi : HeapImage h ws) (n rounds : Nat)
    (hr : ws.length < rounds) :
    ∃ r, firstFit rounds h n = some r ∧
      ((r.1 = h ∧ IsBlock h r.2 ∧ r.2 ≠ h.freeList ∧ Fits h n r.2) ∨
        (r = newChunk h ∧ ∀ q, IsBlock h q → q ≠ h.freeList → ¬ Fits h n q)) := by
  rcases heapImage_head h ws hi with ⟨hne, hlt⟩
  rcases List.exists_cons_of_ne_nil hi.ne_nil with ⟨w, us, rfl⟩
  have hnext := (macros_placed h h.freeList (w :: us) _ hi.tiled _ List.mem_cons_self).2.2
  have htail := hi.tiled.2
  simp only at hnext
  rw [← hnext] at htail
  rcases firstFitFrom_some h n _ us htail rounds (by simp only [List.length_cons] at hr; omega)
    with ⟨r, hsome⟩
  refine ⟨r, hsome, ?_⟩
  rcases firstFitFrom_scan h n rounds _ r hsome with ⟨hheap, hscan, hfit, hend⟩ | ⟨hscan, hnew⟩
  · have hv := visits_of_scan h n _ _ hscan
    have hle := visits_le h _ _ hv
    exact .inl ⟨hheap, ⟨Visits.next _ _ hne hv, hend⟩, by omega, hfit⟩
  · refine .inr ⟨hnew, fun q hq hqf => ?_⟩
    exact not_fits_of_scan h n _ hscan q (visits_behind h q hq.1 hqf) hq.2

/-- The block that `new_chunk` returns: it is free and has a chunk. -/
theorem newChunk_block (h : Heap) (ws : List Nat) (hi : HeapImage h ws) :
    IsBlock (newChunk h).1 (newChunk h).2 ∧
      getAlloc (newChunk h).1 (hdrp (newChunk h).2) = 0 ∧
      getSize (newChunk h).1 (hdrp (newChunk h).2) = chunkSize := by
  rcases heapImage_newChunk h ws hi with ⟨himg, hret, _⟩
  have hend := tiled_end h.mem _ ws _ hi.tiled
  have hfree : (newChunk h).1.freeList = h.freeList := by
    rw [newChunk_eq h (by have := hi.base; omega) hi.terminator]
  -- It is the last one of the new image.
  have hmem : ((newChunk h).2, chunkSize) ∈ placed (newChunk h).1.freeList (ws ++ [chunkSize]) := by
    rw [placed_append, hret, hfree, ← hend]
    exact List.mem_append_right _ List.mem_cons_self
  have hmod : chunkSize % 8 = 0 := by decide
  rcases macros_placed _ _ _ _ himg.tiled _ hmem with ⟨hsize, halloc, _⟩
  exact ⟨(isBlock_iff_placed _ _ himg _).mpr ⟨chunkSize, hmem⟩,
    halloc.mpr (free_of_mod chunkSize hmod), hsize.trans (size_of_mod chunkSize hmod)⟩

/-- In every heap image `first_fit` returns, for a request of any size, and its
    answer is right exactly when nothing in the heap would do and a chunk
    does. -/
theorem firstFit_right_iff (h : Heap) (ws : List Nat) (hi : HeapImage h ws) (n : Nat) :
    ∃ bound, ∀ rounds, bound ≤ rounds → ∃ r, firstFit rounds h n = some r ∧
      (FirstFitRight h n r ↔ NothingFits h n) := by
  refine ⟨ws.length + 1, fun rounds hr => ?_⟩
  rcases firstFit_cases h ws hi n rounds hr with ⟨r, hsome, hcase⟩
  refine ⟨r, hsome, ?_⟩
  rcases hcase with ⟨hheap, hblock, hne, hfit⟩ | ⟨hnew, hnone⟩
  · -- The block found is in use.
    constructor
    · intro hright
      have hfree := hright.returned.2.1
      rw [hheap] at hfree
      exact absurd hfree hfit.1
    · intro hcond
      have hsmall := hcond.behind r.2 hblock hne
      have hlarge := hfit.2
      omega
  · rcases newChunk_block h ws hi with ⟨hblock, hfree, hsize⟩
    have hbrk := (heapImage_newChunk h ws hi).2.2
    have hc : chunkSize = 4096 := rfl
    rw [hnew]
    constructor
    · intro hright
      have hgrown := hright.grown (by omega)
      have hlarge := hright.returned.2.2
      refine ⟨by omega, fun q hq hqf => ?_, hgrown _ ⟨Visits.here _, (heapImage_head h ws hi).1⟩⟩
      -- A block that is large enough is either free or in use.
      by_contra hle
      by_cases halloc : getAlloc h (hdrp q) = 0
      · exact hgrown q hq ⟨halloc, Nat.le_of_not_lt hle⟩
      · exact hnone q hq hqf ⟨halloc, Nat.le_of_not_lt hle⟩
    · intro hcond
      have hno : ∀ q, IsBlock h q → ¬ FreeFits h n q := by
        intro q hq hfits
        by_cases hqf : q = h.freeList
        · exact hcond.head (hqf ▸ hfits)
        · have hsmall := hcond.behind q hq hqf
          have hlarge := hfits.2
          omega
      have hle := hcond.le_chunk
      exact ⟨fun q hq hfits _ => absurd hfits (hno q hq), fun _ => hno, hblock, hfree, by omega⟩

/-- A memory of zeros with some words stored in it. -/
def memoryOf (words : List (Nat × Nat)) : Memory :=
  words.foldl (fun m w => putWord m w.1 w.2) (fun _ => 0)

/-- The dummy head, and a block of eight bytes in use. -/
def grownImage : Heap where
  mem := memoryOf [(4, 9), (8, 9), (12, 9), (16, 9), (20, 1)]
  brk := 24
  freeList := 8
  listEnd := 24

theorem heapImage_grownImage : HeapImage grownImage [9, 9] :=
  ⟨Nat.le_refl 8, ⟨⟨rfl, rfl, by decide⟩, ⟨rfl, rfl, by decide⟩, rfl⟩, nofun, by decide⟩

theorem firstFit_right_iff_grownImage :
    ∃ bound, ∀ rounds, bound ≤ rounds → ∃ r, firstFit rounds grownImage 16 = some r ∧
      (FirstFitRight grownImage 16 r ↔ NothingFits grownImage 16) :=
  firstFit_right_iff grownImage [9, 9] heapImage_grownImage 16

/-- The dummy head, a block in use and a free one, both of sixteen bytes. -/
def usedImage : Heap where
  mem := memoryOf [(4, 9), (8, 9), (12, 17), (24, 17), (28, 16), (40, 16), (44, 1)]
  brk := 48
  freeList := 8
  listEnd := 48

theorem heapImage_usedImage : HeapImage usedImage [9, 17, 16] :=
  ⟨Nat.le_refl 8, ⟨⟨rfl, rfl, by decide⟩, ⟨rfl, rfl, by decide⟩, ⟨rfl, rfl, by decide⟩, rfl⟩,
    nofun, by decide⟩

/-- The block in use is returned, and the free one behind it is not looked
    at. -/
theorem usedImage_wrong :
    HeapImage usedImage [9, 17, 16] ∧ firstFit 4 usedImage 16 = some (usedImage, 16) ∧
      ¬ FirstFitRight usedImage 16 (usedImage, 16) := by
  refine ⟨heapImage_usedImage, rfl, fun h => ?_⟩
  have hfree : (1 : Nat) = 0 := h.returned.2.1
  omega

end Malloc

end TlpiPractice
