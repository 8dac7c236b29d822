import TlpiPractice.Theory.Malloc.FirstFit

/-!
# Freeing and Merging

When `my_free` merges the block it is given with its free neighbours and
touches nothing else.

Both tests of `my_free` look at the block's own header, which says that it is
in use, so nothing is ever merged. The size is read where the payload begins.
A block of eight bytes has its footer there, and the size is right; in any
other block it is whatever the caller has stored. The result is what it should
be only if the caller's word happens to be the size that merging would have
given, and no merging in front is needed.

## Main definitions

* `mergedAt`: Where the merged block begins.
* `Freed`: What is asked of the heap after the call.
* `Oblivious`: The result does not depend on the payload.

## Theorems

* `myFree_mem`: What `my_free` writes for a block in use.
* `word_of_freed`, `freed_of_word`: When the heap is right.
* `oblivious_iff`: When the payload does not matter.
* `myFree_freed_iff`: Both together.
* `usedImage_not_freed`: A block that is freed with another size than its own.
-/

namespace TlpiPractice

namespace Malloc

open Words BoundaryTags

/-- Where the block that is left begins. -/
def mergedAt (h : Heap) (before : List Nat) : Nat := h.freeList + total (inFront before)

/-- The block with tag `w`, behind the blocks `before` and in front of `after`,
    has been freed: it is one with the neighbours that were free, there are as
    many bytes as before, no two free blocks are next to each other, and only
    the two words of the block that is left have changed. -/
structure Freed (h : Heap) (before : List Nat) (w : Nat) (after : List Nat) (h' : Heap) :
    Prop where
  image : HeapImage h' (coalesce before w after)
  bytes : total (coalesce before w after) = total (before ++ w :: after)
  separated : Separated (coalesce before w after)
  pointers : h'.freeList = h.freeList ∧ h'.listEnd = h.listEnd ∧ h'.brk = h.brk
  frame : ∀ i, (i + 4 < mergedAt h before ∨ mergedAt h before ≤ i) →
    (i + 8 < mergedAt h before + merged before w after ∨
      mergedAt h before + merged before w after ≤ i + 4) → h'.mem i = h.mem i

/-- Whatever bytes are stored in the payload of the block at `p`, which has
    `n` bytes less its two words, `my_free` leaves the same everywhere else. -/
def Oblivious (h : Heap) (p n : Nat) : Prop :=
  ∀ m, (∀ i, i < p ∨ p + n ≤ i + 8 → m i = h.mem i) →
    ∀ i, i < p ∨ p + n ≤ i + 8 → (myFree { h with mem := m } p).mem i = (myFree h p).mem i

/-- A block in use is never merged: `my_free` writes its header, and a footer
    where the word at the front of the payload says. -/
theorem myFree_mem (h : Heap) (p : Nat) (halloc : getAlloc h (hdrp p) ≠ 0) :
    (myFree h p).mem =
      putWord (putWord h.mem (p - 4) (getSize h p)) (p + getSize h p - 8) (getSize h p) := by
  have hmod := getSize_mod h p
  have hlt := getSize_lt h p
  -- The footer is placed by the header just stored.
  have hsize : getSize (put h (p - 4) (getSize h p)) (hdrp p) = getSize h p := by
    have hself := getSize_put_self h (p - 4) (getSize h p)
    rw [show hdrp p = p - 4 from rfl, hself]
    omega
  have hftr : ftrp (put h (p - 4) (getSize h p)) p = p + getSize h p - 8 := by
    unfold ftrp
    rw [hsize]
    rfl
  simp only [myFree, if_neg halloc, pack_free]
  change putWord (putWord h.mem (p - 4) (getSize h p)) (ftrp (put h (p - 4) (getSize h p)) p)
    (getSize h p) = _
  rw [hftr]

section Image

variable {h : Heap} {before : List Nat} {w : Nat} {after : List Nat}

/-- What is known of a block in the middle of an image. -/
theorem image_middle (hi : HeapImage h (before ++ w :: after)) :
    getWord h.mem (h.freeList + total before - 4) = w ∧
      getWord h.mem (h.freeList + total before + size w - 8) = w ∧ 0 < size w ∧ w < 2 ^ 32 := by
  rcases (tiled_append h.mem _ before (w :: after) _).mp hi.tiled with ⟨_, htail⟩
  rcases htail.1 with ⟨hhead, hfoot, hpos⟩
  refine ⟨hhead, hfoot, hpos, ?_⟩
  rw [← hhead]
  exact getWord_lt h.mem _

theorem getAlloc_middle (hi : HeapImage h (before ++ w :: after)) (hw : ¬ Free w) :
    getAlloc h (hdrp (h.freeList + total before)) ≠ 0 :=
  fun hzero => hw ((getAlloc_of_word h _ w (image_middle hi).1).mp hzero)

/-- The header of the block that is left has the size of the merged block. -/
theorem header_of_freed (h' : Heap) (hf : Freed h before w after h') :
    getWord h'.mem (mergedAt h before - 4) = merged before w after := by
  have ht := hf.image.tiled
  rw [hf.pointers.1, coalesce] at ht
  exact ((tiled_append _ _ (inFront before) _ _).mp ht).2.1.1

/-- If the heap is right then the block in front was in use, and the word at
    the front of the payload was the size of the merged block. -/
theorem word_of_freed (hi : HeapImage h (before ++ w :: after)) (hw : ¬ Free w)
    (hf : Freed h before w after (myFree h (h.freeList + total before))) :
    freeLast before = [] ∧ getSize h (h.freeList + total before) = merged before w after := by
  have hbase := hi.base
  have hmem := myFree_mem h (h.freeList + total before) (getAlloc_middle hi hw)
  have hmod := getSize_mod h (h.freeList + total before)
  have hlt := getSize_lt h (h.freeList + total before)
  have hpos := (image_middle hi).2.2.1
  have hheader := header_of_freed _ hf
  rw [hmem] at hheader
  have hsplit := inFront_append_freeLast before
  have hbytes := congrArg total hsplit
  rw [total_append] at hbytes
  unfold mergedAt at hheader
  rcases hlast : freeLast before with _ | ⟨u, us⟩
  · -- The header is the block's own, and holds the word.
    rw [hlast, total_nil] at hbytes
    refine ⟨rfl, ?_⟩
    rw [show total (inFront before) = total before by omega,
      getWord_putWord_of_disjoint _ _ _ _ (by omega), getWord_putWord_self] at hheader
    omega
  · -- The block in front is free and is left as it was.
    have hus : us = [] := by
      unfold freeLast at hlast
      cases hrev : before.reverse with
      | nil =>
          rw [hrev] at hlast
          cases hlast
      | cons v vs =>
          rw [hrev, freeHead] at hlast
          split at hlast
          · exact (List.cons.inj hlast).2.symm
          · cases hlast
    rw [hlast, hus, total_cons, total_nil] at hbytes
    have ht := hi.tiled
    rw [← hsplit, hlast, hus, List.append_assoc, List.singleton_append] at ht
    have hu := ((tiled_append h.mem _ (inFront before) _ _).mp ht).2.1
    have hsize := size_mod u
    rw [getWord_putWord_of_disjoint _ _ _ _ (by omega),
      getWord_putWord_of_disjoint _ _ _ _ (by omega), hu.1] at hheader
    -- So its tag would be the size of more than itself.
    have hself := congrArg size hheader
    rw [size_of_mod _ (merged_mod before w after), merged, hlast, hus, total_cons,
      total_nil] at hself
    omega

/-- If the block in front is in use and the word at the front of the payload is
    the size of the merged block, the heap is right. -/
theorem freed_of_word (hi : HeapImage h (before ++ w :: after))
    (hsep : Separated (before ++ w :: after)) (hw : ¬ Free w) (hlast : freeLast before = [])
    (hword : getSize h (h.freeList + total before) = merged before w after) :
    Freed h before w after (myFree h (h.freeList + total before)) := by
  have hbase := hi.base
  have hmem := myFree_mem h (h.freeList + total before) (getAlloc_middle hi hw)
  have hlt := getSize_lt h (h.freeList + total before)
  have hpos := (image_middle hi).2.2.1
  have hmod := merged_mod before w after
  have hfront : inFront before = before := by
    have hsplit := inFront_append_freeLast before
    rwa [hlast, List.append_nil] at hsplit
  have hbytes : merged before w after = total (w :: freeHead after) := by
    rw [merged, hlast, total_nil, total_cons, Nat.zero_add]
  rw [hword] at hmem hlt
  -- The merged block takes the place of the block and of what it is merged with.
  have htiled : Tiled (myFree h (h.freeList + total before)).mem h.freeList
      (before ++ ([merged before w after] ++ behind after)) h.listEnd := by
    have hold := hi.tiled
    rw [← freeHead_append_behind after, ← List.cons_append] at hold
    rw [hmem]
    have hsize := size_of_mod _ hmod
    refine tiled_exchange h.mem _ _ before (w :: freeHead after) _ (behind after) _ (by omega)
      ?_ (fun i hi => ?_) ?_ hold
    · rw [total_cons, total_nil, hsize, hbytes, Nat.add_zero]
    · rw [← hbytes] at hi
      rw [total_cons] at hbytes
      rw [putWord_of_disjoint _ _ _ _ (by omega), putWord_of_disjoint _ _ _ _ (by omega)]
    · rw [total_cons] at hbytes
      refine ⟨⟨?_, ?_, by omega⟩, ?_⟩
      · rw [getWord_putWord_of_disjoint _ _ _ _ (by omega), getWord_putWord_self]
        omega
      · rw [hsize, getWord_putWord_self]
        omega
      · change _ = _
        rw [total_cons, total_nil, Nat.add_zero]
  have himage : HeapImage (myFree h (h.freeList + total before)) (coalesce before w after) := by
    refine ⟨hbase, ?_, List.append_ne_nil_of_right_ne_nil _ (List.cons_ne_nil _ _), ?_⟩
    · rw [coalesce, hfront]
      exact htiled
    · -- The terminator lies behind the merged block.
      have hend := tiled_end _ _ _ _ htiled
      rw [total_append, total_append, total_cons, total_nil, size_of_mod _ hmod] at hend
      have hterm := hi.terminator
      rw [getAlloc_eq] at hterm ⊢
      change getWord (myFree h (h.freeList + total before)).mem (h.listEnd - 4) % 2 ≠ 0
      rw [total_cons] at hbytes
      rw [hmem, getWord_putWord_of_disjoint _ _ _ _ (by omega),
        getWord_putWord_of_disjoint _ _ _ _ (by omega)]
      exact hterm
  refine ⟨himage, total_coalesce before w after, separated_coalesce before w after hsep,
    ⟨rfl, rfl, rfl⟩, fun i hhead hfoot => ?_⟩
  rw [mergedAt, hfront] at hhead hfoot
  rw [hmem, putWord_of_disjoint _ _ _ _ (by omega), putWord_of_disjoint _ _ _ _ (by omega)]

/-- The payload does not matter exactly when there is none. -/
theorem oblivious_iff (hi : HeapImage h (before ++ w :: after)) (hw : ¬ Free w) :
    Oblivious h (h.freeList + total before) (size w) ↔ size w = 8 := by
  have hbase := hi.base
  have hpos := (image_middle hi).2.2.1
  have hmod := size_mod w
  constructor
  · intro hob
    by_contra hne
    -- Another word at the front of the payload, and so another header.
    let p := h.freeList + total before
    let x := if getSize h p = 0 then 8 else 0
    let m := putWord h.mem p x
    have hsame : ∀ i, i < p ∨ p + size w ≤ i + 8 → m i = h.mem i := fun i hi =>
      putWord_of_disjoint h.mem p x i (by omega)
    have halloc := getAlloc_middle hi hw
    have halloc' : getAlloc { h with mem := m } (hdrp p) ≠ 0 := by
      rw [getAlloc_eq] at halloc ⊢
      change getWord (putWord h.mem p x) (p - 4) % 2 ≠ 0
      rw [getWord_putWord_of_disjoint _ _ _ _ (by omega)]
      exact halloc
    have hx : getSize { h with mem := m } p = x := by
      rw [getSize_eq]
      change getWord (putWord h.mem p x) p / 8 * 8 = x
      rw [getWord_putWord_self]
      by_cases hzero : getSize h p = 0
      · rw [show x = 8 from if_pos hzero]
      · rw [show x = 0 from if_neg hzero]
    -- The header that a call writes is the size it has read.
    have hwrites : ∀ g : Heap, getAlloc g (hdrp p) ≠ 0 →
        getWord (myFree g p).mem (p - 4) = getSize g p := by
      intro g hg
      have hgmod := getSize_mod g p
      have hglt := getSize_lt g p
      rw [myFree_mem g p hg, getWord_putWord_of_disjoint _ _ _ _ (by omega),
        getWord_putWord_self]
      omega
    have hagree := getWord_congr (myFree h p).mem (myFree { h with mem := m } p).mem (p - 4)
      (fun i hlo hhi => hob m hsame i (by omega))
    rw [hwrites h halloc, hwrites _ halloc', hx] at hagree
    by_cases hzero : getSize h p = 0
    · rw [show x = 8 from if_pos hzero] at hagree
      omega
    · rw [show x = 0 from if_neg hzero] at hagree
      omega
  · intro hsize m hm i _
    -- Every byte lies outside of an empty payload.
    have heq : m = h.mem := funext (fun j => hm j (by omega))
    rw [heq]

end Image

/-- In every heap image in which no two free blocks are next to each other, and
    for every block in use: `my_free` leaves the heap right exactly when the
    block in front is in use and the word at the front of the payload has the
    size of the block together with a free one behind it; and the bytes in the
    payload make no difference exactly when there are none. -/
theorem myFree_freed_iff (h : Heap) (before : List Nat) (w : Nat) (after : List Nat)
    (hi : HeapImage h (before ++ w :: after)) (hsep : Separated (before ++ w :: after))
    (hw : ¬ Free w) :
    (Freed h before w after (myFree h (h.freeList + total before)) ↔
        freeLast before = [] ∧
          getSize h (h.freeList + total before) = size w + total (freeHead after)) ∧
      (Oblivious h (h.freeList + total before) (size w) ↔ size w = 8) := by
  refine ⟨⟨fun hf => ?_, fun hc => ?_⟩, oblivious_iff hi hw⟩
  · rcases word_of_freed hi hw hf with ⟨hlast, hword⟩
    refine ⟨hlast, ?_⟩
    rw [hword, merged, hlast, total_nil, Nat.zero_add]
  · rcases hc with ⟨hlast, hword⟩
    refine freed_of_word hi hsep hw hlast ?_
    rw [hword, merged, hlast, total_nil, Nat.zero_add]

theorem separated_usedImage : Separated [9, 17, 16] := by
  refine List.isChain_cons_cons.mpr ⟨fun h => ?_, List.isChain_cons_cons.mpr ⟨fun h => ?_,
    List.isChain_singleton _⟩⟩
  · exact absurd h.1 (by decide)
  · exact absurd h.1 (by decide)

theorem myFree_freed_iff_usedImage :
    (Freed usedImage [9] 17 [16] (myFree usedImage (usedImage.freeList + total [9])) ↔
        freeLast [9] = [] ∧
          getSize usedImage (usedImage.freeList + total [9]) = size 17 + total (freeHead [16])) ∧
      (Oblivious usedImage (usedImage.freeList + total [9]) (size 17) ↔ size 17 = 8) :=
  myFree_freed_iff usedImage [9] 17 [16] heapImage_usedImage separated_usedImage (by decide)

/-- The block in use is freed with a payload of zeros: it is not merged with
    the free block behind it, and gets the size zero. -/
theorem usedImage_not_freed :
    HeapImage usedImage ([9] ++ 17 :: [16]) ∧ Separated ([9] ++ 17 :: [16]) ∧ ¬ Free 17 ∧
      ¬ Freed usedImage [9] 17 [16] (myFree usedImage (usedImage.freeList + total [9])) := by
  refine ⟨heapImage_usedImage, separated_usedImage, by decide, fun hf => ?_⟩
  have hword := (word_of_freed heapImage_usedImage (by decide) hf).2
  have hzero : getSize usedImage (usedImage.freeList + total [9]) = 0 := by decide
  have hmerged : merged [9] 17 [16] = 32 := by decide
  omega

end Malloc

end TlpiPractice
