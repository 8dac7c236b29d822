import TlpiPractice.Theory.Malloc.FirstFit
import TlpiPractice.Theory.Malloc.Overlap

/-!
# What a Request Does to the Tiling

A request in a heap that is tiled from `free_list` to `list_end`, with any
number of blocks or none.

`first_fit` either comes to a block, and the heap is what it was, or grows the
heap by one block at its end. The block it returns is then split, or not. Both
the header and the footer that `new_chunk` and the split write are found
through words that have just been written, and none of the stores meets a word
of another block. So the tags of the other blocks are kept, and the tiling with
one tag more, or with one tag exchanged for two, is that of the heap afterwards.

## Main definitions

* `TiledImage`: A heap that is tiled, with the terminator behind its blocks.
* `SplitAt`: The tags after a request.
* `Kept`: The words of all blocks but one are what they were.

## Theorems

* `tiledImage_newChunk`: One block more.
* `firstFit_tiled`: The block that `first_fit` returns.
* `tiled_split`, `tiledImage_split`: A block is split in two.
* `myMalloc_tiled`: A request comes to its end and leaves a tiled heap.
* `myMalloc_tiled_usedImage`: A heap with three blocks.
-/

namespace TlpiPractice

namespace Malloc

open Words BoundaryTags

/-- From `free_list` to `list_end` there are blocks with these tags, and behind
    them the terminator. -/
structure TiledImage (h : Heap) (ws : List Nat) : Prop where
  base : 8 ≤ h.freeList
  tiled : Tiled h.mem h.freeList ws h.listEnd
  terminator : getWord h.mem (hdrp h.listEnd) = pack 0 1

/-- One of the blocks is at `p`, and it may have been split into two that are
    together as large. -/
def SplitAt (base p : Nat) (ws ws' : List Nat) : Prop :=
  ∃ xs w zs, ws = xs ++ w :: zs ∧ p = base + total xs ∧
    (ws' = ws ∨ ∃ a b, ws' = xs ++ a :: b :: zs ∧ size a + size b = size w)

/-- The blocks other than the one at `p` have the same words in their headers
    and in their footers. -/
def Kept (h h' : Heap) (ws : List Nat) (p : Nat) : Prop :=
  ∀ b ∈ placed h.freeList ws, b.1 ≠ p →
    getWord h'.mem (b.1 - 4) = getWord h.mem (b.1 - 4) ∧
      getWord h'.mem (b.1 + size b.2 - 8) = getWord h.mem (b.1 + size b.2 - 8)

theorem terminator_alloc (h : Heap) (ws : List Nat) (hi : TiledImage h ws) :
    getAlloc h (hdrp h.listEnd) ≠ 0 := by
  have hone : pack 0 1 = 1 := rfl
  rw [getAlloc_eq, hi.terminator, hone]
  omega

theorem heapImage_of_tiledImage (h : Heap) (ws : List Nat) (hi : TiledImage h ws) (hne : ws ≠ []) :
    HeapImage h ws := ⟨hi.base, hi.tiled, hne, terminator_alloc h ws hi⟩

/-! ### Growing -/

/-- What `new_chunk` leaves has one block more, behind the others. -/
theorem tiledImage_newChunk (h : Heap) (ws : List Nat) (hi : TiledImage h ws) :
    TiledImage (newChunk h).1 (ws ++ [chunkSize]) ∧ (newChunk h).2 = h.freeList + total ws ∧
      (newChunk h).1.freeList = h.freeList ∧ (newChunk h).1.listEnd = h.listEnd + chunkSize := by
  have hbase := hi.base
  have hend := tiled_end h.mem _ ws _ hi.tiled
  have halloc := terminator_alloc h ws hi
  have hnew := newChunk_eq h (by omega) halloc
  have hfree : (newChunk h).1.freeList = h.freeList := by rw [hnew]
  have hlast : (newChunk h).1.listEnd = h.listEnd + chunkSize := by rw [hnew]
  rcases tiled_newChunk h ws hbase hi.tiled halloc with ⟨htiled, hword⟩
  refine ⟨⟨by rw [hfree]; exact hbase, by rw [hfree, hlast]; exact htiled, ?_⟩,
    by rw [hnew, ← hend], hfree, hlast⟩
  rw [hlast]
  exact hword

/-- In a tiled heap `first_fit` comes to an end, at one of the blocks or with
    a new one. -/
theorem firstFit_tiled (h : Heap) (ws : List Nat) (hi : TiledImage h ws) (n rounds : Nat)
    (hr : ws.length < rounds) :
    ∃ r, firstFit rounds h n = some r ∧
      ((r.1 = h ∧ ∃ xs w zs, ws = xs ++ w :: zs ∧ r.2 = h.freeList + total xs) ∨
        r = newChunk h) := by
  by_cases hne : ws = []
  · -- Without any block the walk is at `list_end` at once.
    have hend : h.freeList = h.listEnd := by
      have := hi.tiled
      rwa [hne] at this
    have hsize : getSize h (h.freeList - wsize) = 0 := by
      have hword : getWord h.mem (h.freeList - wsize) = 1 := by
        rw [hend]
        exact hi.terminator
      rw [getSize_eq, hword]
    have hnext : nextBlkp h h.freeList = h.listEnd := by
      unfold nextBlkp
      rw [hsize, Nat.add_zero, hend]
    obtain ⟨k, rfl⟩ : ∃ k, rounds = k + 1 := ⟨rounds - 1, by omega⟩
    exact ⟨newChunk h, by rw [firstFit, firstFitFrom, if_pos hnext], Or.inr rfl⟩
  · have himg := heapImage_of_tiledImage h ws hi hne
    rcases firstFit_cases h ws himg n rounds hr with ⟨r, hsome, ⟨hheap, hblock, _, _⟩ | ⟨hnew, _⟩⟩
    · rcases (isBlock_iff_placed h ws himg r.2).mp hblock with ⟨w, hw⟩
      rcases placed_split _ _ _ _ hw with ⟨xs, zs, hws, hp⟩
      exact ⟨r, hsome, Or.inl ⟨hheap, xs, w, zs, hws, hp⟩⟩
    · exact ⟨r, hsome, Or.inr hnew⟩

/-! ### Splitting -/

/-- The sizes of the front and of the rest. -/
theorem size_split (w n : Nat) (hmod : n % 8 = 0) :
    size (n + 1) = n ∧ size (size w - n) = size w - n := by
  have hw8 := size_mod w
  refine ⟨?_, size_of_mod _ (by omega)⟩
  unfold size
  omega

/-- The front of a block and the rest of it are two blocks. -/
theorem tiled_split (h : Heap) (p w n : Nat) (hp : 8 ≤ p) (hsize : getSize h (hdrp p) = size w)
    (hmod : n % 8 = 0) (hpos : 8 ≤ n) (hbig : n < size w) :
    Tiled (split h p n).mem p [n + 1, size w - n] (p + size w) := by
  rcases size_split w n hmod with ⟨hfront, hrest⟩
  have hw8 := size_mod w
  have hlt := getSize_lt h (hdrp p)
  have hwords := split_words h p n hp hmod hpos (hsize ▸ hbig)
  rw [hsize] at hwords hlt
  rcases hwords with ⟨hhead, hfoot, hhead', hfoot'⟩
  have hend : p + n + (size w - n) = p + size w := by omega
  simp only [Tiled, hfront, hrest, hend]
  exact ⟨⟨hhead, hfoot, by omega⟩, ⟨hhead', hfoot', by omega⟩, trivial⟩

/-- A block of the heap is split in two. -/
theorem tiledImage_split (h : Heap) (xs : List Nat) (w : Nat) (zs : List Nat) (n : Nat)
    (hi : TiledImage h (xs ++ w :: zs)) (hmod : n % 8 = 0) (hpos : 8 ≤ n) (hbig : n < size w) :
    TiledImage (split h (h.freeList + total xs) n) (xs ++ (n + 1) :: (size w - n) :: zs) := by
  have hbase := hi.base
  rcases size_split w n hmod with ⟨hfront, hrest⟩
  have hend := tiled_end h.mem _ _ _ hi.tiled
  rw [total_append, total_cons] at hend
  rcases (tiled_append h.mem _ xs (w :: zs) _).mp hi.tiled with ⟨_, ⟨hhead, _, _⟩, _⟩
  have hsize : getSize h (hdrp (h.freeList + total xs)) = size w := getSize_of_word h _ w hhead
  have htotal : total [n + 1, size w - n] = total [w] := by
    rw [total_cons, total_cons, total_nil, total_cons, total_nil, hfront, hrest]
    omega
  -- The stores are all between the header of the front and the last footer.
  generalize hp : h.freeList + total xs = p at hsize hend ⊢
  have hout := split_outside h p n (by omega) hmod hpos (hsize ▸ hbig)
  rw [hsize] at hout
  refine ⟨?_, ?_, ?_⟩
  · rw [split_freeList]
    exact hbase
  · rw [split_freeList, split_listEnd]
    have hnew := tiled_split h p w n (by omega) hsize hmod hpos hbig
    refine tiled_exchange h.mem _ h.freeList xs [w] [n + 1, size w - n] zs h.listEnd (by omega)
      htotal (fun i hi' => hout i ?_) ?_ hi.tiled
    · rw [total_cons, total_nil] at hi'
      omega
    · rw [hp, htotal, total_cons, total_nil, Nat.add_zero]
      exact hnew
  · -- The terminator is behind the footer of the rest.
    have hterm : getWord h.mem (h.listEnd - 4) = pack 0 1 := hi.terminator
    rw [split_listEnd, ← hterm]
    exact getWord_congr h.mem _ (h.listEnd - 4) (fun i hi' _ => hout i (by omega))

/-- Whether or not the block is large enough to be split. -/
theorem tiledImage_after (h : Heap) (xs : List Nat) (w : Nat) (zs : List Nat) (n : Nat)
    (hi : TiledImage h (xs ++ w :: zs)) (hmod : n % 8 = 0) (hpos : 8 ≤ n) :
    ∃ ws', TiledImage (split h (h.freeList + total xs) n) ws' ∧
      SplitAt h.freeList (h.freeList + total xs) (xs ++ w :: zs) ws' := by
  by_cases hbig : n < size w
  · rcases size_split w n hmod with ⟨hfront, hrest⟩
    refine ⟨_, tiledImage_split h xs w zs n hi hmod hpos hbig, xs, w, zs, rfl, rfl,
      Or.inr ⟨n + 1, size w - n, rfl, ?_⟩⟩
    omega
  · rcases (tiled_append h.mem _ xs (w :: zs) _).mp hi.tiled with ⟨_, ⟨hhead, _, _⟩, _⟩
    have hsize : getSize h (hdrp (h.freeList + total xs)) = size w := getSize_of_word h _ w hhead
    rw [split_of_le h _ n (by omega)]
    exact ⟨_, hi, xs, w, zs, rfl, rfl, Or.inl rfl⟩

/-! ### A request -/

/-- The size that is looked for. -/
theorem realSize_aligned (n : Nat) (hn : 1 ≤ n) : realSize n % 8 = 0 ∧ 8 ≤ realSize n := by
  by_cases hsmall : n ≤ dsize
  · rw [realSize_small n (by omega) hsmall]
    omega
  · rw [realSize_large n hsmall]
    omega

/-- The other blocks are where they were, with their tags. -/
theorem placed_of_splitAt (base p : Nat) (ws ws' : List Nat) (h : SplitAt base p ws ws')
    (b : Nat × Nat) (hb : b ∈ placed base ws) (hne : b.1 ≠ p) : b ∈ placed base ws' := by
  rcases h with ⟨xs, w, zs, rfl, rfl, rfl | ⟨c, d, rfl, hsum⟩⟩
  · exact hb
  · rw [placed_append] at hb ⊢
    rcases List.mem_append.mp hb with hb | hb
    · exact List.mem_append_left _ hb
    · rcases List.mem_cons.mp hb with rfl | hb
      · exact absurd rfl hne
      · refine List.mem_append_right _ (List.mem_cons_of_mem _ (List.mem_cons_of_mem _ ?_))
        rwa [Nat.add_assoc, hsum]

/-- Blocks that are in both images have their words in both. -/
theorem kept_of_placed (h h' : Heap) (ws ws' : List Nat) (p : Nat) (hi : TiledImage h ws)
    (hi' : TiledImage h' ws')
    (hsub : ∀ b ∈ placed h.freeList ws, b.1 ≠ p → b ∈ placed h'.freeList ws') :
    Kept h h' ws p := by
  intro b hb hne
  rcases tiled_placed h.mem _ ws _ hi.tiled b hb with ⟨hhead, hfoot, _⟩
  rcases tiled_placed h'.mem _ ws' _ hi'.tiled b (hsub b hb hne) with ⟨hhead', hfoot', _⟩
  exact ⟨hhead'.trans hhead.symm, hfoot'.trans hfoot.symm⟩

/-- In a tiled heap a request for at least one byte comes to its end, and leaves
    a tiled heap. It has at most one new block at its end, of the size of a
    chunk, and then at most one of its blocks split into two. What is returned
    is this block, or the first of the two. The words of all other blocks are
    what they were. -/
theorem myMalloc_tiled (h : Heap) (ws : List Nat) (hi : TiledImage h ws) (n : Nat) (hn : 1 ≤ n) :
    ∃ bound, ∀ rounds, bound ≤ rounds → ∃ h' p, myMalloc rounds h n = some (h', p) ∧
      ∃ grown ws', ((grown = ws ∧ h'.brk = h.brk) ∨
          (grown = ws ++ [chunkSize] ∧ h'.brk = h.brk + chunkSize)) ∧
        SplitAt h.freeList p grown ws' ∧ TiledImage h' ws' ∧ h'.freeList = h.freeList ∧
        Kept h h' ws p := by
  refine ⟨ws.length + 1, fun rounds hr => ?_⟩
  have hbase := hi.base
  have hreal := realSize_aligned n hn
  rcases firstFit_tiled h ws hi (realSize n) rounds hr with ⟨r, hsome, hcase⟩
  have hm : myMalloc rounds h n = some (split r.1 r.2 (realSize n), r.2) := by
    simp only [myMalloc, if_neg (show h.freeList ≠ 0 by omega), if_neg (show n ≠ 0 by omega),
      hsome]
  refine ⟨_, _, hm, ?_⟩
  rcases hcase with ⟨hheap, xs, w, zs, rfl, hp⟩ | hnew
  · -- The block has been there.
    rw [hheap, hp]
    rcases tiledImage_after h xs w zs (realSize n) hi hreal.1 hreal.2 with ⟨ws', hi', hsplit⟩
    refine ⟨_, ws', Or.inl ⟨rfl, split_brk _ _ _⟩, hsplit, hi', split_freeList _ _ _, ?_⟩
    refine kept_of_placed h _ _ ws' _ hi hi' (fun b hb hne => ?_)
    rw [split_freeList]
    exact placed_of_splitAt _ _ _ _ hsplit b hb hne
  · -- It is a new one, behind all the others.
    rcases tiledImage_newChunk h ws hi with ⟨hi₁, hp, hfree, _⟩
    have hbrk : (newChunk h).1.brk = h.brk + chunkSize := by
      have hend := tiled_end h.mem _ ws _ hi.tiled
      rw [newChunk_eq h (by omega) (terminator_alloc h ws hi)]
    rcases tiledImage_after _ ws chunkSize [] (realSize n) hi₁ hreal.1 hreal.2 with
      ⟨ws', hi', hsplit⟩
    rw [hnew, hp]
    rw [hfree] at hi' hsplit
    refine ⟨_, ws', Or.inr ⟨rfl, (split_brk _ _ _).trans hbrk⟩, hsplit, hi',
      (split_freeList _ _ _).trans hfree, ?_⟩
    refine kept_of_placed h _ _ ws' _ hi hi' (fun b hb hne => ?_)
    rw [split_freeList, hfree]
    refine placed_of_splitAt _ _ _ _ hsplit b ?_ hne
    rw [placed_append]
    exact List.mem_append_left _ hb

theorem tiledImage_usedImage : TiledImage usedImage [9, 17, 16] :=
  ⟨Nat.le_refl 8, heapImage_usedImage.tiled, rfl⟩

theorem myMalloc_tiled_usedImage :
    ∃ bound, ∀ rounds, bound ≤ rounds → ∃ h' p, myMalloc rounds usedImage 9 = some (h', p) ∧
      ∃ grown ws', ((grown = [9, 17, 16] ∧ h'.brk = usedImage.brk) ∨
          (grown = [9, 17, 16] ++ [chunkSize] ∧ h'.brk = usedImage.brk + chunkSize)) ∧
        SplitAt usedImage.freeList p grown ws' ∧ TiledImage h' ws' ∧
        h'.freeList = usedImage.freeList ∧ Kept usedImage h' [9, 17, 16] p :=
  myMalloc_tiled usedImage [9, 17, 16] tiledImage_usedImage 9 (by decide)

end Malloc

end TlpiPractice
