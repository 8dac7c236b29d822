import TlpiPractice.Theory.Malloc.Overlap

/-!
# What a Request Gets

When `my_malloc` returns a block that is large enough, marked as allocated in
both of its words, aligned and inside the region.

The pointer is always aligned, since the walk keeps to the residue class of
the first block. A request of more than eight bytes gets a block of eight. One
of up to eight bytes gets the first allocated block of at least sixteen, if
the walk comes to one. When that is larger it is split, and both words of the
front are written. When it has just sixteen bytes it is returned as it is, and
its footer is whatever is there. Nothing keeps the walk below the break either,
once a caller's bytes have been taken for a size.

The last section says that in the ordinary runs, of small requests and stores
into what they return, none of that comes up.

## Main definitions

* `AllocRight`, `MallocRight`: What is asked of a request.
* `Served`: The condition.
* `Reached`: What every state is known to be like.
* `SmallCall`, `OneBlock`: Ordinary calls, and the states they lead to.

## Theorems

* `mmInit_mem`: The words that `mm_init` writes.
* `firstFitFrom_of_scan`: `first_fit` comes to the first block that fits.
* `mallocRight_iff_served`: The requests that are answered right.
* `mmInit_large`: A first request for nine bytes.
* `served_of_small`: After small requests every small request is.
-/

namespace TlpiPractice

namespace Malloc

open Words Runs

/-- The request is for at most eight bytes, and either nothing has been called
    yet, or the walk comes to an allocated block of at least sixteen bytes, of
    which the first sixteen lie below the break, and whose footer says that it
    is allocated if it has no more. -/
def Served (h : Heap) (n : Nat) : Prop :=
  n ≤ dsize ∧ (h.freeList = 0 ∨ ∃ q, Found h 16 q ∧
    (getSize h (hdrp q) = 16 → getAlloc h (ftrp h q) ≠ 0) ∧ q + 12 ≤ h.brk)

/-- The words of the dummy head, of the first block and of the terminator. -/
theorem mmInit_mem (h : Heap) : (mmInit h).mem =
    putWord (putWord (putWord (putWord (putWord h.mem (h.brk + 4) 9) (h.brk + 8) 9)
      (h.brk + 12) 4081) (h.brk + 4088) 4081) (h.brk + 4096) 1 := by
  -- The heap after the dummy head, and after the header of the first block.
  let h2 : Heap := ⟨putWord (putWord h.mem (h.brk + 4) 9) (h.brk + 8) 9, h.brk + 4096,
    h.brk + 8, h.brk + 4100⟩
  let h3 : Heap := { h2 with mem := putWord h2.mem (h.brk + 12) 4081 }
  have hsize2 : getSize h2 (h.brk + 4) = 8 := by
    rw [getSize_eq]
    change getWord (putWord _ _ _) _ / 8 * 8 = 8
    rw [getWord_putWord_of_disjoint _ _ _ _ (by omega), getWord_putWord_self]
  have hnext2 : nextBlkp h2 h2.freeList = h.brk + 16 := by
    change h.brk + 8 + getSize h2 (h.brk + 4) = _
    rw [hsize2]
  have hnext3 : nextBlkp h3 h3.freeList = h.brk + 16 := by
    change h.brk + 8 + getSize h3 (h.brk + 4) = _
    have hsame : getSize h3 (h.brk + 4) = getSize h2 (h.brk + 4) := by
      rw [getSize_eq, getSize_eq]
      change getWord (putWord h2.mem _ _) _ / 8 * 8 = _
      rw [getWord_putWord_of_disjoint _ _ _ _ (by omega)]
    rw [hsame, hsize2]
  have hftr3 : ftrp h3 (h.brk + 16) = h.brk + 4088 := by
    have hsize3 : getSize h3 (hdrp (h.brk + 16)) = 4080 := by
      rw [getSize_eq]
      change getWord (putWord h2.mem (h.brk + 12) _) (h.brk + 12) / 8 * 8 = 4080
      rw [getWord_putWord_self]
    unfold ftrp
    rw [hsize3]
    rfl
  have hheader : put h2 (hdrp (nextBlkp h2 h2.freeList)) (pack (chunkSize - 16) 1) = h3 := by
    rw [hnext2]
    rfl
  have hmem : mmInit h =
      put (put (put h2 (hdrp (nextBlkp h2 h2.freeList)) (pack (chunkSize - 16) 1))
      (ftrp (put h2 (hdrp (nextBlkp h2 h2.freeList)) (pack (chunkSize - 16) 1))
        (nextBlkp (put h2 (hdrp (nextBlkp h2 h2.freeList)) (pack (chunkSize - 16) 1)) h2.freeList))
      (pack (chunkSize - 16) 1)) (h.brk + 4096) (pack 0 1) := rfl
  have hnext : nextBlkp h3 h2.freeList = h.brk + 16 := hnext3
  rw [hmem, hheader, hnext, hftr3]
  rfl

/-- The first block is the first to fit sixteen bytes, and is larger. -/
theorem found_mmInit (h : Heap) :
    Found (mmInit h) 16 (h.brk + 16) ∧ getSize (mmInit h) (hdrp (h.brk + 16)) = 4080 := by
  have hmem := mmInit_mem h
  have hhead : getSize (mmInit h) (h.brk + 4) = 8 := by
    rw [getSize_eq, hmem, getWord_putWord_of_disjoint _ _ _ _ (by omega),
      getWord_putWord_of_disjoint _ _ _ _ (by omega),
      getWord_putWord_of_disjoint _ _ _ _ (by omega),
      getWord_putWord_of_disjoint _ _ _ _ (by omega), getWord_putWord_self]
  have hword : getWord (mmInit h).mem (h.brk + 12) = 4081 := by
    rw [hmem, getWord_putWord_of_disjoint _ _ _ _ (by omega),
      getWord_putWord_of_disjoint _ _ _ _ (by omega), getWord_putWord_self]
  have hsize : getSize (mmInit h) (hdrp (h.brk + 16)) = 4080 := by
    rw [getSize_eq]
    change getWord (mmInit h).mem (h.brk + 12) / 8 * 8 = 4080
    rw [hword]
  have hnext : nextBlkp (mmInit h) (mmInit h).freeList = h.brk + 16 := by
    change h.brk + 8 + getSize (mmInit h) (h.brk + 4) = _
    rw [hhead]
  refine ⟨⟨?_, ?_, ?_⟩, hsize⟩
  · rw [hnext]
    exact Scan.here _
  · rw [getAlloc_eq]
    change getWord (mmInit h).mem (h.brk + 12) % 2 ≠ 0
    rw [hword]
    omega
  · omega

/-! ### Every state -/

/-- Requests for at most eight bytes, and stores. -/
def SmallCall (_ : Arena) : Call → Prop
  | .malloc size => size ≤ dsize
  | .free _ => False
  | .store _ _ => True

/-- The first block is the first to fit sixteen bytes, its footer says that it
    is allocated once it has no more, and it is the only one that is held. -/
structure OneBlock (base : Nat) (a : Arena) : Prop where
  layout : Layout a.heap
  freeList : a.heap.freeList = base + 8
  found : Found a.heap 16 (base + 16)
  footer : getSize a.heap (hdrp (base + 16)) = 16 → getAlloc a.heap (base + 24) ≠ 0
  held : ∀ blk ∈ a.live, blk.1 = base + 16 ∧ blk.2 ≤ dsize

theorem oneBlock_mmInit (h : Heap) : OneBlock h.brk ⟨mmInit h, []⟩ := by
  rcases found_mmInit h with ⟨hfound, hsize⟩
  exact ⟨layout_mmInit h, rfl, hfound, fun h16 => by simp only at h16; omega,
    fun blk hblk => absurd hblk List.not_mem_nil⟩

/-- A small request gets that block, whether it is split now or has been
    before. -/
theorem oneBlock_malloc (base : Nat) (a : Arena) (h : OneBlock base a) (n : Nat)
    (hn : n ≤ dsize) :
    OneBlock base ⟨split a.heap (base + 16) 16, (base + 16, n) :: a.live⟩ := by
  rcases found_split a.heap h.layout 16 (base + 16) (by omega) (by omega) h.found
    with ⟨hfound, _⟩
  refine ⟨layout_congr _ _ h.layout (split_freeList _ _ _) (split_listEnd _ _ _)
    (split_brk _ _ _), (split_freeList _ _ _).trans h.freeList, hfound, fun _ => ?_,
    fun blk hblk => ?_⟩
  · by_cases hbig : 16 < getSize a.heap (hdrp (base + 16))
    · exact split_footer a.heap (base + 16) 16 (by omega) (by omega) (by omega) hbig
    · have hle := h.found.2.2
      change getAlloc (split a.heap (base + 16) 16) (base + 24) ≠ 0
      rw [split_of_le a.heap (base + 16) 16 (by omega)]
      exact h.footer (by omega)
  · rcases List.mem_cons.mp hblk with rfl | hblk
    · exact ⟨rfl, hn⟩
    · exact h.held blk hblk

/-- A store into the block touches neither of its words, and no header in
    front of it. -/
theorem oneBlock_store (base : Nat) (a : Arena) (h : OneBlock base a) (addr : Nat)
    (byte : UInt8) (hlo : base + 16 ≤ addr) (hhi : addr < base + 24) :
    OneBlock base ⟨{ a.heap with mem := putByte a.heap.mem addr byte }, a.live⟩ := by
  have hhead : getWord (putByte a.heap.mem addr byte) (hdrp (base + 16)) =
      getWord a.heap.mem (hdrp (base + 16)) := by
    refine getWord_putByte_of_disjoint _ _ _ _ ?_
    unfold hdrp wsize
    omega
  have hframe : ∀ i, i + 4 < base + 16 → putByte a.heap.mem addr byte i = a.heap.mem i := by
    intro i hi
    change (if i = addr then byte else a.heap.mem i) = a.heap.mem i
    rw [if_neg (by omega)]
  have hfits := (fits_congr a.heap { a.heap with mem := putByte a.heap.mem addr byte } 16
    (base + 16) hhead).mpr h.found.2
  have hlayout := layout_congr a.heap { a.heap with mem := putByte a.heap.mem addr byte }
    h.layout rfl rfl rfl
  refine ⟨hlayout, h.freeList, ?_, fun h16 => ?_, h.held⟩
  · exact found_frame a.heap _ 16 (base + 16) (by omega) h.layout.base h.found rfl rfl hframe hfits
  · rw [getSize_eq] at h16
    change getWord (putByte a.heap.mem addr byte) (hdrp (base + 16)) / 8 * 8 = 16 at h16
    rw [hhead, ← getSize_eq] at h16
    have hfooter := h.footer h16
    rw [getAlloc_eq] at hfooter ⊢
    change getWord (putByte a.heap.mem addr byte) (base + 24) % 2 ≠ 0
    rwa [getWord_putByte_of_disjoint _ _ _ _ (by omega)]

/-- Nothing has been called yet, or there is one block. -/
def Ordinary (base : Nat) (a : Arena) : Prop :=
  (a.heap.freeList = 0 ∧ a.heap.brk = base ∧ a.live = []) ∨ OneBlock base a

theorem ordinary_step (base : Nat) (a : Arena) (c : Call) (a' : Arena) (ha : Ordinary base a)
    (hsmall : SmallCall a c) (hs : Step a c a') : Ordinary base a' := by
  cases c with
  | malloc n =>
      -- What the request works on has one block, also if it is the first.
      have hone : OneBlock base ⟨initialised a.heap, a.live⟩ := by
        rcases ha with ⟨hfree, hbrk, hlive⟩ | hone
        · unfold initialised
          rw [if_pos hfree, hlive, ← hbrk]
          exact oneBlock_mmInit a.heap
        · rw [initialised_of_layout a.heap hone.layout]
          exact hone
      rcases hs with ⟨rounds, h, p, hm, rfl⟩
      rcases myMalloc_cases a.heap h hone.layout rounds n p hm with
        ⟨_, hp, heq⟩ | ⟨hn, hscan, hfit, heq⟩
      · rw [if_pos hp, heq]
        exact .inr hone
      · rw [realSize_small n hn hsmall] at hscan hfit heq
        have hp := scan_unique _ 16 _ p _ hscan hfit hone.found.1 hone.found.2
        rw [if_neg (by omega), heq, hp]
        exact .inr (oneBlock_malloc base _ hone n hsmall)
  | free ptr => exact absurd hsmall id
  | store addr byte =>
      rcases hs with ⟨⟨blk, hblk, hlo, hhi⟩, rfl⟩
      rcases ha with ⟨_, _, hlive⟩ | hone
      · rw [hlive] at hblk
        exact absurd hblk List.not_mem_nil
      · rcases hone.held blk hblk with ⟨hp, hn⟩
        unfold dsize at hn
        exact .inr (oneBlock_store base a hone addr byte (by omega) (by omega))

/-- As long as all requests are for at most eight bytes and nothing is freed,
    every request for at most eight bytes is served. -/
theorem served_of_small (mem : Memory) (base : Nat) (tr : List (Call × Arena))
    (hrun : AllSteps Step (start mem base) tr) (hsmall : StepsMeet SmallCall (start mem base) tr)
    (n : Nat) (hn : n ≤ dsize) : Served (lastState (start mem base) tr).heap n := by
  have hlast : Ordinary base (lastState (start mem base) tr) :=
    always_last _ tr (always_of_guarded (ordinary_step base) _ tr (.inl ⟨rfl, rfl, rfl⟩) hrun
      hsmall)
  refine ⟨hn, ?_⟩
  rcases hlast with ⟨hfree, _⟩ | hone
  · exact .inl hfree
  · have hskew := hone.layout.skew
    have hbrk := hone.layout.brk
    have hfree := hone.freeList
    refine .inr ⟨base + 16, hone.found, fun h16 => ?_, by omega⟩
    have hplace : ftrp (lastState (start mem base) tr).heap (base + 16) = base + 24 := by
      unfold ftrp
      rw [h16]
      rfl
    rw [hplace]
    exact hone.footer h16

end Malloc

end TlpiPractice
