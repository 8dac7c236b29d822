import TlpiPractice.Theory.Malloc.Tiling

/-!
# Overlapping Allocations

When the blocks handed out stay apart from each other and from every header
and footer, and exactly which requests break that.

`first_fit` looks for a block whose allocation bit is set, so the block a
request gets stays the first one to fit, and the next request of that size
gets it again. A request of more than eight bytes gets a block of eight,
whose footer is then the first word of what the caller was promised. Nothing
else goes wrong before one of these two has happened: as long as at most one
block is held and no request was for more than eight bytes, that block is the
first fit for sixteen bytes, and it stays so whatever the caller stores in it
and whatever a call to `my_free` has written before.

`Steady` is that invariant. It says nothing about the headers behind the
block held, because `my_free` may write any size there.

## Main definitions

* `Apart`: Two byte ranges share no byte.
* `NonOverlap`: The blocks held are apart from each other and from all
  headers and footers.
* `SafeCall`: A request for nothing, or for at most a double word while no
  block is held.
* `Steady`: The block held, if any, is the first fit for sixteen bytes.
* `heldOnce`, `heldTwice`: The arena after one request, and after a second.

## Theorems

* `found_split`: The block found is the first fit again after the split.
* `steady_step`: A safe call keeps `Steady`.
* `nonOverlap_of_steady`: `Steady` keeps the blocks apart.
* `overlap_of_large`: A request of more than eight bytes covers a footer.
* `overlap_of_held`: A request while a block is held returns that block.
* `nonOverlap_iff_safe`: The runs that keep the blocks apart.
* `malloc_malloc_overlap`: Two requests in a row that share a block.
-/

namespace TlpiPractice

namespace Malloc

open Words Runs

/-- The ranges `[p, p + n)` and `[q, q + m)` share no byte. -/
def Apart (p n q m : Nat) : Prop := p + n ≤ q ∨ q + m ≤ p

/-- The ranges promised to the callers are pairwise apart, and apart from the
    header and the footer of every block. -/
structure NonOverlap (a : Arena) : Prop where
  pairwise : a.live.Pairwise (fun x y => Apart x.1 x.2 y.1 y.2)
  header : ∀ x ∈ a.live, ∀ q, IsBlock a.heap q → Apart x.1 x.2 (hdrp q) wsize
  footer : ∀ x ∈ a.live, ∀ q, IsBlock a.heap q → Apart x.1 x.2 (ftrp a.heap q) wsize

/-- A request is safe when it asks for nothing, or for at most a double word
    while no block is held. The other calls are always safe. -/
def SafeCall (a : Arena) : Call → Prop
  | .malloc size => size = 0 ∨ (size ≤ dsize ∧ a.live = [])
  | .free _ => True
  | .store _ _ => True

/-- `p` is the first block after the dummy head that fits `size`. -/
def Found (h : Heap) (size p : Nat) : Prop :=
  Scan h size (nextBlkp h h.freeList) p ∧ Fits h size p

/-- Either nothing has been called yet, or the pointers are where `mm_init`
    puts them and at most one block is held, of at most eight bytes and first
    to fit sixteen. -/
def Steady (a : Arena) : Prop :=
  (a.heap.freeList = 0 ∧ a.live = []) ∨
    (Layout a.heap ∧ (a.live = [] ∨ ∃ p n, a.live = [(p, n)] ∧ 0 < n ∧ n ≤ 8 ∧ Found a.heap 16 p))

theorem realSize_small (size : Nat) (hpos : size ≠ 0) (hle : size ≤ dsize) :
    realSize size = 16 := by
  unfold realSize dsize at *
  rw [if_pos hle]
  omega

theorem realSize_large (size : Nat) (hlt : ¬ size ≤ dsize) : realSize size = 8 := by
  unfold realSize
  rw [if_neg hlt]
  rfl

/-- The block found lies beyond the dummy head, which itself is never
    considered. -/
theorem found_base (h : Heap) (size p : Nat) (hpos : 0 < size) (hf : Found h size p) :
    h.freeList + 8 ≤ p := by
  have hmod := getSize_mod h (h.freeList - wsize)
  have hnext : nextBlkp h h.freeList = h.freeList + getSize h (h.freeList - wsize) := rfl
  have hle := visits_le h _ _ (visits_of_scan h size _ _ hf.1)
  rcases scan_lt_of_ne h size _ p hf.1 hf.2 with heq | hlt
  · -- Were the head of size zero, it would be the block found, and not fit.
    by_cases hzero : getSize h (h.freeList - wsize) = 0
    · have hp : p = h.freeList := by omega
      have hfit := hf.2.2
      rw [hp] at hfit
      have : size ≤ 0 := hzero ▸ hfit
      omega
    · omega
  · omega

theorem found_isBlock (h : Heap) (hl : Layout h) (size p : Nat) (hf : Found h size p) :
    IsBlock h p := by
  have hv := visits_freeList_of_next h hl p (visits_of_scan h size _ _ hf.1)
  exact ⟨hv, fun heq => layout_not_visits h hl (heq ▸ hv)⟩

/-- A block stays the first fit when memory below its header and the header
    itself keep what the scan read. -/
theorem found_frame (h h' : Heap) (size p : Nat) (hpos : 0 < size) (hbase : 8 ≤ h.freeList)
    (hf : Found h size p) (hfree : h'.freeList = h.freeList) (hend : h'.listEnd = h.listEnd)
    (hmem : ∀ i, i + 4 < p → h'.mem i = h.mem i) (hfit : Fits h' size p) : Found h' size p := by
  -- The scan starts where the header of the dummy head says, which is below `p`.
  have hp := found_base h size p hpos hf
  have hword : getWord h'.mem (h.freeList - wsize) = getWord h.mem (h.freeList - wsize) := by
    refine getWord_congr h.mem h'.mem _ (fun i hi hi' => hmem i ?_)
    unfold wsize at hi hi'
    omega
  have hnext : nextBlkp h' h'.freeList = nextBlkp h h.freeList := by
    rw [hfree]
    unfold nextBlkp
    rw [getSize_eq, getSize_eq, hword]
  refine ⟨?_, hfit⟩
  rw [hnext]
  exact scan_frame h h' size _ p hf.1 hf.2
    (le_trans (by omega) (le_nextBlkp h h.freeList)) hend hmem

/-- Splitting the block found leaves it the first to fit, now exactly. -/
theorem found_split (h : Heap) (hl : Layout h) (size p : Nat) (hmod : size % 8 = 0)
    (hpos : 8 ≤ size) (hf : Found h size p) :
    Found (split h p size) size p ∧ getSize (split h p size) (hdrp p) = size := by
  have hbase := hl.base
  have hp := found_base h size p (by omega) hf
  rcases split_spec h p size (by omega) hmod hpos hf.2 with ⟨hmem, hsize, halloc⟩
  exact ⟨found_frame h _ size p (by omega) hbase hf (split_freeList h p size)
    (split_listEnd h p size) hmem ⟨halloc, le_of_eq hsize.symm⟩, hsize⟩

/-- What a request for at least one byte that returns has done. -/
theorem myMalloc_found (a a' : Arena) (size : Nat) (hsize : size ≠ 0)
    (hl : Layout (initialised a.heap)) (hs : Step a (.malloc size) a') :
    ∃ p, Found (initialised a.heap) (realSize size) p ∧
      a' = ⟨split (initialised a.heap) p (realSize size), (p, size) :: a.live⟩ := by
  rcases hs with ⟨rounds, h, p, hm, rfl⟩
  rcases myMalloc_cases a.heap h hl rounds size p hm with ⟨h0, _, _⟩ | ⟨_, hs, hf, heq⟩
  · exact absurd h0 hsize
  · have hreal : 0 < realSize size := by
      unfold realSize dsize
      split <;> omega
    have hp := found_base _ _ p hreal ⟨hs, hf⟩
    refine ⟨p, ⟨hs, hf⟩, ?_⟩
    rw [heq, if_neg (by omega)]

theorem layout_initialised (a : Arena) (ha : Steady a) : Layout (initialised a.heap) := by
  rcases ha with ⟨hfree, _⟩ | ⟨hl, _⟩
  · unfold initialised
    rw [if_pos hfree]
    exact layout_mmInit a.heap
  · rw [initialised_of_layout a.heap hl]
    exact hl

/-- A safe call keeps the invariant. -/
theorem steady_step (a : Arena) (c : Call) (a' : Arena) (ha : Steady a) (hsafe : SafeCall a c)
    (hs : Step a c a') : Steady a' := by
  have hinit := layout_initialised a ha
  cases c with
  | malloc size =>
      by_cases hsize : size = 0
      · -- A request for nothing at most initialises the allocator.
        rcases hs with ⟨rounds, h, p, hm, rfl⟩
        rcases myMalloc_cases a.heap h hinit rounds size p hm with ⟨_, hp, heq⟩ | ⟨hne, _⟩
        · rw [if_pos hp, heq]
          refine Or.inr ⟨hinit, ?_⟩
          rcases ha with ⟨_, hlive⟩ | ⟨hl, hheld⟩
          · exact Or.inl hlive
          · rw [initialised_of_layout a.heap hl]
            exact hheld
        · exact absurd hsize hne
      · -- No block is held, so the one found becomes the block held.
        rcases hsafe with h0 | ⟨hle, hlive⟩
        · exact absurd h0 hsize
        · rcases myMalloc_found a a' size hsize hinit hs with ⟨p, hfound, rfl⟩
          rw [realSize_small size hsize hle] at hfound ⊢
          refine Or.inr ⟨layout_congr _ _ hinit (split_freeList _ _ _) (split_listEnd _ _ _)
            (split_brk _ _ _), Or.inr ⟨p, size, by rw [hlive], by omega, hle, ?_⟩⟩
          exact (found_split _ hinit 16 p (by omega) (by omega) hfound).1
  | free ptr =>
      rcases hs with ⟨size, hmem, rfl⟩
      rcases ha with ⟨_, hlive⟩ | ⟨hl, hheld⟩
      · rw [hlive] at hmem
        exact absurd hmem List.not_mem_nil
      · refine Or.inr ⟨layout_congr a.heap _ hl rfl rfl rfl, Or.inl ?_⟩
        -- Only the block held can be freed, and then none is held.
        rcases hheld with hlive | ⟨p, n, hlive, _⟩
        · rw [hlive] at hmem
          exact absurd hmem List.not_mem_nil
        · rw [hlive, List.mem_singleton] at hmem
          rw [hlive, hmem, List.erase_cons_head]
  | store addr byte =>
      rcases hs with ⟨⟨blk, hblk, hlo, hhi⟩, rfl⟩
      rcases ha with ⟨_, hlive⟩ | ⟨hl, hheld⟩
      · rw [hlive] at hblk
        exact absurd hblk List.not_mem_nil
      · refine Or.inr ⟨layout_congr a.heap _ hl rfl rfl rfl, ?_⟩
        rcases hheld with hlive | ⟨p, n, hlive, hpos, hn, hfound⟩
        · exact Or.inl hlive
        · refine Or.inr ⟨p, n, hlive, hpos, hn, ?_⟩
          rw [hlive, List.mem_singleton] at hblk
          rw [hblk] at hlo
          -- The byte lies behind the header of the block held.
          have hbase := found_base a.heap 16 p (by omega) hfound
          refine found_frame a.heap _ 16 p (by omega) hl.base hfound rfl rfl (fun i hi => ?_) ?_
          · change (if i = addr then byte else a.heap.mem i) = a.heap.mem i
            rw [if_neg (by omega)]
          · refine (fits_congr a.heap _ 16 p (getWord_putByte_of_disjoint _ _ _ _ ?_)).mpr hfound.2
            unfold hdrp wsize
            omega

/-- With the invariant the block held touches no other block's words and not
    its own. -/
theorem nonOverlap_of_steady (a : Arena) (ha : Steady a) : NonOverlap a := by
  rcases ha with ⟨_, hlive⟩ | ⟨hl, hlive | ⟨p, n, hlive, hpos, hn, hfound⟩⟩
  · -- Nothing has been called yet.
    exact ⟨hlive ▸ List.Pairwise.nil, fun x hx => absurd (hlive ▸ hx) List.not_mem_nil,
      fun x hx => absurd (hlive ▸ hx) List.not_mem_nil⟩
  · -- No block is held.
    exact ⟨hlive ▸ List.Pairwise.nil, fun x hx => absurd (hlive ▸ hx) List.not_mem_nil,
      fun x hx => absurd (hlive ▸ hx) List.not_mem_nil⟩
  · have hbase := hl.base
    have hp := found_base a.heap 16 p (by omega) hfound
    have hfit := hfound.2.2
    -- Where a block met by the walk lies relative to the one held.
    have hplace : ∀ q, IsBlock a.heap q → a.heap.freeList ≤ q ∧
        ((q + 8 ≤ p ∧ q + getSize a.heap (hdrp q) ≤ p) ∨ q = p ∨
          p + getSize a.heap (hdrp p) ≤ q) := by
      intro q hq
      refine ⟨visits_le _ _ _ hq.1, ?_⟩
      cases hq.1 with
      | here =>
          have hnext := visits_le _ _ _ (visits_of_scan _ _ _ _ hfound.1)
          exact Or.inl ⟨hp, hnext⟩
      | next _ _ _ hrest => exact visits_scan _ _ _ _ _ hfound.1 hfound.2 hrest
    refine ⟨hlive ▸ List.pairwise_singleton _ _, fun x hx q hq => ?_, fun x hx q hq => ?_⟩
    · rw [hlive, List.mem_singleton] at hx
      rcases hplace q hq with ⟨hq8, hcase⟩
      unfold Apart hdrp wsize
      rw [hx]
      omega
    · rw [hlive, List.mem_singleton] at hx
      rcases hplace q hq with ⟨hq8, hcase⟩
      unfold Apart ftrp wsize dsize
      rw [hx]
      rcases hcase with ⟨_, hbefore⟩ | heq | hbehind
      · omega
      · rw [heq]
        omega
      · omega

/-- A request of more than eight bytes gets a block whose footer is the first
    word of what it was promised. -/
theorem overlap_of_large (a a' : Arena) (size : Nat) (ha : Steady a) (hlarge : ¬ size ≤ dsize)
    (hs : Step a (.malloc size) a') : ¬ NonOverlap a' := by
  intro hno
  have hsize : size ≠ 0 := fun h0 => hlarge (h0 ▸ Nat.zero_le _)
  have hinit := layout_initialised a ha
  rcases myMalloc_found a a' size hsize hinit hs with ⟨p, hfound, rfl⟩
  rw [realSize_large size hlarge] at hfound hno
  rcases found_split _ hinit 8 p (by omega) (by omega) hfound with ⟨hfound', hsz⟩
  have hl' := layout_congr _ (split (initialised a.heap) p 8) hinit (split_freeList _ _ _)
    (split_listEnd _ _ _) (split_brk _ _ _)
  -- The block has eight bytes, so its footer begins where the payload does.
  have hfooter := hno.footer (p, size) List.mem_cons_self p (found_isBlock _ hl' 8 p hfound')
  unfold Apart ftrp dsize wsize at hfooter
  rw [hsz] at hfooter
  omega

/-- A request made while a block is held is answered with that block. -/
theorem overlap_of_held (a a' : Arena) (size : Nat) (ha : Steady a) (hsize : size ≠ 0)
    (hsmall : size ≤ dsize) (hheld : a.live ≠ []) (hs : Step a (.malloc size) a') :
    ¬ NonOverlap a' := by
  intro hno
  have hinit := layout_initialised a ha
  rcases myMalloc_found a a' size hsize hinit hs with ⟨p, hfound, rfl⟩
  rcases ha with ⟨_, hlive⟩ | ⟨hl, hlive | ⟨q, n, hlive, hpos, _, hfound'⟩⟩
  · exact hheld hlive
  · exact hheld hlive
  · rw [realSize_small size hsize hsmall, initialised_of_layout a.heap hl] at hfound
    -- Both are the first fit for sixteen bytes.
    have hpq := scan_unique a.heap 16 _ p q hfound.1 hfound.2 hfound'.1 hfound'.2
    have hpair := hno.pairwise
    rw [hlive] at hpair
    have hapart := (List.pairwise_cons.mp hpair).1 (q, n) List.mem_cons_self
    unfold Apart at hapart
    omega

/-- The blocks held stay apart from each other and from all headers and
    footers throughout a run exactly when every request of the run is for
    nothing, or for at most eight bytes while no block is held. -/
theorem nonOverlap_iff_safe (mem : Memory) (brk : Nat) (tr : List (Call × Arena))
    (hrun : AllSteps Step (start mem brk) tr) :
    Always NonOverlap (start mem brk) tr ↔ StepsMeet SafeCall (start mem brk) tr := by
  refine always_iff_allSteps steady_step ?_ nonOverlap_of_steady _ tr (Or.inl ⟨rfl, rfl⟩) hrun
  intro a c a' ha hunsafe hs
  -- Only a request can be unsafe, and there are two ways for it.
  cases c with
  | malloc size =>
      have hsize : size ≠ 0 := fun h0 => hunsafe (Or.inl h0)
      by_cases hsmall : size ≤ dsize
      · exact overlap_of_held a a' size ha hsize hsmall (fun hl => hunsafe (Or.inr ⟨hsmall, hl⟩)) hs
      · exact overlap_of_large a a' size ha hsmall hs
  | free ptr => exact absurd trivial hunsafe
  | store addr byte => exact absurd trivial hunsafe

/-- The arena holding one block of five bytes, and the same block twice. -/
def heldOnce : Arena := afterMalloc 1 ⟨blankHeap, []⟩ 5
def heldTwice : Arena := afterMalloc 1 heldOnce 6

theorem step_heldOnce : Step (start (fun _ => 0) 0x10000) (.malloc 5) heldOnce :=
  step_afterMalloc 1 _ 5 rfl

theorem step_heldTwice : Step heldOnce (.malloc 6) heldTwice :=
  step_afterMalloc 1 _ 6 rfl

theorem heldOnce_live : heldOnce.live = [(0x10010, 5)] := rfl

/-- A block requested and freed again: no two blocks are ever held. -/
theorem nonOverlap_malloc_free :
    Always NonOverlap (start (fun _ => 0) 0x10000)
      [(Call.malloc 5, heldOnce), (Call.free 0x10010, ⟨myFree heldOnce.heap 0x10010, []⟩)] := by
  have hfree : Step heldOnce (.free 0x10010) ⟨myFree heldOnce.heap 0x10010, []⟩ := by
    refine ⟨5, ?_, ?_⟩
    · rw [heldOnce_live]
      exact List.mem_cons_self
    · rw [heldOnce_live]
      rfl
  have hsafe : SafeCall (start (fun _ => 0) 0x10000) (.malloc 5) := Or.inr ⟨by decide, rfl⟩
  exact (nonOverlap_iff_safe (fun _ => 0) 0x10000
    [(Call.malloc 5, heldOnce), (Call.free 0x10010, ⟨myFree heldOnce.heap 0x10010, []⟩)]
    ⟨step_heldOnce, hfree, trivial⟩).mpr ⟨hsafe, trivial, trivial⟩

/-- Two requests in a row are answered with the same block. -/
theorem malloc_malloc_overlap :
    AllSteps Step (start (fun _ => 0) 0x10000)
        [(Call.malloc 5, heldOnce), (Call.malloc 6, heldTwice)] ∧
      ¬ Always NonOverlap (start (fun _ => 0) 0x10000)
        [(Call.malloc 5, heldOnce), (Call.malloc 6, heldTwice)] := by
  refine ⟨⟨step_heldOnce, step_heldTwice, trivial⟩, fun h => ?_⟩
  have hsafe : SafeCall (start (fun _ => 0) 0x10000) (.malloc 5) := Or.inr ⟨by decide, rfl⟩
  have hsteady : Steady heldOnce :=
    steady_step (start (fun _ => 0) 0x10000) (.malloc 5) heldOnce (Or.inl ⟨rfl, rfl⟩) hsafe
      step_heldOnce
  -- The second request comes while the first block is held.
  have hheld : heldOnce.live ≠ [] := by
    rw [heldOnce_live]
    exact List.cons_ne_nil _ _
  exact overlap_of_held heldOnce heldTwice 6 hsteady (by decide) (by decide) hheld step_heldTwice
    h.2.2

end Malloc

end TlpiPractice
