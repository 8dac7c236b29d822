import TlpiPractice.Library.Runs
import TlpiPractice.Theory.Malloc.Walk

/-!
# The Walk Never Ends

Whether the blocks tile the region from the dummy head to `list_end`.

They do not, in any state. `mm_init` places the dummy head eight bytes above
the old break and `list_end` one chunk above `free_list` as it was before the
second increment, four bytes higher than the end of its only block. The two
addresses differ by four modulo eight, every step of the walk is a multiple
of eight, and no call moves either of them, since the only code that would is
reached through `list_end`. So the walk steps over `list_end` in every state
the allocator can be in, and a request that no block on the way satisfies
does not return.

The same four bytes put the terminator's word just above the break.

## Main definitions

* `HeapTiled`: The blocks tile the region up to `list_end`, below the break.
* `Layout`: The placement of the two list pointers that `mm_init` leaves.
* `initialised`: The heap a request works on.
* `afterMalloc`: The arena after a request, computed.
* `blankHeap`: The allocator before any call, over zeroed memory.

## Theorems

* `layout_mmInit`: `mm_init` establishes the placement.
* `layout_step`: Every call keeps the placement.
* `layout_not_visits`: With that placement the walk never meets `list_end`.
* `firstFit_found`: A returning `first_fit` has found a fitting block.
* `firstFit_none`: A request that no visited block fits does not return.
* `mmInit_never_tiled`: No state after `mm_init` is tiled.
-/

namespace TlpiPractice

namespace Malloc

open Words Runs

/-- The region is tiled: the walk from `free_list` reaches `list_end`, every
    block before it has a non-zero size that is a multiple of eight and the
    same word in header and footer, and all these words and the terminator's
    lie below the program break. -/
structure HeapTiled (h : Heap) : Prop where
  reaches : Visits h h.freeList h.listEnd
  size_ne : ∀ q, IsBlock h q → getSize h (hdrp q) ≠ 0
  size_mod : ∀ q, IsBlock h q → getSize h (hdrp q) % 8 = 0
  footer : ∀ q, IsBlock h q → getWord h.mem (hdrp q) = getWord h.mem (ftrp h q)
  header_lt : ∀ q, IsBlock h q → hdrp q + wsize ≤ h.brk
  footer_lt : ∀ q, IsBlock h q → ftrp h q + wsize ≤ h.brk
  terminator : hdrp h.listEnd + wsize ≤ h.brk

/-- The allocator before any call, over zeroed memory and a break at
    `0x10000`. -/
def blankHeap : Heap := { mem := fun _ => 0, brk := 0x10000, freeList := 0, listEnd := 0 }

/-- Where `mm_init` leaves `free_list` and `list_end`: one chunk and a word
    apart less a double word, with the break four bytes below `list_end`. -/
structure Layout (h : Heap) : Prop where
  base : 8 ≤ h.freeList
  skew : h.listEnd = h.freeList + 4092
  brk : h.brk + 4 = h.listEnd

theorem layout_mmInit (h : Heap) : Layout (mmInit h) where
  base := Nat.le_add_left 8 h.brk
  skew := by
    change h.brk + 4 + 4096 = h.brk + 4 + 4 + 4092
    omega
  brk := by
    change h.brk + 4096 + 4 = h.brk + 4 + 4096
    omega

theorem layout_congr (h h' : Heap) (hl : Layout h) (hfree : h'.freeList = h.freeList)
    (hend : h'.listEnd = h.listEnd) (hbrk : h'.brk = h.brk) : Layout h' where
  base := hfree ▸ hl.base
  skew := by rw [hend, hfree, hl.skew]
  brk := by rw [hbrk, hend, hl.brk]

/-- The walk never meets `list_end`: it stays a multiple of eight away from
    `free_list`. -/
theorem layout_not_visits (h : Heap) (hl : Layout h) : ¬ Visits h h.freeList h.listEnd := by
  intro hv
  -- 4092 is not a multiple of eight.
  have hmod := visits_mod h _ _ hv
  have hskew := hl.skew
  omega

theorem layout_freeList_ne (h : Heap) (hl : Layout h) : h.freeList ≠ h.listEnd := by
  have hskew := hl.skew
  omega

theorem visits_freeList_of_next (h : Heap) (hl : Layout h) (q : Nat)
    (hv : Visits h (nextBlkp h h.freeList) q) : Visits h h.freeList q :=
  Visits.next _ _ (layout_freeList_ne h hl) hv

/-- A returning `first_fit` has left the heap alone and found a fitting
    block, the heap never being grown. -/
theorem firstFit_found (h : Heap) (hl : Layout h) (rounds size : Nat) (r : Heap × Nat)
    (hr : firstFit rounds h size = some r) :
    r.1 = h ∧ Scan h size (nextBlkp h h.freeList) r.2 ∧ Fits h size r.2 := by
  -- The other outcome, growing the heap, needs a scan that reaches `list_end`.
  rcases firstFitFrom_scan h size rounds _ r hr with ⟨h1, h2, h3, _⟩ | ⟨hs, _⟩
  · exact ⟨h1, h2, h3⟩
  · exact absurd (visits_freeList_of_next h hl _ (visits_of_scan _ _ _ _ hs))
      (layout_not_visits h hl)

/-- A request that no block on the walk satisfies is never answered, however
    long `first_fit` is left to run. -/
theorem firstFit_none (h : Heap) (hl : Layout h) (size : Nat)
    (hnone : ∀ q, IsBlock h q → ¬ Fits h size q) (rounds : Nat) :
    firstFit rounds h size = none := by
  -- A block found would have to fit.
  cases hr : firstFit rounds h size with
  | none => rfl
  | some r =>
      rcases firstFit_found h hl rounds size r hr with ⟨_, hs, hf⟩
      have hv := visits_freeList_of_next h hl _ (visits_of_scan _ _ _ _ hs)
      have hne : r.2 ≠ h.listEnd := fun he => layout_not_visits h hl (he ▸ hv)
      exact absurd hf (hnone r.2 ⟨hv, hne⟩)

/-- The heap `my_malloc` works on, set up by `mm_init` at the first call. -/
def initialised (h : Heap) : Heap := if h.freeList = 0 then mmInit h else h

theorem initialised_of_layout (h : Heap) (hl : Layout h) : initialised h = h := by
  have hbase := hl.base
  unfold initialised
  rw [if_neg (by omega)]

/-- What a returning `my_malloc` has done: nothing for a request of zero
    bytes, and otherwise found the first fitting block and split it. -/
theorem myMalloc_cases (h h' : Heap) (hl : Layout (initialised h)) (rounds size p : Nat)
    (hr : myMalloc rounds h size = some (h', p)) :
    (size = 0 ∧ p = 0 ∧ h' = initialised h) ∨
      (size ≠ 0 ∧
        Scan (initialised h) (realSize size) (nextBlkp (initialised h) (initialised h).freeList) p ∧
        Fits (initialised h) (realSize size) p ∧ h' = split (initialised h) p (realSize size)) := by
  by_cases hsize : size = 0
  · have heq : myMalloc rounds h size = some (initialised h, 0) := by
      simp only [myMalloc, initialised, if_pos hsize]
    rw [heq, Option.some.injEq, Prod.mk.injEq] at hr
    exact Or.inl ⟨hsize, hr.2.symm, hr.1.symm⟩
  · cases hfit : firstFit rounds (initialised h) (realSize size) with
    | none =>
        unfold initialised at hfit
        simp only [myMalloc, if_neg hsize, hfit, reduceCtorEq] at hr
    | some r =>
        rcases firstFit_found _ hl rounds _ r hfit with ⟨h1, h2, h3⟩
        unfold initialised at hfit
        simp only [myMalloc, if_neg hsize, hfit, Option.some.injEq, Prod.mk.injEq] at hr
        rw [hr.2] at h2 h3
        exact Or.inr ⟨hsize, h2, h3, by rw [← hr.1, h1, hr.2]⟩

/-- The arena after a request that is answered within the given rounds. -/
def afterMalloc (rounds : Nat) (a : Arena) (size : Nat) : Arena :=
  match myMalloc rounds a.heap size with
  | none => a
  | some (h, p) => ⟨h, if p = 0 then a.live else (p, size) :: a.live⟩

theorem step_afterMalloc (rounds : Nat) (a : Arena) (size : Nat)
    (hsome : (myMalloc rounds a.heap size).isSome) :
    Step a (.malloc size) (afterMalloc rounds a size) := by
  rcases Option.isSome_iff_exists.mp hsome with ⟨r, hr⟩
  refine ⟨rounds, r.1, r.2, hr, ?_⟩
  unfold afterMalloc
  rw [hr]

/-- `my_malloc` does not move `free_list`, `list_end` or the break once they are
    set. -/
theorem myMalloc_keeps (h h' : Heap) (hl : Layout h) (rounds size p : Nat)
    (hm : myMalloc rounds h size = some (h', p)) :
    h'.freeList = h.freeList ∧ h'.listEnd = h.listEnd ∧ h'.brk = h.brk := by
  have hinit := initialised_of_layout h hl
  rcases myMalloc_cases h h' (hinit.symm ▸ hl) rounds size p hm with
    ⟨_, _, heq⟩ | ⟨_, _, _, heq⟩
  · rw [heq, hinit]
    exact ⟨rfl, rfl, rfl⟩
  · rw [heq, hinit, split_freeList, split_listEnd, split_brk]
    exact ⟨rfl, rfl, rfl⟩

/-- No call moves `free_list`, `list_end` or the break once they are set. -/
theorem layout_step (a a' : Arena) (c : Call) (hl : Layout a.heap) (hs : Step a c a') :
    Layout a'.heap := by
  cases c with
  | malloc size =>
      rcases hs with ⟨rounds, h, p, hm, rfl⟩
      rcases myMalloc_keeps a.heap h hl rounds size p hm with ⟨hfree, hend, hbrk⟩
      exact layout_congr a.heap h hl hfree hend hbrk
  | free ptr =>
      rcases hs with ⟨size, _, rfl⟩
      exact layout_congr a.heap _ hl rfl rfl rfl
  | store addr byte =>
      rcases hs with ⟨_, rfl⟩
      exact layout_congr a.heap _ hl rfl rfl rfl

/-- No state that `mm_init` and any calls after it can lead to is tiled. -/
theorem mmInit_never_tiled (h : Heap) (tr : List (Call × Arena))
    (hrun : AllSteps Step ⟨mmInit h, []⟩ tr) :
    Always (fun a => ¬ HeapTiled a.heap) ⟨mmInit h, []⟩ tr := by
  have hlayout : Always (fun a => Layout a.heap) ⟨mmInit h, []⟩ tr :=
    always_of_allSteps (fun a c a' hl hs => layout_step a a' c hl hs) _ tr (layout_mmInit h) hrun
  refine always_mono (fun a hl => ?_) _ tr hlayout
  intro ht
  exact layout_not_visits a.heap hl ht.reaches

theorem mmInit_never_tiled_malloc :
    Always (fun a => ¬ HeapTiled a.heap) ⟨mmInit blankHeap, []⟩
      [(Call.malloc 5, afterMalloc 1 ⟨mmInit blankHeap, []⟩ 5)] :=
  mmInit_never_tiled blankHeap _ ⟨step_afterMalloc 1 _ 5 (by decide), trivial⟩

theorem blank_mmInit_not_tiled : ¬ HeapTiled (mmInit blankHeap) := by
  intro ht
  have hbreak : ¬ hdrp (mmInit blankHeap).listEnd + wsize ≤ (mmInit blankHeap).brk := by decide
  exact hbreak ht.terminator

end Malloc

end TlpiPractice
