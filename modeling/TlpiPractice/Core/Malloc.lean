import Mathlib.Algebra.Group.Nat.Defs
import TlpiPractice.Library.Words

/-!
# The Implicit Free List Allocator

The allocator of `7-2-my_malloc_free.c`: `my_malloc` and `my_free` over one
region obtained from `sbrk`, cut into blocks that each carry their size and
an allocation bit in a four-byte header and a four-byte footer.

A block is named by the address just past its header. `NEXT_BLKP` finds the
next block by adding the size stored in the header, so the list of blocks is
implicit in the header words, and everything a call does is decided by what
it reads from memory. The memory is therefore modelled byte by byte, with the
macros reading and writing words of it, and nothing is assumed about what
lies outside the program break: `mm_init` already writes there.

`first_fit` walks the blocks until it meets `list_end`. Nothing in the code
bounds that walk, so its model takes a number of rounds and returns `none`
when they run out. A call that returns does so for some number of rounds and
for every larger one.

`Arena` adds what the callers of the allocator know: which blocks they hold
and how many bytes they asked for. Between calls they may store bytes into
the blocks they hold, which matters because `my_free` reads the block.

## Main definitions

* `Heap`: The memory, the program break and the two list pointers.
* `mmInit`, `newChunk`, `firstFit`, `myMalloc`, `myFree`: The functions of the
  source.
* `Arena`: A heap together with the blocks its callers hold.
* `Step`: One call, or one byte stored by a caller.
-/

namespace TlpiPractice

namespace Malloc

open Words

def chunkSize : Nat := 2 ^ 12
def wsize : Nat := 4
def dsize : Nat := 8

/-- The state of the allocator. A null `free_list` is the address zero. The
    memory past `brk` is whatever the process has mapped there. -/
structure Heap where
  mem : Memory
  brk : Nat
  freeList : Nat
  listEnd : Nat

/-- `PACK`: a size and the allocation bit in one word. -/
def pack (size alloc : Nat) : Nat := size ||| alloc

/-- `PUT`: store an unsigned int, so only the low 32 bits of the value. -/
def put (h : Heap) (p val : Nat) : Heap := { h with mem := putWord h.mem p val }

/-- `GET_SIZE`: the word with its three low bits masked off by `~0x7`. -/
def getSize (h : Heap) (p : Nat) : Nat := getWord h.mem p &&& 0xFFFFFFF8

/-- `GET_ALLOC`: the lowest bit of the word. -/
def getAlloc (h : Heap) (p : Nat) : Nat := getWord h.mem p &&& 0x1

def hdrp (p : Nat) : Nat := p - wsize
def ftrp (h : Heap) (p : Nat) : Nat := p + getSize h (hdrp p) - dsize
def nextBlkp (h : Heap) (p : Nat) : Nat := p + getSize h (p - wsize)
def prevBlkp (h : Heap) (p : Nat) : Nat := p - getSize h (p - dsize)

/-- `Sbrk`: the former break, and the heap with the break moved up. A failing
    `sbrk` ends the process in the source, so only successes are a step. -/
def sbrk (h : Heap) (increment : Nat) : Nat × Heap :=
  (h.brk, { h with brk := h.brk + increment })

/-- `mm_init`: the dummy head, the first block and the guardian end. -/
def mmInit (h : Heap) : Heap :=
  let (former, h) := sbrk h chunkSize
  let h := { h with freeList := former + wsize }
  -- `list_end` is set from `free_list` before its second increment.
  let h := { h with listEnd := h.freeList + chunkSize }
  let h := put h h.freeList (pack dsize 1)
  let h := { h with freeList := h.freeList + wsize }
  let h := put h h.freeList (pack dsize 1)
  -- The first block is marked allocated, like the dummy head.
  let h := put h (hdrp (nextBlkp h h.freeList)) (pack (chunkSize - 16) 1)
  let h := put h (ftrp h (nextBlkp h h.freeList)) (pack (chunkSize - 16) 1)
  put h (hdrp h.listEnd) (pack 0 1)

/-- `new_chunk`: grow the region by one chunk, merging it with the last block
    when the word before `list_end` says that block is free. -/
def newChunk (h : Heap) : Heap × Nat :=
  let (_, h) := sbrk h chunkSize
  let h :=
    if getAlloc h (hdrp h.listEnd) ≠ 0 then
      -- The new chunk becomes a block of its own.
      let h := put h (hdrp h.listEnd) (pack chunkSize 0)
      let h := put h (ftrp h h.listEnd) (pack chunkSize 0)
      { h with listEnd := nextBlkp h h.listEnd }
    else
      -- An `unsigned int`, so the sum is taken modulo `2 ^ 32`.
      let blockSize := (chunkSize + getSize h (hdrp (prevBlkp h h.listEnd))) % 2 ^ 32
      let preBlk := prevBlkp h h.listEnd
      let h := put h (hdrp preBlk) (pack blockSize 0)
      let h := put h (ftrp h preBlk) (pack blockSize 0)
      { h with listEnd := nextBlkp h preBlk }
  let h := put h (hdrp h.listEnd) (pack 0 1)
  (h, prevBlkp h h.listEnd)

/-- The test of `first_fit` on one block: the allocation bit is set and the
    size suffices. -/
def Fits (h : Heap) (size p : Nat) : Prop :=
  getAlloc h (hdrp p) ≠ 0 ∧ size ≤ getSize h (hdrp p)

instance (h : Heap) (size p : Nat) : Decidable (Fits h size p) :=
  inferInstanceAs (Decidable (_ ∧ _))

/-- The loop of `first_fit` from block `p`, for at most the given number of
    rounds. -/
def firstFitFrom (h : Heap) (size : Nat) : Nat → Nat → Option (Heap × Nat)
  | 0, _ => none
  | rounds + 1, p =>
      -- The loop has come to `list_end`: the heap is grown.
      if p = h.listEnd then some (newChunk h)
      else if Fits h size p then some (h, p)
      else firstFitFrom h size rounds (nextBlkp h p)

def firstFit (rounds : Nat) (h : Heap) (size : Nat) : Option (Heap × Nat) :=
  firstFitFrom h size rounds (nextBlkp h h.freeList)

/-- `real_size`: one double word of overhead, and the payload rounded up to
    double words, but only when the payload is at most one. -/
def realSize (size : Nat) : Nat :=
  if size ≤ dsize then dsize + (size + (dsize - 1)) / dsize * dsize else dsize

/-- The splitting of the block found, when it is larger than needed. -/
def split (h : Heap) (blk realSize : Nat) : Heap :=
  let blkSize := getSize h (hdrp blk)
  if blkSize > realSize then
    -- The front of the block is handed out, the rest of it becomes free.
    let h := put h (hdrp blk) (pack realSize 1)
    let h := put h (ftrp h blk) (pack realSize 1)
    let next := nextBlkp h blk
    let h := put h (hdrp next) (pack (blkSize - realSize) 0)
    put h (ftrp h next) (pack (blkSize - realSize) 0)
  else h

/-- `my_malloc`: the heap afterwards and the block returned, zero for a null
    pointer, or `none` when `first_fit` is still walking. -/
def myMalloc (rounds : Nat) (h : Heap) (size : Nat) : Option (Heap × Nat) :=
  let h := if h.freeList = 0 then mmInit h else h
  if size = 0 then some (h, 0)
  else
    match firstFit rounds h (realSize size) with
    | none => none
    | some (h, blk) => some (split h blk (realSize size), blk)

/-- `my_free`. The size starts from the word at `ptr` itself, and both tests
    look at the header of `ptr`. -/
def myFree (h : Heap) (ptr : Nat) : Heap :=
  let prev := prevBlkp h ptr
  let next := nextBlkp h ptr
  -- `GET_SIZE(ptr)`, and not `GET_SIZE(HDRP(ptr))`.
  let size := getSize h ptr
  -- `HDRP(ptr)` decides for both neighbours whether they are merged.
  let blk := if getAlloc h (hdrp ptr) = 0 then prev else ptr
  let size := if getAlloc h (hdrp ptr) = 0 then size + getSize h (hdrp prev) else size
  let size := if getAlloc h (hdrp ptr) = 0 then size + getSize h (hdrp next) else size
  let h := put h (hdrp blk) (pack size 0)
  put h (ftrp h blk) (pack size 0)

/-- A heap and the blocks its callers hold, each with the number of bytes
    asked for. -/
structure Arena where
  heap : Heap
  live : List (Nat × Nat)

/-- What the callers do: the two calls, and a store into a block they hold. -/
inductive Call where
  | malloc (size : Nat)
  | free (ptr : Nat)
  | store (addr : Nat) (byte : UInt8)

/-- One call that returns, or one store. `my_free` is only called on a block
    that is held, and stores stay within the bytes asked for. -/
def Step (a : Arena) : Call → Arena → Prop
  | .malloc size, a' => ∃ rounds h p, myMalloc rounds a.heap size = some (h, p) ∧
      a' = ⟨h, if p = 0 then a.live else (p, size) :: a.live⟩
  | .free ptr, a' => ∃ size, (ptr, size) ∈ a.live ∧
      a' = ⟨myFree a.heap ptr, a.live.erase (ptr, size)⟩
  | .store addr byte, a' => (∃ blk ∈ a.live, blk.1 ≤ addr ∧ addr < blk.1 + blk.2) ∧
      a' = ⟨{ a.heap with mem := putByte a.heap.mem addr byte }, a.live⟩

/-- Before any call: both list pointers null, any memory and any break. -/
def start (mem : Memory) (brk : Nat) : Arena :=
  ⟨{ mem := mem, brk := brk, freeList := 0, listEnd := 0 }, []⟩

end Malloc

end TlpiPractice
