import Mathlib.Algebra.GroupWithZero.Nat
import Mathlib.Data.List.Chain
import TlpiPractice.Library.Words

/-!
# Boundary Tags

Blocks of memory one behind the other, each with its tag in a word in front of
it and once more in the last word of its own. The tag is the size of the block
and, in the lowest bit, whether it is used; the sizes are multiples of eight,
so the two other low bits mean nothing. A block is named by the address behind
its header, and its size reaches from there to the same place in the next one.
So the two words of a block lie four bytes before that address and eight bytes
before the next one.

`Tiled` says that a stretch of memory is made of blocks with the tags of a
list. What it says depends on the bytes of the stretch only, and a part of it
can be exchanged for other blocks of the same length without looking at the
rest. That is all an allocator does when it splits a block or merges some.

`coalesce` is what freeing a block should make of the list of tags: the block
becomes one with the neighbours that are free. No two free blocks are then
next to each other, if there were none before.

## Main definitions

* `size`, `Free`: What a tag says.
* `total`: The bytes that blocks with some tags take.
* `Tiled`: A stretch of memory that is made of blocks.
* `placed`: The blocks with their addresses.
* `Separated`: No two free blocks are next to each other.
* `coalesce`: A block is freed and merged with its neighbours.

## Theorems

* `tiled_append`: Stretches one behind the other.
* `tiled_congr`: A stretch depends on its own bytes.
* `tiled_exchange`: A part of a stretch is made anew.
* `tiled_placed`: What is known of a block of a stretch.
* `placed_split`: Where a block stands.
* `total_coalesce`, `separated_coalesce`: Merging keeps the bytes, and keeps
  free blocks apart.
-/

namespace BoundaryTags

open Words

/-- The size that a tag gives: the word without its three low bits. -/
def size (w : Nat) : Nat := w / 8 * 8

/-- The lowest bit is not set. -/
def Free (w : Nat) : Prop := w % 2 = 0

instance (w : Nat) : Decidable (Free w) := inferInstanceAs (Decidable (_ = _))

/-- The bytes that blocks with these tags take. -/
def total (ws : List Nat) : Nat := (ws.map size).sum

/-- From `p` to `e` there are blocks with these tags, one behind the other. -/
def Tiled (m : Memory) : Nat → List Nat → Nat → Prop
  | p, [], e => p = e
  | p, w :: ws, e =>
      (getWord m (p - 4) = w ∧ getWord m (p + size w - 8) = w ∧ 0 < size w) ∧
        Tiled m (p + size w) ws e

/-- The blocks from `p` on, each with its address and its tag. -/
def placed : Nat → List Nat → List (Nat × Nat)
  | _, [] => []
  | p, w :: ws => (p, w) :: placed (p + size w) ws

theorem size_mod (w : Nat) : size w % 8 = 0 := Nat.mul_mod_left _ _

theorem size_of_mod (n : Nat) (h : n % 8 = 0) : size n = n := by
  unfold size
  omega

theorem free_of_mod (n : Nat) (h : n % 8 = 0) : Free n := by
  unfold Free
  omega

theorem total_nil : total [] = 0 := rfl

theorem total_cons (w : Nat) (ws : List Nat) : total (w :: ws) = size w + total ws := by
  simp only [total, List.map_cons, List.sum_cons]

theorem total_append (xs ys : List Nat) : total (xs ++ ys) = total xs + total ys := by
  simp only [total, List.map_append, List.sum_append]

theorem total_mod (ws : List Nat) : total ws % 8 = 0 := by
  induction ws with
  | nil => rfl
  | cons w ws ih =>
      have hw := size_mod w
      rw [total_cons]
      omega

/-- Where a stretch ends. -/
theorem tiled_end (m : Memory) (p : Nat) (ws : List Nat) (e : Nat) (h : Tiled m p ws e) :
    e = p + total ws := by
  induction ws generalizing p with
  | nil => exact h.symm
  | cons w ws ih =>
      rw [ih _ h.2, total_cons, Nat.add_assoc]

/-- A stretch of two parts. -/
theorem tiled_append (m : Memory) (p : Nat) (xs ys : List Nat) (e : Nat) :
    Tiled m p (xs ++ ys) e ↔ Tiled m p xs (p + total xs) ∧ Tiled m (p + total xs) ys e := by
  induction xs generalizing p with
  | nil => exact ⟨fun h => ⟨rfl, h⟩, fun h => h.2⟩
  | cons x xs ih =>
      have hstep := ih (p + size x)
      rw [Nat.add_assoc, ← total_cons] at hstep
      constructor
      · intro h
        exact ⟨⟨h.1, (hstep.mp h.2).1⟩, (hstep.mp h.2).2⟩
      · intro h
        exact ⟨h.1.1, hstep.mpr ⟨h.1.2, h.2⟩⟩

/-- Memories that agree from the first header up to the one behind the last
    block are tiled in the same way. -/
theorem tiled_congr (m m' : Memory) (p : Nat) (ws : List Nat) (e : Nat) (hp : 4 ≤ p)
    (h : ∀ i, p ≤ i + 4 → i + 4 < e → m' i = m i) (ht : Tiled m p ws e) : Tiled m' p ws e := by
  induction ws generalizing p with
  | nil => exact ht
  | cons w ws ih =>
      have hend := tiled_end m _ ws e ht.2
      have hmod := size_mod w
      have hpos := ht.1.2.2
      refine ⟨⟨?_, ?_, hpos⟩, ih (p + size w) (by omega) (fun i hi => h i (by omega)) ht.2⟩
      · exact (getWord_congr m m' _ (fun i hi hi' => h i (by omega) (by omega))).trans ht.1.1
      · exact (getWord_congr m m' _ (fun i hi hi' => h i (by omega) (by omega))).trans ht.1.2.1

/-- A part of a stretch is made anew: outside of it nothing changes, and there
    are other blocks in its place. -/
theorem tiled_exchange (m m' : Memory) (p : Nat) (xs ys ys' zs : List Nat) (e : Nat) (hp : 4 ≤ p)
    (hlen : total ys' = total ys)
    (hout : ∀ i, i + 4 < p + total xs ∨ p + total xs + total ys ≤ i + 4 → m' i = m i)
    (hin : Tiled m' (p + total xs) ys' (p + total xs + total ys'))
    (ht : Tiled m p (xs ++ (ys ++ zs)) e) : Tiled m' p (xs ++ (ys' ++ zs)) e := by
  rcases (tiled_append m p xs _ e).mp ht with ⟨hxs, hrest⟩
  rcases (tiled_append m _ ys zs e).mp hrest with ⟨_, hzs⟩
  refine (tiled_append m' p xs _ e).mpr ⟨?_, (tiled_append m' _ ys' zs e).mpr ⟨hin, ?_⟩⟩
  · exact tiled_congr m m' p xs _ hp (fun i _ hi => hout i (.inl hi)) hxs
  · rw [hlen]
    exact tiled_congr m m' _ zs e (by omega) (fun i hi _ => hout i (.inr hi)) hzs

/-- A block of a stretch: its two words, and where it lies. -/
theorem tiled_placed (m : Memory) (p : Nat) (ws : List Nat) (e : Nat) (ht : Tiled m p ws e)
    (b : Nat × Nat) (hb : b ∈ placed p ws) :
    getWord m (b.1 - 4) = b.2 ∧ getWord m (b.1 + size b.2 - 8) = b.2 ∧ p ≤ b.1 ∧
      b.1 + size b.2 ≤ e := by
  induction ws generalizing p with
  | nil => exact absurd hb List.not_mem_nil
  | cons w ws ih =>
      have hend := tiled_end m _ ws e ht.2
      rcases List.mem_cons.mp hb with rfl | hb
      · exact ⟨ht.1.1, ht.1.2.1, Nat.le_refl _, by simp only; omega⟩
      · rcases ih _ ht.2 hb with ⟨hhead, hfoot, hle, hlt⟩
        exact ⟨hhead, hfoot, by omega, hlt⟩

/-- The blocks of two parts. -/
theorem placed_append (p : Nat) (xs ys : List Nat) :
    placed p (xs ++ ys) = placed p xs ++ placed (p + total xs) ys := by
  induction xs generalizing p with
  | nil => rfl
  | cons x xs ih =>
      rw [List.cons_append, placed, placed, ih, total_cons, Nat.add_assoc, List.cons_append]

/-- Where a block stands among the others. -/
theorem placed_split (p : Nat) (ws : List Nat) (q w : Nat) (h : (q, w) ∈ placed p ws) :
    ∃ xs zs, ws = xs ++ w :: zs ∧ q = p + total xs := by
  induction ws generalizing p with
  | nil => exact absurd h List.not_mem_nil
  | cons u us ih =>
      rcases List.mem_cons.mp h with heq | h
      · rcases Prod.mk.inj heq with ⟨rfl, rfl⟩
        exact ⟨[], us, rfl, rfl⟩
      · rcases ih _ h with ⟨xs, zs, rfl, rfl⟩
        exact ⟨u :: xs, zs, rfl, by rw [total_cons, Nat.add_assoc]⟩

/-! ### Merging -/

/-- No two free blocks are next to each other. -/
def Separated (ws : List Nat) : Prop := ws.IsChain (fun u v => ¬ (Free u ∧ Free v))

/-- The first block, if it is free. -/
def freeHead : List Nat → List Nat
  | [] => []
  | u :: _ => if Free u then [u] else []

/-- The blocks without the first, if that is free. -/
def behind : List Nat → List Nat
  | [] => []
  | u :: us => if Free u then us else u :: us

/-- The last block, if it is free. -/
def freeLast (ws : List Nat) : List Nat := freeHead ws.reverse

/-- The blocks without the last, if that is free. -/
def inFront (ws : List Nat) : List Nat := (behind ws.reverse).reverse

/-- The size of a block together with that of its free neighbours. -/
def merged (before : List Nat) (w : Nat) (after : List Nat) : Nat :=
  total (freeLast before) + (size w + total (freeHead after))

/-- The block with tag `w` is freed: it is made one with its free
    neighbours. -/
def coalesce (before : List Nat) (w : Nat) (after : List Nat) : List Nat :=
  inFront before ++ ([merged before w after] ++ behind after)

theorem freeHead_append_behind (ws : List Nat) : freeHead ws ++ behind ws = ws := by
  cases ws with
  | nil => rfl
  | cons u us =>
      rw [freeHead, behind]
      by_cases hu : Free u
      · rw [if_pos hu, if_pos hu, List.singleton_append]
      · rw [if_neg hu, if_neg hu, List.nil_append]

theorem inFront_append_freeLast (ws : List Nat) : inFront ws ++ freeLast ws = ws := by
  -- One block is the same read backwards.
  have hone : ∀ us : List Nat, (freeHead us).reverse = freeHead us := by
    intro us
    cases us with
    | nil => rfl
    | cons u us =>
        rw [freeHead]
        split <;> rfl
  have h := congrArg List.reverse (freeHead_append_behind ws.reverse)
  rw [List.reverse_append, List.reverse_reverse, hone] at h
  exact h

theorem merged_mod (before : List Nat) (w : Nat) (after : List Nat) :
    merged before w after % 8 = 0 := by
  have hlast := total_mod (freeLast before)
  have hw := size_mod w
  have hhead := total_mod (freeHead after)
  unfold merged
  omega

/-- Merging does not change how many bytes there are. -/
theorem total_coalesce (before : List Nat) (w : Nat) (after : List Nat) :
    total (coalesce before w after) = total (before ++ w :: after) := by
  have hbefore := congrArg total (inFront_append_freeLast before)
  have hafter := congrArg total (freeHead_append_behind after)
  have hmerged := size_of_mod _ (merged_mod before w after)
  rw [total_append] at hbefore hafter
  rw [coalesce, total_append, total_append, total_append, total_cons, total_cons, total_nil,
    hmerged, merged]
  omega

/-- Behind a free block, or at the front of some that do not begin with one,
    there is a block in use. -/
theorem used_behind (ws : List Nat) (h : Separated ws) :
    ∀ v ∈ (behind ws).head?, ¬ Free v := by
  cases ws with
  | nil => exact fun v hv => nomatch hv
  | cons u us =>
      rw [behind]
      intro v hv
      by_cases hu : Free u
      · rw [if_pos hu] at hv
        exact fun hfree => (List.isChain_cons.mp h).1 v hv ⟨hu, hfree⟩
      · rw [if_neg hu, List.head?_cons, Option.mem_some_iff] at hv
        exact hv ▸ hu

theorem separated_behind (ws : List Nat) (h : Separated ws) : Separated (behind ws) := by
  cases ws with
  | nil => exact h
  | cons u us =>
      rw [behind]
      split
      · exact (List.isChain_cons.mp h).2
      · exact h

theorem separated_reverse (ws : List Nat) (h : Separated ws) : Separated ws.reverse := by
  refine List.isChain_reverse.mpr (h.imp (fun u v huv => ?_))
  rw [and_comm]
  exact huv

/-- Merging leaves free blocks apart from each other. -/
theorem separated_coalesce (before : List Nat) (w : Nat) (after : List Nat)
    (h : Separated (before ++ w :: after)) : Separated (coalesce before w after) := by
  rcases List.isChain_append.mp h with ⟨hbefore, hrest, _⟩
  have hafter : Separated after := (List.isChain_cons.mp hrest).2
  have hback := separated_reverse before hbefore
  refine List.isChain_append.mpr ⟨separated_reverse _ (separated_behind _ hback),
    List.isChain_cons.mpr ⟨fun v hv => ?_, separated_behind _ hafter⟩, fun u hu v hv => ?_⟩
  · exact fun hfree => used_behind after hafter v hv hfree.2
  · -- The last block in front is the first one when read backwards.
    unfold inFront at hu
    rw [List.getLast?_reverse] at hu
    exact fun hfree => used_behind before.reverse hback u hu hfree.1

end BoundaryTags
