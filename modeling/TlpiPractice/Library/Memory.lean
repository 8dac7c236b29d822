import Mathlib.Data.UInt
import Mathlib.Data.List.GetD

/-!
# Memory

A memory as a function from addresses to bytes, and the copying of bytes out
of it and into it.

## Main definitions

* `load`: The bytes in a piece of memory.
* `store`: The memory after bytes have been put into it.

## Theorems

* `load_add`: A piece read in two parts.
* `drop_load`: A piece without its first bytes.
* `load_congr`: Memories that agree on a piece.
* `load_store`: A piece whose first bytes have been replaced.
* `store_store`: Two copies, the second behind the first.
* `load_store_apart`: A piece that a copy does not touch.
* `load_store_behind`: A piece, and a copy right behind it.
-/

namespace Memory

/-- The `n` bytes from the address `a` on. -/
def load (mem : Nat → UInt8) (a n : Nat) : List UInt8 := (List.range n).map (fun i => mem (a + i))

/-- The memory after the bytes have been put at the address `a`. -/
def store (mem : Nat → UInt8) (a : Nat) (bytes : List UInt8) : Nat → UInt8 :=
  fun x => if a ≤ x ∧ x < a + bytes.length then bytes.getD (x - a) 0 else mem x

theorem length_load (mem : Nat → UInt8) (a n : Nat) : (load mem a n).length = n := by
  unfold load
  rw [List.length_map, List.length_range]

theorem getElem_load (mem : Nat → UInt8) (a n i : Nat) (h : i < (load mem a n).length) :
    (load mem a n)[i] = mem (a + i) := by
  simp only [load, List.getElem_map, List.getElem_range]

theorem load_zero (mem : Nat → UInt8) (a : Nat) : load mem a 0 = [] := rfl

theorem store_of_lt (mem : Nat → UInt8) (a : Nat) (bytes : List UInt8) (i : Nat)
    (h : i < bytes.length) : store mem a bytes (a + i) = bytes[i] := by
  unfold store
  rw [if_pos (by omega), Nat.add_sub_cancel_left, List.getD_eq_getElem bytes 0 h]

theorem store_of_outside (mem : Nat → UInt8) (a : Nat) (bytes : List UInt8) (x : Nat)
    (h : ¬ (a ≤ x ∧ x < a + bytes.length)) : store mem a bytes x = mem x := by
  unfold store
  rw [if_neg h]

theorem load_add (mem : Nat → UInt8) (a m n : Nat) :
    load mem a (m + n) = load mem a m ++ load mem (a + m) n := by
  refine List.ext_getElem ?_ (fun i hi _ => ?_)
  · simp only [length_load, List.length_append]
  · rw [getElem_load]
    by_cases him : i < m
    · rw [List.getElem_append_left (by rwa [length_load]), getElem_load]
    · rw [List.getElem_append_right (by rw [length_load]; omega), getElem_load]
      simp only [length_load]
      congr 1
      omega

theorem drop_load (mem : Nat → UInt8) (a n k : Nat) :
    (load mem a n).drop k = load mem (a + k) (n - k) := by
  refine List.ext_getElem ?_ (fun i hi _ => ?_)
  · simp only [length_load, List.length_drop]
  · rw [List.getElem_drop, getElem_load, getElem_load]
    congr 1
    omega

theorem load_congr (mem mem' : Nat → UInt8) (a n : Nat)
    (h : ∀ x, a ≤ x → x < a + n → mem' x = mem x) : load mem' a n = load mem a n := by
  unfold load
  refine List.map_congr_left (fun i hi => h (a + i) (by omega) ?_)
  have hin := List.mem_range.mp hi
  omega

/-- The first bytes of a piece have been replaced. -/
theorem load_store (mem : Nat → UInt8) (a n : Nat) (bytes : List UInt8) (h : bytes.length ≤ n) :
    load (store mem a bytes) a n = bytes ++ (load mem a n).drop bytes.length := by
  have hsplit : n = bytes.length + (n - bytes.length) := by omega
  have hfirst : load (store mem a bytes) a bytes.length = bytes := by
    refine List.ext_getElem (length_load _ _ _) (fun i hi hi' => ?_)
    rw [getElem_load, store_of_lt mem a bytes i hi']
  have hrest : load (store mem a bytes) (a + bytes.length) (n - bytes.length) =
      load mem (a + bytes.length) (n - bytes.length) :=
    load_congr _ _ _ _ (fun x hx _ => store_of_outside mem a bytes x (by omega))
  rw [drop_load, hsplit, load_add, hfirst]
  simp only [Nat.add_sub_cancel_left]
  rw [hrest]

/-- Two copies, the second right behind the first, are one. -/
theorem store_store (mem : Nat → UInt8) (a : Nat) (xs ys : List UInt8) :
    store (store mem a xs) (a + xs.length) ys = store mem a (xs ++ ys) := by
  funext x
  unfold store
  rw [List.length_append]
  by_cases hfirst : a ≤ x ∧ x < a + xs.length
  · rw [if_neg (by omega), if_pos hfirst, if_pos (by omega),
      List.getD_append xs ys 0 (x - a) (by omega)]
  · by_cases hsecond : a + xs.length ≤ x ∧ x < a + xs.length + ys.length
    · rw [if_pos hsecond, if_pos (by omega), List.getD_append_right xs ys 0 (x - a) (by omega)]
      congr 1
      omega
    · rw [if_neg hsecond, if_neg hfirst, if_neg (by omega)]

theorem load_store_apart (mem : Nat → UInt8) (a c n : Nat) (bytes : List UInt8)
    (h : ∀ x, c ≤ x → x < c + n → ¬ (a ≤ x ∧ x < a + bytes.length)) :
    load (store mem a bytes) c n = load mem c n :=
  load_congr _ _ _ _ (fun x hx hxn => store_of_outside mem a bytes x (h x hx hxn))

/-- A piece, and what has been put behind it. -/
theorem load_store_behind (mem : Nat → UInt8) (a n : Nat) (bytes : List UInt8) :
    load (store mem (a + n) bytes) a (n + bytes.length) = load mem a n ++ bytes := by
  have hfront : load (store mem (a + n) bytes) a n = load mem a n :=
    load_store_apart _ _ _ _ _ (fun x _ hx => by omega)
  rw [load_add, hfront, load_store _ _ _ _ (Nat.le_refl _),
    List.drop_of_length_le (by rw [length_load]), List.append_nil]

/-- The front of a piece. -/
theorem load_front (mem : Nat → UInt8) (a n : Nat) (xs ys : List UInt8)
    (h : load mem a n = xs ++ ys) : load mem a xs.length = xs := by
  have hn : n = xs.length + ys.length := by
    rw [← length_load mem a n, h, List.length_append]
  rw [hn, load_add] at h
  exact (List.append_inj h (length_load _ _ _)).1

end Memory
