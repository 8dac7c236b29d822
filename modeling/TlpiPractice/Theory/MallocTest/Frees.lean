import Mathlib.Data.List.Nodup
import Mathlib.Tactic.ByContra
import TlpiPractice.Core.MallocTest
import TlpiPractice.Theory.GetNum.Reading

/-!
# Which Blocks Are Freed

That the loop frees the blocks it is told to, each of them once, and when it
does not get that far.

The index goes from `freeMin - 1` in steps, so the blocks behind it that have
been freed are those whose index is a number of steps away from the first. The
arguments have been checked, so all of them have been allocated. But the step
itself may be any positive `int`. After the last block the index takes one more
step, and if this goes beyond an `int` the program is lost.

## Main definitions

* `Selected`: A block that is to be freed.
* `Overflows`: The index goes beyond an `int`.
* `left`: The blocks that stay.
* `Valid`: What is known of arguments that have been accepted.
* `FreeInv`: The invariant of the loop.

## Theorems

* `valid_of_arguments`: The arguments have been checked.
* `freeInv_again`: A turn of the loop keeps the invariant.
* `returns_freeTurn`: How the loop ends.
* `main_frees_iff`: How the program ends.
-/

namespace TlpiPractice

namespace MallocTest

open GetNum Ints Loops

/-- A block that is to be freed. -/
def Selected (a : Args) (i : Nat) : Prop :=
  a.freeMin - 1 ≤ i ∧ (i : Int) < a.freeMax ∧ a.freeStep ∣ (i : Int) - (a.freeMin - 1)

instance (a : Args) (i : Nat) : Decidable (Selected a i) :=
  inferInstanceAs (Decidable (_ ∧ _ ∧ _))

/-- The index goes beyond an `int` when it takes a step from a block. -/
def Overflows (a : Args) : Prop := ∃ i, Selected a i ∧ intMax < i + a.freeStep

/-- The blocks that are still allocated at the end. -/
def left (a : Args) : List Nat :=
  (List.range a.numAllocs.toNat).filter (fun i => decide (¬ Selected a i))

/-- What is known of arguments that have been accepted. -/
structure Valid (a : Args) : Prop where
  step_pos : 0 < a.freeStep
  min_pos : 0 < a.freeMin
  max_le : a.freeMax ≤ a.numAllocs

/-- The blocks in front of the index have been freed, and the index could go
    on from each of them. -/
structure FreeInv (a : Args) (s : Freeing) : Prop where
  start : a.freeMin - 1 ≤ s.j
  steps : a.freeStep ∣ s.j - (a.freeMin - 1)
  live : s.live = (List.range a.numAllocs.toNat).filter
    (fun i => decide (¬ (Selected a i ∧ (i : Int) < s.j)))
  fits : ∀ i, Selected a i → (i : Int) < s.j → i + a.freeStep ≤ intMax

theorem getInt_pos (arg : Option CString) (name : Option CString) (v : Int)
    (h : getInt arg gnGt0 name = .ok v) : 0 < v := by
  obtain ⟨s, _, _, _, hallows⟩ := (getInt_ok_iff arg gnGt0 name v).mp h
  exact hallows.2 rfl

theorem getIntOr_pos (arg : Option CString) (name : String) (default v : Int)
    (hdefault : 0 < default) (h : getIntOr arg name default = .ok v) : 0 < v := by
  unfold getIntOr at h
  split at h
  · cases h
    exact hdefault
  · exact getInt_pos _ _ v h

/-- A computation that goes through has gone through its first part. -/
theorem bind_eq_ok {ε α β : Type} (x : Except ε α) (f : α → Except ε β) (b : β)
    (h : (x >>= f) = .ok b) : ∃ a, x = .ok a ∧ f a = .ok b := by
  cases x with
  | error e => cases h
  | ok a => exact ⟨a, rfl, h⟩

theorem valid_of_arguments (argv : List CString) (a : Args) (h : arguments argv = .ok a) :
    Valid a := by
  unfold arguments at h
  split at h
  · split at h
    · cases h
    · rcases bind_eq_ok _ _ _ h with ⟨numAllocs, _, h⟩
      split at h
      · cases h
      · rcases bind_eq_ok _ _ _ h with ⟨blockSize, _, h⟩
        rcases bind_eq_ok _ _ _ h with ⟨freeStep, hstep, h⟩
        rcases bind_eq_ok _ _ _ h with ⟨freeMin, hmin, h⟩
        rcases bind_eq_ok _ _ _ h with ⟨freeMax, _, h⟩
        split at h
        · cases h
        · rename_i hle
          cases h
          exact ⟨getIntOr_pos _ _ _ _ Int.one_pos hstep,
            getIntOr_pos _ _ _ _ Int.one_pos hmin, Int.not_lt.mp hle⟩
  · cases h
  · cases h

/-! ### The loop -/

theorem freeInv_start (a : Args) : FreeInv a (allocated a) where
  start := Int.le_refl _
  steps := ⟨0, by rw [allocated, Int.sub_self, Int.mul_zero]⟩
  live := by
    have hnone : ∀ i : Nat, ¬ (Selected a i ∧ (i : Int) < (allocated a).j) := by
      intro i h
      have hlow := h.1.1
      have hhigh : (i : Int) < a.freeMin - 1 := h.2
      omega
    exact (List.filter_eq_self.mpr (fun i _ => decide_eq_true (hnone i))).symm
  fits := by
    intro i hi hlt
    have hlow := hi.1
    have hhigh : (i : Int) < a.freeMin - 1 := hlt
    omega

/-- The index is that of a block that is to be freed. -/
theorem selected_of_inv (a : Args) (s : Freeing) (h : FreeInv a s) (hpos : 0 < a.freeMin)
    (hlt : s.j < a.freeMax) : 0 ≤ s.j ∧ Selected a s.j.toNat := by
  have hstart := h.start
  have hnonneg : 0 ≤ s.j := by omega
  have hcast := Int.toNat_of_nonneg hnonneg
  refine ⟨hnonneg, ?_, ?_, ?_⟩
  · rw [hcast]
    exact hstart
  · rw [hcast]
    exact hlt
  · rw [hcast]
    exact h.steps

section Loop

variable (a : Args) (hv : Valid a)

include hv

/-- Between one index and the next there is no block to be freed. -/
theorem lt_step_iff (s : Freeing) (h : FreeInv a s) (i : Nat) (hi : Selected a i) :
    (i : Int) < s.j + a.freeStep ↔ (i : Int) < s.j ∨ (i : Int) = s.j := by
  have hstep := hv.step_pos
  constructor
  · intro hlt
    by_contra hno
    -- The distance would be a multiple of the step, and shorter.
    have hdvd : a.freeStep ∣ (i : Int) - s.j := by
      have hsub := Int.dvd_sub hi.2.2 h.steps
      have heq : (i : Int) - (a.freeMin - 1) - (s.j - (a.freeMin - 1)) = i - s.j := by omega
      rwa [heq] at hsub
    have hle := Int.le_of_dvd (by omega) hdvd
    omega
  · omega

theorem freeInv_again (s s' : Freeing) (h : FreeInv a s) (hturn : freeTurn a s = .again s') :
    FreeInv a s' ∧ (a.freeMax - s'.j).toNat < (a.freeMax - s.j).toNat := by
  unfold freeTurn at hturn
  split at hturn
  · rename_i hlt
    split at hturn
    · split at hturn
      · cases hturn
      · rename_i hfits
        cases hturn
        have hstep := hv.step_pos
        rcases selected_of_inv a s h hv.min_pos hlt with ⟨hnonneg, hsel⟩
        have hstart := h.start
        have hcast := Int.toNat_of_nonneg hnonneg
        have hbetween := lt_step_iff a hv s h
        refine ⟨⟨?_, ?_, ?_, ?_⟩, ?_⟩
        · show a.freeMin - 1 ≤ s.j + a.freeStep
          omega
        · show a.freeStep ∣ s.j + a.freeStep - (a.freeMin - 1)
          have hadd := Int.dvd_add h.steps (Int.dvd_refl a.freeStep)
          have heq : s.j - (a.freeMin - 1) + a.freeStep =
              s.j + a.freeStep - (a.freeMin - 1) := by omega
          rwa [heq] at hadd
        · show s.live.erase s.j.toNat = _
          rw [h.live, (List.nodup_range.filter _).erase_eq_filter, List.filter_filter]
          refine List.filter_congr (fun i _ => ?_)
          rw [Bool.eq_iff_iff, Bool.and_eq_true, bne_iff_ne, decide_eq_true_iff,
            decide_eq_true_iff]
          constructor
          · rintro ⟨hne, hbefore⟩ ⟨hi, hlt'⟩
            rcases (hbetween i hi).mp hlt' with hless | heq
            · exact hbefore ⟨hi, hless⟩
            · omega
          · intro hafter
            refine ⟨?_, fun hbefore => hafter ⟨hbefore.1, ?_⟩⟩
            · rintro rfl
              exact hafter ⟨hsel, (hbetween _ hsel).mpr (.inr hcast)⟩
            · exact (hbetween i hbefore.1).mpr (.inl hbefore.2)
        · intro i hi hless
          rcases (hbetween i hi).mp hless with hbefore | heq
          · exact h.fits i hi hbefore
          · omega
        · show (a.freeMax - (s.j + a.freeStep)).toNat < _
          omega
    · cases hturn
  · cases hturn

theorem freeInv_done (s : Freeing) (r : Option (List Nat)) (h : FreeInv a s)
    (hturn : freeTurn a s = .done r) :
    (Overflows a ∧ r = none) ∨ (¬ Overflows a ∧ r = some (left a)) := by
  unfold freeTurn at hturn
  split at hturn
  · rename_i hlt
    rcases selected_of_inv a s h hv.min_pos hlt with ⟨hnonneg, hsel⟩
    have hcast := Int.toNat_of_nonneg hnonneg
    split at hturn
    · split at hturn
      · rename_i hover
        cases hturn
        exact .inl ⟨⟨_, hsel, by omega⟩, rfl⟩
      · cases hturn
    · -- The block has been allocated, and not been freed yet.
      rename_i hgone
      refine absurd ⟨hnonneg, ?_⟩ hgone
      have hmax := hv.max_le
      rw [h.live, List.mem_filter, List.mem_range, decide_eq_true_iff]
      refine ⟨by omega, fun hbefore => ?_⟩
      have hless := hbefore.2
      omega
  · rename_i hge
    cases hturn
    have hbefore : ∀ i, Selected a i → (i : Int) < s.j := fun i hi => by
      have hlt := hi.2.1
      omega
    refine .inr ⟨fun ⟨i, hi, hover⟩ => ?_, ?_⟩
    · have hfits := h.fits i hi (hbefore i hi)
      omega
    · rw [h.live, left]
      refine congrArg some (List.filter_congr (fun i _ => ?_))
      rw [decide_eq_decide]
      exact not_congr ⟨And.left, fun hi => ⟨hi, hbefore i hi⟩⟩

/-- The loop ends, and how. -/
theorem returns_freeTurn (r : Option (List Nat)) :
    Returns (freeTurn a) (allocated a) r ↔
      (Overflows a ∧ r = none) ∨ (¬ Overflows a ∧ r = some (left a)) := by
  have hresult := returns_of_invariant (freeTurn a) (FreeInv a)
    (fun r => (Overflows a ∧ r = none) ∨ (¬ Overflows a ∧ r = some (left a)))
    (fun s s' h hturn => (freeInv_again a hv s s' h hturn).1)
    (fun s r h hturn => freeInv_done a hv s r h hturn) _ (freeInv_start a)
  refine ⟨hresult r, fun h => ?_⟩
  rcases exists_returns (freeTurn a) (FreeInv a) (fun s => (a.freeMax - s.j).toNat)
    (fun s s' h hturn => freeInv_again a hv s s' h hturn) _ (freeInv_start a) with ⟨r', hr'⟩
  have hsame : r' = r := by
    rcases h with ⟨hover, rfl⟩ | ⟨hfits, rfl⟩
    · exact ((hresult r' hr').resolve_right (fun hno => hno.1 hover)).2
    · exact ((hresult r' hr').resolve_left (fun hno => hfits hno.1)).2
  exact hsame ▸ hr'

end Loop

/-- For any command line: if the arguments are accepted and all blocks can be
    allocated, the program comes to its end exactly if the index stays within
    an `int` behind the last block, and then the blocks that are not selected
    are left. Otherwise what happens is not defined. -/
theorem main_frees_iff (argv : List CString) (mallocs : Nat → Bool) :
    (∀ live, Main argv mallocs (.finishes live) ↔
      ∃ a, arguments argv = .ok a ∧ (∀ j < a.numAllocs.toNat, mallocs j = true) ∧
        ¬ Overflows a ∧ live = left a) ∧
    (Main argv mallocs .undefined ↔
      ∃ a, arguments argv = .ok a ∧ (∀ j < a.numAllocs.toNat, mallocs j = true) ∧
        Overflows a) := by
  unfold Main
  cases hargs : arguments argv with
  | error text =>
      refine ⟨fun live => ⟨fun h => ?_, fun ⟨a, h, _⟩ => ?_⟩, fun h => ?_, fun ⟨a, h, _⟩ => ?_⟩
      · cases h
      · cases h
      · cases h
      · cases h
  | ok a =>
      have hloop := returns_freeTurn a (valid_of_arguments argv a hargs)
      by_cases hall : ∀ j < a.numAllocs.toNat, mallocs j = true
      · simp only [if_pos hall]
        constructor
        · intro live
          constructor
          · rintro ⟨r, hr, he⟩
            rcases (hloop r).mp hr with ⟨_, rfl⟩ | ⟨hfits, rfl⟩
            · cases he
            · cases he
              exact ⟨a, rfl, hall, hfits, rfl⟩
          · rintro ⟨a', ha', _, hfits, rfl⟩
            cases ha'
            exact ⟨_, (hloop _).mpr (.inr ⟨hfits, rfl⟩), rfl⟩
        · constructor
          · rintro ⟨r, hr, he⟩
            rcases (hloop r).mp hr with ⟨hover, rfl⟩ | ⟨_, rfl⟩
            · exact ⟨a, rfl, hall, hover⟩
            · cases he
          · rintro ⟨a', ha', _, hover⟩
            cases ha'
            exact ⟨none, (hloop none).mpr (.inl ⟨hover, rfl⟩), rfl⟩
      · simp only [if_neg hall]
        refine ⟨fun live => ⟨fun h => ?_, fun ⟨a', ha', hall', _⟩ => ?_⟩, fun h => ?_,
          fun ⟨a', ha', hall', _⟩ => ?_⟩
        · cases h
        · cases ha'
          exact absurd hall' hall
        · cases h
        · cases ha'
          exact absurd hall' hall

end MallocTest

end TlpiPractice
