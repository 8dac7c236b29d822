import Mathlib.Tactic.Common
import TlpiPractice.Core.Dup

/-!
# The Agreement With `dup2`

When `mydup2` does the same as `dup2`.

After the new descriptor has been closed it is the lowest free one that is not
below itself, so the request gives that number. The request fails only for a
number at the limit or above. Such a number may be open, since the limit can
be lowered after it has been opened, and then it has been closed for nothing.

## Main definitions

* `dup2`: What `dup2` does.
* `Agrees`: What `mydup2` should do.

## Theorems

* `fcntlDupfd_self`: The request with a number that is free.
* `mydup_spec`: What `mydup` does.
* `mydup2_of_lt`, `mydup2_of_le`: A number below the limit, or not.
* `agrees_iff`: When the two agree.
* `lowered_wrong`: A limit for which they do not.
-/

namespace TlpiPractice

namespace Dup

open Descriptors

variable {δ : Type*}

/-- `dup2`: what it returns, and the descriptors after it. -/
def dup2 (limit : Nat) (t : Table δ) (oldfd newfd : Int) : Int × Table δ :=
  if newfd < 0 ∨ lookup t oldfd = none then (-1, t)
  else if oldfd = newfd then (newfd, t)
  else if (limit : Int) ≤ newfd then (-1, t)
  else (newfd, Descriptors.dup2 limit t oldfd.toNat newfd.toNat)

/-- `mydup2` should return what `dup2` does and leave the same descriptors, and
    say so if the old one is not open. A failure should change none. -/
def Agrees (limit : Nat) (s : State δ) (oldfd newfd : Int) : Prop :=
  (mydup2 limit s oldfd newfd).1 = (dup2 limit s.table oldfd newfd).1 ∧
    (mydup2 limit s oldfd newfd).2.table = (dup2 limit s.table oldfd newfd).2 ∧
    ((mydup2 limit s oldfd newfd).1 = -1 → (mydup2 limit s oldfd newfd).2.table = s.table) ∧
    (0 ≤ newfd → lookup s.table oldfd = none → (mydup2 limit s oldfd newfd).2.errno = ebadf)

theorem lookup_of_nonneg (t : Table δ) (fd : Int) (h : 0 ≤ fd) : lookup t fd = t fd.toNat :=
  if_neg (by omega)

theorem nonneg_of_lookup (t : Table δ) (fd : Int) (d : δ) (h : lookup t fd = some d) :
    0 ≤ fd := by
  by_contra hneg
  rw [lookup, if_pos (by omega)] at h
  cases h

/-- With a number that is free and below the limit, the request gives that. -/
theorem fcntlDupfd_self (limit : Nat) (s : State δ) (oldfd low : Int) (d : δ)
    (hold : lookup s.table oldfd = some d) (hlow : 0 ≤ low) (hlimit : low < limit)
    (hfree : lookup s.table low = none) :
    fcntlDupfd limit s oldfd low =
      (low, { s with table := Function.update s.table low.toNat (some d) }) := by
  have hlowest : lowestFree limit s.table low.toNat = some low.toNat := by
    refine (lowestFree_eq_some limit s.table low.toNat low.toNat).mpr ⟨?_, by omega, ?_⟩
    · rw [← lookup_of_nonneg s.table low hlow]
      exact hfree
    · intro k hk hlt
      omega
  rw [fcntlDupfd, hold]
  simp only [hlowest]
  rw [if_neg (by omega), Int.toNat_of_nonneg hlow]

/-- `mydup` gives the lowest free number to what the old descriptor refers
    to. -/
theorem mydup_spec (limit : Nat) (s : State δ) (oldfd : Int) (d : δ) (fd : Nat)
    (hold : lookup s.table oldfd = some d) (hfd : fd < limit) (hfree : s.table fd = none)
    (hused : ∀ k, k < fd → s.table k ≠ none) :
    mydup limit s oldfd =
      ((fd : Int), { s with table := Function.update s.table fd (some d) }) := by
  have hlowest : lowestFree limit s.table (0 : Int).toNat = some fd :=
    (lowestFree_eq_some limit s.table 0 fd).mpr
      ⟨hfree, ⟨Nat.zero_le fd, hfd⟩, fun k _ hlt => hused k hlt⟩
  rw [mydup, fcntlDupfd, hold]
  simp only [hlowest]
  rw [if_neg (by omega)]

/-- What closing the new descriptor leaves: it is free, and the others are what
    they were. -/
def closed (s : State δ) (newfd : Int) : State δ :=
  match fcntlGetfl s newfd with
  | (false, s) => s
  | (true, s) => close s newfd

theorem closed_table (s : State δ) (newfd : Int) (hnew : 0 ≤ newfd) :
    (closed s newfd).table = Function.update s.table newfd.toNat none := by
  have hlookup := lookup_of_nonneg s.table newfd hnew
  unfold closed fcntlGetfl
  cases hopen : lookup s.table newfd with
  | none =>
      rw [hopen] at hlookup
      exact (Function.update_eq_self_iff.mpr hlookup).symm
  | some d =>
      simp only [close, hopen]
      rfl

theorem mydup2_of_open (limit : Nat) (s : State δ) (oldfd newfd : Int) (d : δ)
    (hnew : 0 ≤ newfd) (hold : lookup s.table oldfd = some d) (hne : oldfd ≠ newfd) :
    mydup2 limit s oldfd newfd = fcntlDupfd limit (closed s newfd) oldfd newfd := by
  unfold mydup2 closed
  rw [if_neg (by omega)]
  simp only [fcntlGetfl, hold, if_neg hne]
  cases hopen : lookup s.table newfd with
  | none => rfl
  | some d' => rfl

/-- The old descriptor is still open after the new one has been closed. -/
theorem lookup_closed_old (s : State δ) (oldfd newfd : Int) (d : δ) (hnew : 0 ≤ newfd)
    (hold : lookup s.table oldfd = some d) (hne : oldfd ≠ newfd) :
    lookup (closed s newfd).table oldfd = some d := by
  have hpos := nonneg_of_lookup s.table oldfd d hold
  rw [lookup_of_nonneg _ oldfd hpos] at hold ⊢
  rw [closed_table s newfd hnew, Function.update_of_ne (by omega), hold]

/-- A new number below the limit gets what the old one refers to. -/
theorem mydup2_of_lt (limit : Nat) (s : State δ) (oldfd newfd : Int) (d : δ) (hnew : 0 ≤ newfd)
    (hold : lookup s.table oldfd = some d) (hne : oldfd ≠ newfd) (hlimit : newfd < limit) :
    (mydup2 limit s oldfd newfd).1 = newfd ∧
      (mydup2 limit s oldfd newfd).2.table = Function.update s.table newfd.toNat (some d) := by
  have hfree : lookup (closed s newfd).table newfd = none := by
    rw [lookup_of_nonneg _ newfd hnew, closed_table s newfd hnew, Function.update_self]
  rw [mydup2_of_open limit s oldfd newfd d hnew hold hne,
    fcntlDupfd_self limit _ oldfd newfd d (lookup_closed_old s oldfd newfd d hnew hold hne) hnew
      hlimit hfree]
  refine ⟨rfl, ?_⟩
  simp only [closed_table s newfd hnew, Function.update_idem]

/-- A new number at the limit or above is closed, and the call fails. -/
theorem mydup2_of_le (limit : Nat) (s : State δ) (oldfd newfd : Int) (d : δ) (hnew : 0 ≤ newfd)
    (hold : lookup s.table oldfd = some d) (hne : oldfd ≠ newfd)
    (hlimit : (limit : Int) ≤ newfd) :
    (mydup2 limit s oldfd newfd).1 = -1 ∧
      (mydup2 limit s oldfd newfd).2.table = Function.update s.table newfd.toNat none := by
  rw [mydup2_of_open limit s oldfd newfd d hnew hold hne, fcntlDupfd,
    lookup_closed_old s oldfd newfd d hnew hold hne]
  simp only
  rw [if_pos (.inr hlimit)]
  exact ⟨rfl, closed_table s newfd hnew⟩

/-- If the old descriptor is not open nothing is done. -/
theorem mydup2_of_none (limit : Nat) (s : State δ) (oldfd newfd : Int) (hnew : 0 ≤ newfd)
    (hold : lookup s.table oldfd = none) :
    mydup2 limit s oldfd newfd = (-1, { s with errno := ebadf }) := by
  unfold mydup2
  rw [if_neg (by omega)]
  simp only [fcntlGetfl, hold]

theorem mydup2_self (limit : Nat) (s : State δ) (fd : Int) (d : δ)
    (hold : lookup s.table fd = some d) : mydup2 limit s fd fd = (fd, s) := by
  have hpos := nonneg_of_lookup s.table fd d hold
  unfold mydup2
  rw [if_neg (by omega)]
  simp only [fcntlGetfl, hold, if_true]

/-- The two agree exactly unless the old descriptor is open, and the new one is
    another one that is open at the limit or above. -/
theorem agrees_iff (limit : Nat) (s : State δ) (oldfd newfd : Int) :
    Agrees limit s oldfd newfd ↔
      ¬ (lookup s.table oldfd ≠ none ∧ oldfd ≠ newfd ∧ lookup s.table newfd ≠ none ∧
        (limit : Int) ≤ newfd) := by
  unfold Agrees
  by_cases hneg : newfd < 0
  · have hclosed : lookup s.table newfd = none := if_pos hneg
    refine iff_of_true ?_ (fun h => h.2.2.1 hclosed)
    rw [mydup2, dup2, if_pos hneg, if_pos (.inl hneg)]
    exact ⟨rfl, rfl, fun _ => rfl, fun h => absurd hneg (by omega)⟩
  have hnew : 0 ≤ newfd := by omega
  cases hold : lookup s.table oldfd with
  | none =>
      refine iff_of_true ?_ (fun h => h.1 rfl)
      rw [mydup2_of_none limit s oldfd newfd hnew hold, dup2, if_pos (.inr hold)]
      exact ⟨rfl, rfl, fun _ => rfl, fun _ _ => rfl⟩
  | some d =>
      have hopen : ¬ (newfd < 0 ∨ lookup s.table oldfd = none) := by
        rw [hold]
        exact not_or.mpr ⟨hneg, Option.some_ne_none d⟩
      have herrno : some d = none → (mydup2 limit s oldfd newfd).2.errno = ebadf :=
        fun h => absurd h (Option.some_ne_none d)
      by_cases heq : oldfd = newfd
      · refine iff_of_true ?_ (fun h => h.2.1 heq)
        subst heq
        rw [dup2, if_neg hopen, if_pos rfl]
        rw [mydup2_self limit s oldfd d hold] at herrno ⊢
        exact ⟨rfl, rfl, fun _ => rfl, fun _ => herrno⟩
      · by_cases hlimit : (limit : Int) ≤ newfd
        · -- Both fail, but the new descriptor has been closed.
          have hdup : dup2 limit s.table oldfd newfd = (-1, s.table) := by
            rw [dup2, if_neg hopen, if_neg heq, if_pos hlimit]
          rcases mydup2_of_le limit s oldfd newfd d hnew hold heq hlimit with ⟨hvalue, htable⟩
          rw [hvalue, htable, hdup]
          -- The table is what it was only if the new descriptor was not open.
          have hsame : Function.update s.table newfd.toNat none = s.table ↔
              lookup s.table newfd = none := by
            rw [Function.update_eq_self_iff, lookup_of_nonneg s.table newfd hnew, eq_comm]
          constructor
          · rintro ⟨-, hkept, -⟩ ⟨-, -, hopened, -⟩
            exact hopened (hsame.mp hkept)
          · intro h
            have hkept := hsame.mpr (by
              by_contra hopened
              exact h ⟨Option.some_ne_none d, heq, hopened, hlimit⟩)
            exact ⟨rfl, hkept, fun _ => hkept, fun _ => herrno⟩
        · -- Both give the new number to what the old one refers to.
          refine iff_of_true ?_ (fun h => hlimit h.2.2.2)
          have hdup : dup2 limit s.table oldfd newfd =
              (newfd, Function.update s.table newfd.toNat (some d)) := by
            have hpos := nonneg_of_lookup s.table oldfd d hold
            have hd : s.table oldfd.toNat = some d :=
              (lookup_of_nonneg s.table oldfd hpos).symm.trans hold
            rw [dup2, if_neg hopen, if_neg heq, if_neg hlimit, Descriptors.dup2, hd,
              if_neg (not_or.mpr ⟨Option.some_ne_none d, by omega⟩)]
          rcases mydup2_of_lt limit s oldfd newfd d hnew hold heq (by omega) with
            ⟨hvalue, htable⟩
          rw [hvalue, htable, hdup]
          exact ⟨rfl, rfl, fun h => by omega, fun _ => herrno⟩

/-- The descriptor 5 has been opened before the limit has been lowered to 4,
    and is closed by a call that fails. -/
theorem lowered_wrong :
    ¬ Agrees 4 (⟨fun fd => if fd = 0 ∨ fd = 5 then some fd else none, 0⟩ : State Nat) 0 5 := by
  rintro ⟨-, htable, -⟩
  have hfive := congrFun htable 5
  cases hfive

end Dup

end TlpiPractice
