import TlpiPractice.Theory.Getcwd.Names

/-!
# Calling It Again

What a call of `m_getcwd` leaves behind.

The walk up changes the current directory, and nothing changes it back. So
every call ends in the root, and the next one is made from there. In the root
there is no name to copy, and the call returns its buffer as it was given.

## Main definitions

* `calls`: Successive calls.
* `Repeats`: All of them leave the current directory alone and return the
  path, if it fits.

## Theorems

* `mGetcwd_ends_at_root`: Where a call leaves the current directory.
* `repeats_iff_root`: When successive calls are as they should be.
* `repeats_fails`: Two calls from a directory below the root.
-/

namespace TlpiPractice

namespace Getcwd

open DirTree Memory

section Calls

variable {δ ο : Type*} (T : Tree δ ο) (V : View T)

/-- Successive calls with one size, each with a buffer of its own, and made
    where the one before has left the current directory. None follows a call
    that does not return. -/
def calls (rounds size : Nat) : δ → List (Nat → UInt8) → List (δ × Except Stop (Ret × Buffer))
  | _, [] => []
  | cwd, buf :: bufs =>
      match mGetcwd T V rounds cwd buf size with
      | (top, .error e) => [(top, .error e)]
      | (top, .ok r) => (top, .ok r) :: calls rounds size top bufs

/-- Every call leaves the current directory as it was, and returns the path if
    it fits. -/
def Repeats (path : List UInt8) (rounds size : Nat) (cwd : δ) (bufs : List (Nat → UInt8)) : Prop :=
  ∀ r ∈ calls T V rounds size cwd bufs,
    r.1 = cwd ∧ (path.length < size → Right path size r.2)

theorem mGetcwd_ends_at_root (names : List CString) (cwd : δ) (h : PathTo T names cwd)
    (rounds : Nat) (hrounds : names.length < rounds) (buf : Nat → UInt8) (size : Nat) :
    (mGetcwd T V rounds cwd buf size).1 = T.root := by
  rw [mGetcwd_eq T V names cwd h rounds hrounds]

theorem mem_calls_head (rounds size : Nat) (cwd : δ) (buf : Nat → UInt8)
    (bufs : List (Nat → UInt8)) :
    mGetcwd T V rounds cwd buf size ∈ calls T V rounds size cwd (buf :: bufs) := by
  unfold calls
  split
  · next top e hcall =>
      rw [hcall]
      exact List.mem_cons_self
  · next top r hcall =>
      rw [hcall]
      exact List.mem_cons_self

/-- In the root, every call returns its buffer as it is. -/
theorem calls_root (rounds size : Nat) (hrounds : 0 < rounds) (bufs : List (Nat → UInt8)) :
    calls T V rounds size T.root bufs = bufs.map (fun buf => (T.root, .ok (.path, ⟨buf, 0⟩))) := by
  induction bufs with
  | nil => rfl
  | cons buf bufs ih =>
      unfold calls
      rw [mGetcwd_eq T V [] T.root .root rounds hrounds]
      simp only [concat]
      rw [ih, List.map_cons]

/-- For every tree, every current directory and every size: of one or more
    successive calls, all leave the current directory alone and return its path
    just when it is the root and every buffer holds the path of the root
    beforehand. -/
theorem repeats_iff_root (cwd : δ) (size : Nat) (bufs : List (Nat → UInt8)) (hbufs : bufs ≠ []) :
    ∃ names, PathTo T names cwd ∧ ∀ rounds, names.length < rounds →
      (Repeats T V (absPath names) rounds size cwd bufs ↔
        cwd = T.root ∧ (1 < size → ∀ buf ∈ bufs, load buf 0 2 = [47, 0])) := by
  rcases exists_pathTo T cwd with ⟨names, hpath⟩
  refine ⟨names, hpath, fun rounds hrounds => ?_⟩
  by_cases hroot : cwd = T.root
  · -- In the root the buffers are returned as they are.
    have hnames := (pathTo_nil_iff T names cwd hpath).mpr hroot
    have hcalls := calls_root T V rounds size (by omega) bufs
    rw [hnames, hroot]
    unfold Repeats
    rw [hcalls]
    constructor
    · intro h
      refine ⟨rfl, fun hsize buf hbuf => ?_⟩
      have hright := ((h _ (List.mem_map_of_mem hbuf)).2 hsize).2
      have hfits : (absPath []).length < size := hsize
      rw [if_pos hfits] at hright
      exact hright.2
    · intro h r hr
      rcases List.mem_map.mp hr with ⟨buf, hbuf, rfl⟩
      refine ⟨rfl, fun hsize => ⟨Nat.zero_le size, ?_⟩⟩
      rw [if_pos hsize]
      exact ⟨rfl, h.2 hsize buf hbuf⟩
  · refine ⟨fun h => ?_, fun h => absurd h.1 hroot⟩
    cases bufs with
    | nil => exact absurd rfl hbufs
    | cons buf bufs =>
        -- The first call has left the current directory.
        have hleft := (h _ (mem_calls_head T V rounds size cwd buf bufs)).1
        rw [mGetcwd_ends_at_root T V names cwd hpath rounds hrounds] at hleft
        exact absurd hleft.symm hroot

end Calls

/-- Two calls, one level below the root. -/
theorem repeats_fails :
    PathTo (chain 1) [longName] (Fin.last 1) ∧
      ¬ Repeats (chain 1) (chainView 1) (absPath [longName]) 2 300 (Fin.last 1)
        [fun _ => 0, fun _ => 0] := by
  have hpath : PathTo (chain 1) [longName] (Fin.last 1) := pathTo_chain 1 1 (Nat.lt_succ_self 1)
  refine ⟨hpath, fun h => ?_⟩
  have hleft := (h _ (mem_calls_head (chain 1) (chainView 1) 2 300 _ _ _)).1
  rw [mGetcwd_ends_at_root (chain 1) (chainView 1) _ _ hpath 2 (Nat.lt_succ_self 1)] at hleft
  exact last_ne_root 0 hleft.symm

theorem repeats_iff_root_twoCalls :
    ∃ names, PathTo (chain 1) names (Fin.last 1) ∧ ∀ rounds, names.length < rounds →
      (Repeats (chain 1) (chainView 1) (absPath names) rounds 300 (Fin.last 1)
          [fun _ => 0, fun _ => 0] ↔
        Fin.last 1 = (chain 1).root ∧
          (1 < 300 → ∀ buf ∈ [fun _ => 0, fun _ => 0], load buf 0 2 = [47, 0])) :=
  repeats_iff_root (chain 1) (chainView 1) (Fin.last 1) 300 [fun _ => 0, fun _ => 0]
    (List.cons_ne_nil _ _)

end Getcwd

end TlpiPractice
