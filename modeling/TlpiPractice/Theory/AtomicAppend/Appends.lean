import TlpiPractice.Theory.AtomicAppend.Rounds

/-!
# How Many Bytes Are Appended

What is left of the bytes that the processes write when each of them seeks to
the end first.

All bytes are the same, so the file is what it was and some number of them.
A process with `O_APPEND` adds one with each write. One without writes where
the end was when it looked, and if others have written there since then it
adds nothing. So the bytes of those with `O_APPEND` are all in the file. Of the
others it is only known that the end is behind all that a single one has
written, since each time it looks it finds the end behind its last byte.

Each number between is left behind in some run, which is put together from
rounds.

## Main definitions

* `Grown`: What holds when the file has grown by some bytes.

## Theorems

* `grown_step`: A step keeps the invariant.
* `leaves_iff`: The files that can be left behind.
-/

namespace TlpiPractice

namespace AtomicAppend

open ByteFile Runs

variable {ι : Type} [Fintype ι]

/-- What holds when the file has grown by `k` bytes. -/
structure Grown (args : ι → Invocation) (file : List UInt8) (k : Nat) (s : State ι) : Prop where
  contents : s.file = file ++ List.replicate k 120
  counted : ∀ p, Counted (args p) (s.procs p)
  each : ∀ p, (s.procs p).i ≤ k
  found : ∀ p, (s.procs p).pc = .writing →
    ∃ m, (s.procs p).offset = file.length + m ∧ (s.procs p).i ≤ m ∧ m ≤ k
  appended : appended args (fun p => (s.procs p).i) ≤ k
  le : k ≤ ∑ p, (s.procs p).i

section Steps

variable [DecidableEq ι] (args : ι → Invocation) (file : List UInt8)

/-- One process has changed, and the file may have grown. -/
theorem grown_update (k k' : Nat) (s : State ι) (p : ι) (q : Process) (file' : List UInt8)
    (h : Grown args file k s) (hfile : file' = file ++ List.replicate k' 120) (hk : k ≤ k')
    (hcounted : Counted (args p) q) (heach : q.i ≤ k')
    (hfound : q.pc = .writing → ∃ m, q.offset = file.length + m ∧ q.i ≤ m ∧ m ≤ k')
    (happended : (args p).append = true → q.i + k ≤ (s.procs p).i + k')
    (hle : k' + (s.procs p).i ≤ k + q.i) :
    Grown args file k' ⟨file', Function.update s.procs p q⟩ := by
  refine ⟨hfile, ?_, ?_, ?_, ?_, ?_⟩
  · exact forall_update (P := fun u => Counted (args u)) s.procs p q
      (fun u _ => h.counted u) hcounted
  · exact forall_update (P := fun _ r => r.i ≤ k') s.procs p q
      (fun u _ => Nat.le_trans (h.each u) hk) heach
  · refine forall_update (P := fun _ r => r.pc = .writing →
      ∃ m, r.offset = file.length + m ∧ r.i ≤ m ∧ m ≤ k') s.procs p q (fun u _ hu => ?_) hfound
    rcases h.found u hu with ⟨m, hoffset, him, hmk⟩
    exact ⟨m, hoffset, him, Nat.le_trans hmk hk⟩
  · have hsum := sum_update (fun u r => if (args u).append then r.i else 0) s.procs p q
    have hold : (∑ u, if (args u).append then (s.procs u).i else 0) ≤ k := h.appended
    have hnew : (∑ u, if (args u).append then (Function.update s.procs p q u).i else 0) ≤ k' := by
      by_cases ha : (args p).append = true
      · have hgrow := happended ha
        simp only [ha, if_true] at hsum
        omega
      · simp only [ha, if_false, Bool.false_eq_true] at hsum
        omega
    exact hnew
  · have hsum := sum_update (fun _ r => r.i) s.procs p q
    have hold := h.le
    have hnew : k' ≤ ∑ u, (Function.update s.procs p q u).i := by omega
    exact hnew

variable (hseeks : ∀ p, (args p).seeks = true)
include hseeks

omit [Fintype ι] [DecidableEq ι] in
theorem head_ne_writing (p : ι) (i : Nat) : head (args p) i ≠ .writing := by
  unfold head
  rw [hseeks p]
  split <;> exact Pc.noConfusion

/-- A step keeps the invariant, and the file grows by one byte at most. -/
theorem grown_step (s : State ι) (e : Event ι) (s' : State ι) (h : ∃ k, Grown args file k s)
    (hstep : Step args s e s') : ∃ k, Grown args file k s' := by
  rcases h with ⟨k, h⟩
  rcases step_cases args s s' e hstep with ⟨p, hpc, hs'⟩ | ⟨p, hpc, hs'⟩ | ⟨p, hpc, hs'⟩
  · -- The end is where all bytes that have been added are before it.
    have hcounted := h.counted p
    rw [Counted, hpc] at hcounted
    refine ⟨k, hs' ▸ grown_update args file k k s p _ _ h h.contents (Nat.le_refl k) hcounted
      (h.each p) (fun _ => ⟨k, ?_, h.each p, Nat.le_refl k⟩) (fun _ => Nat.le_refl _)
      (Nat.le_of_eq rfl)⟩
    rw [Process.lseek, h.contents, List.length_append, List.length_replicate]
  · have hcounted := h.counted p
    rw [Counted, hpc] at hcounted
    have hlater := counted_head (args p) ((s.procs p).i + 1)
      (target (args p) s.file (s.procs p) + 1) hcounted
    have hnot : ((s.procs p).write (args p) s.file).pc = .writing →
        ∃ m, ((s.procs p).write (args p) s.file).offset = file.length + m ∧
          ((s.procs p).write (args p) s.file).i ≤ m ∧ m ≤ k + 1 :=
      fun hc => absurd hc (head_ne_writing args hseeks p _)
    have heach := h.each p
    have hi : ((s.procs p).write (args p) s.file).i = (s.procs p).i + 1 := rfl
    have hlen : s.file.length = file.length + k := by
      rw [h.contents, List.length_append, List.length_replicate]
    have hgrow : target (args p) s.file (s.procs p) = s.file.length →
        Grown args file (k + 1) s' := by
      intro ht
      refine hs' ▸ grown_update args file k (k + 1) s p _ _ h ?_ (Nat.le_succ k) hlater ?_ hnot ?_
        ?_
      · rw [ht, writeAt_length, h.contents, replicate_append_x]
      · exact Nat.succ_le_succ heach
      · exact fun _ => by omega
      · omega
    by_cases ha : (args p).append = true
    · exact ⟨k + 1, hgrow (by rw [target, if_pos ha])⟩
    · have htarget : target (args p) s.file (s.procs p) = (s.procs p).offset := by
        rw [target, if_neg ha]
      rcases h.found p hpc with ⟨m, hoffset, him, hmk⟩
      by_cases hm : m = k
      · exact ⟨k + 1, hgrow (by omega)⟩
      · -- Others have written since this one has looked.
        refine ⟨k, hs' ▸ grown_update args file k k s p _ _ h ?_ (Nat.le_refl k) hlater ?_ ?_ ?_
          ?_⟩
        · rw [htarget, hoffset, h.contents]
          exact writeAt_x_of_lt file m k (by omega)
        · omega
        · exact fun hc => absurd hc (head_ne_writing args hseeks p _)
        · exact fun hc => absurd hc ha
        · omega
  · exact ⟨k, hs' ▸ grown_update args file k k s p _ _ h h.contents (Nat.le_refl k) trivial
      (h.each p) (fun hc => Pc.noConfusion hc) (fun _ => Nat.le_refl _) (Nat.le_of_eq rfl)⟩

omit [DecidableEq ι] in
theorem grown_initial : Grown args file 0 (initial args file) where
  contents := (List.append_nil file).symm
  counted := counted_initial args file
  each := fun _ => Nat.le_refl 0
  found := fun p hpc => absurd hpc (head_ne_writing args hseeks p 0)
  appended := by
    have hzero : appended args (fun _ => 0) = 0 := Finset.sum_eq_zero (fun p _ => ite_self 0)
    exact Nat.le_of_eq hzero
  le := Nat.zero_le _

end Steps

/-- If every process has a fourth argument, then in every state the file has
    grown by a number of bytes that is at least the number of writes of each
    process, at least the number of all writes with `O_APPEND`, and at most the
    number of all writes. When no call fails, all such numbers are possible. -/
theorem leaves_iff [DecidableEq ι] (args : ι → Invocation) (file : List UInt8)
    (hseeks : ∀ p, (args p).seeks = true) :
    (∀ tr, AllSteps (Step args) (initial args file) tr →
      Always (fun s => ∃ k, s.file = file ++ List.replicate k 120 ∧ (∀ p, (s.procs p).i ≤ k) ∧
        appended args (fun p => (s.procs p).i) ≤ k ∧ k ≤ ∑ p, (s.procs p).i)
        (initial args file) tr) ∧
      ∀ result, Leaves args file result ↔
        ∃ k, result = file ++ List.replicate k 120 ∧ (∀ p, times (args p) ≤ k) ∧
          appended args (fun p => times (args p)) ≤ k ∧ k ≤ ∑ p, times (args p) := by
  have hstep := grown_step args file hseeks
  have hinitial : ∃ k, Grown args file k (initial args file) :=
    ⟨0, grown_initial args file hseeks⟩
  refine ⟨fun tr hrun => ?_, fun result => ⟨fun h => ?_, fun h => ?_⟩⟩
  · refine always_mono (fun s h => ?_) _ tr (always_of_allSteps hstep _ tr hinitial hrun)
    rcases h with ⟨k, h⟩
    exact ⟨k, h.contents, h.each, h.appended, h.le⟩
  · rcases exists_of_canReach hstep hinitial h with ⟨s, ⟨k, hg⟩, hended, rfl⟩
    have htimes : ∀ p, (s.procs p).i = times (args p) := fun p =>
      eq_times_of_ended (args p) _ (hg.counted p) (hended p)
    have hall : (fun p => (s.procs p).i) = fun p => times (args p) := funext htimes
    refine ⟨k, hg.contents, fun p => htimes p ▸ hg.each p, ?_, ?_⟩
    · rw [← hall]
      exact hg.appended
    · rw [← hall]
      exact hg.le
  · rcases h with ⟨k, rfl, heach, happended, hsum⟩
    refine canReach_append args hseeks k file (fun _ => 0) 0 _ (fun p _ => heach p) happended
      hsum ?_
    exact ⟨rfl, fun _ => rfl, fun _ _ => rfl, fun _ hp => absurd hp List.not_mem_nil⟩

/-- One process with an `x` and one with a `y`. -/
def xAndY : Bool → Invocation
  | true => { numBytes := 2, fourth := some (.ofBytes [120]) }
  | false => { numBytes := 3, fourth := some (.ofBytes [121]) }

theorem leaves_iff_xAndY :
    (∀ tr, AllSteps (Step xAndY) (initial xAndY []) tr →
      Always (fun s => ∃ k, s.file = [] ++ List.replicate k 120 ∧ (∀ p, (s.procs p).i ≤ k) ∧
        appended xAndY (fun p => (s.procs p).i) ≤ k ∧ k ≤ ∑ p, (s.procs p).i)
        (initial xAndY []) tr) ∧
      ∀ result, Leaves xAndY [] result ↔
        ∃ k, result = [] ++ List.replicate k 120 ∧ (∀ p, times (xAndY p) ≤ k) ∧
          appended xAndY (fun p => times (xAndY p)) ≤ k ∧ k ≤ ∑ p, times (xAndY p) :=
  leaves_iff xAndY [] (fun p => by cases p <;> rfl)

end AtomicAppend

end TlpiPractice
