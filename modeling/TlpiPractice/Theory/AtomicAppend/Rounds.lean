import Mathlib.Algebra.BigOperators.Group.Finset.Piecewise
import Mathlib.Algebra.Order.BigOperators.Group.Finset
import TlpiPractice.Theory.AtomicAppend.Calls

/-!
# Rounds of the Appending Processes

Rounds in which some processes look for the end of the file and then all of
them write, so that the file gets longer by one byte, however many they are.
Only one of them may have `O_APPEND`, since its byte is always one more. It
writes first.

If the bytes still to be added are as many as some process still has to write,
this one must be in the round. There are never too many of these, since
together they write at least as often as there are bytes to be lost.

## Main definitions

* `appended`: What is due to the processes with `O_APPEND`.
* `Standing`: Where all processes are at some time in a round.
* `less`: What is left after a round.

## Theorems

* `exists_round`: Which processes can be taken for a round.
* `canReach_round`: A round.
* `canReach_append`: Rounds that add any number of bytes that is possible.
-/

namespace TlpiPractice

namespace AtomicAppend

open ByteFile Runs

variable {ι : Type}

/-- How much of a sum over all processes is due to those with `O_APPEND`. -/
def appended [Fintype ι] (args : ι → Invocation) (i : ι → Nat) : Nat :=
  ∑ p, if (args p).append then i p else 0

section Choice

variable [Fintype ι] [DecidableEq ι] (b : ι → Bool) (r : ι → Nat) (d : Nat)

/-- What is left after a round. -/
def less (r : ι → Nat) (w : Finset ι) (q : ι) : Nat := if q ∈ w then r q - 1 else r q

theorem sum_less (w : Finset ι) (hw : ∀ q ∈ w, 0 < r q) :
    ∑ q, less r w q + w.card = ∑ q, r q := by
  have hone : ∀ q, r q = less r w q + if q ∈ w then 1 else 0 := by
    intro q
    unfold less
    by_cases hq : q ∈ w
    · have := hw q hq
      simp only [hq, if_true]
      omega
    · simp only [hq, if_false, Nat.add_zero]
  have hcard : ∑ q, (if q ∈ w then 1 else 0) = w.card := by
    rw [Finset.sum_ite_mem, Finset.univ_inter, Finset.card_eq_sum_ones]
  rw [← hcard, ← Finset.sum_add_distrib]
  exact Finset.sum_congr rfl (fun q _ => (hone q).symm)

theorem sum_less_marked_le (w : Finset ι) :
    ∑ q, (if b q then less r w q else 0) ≤ ∑ q, (if b q then r q else 0) := by
  refine Finset.sum_le_sum (fun q _ => ?_)
  unfold less
  split
  · split <;> omega
  · exact Nat.le_refl 0

/-- Those that need all `d + 1` bytes, and the marked ones, have a sum. -/
theorem sum_tight_le (t : Finset ι) (ht : ∀ q ∈ t, b q = false ∧ r q = d + 1) :
    ∑ q, (if b q then r q else 0) + t.card * (d + 1) ≤ ∑ q, r q := by
  have hcard : ∑ q, (if q ∈ t then d + 1 else 0) = t.card * (d + 1) := by
    rw [Finset.sum_ite_mem, Finset.univ_inter, Finset.sum_const_nat (fun _ _ => rfl)]
  rw [← hcard, ← Finset.sum_add_distrib]
  refine Finset.sum_le_sum (fun q _ => ?_)
  by_cases hq : q ∈ t
  · rcases ht q hq with ⟨hb, hr⟩
    simp only [hb, hq, if_true, Bool.false_eq_true, if_false]
    omega
  · simp only [hq, if_false, Nat.add_zero]
    split <;> omega

/-- A round of the fewest processes, at most one of which is marked. -/
theorem exists_round (heach : ∀ q, b q = false → r q ≤ d + 1)
    (hmarked : ∑ q, (if b q then r q else 0) ≤ d + 1) (hsum : d + 1 ≤ ∑ q, r q) :
    ∃ p, ∃ w : Finset ι, p ∈ w ∧ (∀ q ∈ w, 0 < r q) ∧ (∀ q ∈ w, q ≠ p → b q = false) ∧
      (∀ q, b q = false → less r w q ≤ d) ∧
      ∑ q, (if b q then less r w q else 0) ≤ d ∧ d ≤ ∑ q, less r w q := by
  have htight : ∀ q ∈ Finset.univ.filter (fun q => b q = false ∧ r q = d + 1),
      b q = false ∧ r q = d + 1 := fun q hq => (Finset.mem_filter.mp hq).2
  have hrest : ∀ w : Finset ι, Finset.univ.filter (fun q => b q = false ∧ r q = d + 1) ⊆ w →
      ∀ q, b q = false → less r w q ≤ d := by
    intro w hw q hq
    have := heach q hq
    unfold less
    split
    · omega
    · rename_i hnot
      have hne : r q ≠ d + 1 := fun hr =>
        hnot (hw (Finset.mem_filter.mpr ⟨Finset.mem_univ q, hq, hr⟩))
      omega
  have hroom := sum_tight_le b r d _ htight
  revert hroom htight hrest
  generalize Finset.univ.filter (fun q => b q = false ∧ r q = d + 1) = t
  intro htight hrest hroom
  have hpos : ∀ q ∈ t, 0 < r q := fun q hq => by
    have := (htight q hq).2
    omega
  by_cases hall : ∑ q, (if b q then r q else 0) = d + 1
  · -- A marked process must go on.
    have hne : ∑ q, (if b q then r q else 0) ≠ 0 := by omega
    obtain ⟨p, -, hp⟩ := Finset.exists_ne_zero_of_sum_ne_zero hne
    have hb : b p = true := by
      by_contra hb
      exact hp (if_neg hb)
    rw [if_pos hb] at hp
    have hpt : p ∉ t := fun hc => Bool.noConfusion ((htight p hc).1.symm.trans hb)
    have hw : ∀ q ∈ insert p t, 0 < r q := by
      intro q hq
      rcases Finset.mem_insert.mp hq with rfl | hq
      · exact Nat.pos_of_ne_zero hp
      · exact hpos q hq
    refine ⟨p, insert p t, Finset.mem_insert_self p t, hw, fun q hq hne => ?_,
      hrest _ (Finset.subset_insert p t), ?_, ?_⟩
    · exact (htight q ((Finset.mem_insert.mp hq).resolve_left hne)).1
    · have hone : ∑ q, (if b q then less r (insert p t) q else 0) + 1 ≤
          ∑ q, (if b q then r q else 0) := by
        have hsingle : ∑ q, (if q = p then 1 else 0) = 1 := by
          rw [Finset.sum_ite_eq', if_pos (Finset.mem_univ p)]
        rw [← hsingle, ← Finset.sum_add_distrib]
        refine Finset.sum_le_sum (fun q _ => ?_)
        by_cases hq : q = p
        · subst hq
          simp only [hb, less, Finset.mem_insert_self, if_true]
          omega
        · simp only [hq, if_false, Nat.add_zero, less]
          split
          · split <;> omega
          · exact Nat.le_refl 0
      omega
    · have hless := sum_less r _ hw
      rw [Finset.card_insert_of_notMem hpt] at hless
      have hcard : t.card ≤ t.card * (d + 1) := Nat.le_mul_of_pos_right _ (Nat.succ_pos d)
      omega
  · have hmarked' : ∀ w : Finset ι, ∑ q, (if b q then less r w q else 0) ≤ d := fun w => by
      have := sum_less_marked_le b r w
      omega
    rcases t.eq_empty_or_nonempty with rfl | ⟨p, hp⟩
    · -- No process must go on, so any will do.
      obtain ⟨p, -, hp⟩ := Finset.exists_ne_zero_of_sum_ne_zero
        (Nat.pos_iff_ne_zero.mp (Nat.lt_of_lt_of_le (Nat.succ_pos d) hsum))
      have hw : ∀ q ∈ ({p} : Finset ι), 0 < r q := fun q hq =>
        Finset.mem_singleton.mp hq ▸ Nat.pos_of_ne_zero hp
      refine ⟨p, {p}, Finset.mem_singleton_self p, hw,
        fun q hq hne => absurd (Finset.mem_singleton.mp hq) hne,
        hrest _ (Finset.empty_subset _), hmarked' _, ?_⟩
      have hless := sum_less r _ hw
      rw [Finset.card_singleton] at hless
      omega
    · refine ⟨p, t, hp, hpos, fun q hq _ => (htight q hq).1, hrest t (Finset.Subset.refl t),
        hmarked' t, ?_⟩
      have hless := sum_less r t hpos
      have hcard : 0 < t.card := Finset.card_pos.mpr ⟨p, hp⟩
      have hmul : t.card + d ≤ t.card * (d + 1) := by
        rw [Nat.mul_succ]
        have : d ≤ t.card * d := Nat.le_mul_of_pos_left d hcard
        omega
      omega

end Choice


/-! ### The runs -/

/-- All processes are at the heads of their loops, but for those in `w`, which
    have found the end at `found`. -/
structure Standing (args : ι → Invocation) (f : List UInt8) (i : ι → Nat) (found : Nat)
    (w : List ι) (s : State ι) : Prop where
  contents : s.file = f
  turn : ∀ p, (s.procs p).i = i p
  away : ∀ p, p ∉ w → (s.procs p).pc = head (args p) (i p)
  within : ∀ p ∈ w, (s.procs p).pc = .writing ∧ (s.procs p).offset = found

/-- The counters after all in `w` have written. -/
def advance (w : List ι) [DecidableEq ι] (i : ι → Nat) (p : ι) : Nat :=
  if p ∈ w then i p + 1 else i p

section Runs

variable [DecidableEq ι] (args : ι → Invocation)

/-- One more process looks for the end. -/
theorem canReach_seek (f : List UInt8) (i : ι → Nat) (w : List ι) (q : ι) (s : State ι)
    (hseeks : (args q).seeks = true) (hq : q ∉ w) (hactive : i q < times (args q))
    (h : Standing args f i f.length w s) :
    CanReach (Step args) s (Standing args f i f.length (q :: w)) := by
  have hpc : (s.procs q).pc = .seeking := by
    rw [h.away q hq, head_of_lt _ _ hactive, if_pos hseeks]
  -- It stands at the end that all in `w` have found.
  refine canReach_step (.call q) _ ⟨.inl hpc, rfl⟩ (canReach_here ?_)
  rw [next_seeking args s q hpc]
  refine ⟨h.contents, ?_, ?_, ?_⟩
  · exact forall_update (P := fun u r => r.i = i u) s.procs q _ (fun u _ => h.turn u) (h.turn q)
  · refine forall_update (P := fun u r => u ∉ q :: w → r.pc = head (args u) (i u)) s.procs q _
      (fun u _ hu => ?_) (fun hc => absurd List.mem_cons_self hc)
    exact h.away u (fun hc => hu (List.mem_cons_of_mem q hc))
  · refine forall_update (P := fun u r => u ∈ q :: w → r.pc = .writing ∧ r.offset = f.length)
      s.procs q _ (fun u hne hu => ?_) (fun _ => ⟨rfl, ?_⟩)
    · exact h.within u ((List.mem_cons.mp hu).resolve_left hne)
    · rw [Process.lseek, h.contents]

/-- A process that has found the end writes. -/
theorem canReach_write (f : List UInt8) (i : ι → Nat) (found : Nat) (w : List ι) (q : ι)
    (s : State ι) (hq : q ∉ w) (h : Standing args f i found (q :: w) s) :
    CanReach (Step args) s
      (Standing args (writeAt f (if (args q).append then f.length else found) x)
        (advance [q] i) found w) := by
  rcases h.within q List.mem_cons_self with ⟨hpc, hoffset⟩
  have htarget : target (args q) s.file (s.procs q) =
      if (args q).append then f.length else found := by
    rw [target, h.contents, hoffset]
  refine canReach_step (.call q) _ ⟨.inr hpc, rfl⟩ (canReach_here ?_)
  rw [next_writing args s q hpc, htarget, h.contents]
  have hturn : ∀ u, u ≠ q → advance [q] i u = i u := fun u hu =>
    if_neg (fun hc => hu (List.mem_singleton.mp hc))
  have hself : advance [q] i q = (s.procs q).i + 1 := by
    rw [advance, if_pos (List.mem_singleton_self q), h.turn q]
  refine ⟨rfl, ?_, ?_, ?_⟩
  · refine forall_update (P := fun u r => r.i = advance [q] i u) s.procs q _ (fun u hu => ?_)
      hself.symm
    rw [hturn u hu]
    exact h.turn u
  · refine forall_update (P := fun u r => u ∉ w → r.pc = head (args u) (advance [q] i u)) s.procs q
      _ (fun u hu hw => ?_) (fun _ => ?_)
    · rw [hturn u hu]
      exact h.away u (fun hc => hw ((List.mem_cons.mp hc).resolve_left hu))
    · rw [hself]
      rfl
  · refine forall_update (P := fun u r => u ∈ w → r.pc = .writing ∧ r.offset = found) s.procs q _
      (fun u _ hw => h.within u (List.mem_cons_of_mem q hw)) (fun hw => absurd hw hq)

theorem canReach_seeks (hseeks : ∀ p, (args p).seeks = true) (f : List UInt8) (i : ι → Nat)
    (found : Nat) (w : List ι) (s : State ι) (hnodup : w.Nodup)
    (hactive : ∀ q ∈ w, i q < times (args q)) (h : Standing args f i found [] s) :
    CanReach (Step args) s (Standing args f i f.length w) := by
  induction w with
  | nil => exact canReach_here ⟨h.contents, h.turn, h.away, fun p hp => absurd hp List.not_mem_nil⟩
  | cons q w ih =>
      rcases List.nodup_cons.mp hnodup with ⟨hq, hw⟩
      refine canReach_trans (ih hw (fun u hu => hactive u (List.mem_cons_of_mem q hu))) ?_
      exact fun s' => canReach_seek args f i w q s' (hseeks q) hq (hactive q List.mem_cons_self)

theorem advance_cons (w : List ι) (q : ι) (i : ι → Nat) (hq : q ∉ w) :
    advance w (advance [q] i) = advance (q :: w) i := by
  funext p
  unfold advance
  by_cases hp : p = q
  · subst hp
    simp only [hq, if_false, List.mem_cons, true_or, if_true]
  · simp only [hp, List.mem_cons, List.not_mem_nil, or_self, false_or, if_false]

/-- All that have found the end where now one byte is write this byte again. -/
theorem canReach_writes (f : List UInt8) (i : ι → Nat) (w : List ι) (s : State ι)
    (hnodup : w.Nodup) (hplain : ∀ q ∈ w, (args q).append = false)
    (h : Standing args (f ++ x) i f.length w s) :
    CanReach (Step args) s (Standing args (f ++ x) (advance w i) f.length []) := by
  induction w generalizing i s with
  | nil => exact canReach_here h
  | cons q w ih =>
      rcases List.nodup_cons.mp hnodup with ⟨hq, hw⟩
      refine canReach_trans (canReach_write args _ i f.length w q s hq h) (fun s' h' => ?_)
      have hsame : writeAt (f ++ x) f.length x = f ++ x := writeAt_x_of_lt f 0 1 Nat.one_pos
      rw [hplain q List.mem_cons_self, if_neg (by decide), hsame] at h'
      rw [← advance_cons w q i hq]
      exact ih _ s' hw (fun u hu => hplain u (List.mem_cons_of_mem q hu)) h'

/-- A round in which only the first process may have `O_APPEND`. -/
theorem canReach_round (hseeks : ∀ p, (args p).seeks = true) (f : List UInt8) (i : ι → Nat)
    (found : Nat) (p : ι) (w : List ι) (s : State ι) (hnodup : (p :: w).Nodup)
    (hactive : ∀ q ∈ p :: w, i q < times (args q)) (hplain : ∀ q ∈ w, (args q).append = false)
    (h : Standing args f i found [] s) :
    CanReach (Step args) s (Standing args (f ++ x) (advance (p :: w) i) f.length []) := by
  rcases List.nodup_cons.mp hnodup with ⟨hp, hw⟩
  refine canReach_trans (canReach_seeks args hseeks f i found (p :: w) s hnodup hactive h) ?_
  refine fun s₁ h₁ => canReach_trans (canReach_write args f i f.length w p s₁ hp h₁) ?_
  intro s₂ h₂
  rw [ite_self, writeAt_length] at h₂
  rw [← advance_cons w p i hp]
  exact canReach_writes args f _ w s₂ hw hplain h₂

variable [Fintype ι]

/-- What can be added from where all processes are at the heads of their loops. -/
theorem canReach_append (hseeks : ∀ p, (args p).seeks = true) (d : Nat) (f : List UInt8)
    (i : ι → Nat) (found : Nat) (s : State ι)
    (heach : ∀ p, (args p).append = false → times (args p) - i p ≤ d)
    (happended : appended args (fun p => times (args p) - i p) ≤ d)
    (hsum : d ≤ ∑ p, (times (args p) - i p)) (h : Standing args f i found [] s) :
    CanReach (Step args) s
      (fun s' => (∀ p, (s'.procs p).pc = .ended) ∧ s'.file = f ++ List.replicate d 120) := by
  induction d generalizing f i found s with
  | zero =>
      refine canReach_here ⟨fun p => ?_, ?_⟩
      · rw [h.away p List.not_mem_nil, head_of_le]
        by_cases ha : (args p).append = true
        · have hone := Finset.single_le_sum (f := fun p =>
            if (args p).append then times (args p) - i p else 0) (fun _ _ => Nat.zero_le _)
            (Finset.mem_univ p)
          have hle := Nat.le_trans hone happended
          simp only [ha, if_true] at hle
          omega
        · have := heach p (Bool.not_eq_true _ ▸ ha)
          omega
      · rw [h.contents, List.replicate_zero, List.append_nil]
  | succ d ih =>
      obtain ⟨p, w, hp, hactive, hplain, heach', happended', hsum'⟩ :=
        exists_round (fun q => (args q).append) (fun q => times (args q) - i q) d heach happended
          hsum
      have hmem : ∀ q, q ∈ p :: (w.erase p).toList ↔ q ∈ w := by
        intro q
        rw [List.mem_cons, Finset.mem_toList, Finset.mem_erase]
        by_cases hq : q = p
        · exact ⟨fun _ => hq ▸ hp, fun _ => .inl hq⟩
        · exact ⟨fun h => (h.resolve_left hq).2, fun h => .inr ⟨hq, h⟩⟩
      have hnodup : (p :: (w.erase p).toList).Nodup := by
        refine List.nodup_cons.mpr ⟨?_, Finset.nodup_toList _⟩
        rw [Finset.mem_toList]
        exact Finset.notMem_erase p w
      have hleft : ∀ q, times (args q) - advance (p :: (w.erase p).toList) i q =
          less (fun q => times (args q) - i q) w q := by
        intro q
        unfold advance less
        by_cases hq : q ∈ w
        · rw [if_pos ((hmem q).mpr hq), if_pos hq]
          exact Nat.sub_add_eq (times (args q)) (i q) 1
        · rw [if_neg (fun hc => hq ((hmem q).mp hc)), if_neg hq]
      refine canReach_trans (canReach_round args hseeks f i found p (w.erase p).toList s hnodup
        (fun q hq => Nat.lt_of_sub_pos (hactive q ((hmem q).mp hq))) (fun q hq => ?_) h) ?_
      · rw [Finset.mem_toList, Finset.mem_erase] at hq
        exact hplain q hq.2 hq.1
      · intro s' h'
        have hrest := ih (f ++ x) _ f.length s' (fun q hq => ?_) ?_ ?_ h'
        · rw [List.append_assoc, x, ← List.replicate_one, List.replicate_append_replicate,
            Nat.add_comm] at hrest
          exact hrest
        · rw [hleft q]
          exact heach' q hq
        · simp only [hleft]
          exact happended'
        · simp only [hleft]
          exact hsum'

end Runs

end AtomicAppend

end TlpiPractice
