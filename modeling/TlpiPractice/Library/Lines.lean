import Mathlib.Data.List.Forall2
import Mathlib.Tactic.Common

/-!
# Lines of a Stream

What it means to cut a stream into lines, with a limit on the length of each.

A line ends before the next delimiter, at its limit, or at the end of the
stream, whichever comes first. Taking it also takes the delimiter, if that is
what it ended at. `Cut` says that a list of lines has been taken one after the
other, and what is left of the stream then.

A reader that keeps part of the stream in a buffer can serve a line out of the
buffer alone when the line ends in it. `EndsAt` is the case in which this also
uses the buffer up, and `EndsInside` the case in which it does not.

## Main definitions

* `line`: The next line of a stream.
* `taken`: The line with its delimiter.
* `Cut`: Lines that have been taken from a stream, and the rest of it.
* `pieces`: All that is taken, one after the other.
* `EndsAt`, `EndsInside`: The next line ends where a part of the stream does,
  or before.

## Theorems

* `cut_concat`: One more line.
* `cut_restored`: The lines with their delimiters make up the stream.
* `endsAt_or_endsInside_or`: Where a line ends.
* `pieces_of_ne_nil`: What is taken first, and what is taken then.
* `endsAt_taken`: A line that ends where the part does takes all of the part.
-/

namespace Lines

variable {α : Type*} [DecidableEq α] (d : α)

/-- The next line of a stream, with at most `n` elements. -/
def line (n : Nat) (s : List α) : List α := (s.take n).takeWhile (fun a => decide (a ≠ d))

/-- What taking the line takes. -/
def taken (n : Nat) (s : List α) : List α :=
  if d ∈ s.take n then line d n s ++ [d] else line d n s

/-- The lines, given with their limits, have been taken one after the other,
    and `rest` is left. -/
def Cut : List α → List (Nat × List α) → List α → Prop
  | s, [], rest => rest = s
  | s, (n, x) :: cuts, rest =>
      x = line d n s ∧ Cut (s.drop (taken d n s).length) cuts rest

/-- A line with limit `n` ends where `s` does, at a delimiter or at its
    limit. -/
def EndsAt (n : Nat) (s : List α) : Prop :=
  (∃ w, s = w ++ [d] ∧ d ∉ w ∧ s.length ≤ n) ∨ (d ∉ s ∧ s.length = n)

/-- A line with limit `n` ends before `s` does. -/
def EndsInside (n : Nat) (s : List α) : Prop :=
  ∃ w x u, s = w ++ x :: u ∧ d ∉ w ∧ (w.length = n ∨ (x = d ∧ u ≠ [] ∧ w.length < n))

theorem line_cons_self (n : Nat) (s : List α) : line d (n + 1) (d :: s) = [] := by
  have hd : ¬ decide (d ≠ d) = true := fun h => of_decide_eq_true h rfl
  unfold line
  rw [List.take_succ_cons, List.takeWhile_cons, if_neg hd]

theorem line_cons (n : Nat) (a : α) (s : List α) (h : a ≠ d) :
    line d (n + 1) (a :: s) = a :: line d n s := by
  unfold line
  rw [List.take_succ_cons, List.takeWhile_cons, if_pos (decide_eq_true h)]

theorem taken_cons_self (n : Nat) (s : List α) : taken d (n + 1) (d :: s) = [d] := by
  rw [taken, line_cons_self, List.take_succ_cons, if_pos List.mem_cons_self, List.nil_append]

theorem taken_cons (n : Nat) (a : α) (s : List α) (h : a ≠ d) :
    taken d (n + 1) (a :: s) = a :: taken d n s := by
  rw [taken, taken, line_cons d n a s h, List.take_succ_cons]
  by_cases hd : d ∈ s.take n
  · rw [if_pos hd, if_pos (List.mem_cons_of_mem a hd), List.cons_append]
  · rw [if_neg hd, if_neg (fun hm => hd ((List.mem_cons.mp hm).resolve_left h.symm))]

omit [DecidableEq α] in
/-- What passes on one element that is no delimiter passes on several. -/
theorem append_of_cons (f : Nat → List α → List α)
    (hf : ∀ n a s, a ≠ d → f (n + 1) (a :: s) = a :: f n s) (n : Nat) (w s : List α)
    (hw : d ∉ w) : f (w.length + n) (w ++ s) = w ++ f n s := by
  induction w with
  | nil => rw [List.length_nil, Nat.zero_add, List.nil_append, List.nil_append]
  | cons a w ih =>
      rcases not_or.mp (fun h => hw (List.mem_cons.mpr h)) with ⟨ha, hw'⟩
      rw [List.length_cons, Nat.add_right_comm, List.cons_append, hf _ a _ (Ne.symm ha), ih hw',
        List.cons_append]

/-- A part of the stream without a delimiter is in the line, if it is not
    longer than the limit. -/
theorem line_append (n : Nat) (w s : List α) (hw : d ∉ w) :
    line d (w.length + n) (w ++ s) = w ++ line d n s :=
  append_of_cons d (line d) (line_cons d) n w s hw

theorem taken_append (n : Nat) (w s : List α) (hw : d ∉ w) :
    taken d (w.length + n) (w ++ s) = w ++ taken d n s :=
  append_of_cons d (taken d) (taken_cons d) n w s hw

theorem line_zero (s : List α) : line d 0 s = [] := by
  rw [line, List.take_zero, List.takeWhile_nil]

theorem taken_zero (s : List α) : taken d 0 s = [] := by
  rw [taken, List.take_zero, if_neg List.not_mem_nil, line_zero]

theorem taken_eq_line_or (n : Nat) (s : List α) :
    taken d n s = line d n s ∨ taken d n s = line d n s ++ [d] := by
  unfold taken
  by_cases hd : d ∈ s.take n
  · exact Or.inr (if_pos hd)
  · exact Or.inl (if_neg hd)

/-- What is taken is the beginning of the stream. -/
theorem taken_append_drop (n : Nat) (s : List α) :
    taken d n s ++ s.drop (taken d n s).length = s := by
  induction s generalizing n with
  | nil =>
      rw [taken, line, List.take_nil, if_neg List.not_mem_nil]
      rfl
  | cons a s ih =>
      cases n with
      | zero => rw [taken_zero, List.length_nil, List.drop_zero, List.nil_append]
      | succ n =>
          by_cases ha : a = d
          · rw [ha, taken_cons_self]
            rfl
          · rw [taken_cons d n a s ha, List.length_cons, List.drop_succ_cons, List.cons_append,
              ih n]

/-- One more line is taken. -/
theorem cut_concat (s : List α) (cuts : List (Nat × List α)) (rest : List α) (n : Nat)
    (h : Cut d s cuts rest) :
    Cut d s (cuts ++ [(n, line d n rest)]) (rest.drop (taken d n rest).length) := by
  induction cuts generalizing s with
  | nil =>
      have hrest : rest = s := h
      rw [hrest]
      exact ⟨rfl, rfl⟩
  | cons c cuts ih => exact ⟨h.1, ih _ h.2⟩

/-- The rest after one more line is determined by the line and the rest
    before. -/
theorem cut_concat_inv (s : List α) (cuts : List (Nat × List α)) (rest rest' : List α) (n : Nat)
    (x : List α) (h : Cut d s cuts rest) (h' : Cut d s (cuts ++ [(n, x)]) rest') :
    x = line d n rest ∧ rest' = rest.drop (taken d n rest).length := by
  induction cuts generalizing s with
  | nil =>
      have hrest : rest = s := h
      rw [hrest]
      exact h'
  | cons c cuts ih => exact ih _ h.2 h'.2

/-- The lines with their delimiters restored, and the rest behind them, make
    up the stream. -/
theorem cut_restored (s : List α) (cuts : List (Nat × List α)) (rest : List α)
    (h : Cut d s cuts rest) :
    ∃ pieces : List (List α), pieces.flatten ++ rest = s ∧
      List.Forall₂ (fun c p => p = c.2 ∨ p = c.2 ++ [d]) cuts pieces := by
  induction cuts generalizing s with
  | nil => exact ⟨[], h, List.Forall₂.nil⟩
  | cons c cuts ih =>
      rcases ih _ h.2 with ⟨pieces, hflat, hall⟩
      refine ⟨taken d c.1 s :: pieces, ?_, List.Forall₂.cons ?_ hall⟩
      · rw [List.flatten_cons, List.append_assoc, hflat, taken_append_drop]
      · rw [h.1]
        exact taken_eq_line_or d c.1 s

/-- A line ends at the end of a part, before it, or not in it. -/
theorem endsAt_or_endsInside_or (n : Nat) (s : List α) :
    EndsAt d n s ∨ EndsInside d n s ∨ (d ∉ s ∧ s.length < n) := by
  by_cases hd : d ∈ s
  · rcases List.eq_append_cons_of_mem hd with ⟨w, u, hs, hw⟩
    by_cases hlen : w.length < n
    · cases u with
      | nil =>
          refine Or.inl (Or.inl ⟨w, hs, hw, ?_⟩)
          rw [hs, List.length_append, List.length_singleton]
          exact hlen
      | cons y u => exact Or.inr (Or.inl ⟨w, d, y :: u, hs, hw, Or.inr ⟨rfl, nofun, hlen⟩⟩)
    · -- The limit is reached before the delimiter.
      have hw' : d ∉ w.take n := fun h => hw (List.mem_of_mem_take h)
      have htake : (w.take n).length = n := by
        rw [List.length_take]
        omega
      rcases hdrop : w.drop n ++ d :: u with _ | ⟨x, u'⟩
      · exact absurd hdrop (List.append_ne_nil_of_right_ne_nil _ (List.cons_ne_nil d u))
      · refine Or.inr (Or.inl ⟨w.take n, x, u', ?_, hw', Or.inl htake⟩)
        rw [hs, ← hdrop, ← List.append_assoc, List.take_append_drop]
  · rcases Nat.lt_trichotomy s.length n with hlt | heq | hgt
    · exact Or.inr (Or.inr ⟨hd, hlt⟩)
    · exact Or.inl (Or.inr ⟨hd, heq⟩)
    · have htake : (s.take n).length = n := by
        rw [List.length_take]
        omega
      rcases hdrop : s.drop n with _ | ⟨x, u⟩
      · have := congrArg List.length hdrop
        rw [List.length_drop, List.length_nil] at this
        omega
      · refine Or.inr (Or.inl ⟨s.take n, x, u, ?_, fun h => hd (List.mem_of_mem_take h),
          Or.inl htake⟩)
        rw [← hdrop, List.take_append_drop]

/-- Something is taken of a stream that has something left. -/
theorem taken_ne_nil (n : Nat) (s : List α) (hn : 0 < n) (hs : s ≠ []) : taken d n s ≠ [] := by
  rcases List.exists_cons_of_ne_nil hs with ⟨a, t, rfl⟩
  obtain ⟨k, rfl⟩ : ∃ k, n = k + 1 := ⟨n - 1, by omega⟩
  by_cases ha : a = d
  · rw [ha, taken_cons_self]
    exact List.cons_ne_nil d []
  · rw [taken_cons d k a t ha]
    exact List.cons_ne_nil a _

/-- A line that ends where a part of the stream does takes all of the part,
    and is a line of the part. -/
theorem endsAt_taken (n : Nat) (c s : List α) (h : EndsAt d n c) :
    line d n (c ++ s) = line d n c ∧ taken d n (c ++ s) = c := by
  rcases h with ⟨w, hc, hw, hlen⟩ | ⟨hd, hlen⟩
  · rw [hc, List.length_append, List.length_singleton] at hlen
    obtain ⟨k, hk⟩ : ∃ k, n = w.length + (k + 1) := ⟨n - w.length - 1, by omega⟩
    rw [hc, hk, List.append_assoc, line_append d _ w _ hw, taken_append d _ w _ hw,
      line_append d _ w _ hw, List.singleton_append, line_cons_self, line_cons_self,
      taken_cons_self]
    exact ⟨rfl, rfl⟩
  · have hn : n = c.length + 0 := hlen.symm
    have hline : line d n c = c := by
      have := line_append d 0 c [] hd
      rwa [List.append_nil, line_zero, List.append_nil, ← hn] at this
    rw [hline, hn, line_append d 0 c s hd, taken_append d 0 c s hd, line_zero, taken_zero,
      List.append_nil]
    exact ⟨rfl, rfl⟩

theorem taken_mem (n : Nat) (s : List α) (a : α) (h : a ∈ taken d n s) : a ∈ s := by
  rw [← taken_append_drop d n s]
  exact List.mem_append_left _ h

theorem length_taken_le (n : Nat) (s : List α) : (taken d n s).length ≤ n := by
  induction n generalizing s with
  | zero =>
      rw [taken_zero]
      exact Nat.le_refl 0
  | succ n ih =>
      cases s with
      | nil =>
          rw [taken, line, List.take_nil, if_neg List.not_mem_nil]
          exact Nat.zero_le _
      | cons a s =>
          by_cases ha : a = d
          · rw [ha, taken_cons_self, List.length_singleton]
            omega
          · rw [taken_cons d n a s ha, List.length_cons]
            exact Nat.succ_le_succ (ih s)

/-- All that is taken from a stream, in at most `fuel` pieces. -/
def piecesIn (n : Nat) : Nat → List α → List (List α)
  | 0, _ => []
  | fuel + 1, s =>
      if s = [] then [] else taken d n s :: piecesIn n fuel (s.drop (taken d n s).length)

/-- All that is taken from a stream, one piece after the other. -/
def pieces (n : Nat) (s : List α) : List (List α) := piecesIn d n s.length s

/-- What is left after a piece is shorter. -/
theorem length_drop_taken (n : Nat) (s : List α) (hn : 0 < n) (hs : s ≠ []) :
    (s.drop (taken d n s).length).length < s.length := by
  have htaken := List.length_pos_iff.mpr (taken_ne_nil d n s hn hs)
  have hpos := List.length_pos_iff.mpr hs
  rw [List.length_drop]
  omega

theorem piecesIn_eq (n fuel fuel' : Nat) (s : List α) (hn : 0 < n) (h : s.length ≤ fuel)
    (h' : s.length ≤ fuel') : piecesIn d n fuel s = piecesIn d n fuel' s := by
  induction fuel generalizing fuel' s with
  | zero =>
      have hs : s = [] := List.length_eq_zero_iff.mp (by omega)
      cases fuel' with
      | zero => rfl
      | succ fuel' => rw [piecesIn, piecesIn, if_pos hs]
  | succ fuel ih =>
      by_cases hs : s = []
      · cases fuel' with
        | zero => rw [piecesIn, piecesIn, if_pos hs]
        | succ fuel' => rw [piecesIn, piecesIn, if_pos hs, if_pos hs]
      · have hpos := List.length_pos_iff.mpr hs
        have hless := length_drop_taken d n s hn hs
        obtain ⟨k, rfl⟩ : ∃ k, fuel' = k + 1 := ⟨fuel' - 1, by omega⟩
        rw [piecesIn, piecesIn, if_neg hs, if_neg hs, ih k _ (by omega) (by omega)]

/-- What is taken first, and what is taken then. -/
theorem pieces_of_ne_nil (n : Nat) (s : List α) (hn : 0 < n) (hs : s ≠ []) :
    pieces d n s = taken d n s :: pieces d n (s.drop (taken d n s).length) := by
  have hpos := List.length_pos_iff.mpr hs
  have hless := length_drop_taken d n s hn hs
  have hone : piecesIn d n s.length s = piecesIn d n ((s.length - 1) + 1) s :=
    piecesIn_eq d n _ _ s hn (Nat.le_refl _) (by omega)
  rw [pieces, hone, piecesIn, if_neg hs, pieces,
    piecesIn_eq d n _ _ _ hn (by omega) (Nat.le_refl _)]

end Lines
