import Mathlib.Data.List.Induction
import Mathlib.Tactic.Common

/-!
# Lines of a Text

A text as the list of its lines, without the delimiters that end them. What
follows the last delimiter is a line of its own if there is anything.

`lines` says which lines a text has. A reader that goes through the text once
knows something else at each point: the lines that have ended, and the piece
since the last delimiter. `finished` and `piece` are these two, and
`lines_eq` is how the lines of the whole follow from them at the end.

Both are folds, so the text read so far can grow at its end: an element that
is not the delimiter goes to the piece, and the delimiter makes a line of it.

## Main definitions

* `lines`: The lines of a text.
* `finished`: The lines that have ended.
* `piece`: What follows them.
* `ending`: The line that the piece makes, if it is not empty.

## Theorems

* `finished_concat_self`, `piece_concat_self`: The delimiter comes next.
* `finished_concat`, `piece_concat`: Another element comes next.
* `lines_eq`: The lines that have ended, and the piece if there is one.
* `restored`: The lines with their delimiters, and the piece, are the text.
* `mem_of_mem_lines`: The lines are made of the text.
* `finished_length_le`, `piece_begins_line`: What part of a text says about the
  whole.
-/

namespace TextLines

variable {α : Type*} [DecidableEq α] (d : α)

/-- The lines of a text. -/
def lines : List α → List (List α)
  | [] => []
  | a :: s =>
      if a = d then [] :: lines s
      else
        match lines s with
        | [] => [[a]]
        | l :: ls => (a :: l) :: ls

/-- One more element, for the lines that have ended and the piece. -/
def extend (cut : List (List α) × List α) (a : α) : List (List α) × List α :=
  if a = d then (cut.1 ++ [cut.2], []) else (cut.1, cut.2 ++ [a])

/-- The lines of the text that a delimiter ends. -/
def finished (s : List α) : List (List α) := (s.foldl (extend d) ([], [])).1

/-- What follows the last delimiter of the text. -/
def piece (s : List α) : List α := (s.foldl (extend d) ([], [])).2

/-- The line that a piece at the end of a text makes. -/
def ending (r : List α) : List (List α) :=
  match r with
  | [] => []
  | _ :: _ => [r]

/-! ### One more element -/

theorem finished_concat_self (s : List α) :
    finished d (s ++ [d]) = finished d s ++ [piece d s] := by
  simp only [finished, piece, List.foldl_append, List.foldl_cons, List.foldl_nil, extend, if_true]

theorem piece_concat_self (s : List α) : piece d (s ++ [d]) = [] := by
  simp only [piece, List.foldl_append, List.foldl_cons, List.foldl_nil, extend, if_true]

theorem finished_concat (s : List α) (a : α) (h : a ≠ d) :
    finished d (s ++ [a]) = finished d s := by
  simp only [finished, List.foldl_append, List.foldl_cons, List.foldl_nil, extend, if_neg h]

theorem piece_concat (s : List α) (a : α) (h : a ≠ d) :
    piece d (s ++ [a]) = piece d s ++ [a] := by
  simp only [piece, List.foldl_append, List.foldl_cons, List.foldl_nil, extend, if_neg h]

/-! ### The parts of the text -/

/-- The lines that have ended, with their delimiters, and the piece make up
    the text. -/
theorem restored (s : List α) :
    ((finished d s).map (fun l => l ++ [d])).flatten ++ piece d s = s := by
  -- The text grows at its end, as the two parts do.
  induction s using List.reverseRecOn with
  | nil => rfl
  | append_singleton s a ih =>
      by_cases ha : a = d
      · subst ha
        rw [finished_concat_self, piece_concat_self, List.append_nil, List.map_append,
          List.flatten_append, List.map_singleton, List.flatten_singleton, ← List.append_assoc, ih]
      · rw [finished_concat d s a ha, piece_concat d s a ha, ← List.append_assoc, ih]

theorem not_mem_parts (s : List α) : (∀ l ∈ finished d s, d ∉ l) ∧ d ∉ piece d s := by
  induction s using List.reverseRecOn with
  | nil => exact ⟨fun _ hl => absurd hl List.not_mem_nil, List.not_mem_nil⟩
  | append_singleton s a ih =>
      by_cases ha : a = d
      · subst ha
        rw [finished_concat_self, piece_concat_self]
        refine ⟨fun l hl => ?_, List.not_mem_nil⟩
        rcases List.mem_append.mp hl with hl | hl
        · exact ih.1 l hl
        · rw [List.mem_singleton.mp hl]
          exact ih.2
      · rw [finished_concat d s a ha, piece_concat d s a ha]
        refine ⟨ih.1, fun hmem => ?_⟩
        rcases List.mem_append.mp hmem with hmem | hmem
        · exact ih.2 hmem
        · exact ha (List.mem_singleton.mp hmem).symm

/-! ### The lines of the text -/

/-- A piece without delimiters is a line, unless it is empty. -/
theorem lines_of_not_mem (r : List α) (h : d ∉ r) : lines d r = ending r := by
  induction r with
  | nil => rfl
  | cons a r ih =>
      rcases not_or.mp (fun hmem => h (List.mem_cons.mpr hmem)) with ⟨ha, hr⟩
      rw [lines, if_neg (Ne.symm ha), ih hr]
      cases r <;> rfl

/-- A line with its delimiter in front of a text. -/
theorem lines_append (l s : List α) (h : d ∉ l) : lines d (l ++ d :: s) = l :: lines d s := by
  induction l with
  | nil => rw [List.nil_append, lines, if_pos rfl]
  | cons a l ih =>
      rcases not_or.mp (fun hmem => h (List.mem_cons.mpr hmem)) with ⟨ha, hl⟩
      rw [List.cons_append, lines, if_neg (Ne.symm ha), ih hl]

theorem lines_flatten (ls : List (List α)) (r : List α) (hls : ∀ l ∈ ls, d ∉ l) (hr : d ∉ r) :
    lines d ((ls.map (fun l => l ++ [d])).flatten ++ r) = ls ++ ending r := by
  induction ls with
  | nil => exact lines_of_not_mem d r hr
  | cons l ls ih =>
      rw [List.map_cons, List.flatten_cons, List.append_assoc, List.append_assoc,
        List.singleton_append, lines_append d l _ (hls l List.mem_cons_self),
        ih (fun m hm => hls m (List.mem_cons_of_mem l hm)), List.cons_append]

/-- The lines that have ended, and the piece after them if there is one. -/
theorem lines_eq (s : List α) : lines d s = finished d s ++ ending (piece d s) := by
  have hparts := not_mem_parts d s
  rw [← lines_flatten d (finished d s) (piece d s) hparts.1 hparts.2, restored]

/-- A line is made of elements of the text. -/
theorem mem_of_mem_lines (s l : List α) (hl : l ∈ lines d s) (x : α) (hx : x ∈ l) : x ∈ s := by
  rw [lines_eq] at hl
  rw [← restored d s]
  rcases List.mem_append.mp hl with hl | hl
  · refine List.mem_append_left _ (List.mem_flatten.mpr ⟨l ++ [d], ?_, List.mem_append_left _ hx⟩)
    exact List.mem_map_of_mem hl
  · refine List.mem_append_right _ ?_
    unfold ending at hl
    split at hl
    · exact nomatch hl
    · exact List.mem_singleton.mp hl ▸ hx

/-! ### A text read in part -/

/-- The lines that have ended by some point are not more than all lines. -/
theorem finished_length_le (p s : List α) (h : p <+: s) :
    (finished d p).length ≤ (lines d s).length := by
  rcases h with ⟨t, rfl⟩
  have hmono : (finished d p).length ≤ (finished d (p ++ t)).length := by
    induction t using List.reverseRecOn with
    | nil => exact Nat.le_of_eq (congrArg (fun l => (finished d l).length) (List.append_nil p).symm)
    | append_singleton t a ih =>
        rw [← List.append_assoc]
        by_cases ha : a = d
        · subst ha
          rw [finished_concat_self, List.length_append]
          exact Nat.le_trans ih (Nat.le_add_right _ _)
        · rw [finished_concat d _ a ha]
          exact ih
  rw [lines_eq, List.length_append]
  exact Nat.le_trans hmono (Nat.le_add_right _ _)

/-- The piece at some point is the beginning of a line. -/
theorem piece_begins_line (p s : List α) (h : p <+: s) (hp : piece d p ≠ []) :
    ∃ l ∈ lines d s, piece d p <+: l := by
  rcases h with ⟨t, rfl⟩
  have hpart : ∃ l ∈ finished d (p ++ t) ++ [piece d (p ++ t)], piece d p <+: l := by
    induction t using List.reverseRecOn with
    | nil =>
        rw [List.append_nil]
        exact ⟨_, List.mem_append_right _ List.mem_cons_self, List.prefix_refl _⟩
    | append_singleton t a ih =>
        rw [← List.append_assoc]
        rcases ih with ⟨l, hl, hpre⟩
        by_cases ha : a = d
        · subst ha
          rw [finished_concat_self]
          exact ⟨l, List.mem_append_left _ hl, hpre⟩
        · rw [finished_concat d _ a ha, piece_concat d _ a ha]
          rcases List.mem_append.mp hl with hl | hl
          · exact ⟨l, List.mem_append_left _ hl, hpre⟩
          · -- The piece it was the beginning of has become longer.
            refine ⟨_, List.mem_append_right _ List.mem_cons_self, ?_⟩
            exact hpre.trans (List.mem_singleton.mp hl ▸ List.prefix_append _ _)
  rcases hpart with ⟨l, hl, hpre⟩
  refine ⟨l, ?_, hpre⟩
  have hne : l ≠ [] := fun hnil => hp (List.prefix_nil.mp (hnil ▸ hpre))
  rw [lines_eq]
  rcases List.mem_append.mp hl with hl | hl
  · exact List.mem_append_left _ hl
  · rw [List.mem_singleton.mp hl] at hne ⊢
    refine List.mem_append_right _ ?_
    cases hpiece : piece d (p ++ t) with
    | nil => exact absurd hpiece hne
    | cons a r => exact List.mem_cons_self

end TextLines
