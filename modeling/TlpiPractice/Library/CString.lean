import Mathlib.Data.List.TakeWhile
import Mathlib.Data.UInt

/-!
# Strings of C

The bytes of a string up to, and without, the NUL that ends it. They are kept
in a structure that says that no NUL is among them, so that every value is a
string some C program could hold.

## Main definitions

* `CString`: The bytes of a string.
* `strcmp`: The comparison of two strings.
* `str`, `ofBytes`: The string at the front of some bytes.
* `strstr`: The search for one string in another.

## Theorems

* `strcmp_neg_iff`: A negative result means an earlier string.
* `strcmp_eq_zero_iff`: A result of zero means the same string.
* `str_append`: A string that has its NUL.
* `strstr_eq_none_iff`: A search that finds nothing.
-/

/-- The bytes of a string, without the NUL at its end. -/
structure CString where
  bytes : List UInt8
  noNul : ∀ b ∈ bytes, b ≠ 0
  deriving DecidableEq

namespace CString

theorem eq_of_bytes (s t : CString) (h : s.bytes = t.bytes) : s = t := by
  cases s
  cases t
  subst h
  rfl

/-- `""`. -/
def empty : CString := ⟨[], fun _ hb => absurd hb List.not_mem_nil⟩

/-- A string with one more byte in front. -/
def cons (b : UInt8) (hb : b ≠ 0) (s : CString) : CString :=
  ⟨b :: s.bytes, List.forall_mem_cons.mpr ⟨hb, s.noNul⟩⟩

/-- The difference of the first two bytes that are not the same, where the end
    of a string counts as zero. -/
def strcmp : List UInt8 → List UInt8 → Int
  | [], [] => 0
  | [], b :: _ => -(b.toNat : Int)
  | a :: _, [] => a.toNat
  | a :: s, b :: t => if a = b then strcmp s t else (a.toNat : Int) - b.toNat

theorem strcmp_neg_iff (s t : List UInt8) (hs : ∀ b ∈ s, b ≠ 0) (ht : ∀ b ∈ t, b ≠ 0) :
    strcmp s t < 0 ↔ s < t := by
  induction s generalizing t with
  | nil =>
      cases t with
      | nil => exact ⟨fun h => absurd h (Int.lt_irrefl 0), fun h => absurd h (List.not_lt_nil [])⟩
      | cons b t =>
          have hb : b.toNat ≠ 0 := fun hc =>
            ht b List.mem_cons_self (UInt8.toNat_inj.mp hc)
          refine ⟨fun _ => List.nil_lt_cons b t, fun _ => ?_⟩
          unfold strcmp
          omega
  | cons a s ih =>
      cases t with
      | nil =>
          refine ⟨fun h => ?_, fun h => absurd h (List.not_lt_nil _)⟩
          unfold strcmp at h
          omega
      | cons b t =>
          have htail := ih t (fun x hx => hs x (List.mem_cons_of_mem a hx))
            (fun x hx => ht x (List.mem_cons_of_mem b hx))
          rw [List.cons_lt_cons_iff]
          unfold strcmp
          by_cases hab : a = b
          · rw [if_pos hab, htail]
            refine ⟨fun h => .inr ⟨hab, h⟩, fun h => ?_⟩
            rcases h with h | h
            · exact absurd (hab ▸ h) (UInt8.lt_irrefl b)
            · exact h.2
          · rw [if_neg hab, UInt8.lt_iff_toNat_lt]
            constructor
            · intro h
              exact .inl (by omega)
            · rintro (h | h)
              · omega
              · exact absurd h.1 hab

theorem strcmp_self (s : List UInt8) : strcmp s s = 0 := by
  induction s with
  | nil => rfl
  | cons a s ih =>
      unfold strcmp
      rw [if_pos rfl]
      exact ih

/-- No difference is left only between strings that are the same. -/
theorem eq_of_strcmp (s t : List UInt8) (hs : ∀ b ∈ s, b ≠ 0) (ht : ∀ b ∈ t, b ≠ 0)
    (h : strcmp s t = 0) : s = t := by
  have hpos : ∀ b : UInt8, b ≠ 0 → b.toNat ≠ 0 := fun b hb hc => hb (UInt8.toNat_inj.mp hc)
  induction s generalizing t with
  | nil =>
      cases t with
      | nil => rfl
      | cons b t =>
          have hb := hpos b (ht b List.mem_cons_self)
          unfold strcmp at h
          omega
  | cons a s ih =>
      cases t with
      | nil =>
          have ha := hpos a (hs a List.mem_cons_self)
          unfold strcmp at h
          omega
      | cons b t =>
          unfold strcmp at h
          by_cases hab : a = b
          · rw [if_pos hab] at h
            rw [hab, ih t (fun x hx => hs x (List.mem_cons_of_mem a hx))
              (fun x hx => ht x (List.mem_cons_of_mem b hx)) h]
          · -- Two bytes that differ have another number.
            rw [if_neg hab] at h
            exact absurd (UInt8.toNat_inj.mp (by omega)) hab

/-- Two strings compare as equal only if they are. -/
theorem strcmp_eq_zero_iff (s t : CString) : strcmp s.bytes t.bytes = 0 ↔ s = t := by
  constructor
  · exact fun h => eq_of_bytes s t (eq_of_strcmp s.bytes t.bytes s.noNul t.noNul h)
  · rintro rfl
    exact strcmp_self s.bytes

theorem strcmp_neg_trans (s t u : CString) (hst : strcmp s.bytes t.bytes < 0)
    (htu : strcmp t.bytes u.bytes < 0) : strcmp s.bytes u.bytes < 0 := by
  rw [strcmp_neg_iff _ _ s.noNul t.noNul] at hst
  rw [strcmp_neg_iff _ _ t.noNul u.noNul] at htu
  rw [strcmp_neg_iff _ _ s.noNul u.noNul]
  exact List.lt_trans hst htu

/-- Of two strings that are not the same, one is earlier. -/
theorem strcmp_neg_of_not (s t : CString) (h : ¬ strcmp s.bytes t.bytes < 0) (hne : s ≠ t) :
    strcmp t.bytes s.bytes < 0 := by
  rw [strcmp_neg_iff _ _ s.noNul t.noNul] at h
  rw [strcmp_neg_iff _ _ t.noNul s.noNul]
  by_contra hlt
  exact hne (eq_of_bytes s t (List.le_antisymm (List.not_lt.mp hlt) (List.not_lt.mp h)))

/-- The string at the front of some bytes, up to the first NUL. -/
def str (bytes : List UInt8) : List UInt8 := bytes.takeWhile (fun b => decide (b ≠ 0))

theorem str_append (s rest : List UInt8) (hs : ∀ b ∈ s, b ≠ 0) : str (s ++ 0 :: rest) = s := by
  induction s with
  | nil => rfl
  | cons a s ih =>
      have ha : a ≠ 0 := hs a List.mem_cons_self
      unfold str at ih ⊢
      rw [List.cons_append, List.takeWhile_cons, if_pos (decide_eq_true ha),
        ih (fun b hb => hs b (List.mem_cons_of_mem a hb))]

/-- Bytes without a NUL are all in the string. -/
theorem str_of_noNul (s : List UInt8) (hs : ∀ b ∈ s, b ≠ 0) : str s = s :=
  List.takeWhile_eq_self_iff.mpr (fun b hb => decide_eq_true (hs b hb))

/-- What is behind a NUL does not matter. -/
theorem str_append_of_mem (s rest : List UInt8) (h : 0 ∈ s) : str (s ++ rest) = str s := by
  induction s with
  | nil => cases h
  | cons a s ih =>
      unfold str at ih ⊢
      rw [List.cons_append, List.takeWhile_cons, List.takeWhile_cons]
      by_cases ha : a = 0
      · have hnul : ¬ decide (a ≠ 0) = true := fun hd => absurd ha (of_decide_eq_true hd)
        rw [if_neg hnul, if_neg hnul]
      · rw [ih ((List.mem_cons.mp h).resolve_left (fun h0 => ha h0.symm))]

/-- The string in front of a NUL is all that is there, or less. -/
theorem str_isPrefix (s rest : List UInt8) : str (s ++ 0 :: rest) <+: s := by
  by_cases h : (0 : UInt8) ∈ s
  · rw [str_append_of_mem s (0 :: rest) h]
    exact List.takeWhile_prefix _
  · rw [str_append s rest (fun b hb hzero => h (hzero ▸ hb))]

/-- The string at the front of some bytes, as a string. -/
def ofBytes (bytes : List UInt8) : CString :=
  ⟨str bytes, fun b hb => of_decide_eq_true (List.all_eq_true.mp List.all_takeWhile b hb)⟩

theorem bytes_ofBytes (bytes : List UInt8) : (ofBytes bytes).bytes = str bytes := rfl

/-- The rest of the first string from where the second is found in it. -/
def strstr : List UInt8 → List UInt8 → Option (List UInt8)
  | [], t => if t.isPrefixOf [] then some [] else none
  | b :: s, t => if t.isPrefixOf (b :: s) then some (b :: s) else strstr s t

theorem strstr_eq_none_iff (s t : List UInt8) : strstr s t = none ↔ ¬ t <:+: s := by
  induction s with
  | nil =>
      rw [strstr, List.infix_nil, ← List.prefix_nil, ← List.isPrefixOf_iff_prefix]
      split
      · rename_i h
        exact ⟨fun hc => absurd hc (Option.some_ne_none _), fun hc => absurd h hc⟩
      · rename_i h
        exact ⟨fun _ => h, fun _ => rfl⟩
  | cons b s ih =>
      rw [strstr, List.infix_cons_iff, ← List.isPrefixOf_iff_prefix]
      split
      · rename_i h
        exact ⟨fun hc => absurd hc (Option.some_ne_none _), fun hc => absurd (Or.inl h) hc⟩
      · rename_i h
        rw [ih]
        exact ⟨fun hs hc => hc.elim h hs, fun hc hs => hc (Or.inr hs)⟩

/-- A string is found behind bytes that it does not begin with. -/
theorem strstr_append (c : UInt8) (t p s : List UInt8) (hc : c ∉ p) :
    strstr (p ++ (c :: t ++ s)) (c :: t) = some (c :: t ++ s) := by
  induction p with
  | nil =>
      have hprefix : (c :: t).isPrefixOf (c :: (t ++ s)) = true :=
        List.isPrefixOf_iff_prefix.mpr (List.prefix_append _ _)
      rw [List.nil_append, List.cons_append, strstr, if_pos hprefix]
  | cons b p ih =>
      rcases not_or.mp (fun h => hc (List.mem_cons.mpr h)) with ⟨hb, hp⟩
      have hprefix : ¬ (c :: t).isPrefixOf (b :: (p ++ (c :: t ++ s))) = true := by
        rw [List.isPrefixOf_iff_prefix, List.cons_prefix_cons]
        exact fun h => hb h.1
      rw [List.cons_append, strstr, if_neg hprefix, ih hp]

/-- A string is found where it is first, if it does not begin before. -/
theorem strstr_first (t p s : List UInt8) (h : ¬ t <:+: p ++ t.dropLast) :
    strstr (p ++ (t ++ s)) t = some (t ++ s) := by
  induction p with
  | nil =>
      cases t with
      | nil => exact absurd (List.nil_infix) h
      | cons c t =>
          have hfront : (c :: t).isPrefixOf (c :: (t ++ s)) = true :=
            List.isPrefixOf_iff_prefix.mpr (List.prefix_append _ _)
          rw [List.nil_append, List.cons_append, strstr, if_pos hfront]
  | cons b p ih =>
      have hfront : ¬ t.isPrefixOf (b :: (p ++ (t ++ s))) = true := by
        rw [List.isPrefixOf_iff_prefix]
        intro hpre
        -- It would be at the front of the bytes before its last one.
        have hbytes : b :: (p ++ (t ++ s)) =
            (b :: p ++ t.dropLast) ++ (t.drop (t.length - 1) ++ s) := by
          rw [← List.append_assoc (b :: p ++ t.dropLast), List.append_assoc (b :: p),
            List.dropLast_eq_take, List.take_append_drop]
          simp only [List.cons_append, List.append_assoc]
        have hlen : t.length ≤ (b :: p ++ t.dropLast).length := by
          rw [List.length_append, List.length_cons, List.length_dropLast]
          omega
        rw [hbytes] at hpre
        exact h (List.prefix_of_prefix_length_le hpre (List.prefix_append _ _) hlen).isInfix
      have hrest : ¬ t <:+: p ++ t.dropLast := fun hin => h (List.infix_cons hin)
      rw [List.cons_append, strstr, if_neg hfront, ih hrest]

end CString
