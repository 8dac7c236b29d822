import Mathlib.Data.List.TakeWhile
import Mathlib.Data.Nat.Digits.Lemmas
import Mathlib.Data.UInt

/-!
# Numerals

Numbers as text, as the C library prints and reads them.

`strtol` skips blanks, takes a sign, finds out the base and then takes digits
as long as there are any. If there is none, nothing is taken at all. A number
outside the range of the result is replaced by the nearest one inside it. In
base 16 the digits may stand behind a `0x`. In base 0 the text says the base: a
`0x` in front of a hexadecimal digit means 16, another `0` means 8, and
anything else 10.

`Denotes` says what a text means without reading it from left to right, and
`strtol_whole_iff` that the function takes the whole of just those texts.

## Main definitions

* `digitValue`: What a byte is worth as a digit.
* `value`: What digits are worth together.
* `strtol`: The function.
* `Denotes`: What a text means.
* `digitsOf`: The digits of a number, as `printf` writes them.
* `signed`: The digits of a number behind its sign.

## Theorems

* `strtol_whole_iff`: When all of a text is taken as a number.
* `value_digitsOf`: The digits of a number are worth the number.
* `denotes_signed`: What is printed is read back.
-/

namespace Numerals

/-- What a byte is worth as a digit. -/
def digitValue (b : UInt8) : Option Nat :=
  if 48 ≤ b.toNat ∧ b.toNat ≤ 57 then some (b.toNat - 48)
  else if 65 ≤ b.toNat ∧ b.toNat ≤ 90 then some (b.toNat - 55)
  else if 97 ≤ b.toNat ∧ b.toNat ≤ 122 then some (b.toNat - 87)
  else none

/-- Whether a byte is a digit in this base. -/
def isDigitIn (base : Nat) (b : UInt8) : Bool :=
  match digitValue b with
  | some d => decide (d < base)
  | none => false

/-- What digits are worth together. -/
def value (base : Nat) (digits : List UInt8) : Nat :=
  digits.foldl (fun v b => v * base + (digitValue b).getD 0) 0

/-- What `isspace` accepts. -/
def isBlank (b : UInt8) : Bool := decide (b.toNat = 32 ∨ (9 ≤ b.toNat ∧ b.toNat ≤ 13))

/-- Whether there is a minus, and what is behind the sign. -/
def scanSign : List UInt8 → Bool × List UInt8
  | [] => (false, [])
  | b :: s => if b = 45 then (true, s) else if b = 43 then (false, s) else (false, b :: s)

/-- What is behind a `0x`, if that starts with a hexadecimal digit. -/
def hexDigits : List UInt8 → Option (List UInt8)
  | z :: x :: d :: s =>
      if z = 48 ∧ (x = 120 ∨ x = 88) ∧ isDigitIn 16 d = true then some (d :: s) else none
  | _ => none

/-- The base, and the text from the first digit on. -/
def chooseBase (base : Nat) (s : List UInt8) : Nat × List UInt8 :=
  if base = 0 ∨ base = 16 then
    match hexDigits s with
    | some digits => (16, digits)
    | none => (if base = 16 then 16 else if s.head? = some 48 then 8 else 10, s)
  else (base, s)

/-- What `strtol` comes to. -/
structure Strtol where
  result : Int
  /-- What `endptr` points to. -/
  rest : List UInt8
  /-- `errno` is `ERANGE`. -/
  erange : Bool

/-- `strtol`, where `lo` and `hi` are the ends of the range of the result. -/
def strtol (lo hi : Int) (base : Nat) (s : List UInt8) : Strtol :=
  let body := scanSign (s.dropWhile isBlank)
  let text := chooseBase base body.2
  let digits := text.2.takeWhile (isDigitIn text.1)
  if digits = [] then { result := 0, rest := s, erange := false }
  else
    let v : Int := if body.1 then -(value text.1 digits : Int) else value text.1 digits
    { result := max lo (min hi v)
      rest := text.2.dropWhile (isDigitIn text.1)
      erange := decide (v < lo ∨ hi < v) }

/-- A digit, as `printf` writes it. -/
def digitByte (d : Nat) : UInt8 := if d < 10 then UInt8.ofNat (48 + d) else UInt8.ofNat (87 + d)

/-- What `printf` writes for `%lo`, `%lu` and `%lx`. -/
def digitsOf (base n : Nat) : List UInt8 :=
  if n = 0 then [48] else ((Nat.digits base n).map digitByte).reverse

/-- A number with its sign. In base 10 this is what `printf` writes for `%ld`. -/
def signed (base : Nat) (v : Int) : List UInt8 :=
  if v < 0 then 45 :: digitsOf base v.natAbs else digitsOf base v.natAbs

/-! ### What a text means -/

/-- The ways to write a number without its sign. -/
inductive Numeral (base : Nat) : List UInt8 → Nat → Prop where
  | plain (digits : List UInt8) (hbase : base ≠ 0) (hne : digits ≠ [])
      (hdigits : ∀ d ∈ digits, isDigitIn base d = true) : Numeral base digits (value base digits)
  | hex (x : UInt8) (digits : List UInt8) (hbase : base = 0 ∨ base = 16) (hx : x = 120 ∨ x = 88)
      (hne : digits ≠ []) (hdigits : ∀ d ∈ digits, isDigitIn 16 d = true) :
      Numeral base (48 :: x :: digits) (value 16 digits)
  | octal (digits : List UInt8) (hbase : base = 0) (hhead : digits.head? = some 48)
      (hdigits : ∀ d ∈ digits, isDigitIn 8 d = true) : Numeral base digits (value 8 digits)
  | decimal (digits : List UInt8) (hbase : base = 0) (hne : digits ≠ [])
      (hhead : digits.head? ≠ some 48) (hdigits : ∀ d ∈ digits, isDigitIn 10 d = true) :
      Numeral base digits (value 10 digits)

/-- A text means a number: blanks, perhaps a sign, and the number. -/
def Denotes (base : Nat) (s : List UInt8) (v : Int) : Prop :=
  ∃ blanks sign body n, (∀ b ∈ blanks, isBlank b = true) ∧ s = blanks ++ (sign ++ body) ∧
    Numeral base body n ∧ ((sign = [45] ∧ v = -n) ∨ ((sign = [] ∨ sign = [43]) ∧ v = n))

/-! ### The bytes -/

theorem isDigitIn_iff (base : Nat) (b : UInt8) :
    isDigitIn base b = true ↔ ∃ d, digitValue b = some d ∧ d < base := by
  unfold isDigitIn
  cases digitValue b with
  | none =>
      exact ⟨fun h => Bool.noConfusion h, fun ⟨d, h, _⟩ => absurd h.symm (Option.some_ne_none d)⟩
  | some d =>
      rw [decide_eq_true_iff]
      exact ⟨fun h => ⟨d, rfl, h⟩, fun ⟨e, he, hlt⟩ => Option.some.inj he ▸ hlt⟩

/-- A digit is neither a blank nor a sign. -/
theorem not_blank_of_digit (base : Nat) (b : UInt8) (h : isDigitIn base b = true) :
    isBlank b = false ∧ b ≠ 45 ∧ b ≠ 43 := by
  rcases (isDigitIn_iff base b).mp h with ⟨d, hd, -⟩
  have hrange : 48 ≤ b.toNat := by
    unfold digitValue at hd
    split at hd
    · omega
    · split at hd
      · omega
      · split at hd
        · omega
        · exact absurd hd.symm (Option.some_ne_none d)
  refine ⟨decide_eq_false (by omega), fun hb => ?_, fun hb => ?_⟩
  · subst hb
    exact absurd hrange (by decide)
  · subst hb
    exact absurd hrange (by decide)

theorem x_not_digit (base : Nat) (hbase : base ≤ 16) (x : UInt8) (hx : x = 120 ∨ x = 88) :
    isDigitIn base x = false := by
  have hval : digitValue x = some 33 := by rcases hx with rfl | rfl <;> decide
  rw [isDigitIn, hval]
  exact decide_eq_false (by omega)

/-- Digits do not look like the `0x` of a hexadecimal number. -/
theorem hexDigits_eq_none (base : Nat) (hbase : base ≤ 16) (digits : List UInt8)
    (h : ∀ d ∈ digits, isDigitIn base d = true) : hexDigits digits = none := by
  match digits with
  | [] => rfl
  | [_] => rfl
  | [_, _] => rfl
  | z :: x :: d :: s =>
      have hx : ¬ (x = 120 ∨ x = 88) := by
        intro hx
        have hdigit := h x (List.mem_cons_of_mem _ List.mem_cons_self)
        rw [x_not_digit base hbase x hx] at hdigit
        exact Bool.noConfusion hdigit
      rw [hexDigits, if_neg (fun hc => hx hc.2.1)]

theorem hexDigits_eq_some (body digits : List UInt8) (h : hexDigits body = some digits) :
    ∃ x, (x = 120 ∨ x = 88) ∧ body = 48 :: x :: digits := by
  match body with
  | [] => exact absurd h.symm (Option.some_ne_none _)
  | [_] => exact absurd h.symm (Option.some_ne_none _)
  | [_, _] => exact absurd h.symm (Option.some_ne_none _)
  | z :: x :: d :: s =>
      rw [hexDigits] at h
      split at h
      · rename_i hc
        rcases hc with ⟨rfl, hx, -⟩
        exact ⟨x, hx, by rw [← Option.some.inj h]⟩
      · exact absurd h.symm (Option.some_ne_none _)

/-- A text without its sign is a number if from the first digit on it consists
    of digits. -/
theorem numeral_iff (base : Nat) (body : List UInt8) (n : Nat) :
    ((chooseBase base body).2 ≠ [] ∧
      (∀ d ∈ (chooseBase base body).2, isDigitIn (chooseBase base body).1 d = true) ∧
      n = value (chooseBase base body).1 (chooseBase base body).2) ↔ Numeral base body n := by
  constructor
  · rintro ⟨hne, hdigits, rfl⟩
    unfold chooseBase at hne hdigits ⊢
    by_cases hbase : base = 0 ∨ base = 16
    · simp only [if_pos hbase] at hne hdigits ⊢
      cases hhex : hexDigits body with
      | some digits =>
          simp only [hhex] at hne hdigits ⊢
          rcases hexDigits_eq_some body digits hhex with ⟨x, hx, rfl⟩
          exact .hex x digits hbase hx hne hdigits
      | none =>
          simp only [hhex] at hne hdigits ⊢
          by_cases h16 : base = 16
          · simp only [if_pos h16] at hdigits ⊢
            subst h16
            exact .plain body (by decide) hne hdigits
          · have hzero : base = 0 := hbase.resolve_right h16
            simp only [if_neg h16] at hdigits ⊢
            by_cases hhead : body.head? = some 48
            · simp only [if_pos hhead] at hdigits ⊢
              exact .octal body hzero hhead hdigits
            · simp only [if_neg hhead] at hdigits ⊢
              exact .decimal body hzero hne hhead hdigits
    · simp only [if_neg hbase] at hne hdigits ⊢
      exact .plain body (fun h => hbase (.inl h)) hne hdigits
  · intro h
    unfold chooseBase
    cases h with
    | plain _ hbase hne hdigits =>
        by_cases h16 : base = 16
        · subst h16
          have hnone := hexDigits_eq_none 16 (Nat.le_refl _) body hdigits
          simp only [or_true, if_true, hnone]
          exact ⟨hne, hdigits, trivial⟩
        · simp only [if_neg (not_or.mpr ⟨hbase, h16⟩)]
          exact ⟨hne, hdigits, trivial⟩
    | hex x digits hbase hx hne hdigits =>
        obtain ⟨d, rest, rfl⟩ := List.exists_cons_of_ne_nil hne
        have hsome : hexDigits (48 :: x :: d :: rest) = some (d :: rest) :=
          if_pos ⟨rfl, hx, hdigits d List.mem_cons_self⟩
        simp only [if_pos hbase, hsome]
        exact ⟨hne, hdigits, trivial⟩
    | octal _ hbase hhead hdigits =>
        have hnone := hexDigits_eq_none 8 (by decide) body hdigits
        subst hbase
        simp only [true_or, if_true, hnone, hhead]
        refine ⟨fun hnil => ?_, hdigits, rfl⟩
        rw [hnil] at hhead
        exact absurd hhead.symm (Option.some_ne_none _)
    | decimal _ hbase hne hhead hdigits =>
        have hnone := hexDigits_eq_none 10 (by decide) body hdigits
        subst hbase
        simp only [true_or, if_true, hnone, if_neg hhead]
        exact ⟨hne, hdigits, rfl⟩

/-- A number starts with a digit. -/
theorem numeral_head (base : Nat) (body : List UInt8) (n : Nat) (h : Numeral base body n) :
    ∃ b d rest, body = d :: rest ∧ isDigitIn b d = true := by
  cases h with
  | plain _ _ hne hdigits | decimal _ _ hne _ hdigits =>
      obtain ⟨d, rest, rfl⟩ := List.exists_cons_of_ne_nil hne
      exact ⟨_, d, rest, rfl, hdigits d List.mem_cons_self⟩
  | hex x digits _ _ _ _ => exact ⟨10, 48, x :: digits, rfl, by decide⟩
  | octal _ _ hhead hdigits =>
      cases body with
      | nil => exact absurd hhead.symm (Option.some_ne_none _)
      | cons d rest => exact ⟨8, d, rest, rfl, hdigits d List.mem_cons_self⟩

/-- The sign that is found, and the text behind it. -/
theorem scanSign_spec (t : List UInt8) : ∃ sign, t = sign ++ (scanSign t).2 ∧
    ((sign = [45] ∧ (scanSign t).1 = true) ∨
      ((sign = [] ∨ sign = [43]) ∧ (scanSign t).1 = false)) := by
  cases t with
  | nil => exact ⟨[], rfl, .inr ⟨.inl rfl, rfl⟩⟩
  | cons b t =>
      unfold scanSign
      by_cases hminus : b = 45
      · subst hminus
        exact ⟨[45], rfl, .inl ⟨rfl, rfl⟩⟩
      · by_cases hplus : b = 43
        · subst hplus
          exact ⟨[43], rfl, .inr ⟨.inr rfl, rfl⟩⟩
        · simp only [if_neg hminus, if_neg hplus]
          exact ⟨[], rfl, .inr ⟨.inl rfl, trivial⟩⟩

theorem scanSign_append (sign body : List UInt8) (b : Nat) (d : UInt8) (rest : List UInt8)
    (hbody : body = d :: rest) (hd : isDigitIn b d = true)
    (hsign : sign = [45] ∨ sign = [] ∨ sign = [43]) :
    scanSign (sign ++ body) = (decide (sign = [45]), body) := by
  rcases not_blank_of_digit b d hd with ⟨-, hminus, hplus⟩
  subst hbody
  rcases hsign with rfl | rfl | rfl
  · rfl
  · rw [List.nil_append, scanSign, if_neg hminus, if_neg hplus]
    rfl
  · rfl

/-- All of a text is taken, and nothing is out of range, just if the text means a
    number in the range. -/
theorem strtol_whole_iff (lo hi : Int) (base : Nat) (s : List UInt8) (hs : s ≠ []) (v : Int) :
    ((strtol lo hi base s).rest = [] ∧ (strtol lo hi base s).erange = false ∧
      (strtol lo hi base s).result = v) ↔ Denotes base s v ∧ lo ≤ v ∧ v ≤ hi := by
  constructor
  · intro h
    obtain ⟨sign, hsplit, hsign⟩ := scanSign_spec (s.dropWhile isBlank)
    unfold strtol at h
    dsimp only at h
    revert h hsplit hsign
    generalize scanSign (s.dropWhile isBlank) = body
    intro h hsplit hsign
    have hnumeral := fun n => (numeral_iff base body.2 n).mp
    revert h hnumeral
    generalize chooseBase base body.2 = text
    intro h hnumeral
    by_cases hnone : text.2.takeWhile (isDigitIn text.1) = []
    · simp only [if_pos hnone] at h
      exact absurd h.1 hs
    · simp only [if_neg hnone, decide_eq_false_iff_not, not_or] at h
      rcases h with ⟨hrest, hrange, rfl⟩
      have hall := List.dropWhile_eq_nil_iff.mp hrest
      have htake : text.2.takeWhile (isDigitIn text.1) = text.2 :=
        List.takeWhile_eq_self_iff.mpr hall
      rw [htake] at hnone hrange ⊢
      have hn := hnumeral _ ⟨hnone, hall, rfl⟩
      generalize value text.1 text.2 = n at hn hrange ⊢
      have hv : ∀ w : Int, ¬ w < lo → ¬ hi < w → max lo (min hi w) = w := by omega
      rw [hv _ hrange.1 hrange.2]
      refine ⟨⟨s.takeWhile isBlank, sign, body.2, n, fun b hb => List.mem_takeWhile_imp hb, ?_, hn,
        ?_⟩, Int.not_lt.mp hrange.1, Int.not_lt.mp hrange.2⟩
      · rw [← hsplit, List.takeWhile_append_dropWhile]
      · rcases hsign with ⟨hsign, hminus⟩ | ⟨hsign, hminus⟩
        · exact .inl ⟨hsign, by rw [hminus, if_pos rfl]⟩
        · exact .inr ⟨hsign, by rw [hminus, if_neg (by decide)]⟩
  · rintro ⟨⟨blanks, sign, body, n, hblanks, rfl, hn, hsign⟩, hlo, hhi⟩
    obtain ⟨b, d, rest, hbody, hd⟩ := numeral_head base body n hn
    have hsigns : sign = [45] ∨ sign = [] ∨ sign = [43] := hsign.imp And.left And.left
    have hfirst : ∃ c t, sign ++ body = c :: t ∧ isBlank c = false := by
      rcases hsigns with rfl | rfl | rfl
      · exact ⟨45, body, rfl, by decide⟩
      · exact ⟨d, rest, hbody, (not_blank_of_digit b d hd).1⟩
      · exact ⟨43, body, rfl, by decide⟩
    have hdrop : (blanks ++ (sign ++ body)).dropWhile isBlank = sign ++ body := by
      obtain ⟨c, t, hct, hc⟩ := hfirst
      rw [List.dropWhile_append_of_pos hblanks, hct, List.dropWhile_cons, hc, if_neg (by decide)]
    obtain ⟨hne, hall, hval⟩ := (numeral_iff base body n).mpr hn
    have htake := List.takeWhile_eq_self_iff.mpr hall
    have hv : (if decide (sign = [45]) then -(n : Int) else n) = v := by
      rcases hsign with ⟨rfl, rfl⟩ | ⟨rfl | rfl, rfl⟩ <;> rfl
    unfold strtol
    rw [hdrop, scanSign_append sign body b d rest hbody hd hsigns]
    simp only [htake, if_neg hne, ← hval, hv, decide_eq_false_iff_not, not_or]
    exact ⟨List.dropWhile_eq_nil_iff.mpr hall, by omega, by omega⟩

/-! ### What is printed is read back -/

theorem digitValue_digitByte (d : Nat) (h : d < 16) : digitValue (digitByte d) = some d := by
  have hall : ∀ d < 16, digitValue (digitByte d) = some d := by decide
  exact hall d h

theorem value_reverse_map (base : Nat) (ds : List Nat) (h : ∀ d ∈ ds, d < 16) :
    value base (ds.map digitByte).reverse = Nat.ofDigits base ds := by
  induction ds with
  | nil => rfl
  | cons d ds ih =>
      have hd := digitValue_digitByte d (h d List.mem_cons_self)
      have hrest := ih (fun e he => h e (List.mem_cons_of_mem d he))
      unfold value at hrest ⊢
      rw [List.map_cons, List.reverse_cons, List.foldl_append, List.foldl_cons, List.foldl_nil, hd,
        hrest, Nat.ofDigits_cons, Option.getD_some, Nat.mul_comm, Nat.add_comm]

section Digits

variable (base : Nat) (hlow : 2 ≤ base) (hhigh : base ≤ 16)
include hlow hhigh

omit hlow in
theorem isDigitIn_digitByte (d : Nat) (h : d < base) : isDigitIn base (digitByte d) = true :=
  (isDigitIn_iff base _).mpr ⟨d, digitValue_digitByte d (Nat.lt_of_lt_of_le h hhigh), h⟩

theorem isDigitIn_of_mem (n : Nat) (b : UInt8) (hb : b ∈ digitsOf base n) :
    isDigitIn base b = true := by
  unfold digitsOf at hb
  split at hb
  · have hzero := isDigitIn_digitByte base hhigh 0 (by omega)
    rw [List.mem_singleton.mp hb]
    exact hzero
  · obtain ⟨d, hd, rfl⟩ := List.mem_map.mp (List.mem_reverse.mp hb)
    exact isDigitIn_digitByte base hhigh d (Nat.digits_lt_base (by omega) hd)

/-- The digits of a number are worth the number. -/
theorem value_digitsOf (n : Nat) : value base (digitsOf base n) = n := by
  unfold digitsOf
  split
  · rename_i hn
    have hzero : value base [48] = 0 * base + 0 := rfl
    rw [hn, hzero, Nat.zero_mul]
  · rw [value_reverse_map base _
      (fun d hd => Nat.lt_of_lt_of_le (Nat.digits_lt_base (by omega) hd) hhigh),
      Nat.ofDigits_digits]

omit hlow hhigh in
theorem digitsOf_ne_nil (n : Nat) : digitsOf base n ≠ [] := by
  unfold digitsOf
  split
  · exact List.cons_ne_nil _ _
  · rename_i hn
    rw [ne_eq, List.reverse_eq_nil_iff, List.map_eq_nil_iff]
    exact Nat.digits_ne_nil_iff_ne_zero.mpr hn

/-- A number other than zero does not start with a zero. -/
theorem head_digitsOf (n : Nat) (hn : n ≠ 0) : (digitsOf base n).head? ≠ some 48 := by
  have hne : Nat.digits base n ≠ [] := Nat.digits_ne_nil_iff_ne_zero.mpr hn
  have hlast := Nat.getLast_digit_ne_zero base hn
  have hlt : (Nat.digits base n).getLast hne < base :=
    Nat.digits_lt_base (by omega) (List.getLast_mem hne)
  unfold digitsOf
  rw [if_neg hn, List.head?_reverse, List.getLast?_map, List.getLast?_eq_some_getLast hne,
    Option.map_some]
  intro hc
  have hvalue := digitValue_digitByte _ (Nat.lt_of_lt_of_le hlt hhigh)
  rw [Option.some.inj hc] at hvalue
  exact hlast (Option.some.inj hvalue).symm

theorem numeral_digitsOf (n : Nat) : Numeral base (digitsOf base n) n := by
  have h : Numeral base (digitsOf base n) (value base (digitsOf base n)) :=
    .plain _ (by omega) (digitsOf_ne_nil base n) (isDigitIn_of_mem base hlow hhigh n)
  rwa [value_digitsOf base hlow hhigh n] at h

end Digits

/-- The digits of a number in base 10 mean it in base 0 too. -/
theorem numeral_digitsOf_ten (n : Nat) : Numeral 0 (digitsOf 10 n) n := by
  by_cases hn : n = 0
  · subst hn
    refine .octal [48] rfl rfl (fun b hb => ?_)
    rw [List.mem_singleton.mp hb]
    rfl
  · have h : Numeral 0 (digitsOf 10 n) (value 10 (digitsOf 10 n)) :=
      .decimal _ rfl (digitsOf_ne_nil 10 n) (head_digitsOf 10 (by decide) (by decide) n hn)
        (isDigitIn_of_mem 10 (by decide) (by decide) n)
    rwa [value_digitsOf 10 (by decide) (by decide) n] at h

/-- What is printed is read back. -/
theorem denotes_signed (base base' : Nat) (v : Int)
    (hnumeral : ∀ n, Numeral base' (digitsOf base n) n) :
    Denotes base' (signed base v) v := by
  have hnone : ∀ b ∈ ([] : List UInt8), isBlank b = true := fun _ hb => absurd hb List.not_mem_nil
  unfold signed
  split
  · exact ⟨[], [45], _, _, hnone, rfl, hnumeral _, .inl ⟨rfl, by omega⟩⟩
  · exact ⟨[], [], _, _, hnone, rfl, hnumeral _, .inr ⟨.inl rfl, by omega⟩⟩

/-- There is no NUL in what is printed. -/
theorem ne_zero_of_mem_signed (base : Nat) (hlow : 2 ≤ base) (hhigh : base ≤ 16) (v : Int)
    (b : UInt8) (hb : b ∈ signed base v) : b ≠ 0 := by
  have hdigits : b ∈ digitsOf base v.natAbs → b ≠ 0 := by
    intro hmem hzero
    have hdigit := isDigitIn_of_mem base hlow hhigh _ b hmem
    rw [hzero, isDigitIn_iff] at hdigit
    obtain ⟨d, hd, -⟩ := hdigit
    have hnone : digitValue 0 = none := by decide
    rw [hnone] at hd
    exact absurd hd.symm (Option.some_ne_none d)
  unfold signed at hb
  split at hb
  · rcases List.mem_cons.mp hb with rfl | hmem
    · decide
    · exact hdigits hmem
  · exact hdigits hb

end Numerals
