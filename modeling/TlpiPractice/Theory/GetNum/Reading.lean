import TlpiPractice.Core.GetNum

/-!
# Which Arguments Are Numbers

What `getLong` and `getInt` accept, and that they read back what is printed.

An argument is accepted just if all of it means a number, in the base that the
flags ask for, and this number is in the range of the type and one that the
flags allow. The checks are made one after the other, and each of them is about
what `strtol` has left behind; together they say what the text is, whatever
order they come in. The order only decides which text is written.

## Main definitions

* `Allows`: The numbers that the flags allow.
* `messages`: The texts that are written for what is not accepted.
* `printed`: A number in the base that the flags ask for.

## Theorems

* `getNum_ok_iff`: What the common part accepts.
* `reads_iff`: What the two functions accept.
* `reads_printed`: What is printed is read back.
-/

namespace TlpiPractice

namespace GetNum

open Ints Numerals

/-- The numbers that the flags allow. -/
def Allows (flags : Nat) (v : Int) : Prop :=
  (hasFlag flags gnNonneg = true → 0 ≤ v) ∧ (hasFlag flags gnGt0 = true → 0 < v)

/-- What can be wrong with an argument. -/
def messages : List String :=
  ["null or empty string", "strtol() failed", "nonnumeric characters",
    "negative value not allowed", "value must be > 0"]

/-- A number in the base that the flags ask for. -/
def printed (flags : Nat) (v : Int) : List UInt8 :=
  signed (if baseOf flags = 0 then 10 else baseOf flags) v

/-- A number is not an empty text. -/
theorem ne_nil_of_denotes (base : Nat) (s : List UInt8) (v : Int) (h : Denotes base s v) :
    s ≠ [] := by
  rintro rfl
  obtain ⟨blanks, sign, body, n, -, hs, hn, -⟩ := h
  obtain ⟨b, d, rest, hbody, -⟩ := numeral_head base body n hn
  have hnil := (List.append_eq_nil_iff.mp (List.append_eq_nil_iff.mp hs.symm).2).2
  exact absurd (hbody.symm.trans hnil) (List.cons_ne_nil d rest)

theorem getNum_some (fname : String) (s : CString) (flags : Nat) (name : Option CString) :
    getNum fname (some s) flags name =
      if s.bytes = [] then .error (gnFail fname "null or empty string" (some s) name)
      else if (strtol longMin longMax (baseOf flags) s.bytes).erange then
        .error (gnFail fname "strtol() failed" (some s) name)
      else if (strtol longMin longMax (baseOf flags) s.bytes).rest ≠ [] then
        .error (gnFail fname "nonnumeric characters" (some s) name)
      else if hasFlag flags gnNonneg ∧
          (strtol longMin longMax (baseOf flags) s.bytes).result < 0 then
        .error (gnFail fname "negative value not allowed" (some s) name)
      else if hasFlag flags gnGt0 ∧
          (strtol longMin longMax (baseOf flags) s.bytes).result ≤ 0 then
        .error (gnFail fname "value must be > 0" (some s) name)
      else .ok (strtol longMin longMax (baseOf flags) s.bytes).result := rfl

/-- What the common part accepts. -/
theorem getNum_ok_iff (fname : String) (arg : Option CString) (flags : Nat)
    (name : Option CString) (v : Int) :
    getNum fname arg flags name = .ok v ↔
      ∃ s, arg = some s ∧ Denotes (baseOf flags) s.bytes v ∧ (longMin ≤ v ∧ v ≤ longMax) ∧
        Allows flags v := by
  cases arg with
  | none =>
      refine ⟨fun h => ?_, fun ⟨s, hs, _⟩ => absurd hs.symm (Option.some_ne_none s)⟩
      cases h
  | some s =>
      have hwhole := strtol_whole_iff longMin longMax (baseOf flags) s.bytes
      rw [getNum_some]
      generalize strtol longMin longMax (baseOf flags) s.bytes = r at hwhole
      constructor
      · intro h
        by_cases hempty : s.bytes = []
        · rw [if_pos hempty] at h
          cases h
        · rw [if_neg hempty] at h
          split at h
          · cases h
          · rename_i herange
            split at h
            · cases h
            · rename_i hrest
              split at h
              · cases h
              · rename_i hnonneg
                split at h
                · cases h
                · rename_i hgt
                  cases h
                  rcases (hwhole hempty r.result).mp ⟨Classical.not_not.mp hrest,
                    Bool.not_eq_true _ ▸ herange, rfl⟩ with ⟨hd, hrange⟩
                  refine ⟨s, rfl, hd, hrange, fun hf => ?_, fun hf => ?_⟩
                  · exact Int.not_lt.mp (fun hc => hnonneg ⟨hf, hc⟩)
                  · exact Int.not_le.mp (fun hc => hgt ⟨hf, hc⟩)
      · rintro ⟨t, ht, hd, hrange, hnonneg, hgt⟩
        cases ht
        have hempty := ne_nil_of_denotes _ _ _ hd
        rcases (hwhole hempty v).mpr ⟨hd, hrange⟩ with ⟨hrest, herange, rfl⟩
        rw [if_neg hempty, if_neg (by rw [herange]; decide), if_neg (fun hc => hc hrest),
          if_neg (fun hc => absurd (hnonneg hc.1) (Int.not_le.mpr hc.2)),
          if_neg (fun hc => absurd (hgt hc.1) (Int.not_lt.mpr hc.2))]

/-- What is written for what is not accepted. -/
theorem getNum_error (fname : String) (arg : Option CString) (flags : Nat)
    (name : Option CString) (text : List UInt8) (h : getNum fname arg flags name = .error text) :
    ∃ msg ∈ messages, text = gnFail fname msg arg name := by
  cases arg with
  | none =>
      cases h
      exact ⟨_, List.mem_cons_self, rfl⟩
  | some s =>
      rw [getNum_some] at h
      split at h
      · cases h
        exact ⟨_, .head _, rfl⟩
      · split at h
        · cases h
          exact ⟨_, .tail _ (.head _), rfl⟩
        · split at h
          · cases h
            exact ⟨_, .tail _ (.tail _ (.head _)), rfl⟩
          · split at h
            · cases h
              exact ⟨_, .tail _ (.tail _ (.tail _ (.head _))), rfl⟩
            · split at h
              · cases h
                exact ⟨_, .tail _ (.tail _ (.tail _ (.tail _ (.head _)))), rfl⟩
              · cases h

/-- An `int` is accepted like a `long` in its smaller range. -/
theorem getInt_ok_iff (arg : Option CString) (flags : Nat) (name : Option CString) (v : Int) :
    getInt arg flags name = .ok v ↔
      ∃ s, arg = some s ∧ Denotes (baseOf flags) s.bytes v ∧ (intMin ≤ v ∧ v ≤ intMax) ∧
        Allows flags v := by
  have hnum := getNum_ok_iff "getInt" arg flags name
  have hlong : ∀ w, intMin ≤ w ∧ w ≤ intMax → longMin ≤ w ∧ w ≤ longMax := by
    unfold intMin intMax longMin longMax
    omega
  unfold getInt
  cases h : getNum "getInt" arg flags name with
  | error text =>
      refine ⟨fun hc => ?_, fun ⟨s, hs, hd, hrange, hallows⟩ => ?_⟩
      · cases hc
      · have hok := (hnum v).mpr ⟨s, hs, hd, hlong v hrange, hallows⟩
        rw [h] at hok
        cases hok
  | ok res =>
      obtain ⟨s, hs, hd, -, hallows⟩ := (hnum res).mp h
      by_cases hfits : intMax < res ∨ res < intMin
      · simp only [if_pos hfits]
        refine ⟨fun hc => ?_, fun ⟨t, ht, hdt, hrange, hat⟩ => ?_⟩
        · cases hc
        · have hok := (hnum v).mpr ⟨t, ht, hdt, hlong v hrange, hat⟩
          rw [h] at hok
          cases hok
          omega
      · simp only [if_neg hfits]
        refine ⟨fun hc => ?_, fun ⟨t, ht, hdt, hrange, hat⟩ => ?_⟩
        · cases hc
          exact ⟨s, hs, hd, by omega, hallows⟩
        · rw [← h]
          exact (hnum v).mpr ⟨t, ht, hdt, hlong v hrange, hat⟩

theorem getInt_error (arg : Option CString) (flags : Nat) (name : Option CString)
    (text : List UInt8) (h : getInt arg flags name = .error text) :
    ∃ msg ∈ "integer out of range" :: messages, text = gnFail "getInt" msg arg name := by
  unfold getInt at h
  split at h
  · rename_i text' hnum
    cases h
    obtain ⟨msg, hmsg, htext⟩ := getNum_error "getInt" arg flags name text hnum
    exact ⟨msg, List.mem_cons_of_mem _ hmsg, htext⟩
  · split at h
    · cases h
      exact ⟨_, List.mem_cons_self, rfl⟩
    · cases h

/-- An argument is accepted just if it means a number in the range of the type
    and allowed by the flags, and this number is returned. For the rest a text is
    written that names the function, the message, the variable and the argument. -/
theorem reads_iff (arg : Option CString) (flags : Nat) (name : Option CString) :
    (∀ v, getLong arg flags name = .ok v ↔
      ∃ s, arg = some s ∧ Denotes (baseOf flags) s.bytes v ∧ (longMin ≤ v ∧ v ≤ longMax) ∧
        Allows flags v) ∧
    (∀ v, getInt arg flags name = .ok v ↔
      ∃ s, arg = some s ∧ Denotes (baseOf flags) s.bytes v ∧ (intMin ≤ v ∧ v ≤ intMax) ∧
        Allows flags v) ∧
    (∀ text, getLong arg flags name = .error text →
      ∃ msg ∈ messages, text = gnFail "getLong" msg arg name) ∧
    (∀ text, getInt arg flags name = .error text →
      ∃ msg ∈ "integer out of range" :: messages, text = gnFail "getInt" msg arg name) :=
  ⟨getNum_ok_iff "getLong" arg flags name, getInt_ok_iff arg flags name,
    getNum_error "getLong" arg flags name, getInt_error arg flags name⟩

/-! ### What is printed -/

theorem baseOf_cases (flags : Nat) :
    baseOf flags = 0 ∨ baseOf flags = 8 ∨ baseOf flags = 16 ∨ baseOf flags = 10 := by
  unfold baseOf
  split
  · exact .inl rfl
  · split
    · exact .inr (.inl rfl)
    · split
      · exact .inr (.inr (.inl rfl))
      · exact .inr (.inr (.inr rfl))

theorem denotes_printed (flags : Nat) (v : Int) : Denotes (baseOf flags) (printed flags v) v := by
  unfold printed
  rcases baseOf_cases flags with hbase | hbase | hbase | hbase <;> rw [hbase]
  · exact denotes_signed 10 0 v numeral_digitsOf_ten
  · exact denotes_signed 8 8 v (numeral_digitsOf 8 (by decide) (by decide))
  · exact denotes_signed 16 16 v (numeral_digitsOf 16 (by decide) (by decide))
  · exact denotes_signed 10 10 v (numeral_digitsOf 10 (by decide) (by decide))

theorem noNul_printed (flags : Nat) (v : Int) (b : UInt8) (hb : b ∈ printed flags v) : b ≠ 0 := by
  unfold printed at hb
  rcases baseOf_cases flags with hbase | hbase | hbase | hbase <;> rw [hbase] at hb
  · exact ne_zero_of_mem_signed 10 (by decide) (by decide) v b hb
  · exact ne_zero_of_mem_signed 8 (by decide) (by decide) v b hb
  · exact ne_zero_of_mem_signed 16 (by decide) (by decide) v b hb
  · exact ne_zero_of_mem_signed 10 (by decide) (by decide) v b hb

/-- What is printed in the base that the flags ask for is read back, as a `long`
    and, if it is one, as an `int`. -/
theorem reads_printed (flags : Nat) (name : Option CString) (v : Int) (hallows : Allows flags v) :
    (longMin ≤ v ∧ v ≤ longMax →
      getLong (some ⟨printed flags v, noNul_printed flags v⟩) flags name = .ok v) ∧
    (intMin ≤ v ∧ v ≤ intMax →
      getInt (some ⟨printed flags v, noNul_printed flags v⟩) flags name = .ok v) :=
  ⟨fun hrange => (getNum_ok_iff _ _ flags name v).mpr
      ⟨_, rfl, denotes_printed flags v, hrange, hallows⟩,
    fun hrange => (getInt_ok_iff _ flags name v).mpr
      ⟨_, rfl, denotes_printed flags v, hrange, hallows⟩⟩

/-- In base 16, and not negative. -/
theorem reads_printed_hex :
    (longMin ≤ 48879 ∧ (48879 : Int) ≤ longMax →
      getLong (some ⟨printed 257 48879, noNul_printed 257 48879⟩) 257 none = .ok 48879) ∧
    (intMin ≤ 48879 ∧ (48879 : Int) ≤ intMax →
      getInt (some ⟨printed 257 48879, noNul_printed 257 48879⟩) 257 none = .ok 48879) :=
  reads_printed 257 none 48879 ⟨fun _ => by decide, fun h => absurd h (by decide)⟩

end GetNum

end TlpiPractice
