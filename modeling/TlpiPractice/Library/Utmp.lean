import TlpiPractice.Library.CString

/-!
# The Files of Logins

The entries of `utmp` and `wtmp`, and what POSIX gives a program to look one
up and to write one.

The fields that hold text have a fixed number of bytes, and no NUL when the
text fills them. An entry of a process is looked up by its identifier, which
is a few bytes of the name of a terminal, and so is the place that a new entry
is written to. A look-up by terminal goes by the line.

## Main definitions

* `Utmpx`: An entry.
* `strncpy`: What a field holds.
* `getutxid`, `getutxline`: The look-ups.
* `pututxline`: A new entry.

## Theorems

* `getutxid_pututxline`: The entry that was written is found.
* `filter_pututxline_of_ne`: The entries with another identifier stay.
-/

namespace Utmp

open CString

/-- `ut_type`. -/
inductive UtType where
  | empty
  | runLvl
  | bootTime
  | newTime
  | oldTime
  | initProcess
  | loginProcess
  | userProcess
  | deadProcess
  | accounting
  deriving DecidableEq

/-- The types of entries that have an identifier. -/
def UtType.ofProcess : UtType → Bool
  | .initProcess | .loginProcess | .userProcess | .deadProcess => true
  | _ => false

/-- An entry, without the fields that nothing here sets or reads. -/
structure Utmpx where
  utType : UtType
  utPid : Int
  utLine : List UInt8
  utId : List UInt8
  utUser : List UInt8
  utTv : Int
  deriving DecidableEq

/-- A field of `n` bytes after `strncpy`. -/
def strncpy (src : CString) (n : Nat) : List UInt8 :=
  (src.bytes ++ List.replicate n 0).take n

/-- The entry has this identifier. -/
def sameId (id : List UInt8) (r : Utmpx) : Bool := r.utType.ofProcess && str r.utId == str id

/-- The first entry with an identifier. -/
def getutxid (utmp : List Utmpx) (id : List UInt8) : Option Utmpx := utmp.find? (sameId id)

/-- The entry is one of somebody at this terminal. -/
def sameLine (line : List UInt8) (r : Utmpx) : Bool :=
  (r.utType == .userProcess || r.utType == .loginProcess) && str r.utLine == str line

/-- The first entry of somebody at a terminal. -/
def getutxline (utmp : List Utmpx) (line : List UInt8) : Option Utmpx :=
  utmp.find? (sameLine line)

/-- `pututxline` after `setutxent`: the new entry takes the place of the first
    one with its identifier, or goes to the end. -/
def pututxline (ut : Utmpx) : List Utmpx → List Utmpx
  | [] => [ut]
  | r :: rest => if sameId ut.utId r then ut :: rest else r :: pututxline ut rest

theorem str_strncpy (src : CString) (n : Nat) : str (strncpy src n) = src.bytes.take n := by
  have htake : ∀ b ∈ src.bytes.take n, b ≠ 0 := fun b hb => src.noNul b (List.mem_of_mem_take hb)
  unfold strncpy
  rw [List.take_append, List.take_replicate]
  cases hk : min (n - src.bytes.length) n with
  | zero => rw [List.replicate_zero, List.append_nil, str_of_noNul _ htake]
  | succ k => rw [List.replicate_succ, str_append _ _ htake]

theorem mem_pututxline (ut r : Utmpx) (utmp : List Utmpx) (h : r ∈ pututxline ut utmp) :
    r = ut ∨ r ∈ utmp := by
  induction utmp with
  | nil => exact .inl (List.mem_singleton.mp h)
  | cons a rest ih =>
      rw [pututxline] at h
      split at h
      · rcases List.mem_cons.mp h with rfl | h
        · exact .inl rfl
        · exact .inr (List.mem_cons_of_mem a h)
      · rcases List.mem_cons.mp h with rfl | h
        · exact .inr List.mem_cons_self
        · exact (ih h).imp_right (List.mem_cons_of_mem a)

theorem getutxid_pututxline (ut : Utmpx) (utmp : List Utmpx) (h : ut.utType.ofProcess = true) :
    getutxid (pututxline ut utmp) ut.utId = some ut := by
  have hself : sameId ut.utId ut = true := by
    unfold sameId
    rw [h, beq_self_eq_true, Bool.and_self]
  unfold getutxid
  induction utmp with
  | nil => exact List.find?_cons_of_pos hself
  | cons a rest ih =>
      rw [pututxline]
      split
      · exact List.find?_cons_of_pos hself
      · rename_i ha
        rw [List.find?_cons_of_neg ha]
        exact ih

theorem filter_pututxline_of_ne (ut : Utmpx) (utmp : List Utmpx) (id : List UInt8)
    (h : str id ≠ str ut.utId) :
    (pututxline ut utmp).filter (sameId id) = utmp.filter (sameId id) := by
  have hother : ∀ r, str r.utId = str ut.utId → ¬ sameId id r = true := fun r hr hc => by
    have heq := beq_iff_eq.mp (Bool.and_eq_true_iff.mp hc).2
    exact h (heq.symm.trans hr)
  induction utmp with
  | nil => exact List.filter_cons_of_neg (hother ut rfl)
  | cons a rest ih =>
      rw [pututxline]
      split
      · rename_i ha
        have hid := beq_iff_eq.mp (Bool.and_eq_true_iff.mp ha).2
        rw [List.filter_cons_of_neg (hother ut rfl), List.filter_cons_of_neg (hother a hid)]
      · rw [List.filter_cons, List.filter_cons, ih]

theorem getutxid_congr (utmp utmp' : List Utmpx) (id : List UInt8)
    (h : utmp.filter (sameId id) = utmp'.filter (sameId id)) :
    getutxid utmp id = getutxid utmp' id := by
  unfold getutxid
  rw [← List.head?_filter, h, List.head?_filter]

end Utmp
