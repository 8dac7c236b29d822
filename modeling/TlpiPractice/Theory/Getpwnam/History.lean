import Mathlib.Tactic.Common
import TlpiPractice.Core.Getpwnam

/-!
# What a Lookup Remembers

How a call of `m_getpwnam` depends on the calls before it.

A call that finds its name leaves the database as it should be, at its first
entry. A call that does not find it gives nothing back, and leaves the cursor
at the end, so that no later call finds anything. So the function does what it
should only as long as every name is there.

## Main definitions

* `LookupsRight`: What a sequence of calls should give.

## Theorems

* `getpwnam_of_mem`, `getpwnam_of_notMem`: A name that is there, or not.
* `lookupsRight_iff`: When the calls are right.
* `miss_wrong`: A name that is there and is not found.
-/

namespace TlpiPractice

namespace Getpwnam

/-- Every call should give the first entry with its name, or the null pointer
    if there is none. -/
def LookupsRight (db : List Passwd) (names : List CString) : Prop :=
  calls db names db =
    names.map (fun name => .returned (db.find? (fun pwd => decide (pwd.pwName = name))))

/-- A name that is there is found, and the database is rewound. -/
theorem getpwnam_of_mem (db : List Passwd) (name : CString) (cursor : List Passwd)
    (h : ∃ pwd ∈ cursor, pwd.pwName = name) :
    getpwnam db name cursor =
      (.returned (cursor.find? (fun pwd => decide (pwd.pwName = name))), db) := by
  induction cursor with
  | nil =>
      rcases h with ⟨pwd, hpwd, -⟩
      cases hpwd
  | cons pwd cursor ih =>
      rw [getpwnam]
      by_cases hname : pwd.pwName = name
      · rw [if_pos ((CString.strcmp_eq_zero_iff _ _).mpr hname), List.find?_cons,
          decide_eq_true hname, endpwent]
      · rw [if_neg (fun heq => hname ((CString.strcmp_eq_zero_iff _ _).mp heq)), List.find?_cons,
          decide_eq_false hname]
        -- The name is not that of this entry, so it is behind it.
        refine ih ?_
        rcases h with ⟨pwd', hpwd', hname'⟩
        rcases List.mem_cons.mp hpwd' with rfl | hin
        · exact absurd hname' hname
        · exact ⟨pwd', hin, hname'⟩

/-- A name that is not there gives no value, and leaves the cursor at the
    end. -/
theorem getpwnam_of_notMem (db : List Passwd) (name : CString) (cursor : List Passwd)
    (h : ∀ pwd ∈ cursor, pwd.pwName ≠ name) : getpwnam db name cursor = (.fellOff, []) := by
  induction cursor with
  | nil => rfl
  | cons pwd cursor ih =>
      rw [getpwnam, if_neg (fun heq =>
        h pwd List.mem_cons_self ((CString.strcmp_eq_zero_iff _ _).mp heq))]
      exact ih (fun pwd' hpwd' => h pwd' (List.mem_cons_of_mem pwd hpwd'))

/-- The calls are right exactly if every name is in the database. -/
theorem lookupsRight_iff (db : List Passwd) (names : List CString) :
    LookupsRight db names ↔ ∀ name ∈ names, ∃ pwd ∈ db, pwd.pwName = name := by
  unfold LookupsRight
  induction names with
  | nil => exact iff_of_true rfl (fun name hname => absurd hname List.not_mem_nil)
  | cons name names ih =>
      rw [List.forall_mem_cons, calls, List.map_cons]
      by_cases hmem : ∃ pwd ∈ db, pwd.pwName = name
      · -- The next call begins where this one did.
        rw [getpwnam_of_mem db name db hmem]
        simp only [List.cons.injEq, true_and]
        rw [ih]
        exact ⟨fun h => ⟨hmem, h⟩, fun h => h.2⟩
      · -- This call has no value already, whatever the later ones give.
        have hnone : ∀ pwd ∈ db, pwd.pwName ≠ name :=
          fun pwd hpwd heq => hmem ⟨pwd, hpwd, heq⟩
        rw [getpwnam_of_notMem db name db hnone]
        refine iff_of_false (fun h => ?_) (fun h => hmem h.1)
        cases List.head_eq_of_cons_eq h

/-- `root`. -/
def root : Passwd :=
  { pwName := .ofBytes [114, 111, 111, 116], pwPasswd := .ofBytes [120], pwUid := 0, pwGid := 0
    pwGecos := .empty, pwDir := .ofBytes [47], pwShell := .empty }

/-- After a name that is not there, the one that is there is not found. -/
theorem miss_wrong :
    (calls [root] [.empty, root.pwName] [root])[1]? ≠ some (.returned (some root)) ∧
      ¬ LookupsRight [root] [.empty, root.pwName] := by
  have hcalls : calls [root] [.empty, root.pwName] [root] = [.fellOff, .fellOff] := by decide
  refine ⟨fun h => ?_, fun h => ?_⟩
  · rw [hcalls] at h
    cases Option.some.inj h
  · rw [LookupsRight, hcalls] at h
    cases List.head_eq_of_cons_eq h

end Getpwnam

end TlpiPractice
