import Mathlib.Tactic.Common
import TlpiPractice.Core.Initgroups

/-!
# The Groups of a User

Which groups a process gets from `initgroups`.

The loop over the members comes to its end only where the user is a member, so
the function does what it should only if the user is a member of every group,
and if they all fit into the array.

## Main definitions

* `memberGids`: The groups of the user.
* `GroupsRight`: What the function should do.

## Theorems

* `scanMembers_isSome_iff`: When the loop over the members ends.
* `addGroups_eq_some_iff`: When the loop over the groups ends, and with what.
* `groupsRight_iff`: When the function is right.
* `stranger_wrong`: A group that is enough for it to be wrong.
-/

namespace TlpiPractice

namespace Initgroups

/-- The groups that have the user as a member, in the order of the database. -/
def memberGids (db : List Group) (user : CString) : List Gid :=
  (db.filter (fun gp => decide (user ∈ gp.grMem))).map Group.grGid

/-- The function should return and keep to the array, and if the first id and
    the groups of the user fit it should set these. -/
def GroupsRight (malloc : Bool) (setgroups : List Gid → Int) (db : List Group) (user : CString)
    (group : Gid) : Prop :=
  ∃ grouplist res, initgroups malloc setgroups db user group = .returned grouplist res ∧
    grouplist.length ≤ ngroupsMax + 1 ∧
    ((group :: memberGids db user).length ≤ ngroupsMax + 1 →
      grouplist = group :: memberGids db user)

/-- The loop over the members ends if the user is one. -/
theorem scanMembers_isSome_iff (user : CString) (mem : Nat) (members : List CString) :
    (scanMembers user mem members).isSome ↔ user ∈ members := by
  induction members generalizing mem with
  | nil => exact iff_of_false Bool.false_ne_true List.not_mem_nil
  | cons name rest ih =>
      rw [scanMembers, List.mem_cons]
      by_cases hname : name = user
      · rw [if_neg (fun hne => hne ((CString.strcmp_eq_zero_iff name user).mpr hname))]
        exact iff_of_true rfl (.inl hname.symm)
      · rw [if_pos (fun heq => hname ((CString.strcmp_eq_zero_iff name user).mp heq)), ih]
        exact ⟨.inr, fun h => h.resolve_left (fun heq => hname heq.symm)⟩

/-- The loop over the groups ends if the user is a member of all of them and
    there is room for all, and it has stored them all. -/
theorem addGroups_eq_some_iff (user : CString) (db : List Group) (grouplist found : List Gid)
    (hlen : grouplist.length ≤ ngroupsMax + 1) :
    addGroups user db grouplist = some found ↔
      (∀ gp ∈ db, user ∈ gp.grMem) ∧ grouplist.length + db.length ≤ ngroupsMax + 1 ∧
        found = grouplist ++ db.map Group.grGid := by
  induction db generalizing grouplist with
  | nil =>
      rw [addGroups, Option.some.injEq, List.map_nil, List.append_nil]
      exact ⟨fun h => ⟨fun gp hgp => absurd hgp List.not_mem_nil, hlen, h.symm⟩,
        fun h => h.2.2.symm⟩
  | cons gp db ih =>
      rw [addGroups, List.forall_mem_cons, ← scanMembers_isSome_iff user 0 gp.grMem,
        List.length_cons]
      cases hscan : scanMembers user 0 gp.grMem with
      | none =>
          -- The null pointer behind the members is compared.
          refine iff_of_false (fun h => ?_) (fun h => absurd h.1.1 Bool.false_ne_true)
          exact absurd h.symm (Option.some_ne_none found)
      | some mem =>
          by_cases hroom : grouplist.length < ngroupsMax + 1
          · -- One more id is in the array.
            have hlen' : (grouplist ++ [gp.grGid]).length = grouplist.length + 1 :=
              List.length_append
            simp only [if_pos hroom]
            rw [ih (grouplist ++ [gp.grGid]) (by omega), hlen', List.append_assoc]
            constructor
            · rintro ⟨hall, hle, rfl⟩
              exact ⟨⟨rfl, hall⟩, by omega, rfl⟩
            · rintro ⟨⟨-, hall⟩, hle, rfl⟩
              exact ⟨hall, by omega, rfl⟩
          · simp only [if_neg hroom]
            refine iff_of_false (fun h => ?_) (fun h => ?_)
            · exact absurd h.symm (Option.some_ne_none found)
            · omega

/-- The function is right exactly if there is memory, the user is a member of
    every group, and there are no more groups than the array has room for. -/
theorem groupsRight_iff (malloc : Bool) (setgroups : List Gid → Int) (db : List Group)
    (user : CString) (group : Gid) :
    GroupsRight malloc setgroups db user group ↔
      malloc = true ∧ (∀ gp ∈ db, user ∈ gp.grMem) ∧ db.length ≤ ngroupsMax := by
  have hone : [group].length ≤ ngroupsMax + 1 := Nat.succ_le_succ (Nat.zero_le _)
  unfold GroupsRight initgroups
  constructor
  · rintro ⟨grouplist, res, hreturned, -, -⟩
    cases malloc with
    | false => cases hreturned
    | true =>
        cases hadd : addGroups user db [group] with
        | none =>
            simp only [hadd] at hreturned
            cases hreturned
        | some found =>
            rcases (addGroups_eq_some_iff user db [group] found hone).mp hadd with
              ⟨hall, hle, -⟩
            rw [List.length_singleton] at hle
            exact ⟨rfl, hall, by omega⟩
  · rintro ⟨rfl, hall, hle⟩
    have hadd := (addGroups_eq_some_iff user db [group] _ hone).mpr
      ⟨hall, by rw [List.length_singleton]; omega, rfl⟩
    -- All the groups are those of the user.
    have hmember : memberGids db user = db.map Group.grGid := by
      rw [memberGids, List.filter_eq_self.mpr (fun gp hgp => decide_eq_true (hall gp hgp))]
    simp only [hadd, hmember]
    refine ⟨_, _, rfl, ?_, fun _ => rfl⟩
    rw [List.singleton_append, List.length_cons, List.length_map]
    omega

/-- A user who is not a member of the only group. -/
theorem stranger_wrong :
    ¬ GroupsRight true (fun _ => 0) [⟨10, []⟩] (CString.ofBytes [106, 111, 101]) 100 := by
  rintro ⟨grouplist, res, hreturned, -⟩
  cases hreturned

end Initgroups

end TlpiPractice
