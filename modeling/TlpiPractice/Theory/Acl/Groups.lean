import TlpiPractice.Theory.Acl.Users

/-!
# The Verdict Through Groups

What the program prints for a user who neither owns the file nor is named in
the list, and for a group.

A group that is asked about is compared with the named groups only, so the
owning group gets the line for the others. For a user no candidate is ever
examined: the program comes through the database only if no group has a
member, and to the database only if no user is named. Then nobody is a
candidate, and the line for the others is right.

## Main definitions

* `Query.Candidate`: The groups to check.
* `InScope`: A user who gets no line of its own.
* `GroupRight`: What the program should do for its groups.

## Theorems

* `grpList_perm`: The nodes of the named groups.
* `AccessList.filterMap_perm_of_none`: What is picked if no named entry counts.
* `mask_scan`: The mask that the program goes by.
* `rwx_masked`: The three characters of a line with a mask.
* `matchGroups_singleton`: What one candidate finds.
* `main_g`: What is printed for a group.
* `groupRight_g`, `groupRight_u`: When the program is right, for each kind.
* `groupRight_iff`: When the program is right.
* `owningGroup_wrong`: A file for which it is not.
-/

namespace TlpiPractice

namespace Acl

open Ints Loops

/-- The groups that should be checked. -/
def Query.Candidate (db : List Group) : Query → UInt32 → Prop
  | .u _ uname, gid => ∃ ent ∈ db, ent.grGid = gid ∧ uname ∈ ent.grMem
  | .g id, gid => gid = id

/-- A user who is neither the owner nor named, or any group. -/
def InScope (acl : AccessList) (stUid : UInt32) : Query → Prop
  | .u uid _ => uid ≠ stUid ∧ uid ∉ acl.users.map Prod.fst
  | .g _ => True

/-- The owning group and the named ones, with their permissions. -/
def AccessList.groupEntries (acl : AccessList) (stGid : UInt32) : List (UInt32 × Permset) :=
  (stGid, acl.groupObj) :: acl.groups

/-- The program should end with the candidates examined, and print the line of
    an entry whose group is one of them, or that of the others if there is no
    such entry. -/
def GroupRight (acl : AccessList) (stUid stGid : UInt32) (db : List Group) (junk : BitVec 32)
    (query : Query) : Prop :=
  ∃ fuel lines grpToCheck,
    main fuel query ⟨stUid, stGid, acl.entries⟩ db junk = some (.returned lines grpToCheck) ∧
    (∀ gid, gid ∈ grpToCheck ↔ query.Candidate db gid) ∧
    ((∃ p ∈ acl.groupEntries stGid, query.Candidate db p.1) →
      ∃ p ∈ acl.groupEntries stGid, query.Candidate db p.1 ∧
        ∃ label id, label ≠ "other" ∧ lines = [⟨label, id, (p.2.masked acl.mask).chars⟩]) ∧
    (lines = [⟨"other", none, acl.other.chars⟩] ↔
      ∀ p ∈ acl.groupEntries stGid, ¬ query.Candidate db p.1)

/-! ### The loop over the entries -/

/-- The node for a named group. -/
def grpNode : Entry → Option GrpNode
  | .group gid perm => some ⟨gid, getPerm perm⟩
  | _ => none

/-- The nodes are those of the named groups. -/
theorem grpList_perm (acl : AccessList) (stUid stGid : UInt32) (junk : BitVec 32) :
    (scan ⟨stUid, stGid, acl.entries⟩ junk).grpList.Perm
      (acl.groups.map (fun p => ⟨p.1, getPerm p.2⟩)) := by
  rw [scan, foldl_pick grpNode Scan.grpList (fun s entry => by cases entry <;> rfl),
    List.append_nil]
  refine (List.reverse_perm _).trans ((acl.filterMap_perm grpNode).trans ?_)
  -- Only the entries of named groups give a node.
  have husers : acl.users.filterMap (fun p => grpNode (.user p.1 p.2)) = [] :=
    List.filterMap_eq_nil_iff.mpr (fun _ _ => rfl)
  have hgroups : acl.groups.filterMap (fun p => grpNode (.group p.1 p.2)) =
      acl.groups.map (fun p => ⟨p.1, getPerm p.2⟩) :=
    congrFun (List.filterMap_eq_map (f := fun p : UInt32 × Permset =>
      (⟨p.1, getPerm p.2⟩ : GrpNode))) acl.groups
  have hmask : acl.mask.toList.filterMap (fun perm => grpNode (.mask perm)) = [] :=
    List.filterMap_eq_nil_iff.mpr (fun _ _ => rfl)
  rw [husers, hgroups, hmask, List.append_nil, List.nil_append]
  exact List.Perm.refl _

/-- The permissions of the mask. -/
def maskPerm : Entry → Option Permset
  | .mask perm => some perm
  | _ => none

/-- The permissions of the others. -/
def otherPerm : Entry → Option Permset
  | .other perm => some perm
  | _ => none

/-- Nothing is picked from a named entry. -/
theorem AccessList.filterMap_perm_of_none {β : Type} (acl : AccessList)
    (pick : Entry → Option β) (huser : ∀ uid perm, pick (.user uid perm) = none)
    (hgroup : ∀ gid perm, pick (.group gid perm) = none) :
    (acl.entries.filterMap pick).Perm
      ([Entry.userObj acl.userObj, .groupObj acl.groupObj, .other acl.other].filterMap pick ++
        acl.mask.toList.filterMap (fun perm => pick (.mask perm))) := by
  have hperm := acl.filterMap_perm pick
  have husers : acl.users.filterMap (fun p => pick (.user p.1 p.2)) = [] :=
    List.filterMap_eq_nil_iff.mpr (fun p _ => huser p.1 p.2)
  have hgroups : acl.groups.filterMap (fun p => pick (.group p.1 p.2)) = [] :=
    List.filterMap_eq_nil_iff.mpr (fun p _ => hgroup p.1 p.2)
  rw [husers, hgroups] at hperm
  exact hperm

/-- The mask is that of the list, and leaves everything if there is none. -/
theorem mask_scan (acl : AccessList) (stUid stGid : UInt32) (junk : BitVec 32) :
    (scan ⟨stUid, stGid, acl.entries⟩ junk).mask = acl.mask.elim 7 getPerm := by
  -- The last entry that sets the number is the one that counts.
  rw [scan, foldl_scan maskPerm Scan.mask (fun _ perm => getPerm perm)
    (fun s entry => by cases entry <;> rfl)]
  have hperm := acl.filterMap_perm_of_none maskPerm (fun _ _ => rfl) (fun _ _ => rfl)
  cases hmask : acl.mask with
  | none =>
      rw [hmask] at hperm
      rw [List.Perm.eq_nil hperm]
      rfl
  | some mask =>
      rw [hmask] at hperm
      rw [List.perm_singleton.mp hperm]
      rfl

/-- The permissions of the others are those of the list. -/
theorem other_scan (acl : AccessList) (stUid stGid : UInt32) (junk : BitVec 32) :
    (scan ⟨stUid, stGid, acl.entries⟩ junk).other = getPerm acl.other := by
  rw [scan, foldl_scan otherPerm Scan.other (fun _ perm => getPerm perm)
    (fun s entry => by cases entry <;> rfl)]
  have hperm := acl.filterMap_perm_of_none otherPerm (fun _ _ => rfl) (fun _ _ => rfl)
  have hmask : acl.mask.toList.filterMap (fun perm => otherPerm (.mask perm)) = [] :=
    List.filterMap_eq_nil_iff.mpr (fun _ _ => rfl)
  rw [hmask] at hperm
  rw [List.perm_singleton.mp hperm]
  rfl

/-! ### What is printed -/

/-- The three bits are the three permissions. -/
theorem rwx_getPerm (perm : Permset) : rwx (getPerm perm) = perm.chars := by
  rcases perm with ⟨_ | _, _ | _, _ | _⟩ <;> rfl

/-- With the mask the bits are those that both have. -/
theorem rwx_masked (perm : Permset) (mask : Option Permset) :
    rwx (getPerm perm &&& mask.elim 7 getPerm) = (perm.masked mask).chars := by
  rw [← rwx_getPerm]
  congr 1
  rcases mask with _ | ⟨_ | _, _ | _, _ | _⟩ <;> rcases perm with ⟨_ | _, _ | _, _ | _⟩ <;> rfl

/-- One candidate finds the named group that it is, if there is one. -/
theorem matchGroups_singleton (acl : AccessList) (uid stUid stGid gid : UInt32)
    (junk : BitVec 32) :
    (gid ∉ acl.groups.map Prod.fst ∧
        matchGroups uid (scan ⟨stUid, stGid, acl.entries⟩ junk).mask
          (scan ⟨stUid, stGid, acl.entries⟩ junk).grpList [gid] = none) ∨
      ∃ perm, (gid, perm) ∈ acl.groups ∧
        matchGroups uid (scan ⟨stUid, stGid, acl.entries⟩ junk).mask
          (scan ⟨stUid, stGid, acl.entries⟩ junk).grpList [gid] =
            some ⟨"group", some (wrap uid.toNat), (perm.masked acl.mask).chars⟩ := by
  have hmem : ∀ node, node ∈ (scan ⟨stUid, stGid, acl.entries⟩ junk).grpList ↔
      node ∈ acl.groups.map (fun p => (⟨p.1, getPerm p.2⟩ : GrpNode)) :=
    fun node => (grpList_perm acl stUid stGid junk).mem_iff
  rw [mask_scan]
  unfold matchGroups
  rw [List.findSome?_singleton]
  cases hfind : (scan ⟨stUid, stGid, acl.entries⟩ junk).grpList.find?
      (fun p => decide (gid = p.gid)) with
  | none =>
      refine Or.inl ⟨fun hin => ?_, rfl⟩
      rcases List.mem_map.mp hin with ⟨p, hp, rfl⟩
      exact List.find?_eq_none.mp hfind _ ((hmem _).mpr (List.mem_map_of_mem hp))
        (decide_eq_true rfl)
  | some node =>
      rcases List.mem_map.mp ((hmem node).mp (List.mem_of_find?_eq_some hfind)) with
        ⟨⟨id, perm⟩, hp, rfl⟩
      have hgid : gid = id := by simpa using List.find?_some hfind
      refine Or.inr ⟨perm, hgid ▸ hp, ?_⟩
      rw [Option.map_some, rwx_masked]

/-- For a group the program prints the line of the named one, if it is named,
    and that of the others otherwise. -/
theorem main_g (acl : AccessList) (stUid stGid gid : UInt32) (db : List Group)
    (junk : BitVec 32) (fuel : Nat) :
    (gid ∉ acl.groups.map Prod.fst ∧
        main fuel (.g gid) ⟨stUid, stGid, acl.entries⟩ db junk =
          some (.returned [⟨"other", none, acl.other.chars⟩] [gid])) ∨
      ∃ perm id, (gid, perm) ∈ acl.groups ∧
        main fuel (.g gid) ⟨stUid, stGid, acl.entries⟩ db junk =
          some (.returned [⟨"group", id, (perm.masked acl.mask).chars⟩] [gid]) := by
  rcases matchGroups_singleton acl 0 stUid stGid gid junk with ⟨hin, hmatch⟩ | ⟨perm, hin, hmatch⟩
  · refine Or.inl ⟨hin, ?_⟩
    simp only [main, finish, hmatch, other_scan, rwx_getPerm, List.nil_append]
  · refine Or.inr ⟨perm, some (wrap (0 : UInt32).toNat), hin, ?_⟩
    simp only [main, finish, hmatch, List.nil_append]

/-- For a group, the owning group must be a named one too. -/
theorem groupRight_g (acl : AccessList) (stUid stGid gid : UInt32) (db : List Group)
    (junk : BitVec 32) :
    GroupRight acl stUid stGid db junk (.g gid) ↔
      gid ≠ stGid ∨ gid ∈ acl.groups.map Prod.fst := by
  constructor
  · rintro ⟨fuel, lines, checked, hmain, -, hgroup, -⟩
    by_cases hown : gid = stGid
    · refine Or.inr ?_
      rcases main_g acl stUid stGid gid db junk fuel with ⟨-, hother⟩ | ⟨perm, id, hin, -⟩
      · -- The owning group gets the line for the others.
        rcases hgroup ⟨_, List.mem_cons_self, hown.symm⟩ with ⟨p, -, -, label, id, hne, hlines⟩
        rw [hother] at hmain
        injection Option.some.inj hmain with hprinted
        rw [← hprinted] at hlines
        exact absurd (congrArg Line.label (List.head_eq_of_cons_eq hlines)).symm hne
      · exact List.mem_map_of_mem hin
    · exact Or.inl hown
  · intro hcond
    rcases main_g acl stUid stGid gid db junk 0 with ⟨hnot, hmain⟩ | ⟨perm, id, hin, hmain⟩
    · have hown : gid ≠ stGid := hcond.resolve_right hnot
      -- It is neither the owning group nor a named one.
      have hnone : ∀ p ∈ acl.groupEntries stGid, p.1 ≠ gid := by
        intro p hp
        rcases List.mem_cons.mp hp with rfl | hp
        · exact hown.symm
        · exact fun heq => hnot (heq ▸ List.mem_map_of_mem hp)
      refine ⟨0, _, _, hmain, fun g => List.mem_singleton, ?_, iff_of_true rfl hnone⟩
      rintro ⟨p, hp, heq⟩
      exact absurd heq (hnone p hp)
    · have hentry : (gid, perm) ∈ acl.groupEntries stGid := List.mem_cons_of_mem _ hin
      refine ⟨0, _, _, hmain, fun g => List.mem_singleton, fun _ => ?_, iff_of_false ?_ ?_⟩
      · exact ⟨(gid, perm), hentry, rfl, "group", id, by decide, rfl⟩
      · intro hlines
        have hlabel : "group" = "other" := congrArg Line.label (List.head_eq_of_cons_eq hlines)
        exact absurd hlabel (by decide)
      · exact fun hnone => hnone (gid, perm) hentry rfl

/-- For a user, nobody may be named and no group may have a member. -/
theorem groupRight_u (acl : AccessList) (stUid stGid uid : UInt32) (uname : CString)
    (db : List Group) (junk : BitVec 32) (hscope : InScope acl stUid (.u uid uname)) :
    GroupRight acl stUid stGid db junk (.u uid uname) ↔
      acl.users = [] ∧ ∀ ent ∈ db, ent.grMem = [] := by
  have howner : (scan ⟨stUid, stGid, acl.entries⟩ junk).userObj.uid = stUid :=
    userObj_uid_foldl acl.entries _
  have hperm := usrList_perm acl stUid stGid junk
  constructor
  · rintro ⟨fuel, lines, checked, hmain, -⟩
    rcases main_user fuel _ db junk uid uname (howner.symm ▸ hscope.1) lines checked hmain with
      ⟨p, rest, hcons, hp, -⟩ | ⟨hnil, hmem⟩
    · -- The user is not named, so this is not the head.
      have hin : p ∈ acl.users.map (fun p => (⟨p.1, getPerm p.2⟩ : UsrNode)) :=
        hperm.mem_iff.mp (hcons ▸ List.mem_cons_self)
      rcases List.mem_map.mp hin with ⟨named, hentry, rfl⟩
      exact absurd (hp ▸ List.mem_map_of_mem hentry) hscope.2
    · rw [hnil] at hperm
      exact ⟨List.map_eq_nil_iff.mp hperm.nil_eq.symm, hmem⟩
  · rintro ⟨husers, hmem⟩
    rw [husers, List.map_nil] at hperm
    have hcheck := (checkGroups_eq_some_iff uname.bytes db [] []).mpr ⟨rfl, hmem⟩
    have hmain : main 1 (.u uid uname) ⟨stUid, stGid, acl.entries⟩ db junk =
        some (.returned [⟨"other", none, acl.other.chars⟩] []) := by
      simp only [main, howner, if_neg hscope.1, hperm.eq_nil, run, userTurn, hcheck, finish,
        matchGroups, List.findSome?_nil, other_scan, rwx_getPerm, List.nil_append]
    -- Nobody is a candidate where no group has a member.
    have hnone : ∀ gid, ¬ Query.Candidate db (.u uid uname) gid := by
      rintro gid ⟨ent, hent, -, hin⟩
      rw [hmem ent hent] at hin
      cases hin
    refine ⟨1, _, _, hmain, fun gid => ?_, ?_, iff_of_true rfl (fun p _ => hnone p.1)⟩
    · exact iff_of_false List.not_mem_nil (hnone gid)
    · rintro ⟨p, -, hcand⟩
      exact absurd hcand (hnone p.1)

/-- The program is right exactly for a user where nobody is named in the list
    and no group has a member, and for a group that is not the owning one or is
    named as well. -/
theorem groupRight_iff (acl : AccessList) (stUid stGid : UInt32) (db : List Group)
    (junk : BitVec 32) (query : Query) (hscope : InScope acl stUid query) :
    GroupRight acl stUid stGid db junk query ↔
      match query with
      | .u _ _ => acl.users = [] ∧ ∀ ent ∈ db, ent.grMem = []
      | .g gid => gid ≠ stGid ∨ gid ∈ acl.groups.map Prod.fst := by
  cases query with
  | u uid uname => exact groupRight_u acl stUid stGid uid uname db junk hscope
  | g gid => exact groupRight_g acl stUid stGid gid db junk

/-- A user without groups gets the line for the others. -/
theorem groupRight_joe : GroupRight minimal 1000 100 [⟨50, []⟩] 0 (.u 1001 joe) :=
  (groupRight_iff minimal 1000 100 [⟨50, []⟩] 0 (.u 1001 joe)
    ⟨by decide, List.not_mem_nil⟩).mpr
    ⟨rfl, fun ent hent => by rw [List.mem_singleton.mp hent]⟩

/-- The owning group of the file gets the line for the others. -/
theorem owningGroup_wrong : ¬ GroupRight minimal 1000 100 [] 0 (.g 100) := by
  intro h
  rcases (groupRight_g minimal 1000 100 100 [] 0).mp h with hne | hin
  · exact hne rfl
  · cases hin

end Acl

end TlpiPractice
