import Mathlib.Data.List.Perm.Basic
import Mathlib.Tactic.Common
import TlpiPractice.Core.Acl

/-!
# The Verdict on a User

What the program prints for a user: one line if the user owns the file or is
named in the list, and no line for a group or for the others after it.

That line is always followed by one for the others, since the groups to check
are none then, and nothing says that a line has been printed. A named user is
found only at the head of the nodes, which is where the last of them has been
put. Otherwise the loop stays at the head. So the program does what it should
only if there is nothing to find, and then it has to come past the groups.

## Main definitions

* `AccessList`: A list that the kernel accepts.
* `UserRight`: What the program should do for a user.

## Theorems

* `foldl_scan`: What the loop over the entries does to a part of its state.
* `foldl_pick`: What it collects in a list.
* `AccessList.filterMap_perm`: What is picked from the entries.
* `usrList_perm`: The nodes of the named users.
* `checkMembers_eq_none`: The loop over the members leaves the string.
* `checkGroups_eq_some_iff`: When the loop over the groups ends.
* `returns_user`: What the loop over the named users finds.
* `length_finish`: One more line is printed last.
* `userRight_iff`: When the program is right.
* `owner_wrong`: A file for which it is not.
-/

namespace TlpiPractice

namespace Acl

open Ints Loops

/-- A list that the kernel accepts: the three entries that are always there,
    and any number of named ones, which have a mask, in any order. -/
structure AccessList where
  userObj : Permset
  groupObj : Permset
  other : Permset
  users : List (UInt32 × Permset)
  groups : List (UInt32 × Permset)
  mask : Option Permset
  entries : List Entry
  arranged : entries.Perm (.userObj userObj :: .groupObj groupObj :: .other other ::
    (users.map (fun p => .user p.1 p.2) ++ groups.map (fun p => .group p.1 p.2) ++
      mask.toList.map .mask))
  users_nodup : (users.map Prod.fst).Nodup
  groups_nodup : (groups.map Prod.fst).Nodup
  mask_ne_none : users ≠ [] ∨ groups ≠ [] → mask ≠ none

/-- The permissions that the mask leaves. -/
def Permset.masked (perm : Permset) : Option Permset → Permset
  | none => perm
  | some mask =>
      ⟨perm.read && mask.read, perm.write && mask.write, perm.execute && mask.execute⟩

/-- The three characters of a line. -/
def Permset.chars (perm : Permset) : List Char :=
  [if perm.read then 'r' else '-', if perm.write then 'w' else '-',
    if perm.execute then 'x' else '-']

/-- The program should end, and print one line for the owner or for a named
    user. -/
def UserRight (acl : AccessList) (stUid stGid : UInt32) (db : List Group) (junk : BitVec 32)
    (uid : UInt32) (uname : CString) : Prop :=
  ∃ fuel lines grpToCheck,
    main fuel (.u uid uname) ⟨stUid, stGid, acl.entries⟩ db junk =
      some (.returned lines grpToCheck) ∧
    (uid = stUid → lines = [⟨"user_obj", none, acl.userObj.chars⟩]) ∧
    (uid ≠ stUid → ∀ perm, (uid, perm) ∈ acl.users →
      lines = [⟨"user", some (wrap uid.toNat), (perm.masked acl.mask).chars⟩])

/-! ### The loop over the entries -/

/-- The node for a named user. -/
def usrNode : Entry → Option UsrNode
  | .user uid perm => some ⟨uid, getPerm perm⟩
  | _ => none

/-- A part of the state that an entry changes by what is picked from it only. -/
theorem foldl_scan {β γ : Type} (pick : Entry → Option β) (get : Scan → γ) (change : γ → β → γ)
    (hstep : ∀ s entry, get (scanEntry s entry) = (pick entry).elim (get s) (change (get s)))
    (entries : List Entry) (s : Scan) :
    get (entries.foldl scanEntry s) = (entries.filterMap pick).foldl change (get s) := by
  rw [List.foldl_filterMap]
  refine (List.foldl_hom get (fun s entry => ?_)).symm
  rw [hstep]
  cases pick entry with
  | none => rfl
  | some b => rfl

/-- What every entry puts at the head of a list is there in the end, the other
    way round. -/
theorem foldl_pick {β : Type} (pick : Entry → Option β) (get : Scan → List β)
    (hstep : ∀ s entry, get (scanEntry s entry) =
      (pick entry).elim (get s) (fun b => b :: get s))
    (entries : List Entry) (s : Scan) :
    get (entries.foldl scanEntry s) = (entries.filterMap pick).reverse ++ get s := by
  rw [foldl_scan pick get (fun l b => b :: l) hstep, List.foldl_flip_cons_eq_append']

/-- What is picked from the entries, less their order. -/
theorem AccessList.filterMap_perm {β : Type} (acl : AccessList) (pick : Entry → Option β) :
    (acl.entries.filterMap pick).Perm
      ([Entry.userObj acl.userObj, .groupObj acl.groupObj, .other acl.other].filterMap pick ++
        (acl.users.filterMap (fun p => pick (.user p.1 p.2)) ++
          acl.groups.filterMap (fun p => pick (.group p.1 p.2)) ++
          acl.mask.toList.filterMap (fun perm => pick (.mask perm)))) := by
  have hentries := acl.arranged.filterMap pick
  -- The three entries are in front of those in brackets.
  have hcons : ∀ l : List Entry, Entry.userObj acl.userObj :: .groupObj acl.groupObj ::
      .other acl.other :: l =
        [.userObj acl.userObj, .groupObj acl.groupObj, .other acl.other] ++ l :=
    fun _ => rfl
  rw [hcons] at hentries
  simp only [List.filterMap_append, List.filterMap_map, Function.comp_def] at hentries
  exact hentries

theorem userObj_uid_foldl (entries : List Entry) (s : Scan) :
    (entries.foldl scanEntry s).userObj.uid = s.userObj.uid := by
  induction entries generalizing s with
  | nil => rfl
  | cons entry entries ih =>
      rw [List.foldl_cons, ih]
      cases entry <;> rfl

/-- The nodes are those of the named users. -/
theorem usrList_perm (acl : AccessList) (stUid stGid : UInt32) (junk : BitVec 32) :
    (scan ⟨stUid, stGid, acl.entries⟩ junk).usrList.Perm
      (acl.users.map (fun p => ⟨p.1, getPerm p.2⟩)) := by
  rw [scan, foldl_pick usrNode Scan.usrList (fun s entry => by cases entry <;> rfl),
    List.append_nil]
  refine (List.reverse_perm _).trans ((acl.filterMap_perm usrNode).trans ?_)
  -- Only the entries of named users give a node.
  have husers : acl.users.filterMap (fun p => usrNode (.user p.1 p.2)) =
      acl.users.map (fun p => ⟨p.1, getPerm p.2⟩) :=
    congrFun (List.filterMap_eq_map (f := fun p : UInt32 × Permset =>
      (⟨p.1, getPerm p.2⟩ : UsrNode))) acl.users
  have hgroups : acl.groups.filterMap (fun p => usrNode (.group p.1 p.2)) = [] :=
    List.filterMap_eq_nil_iff.mpr (fun _ _ => rfl)
  have hmask : acl.mask.toList.filterMap (fun perm => usrNode (.mask perm)) = [] :=
    List.filterMap_eq_nil_iff.mpr (fun _ _ => rfl)
  rw [husers, hgroups, hmask, List.append_nil, List.append_nil]
  exact List.Perm.refl _

/-! ### The loops over users and groups -/

/-- The loop over the members ends at no byte. -/
theorem checkMembers_eq_none (uname : List UInt8) (gid : UInt32) (mem : List UInt8)
    (grpToCheck : List UInt32) : checkMembers uname gid mem grpToCheck = none := by
  induction mem generalizing grpToCheck with
  | nil => rfl
  | cons b mem ih =>
      rw [checkMembers]
      exact ih _

/-- The loop over the groups ends if there is no member anywhere, and then it
    has found nothing. -/
theorem checkGroups_eq_some_iff (uname : List UInt8) (db : List Group)
    (grpToCheck found : List UInt32) :
    checkGroups uname db grpToCheck = some found ↔
      found = grpToCheck ∧ ∀ ent ∈ db, ent.grMem = [] := by
  induction db with
  | nil =>
      rw [checkGroups, Option.some.injEq]
      exact ⟨fun h => ⟨h.symm, fun ent hent => absurd hent List.not_mem_nil⟩, fun h => h.1.symm⟩
  | cons ent db ih =>
      rw [checkGroups]
      cases hmem : ent.grMem with
      | nil =>
          simp only [ih, List.forall_mem_cons, hmem, true_and]
      | cons mem rest =>
          -- The first member is enough to leave the string.
          simp only [checkMembers_eq_none]
          refine ⟨fun h => ?_, fun h => ?_⟩
          · cases h
          · have hnil := h.2 ent List.mem_cons_self
            rw [hmem] at hnil
            cases hnil

/-- The loop over the named users looks at the head only, and ends if that is
    the one or if there is none. -/
theorem returns_user (uid : UInt32) (mask : BitVec 32) (usrList : List UsrNode)
    (r : Option Line) (h : Returns (userTurn uid mask) usrList r) :
    (usrList = [] ∧ r = none) ∨
      ∃ p rest line, usrList = p :: rest ∧ p.uid = uid ∧ r = some line := by
  cases usrList with
  | nil => exact Or.inl ⟨rfl, (returns_done _ [] none rfl r).mp h⟩
  | cons p rest =>
      by_cases hp : p.uid = uid
      · have hdone : userTurn uid mask (p :: rest) =
            .done (some ⟨"user", some (wrap uid.toNat), rwx (p.perm &&& mask)⟩) := by
          rw [userTurn, if_pos hp]
        exact Or.inr ⟨p, rest, _, rfl, hp, (returns_done _ _ _ hdone r).mp h⟩
      · -- The next turn is the same as this one.
        have hagain : userTurn uid mask (p :: rest) = .again (p :: rest) := by
          rw [userTurn, if_neg hp]
        refine (returns_of_invariant (userTurn uid mask) (fun s => s = p :: rest) (fun _ => False)
          ?_ ?_ (p :: rest) rfl r h).elim
        · rintro s s' rfl hturn
          rw [hagain] at hturn
          cases hturn
          rfl
        · rintro s r' rfl hturn
          rw [hagain] at hturn
          cases hturn

/-- One more line is printed last. -/
theorem length_finish (s : Scan) (uid : UInt32) (before lines : List Line)
    (grpToCheck checked : List UInt32)
    (h : finish s uid before grpToCheck = .returned lines checked) :
    lines.length = before.length + 1 := by
  rw [finish] at h
  split at h
  · cases h
    exact List.length_append
  · cases h
    exact List.length_append

/-- For a user who is not the owner, the program returns if the loops over the
    users and the groups end. -/
theorem main_user (fuel : Nat) (file : File) (db : List Group) (junk : BitVec 32) (uid : UInt32)
    (uname : CString) (hne : uid ≠ (scan file junk).userObj.uid) (lines : List Line)
    (checked : List UInt32)
    (h : main fuel (.u uid uname) file db junk = some (.returned lines checked)) :
    (∃ p rest, (scan file junk).usrList = p :: rest ∧ p.uid = uid ∧ lines.length = 2) ∨
      ((scan file junk).usrList = [] ∧ ∀ ent ∈ db, ent.grMem = []) := by
  simp only [main, if_neg hne] at h
  cases hrun : run (userTurn uid (scan file junk).mask) fuel (scan file junk).usrList with
  | none =>
      rw [hrun] at h
      cases h
  | some r =>
      rw [hrun] at h
      rcases returns_user uid _ _ r ⟨fuel, hrun⟩ with ⟨hnil, rfl⟩ | ⟨p, rest, line, hcons, hp, rfl⟩
      · refine Or.inr ⟨hnil, ?_⟩
        cases hcheck : checkGroups uname.bytes db [] with
        | none =>
            simp only [hcheck] at h
            cases h
        | some found => exact ((checkGroups_eq_some_iff _ db [] found).mp hcheck).2
      · exact Or.inl ⟨p, rest, hcons, hp, length_finish _ uid [line] lines [] checked
          (Option.some.inj h)⟩

/-- The program is right exactly for a user who does not own the file, if there
    is no named user in the list and no member in the database. -/
theorem userRight_iff (acl : AccessList) (stUid stGid : UInt32) (db : List Group)
    (junk : BitVec 32) (uid : UInt32) (uname : CString) :
    UserRight acl stUid stGid db junk uid uname ↔
      uid ≠ stUid ∧ acl.users = [] ∧ ∀ ent ∈ db, ent.grMem = [] := by
  have howner : (scan ⟨stUid, stGid, acl.entries⟩ junk).userObj.uid = stUid :=
    userObj_uid_foldl acl.entries _
  have hperm := usrList_perm acl stUid stGid junk
  constructor
  · rintro ⟨fuel, lines, checked, hmain, hown, hnamed⟩
    have hne : uid ≠ stUid := by
      rintro rfl
      -- Two lines are printed for the owner.
      simp only [main, howner, if_true] at hmain
      have hlen := length_finish _ _ _ lines [] checked (Option.some.inj hmain)
      rw [hown rfl] at hlen
      cases hlen
    rcases main_user fuel _ db junk uid uname (howner.symm ▸ hne) lines checked hmain with
      ⟨p, rest, hcons, hp, hlen⟩ | ⟨hnil, hmem⟩
    · -- The head is a named user, and two lines are printed for it.
      have hin : p ∈ acl.users.map (fun p => (⟨p.1, getPerm p.2⟩ : UsrNode)) :=
        hperm.mem_iff.mp (hcons ▸ List.mem_cons_self)
      rcases List.mem_map.mp hin with ⟨⟨id, perm⟩, hentry, rfl⟩
      cases hp
      rw [hnamed hne perm hentry] at hlen
      cases hlen
    · rw [hnil] at hperm
      exact ⟨hne, List.map_eq_nil_iff.mp hperm.nil_eq.symm, hmem⟩
  · -- There is nobody to be found, and no member in any group.
    rintro ⟨hne, husers, hmem⟩
    rw [husers, List.map_nil] at hperm
    have hcheck := (checkGroups_eq_some_iff uname.bytes db [] []).mpr ⟨rfl, hmem⟩
    have hmain : main 1 (.u uid uname) ⟨stUid, stGid, acl.entries⟩ db junk =
        some (finish (scan ⟨stUid, stGid, acl.entries⟩ junk) uid [] []) := by
      simp only [main, howner, if_neg hne, hperm.eq_nil, run, userTurn, hcheck]
    refine ⟨1, _, _, hmain, fun h => absurd h hne, fun _ perm hentry => ?_⟩
    rw [husers] at hentry
    cases hentry

/-- A list without named entries. -/
def minimal : AccessList where
  userObj := ⟨true, true, false⟩
  groupObj := ⟨true, false, false⟩
  other := ⟨true, false, false⟩
  users := []
  groups := []
  mask := none
  entries := [.userObj ⟨true, true, false⟩, .groupObj ⟨true, false, false⟩,
    .other ⟨true, false, false⟩]
  arranged := List.Perm.refl _
  users_nodup := List.nodup_nil
  groups_nodup := List.nodup_nil
  mask_ne_none := fun h => h.elim (fun h => absurd rfl h) (fun h => absurd rfl h)

/-- `joe`. -/
def joe : CString := .ofBytes [106, 111, 101]

/-- The owner of the file gets the line for the others too. -/
theorem owner_wrong : ¬ UserRight minimal 1000 100 [] 0 1000 joe := by
  rintro ⟨fuel, lines, checked, hmain, hown, -⟩
  have hlen := length_finish _ _ _ lines [] checked (Option.some.inj hmain)
  rw [hown rfl] at hlen
  cases hlen

end Acl

end TlpiPractice
