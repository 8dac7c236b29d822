import TlpiPractice.Library.CString
import TlpiPractice.Library.Ints
import TlpiPractice.Library.Loops

/-!
# Permissions From an Access Control List

The program `17-1-acl.c`, which prints what an access control list gives to a
user or a group, from where it has the identity that it is asked about.

As it stands the file does not compile. It is read with the repairs that do not
change what it does: `user_obj.per` is `perm`, `acl_get_entry` gets `entryId`,
the two nodes called `tmp` have a scope each, and the members are those of
`ent`, as `grp_to_check` has none. No call fails.

The loop over the named users does not go on to the next node. The loop over
the members of a group goes on to the next byte of the first name, not to the
next name. It ends at no byte, so it leaves the string, and then what happens
is not defined. On the way a group that is found is not put into the list,
since the list is put back in its own place. Before the groups are looked at
there is a new `match`, so a user who has been found is not known there.

## Main definitions

* `Entry`: An entry of a list.
* `scan`: The loop over the entries.
* `userTurn`: The body of the loop over the named users.
* `checkGroups`: The loop over the groups of the database.
* `finish`: What is printed last.
* `main`: The program.
-/

namespace TlpiPractice

namespace Acl

open Ints Loops

/-- `acl_permset_t`. -/
structure Permset where
  read : Bool
  write : Bool
  execute : Bool
  deriving DecidableEq

/-- An entry, with its tag, the qualifier that the tag has, and the
    permissions. -/
inductive Entry where
  | userObj (perm : Permset)
  | user (uid : UInt32) (perm : Permset)
  | groupObj (perm : Permset)
  | group (gid : UInt32) (perm : Permset)
  | mask (perm : Permset)
  | other (perm : Permset)
  deriving DecidableEq

/-- `struct usr_node`, less its link. -/
structure UsrNode where
  uid : UInt32
  perm : BitVec 32
  deriving DecidableEq

/-- `struct grp_node`, less its link. -/
structure GrpNode where
  gid : UInt32
  perm : BitVec 32
  deriving DecidableEq

/-- An entry of the group database. -/
structure Group where
  grGid : UInt32
  grMem : List CString

/-- A line that is printed: the first column, the number if there is one, and
    the three characters. -/
structure Line where
  label : String
  id : Option Int
  chars : List Char
  deriving DecidableEq

/-- `get_perm`. -/
def getPerm (perm : Permset) : BitVec 32 :=
  0x4 * (BitVec.ofBool perm.read).zeroExtend 32 + 0x2 * (BitVec.ofBool perm.write).zeroExtend 32 +
    0x1 * (BitVec.ofBool perm.execute).zeroExtend 32

/-- What `printf` makes of the permissions. -/
def rwx (perm : BitVec 32) : List Char :=
  [if perm &&& 0x4 ≠ 0 then 'r' else '-', if perm &&& 0x2 ≠ 0 then 'w' else '-',
    if perm &&& 0x1 ≠ 0 then 'x' else '-']

/-- What the loop over the entries has found so far, with the lists behind
    their dummy nodes. -/
structure Scan where
  userObj : UsrNode
  usrList : List UsrNode
  groupObj : GrpNode
  grpList : List GrpNode
  mask : BitVec 32
  other : BitVec 32

/-- The `switch` on the tag. -/
def scanEntry (s : Scan) : Entry → Scan
  | .userObj perm => { s with userObj := ⟨s.userObj.uid, getPerm perm⟩ }
  | .user uid perm => { s with usrList := ⟨uid, getPerm perm⟩ :: s.usrList }
  | .groupObj perm => { s with groupObj := ⟨s.groupObj.gid, getPerm perm⟩ }
  | .group gid perm => { s with grpList := ⟨gid, getPerm perm⟩ :: s.grpList }
  | .mask perm => { s with mask := getPerm perm }
  | .other perm => { s with other := getPerm perm }

/-- The file: who owns it, and its list. -/
structure File where
  stUid : UInt32
  stGid : UInt32
  entries : List Entry

/-- The loop over the entries, where `junk` is what is in memory before. -/
def scan (file : File) (junk : BitVec 32) : Scan :=
  file.entries.foldl scanEntry
    { userObj := ⟨file.stUid, junk⟩, usrList := [], groupObj := ⟨file.stGid, junk⟩, grpList := []
      mask := 7, other := -1 }

/-- The body of the loop over the named users. -/
def userTurn (uid : UInt32) (mask : BitVec 32) : List UsrNode → Turn (List UsrNode) (Option Line)
  | [] => .done none
  | p :: rest =>
      if p.uid = uid then .done (some ⟨"user", some (wrap uid.toNat), rwx (p.perm &&& mask)⟩)
      -- `p` stays where it is.
      else .again (p :: rest)

/-- `tmp->next = grp_to_check->next` and `grp_to_check->next = tmp->next`: the
    node is not in the list. -/
def insertNode (_gid : UInt32) (grpToCheck : List UInt32) : List UInt32 :=
  let tmpNext := grpToCheck
  tmpNext

/-- The loop over the members, with `mem` at these bytes and the NUL behind
    them. There is no result if it leaves the string. -/
def checkMembers (uname : List UInt8) (gid : UInt32) (mem : List UInt8)
    (grpToCheck : List UInt32) : Option (List UInt32) :=
  let grpToCheck :=
    if CString.strcmp uname mem = 0 then insertNode gid grpToCheck else grpToCheck
  match mem with
  -- It goes on behind the NUL.
  | [] => none
  | _ :: mem => checkMembers uname gid mem grpToCheck

/-- The loop over the groups of the database. -/
def checkGroups (uname : List UInt8) : List Group → List UInt32 → Option (List UInt32)
  | [], grpToCheck => some grpToCheck
  | ent :: db, grpToCheck =>
      match ent.grMem with
      | [] => checkGroups uname db grpToCheck
      | mem :: _ =>
          match checkMembers uname ent.grGid mem.bytes grpToCheck with
          | none => none
          | some grpToCheck => checkGroups uname db grpToCheck

/-- The loops over the groups to check and the named groups: the first of the
    one that is among the other. The number is that of the user. -/
def matchGroups (uid : UInt32) (mask : BitVec 32) (grpList : List GrpNode)
    (grpToCheck : List UInt32) : Option Line :=
  grpToCheck.findSome? (fun gid =>
    (grpList.find? (fun p => decide (gid = p.gid))).map (fun p =>
      ⟨"group", some (wrap uid.toNat), rwx (p.perm &&& mask)⟩))

inductive Outcome where
  /-- The lines that have been printed, and the groups that have been
      checked. -/
  | returned (lines : List Line) (grpToCheck : List UInt32)
  | undefined
  deriving DecidableEq

/-- What comes after the groups to check have been found. Nothing is known here
    of the lines printed before. -/
def finish (s : Scan) (uid : UInt32) (lines : List Line) (grpToCheck : List UInt32) : Outcome :=
  match matchGroups uid s.mask s.grpList grpToCheck with
  | some line => .returned (lines ++ [line]) grpToCheck
  | none => .returned (lines ++ [⟨"other", none, rwx s.other⟩]) grpToCheck

/-- What the program is asked about. -/
inductive Query where
  | u (uid : UInt32) (uname : CString)
  | g (gid : UInt32)

/-- The program, with at most `fuel` turns of the loop over the named users. -/
def main (fuel : Nat) (query : Query) (file : File) (db : List Group) (junk : BitVec 32) :
    Option Outcome :=
  let s := scan file junk
  match query with
  | .u uid uname =>
      if uid = s.userObj.uid then
        some (finish s uid [⟨"user_obj", none, rwx s.userObj.perm⟩] [])
      else
        match run (userTurn uid s.mask) fuel s.usrList with
        | none => none
        | some (some line) => some (finish s uid [line] [])
        | some none =>
            match checkGroups uname.bytes db [] with
            | none => some .undefined
            | some grpToCheck => some (finish s uid [] grpToCheck)
  -- `uid` is still zero.
  | .g gid => some (finish s 0 [] [gid])

end Acl

end TlpiPractice
