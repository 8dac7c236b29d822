import TlpiPractice.Library.CString

/-!
# Initializing the Groups of a Process

The function `initgroups` of `9-3-do_initgroups.c`, which gives a process the
groups that a user is a member of.

The lists of members end with a null pointer, and the loop over such a list
should end there. It tests the pointer to the slot, which is never null, and
not what is in the slot, so it goes on until it finds the user. If the user is
not in the list it hands the null pointer to `strcmp`, and what happens then
is not defined. The same test is made behind the loop, where it is true of
every group. Nothing keeps the ids within the array that has been allocated.

The database is at its first entry, and `malloc` and `free` are declared.

## Main definitions

* `Group`: An entry of the database.
* `scanMembers`: The loop over the members of a group.
* `addGroups`: The loop over the groups.
* `initgroups`: The function.
-/

namespace TlpiPractice

namespace Initgroups

/-- `NGROUPS_MAX`. -/
def ngroupsMax : Nat := 65536

/-- `gid_t`, which is declared as an `int`. -/
abbrev Gid := BitVec 32

/-- `struct group`, with the members before the null pointer. -/
structure Group where
  grGid : Gid
  grMem : List CString

/-- The loop over the members, from the slot `mem` on: the slot where it ends,
    or nothing if it comes to the null pointer, which is compared too. -/
def scanMembers (user : CString) : Nat → List CString → Option Nat
  | _, [] => none
  | mem, name :: rest =>
      if CString.strcmp name.bytes user.bytes ≠ 0 then scanMembers user (mem + 1) rest
      else some mem

/-- The loop over the groups, with the ids that are in the array. There is no
    result if a null pointer is compared or if the array is full. -/
def addGroups (user : CString) : List Group → List Gid → Option (List Gid)
  | [], grouplist => some grouplist
  | gp :: db, grouplist =>
      match scanMembers user 0 gp.grMem with
      | none => none
      -- A pointer to a slot is not null.
      | some _mem =>
          if grouplist.length < ngroupsMax + 1 then
            addGroups user db (grouplist ++ [gp.grGid])
          else none

inductive Outcome where
  /-- The ids that `setgroups` has been given, and its result. -/
  | returned (grouplist : List Gid) (res : Int)
  | undefined
  deriving DecidableEq

/-- `initgroups`. If there is no memory the first id is put through a null
    pointer. -/
def initgroups (malloc : Bool) (setgroups : List Gid → Int) (db : List Group) (user : CString)
    (group : Gid) : Outcome :=
  match malloc with
  | false => .undefined
  | true =>
      match addGroups user db [group] with
      | none => .undefined
      | some grouplist => .returned grouplist (setgroups grouplist)

end Initgroups

end TlpiPractice
