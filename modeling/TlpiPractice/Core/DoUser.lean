import TlpiPractice.Core.Getpwnam

/-!
# Running a Command as Another User

The program `38-2-douser.c`, up to the call of `execv`.

The command line may name a user with `-u`, and the name is stored. What is
looked up in the password database is another name, the literal `username`. It
is this account whose entry the password is checked against and whose uid the
process asks for, and whether it gets the uid is not looked at.

The program is meant to be set-user-ID-root. Its uid stands for its effective
uid, which decides what the command may do.

## Main definitions

* `System`: What the calls do.
* `CommandLine`: What is read off the arguments.
* `Outcome`: How the program ends.
* `main`: The program.
-/

namespace TlpiPractice

namespace DoUser

open Getpwnam (Passwd)

/-- `"-u"`. -/
def dashU : CString := .ofBytes [45, 117]

/-- `"root"`. -/
def root : CString := .ofBytes [114, 111, 111, 116]

/-- `"username"`. -/
def username : CString := .ofBytes [117, 115, 101, 114, 110, 97, 109, 101]

/-- What the calls have to do with, and how they go. -/
structure System where
  /-- The password database. -/
  db : List Passwd
  /-- Whether `getpwnam` fails, whatever is in the database. -/
  getpwnamFails : Bool
  crypt : CString → CString → Option CString
  setuidFails : BitVec 32 → Bool
  /-- The uid of the process when it starts. -/
  uid : BitVec 32

/-- The entry of an account. -/
def account (db : List Passwd) (name : CString) : Option Passwd :=
  db.find? (fun pwd => decide (pwd.pwName = name))

/-- `getpwnam`. The null pointer is `none`. -/
def System.getpwnam (sys : System) (name : CString) : Option Passwd :=
  if sys.getpwnamFails then none else account sys.db name

/-- The uid of the process after `setuid(uid)`. -/
def System.setuid (sys : System) (uid : BitVec 32) : BitVec 32 :=
  if sys.setuidFails uid then sys.uid else uid

structure CommandLine where
  /-- The variable `username`. -/
  username : Option CString
  /-- Where in `argv` the command is. -/
  path : Nat

/-- What is read off the arguments, unless `argv[1]` is no string. The pointer
    behind the last argument is null. -/
def commandLine (argv : List CString) : Option CommandLine :=
  argv[1]?.map (fun arg =>
    if CString.strcmp arg.bytes dashU.bytes = 0 then ⟨argv[2]?, 3⟩ else ⟨some root, 1⟩)

inductive Outcome where
  /-- A null pointer or what is behind the end of `argv` is used. -/
  | undefined
  | errExit (call : String)
  | fatal (text : String)
  /-- `execv`, called by a process with this uid. -/
  | execv (uid : BitVec 32) (path : Option CString) (argv : List CString)
  deriving DecidableEq

/-- The program, up to `execv`. -/
def main (sys : System) (argv : List CString) (password : CString) : Outcome :=
  match commandLine argv with
  | none => .undefined
  | some line =>
      -- The name in quotes is looked up, not the variable of this name.
      match sys.getpwnam username with
      | none => .errExit "getpwnam"
      | some pwd =>
          match sys.crypt password pwd.pwPasswd with
          | none => .errExit "crypt"
          | some encrypted =>
              if CString.strcmp encrypted.bytes pwd.pwPasswd.bytes ≠ 0 then
                .fatal "wrong password\n"
              else if argv.length < line.path then .undefined
              -- What `setuid` returns is not looked at.
              else .execv (sys.setuid pwd.pwUid) argv[line.path]? (argv.drop line.path)

end DoUser

end TlpiPractice
