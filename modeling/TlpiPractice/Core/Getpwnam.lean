import TlpiPractice.Library.CString

/-!
# Looking Up a User

The function `m_getpwnam` of `8-2-realize_getpwnam.c`, which looks for a name
in the password database with `getpwent`.

If the name is there, the database is closed, and the next call begins with
its first entry again. If it is not there, the function comes to its end
without a `return`, so that the caller has no value. It has not closed the
database either, and the next call begins behind the last entry.

## Main definitions

* `Passwd`: An entry of the database.
* `endpwent`: The call that rewinds the database.
* `getpwnam`: The function.
* `calls`: The function called with one name after another.
-/

namespace TlpiPractice

namespace Getpwnam

/-- `struct passwd`. -/
structure Passwd where
  pwName : CString
  pwPasswd : CString
  pwUid : BitVec 32
  pwGid : BitVec 32
  pwGecos : CString
  pwDir : CString
  pwShell : CString
  deriving DecidableEq

/-- `endpwent`: `getpwent` gives the whole database again. -/
def endpwent (db : List Passwd) : List Passwd := db

inductive Value where
  /-- A pointer to an entry, or the null pointer. -/
  | returned (pwd : Option Passwd)
  /-- There is no `return`. -/
  | fellOff
  deriving DecidableEq

/-- `m_getpwnam`, where the cursor is what `getpwent` has still to give, with
    the cursor after it. -/
def getpwnam (db : List Passwd) (name : CString) : List Passwd → Value × List Passwd
  -- `getpwent` gives the null pointer, and the cursor stays where it is.
  | [] => (.fellOff, [])
  | pwd :: cursor =>
      if CString.strcmp pwd.pwName.bytes name.bytes = 0 then (.returned (some pwd), endpwent db)
      else getpwnam db name cursor

/-- What the calls give, one after the other. -/
def calls (db : List Passwd) : List CString → List Passwd → List Value
  | [], _ => []
  | name :: names, cursor =>
      let (value, cursor') := getpwnam db name cursor
      value :: calls db names cursor'

end Getpwnam

end TlpiPractice
