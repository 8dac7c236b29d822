import Mathlib.Logic.Function.Basic
import TlpiPractice.Core.GetNum
import TlpiPractice.Library.Runs
import TlpiPractice.Library.Utmp

/-!
# Logins in `utmp` and `wtmp`

`40-2-changed_utmpx_login.c`, run by any number of users at any terminals, and
the two programs that look a terminal up, `40-1-my_getlogin` and
`40-4-my_who.c`.

A login makes an entry out of the name of its terminal, writes it to `utmp`
and appends it to `wtmp`, sleeps, and writes and appends an entry for the
logout, for which it changes the first one. At last it wants to write to the
file of last logins. The calls of different processes come in any order, and
each of them on the files is one step.

Calls can fail where the source looks at the result. `updwtmpx` has none and
always appends. What the function of another file gives for a user name is a
parameter.

## Main definitions

* `Login`: How one process is started.
* `State`: The files, and what the processes have.
* `Enabled`, `next`, `Step`: When a call can return and what it does.
* `myGetlogin`, `myWho`: The look-ups.
-/

namespace TlpiPractice

namespace UtmpxLogin

open CString Utmp

/-- The size of `ut_line`, and of `ut_user`. -/
def lineSize : Nat := 32

/-- The size of `ut_id`. -/
def idSize : Nat := 4

/-- How a process is started. -/
structure Login where
  /-- `argv[1]`. -/
  user : CString
  /-- `argv[2]`, if it is there. -/
  sleepTime : Option CString
  /-- The result of `ttyname`. -/
  devName : Option CString
  pid : Int

/-- The call a process makes next, or how it has ended. -/
inductive Pc where
  /-- `time` and `ttyname`. -/
  | starting
  /-- The first `pututxline`. -/
  | entering
  /-- The first `updwtmpx`. -/
  | noting
  | sleeping
  /-- The second `pututxline`. -/
  | leaving
  /-- The second `updwtmpx`. -/
  | notingEnd
  /-- `open` for the file of last logins. -/
  | opening
  /-- `userIdFromName`. -/
  | lookingUp
  /-- `lseek`. -/
  | seeking
  /-- `write`. -/
  | writing
  /-- The exit status. -/
  | ended (status : Nat)
  deriving DecidableEq

variable {ι : Type*} [DecidableEq ι]

structure State (ι : Type*) where
  utmp : List Utmpx
  wtmp : List Utmpx
  pc : ι → Pc
  /-- The variable `ut` of a process. -/
  ut : ι → Utmpx
  /-- What a process has last written to `utmp`. -/
  put : ι → Option Utmpx

inductive Event (ι : Type*) where
  /-- The next call of a process returns. `time` gives `now` if it is made. -/
  | goesOn (i : ι) (now : Int)
  /-- The next call of a process fails. -/
  | fails (i : ι)

/-- The line of a terminal. -/
def lineOf (devName : CString) : List UInt8 :=
  strncpy (.ofBytes (devName.bytes.drop 5)) lineSize

/-- The identifier of a terminal. -/
def idOf (devName : CString) : List UInt8 := strncpy (.ofBytes (devName.bytes.drop 8)) idSize

/-- The entry for a login, unless there is no name of the terminal or it is too
    short. -/
def loginEntry (l : Login) (now : Int) : Option Utmpx :=
  match l.devName with
  | none => none
  | some devName =>
      if devName.bytes.length ≤ 8 then none
      else some
        { utType := .userProcess
          utPid := l.pid
          utLine := lineOf devName
          utId := idOf devName
          utUser := strncpy l.user lineSize
          utTv := now }

/-- What is changed for the logout. -/
def logoutEntry (ut : Utmpx) (now : Int) : Utmpx :=
  { ut with utType := .deadProcess, utTv := now, utUser := List.replicate lineSize 0 }

/-- The number of seconds to sleep is accepted. -/
def sleeps (l : Login) : Bool :=
  match l.sleepTime with
  | none => true
  | some arg =>
      match GetNum.getInt (some arg) GetNum.gnNonneg
          (some (.ofBytes (GetNum.ascii "sleep-time"))) with
      | .ok _ => true
      | .error _ => false

/-- What a file is opened for. -/
inductive Access where
  | rdonly
  | wronly
  | rdwr

/-- Whether `write` can do anything but fail with `EBADF`. -/
def Access.writable : Access → Bool
  | .rdonly => false
  | _ => true

/-- What the file of last logins is opened for. -/
def lastlogAccess : Access := .rdonly

/-- The calls whose failure ends the process. -/
def Pc.checked : Pc → Bool
  | .starting | .entering | .leaving | .opening | .seeking | .writing => true
  | _ => false

def Enabled (s : State ι) : Event ι → Prop
  | .goesOn i _ => ∀ status, s.pc i ≠ .ended status
  | .fails i => (s.pc i).checked = true

def State.move (s : State ι) (i : ι) (pc : Pc) : State ι :=
  { s with pc := Function.update s.pc i pc }

/-- `pututxline`. -/
def State.enter (s : State ι) (i : ι) (ut : Utmpx) (pc : Pc) : State ι :=
  { s with
    utmp := pututxline ut s.utmp
    pc := Function.update s.pc i pc
    ut := Function.update s.ut i ut
    put := Function.update s.put i (some ut) }

/-- `updwtmpx`. -/
def State.note (s : State ι) (i : ι) (pc : Pc) : State ι :=
  { s with wtmp := s.wtmp ++ [s.ut i], pc := Function.update s.pc i pc }

/-- What the next call of a process does. `logins` says how the processes were
    started, and `userIdFromName` is the function of that name. -/
def call (logins : ι → Login) (userIdFromName : List UInt8 → Int) (s : State ι) (i : ι)
    (now : Int) : State ι :=
  match s.pc i with
  | .starting =>
      match loginEntry (logins i) now with
      | none => s.move i (.ended 1)
      | some ut => { s with ut := Function.update s.ut i ut }.move i .entering
  | .entering => s.enter i (s.ut i) .noting
  | .noting => s.note i .sleeping
  | .sleeping => if sleeps (logins i) then s.move i .leaving else s.move i (.ended 1)
  | .leaving => s.enter i (logoutEntry (s.ut i) now) .notingEnd
  | .notingEnd => s.note i .opening
  | .opening => s.move i .lookingUp
  | .lookingUp =>
      -- The name is that of the logout, and empty.
      if userIdFromName (str (s.ut i).utUser) = -1 then s.move i (.ended 1) else s.move i .seeking
  | .seeking => s.move i .writing
  | .writing => if lastlogAccess.writable then s.move i (.ended 0) else s.move i (.ended 1)
  | .ended _ => s

def next (logins : ι → Login) (userIdFromName : List UInt8 → Int) (s : State ι) :
    Event ι → State ι
  | .goesOn i now => call logins userIdFromName s i now
  | .fails i => s.move i (.ended 1)

def Step (logins : ι → Login) (userIdFromName : List UInt8 → Int) (s : State ι) (e : Event ι)
    (s' : State ι) : Prop :=
  Enabled s e ∧ s' = next logins userIdFromName s e

/-- What `memset` leaves. -/
def blank : Utmpx where
  utType := .empty
  utPid := 0
  utLine := List.replicate lineSize 0
  utId := List.replicate idSize 0
  utUser := List.replicate lineSize 0
  utTv := 0

/-- Before the first call of any process. -/
def initial (utmp wtmp : List Utmpx) : State ι where
  utmp := utmp
  wtmp := wtmp
  pc := fun _ => .starting
  ut := fun _ => blank
  put := fun _ => none

/-- What `my_getlogin` returns: nothing, or the user of an entry. -/
inductive Found where
  | null
  | user (name : List UInt8)
  /-- The name of the terminal does not fit into `ut_line`. -/
  | undefined
  deriving DecidableEq

/-- `my_getlogin`, which looks from a place in `utmp` on. -/
def myGetlogin (utmp : List Utmpx) (place : Nat) (name : Option CString) : Found :=
  match name with
  | none => .null
  | some name =>
      if lineSize ≤ name.bytes.length then .undefined
      else
        match getutxline (utmp.drop place) name.bytes with
        | none => .null
        | some search => .user search.utUser

/-- What `my_who` shows, if it does not exit with an error. -/
def myWho (utmp : List Utmpx) (tty : Option CString) : Option Utmpx :=
  match tty with
  | none => none
  | some tty => getutxline utmp (strncpy tty lineSize)

end UtmpxLogin

end TlpiPractice
