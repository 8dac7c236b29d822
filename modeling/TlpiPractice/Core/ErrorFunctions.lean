import TlpiPractice.Core.GetNum
import TlpiPractice.Library.Environment

/-!
# Error Messages

`error_functions.c`, which nearly every program calls when something fails, and
the table of `ename.c.inc`.

What a program prints goes to `stdout`, which keeps it back for a while, and
the library writes the front of it out whenever it likes. An error message goes
to `stderr`. Both are the same terminal here. `exit` writes out what is kept
back, while `_exit` and `abort` drop it. Exit handlers print nothing.

A message is given as the text that the format and its arguments make.
`strerror` and the environment are parameters. Writing a message may leave any
number in `errno`.

## Main definitions

* `ename`, `enameOf`: The names of the error numbers.
* `outputError`: A message is written.
* `errMsg`, `errExit`, `err_exit`, `errExitEN`, `fatal`, `usageErr`,
  `cmdLineErr`: The functions of the source.
* `Call`, `step`, `run`: A program that prints and calls `errMsg`.
* `Last`, `finish`: How it ends.
-/

namespace TlpiPractice

namespace ErrorFunctions

open Environment GetNum

def bufSize : Nat := 500

def maxEname : Int := 133

def ename : List String := [
  "",
  "EPERM", "ENOENT", "ESRCH", "EINTR", "EIO", "ENXIO",
  "E2BIG", "ENOEXEC", "EBADF", "ECHILD",
  "EAGAIN/EWOULDBLOCK", "ENOMEM", "EACCES", "EFAULT",
  "ENOTBLK", "EBUSY", "EEXIST", "EXDEV", "ENODEV",
  "ENOTDIR", "EISDIR", "EINVAL", "ENFILE", "EMFILE",
  "ENOTTY", "ETXTBSY", "EFBIG", "ENOSPC", "ESPIPE",
  "EROFS", "EMLINK", "EPIPE", "EDOM", "ERANGE",
  "EDEADLK/EDEADLOCK", "ENAMETOOLONG", "ENOLCK", "ENOSYS",
  "ENOTEMPTY", "ELOOP", "", "ENOMSG", "EIDRM", "ECHRNG",
  "EL2NSYNC", "EL3HLT", "EL3RST", "ELNRNG", "EUNATCH",
  "ENOCSI", "EL2HLT", "EBADE", "EBADR", "EXFULL", "ENOANO",
  "EBADRQC", "EBADSLT", "", "EBFONT", "ENOSTR", "ENODATA",
  "ETIME", "ENOSR", "ENONET", "ENOPKG", "EREMOTE",
  "ENOLINK", "EADV", "ESRMNT", "ECOMM", "EPROTO",
  "EMULTIHOP", "EDOTDOT", "EBADMSG", "EOVERFLOW",
  "ENOTUNIQ", "EBADFD", "EREMCHG", "ELIBACC", "ELIBBAD",
  "ELIBSCN", "ELIBMAX", "ELIBEXEC", "EILSEQ", "ERESTART",
  "ESTRPIPE", "EUSERS", "ENOTSOCK", "EDESTADDRREQ",
  "EMSGSIZE", "EPROTOTYPE", "ENOPROTOOPT",
  "EPROTONOSUPPORT", "ESOCKTNOSUPPORT",
  "EOPNOTSUPP/ENOTSUP", "EPFNOSUPPORT", "EAFNOSUPPORT",
  "EADDRINUSE", "EADDRNOTAVAIL", "ENETDOWN", "ENETUNREACH",
  "ENETRESET", "ECONNABORTED", "ECONNRESET", "ENOBUFS",
  "EISCONN", "ENOTCONN", "ESHUTDOWN", "ETOOMANYREFS",
  "ETIMEDOUT", "ECONNREFUSED", "EHOSTDOWN", "EHOSTUNREACH",
  "EALREADY", "EINPROGRESS", "ESTALE", "EUCLEAN",
  "ENOTNAM", "ENAVAIL", "EISNAM", "EREMOTEIO", "EDQUOT",
  "ENOMEDIUM", "EMEDIUMTYPE", "ECANCELED", "ENOKEY",
  "EKEYEXPIRED", "EKEYREVOKED", "EKEYREJECTED",
  "EOWNERDEAD", "ENOTRECOVERABLE", "ERFKILL", "EHWPOISON"]

/-- A number that passes the test is in the table. -/
theorem lt_length_ename (err : Int) (h : 0 < err ∧ err ≤ maxEname) :
    err.toNat < ename.length := by
  have hlength : ename.length = 134 := rfl
  have hle : err ≤ 133 := h.2
  omega

/-- The name that is shown for an error number. -/
def enameOf (err : Int) : List UInt8 :=
  if h : 0 < err ∧ err ≤ maxEname then ascii (ename.get ⟨err.toNat, lt_length_ename err h⟩)
  else ascii "?UNKNOWN?"

/-- What of a text a buffer holds, in front of the NUL. -/
def snprintf (size : Nat) (text : List UInt8) : List UInt8 := text.take (size - 1)

structure Process where
  errno : Int
  /-- What `stdout` keeps back. -/
  pending : List UInt8
  terminal : List UInt8

/-- `fflush(stdout)`. -/
def fflush (s : Process) : Process :=
  { s with terminal := s.terminal ++ s.pending, pending := [] }

/-- `outputError`. What `errno` is behind it is `left`. -/
def outputError (strerror : Int → CString) (useErr : Bool) (err : Int) (flushStdout : Bool)
    (msg : CString) (left : Int) (s : Process) : Process :=
  -- Each of the three buffers is as long, and each text is cut.
  let userMsg := snprintf bufSize msg.bytes
  let errText :=
    if useErr then
      snprintf bufSize (ascii " [" ++ enameOf err ++ ascii " " ++ (strerror err).bytes ++ ascii "]")
    else snprintf bufSize (ascii ":")
  let buf := snprintf bufSize (ascii "ERROR" ++ errText ++ ascii " " ++ userMsg ++ ascii "\n")
  let s := if flushStdout then fflush s else s
  { s with terminal := s.terminal ++ buf, errno := left }

inductive How where
  | aborted
  | exited (status : Nat)
  deriving DecidableEq

/-- A process that has ended, and what can be seen of it. -/
structure Ended where
  how : How
  terminal : List UInt8

def terminate (env : List CString) (useExit3 : Bool) (s : Process) : Ended :=
  match getenv env (ascii "EF_DUMPCORE") with
  -- Set, and not to an empty string.
  | some (_ :: _) => ⟨.aborted, s.terminal⟩
  | _ => if useExit3 then ⟨.exited 1, s.terminal ++ s.pending⟩ else ⟨.exited 1, s.terminal⟩

def errMsg (strerror : Int → CString) (msg : CString) (left : Int) (s : Process) : Process :=
  let savedErrno := s.errno
  { outputError strerror true s.errno true msg left s with errno := savedErrno }

def errExit (strerror : Int → CString) (env : List CString) (msg : CString) (left : Int)
    (s : Process) : Ended :=
  terminate env true (outputError strerror true s.errno true msg left s)

/-- The one that does not write out what `stdout` keeps back. -/
def err_exit (strerror : Int → CString) (env : List CString) (msg : CString) (left : Int)
    (s : Process) : Ended :=
  terminate env false (outputError strerror true s.errno false msg left s)

def errExitEN (strerror : Int → CString) (env : List CString) (errnum : Int) (msg : CString)
    (left : Int) (s : Process) : Ended :=
  terminate env true (outputError strerror true errnum true msg left s)

def fatal (strerror : Int → CString) (env : List CString) (msg : CString) (left : Int)
    (s : Process) : Ended :=
  terminate env true (outputError strerror false 0 true msg left s)

/-- A message that is not cut, behind a heading. -/
def complain (heading : List UInt8) (msg : CString) (s : Process) : Ended :=
  ⟨.exited 1, (fflush s).terminal ++ heading ++ msg.bytes⟩

def usageErr (msg : CString) (s : Process) : Ended := complain (ascii "Usage: ") msg s

def cmdLineErr (msg : CString) (s : Process) : Ended :=
  complain (ascii "Command-line usage error: ") msg s

inductive Call where
  /-- `printf`. The library writes out so many bytes of what it keeps back. -/
  | printf (text : CString) (written : Nat)
  /-- A call fails. -/
  | failed (errno : Int)
  | errMsg (msg : CString) (left : Int)

def step (strerror : Int → CString) (s : Process) : Call → Process
  | .printf text written =>
      { s with
        terminal := s.terminal ++ (s.pending ++ text.bytes).take written
        pending := (s.pending ++ text.bytes).drop written }
  | .failed errno => { s with errno := errno }
  | .errMsg msg left => errMsg strerror msg left s

def run (strerror : Int → CString) (s : Process) (calls : List Call) : Process :=
  calls.foldl (step strerror) s

/-- The call that ends a program. -/
inductive Last where
  | errExit (msg : CString)
  | err_exit (msg : CString)
  | errExitEN (errnum : Int) (msg : CString)
  | fatal (msg : CString)
  | usageErr (msg : CString)
  | cmdLineErr (msg : CString)

def finish (strerror : Int → CString) (env : List CString) (left : Int) (s : Process) :
    Last → Ended
  | .errExit msg => errExit strerror env msg left s
  | .err_exit msg => err_exit strerror env msg left s
  | .errExitEN errnum msg => errExitEN strerror env errnum msg left s
  | .fatal msg => fatal strerror env msg left s
  | .usageErr msg => usageErr msg s
  | .cmdLineErr msg => cmdLineErr msg s

end ErrorFunctions

end TlpiPractice
