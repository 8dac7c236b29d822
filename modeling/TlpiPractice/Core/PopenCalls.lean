import TlpiPractice.Library.Descriptors

/-!
# The System Calls of Popen

`popen` of `44-2-my_popen_pclose.c` call by call, in the caller and in the
child.

Any call may fail. What the caller has when it returns depends on how far it
got: the dummy head of the list is allocated first, then the pipe is made, the
child forked, and in the caller the one end of the pipe closed, a stream opened
for the other, and an entry put into the list.

The child closes the streams opened before, puts its end of the pipe in the
place of its standard input or output, and starts the command with `system`.
When the command has ended there is no `_exit` and no `break`: the child goes
on with the statements behind `default`, which are those of the caller.

A pointer that is null when it is followed makes the process crash. Each pipe
has a number, and each end of it is something a descriptor can refer to.

## Main definitions

* `File`: What a descriptor refers to.
* `Process`: The descriptors, the streams and the children of the caller.
* `Outcome`: How the calls of one `popen` go.
* `ChildEvent`, `childSide`: What the child does.
* `popen`: What the call returns and leaves.
-/

namespace TlpiPractice

namespace PopenCalls

open Descriptors

/-- What a descriptor refers to. -/
inductive File where
  | readEnd (pipe : Nat)
  | writeEnd (pipe : Nat)
  | other (id : Nat)
  deriving DecidableEq

/-- A stream of the standard library. -/
structure Stream where
  /-- The pointer. -/
  id : Nat
  fd : Nat
  deriving DecidableEq

/-- `struct p_node`, less its link. -/
structure Entry where
  /-- A null pointer when `fdopen` has failed. -/
  file : Option Stream
  pid : Nat
  deriving DecidableEq

structure Process where
  fds : Table File
  /-- The descriptors are below this. -/
  limit : Nat
  /-- The entries behind the dummy head, or nothing when `p_header` is
      `NULL`. -/
  pHeader : Option (List Entry)
  /-- The children that have not been waited for. -/
  children : List Nat
  /-- How many pipes have been made. -/
  pipes : Nat

/-- The entries of the list. -/
def Process.entries (s : Process) : List Entry := s.pHeader.getD []

/-- How the calls go. -/
structure Outcome where
  /-- The `calloc` of the dummy head, if it is needed. -/
  head : Bool
  /-- A `pipe` for which there are two descriptors. -/
  pipe : Bool
  /-- The child's process identifier. -/
  fork : Option Nat
  /-- The `calloc` of the entry, in the caller and in the child. -/
  entry : Bool
  childEntry : Bool
  /-- The new stream. -/
  fdopen : Option Nat
  /-- The command of the child ends. -/
  ends : Bool

inductive Result where
  | returned (file : Option Stream)
  | crashed
  deriving DecidableEq

inductive ChildEvent where
  /-- The command starts, with these descriptors. -/
  | command (fds : Table File)
  /-- The statements behind `default`. -/
  | parentBranch
  /-- `popen` returns. -/
  | returned

/-- `"r"` or `"w"`, or neither. -/
def isRead (type : List UInt8) : Option Bool :=
  if type = [114] then some true else if type = [119] then some false else none

/-- `STDOUT_FILENO` for `"r"`, and `STDIN_FILENO` for `"w"`. -/
def standard (isRead : Bool) : Nat := if isRead then 1 else 0

/-- The descriptors of the streams. -/
def streamFds (entries : List Entry) : List Nat :=
  entries.filterMap (fun e => e.file.map Stream.fd)

/-- The descriptors of the child when it starts the command. -/
def childFds (limit : Nat) (entries : List Entry) (isRead : Bool) (fds : Table File)
    (pfd0 pfd1 : Nat) : Table File :=
  let fds := closeAll fds (streamFds entries)
  if isRead then close (dup2 limit (close fds pfd0) pfd1 1) pfd1
  else close (dup2 limit (close fds pfd1) pfd0 0) pfd0

/-- The child, from `case 0` on. -/
def childSide (s : Process) (o : Outcome) (isRead : Bool) (fds : Table File) (pfd0 pfd1 : Nat) :
    List ChildEvent :=
  match s.pHeader with
  -- `p_header->next`.
  | none => []
  | some entries =>
      -- `fclose` of a null pointer.
      if ∃ e ∈ entries, e.file = none then []
      else
        .command (childFds s.limit entries isRead fds pfd0 pfd1) ::
          -- Nothing keeps the child from going on behind `default`.
          (if o.ends then .parentBranch :: (if o.childEntry then [.returned] else []) else [])

/-- The caller, behind `default`. -/
def parentSide (s : Process) (o : Outcome) (isRead : Bool) (child pfd0 pfd1 : Nat) :
    Result × Process :=
  match s.pHeader with
  | none => (.crashed, s)
  | some entries =>
      if o.entry then
        let closed := if isRead then pfd1 else pfd0
        let kept := if isRead then pfd0 else pfd1
        let file := o.fdopen.map (fun id => (⟨id, kept⟩ : Stream))
        (.returned file,
          { s with fds := close s.fds closed, pHeader := some (⟨file, child⟩ :: entries) })
      else (.crashed, s)

/-- The dummy head is allocated by the first call. -/
def withHead (s : Process) (head : Bool) : Process :=
  if s.pHeader = none then { s with pHeader := if head then some [] else none } else s

/-- `popen`: what it returns in the caller and leaves there, and what the child
    does if there is one. -/
def popen (s : Process) (type : List UInt8) (o : Outcome) :
    (Result × Process) × Option (List ChildEvent) :=
  let s := withHead s o.head
  match isRead type with
  | none => ((.returned none, s), none)
  | some isRead =>
      match if o.pipe then pipe s.limit s.fds (.readEnd s.pipes) (.writeEnd s.pipes) else none with
      | none => ((.returned none, s), none)
      | some (pfd0, pfd1, fds) =>
          let piped := { s with fds := fds, pipes := s.pipes + 1 }
          match o.fork with
          -- The pipe stays open.
          | none => ((.returned none, piped), none)
          | some child =>
              let forked := { piped with children := child :: s.children }
              (parentSide forked o isRead child pfd0 pfd1,
                some (childSide piped o isRead fds pfd0 pfd1))

end PopenCalls

end TlpiPractice
