import TlpiPractice.Core.SafeTree
import TlpiPractice.Library.Loops

/-!
# Calls on the Tree by One Thread

`add` and `delete` of `30-2-thread-safe_binary-tree.c`, called by a thread
that has the tree for itself.

A call runs until it returns, or until it has to wait for a mutex that is
taken. The mutexes are of the default kind, so a thread that locks one it
holds waits for itself.

The loop of `delete` is as unfinished as the source has it. It locks the node
below the root and compares the keys, whatever comes of that it goes on with
the same node, and there is no unlock anywhere.

## Main definitions

* `Ended`: How a call ends.
* `addTurn`, `add`: The steps of `add`, one after the other.
* `deleteTurn`, `delete`: `delete`.
* `Op`, `call`: A call of either.
-/

namespace TlpiPractice

namespace SafeTree

open Loops

variable {ι α ν : Type} [DecidableEq ι] [DecidableEq α]

inductive Ended (ι α ν : Type) where
  | returned (s : State ι α ν)
  /-- In `pthread_mutex_lock` for the mutex of the node, which is taken. -/
  | waits (s : State ι α ν) (t : α)

/-- The next step of a thread in `add`. -/
def addTurn (root : α) (i : ι) (s : State ι α ν) : Turn (State ι α ν) (Ended ι α ν) :=
  match s.pc i with
  | .idle => .done (.returned s)
  | .visiting _ t => if s.lock t = none then .again (next root s (.lock i)) else .done (.waits s t)
  | .comparing _ _ => .again (next root s (.compare i))
  | .looking _ _ _ => .again (next root s (.look i))
  | .linking _ _ _ => .again (next root s (.link i))
  | .unlocking _ _ _ => .again (next root s (.unlock i))

def add (root : α) (i : ι) (fuel : Nat) (s : State ι α ν) (c : Call α ν) : Option (Ended ι α ν) :=
  run (addTurn root i) fuel (next root s (.call i c))

/-- The state after `pthread_mutex_lock(&t->lock)`. -/
def locked (s : State ι α ν) (i : ι) (t : α) : State ι α ν :=
  { s with lock := Function.update s.lock t (some i) }

/-- A turn of the loop of `delete`. -/
def deleteTurn (i : ι) (key : CString) (s : State ι α ν × Option α) :
    Turn (State ι α ν × Option α) (Ended ι α ν) :=
  match s.2 with
  | none => .done (.returned s.1)
  | some cur =>
      if s.1.lock cur = none then
        -- Nothing is done yet when the key has been found.
        if CString.strcmp (s.1.heap cur).key.bytes key.bytes = 0 then
          .again (locked s.1 i cur, some cur)
        else .again (locked s.1 i cur, some cur)
      else .done (.waits s.1 cur)

def delete (root : α) (i : ι) (fuel : Nat) (s : State ι α ν) (key : CString) :
    Option (Ended ι α ν) :=
  if s.lock root = none then
    run (deleteTurn i key) fuel (locked s i root, (s.heap root).right)
  else some (.waits s root)

/-- What a thread calls. -/
inductive Op (α ν : Type) where
  | add (c : Call α ν)
  | delete (key : CString)

/-- How a call ends, if so many turns are enough. -/
def call (root : α) (i : ι) (fuel : Nat) (s : State ι α ν) : Op α ν → Option (Ended ι α ν)
  | .add c => add root i fuel s c
  | .delete key => delete root i fuel s key

end SafeTree

end TlpiPractice
