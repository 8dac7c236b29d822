import Mathlib.Data.List.Range
import TlpiPractice.Library.LinkedList

/-!
# The Process Tree

The tree of `12-2-print_process_tree.c`. The program goes through `/proc`,
takes the pid, the parent's pid and the name of each process from its status
file, and builds a tree of nodes that it then prints from pid 1.

`process` is an array of pointers to nodes by pid. A node is allocated for
its pid once and stays in its place, so a pointer to a node is modelled by its
pid, and the array by a function. Each node has a dummy for its list of
children; `child` is the link in the dummy, the first child, and `next` the
next one of the same parent.

`create_node` makes a node for the process and, when there is none yet, a
node for its parent, with `-1` for the parent's parent and without a name. It
returns at once when the process has a node whose pid is not `-1`. A node made
for a parent has its own pid from the start, so it is never completed. Nothing
checks the pids against the `MAX_PID` elements of `process`.

After the enumeration the children of every node without a parent are moved
under pid 1, one at a time. Should that node be pid 1 itself, the child goes
back to where it was taken from, and the loop goes on for ever. Loops here
have a bound on their steps, and give nothing when it does not suffice, or
when a null pointer is followed.

## Main definitions

* `Node`: A node, with the link in its dummy.
* `Table`: The array `process`.
* `createNode`: One process.
* `addProcess`: The same, inside the bounds of the array.
* `moveChildren`: The inner loop that moves the children of a node.
* `reparent`: The loop of `main` over all nodes without a parent.
* `enumerate`, `enumerateIn`: The nodes made for a list of processes.
-/

namespace TlpiPractice

namespace ProcessTree

/-- `MAX_PID`. -/
def maxPid : Nat := 32768

/-- `struct node`. -/
structure Node where
  pid : Int
  ppid : Int
  /-- The name; a null pointer in a node made for a parent. -/
  ins : Option (List UInt8)
  /-- `child->next`. -/
  child : Option Nat
  next : Option Nat
  deriving DecidableEq

/-- `process`. -/
abbrev Table := Nat → Option Node

/-- The node made for a parent, and for a process before its fields are
    set. -/
def placeholder (pid : Nat) : Node :=
  { pid := pid, ppid := -1, ins := none, child := none, next := none }

/-- `process[i]->child->next`. -/
def childOf (t : Table) (i : Nat) : Option Nat := (t i).bind Node.child

/-- `process[i]->next`. -/
def nextOf (t : Table) (i : Nat) : Option Nat := (t i).bind Node.next

/-- `process[i]->child->next = x`. -/
def setChild (t : Table) (i : Nat) (x : Option Nat) : Table :=
  Function.update t i ((t i).map (fun n => { n with child := x }))

/-- `process[i]->next = x`. -/
def setNext (t : Table) (i : Nat) (x : Option Nat) : Table :=
  Function.update t i ((t i).map (fun n => { n with next := x }))

/-- The node of the process, with its parent and name set. -/
def complete (t : Table) (pid ppid : Nat) (ins : List UInt8) : Table :=
  Function.update t pid
    (some { (t pid).getD (placeholder pid) with ppid := ppid, ins := some ins })

/-- A node for the parent, if there is none. -/
def ensure (t : Table) (ppid : Nat) : Table :=
  -- It gets its own pid, and `-1` for its parent.
  if t ppid = none then Function.update t ppid (some (placeholder ppid)) else t

/-- `create_node`. -/
def createNode (t : Table) (pid ppid : Nat) (ins : List UInt8) : Table :=
  -- The node made for a parent is taken for a complete one here.
  if (t pid).any (fun n => decide (n.pid ≠ -1)) = true then t
  else
    let made := ensure (complete t pid ppid ins) ppid
    setChild (setNext made pid (childOf made ppid)) ppid (some pid)

/-- `create_node`, unless it looks at `process` outside its bounds. The
    parent's pid is not looked at for a process that has a node. -/
def addProcess (t : Table) (pid ppid : Int) (name : List UInt8) : Option Table :=
  if pid < 0 ∨ maxPid ≤ pid then none
  else if (t pid.toNat).any (fun n => decide (n.pid ≠ -1)) = true then some t
  else if ppid < 0 ∨ maxPid ≤ ppid then none
  else some (createNode t pid.toNat ppid.toNat name)

/-- The first child `tmp` of a node goes to the front of the children of
    pid 1. -/
def moveFirst (t : Table) (i tmp : Nat) : Table :=
  -- Out of the one list first, so that pid 1 itself gets its child back.
  let cut := setChild t i (nextOf t tmp)
  setChild (setNext cut tmp (childOf cut 1)) 1 (some tmp)

/-- `while (tmp = process[i]->child->next)`: the first child is moved, until
    there is none. -/
def moveChildren : Nat → Table → Nat → Option Table
  | 0, _, _ => none
  | fuel + 1, t, i =>
      match childOf t i with
      | none => some t
      | some tmp => if t 1 = none then none else moveChildren fuel (moveFirst t i tmp) i

/-- The body of the loop over all pids. -/
def reparentStep (fuel : Nat) (t : Table) (i : Nat) : Option Table :=
  match t i with
  | none => some t
  | some n => if n.ppid = -1 then moveChildren fuel t i else some t

/-- The loop over all pids from 1 on. -/
def reparent (fuel : Nat) (t : Table) : Option Table :=
  (List.range' 1 (maxPid - 1)).foldlM (reparentStep fuel) t

/-- What a status file says. -/
structure Proc where
  pid : Nat
  ppid : Nat
  name : List UInt8
  deriving DecidableEq

/-- The nodes made for a list of processes. -/
def enumerate (procs : List Proc) : Table :=
  procs.foldl (fun t r => createNode t r.pid r.ppid r.name) (fun _ => none)

/-- The same, as long as `create_node` stays inside `process`. -/
def enumerateIn (procs : List Proc) : Option Table :=
  procs.foldlM (fun t r => addProcess t r.pid r.ppid r.name) (fun _ => none)

end ProcessTree

end TlpiPractice
