import Mathlib.Logic.Function.Basic
import TlpiPractice.Library.CString
import TlpiPractice.Library.Runs

/-!
# The Thread-Safe Binary Tree

`add` of `30-2-thread-safe_binary-tree.c`, called by any number of threads on
one tree.

A call allocates and fills its node before it enters the tree. It then goes
down from the root: it locks a node, compares the keys, looks at the pointer
on that side, and either unlocks the node and goes on to the one below, or
hangs its own node there and breaks out of the loop. Each of these is a step
of its own. The `break` jumps over the unlock, so the mutex of the node that
the new one was hung into stays locked for ever, and a later visit to that
node waits for ever.

The heap gives each address its node and says which addresses have been
allocated. An address that has not holds no pointers; what it holds is never
looked at. The last field of the state records what the finished calls have
added, and no step looks at it.

## Main definitions

* `Node`: `struct node`, less its mutex.
* `Pc`: Where a thread stands in `add`.
* `State`: The heap, the mutexes and the threads.
* `Event`: The steps of the threads.
* `Enabled`, `next`, `Step`: When a step can happen and what it does.
-/

namespace TlpiPractice

namespace SafeTree

inductive Side where
  | left
  | right
  deriving DecidableEq

structure Node (α ν : Type) where
  /-- `NULL` is `none`. -/
  value : Option ν
  key : CString
  left : Option α
  right : Option α

/-- The pointer on one side of a node. -/
def Node.child {α ν : Type} (n : Node α ν) : Side → Option α
  | .left => n.left
  | .right => n.right

/-- The node after the pointer on one side has been set. -/
def Node.setChild {α ν : Type} (n : Node α ν) (d : Side) (b : α) : Node α ν :=
  match d with
  | .left => { n with left := some b }
  | .right => { n with right := some b }

/-- A call of `add`: its arguments and the node `tmp`. -/
structure Call (α ν : Type) where
  key : CString
  value : Option ν
  tmp : α

/-- What a thread does next; `t` is the local variable of that name. -/
inductive Pc (α ν : Type) where
  /-- It is not in a call. -/
  | idle
  /-- To lock the node. -/
  | visiting (c : Call α ν) (t : α)
  /-- To compare the keys. -/
  | comparing (c : Call α ν) (t : α)
  /-- To look at the pointer on a side. -/
  | looking (c : Call α ν) (t : α) (d : Side)
  /-- To hang its node there. -/
  | linking (c : Call α ν) (t : α) (d : Side)
  /-- To unlock the node and to go on to the one below. -/
  | unlocking (c : Call α ν) (t u : α)

structure State (ι α ν : Type) where
  heap : α → Node α ν
  allocated : α → Bool
  /-- The thread that holds the mutex of a node. -/
  lock : α → Option ι
  pc : ι → Pc α ν
  /-- The keys and values of the finished calls, in order. -/
  added : List (CString × Option ν)

inductive Event (ι α ν : Type) where
  | call (i : ι) (c : Call α ν)
  | lock (i : ι)
  | compare (i : ι)
  | look (i : ι)
  | link (i : ι)
  | unlock (i : ι)

variable {ι α ν : Type} [DecidableEq ι] [DecidableEq α]

/-- The side on which a key is looked for. -/
def side (nodeKey key : CString) : Side :=
  if CString.strcmp nodeKey.bytes key.bytes < 0 then .left else .right

/-- When an event can happen. -/
def Enabled (s : State ι α ν) : Event ι α ν → Prop
  | .call i c => s.pc i = .idle ∧ s.allocated c.tmp = false
  | .lock i => ∃ c t, s.pc i = .visiting c t ∧ s.lock t = none
  | .compare i => ∃ c t, s.pc i = .comparing c t
  | .look i => ∃ c t d, s.pc i = .looking c t d
  | .link i => ∃ c t d, s.pc i = .linking c t d
  | .unlock i => ∃ c t u, s.pc i = .unlocking c t u

/-- Where a call goes on after it has looked at a pointer. -/
def afterLook (c : Call α ν) (t : α) (d : Side) : Option α → Pc α ν
  | some u => .unlocking c t u
  | none => .linking c t d

/-- What an event does. -/
def next (root : α) (s : State ι α ν) : Event ι α ν → State ι α ν
  -- A new node has a mutex of its own, which is free.
  | .call i c =>
      { s with
        heap := Function.update s.heap c.tmp ⟨c.value, c.key, none, none⟩
        allocated := Function.update s.allocated c.tmp true
        lock := Function.update s.lock c.tmp none
        pc := Function.update s.pc i (.visiting c root) }
  | .lock i =>
      match s.pc i with
      | .visiting c t =>
          { s with
            lock := Function.update s.lock t (some i)
            pc := Function.update s.pc i (.comparing c t) }
      | _ => s
  | .compare i =>
      match s.pc i with
      | .comparing c t =>
          { s with pc := Function.update s.pc i (.looking c t (side (s.heap t).key c.key)) }
      | _ => s
  | .look i =>
      match s.pc i with
      | .looking c t d =>
          { s with pc := Function.update s.pc i (afterLook c t d ((s.heap t).child d)) }
      | _ => s
  -- The mutex is not given back here.
  | .link i =>
      match s.pc i with
      | .linking c t d =>
          { s with
            heap := Function.update s.heap t ((s.heap t).setChild d c.tmp)
            pc := Function.update s.pc i .idle
            added := s.added ++ [(c.key, c.value)] }
      | _ => s
  -- The mutex is given back before the one below is taken.
  | .unlock i =>
      match s.pc i with
      | .unlocking c t u =>
          { s with
            lock := Function.update s.lock t none
            pc := Function.update s.pc i (.visiting c u) }
      | _ => s

/-- One step of one thread. -/
def Step (root : α) (s : State ι α ν) (e : Event ι α ν) (s' : State ι α ν) : Prop :=
  Enabled s e ∧ s' = next root s e

/-- The root as `initialize` leaves it, alone, before the first call. -/
def initial (root : α) : State ι α ν where
  heap := fun _ => ⟨none, CString.empty, none, none⟩
  allocated := Function.update (fun _ => false) root true
  lock := fun _ => none
  pc := fun _ => .idle
  added := []

end SafeTree

end TlpiPractice
