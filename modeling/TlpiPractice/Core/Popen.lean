import Mathlib.Data.List.Basic
import TlpiPractice.Library.Runs

/-!
# Pipe Streams

`popen` and `pclose` of `44-2-my_popen_pclose.c`, as the calling process sees
them.

The open streams are in a list with a dummy head, newest first; the head does
not exist before the first call of `popen`, and its process identifier is
zero. `pclose` searches with a pointer to the predecessor of the entry it looks
for, closes the stream, waits for the process of the predecessor, and unlinks
the entry. With the identifier zero `waitpid` waits for any child of the
process group. A `pclose` before the first `popen` follows the null pointer.

All system calls succeed, but for a `waitpid` that has nothing to wait for.
The children end at any time; one that has ended stays until it is waited for.
While `pclose` waits, the caller does nothing else. A new process gets an
identifier that no child has, and a new stream is none of those that are open.

The children are told apart by the order in which they were forked, since an
identifier can come back. `opened` records which child was forked for which
stream, and no step looks at it, but for the choice of a new stream.

## Main definitions

* `Entry`, `Child`, `Wait`: The list, the children, and a `pclose` that waits.
* `search`: The search of `pclose`.
* `State`: The process and its children.
* `Event`: The steps.
* `Enabled`, `next`, `Step`: When a step can happen and what it does.
-/

namespace TlpiPractice

namespace Popen

variable {φ : Type}

/-- `struct p_node`, less its link. -/
structure Entry (φ : Type) where
  file : φ
  pid : Nat
  deriving DecidableEq

/-- A child that has not been waited for, with its status when it has ended. -/
structure Child where
  /-- The number of children forked before. -/
  id : Nat
  pid : Nat
  status : Option Int
  deriving DecidableEq

/-- A `pclose` of `file` in `waitpid`, with the first argument of that. -/
structure Wait (φ : Type) where
  file : φ
  target : Nat
  deriving DecidableEq

structure State (φ : Type) where
  /-- The entries behind the dummy head, or nothing when `p_header` is
      `NULL`. -/
  pHeader : Option (List (Entry φ))
  children : List Child
  /-- How many children have been forked. -/
  forks : Nat
  waiting : Option (Wait φ)
  /-- What the last `pclose` has returned. -/
  returned : Option Int
  crashed : Bool
  /-- The streams opened and not closed, with the children forked for them. -/
  opened : List (φ × Nat)
  deriving DecidableEq

inductive Event (φ : Type) where
  /-- `popen` with the type `"r"` or `"w"`. -/
  | popen (file : φ) (pid : Nat)
  /-- `popen` with another type. -/
  | popenInvalid
  | pclose (file : φ)
  /-- `waitpid` returns a child. -/
  | collect (c : Child)
  /-- `waitpid` finds no child to wait for. -/
  | waitFails
  /-- A child ends. -/
  | exit (id : Nat) (status : Int)

/-- The child is one that `waitpid` waits for. -/
def Awaits (w : Wait φ) (c : Child) : Prop := w.target = 0 ∨ c.pid = w.target

variable [DecidableEq φ]

/-- The loop of `pclose`: the process identifier in the predecessor of the
    entry, where `prev` is the one in the node before the list. -/
def search (prev : Nat) (f : φ) : List (Entry φ) → Option Nat
  | [] => none
  | e :: es => if e.file = f then some prev else search e.pid f es

/-- When an event can happen. -/
def Enabled (s : State φ) : Event φ → Prop
  | .popen f pid =>
      s.crashed = false ∧ s.waiting = none ∧ pid ≠ 0 ∧ (∀ c ∈ s.children, c.pid ≠ pid) ∧
        ∀ o ∈ s.opened, o.1 ≠ f
  | .popenInvalid => s.crashed = false ∧ s.waiting = none
  | .pclose _ => s.crashed = false ∧ s.waiting = none
  | .collect c => ∃ w, s.waiting = some w ∧ c ∈ s.children ∧ c.status ≠ none ∧ Awaits w c
  | .waitFails => ∃ w, s.waiting = some w ∧ ∀ c ∈ s.children, ¬ Awaits w c
  | .exit id _ => ∃ c ∈ s.children, c.id = id ∧ c.status = none

/-- What is left after `pclose` has unlinked the entry of the stream. -/
def unlink (s : State φ) (f : φ) : Option (List (Entry φ)) :=
  s.pHeader.map (fun es => es.eraseP (fun e => decide (e.file = f)))

/-- The streams still open after one has been closed. -/
def close (opened : List (φ × Nat)) (f : φ) : List (φ × Nat) :=
  opened.filter (fun o => decide (o.1 ≠ f))

/-- What an event does. -/
def next (s : State φ) : Event φ → State φ
  | .popen f pid =>
      { s with
        pHeader := some (⟨f, pid⟩ :: s.pHeader.getD [])
        children := ⟨s.forks, pid, none⟩ :: s.children
        forks := s.forks + 1
        opened := (f, s.forks) :: s.opened }
  -- The head is made before the type is looked at.
  | .popenInvalid => { s with pHeader := some (s.pHeader.getD []) }
  -- Without a head the search follows the null pointer. With one it starts at
  -- the head, whose identifier is zero.
  | .pclose f =>
      match s.pHeader with
      | none => { s with crashed := true }
      | some es =>
          match search 0 f es with
          | none => { s with returned := some (-1) }
          | some target => { s with waiting := some ⟨f, target⟩ }
  | .collect c =>
      match s.waiting with
      | some w =>
          { s with
            pHeader := unlink s w.file
            children := s.children.filter (fun d => decide (d.id ≠ c.id))
            waiting := none
            returned := c.status
            opened := close s.opened w.file }
      | none => s
  -- The stream is closed and unlinked whatever `waitpid` says.
  | .waitFails =>
      match s.waiting with
      | some w =>
          { s with
            pHeader := unlink s w.file
            waiting := none
            returned := some (-1)
            opened := close s.opened w.file }
      | none => s
  | .exit id status =>
      { s with
        children :=
          s.children.map (fun c => if c.id = id then { c with status := some status } else c) }

/-- One step of the process or of a child. -/
def Step (s : State φ) (e : Event φ) (s' : State φ) : Prop := Enabled s e ∧ s' = next s e

/-- Before the first call. -/
def initial : State φ where
  pHeader := none
  children := []
  forks := 0
  waiting := none
  returned := none
  crashed := false
  opened := []

end Popen

end TlpiPractice
