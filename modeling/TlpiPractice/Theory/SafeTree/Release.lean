import TlpiPractice.Core.SafeTreeCalls
import TlpiPractice.Theory.SafeTree.Insertion

/-!
# What Stays Locked After a Call

Which mutexes a thread holds when a call is over, if none is taken before it.

A call of `add` goes down along a path of the tree. Between two nodes it holds
nothing, and at a node it holds that node's mutex alone. The path is not longer
than the tree has nodes, so the call comes to an empty place. There it breaks
out of the loop, past the unlock, and returns with that node locked.

A call of `delete` returns only if there is nothing to the right of the root,
and then it has the root locked. If there is something it locks that node and
comes back to lock it a second time. So there is no call of either that leaves
a thread as it should.

## Main definitions

* `Unlocked`: A tree with no mutex taken.
* `Released`: What should be true of any sequence of calls.
* `AtNode`: A thread in `add` with the mutex of its node.

## Theorems

* `after_visiting`, `after_inner`, `returns_of_leaf`: The steps of `add` at a
  node.
* `returns_of_visiting`: The rest of a call of `add`.
* `add_keeps`: A call of `add` returns with a node locked.
* `delete_keeps`, `delete_waits`: The two ways of `delete`.
* `released_iff`: No sequence of calls is right but the one without any.
* `released_iff_add`: At the root alone.
* `addFirst_wrong`: One call.
-/

namespace TlpiPractice

namespace SafeTree

open Loops PointerTree

variable {ι α ν : Type} [DecidableEq ι] [DecidableEq α]

/-- The nodes below the root are a tree, no mutex is taken, and the thread is
    not in a call. -/
structure Unlocked (root : α) (i : ι) (s : State ι α ν) (nodes : List α) : Prop where
  tree : IsTree (kids s.heap) root nodes
  allocated : ∀ a ∈ nodes, s.allocated a = true
  blank : ∀ a d, s.allocated a = false → kids s.heap a d = none
  free : ∀ a, s.lock a = none
  idle : s.pc i = .idle

/-- A thread holds no mutex. -/
def HoldsNone (i : ι) (s : State ι α ν) : Prop := ∀ a, s.lock a ≠ some i

/-- Each call of the sequence leaves the thread without a mutex if it returns,
    and does not wait for a mutex that the thread has. -/
def Released (root : α) (i : ι) : State ι α ν → List (Op α ν) → Prop
  | _, [] => True
  | s, op :: ops =>
      (∀ fuel s', call root i fuel s op = some (.returned s') →
        HoldsNone i s' ∧ Released root i s' ops) ∧
      ∀ fuel s' a, call root i fuel s op = some (.waits s' a) → s'.lock a ≠ some i

omit [DecidableEq ι] in
theorem lock_locked (s : State ι α ν) (i : ι) (t : α) : (locked s i t).lock t = some i :=
  Function.update_self _ _ _

/-- The thread has compared the keys at a node, which it has locked. -/
structure AtNode (i : ι) (c : Call α ν) (t : α) (d : Side) (s : State ι α ν) : Prop where
  pc : s.pc i = .looking c t d
  held : s.lock t = some i
  free : ∀ a, a ≠ t → s.lock a = none

/-- From the lock of a node to the look at a pointer. -/
theorem after_visiting (root : α) (i : ι) (c : Call α ν) (t : α) (s : State ι α ν)
    (hpc : s.pc i = .visiting c t) (hfree : ∀ a, s.lock a = none) :
    ∃ d s', AtNode i c t d s' ∧ s'.heap = s.heap ∧
      ∀ r, Returns (addTurn root i) s' r → Returns (addTurn root i) s r := by
  have hlock : addTurn root i s = .again (next root s (.lock i)) := by
    simp only [addTurn, hpc, hfree, if_true]
  have hcompare : addTurn root i (next root s (.lock i)) =
      .again (next root (next root s (.lock i)) (.compare i)) := by
    simp only [addTurn, next, hpc, Function.update_self]
  refine ⟨side (s.heap t).key c.key, next root (next root s (.lock i)) (.compare i), ⟨?_, ?_, ?_⟩,
    ?_, ?_⟩
  · simp only [next, hpc, Function.update_self]
  · simp only [next, hpc, Function.update_self]
  · intro a ha
    simp only [next, hpc, Function.update_self, Function.update_of_ne ha]
    exact hfree a
  · simp only [next, hpc, Function.update_self]
  · intro r hr
    exact (returns_again _ _ _ hlock r).mpr ((returns_again _ _ _ hcompare r).mpr hr)

/-- At an empty place the node is hung, and its parent stays locked. -/
theorem returns_of_leaf (root : α) (i : ι) (c : Call α ν) (t : α) (d : Side) (s : State ι α ν)
    (h : AtNode i c t d s) (hleaf : kids s.heap t d = none) :
    ∃ s', Returns (addTurn root i) s (.returned s') ∧ s'.lock t = some i := by
  have hchild : (s.heap t).child d = none := hleaf
  have hlook : addTurn root i s = .again (next root s (.look i)) := by
    simp only [addTurn, h.pc]
  have hpc : (next root s (.look i)).pc i = .linking c t d := by
    simp only [next, h.pc, hchild, afterLook, Function.update_self]
  have hlink : addTurn root i (next root s (.look i)) =
      .again (next root (next root s (.look i)) (.link i)) := by
    simp only [addTurn, hpc]
  have hidle : (next root (next root s (.look i)) (.link i)).pc i = .idle := by
    simp only [next, h.pc, hchild, afterLook, Function.update_self]
  have hdone : addTurn root i (next root (next root s (.look i)) (.link i)) =
      .done (.returned (next root (next root s (.look i)) (.link i))) := by
    rw [addTurn, hidle]
  refine ⟨next root (next root s (.look i)) (.link i), ?_, ?_⟩
  · refine (returns_again _ _ _ hlook _).mpr ((returns_again _ _ _ hlink _).mpr ?_)
    exact (returns_done _ _ _ hdone _).mpr rfl
  · simp only [next, h.pc, hchild, afterLook, Function.update_self]
    exact h.held

/-- Where there is a node the thread goes on to it, and holds nothing then. -/
theorem after_inner (root : α) (i : ι) (c : Call α ν) (t u : α) (d : Side) (s : State ι α ν)
    (h : AtNode i c t d s) (hinner : kids s.heap t d = some u) :
    ∃ s', s'.pc i = .visiting c u ∧ (∀ a, s'.lock a = none) ∧ s'.heap = s.heap ∧
      ∀ r, Returns (addTurn root i) s' r → Returns (addTurn root i) s r := by
  have hchild : (s.heap t).child d = some u := hinner
  have hlook : addTurn root i s = .again (next root s (.look i)) := by
    simp only [addTurn, h.pc]
  have hpc : (next root s (.look i)).pc i = .unlocking c t u := by
    simp only [next, h.pc, hchild, afterLook, Function.update_self]
  have hunlock : addTurn root i (next root s (.look i)) =
      .again (next root (next root s (.look i)) (.unlock i)) := by
    simp only [addTurn, hpc]
  refine ⟨next root (next root s (.look i)) (.unlock i), ?_, fun a => ?_, ?_, fun r hr => ?_⟩
  · simp only [next, h.pc, hchild, afterLook, Function.update_self]
  · simp only [next, h.pc, hchild, afterLook, Function.update_self]
    by_cases hat : a = t
    · rw [hat, Function.update_self]
    · rw [Function.update_of_ne hat]
      exact h.free a hat
  · simp only [next, h.pc, hchild, afterLook, Function.update_self]
  · exact (returns_again _ _ _ hlook r).mpr ((returns_again _ _ _ hunlock r).mpr hr)

/-- From any node of the tree a call of `add` comes to its end, with a node
    locked. -/
theorem returns_of_visiting (root : α) (i : ι) (c : Call α ν) (nodes : List α) (n : Nat)
    (p : List Side) (t : α) (s : State ι α ν) (htree : IsTree (kids s.heap) root nodes)
    (hp : walk (kids s.heap) root p = some t) (hn : nodes.length = p.length + n)
    (hpc : s.pc i = .visiting c t) (hfree : ∀ a, s.lock a = none) :
    ∃ s', Returns (addTurn root i) s (.returned s') ∧ ∃ a, s'.lock a = some i := by
  -- By induction on how many nodes there are besides those on the way.
  induction n generalizing p t s with
  | zero =>
      have hlt := length_lt_of_walk (kids s.heap) root nodes htree p t hp
      omega
  | succ n ih =>
      rcases after_visiting root i c t s hpc hfree with ⟨d, s₁, hat, hheap, hreturns⟩
      cases hkid : kids s.heap t d with
      | none =>
          rcases returns_of_leaf root i c t d s₁ hat (by rw [hheap, hkid]) with ⟨s', hs', hlock⟩
          exact ⟨s', hreturns _ hs', t, hlock⟩
      | some u =>
          rcases after_inner root i c t u d s₁ hat (by rw [hheap, hkid]) with
            ⟨s₂, hpc₂, hfree₂, hheap₂, hreturns₂⟩
          rw [hheap] at hheap₂
          have hwalk : walk (kids s₂.heap) root (p ++ [d]) = some u := by
            rw [hheap₂, walk_trans _ root t p _ hp, walk, hkid]
            rfl
          have hlen : nodes.length = (p ++ [d]).length + n := by
            rw [List.length_append, List.length_singleton]
            omega
          rcases ih (p ++ [d]) u s₂ (hheap₂ ▸ htree) hwalk hlen hpc₂ hfree₂ with ⟨s', hs', hheld⟩
          exact ⟨s', hreturns _ (hreturns₂ _ hs'), hheld⟩

/-- A call of `add` returns, and its thread holds a mutex then. -/
theorem add_keeps (root : α) (i : ι) (s : State ι α ν) (nodes : List α)
    (h : Unlocked root i s nodes) (c : Call α ν) (hc : s.allocated c.tmp = false) :
    ∃ fuel s', add root i fuel s c = some (.returned s') ∧ ∃ a, s'.lock a = some i := by
  have hkids : kids (next root s (.call i c)).heap = kids s.heap :=
    kids_filled s.heap c (fun d => h.blank c.tmp d hc)
  have hfree : ∀ a, (next root s (.call i c)).lock a = none := by
    intro a
    simp only [next]
    by_cases ha : a = c.tmp
    · rw [ha, Function.update_self]
    · rw [Function.update_of_ne ha]
      exact h.free a
  have hpc : (next root s (.call i c)).pc i = .visiting c root := by
    simp only [next, Function.update_self]
  rcases returns_of_visiting root i c nodes nodes.length [] root _ (hkids ▸ h.tree) rfl
    (Nat.zero_add _).symm hpc hfree with ⟨s', ⟨fuel, hs'⟩, hheld⟩
  exact ⟨fuel, s', hs', hheld⟩

omit [DecidableEq ι] in
/-- With nothing to the right of the root a call of `delete` returns, and its
    thread holds the root. -/
theorem delete_keeps (root : α) (i : ι) (s : State ι α ν) (key : CString)
    (hfree : s.lock root = none) (h : (s.heap root).right = none) :
    delete root i 1 s key = some (.returned (locked s i root)) := by
  rw [delete, if_pos hfree, h]
  rfl

omit [DecidableEq ι] in
/-- Otherwise it locks the node there twice. -/
theorem delete_waits (root : α) (i : ι) (s : State ι α ν) (key : CString) (t : α)
    (hfree : ∀ a, s.lock a = none) (h : (s.heap root).right = some t) (hne : t ≠ root) :
    delete root i 2 s key = some (.waits (locked (locked s i root) i t) t) := by
  have hroot : (locked s i root).lock t = none := by
    simp only [locked, Function.update_of_ne hne]
    exact hfree t
  have hfirst : deleteTurn i key (locked s i root, some t) =
      .again (locked (locked s i root) i t, some t) := by
    simp only [deleteTurn, hroot, if_true, ite_self]
  have hsecond : deleteTurn i key (locked (locked s i root) i t, some t) =
      .done (.waits (locked (locked s i root) i t) t) := by
    simp only [deleteTurn, lock_locked, Option.some_ne_none, if_false]
  rw [delete, if_pos (hfree root), h]
  simp only [run, hfirst, hsecond]

omit [DecidableEq α] in
/-- Nothing is its own child. -/
theorem right_ne_root (root : α) (heap : α → Node α ν) (nodes : List α)
    (h : IsTree (kids heap) root nodes) (t : α) (ht : (heap root).right = some t) : t ≠ root := by
  rintro rfl
  have hwalk : walk (kids heap) t [.right] = some t := by
    rw [walk, kids, Node.child, ht]
    rfl
  cases h.unique [.right] [] t hwalk rfl

/-- The first call is already wrong. -/
theorem not_released_cons (root : α) (i : ι) (s : State ι α ν) (nodes : List α)
    (h : Unlocked root i s nodes) (op : Op α ν) (ops : List (Op α ν))
    (hfresh : ∀ c, op = .add c → s.allocated c.tmp = false) :
    ¬ Released root i s (op :: ops) := by
  rintro ⟨hreturned, hwaits⟩
  cases op with
  | add c =>
      rcases add_keeps root i s nodes h c (hfresh c rfl) with ⟨fuel, s', hs', a, ha⟩
      exact (hreturned fuel s' hs').1 a ha
  | delete key =>
      cases hright : (s.heap root).right with
      | none =>
          have hdone := delete_keeps root i s key (h.free root) hright
          exact (hreturned 1 _ hdone).1 root (lock_locked s i root)
      | some t =>
          have hne := right_ne_root root s.heap nodes h.tree t hright
          have hblocked := delete_waits root i s key t h.free hright hne
          exact hwaits 2 _ t hblocked (lock_locked _ i t)

/-- A sequence of calls leaves no mutex behind and waits for none of its own
    if and only if there is no call in it. -/
theorem released_iff (root : α) (i : ι) (s : State ι α ν) (nodes : List α)
    (h : Unlocked root i s nodes) (ops : List (Op α ν))
    (hfresh : ∀ c, .add c ∈ ops → s.allocated c.tmp = false) :
    Released root i s ops ↔ ops = [] := by
  cases ops with
  | nil => exact ⟨fun _ => rfl, fun _ => trivial⟩
  | cons op ops =>
      refine ⟨fun hreleased => ?_, fun hnil => absurd hnil (List.cons_ne_nil op ops)⟩
      refine absurd hreleased (not_released_cons root i s nodes h op ops (fun c hc => ?_))
      exact hfresh c (hc ▸ List.mem_cons_self)

omit [DecidableEq ι] in
theorem unlocked_initial (root : α) (i : ι) :
    Unlocked root i (initial root : State ι α ν) [root] := by
  have hinv : TreeInv root (initial root : State ι α ν) [root] := treeInv_initial root
  exact ⟨hinv.tree, hinv.allocated, hinv.blank, fun _ => rfl, rfl⟩

/-- The key `b` is added below the root. -/
def addB : Op Nat Nat := .add ⟨keyB, some 1, 10⟩

theorem released_iff_add :
    Released 0 true (initial 0 : State Bool Nat Nat) [addB] ↔ [addB] = [] := by
  refine released_iff 0 true (initial 0) [0] (unlocked_initial 0 true) [addB] ?_
  intro c hc
  cases List.mem_singleton.mp hc
  rfl

/-- It leaves the root locked. -/
theorem addFirst_wrong : ¬ Released 0 true (initial 0 : State Bool Nat Nat) [addB] := by
  refine not_released_cons 0 true (initial 0) [0] (unlocked_initial 0 true) addB [] ?_
  intro c hc
  cases hc
  rfl

end SafeTree

end TlpiPractice
