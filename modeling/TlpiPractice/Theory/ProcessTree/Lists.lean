import TlpiPractice.Core.ProcessTree

/-!
# Child Lists

The lists of children that the nodes hold, as a function from pids to lists,
and what `create_node` and the moves of the re-parenting loop do to them.

A table is read through three views: `childOf` and `nextOf`, which are its
links, and `fieldsOf`, which is everything else. Each assignment of the
program changes one of them in one place and leaves the others alone, and the
lemmas at the beginning say so. Nothing after them unfolds a table.

`Lists` says that a function gives the children of every node, and that no
node is in two lists. Since a chain that ends has no cell twice, a node is
then at most once in one list.

## Main definitions

* `fieldsOf`: A node without its links.
* `Lists`: The children of every node.
* `Orphaned`: A node without a parent.
* `adopted`, `Reparented`: The children after one of the moves, and after the
  loop.

## Theorems

* `createNode_occupied`: A pid with a node is not made again.
* `childOf_createNode`, `nextOf_createNode`, `fieldsOf_createNode_self`: A pid
  without a node.
* `lists_createNode`: The new node is the first child of its parent.
* `moveChildren_spec`: All children of a node are moved.
* `reparented_cons_orphan`, `reparented_cons_other`: One round of the loop.
* `reparent_spec`: Which children every node has in the end.
-/

namespace TlpiPractice

namespace ProcessTree

open LinkedList

/-! ### Views of a table -/

/-- A node without its links: its pid, its parent's and its name. -/
def fieldsOf (t : Table) (i : Nat) : Option (Int × Int × Option (List UInt8)) :=
  (t i).map (fun n => (n.pid, n.ppid, n.ins))

theorem fieldsOf_eq_none (t : Table) (i : Nat) : fieldsOf t i = none ↔ t i = none :=
  Option.map_eq_none_iff

section Assignments

variable (t : Table) (i : Nat) (x : Option Nat)

theorem fieldsOf_setChild : fieldsOf (setChild t i x) = fieldsOf t := by
  funext j
  by_cases hj : j = i
  · subst hj
    simp only [fieldsOf, setChild, Function.update_self, Option.map_map]
    rfl
  · simp only [fieldsOf, setChild, Function.update_of_ne hj]

theorem fieldsOf_setNext : fieldsOf (setNext t i x) = fieldsOf t := by
  funext j
  by_cases hj : j = i
  · subst hj
    simp only [fieldsOf, setNext, Function.update_self, Option.map_map]
    rfl
  · simp only [fieldsOf, setNext, Function.update_of_ne hj]

theorem nextOf_setChild : nextOf (setChild t i x) = nextOf t := by
  funext j
  by_cases hj : j = i
  · subst hj
    simp only [nextOf, setChild, Function.update_self, Option.bind_map]
    rfl
  · simp only [nextOf, setChild, Function.update_of_ne hj]

theorem childOf_setNext : childOf (setNext t i x) = childOf t := by
  funext j
  by_cases hj : j = i
  · subst hj
    simp only [childOf, setNext, Function.update_self, Option.bind_map]
    rfl
  · simp only [childOf, setNext, Function.update_of_ne hj]

theorem childOf_setChild (hi : t i ≠ none) :
    childOf (setChild t i x) = Function.update (childOf t) i x := by
  funext j
  by_cases hj : j = i
  · subst hj
    rcases Option.ne_none_iff_exists'.mp hi with ⟨n, hn⟩
    simp only [childOf, setChild, Function.update_self, hn, Option.map_some, Option.bind_some]
  · simp only [childOf, setChild, Function.update_of_ne hj]

theorem nextOf_setNext (hi : t i ≠ none) :
    nextOf (setNext t i x) = Function.update (nextOf t) i x := by
  funext j
  by_cases hj : j = i
  · subst hj
    rcases Option.ne_none_iff_exists'.mp hi with ⟨n, hn⟩
    simp only [nextOf, setNext, Function.update_self, hn, Option.map_some, Option.bind_some]
  · simp only [nextOf, setNext, Function.update_of_ne hj]

/-- Assignments to links neither make nor remove nodes. -/
theorem setChild_ne_none (j : Nat) : setChild t i x j ≠ none ↔ t j ≠ none := by
  rw [ne_eq, ne_eq, ← fieldsOf_eq_none, fieldsOf_setChild, fieldsOf_eq_none]

theorem setNext_ne_none (j : Nat) : setNext t i x j ≠ none ↔ t j ≠ none := by
  rw [ne_eq, ne_eq, ← fieldsOf_eq_none, fieldsOf_setNext, fieldsOf_eq_none]

end Assignments

/-! ### Making a node -/

/-- A pid that has a node is not made again. -/
theorem createNode_occupied (t : Table) (pid ppid : Nat) (ins : List UInt8) (n : Node)
    (hn : t pid = some n) (hpid : n.pid ≠ -1) : createNode t pid ppid ins = t := by
  rw [createNode, hn, Option.any_some, if_pos (decide_eq_true hpid)]

section Create

variable (t : Table) (pid ppid : Nat) (ins : List UInt8)

/-- The two nodes before they are linked: the process's own, -/
theorem made_self (hempty : t pid = none) (hne : pid ≠ ppid) :
    ensure (complete t pid ppid ins) ppid pid
      = some { placeholder pid with ppid := ppid, ins := some ins } := by
  rw [ensure]
  split
  · rw [Function.update_of_ne hne, complete, Function.update_self, hempty, Option.getD_none]
  · rw [complete, Function.update_self, hempty, Option.getD_none]

/-- its parent's, which may have been there, -/
theorem made_parent (hne : pid ≠ ppid) :
    ensure (complete t pid ppid ins) ppid ppid = some ((t ppid).getD (placeholder ppid)) := by
  have hsame : complete t pid ppid ins ppid = t ppid := Function.update_of_ne hne.symm _ _
  rw [ensure, hsame]
  by_cases hp : t ppid = none
  · rw [if_pos hp, Function.update_self, hp, Option.getD_none]
  · rw [if_neg hp, hsame]
    rcases Option.ne_none_iff_exists'.mp hp with ⟨n, hn⟩
    rw [hn, Option.getD_some]

/-- and no others. -/
theorem made_other (j : Nat) (hj : j ≠ pid) (hj' : j ≠ ppid) :
    ensure (complete t pid ppid ins) ppid j = t j := by
  have hsame : complete t pid ppid ins j = t j := Function.update_of_ne hj _ _
  rw [ensure]
  split
  · rw [Function.update_of_ne hj', hsame]
  · exact hsame

/-- New nodes have no links. -/
theorem links_made (hempty : t pid = none) (hne : pid ≠ ppid) :
    childOf (ensure (complete t pid ppid ins) ppid) = childOf t ∧
      nextOf (ensure (complete t pid ppid ins) ppid) = nextOf t := by
  have hlinks : ∀ j, childOf (ensure (complete t pid ppid ins) ppid) j = childOf t j ∧
      nextOf (ensure (complete t pid ppid ins) ppid) j = nextOf t j := by
    intro j
    simp only [childOf, nextOf]
    by_cases hj : j = pid
    · rw [hj, made_self t pid ppid ins hempty hne, hempty]
      exact ⟨rfl, rfl⟩
    by_cases hj' : j = ppid
    · rw [hj', made_parent t pid ppid ins hne]
      cases t ppid with
      | none => exact ⟨rfl, rfl⟩
      | some n => exact ⟨rfl, rfl⟩
    · rw [made_other t pid ppid ins j hj hj']
      exact ⟨rfl, rfl⟩
  exact ⟨funext fun j => (hlinks j).1, funext fun j => (hlinks j).2⟩

/-- A pid without a node gets one, in front of its parent's children. -/
theorem createNode_empty (hempty : t pid = none) (hne : pid ≠ ppid) :
    createNode t pid ppid ins =
      setChild (setNext (ensure (complete t pid ppid ins) ppid) pid (childOf t ppid)) ppid
        (some pid) := by
  rw [createNode, hempty, Option.any_none, if_neg Bool.false_ne_true]
  simp only [(links_made t pid ppid ins hempty hne).1]

theorem childOf_createNode (hempty : t pid = none) (hne : pid ≠ ppid) :
    childOf (createNode t pid ppid ins) = Function.update (childOf t) ppid (some pid) := by
  have hparent : ensure (complete t pid ppid ins) ppid ppid ≠ none := by
    rw [made_parent t pid ppid ins hne]
    exact nofun
  rw [createNode_empty t pid ppid ins hempty hne,
    childOf_setChild _ _ _ ((setNext_ne_none _ _ _ _).mpr hparent), childOf_setNext,
    (links_made t pid ppid ins hempty hne).1]

theorem nextOf_createNode (hempty : t pid = none) (hne : pid ≠ ppid) :
    nextOf (createNode t pid ppid ins) = Function.update (nextOf t) pid (childOf t ppid) := by
  have hself : ensure (complete t pid ppid ins) ppid pid ≠ none := by
    rw [made_self t pid ppid ins hempty hne]
    exact nofun
  rw [createNode_empty t pid ppid ins hempty hne, nextOf_setChild, nextOf_setNext _ _ _ hself,
    (links_made t pid ppid ins hempty hne).2]

/-- The fields of the new node, -/
theorem fieldsOf_createNode_self (hempty : t pid = none) (hne : pid ≠ ppid) :
    fieldsOf (createNode t pid ppid ins) pid = some ((pid : Int), (ppid : Int), some ins) := by
  rw [createNode_empty t pid ppid ins hempty hne, fieldsOf_setChild, fieldsOf_setNext, fieldsOf,
    made_self t pid ppid ins hempty hne]
  rfl

/-- of its parent, which has neither parent nor name when it is new, -/
theorem fieldsOf_createNode_parent (hempty : t pid = none) (hne : pid ≠ ppid) :
    fieldsOf (createNode t pid ppid ins) ppid
      = some ((fieldsOf t ppid).getD ((ppid : Int), -1, none)) := by
  rw [createNode_empty t pid ppid ins hempty hne, fieldsOf_setChild, fieldsOf_setNext, fieldsOf,
    fieldsOf, made_parent t pid ppid ins hne]
  cases t ppid with
  | none => rfl
  | some n => rfl

/-- and of all others. -/
theorem fieldsOf_createNode_other (hempty : t pid = none) (hne : pid ≠ ppid) (j : Nat)
    (hj : j ≠ pid) (hj' : j ≠ ppid) :
    fieldsOf (createNode t pid ppid ins) j = fieldsOf t j := by
  rw [createNode_empty t pid ppid ins hempty hne, fieldsOf_setChild, fieldsOf_setNext, fieldsOf,
    fieldsOf, made_other t pid ppid ins j hj hj']

end Create

/-! ### Lists of children -/

/-- `kids` gives the children of every node. No node is in two lists, and
    everything in a list is a node. -/
structure Lists (t : Table) (kids : Nat → List Nat) : Prop where
  linked : ∀ i, Linked (nextOf t) (childOf t i) (kids i)
  apart : ∀ i j c, c ∈ kids i → c ∈ kids j → i = j
  node : ∀ i c, c ∈ kids i → t c ≠ none

/-- A node with children is a node. -/
theorem node_of_mem (t : Table) (kids : Nat → List Nat) (h : Lists t kids) (i c : Nat)
    (hc : c ∈ kids i) : t i ≠ none := by
  intro hi
  have hlinked := h.linked i
  rw [childOf, hi, Option.bind_none] at hlinked
  cases hk : kids i with
  | nil =>
      rw [hk] at hc
      exact absurd hc List.not_mem_nil
  | cons a l =>
      rw [hk] at hlinked
      exact nomatch hlinked.1

/-- The new node is the first child of its parent. -/
theorem lists_createNode (t : Table) (kids : Nat → List Nat) (pid ppid : Nat) (ins : List UInt8)
    (h : Lists t kids) (hempty : t pid = none) (hne : pid ≠ ppid) :
    Lists (createNode t pid ppid ins) (Function.update kids ppid (pid :: kids ppid)) := by
  have hout : ∀ i, pid ∉ kids i := fun i hi => h.node i pid hi hempty
  have hmem : ∀ i c, c ∈ Function.update kids ppid (pid :: kids ppid) i →
      (c = pid ∧ i = ppid) ∨ c ∈ kids i := by
    intro i c hc
    by_cases hi : i = ppid
    · rw [hi, Function.update_self] at hc
      rcases List.mem_cons.mp hc with rfl | hc
      · exact Or.inl ⟨rfl, hi⟩
      · exact Or.inr (hi ▸ hc)
    · rw [Function.update_of_ne hi] at hc
      exact Or.inr hc
  refine ⟨fun i => ?_, fun i j c hi hj => ?_, fun i c hc => ?_⟩
  · rw [childOf_createNode t pid ppid ins hempty hne, nextOf_createNode t pid ppid ins hempty hne]
    by_cases hi : i = ppid
    · rw [hi, Function.update_self, Function.update_self]
      exact linked_cons _ _ _ _ (hout ppid) (h.linked ppid)
    · rw [Function.update_of_ne hi, Function.update_of_ne hi]
      exact linked_update _ _ _ _ _ (hout i) (h.linked i)
  · rcases hmem i c hi with ⟨rfl, rfl⟩ | hi'
    · rcases hmem j c hj with ⟨_, rfl⟩ | hj'
      · rfl
      · exact absurd hj' (hout j)
    · rcases hmem j c hj with ⟨rfl, rfl⟩ | hj'
      · exact absurd hi' (hout i)
      · exact h.apart i j c hi' hj'
  · rw [ne_eq, ← fieldsOf_eq_none]
    by_cases hcp : c = pid
    · rw [hcp, fieldsOf_createNode_self t pid ppid ins hempty hne]
      exact nofun
    by_cases hcq : c = ppid
    · rw [hcq, fieldsOf_createNode_parent t pid ppid ins hempty hne]
      exact nofun
    · rw [fieldsOf_createNode_other t pid ppid ins hempty hne c hcp hcq, fieldsOf_eq_none]
      rcases hmem i c hc with ⟨rfl, _⟩ | hc'
      · exact absurd rfl hcp
      · exact h.node i c hc'

/-! ### Moving children -/

section Move

variable (t : Table) (i tmp : Nat)

theorem fieldsOf_moveFirst : fieldsOf (moveFirst t i tmp) = fieldsOf t := by
  simp only [moveFirst, fieldsOf_setChild, fieldsOf_setNext]

theorem childOf_moveFirst (hi : t i ≠ none) (hone : t 1 ≠ none) :
    childOf (moveFirst t i tmp)
      = Function.update (Function.update (childOf t) i (nextOf t tmp)) 1 (some tmp) := by
  have hone' : setNext (setChild t i (nextOf t tmp)) tmp
      (childOf (setChild t i (nextOf t tmp)) 1) 1 ≠ none := by
    rwa [setNext_ne_none, setChild_ne_none]
  simp only [moveFirst]
  rw [childOf_setChild _ _ _ hone', childOf_setNext, childOf_setChild _ _ _ hi]

theorem nextOf_moveFirst (hi : t i ≠ none) (htmp : t tmp ≠ none) (hne : i ≠ 1) :
    nextOf (moveFirst t i tmp) = Function.update (nextOf t) tmp (childOf t 1) := by
  simp only [moveFirst]
  rw [nextOf_setChild, nextOf_setNext _ _ _ ((setChild_ne_none _ _ _ _).mpr htmp),
    nextOf_setChild, childOf_setChild _ _ _ hi, Function.update_of_ne hne.symm]

end Move

/-- One child is moved from the front of one list to the front of another. -/
theorem lists_moveFirst (t : Table) (kids : Nat → List Nat) (i tmp : Nat) (l : List Nat)
    (h : Lists t kids) (hk : kids i = tmp :: l) (hone : t 1 ≠ none) (hne : i ≠ 1) :
    Lists (moveFirst t i tmp)
      (Function.update (Function.update kids i l) 1 (tmp :: kids 1)) := by
  have hin : tmp ∈ kids i := hk ▸ List.mem_cons_self
  have hi := node_of_mem t kids h i tmp hin
  have htmp := h.node i tmp hin
  have hlinked := h.linked i
  rw [hk] at hlinked
  have hnodup := linked_nodup _ _ _ hlinked
  -- Nothing else has the child, so its link can change.
  have hout : ∀ j, j ≠ i → tmp ∉ kids j := fun j hj hmem => hj (h.apart j i tmp hmem hin)
  have hmem : ∀ j c, c ∈ Function.update (Function.update kids i l) 1 (tmp :: kids 1) j →
      (c = tmp ∧ j = 1) ∨ (c ≠ tmp ∧ c ∈ kids j) := by
    intro j c hc
    by_cases hj : j = 1
    · rw [hj, Function.update_self] at hc
      rcases List.mem_cons.mp hc with rfl | hc
      · exact Or.inl ⟨rfl, hj⟩
      · exact Or.inr ⟨fun hct => hout 1 hne.symm (hct ▸ hc), hj ▸ hc⟩
    rw [Function.update_of_ne hj] at hc
    by_cases hji : j = i
    · rw [hji, Function.update_self] at hc
      exact Or.inr ⟨fun hct => (List.nodup_cons.mp hnodup).1 (hct ▸ hc),
        hji ▸ hk ▸ List.mem_cons_of_mem _ hc⟩
    · rw [Function.update_of_ne hji] at hc
      exact Or.inr ⟨fun hct => hout j hji (hct ▸ hc), hc⟩
  refine ⟨fun j => ?_, fun j k c hj hk' => ?_, fun j c hc => ?_⟩
  · rw [childOf_moveFirst t i tmp hi hone, nextOf_moveFirst t i tmp hi htmp hne]
    by_cases hj : j = 1
    · rw [hj, Function.update_self, Function.update_self]
      exact linked_cons _ _ _ _ (hout 1 hne.symm) (h.linked 1)
    rw [Function.update_of_ne hj, Function.update_of_ne hj]
    by_cases hji : j = i
    · rw [hji, Function.update_self, Function.update_self]
      exact linked_update _ _ _ _ _ (List.nodup_cons.mp hnodup).1 hlinked.2
    · rw [Function.update_of_ne hji, Function.update_of_ne hji]
      exact linked_update _ _ _ _ _ (hout j hji) (h.linked j)
  · rcases hmem j c hj with ⟨rfl, rfl⟩ | ⟨hct, hj'⟩
    · rcases hmem k c hk' with ⟨_, rfl⟩ | ⟨hct, _⟩
      · rfl
      · exact absurd rfl hct
    · rcases hmem k c hk' with ⟨rfl, _⟩ | ⟨_, hk''⟩
      · exact absurd rfl hct
      · exact h.apart j k c hj' hk''
  · rw [ne_eq, ← fieldsOf_eq_none, fieldsOf_moveFirst, fieldsOf_eq_none]
    rcases hmem j c hc with ⟨rfl, _⟩ | ⟨_, hc'⟩
    · exact htmp
    · exact h.node j c hc'

/-- All children of a node other than pid 1 are moved, one after the other. -/
theorem moveChildren_spec (fuel : Nat) (t : Table) (kids : Nat → List Nat) (i : Nat)
    (h : Lists t kids) (hone : t 1 ≠ none) (hne : i ≠ 1) (hfuel : (kids i).length < fuel) :
    ∃ t', moveChildren fuel t i = some t' ∧ fieldsOf t' = fieldsOf t ∧
      Lists t' (Function.update (Function.update kids i []) 1 ((kids i).reverse ++ kids 1)) := by
  generalize hl : kids i = l at hfuel ⊢
  induction l generalizing fuel t kids with
  | nil =>
      cases fuel with
      | zero => exact absurd hfuel (Nat.not_lt_zero _)
      | succ fuel =>
          have hnone : childOf t i = none := by
            have := h.linked i
            rwa [hl] at this
          refine ⟨t, by simp only [moveChildren, hnone], rfl, ?_⟩
          rw [List.reverse_nil, List.nil_append, ← hl, Function.update_eq_self,
            Function.update_eq_self]
          exact h
  | cons tmp l ih =>
      cases fuel with
      | zero => exact absurd hfuel (Nat.not_lt_zero _)
      | succ fuel =>
          have hsome : childOf t i = some tmp := by
            have := h.linked i
            rw [hl] at this
            exact this.1
          have hmoved := lists_moveFirst t kids i tmp l h hl hone hne
          have hone' : moveFirst t i tmp 1 ≠ none := by
            rwa [ne_eq, ← fieldsOf_eq_none, fieldsOf_moveFirst, fieldsOf_eq_none]
          rcases ih fuel (moveFirst t i tmp) _ hmoved hone'
            (by rw [Function.update_of_ne hne, Function.update_self])
            (Nat.lt_of_succ_lt_succ hfuel) with ⟨t', hmove, hfields, hlists⟩
          refine ⟨t', by simp only [moveChildren, hsome, if_neg hone, hmove],
            hfields.trans (fieldsOf_moveFirst t i tmp), ?_⟩
          rw [Function.update_self, Function.update_comm hne, Function.update_idem,
            Function.update_comm hne.symm, Function.update_idem] at hlists
          rw [List.reverse_cons, List.append_assoc]
          exact hlists

/-! ### The loop over all nodes -/

/-- A node without a parent. -/
def Orphaned (t : Table) (i : Nat) : Prop := ∃ pid ins, fieldsOf t i = some (pid, -1, ins)

theorem reparentStep_orphaned (fuel : Nat) (t : Table) (i : Nat) (h : Orphaned t i) :
    reparentStep fuel t i = moveChildren fuel t i := by
  rcases h with ⟨pid, ins, hf⟩
  rcases Option.map_eq_some_iff.mp hf with ⟨n, hn, heq⟩
  have hp : n.ppid = -1 := congrArg (fun x => x.2.1) heq
  simp only [reparentStep, hn, if_pos hp]

theorem reparentStep_other (fuel : Nat) (t : Table) (i : Nat) (h : ¬ Orphaned t i) :
    reparentStep fuel t i = some t := by
  cases hn : t i with
  | none => simp only [reparentStep, hn]
  | some n =>
      have hp : n.ppid ≠ -1 := by
        intro hp
        exact h ⟨n.pid, n.ins, by rw [fieldsOf, hn, Option.map_some, hp]⟩
      simp only [reparentStep, hn, if_neg hp]

theorem orphaned_congr (t t' : Table) (h : fieldsOf t' = fieldsOf t) (i : Nat) :
    Orphaned t' i ↔ Orphaned t i := by
  rw [Orphaned, Orphaned, h]

/-- What the loop over some of the pids makes of the lists: the children of
    nodes without a parent are under pid 1, all others where they were. -/
structure Reparented (t : Table) (kids kids' : Nat → List Nat) (pids : List Nat) : Prop where
  emptied : ∀ j, j ≠ 1 → j ∈ pids → Orphaned t j → kids' j = []
  kept : ∀ j, j ≠ 1 → ¬ (j ∈ pids ∧ Orphaned t j) → kids' j = kids j
  moved : ∀ c, c ∈ kids' 1 ↔ c ∈ kids 1 ∨ ∃ j ∈ pids, Orphaned t j ∧ c ∈ kids j

/-- The children after those of `i` have been moved under pid 1. -/
def adopted (kids : Nat → List Nat) (i : Nat) : Nat → List Nat :=
  Function.update (Function.update kids i []) 1 ((kids i).reverse ++ kids 1)

theorem adopted_self (kids : Nat → List Nat) (i : Nat) (hi : i ≠ 1) : adopted kids i i = [] := by
  rw [adopted, Function.update_of_ne hi, Function.update_self]

theorem adopted_of_ne (kids : Nat → List Nat) (i j : Nat) (hj : j ≠ 1) (hji : j ≠ i) :
    adopted kids i j = kids j := by
  rw [adopted, Function.update_of_ne hj, Function.update_of_ne hji]

theorem mem_adopted_one (kids : Nat → List Nat) (i c : Nat) :
    c ∈ adopted kids i 1 ↔ c ∈ kids i ∨ c ∈ kids 1 := by
  rw [adopted, Function.update_self, List.mem_append, List.mem_reverse]

theorem reparented_nil (t : Table) (kids : Nat → List Nat) : Reparented t kids kids [] where
  emptied := fun _ _ hj => absurd hj List.not_mem_nil
  kept := fun _ _ _ => rfl
  moved := by
    refine fun c => ⟨Or.inl, ?_⟩
    intro h
    rcases h with hc | ⟨j, hj, _⟩
    · exact hc
    · exact absurd hj List.not_mem_nil

section Reparent

variable (t : Table) (kids kids' : Nat → List Nat) (i : Nat) (pids : List Nat)

/-- One more node without a parent, before the others. -/
theorem reparented_cons_orphan (t₁ : Table) (hinit : ¬ Orphaned t 1) (ho : Orphaned t i)
    (horph : ∀ j, Orphaned t₁ j ↔ Orphaned t j)
    (hrep : Reparented t₁ (adopted kids i) kids' pids) : Reparented t kids kids' (i :: pids) := by
  have hne : ∀ j, Orphaned t j → j ≠ 1 := fun j hj h1 => hinit (h1 ▸ hj)
  refine ⟨fun j hj hin hoj => ?_, fun j hj hout => ?_, fun c => ?_⟩
  · by_cases hin' : j ∈ pids
    · exact hrep.emptied j hj hin' ((horph j).mpr hoj)
    · -- It is the node whose children were moved first.
      have hji : j = i := (List.mem_cons.mp hin).resolve_right hin'
      rw [hrep.kept j hj (fun hc => hin' hc.1), hji]
      exact adopted_self kids i (hne i ho)
  · have hji : j ≠ i := fun hji => hout ⟨hji ▸ List.mem_cons_self, hji ▸ ho⟩
    rw [hrep.kept j hj (fun hc => hout ⟨List.mem_cons_of_mem _ hc.1, (horph j).mp hc.2⟩)]
    exact adopted_of_ne kids i j hj hji
  · rw [hrep.moved c, mem_adopted_one]
    constructor
    · intro h
      rcases h with (hc | hc) | ⟨j, hj, hoj, hc⟩
      · exact Or.inr ⟨i, List.mem_cons_self, ho, hc⟩
      · exact Or.inl hc
      · have hoj' := (horph j).mp hoj
        by_cases hji : j = i
        · rw [hji, adopted_self kids i (hne i ho)] at hc
          exact absurd hc List.not_mem_nil
        · rw [adopted_of_ne kids i j (hne j hoj') hji] at hc
          exact Or.inr ⟨j, List.mem_cons_of_mem _ hj, hoj', hc⟩
    · intro h
      rcases h with hc | ⟨j, hj, hoj, hc⟩
      · exact Or.inl (Or.inr hc)
      · by_cases hji : j = i
        · exact Or.inl (Or.inl (hji ▸ hc))
        · refine Or.inr ⟨j, (List.mem_cons.mp hj).resolve_left hji, (horph j).mpr hoj, ?_⟩
          rw [adopted_of_ne kids i j (hne j hoj) hji]
          exact hc

/-- A node with a parent makes no difference. -/
theorem reparented_cons_other (ho : ¬ Orphaned t i) (hrep : Reparented t kids kids' pids) :
    Reparented t kids kids' (i :: pids) := by
  have hin : ∀ j, j ∈ i :: pids → Orphaned t j → j ∈ pids := fun j hj hoj =>
    (List.mem_cons.mp hj).resolve_left (fun hji => ho (hji ▸ hoj))
  refine ⟨fun j hj hmem hoj => hrep.emptied j hj (hin j hmem hoj) hoj, fun j hj hout => ?_,
    fun c => ?_⟩
  · exact hrep.kept j hj (fun hc => hout ⟨List.mem_cons_of_mem _ hc.1, hc.2⟩)
  · rw [hrep.moved c]
    refine or_congr_right ⟨?_, ?_⟩
    · intro h
      rcases h with ⟨j, hj, hoj, hc⟩
      exact ⟨j, List.mem_cons_of_mem _ hj, hoj, hc⟩
    · intro h
      rcases h with ⟨j, hj, hoj, hc⟩
      exact ⟨j, hin j hj hoj, hoj, hc⟩

end Reparent

/-- The loop ends, and moves the children of every node without a parent, when
    pid 1 has a parent. -/
theorem reparent_spec (fuel : Nat) (pids : List Nat) (t : Table) (kids : Nat → List Nat)
    (h : Lists t kids) (hone : t 1 ≠ none) (hinit : ¬ Orphaned t 1)
    (hfuel : ∀ j, j ≠ 1 → (kids j).length < fuel) :
    ∃ t' kids', pids.foldlM (reparentStep fuel) t = some t' ∧ fieldsOf t' = fieldsOf t ∧
      Lists t' kids' ∧ Reparented t kids kids' pids := by
  induction pids generalizing t kids with
  | nil => exact ⟨t, kids, rfl, rfl, h, reparented_nil t kids⟩
  | cons i pids ih =>
      by_cases ho : Orphaned t i
      · have hne : i ≠ 1 := fun hi => hinit (hi ▸ ho)
        rcases moveChildren_spec fuel t kids i h hone hne (hfuel i hne) with
          ⟨t₁, hmove, hfields, hlists⟩
        have horph := orphaned_congr t t₁ hfields
        have hone₁ : t₁ 1 ≠ none := by
          rwa [ne_eq, ← fieldsOf_eq_none, hfields, fieldsOf_eq_none]
        -- No list but that of pid 1 has become longer.
        have hfuel₁ : ∀ j, j ≠ 1 → (adopted kids i j).length < fuel := by
          intro j hj
          by_cases hji : j = i
          · rw [hji, adopted_self kids i hne]
            exact Nat.lt_of_le_of_lt (Nat.zero_le _) (hfuel i hne)
          · rw [adopted_of_ne kids i j hj hji]
            exact hfuel j hj
        rcases ih t₁ (adopted kids i) hlists hone₁ (fun h1 => hinit ((horph 1).mp h1)) hfuel₁ with
          ⟨t', kids', hrest, hfields', hlists', hrep⟩
        refine ⟨t', kids', ?_, hfields'.trans hfields, hlists',
          reparented_cons_orphan t kids kids' i pids t₁ hinit ho horph hrep⟩
        simp only [List.foldlM_cons, reparentStep_orphaned fuel t i ho, hmove,
          Option.bind_eq_bind, Option.bind_some, hrest]
      · rcases ih t kids h hone hinit hfuel with ⟨t', kids', hrest, hfields, hlists, hrep⟩
        refine ⟨t', kids', ?_, hfields, hlists, reparented_cons_other t kids kids' i pids ho hrep⟩
        simp only [List.foldlM_cons, reparentStep_other fuel t i ho, Option.bind_eq_bind,
          Option.bind_some, hrest]

/-- Whatever the loop does, it leaves the fields alone. -/
theorem fieldsOf_moveChildren (fuel : Nat) (t : Table) (i : Nat) (t' : Table)
    (h : moveChildren fuel t i = some t') : fieldsOf t' = fieldsOf t := by
  induction fuel generalizing t with
  | zero => exact nomatch h
  | succ fuel ih =>
      rw [moveChildren] at h
      cases hc : childOf t i with
      | none =>
          simp only [hc, Option.some.injEq] at h
          rw [h]
      | some tmp =>
          simp only [hc] at h
          by_cases hone : t 1 = none
          · rw [if_pos hone] at h
            exact nomatch h
          · rw [if_neg hone] at h
            rw [ih (moveFirst t i tmp) h, fieldsOf_moveFirst]

theorem fieldsOf_reparent (fuel : Nat) (pids : List Nat) (t t' : Table)
    (h : pids.foldlM (reparentStep fuel) t = some t') : fieldsOf t' = fieldsOf t := by
  induction pids generalizing t with
  | nil => rw [Option.some.inj h]
  | cons i pids ih =>
      rw [List.foldlM_cons] at h
      rcases Option.bind_eq_some_iff.mp h with ⟨t₁, hstep, hrest⟩
      rw [ih t₁ hrest]
      by_cases ho : Orphaned t i
      · rw [reparentStep_orphaned fuel t i ho] at hstep
        exact fieldsOf_moveChildren fuel t i t₁ hstep
      · rw [reparentStep_other fuel t i ho] at hstep
        rw [Option.some.inj hstep]

end ProcessTree

end TlpiPractice
