import Mathlib.Tactic.ByContra
import TlpiPractice.Theory.ProcessTree.Enumeration

/-!
# The Order of the Enumeration

For which orders of the processes the tree comes out right.

A process belongs into the tree of pid 1 when its chain of parents reaches
pid 1, or a pid that is not in the list and not 0. It is in the tree, once,
with its name and in its place, when it comes before its children. When a
child comes first, the node that is made for the parent keeps neither name
nor parent, and the process is lost. Should that be pid 1, the loop that
moves the children of nodes without a parent does not even end.

So the tree does not depend on the order among those orders in which each
such process precedes its children, and it is right for no others.

A place in the tree is the way to it from the root, as the position of each
child among its siblings. A process is in the tree exactly once when there is
exactly one such way.

## Main definitions

* `Attached`: The processes that belong into the tree.
* `Occurs`: A node at a place in the tree.
* `TreeExact`: The tree has every process that belongs there, in its place.
* `ParentsFirst`: Every process that belongs there precedes its children.
* `childFirst`: An enumeration in which one does not.

## Theorems

* `occurs_unique`: No node is at two places.
* `exact_of_parentsFirst`: The tree is right for such orders.
* `parentsFirst_of_exact`: It is right for no others.
* `tree_exact_iff`: Both.
* `childFirst_lost`: A tree that is not right.
-/

namespace TlpiPractice

namespace ProcessTree

open LinkedList

/-! ### The tree there should be -/

/-- The processes whose chain of parents reaches pid 1, or a pid other than 0
    that is not in the list. -/
inductive Attached (procs : List Proc) : Nat → Prop where
  | init : Attached procs 1
  | orphan (r : Proc) (hr : r ∈ procs) (hzero : r.ppid ≠ 0)
      (hout : ∀ r' ∈ procs, r'.pid ≠ r.ppid) : Attached procs r.pid
  | child (r : Proc) (hr : r ∈ procs) (hp : Attached procs r.ppid) : Attached procs r.pid

/-- `c` is among the children of `i`. -/
def IsChild (t : Table) (i c : Nat) : Prop :=
  ∃ l, Linked (nextOf t) (childOf t i) l ∧ c ∈ l

/-- A node at a place of the tree rooted at `process[1]`. -/
inductive Occurs (t : Table) : List Nat → Nat → Prop where
  | root : Occurs t [] 1
  | child (place : List Nat) (i : Nat) (l : List Nat) (k c : Nat) (hi : Occurs t place i)
      (hl : Linked (nextOf t) (childOf t i) l) (hk : l[k]? = some c) : Occurs t (place ++ [k]) c

/-- A process occurs once, with its name, under its parent if that is in the
    list, and under pid 1 otherwise. -/
structure Placed (procs : List Proc) (t : Table) (r : Proc) : Prop where
  once : ∃! place, Occurs t place r.pid
  named : ∃ n, t r.pid = some n ∧ n.ins = some r.name
  parent : (∃ r' ∈ procs, r'.pid = r.ppid) → IsChild t r.ppid r.pid
  adopted : (∀ r' ∈ procs, r'.pid ≠ r.ppid) → r.pid ≠ 1 → IsChild t 1 r.pid

/-- Every process that belongs into the tree is in its place. -/
def TreeExact (procs : List Proc) (t : Table) : Prop :=
  ∀ r ∈ procs, Attached procs r.pid → Placed procs t r

/-- Every process that belongs into the tree comes before its children. -/
def ParentsFirst (procs : List Proc) : Prop :=
  ∀ before r after, procs = before ++ r :: after → Attached procs r.pid →
    ∀ c ∈ before, c.ppid ≠ r.pid

/-- A process that comes before another in the list has another pid. -/
theorem pid_ne_of_before (procs before after : List Proc) (r : Proc)
    (hnodup : (procs.map Proc.pid).Nodup) (h : procs = before ++ r :: after) :
    ∀ r' ∈ before, r'.pid ≠ r.pid := by
  intro r' hr' heq
  rw [h, List.map_append, List.map_cons, List.nodup_append] at hnodup
  exact hnodup.2.2 r'.pid (List.mem_map_of_mem hr') r.pid List.mem_cons_self heq

/-- A process is known by its pid. -/
theorem eq_of_pid_eq (E : Enumeration) (r r' : Proc) (hr : r ∈ E.procs) (hr' : r' ∈ E.procs)
    (h : r.pid = r'.pid) : r = r' :=
  List.inj_on_of_nodup_map E.nodup hr hr' h

theorem Enumeration.split_ne (E : Enumeration) (before after : List Proc) (r : Proc)
    (h : E.procs = before ++ r :: after) : ∀ r' ∈ before ++ r :: after, r'.pid ≠ r'.ppid :=
  fun r' hr' => E.pid_ne_ppid r' (h ▸ hr')

/-! ### Orders that lose a process -/

/-- A process with a node when its turn comes is not in its place in the
    end. -/
theorem not_placed_of_late (E : Enumeration) (fuel : Nat) (t : Table)
    (hrun : reparent fuel (enumerate E.procs) = some t) (before after : List Proc) (r : Proc)
    (h : E.procs = before ++ r :: after) (hocc : enumerate before r.pid ≠ none) :
    ¬ Placed E.procs t r := by
  intro hp
  rcases hp.named with ⟨n, hn, hins⟩
  have hlate := fields_of_late before after r (E.split_ne before after r h)
    (pid_ne_of_before E.procs before after r E.nodup h) hocc
  rw [← h, ← fieldsOf_reparent fuel _ _ t hrun, fieldsOf, hn, Option.map_some] at hlate
  have hnone : n.ins = none := congrArg (fun x => x.2.2) (Option.some.inj hlate)
  exact Option.some_ne_none _ (hins.symm.trans hnone)

/-- The tree is right only if every process that belongs there comes before
    its children. -/
theorem parentsFirst_of_exact (E : Enumeration) (fuel : Nat) (t : Table)
    (hrun : reparent fuel (enumerate E.procs) = some t) (hexact : TreeExact E.procs t) :
    ParentsFirst E.procs := by
  intro before r after h hatt c hc hcr
  have hr : r ∈ E.procs := h ▸ List.mem_append_right _ List.mem_cons_self
  rcases List.append_of_mem hc with ⟨first, mid, rfl⟩
  have hsplit : E.procs = first ++ c :: (mid ++ r :: after) := by
    rw [h, List.append_assoc, List.cons_append]
  have hcin : c ∈ E.procs := hsplit ▸ List.mem_append_right _ List.mem_cons_self
  have hcatt : Attached E.procs c.pid := Attached.child c hcin (hcr ▸ hatt)
  by_cases hocc : enumerate first c.pid = none
  · -- The child makes a node for its parent, which then comes too late.
    refine not_placed_of_late E fuel t hrun _ after r h ?_ (hexact r hr hatt)
    have hne : ∀ r' ∈ (first ++ [c]) ++ mid, r'.pid ≠ r'.ppid := by
      intro r' hr'
      refine E.pid_ne_ppid r' ?_
      rw [h]
      refine List.mem_append_left _ ?_
      rwa [List.append_assoc, List.singleton_append] at hr'
    have hmade := fieldsOf_createNode_parent (enumerate first) c.pid c.ppid c.name hocc
      (E.pid_ne_ppid c hcin)
    rw [← enumerate_concat] at hmade
    have hstay := fieldsOf_enumerate_append _ mid _ _ hne hmade
    rw [List.append_assoc, List.singleton_append, hcr] at hstay
    intro hnone
    rw [(fieldsOf_eq_none _ _).mpr hnone] at hstay
    exact nomatch hstay
  · -- The child comes too late itself.
    exact not_placed_of_late E fuel t hrun first _ c hsplit hocc (hexact c hcin hcatt)

/-! ### Orders that lose none -/

/-- A process that comes before its children keeps its parent and its name. -/
theorem fields_of_attached (E : Enumeration) (hfirst : ParentsFirst E.procs) (r : Proc)
    (hr : r ∈ E.procs) (hatt : Attached E.procs r.pid) :
    fieldsOf (enumerate E.procs) r.pid = some ((r.pid : Int), (r.ppid : Int), some r.name) := by
  rcases List.append_of_mem hr with ⟨before, after, h⟩
  have hne := E.split_ne before after r h
  have hempty : enumerate before r.pid = none := by
    by_contra hocc
    rcases made_enumerate before (fun r' hr' => hne r' (List.mem_append_left _ hr')) with
      ⟨kids, hk⟩
    rcases Option.ne_none_iff_exists'.mp
      (fun hf => hocc ((fieldsOf_eq_none _ _).mp hf)) with ⟨x, hx⟩
    rcases hk.slots r.pid x hx with ⟨_, c, hc, hcr⟩ | ⟨r', hr', heq, _⟩
    · exact hfirst before r after h hatt c hc hcr
    · exact pid_ne_of_before E.procs before after r E.nodup h r' hr' heq
  rw [h]
  exact fields_of_first before after r hne hempty

/-- Whoever belongs into the tree is in the list. -/
theorem mem_of_attached (E : Enumeration) (p : Nat) (h : Attached E.procs p) :
    ∃ r ∈ E.procs, r.pid = p := by
  cases h with
  | init =>
      rcases E.init with ⟨name, hmem⟩
      exact ⟨_, hmem, rfl⟩
  | orphan r hr _ _ => exact ⟨r, hr, rfl⟩
  | child r hr _ => exact ⟨r, hr, rfl⟩

/-- Why a process belongs into the tree. -/
theorem attached_cases (E : Enumeration) (r : Proc) (hr : r ∈ E.procs)
    (h : Attached E.procs r.pid) :
    (r.pid = 1 ∧ r.ppid = 0) ∨ (r.ppid ≠ 0 ∧ ∀ r' ∈ E.procs, r'.pid ≠ r.ppid) ∨
      Attached E.procs r.ppid := by
  generalize hp : r.pid = p at h
  cases h with
  | init =>
      rcases E.init with ⟨name, hmem⟩
      have heq := eq_of_pid_eq E r _ hr hmem hp
      exact Or.inl ⟨rfl, by rw [heq]⟩
  | orphan r' hr' hzero hout =>
      have heq := eq_of_pid_eq E r r' hr hr' hp
      exact Or.inr (Or.inl ⟨heq ▸ hzero, heq ▸ hout⟩)
  | child r' hr' hatt =>
      have heq := eq_of_pid_eq E r r' hr hr' hp
      exact Or.inr (Or.inr (heq ▸ hatt))

section Places

variable (t : Table) (kids : Nat → List Nat) (h : Lists t kids)
  (hroot : ∀ i, 1 ∈ kids i → i = 0) (hzero : ∀ i, 0 ∉ kids i)
include h

/-- The children that a place is counted among. -/
theorem kids_of_linked (i : Nat) (l : List Nat) (hl : Linked (nextOf t) (childOf t i) l) :
    l = kids i :=
  linked_unique _ _ _ _ hl (h.linked i)

theorem isChild_of_mem (i c : Nat) (hc : c ∈ kids i) : IsChild t i c :=
  ⟨kids i, h.linked i, hc⟩

/-- A child of a node in the tree is in the tree. -/
theorem occurs_of_mem (place : List Nat) (i c : Nat) (hi : Occurs t place i) (hc : c ∈ kids i) :
    ∃ place', Occurs t place' c := by
  rcases List.mem_iff_getElem?.mp hc with ⟨k, hk⟩
  exact ⟨place ++ [k], Occurs.child place i (kids i) k c hi (h.linked i) hk⟩

include hzero

theorem occurs_ne_zero (place : List Nat) (i : Nat) (hi : Occurs t place i) : i ≠ 0 := by
  cases hi with
  | root => exact Nat.one_ne_zero
  | child place j l k c hj hl hk =>
      intro hc
      rw [kids_of_linked t kids h j l hl, hc] at hk
      exact hzero j (List.mem_iff_getElem?.mpr ⟨k, hk⟩)

include hroot

/-- The root is no child of a node in the tree. -/
theorem root_not_child (place : List Nat) (i : Nat) (hi : Occurs t place i) : 1 ∉ kids i :=
  fun hmem => occurs_ne_zero t kids h hzero place i hi (hroot i hmem)

/-- No node is at two places. -/
theorem occurs_unique (place place' : List Nat) (c : Nat) (hc : Occurs t place c)
    (hc' : Occurs t place' c) : place = place' := by
  induction hc generalizing place' with
  | root =>
      generalize hone : 1 = one at hc'
      cases hc' with
      | root => rfl
      | child p i l k c hi hl hk =>
          rw [kids_of_linked t kids h i l hl, ← hone] at hk
          exact absurd (List.mem_iff_getElem?.mpr ⟨k, hk⟩)
            (root_not_child t kids h hroot hzero p i hi)
  | child place i l k c hi hl hk ih =>
      rw [kids_of_linked t kids h i l hl] at hk
      have hmem : c ∈ kids i := List.mem_iff_getElem?.mpr ⟨k, hk⟩
      cases hc' with
      | root => exact absurd hmem (root_not_child t kids h hroot hzero place i hi)
      | child p j l' k' c hj hl' hk' =>
          rw [kids_of_linked t kids h j l' hl'] at hk'
          -- The parent is the same, and so is the position among its children.
          have hij : i = j := h.apart i j c hmem (List.mem_iff_getElem?.mpr ⟨k', hk'⟩)
          subst hij
          have hnodup := linked_nodup _ _ _ (h.linked i)
          have hlt : k < (kids i).length := (List.getElem?_eq_some_iff.mp hk).1
          rw [ih p hj, (List.getElem?_inj hlt hnodup).mp (hk.trans hk'.symm)]

end Places

/-- What the program leaves when every process that belongs into the tree comes
    before its children. -/
structure Finished (E : Enumeration) (t : Table) (kids : Nat → List Nat) : Prop where
  lists : Lists t kids
  root : ∀ i, 1 ∈ kids i → i = 0
  zero : ∀ i, 0 ∉ kids i
  fields : ∀ r ∈ E.procs, Attached E.procs r.pid →
    fieldsOf t r.pid = some ((r.pid : Int), (r.ppid : Int), some r.name)
  parent : ∀ r ∈ E.procs, Attached E.procs r.pid → Attached E.procs r.ppid →
    r.pid ∈ kids r.ppid
  adopted : ∀ r ∈ E.procs, Attached E.procs r.pid → r.ppid ≠ 0 →
    (∀ r' ∈ E.procs, r'.pid ≠ r.ppid) → r.pid ∈ kids 1

/-- The loop over all nodes gives such a tree. -/
theorem finished_of_reparented (E : Enumeration) (hfirst : ParentsFirst E.procs)
    (kids kids' : Nat → List Nat) (t : Table) (hmade : Made E.procs (enumerate E.procs) kids)
    (hsame : fieldsOf t = fieldsOf (enumerate E.procs)) (hlists : Lists t kids')
    (hrep : Reparented (enumerate E.procs) kids kids' (List.range' 1 (maxPid - 1))) :
    Finished E t kids' := by
  have hfields := fields_of_attached E hfirst
  have hkids : ∀ r ∈ E.procs, Attached E.procs r.pid → r.pid ∈ kids r.ppid :=
    fun r hr hatt => (hmade.member r.ppid r.pid).mpr ⟨_, _, hfields r hr hatt⟩
  -- A child was somebody's child before, of its parent or of a node without one.
  have hfrom : ∀ i c, c ∈ kids' i → c ∈ kids i ∨ ∃ j, 1 ≤ j ∧ c ∈ kids j ∧
      Orphaned (enumerate E.procs) j := by
    intro i c hc
    by_cases hi : i = 1
    · rw [hi, hrep.moved c] at hc
      rcases hc with hc | ⟨j, hj, ho, hc⟩
      · exact Or.inl (hi ▸ hc)
      · exact Or.inr ⟨j, (List.mem_range'_1.mp hj).1, hc, ho⟩
    · by_cases ho : i ∈ List.range' 1 (maxPid - 1) ∧ Orphaned (enumerate E.procs) i
      · rw [hrep.emptied i hi ho.1 ho.2] at hc
        exact absurd hc List.not_mem_nil
      · rw [hrep.kept i hi ho] at hc
        exact Or.inl hc
  have hzero : ∀ i, 0 ∉ kids i := by
    intro i hmem
    rcases (hmade.member i 0).mp hmem with ⟨pid, ins, hf⟩
    rcases hmade.slots 0 _ hf with ⟨heq, _⟩ | ⟨r, hr, hrz, _⟩
    · have hneg : (i : Int) = -1 := congrArg (fun x => x.2.1) heq
      omega
    · have := E.pid_pos r hr
      omega
  rcases E.init with ⟨name, hinit⟩
  have hone : ∀ i, 1 ∈ kids i → i = 0 := by
    intro i hmem
    exact hmade.lists.apart i 0 1 hmem (hkids _ hinit Attached.init)
  refine ⟨hlists, fun i hmem => ?_, fun i hmem => ?_, fun r hr hatt => ?_,
    fun r hr hatt hp => ?_, fun r hr hatt hpos hout => ?_⟩
  · rcases hfrom i 1 hmem with hc | ⟨j, hj, hc, _⟩
    · exact hone i hc
    · have := hone j hc
      omega
  · rcases hfrom i 0 hmem with hc | ⟨j, _, hc, _⟩
    · exact hzero i hc
    · exact hzero j hc
  · rw [hsame]
    exact hfields r hr hatt
  · by_cases hpone : r.ppid = 1
    · rw [hpone]
      exact (hrep.moved r.pid).mpr (Or.inl (hpone ▸ hkids r hr hatt))
    · -- The parent has a parent itself, so its children stay.
      rw [hrep.kept r.ppid hpone ?_]
      · exact hkids r hr hatt
      · intro h
        rcases h with ⟨_, pid, ins, hf⟩
        rcases mem_of_attached E r.ppid hp with ⟨q, hq, hqp⟩
        rw [← hqp, hfields q hq (hqp ▸ hp)] at hf
        have hneg : (q.ppid : Int) = -1 := congrArg (fun x => x.2.1) (Option.some.inj hf)
        omega
  · -- The node of a parent that is not in the list has none.
    refine (hrep.moved r.pid).mpr (Or.inr ⟨r.ppid, ?_, ?_, hkids r hr hatt⟩)
    · have := E.ppid_lt r hr
      exact List.mem_range'_1.mpr ⟨by omega, by omega⟩
    · have hnode := node_of_mem _ kids hmade.lists r.ppid r.pid (hkids r hr hatt)
      rcases Option.ne_none_iff_exists'.mp
        (fun hf => hnode ((fieldsOf_eq_none _ _).mp hf)) with ⟨x, hx⟩
      rcases hmade.slots r.ppid x hx with ⟨rfl, _⟩ | ⟨r', hr', heq, _⟩
      · exact ⟨_, _, hx⟩
      · exact absurd heq (hout r' hr')

/-- Everything that belongs into such a tree is somewhere in it. -/
theorem occurs_of_attached (E : Enumeration) (t : Table) (kids : Nat → List Nat)
    (h : Finished E t kids) (p : Nat) (hatt : Attached E.procs p) :
    ∃ place, Occurs t place p := by
  induction hatt with
  | init => exact ⟨[], Occurs.root⟩
  | orphan r hr hzero hout =>
      exact occurs_of_mem t kids h.lists [] 1 r.pid Occurs.root
        (h.adopted r hr (Attached.orphan r hr hzero hout) hzero hout)
  | child r hr hp ih =>
      rcases ih with ⟨place, hplace⟩
      exact occurs_of_mem t kids h.lists place r.ppid r.pid hplace
        (h.parent r hr (Attached.child r hr hp) hp)

/-- Such a tree is right. -/
theorem exact_of_finished (E : Enumeration) (t : Table) (kids : Nat → List Nat)
    (h : Finished E t kids) : TreeExact E.procs t := by
  intro r hr hatt
  refine ⟨?_, ?_, fun ⟨r', hr', heq⟩ => ?_, fun hout hpid => ?_⟩
  · rcases occurs_of_attached E t kids h r.pid hatt with ⟨place, hplace⟩
    exact ⟨place, hplace, fun place' hplace' =>
      occurs_unique t kids h.lists h.root h.zero place' place r.pid hplace' hplace⟩
  · rcases Option.map_eq_some_iff.mp (h.fields r hr hatt) with ⟨n, hn, heq⟩
    exact ⟨n, hn, congrArg (fun x => x.2.2) heq⟩
  · rcases attached_cases E r hr hatt with ⟨_, hzero⟩ | ⟨_, hout⟩ | hp
    · have := E.pid_pos r' hr'
      omega
    · exact absurd heq (hout r' hr')
    · exact isChild_of_mem t kids h.lists r.ppid r.pid (h.parent r hr hatt hp)
  · rcases attached_cases E r hr hatt with ⟨hone, _⟩ | ⟨hzero, _⟩ | hp
    · exact absurd hone hpid
    · exact isChild_of_mem t kids h.lists 1 r.pid (h.adopted r hr hatt hzero hout)
    · rcases mem_of_attached E r.ppid hp with ⟨q, hq, hqp⟩
      exact absurd hqp (hout q hq)

/-- In an order in which every process that belongs into the tree comes before
    its children, the loop ends, and the tree is right. -/
theorem exact_of_parentsFirst (E : Enumeration) (hfirst : ParentsFirst E.procs) :
    ∃ fuel t, reparent fuel (enumerate E.procs) = some t ∧ TreeExact E.procs t := by
  rcases made_enumerate E.procs E.pid_ne_ppid with ⟨kids, hmade⟩
  rcases E.init with ⟨name, hinit⟩
  have hone := fields_of_attached E hfirst _ hinit Attached.init
  have hnode : enumerate E.procs 1 ≠ none := by
    intro hnone
    rw [(fieldsOf_eq_none _ _).mpr hnone] at hone
    exact nomatch hone
  have hparent : ¬ Orphaned (enumerate E.procs) 1 := by
    intro h
    rcases h with ⟨pid, ins, hf⟩
    rw [hone] at hf
    have hneg : (0 : Int) = -1 := congrArg (fun x => x.2.1) (Option.some.inj hf)
    omega
  rcases reparent_spec (E.procs.length + 1) (List.range' 1 (maxPid - 1)) _ kids hmade.lists hnode
    hparent (fun j _ => Nat.lt_succ_of_le (hmade.bound j)) with
    ⟨t, kids', hrun, hsame, hlists, hrep⟩
  exact ⟨E.procs.length + 1, t, hrun, exact_of_finished E t kids'
    (finished_of_reparented E hfirst kids kids' t hmade hsame hlists hrep)⟩

/-- The loop of `main` ends with the right tree exactly when every process that
    belongs into the tree was enumerated before its children. -/
theorem tree_exact_iff (E : Enumeration) :
    (∃ fuel t, reparent fuel (enumerate E.procs) = some t ∧ TreeExact E.procs t) ↔
      ParentsFirst E.procs := by
  constructor
  · intro h
    rcases h with ⟨fuel, t, hrun, hexact⟩
    exact parentsFirst_of_exact E fuel t hrun hexact
  · exact exact_of_parentsFirst E

/-- A shell is enumerated after the process it has started. -/
def childFirst : Enumeration where
  procs := [⟨1, 0, [105]⟩, ⟨8, 5, [99]⟩, ⟨5, 1, [115]⟩]
  nodup := by decide
  pid_pos := by decide
  pid_lt := by decide
  ppid_lt := by decide
  init := ⟨_, List.mem_cons_self⟩
  acyclic := by
    -- Here every parent has the smaller pid.
    have hstep : ∀ r ∈ ([⟨1, 0, [105]⟩, ⟨8, 5, [99]⟩, ⟨5, 1, [115]⟩] : List Proc),
        r.ppid < r.pid := by decide
    have hlt : ∀ c q, Relation.TransGen (fun c q => ∃ r ∈ ([⟨1, 0, [105]⟩, ⟨8, 5, [99]⟩,
        ⟨5, 1, [115]⟩] : List Proc), r.pid = c ∧ r.ppid = q) c q → q < c := by
      intro c q h
      induction h with
      | single h =>
          rcases h with ⟨r, hr, rfl, rfl⟩
          exact hstep r hr
      | tail _ h ih =>
          rcases h with ⟨r, hr, rfl, rfl⟩
          exact Nat.lt_trans (hstep r hr) ih
    intro p h
    exact Nat.lt_irrefl p (hlt p p h)

/-- The shell is not in the tree. -/
theorem childFirst_lost :
    ¬ ∃ fuel t, reparent fuel (enumerate childFirst.procs) = some t ∧
      TreeExact childFirst.procs t := by
  intro h
  rcases h with ⟨fuel, t, hrun, hexact⟩
  have hatt : Attached childFirst.procs 5 :=
    Attached.child ⟨5, 1, [115]⟩ (by decide) Attached.init
  exact parentsFirst_of_exact childFirst fuel t hrun hexact [⟨1, 0, [105]⟩, ⟨8, 5, [99]⟩]
    ⟨5, 1, [115]⟩ [] rfl hatt ⟨8, 5, [99]⟩ (by decide) rfl

end ProcessTree

end TlpiPractice
