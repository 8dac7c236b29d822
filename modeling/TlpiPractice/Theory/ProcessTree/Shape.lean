import TlpiPractice.Theory.ProcessTree.Enumeration
import TlpiPractice.Theory.ProcessTree.Printing

/-!
# Any Calls of `create_node`

The shape of what `create_node` makes of any calls, with pids that come more
than once, with parents that contradict each other, and with cycles of parents
in what it is told.

A node gets its parent when it is made and never another one, and by then the
parent has a node or gets one that has no parent itself. So a node can be given
a rank larger than that of its parent: no node has the new one for its parent
yet. Ranks do not get larger than the number of calls. This is all that is
needed for the lists of children to be finite trees, and `print_tree` goes
through such a tree once.

## Main definitions

* `HasParent`: What the field `ppid` of a node says.
* `Ranked`: Ranks for the nodes.
* `visited`: The nodes that are printed.
* `VisitsOnce`: What `print_tree` does with a tree.
* `WellShaped`: What is to be proved of every table.

## Theorems

* `ranked_createNode`, `ranked_enumerate`: One more call, and all of them.
* `visits`: The nodes that are printed for a forest.
* `held_of_shaped`: The forest that the lists make is in the table.
* `wellShaped_enumerate`: Whatever the calls are, the table is well shaped.
* `wellShaped_cycle`: Two processes that are each other's parent.
-/

namespace TlpiPractice

namespace ProcessTree

open LinkedList

/-- The field `ppid` of the node `c` is `q`. -/
def HasParent (t : Table) (c q : Nat) : Prop := ∃ n, t c = some n ∧ n.ppid = q

theorem hasParent_iff (t : Table) (c q : Nat) :
    HasParent t c q ↔ ∃ pid ins, fieldsOf t c = some (pid, (q : Int), ins) := by
  constructor
  · rintro ⟨n, hn, hq⟩
    exact ⟨n.pid, n.ins, by rw [fieldsOf, hn, Option.map_some, hq]⟩
  · rintro ⟨pid, ins, h⟩
    rcases Option.map_eq_some_iff.mp h with ⟨n, hn, heq⟩
    exact ⟨n, hn, congrArg (fun x => x.2.1) heq⟩

/-! ### Ranks -/

/-- Each parent has a node and a smaller rank, and there are not many ranks. -/
structure Ranked (n : Nat) (t : Table) (rank : Nat → Nat) : Prop where
  node : ∀ c q, HasParent t c q → t q ≠ none
  lt : ∀ c q, HasParent t c q → rank q < rank c
  le : ∀ i, rank i ≤ n

/-- The parents after one more node has been made. -/
theorem hasParent_createNode (t : Table) (r : Proc) (hempty : t r.pid = none)
    (hne : r.pid ≠ r.ppid) (c q : Nat)
    (h : HasParent (createNode t r.pid r.ppid r.name) c q) :
    (c = r.pid ∧ q = r.ppid) ∨ HasParent t c q := by
  rw [hasParent_iff] at h ⊢
  rcases h with ⟨pid, ins, h⟩
  by_cases hcp : c = r.pid
  · rw [hcp, fieldsOf_createNode_self t r.pid r.ppid r.name hempty hne] at h
    have hq : (r.ppid : Int) = q := congrArg (fun x => x.2.1) (Option.some.inj h)
    exact Or.inl ⟨hcp, by omega⟩
  right
  by_cases hcq : c = r.ppid
  · rw [hcq, fieldsOf_createNode_parent t r.pid r.ppid r.name hempty hne] at h
    cases hf : fieldsOf t r.ppid with
    | none =>
        -- A node made now has no parent.
        rw [hf] at h
        have hq : (-1 : Int) = q := congrArg (fun x => x.2.1) (Option.some.inj h)
        omega
    | some x =>
        rw [hf] at h
        exact ⟨pid, ins, by rw [hcq, hf]; exact h⟩
  · rw [fieldsOf_createNode_other t r.pid r.ppid r.name hempty hne c hcp hcq] at h
    exact ⟨pid, ins, h⟩

/-- Nodes stay when one more is made, and the parent has one then. -/
theorem createNode_ne_none (t : Table) (r : Proc) (hempty : t r.pid = none)
    (hne : r.pid ≠ r.ppid) (q : Nat) (hq : t q ≠ none ∨ q = r.ppid) :
    createNode t r.pid r.ppid r.name q ≠ none := by
  rw [ne_eq, ← fieldsOf_eq_none]
  by_cases hqq : q = r.ppid
  · rw [hqq, fieldsOf_createNode_parent t r.pid r.ppid r.name hempty hne]
    exact Option.some_ne_none _
  · have hold : t q ≠ none := hq.resolve_right hqq
    have hqp : q ≠ r.pid := fun hc => hold (hc ▸ hempty)
    rwa [fieldsOf_createNode_other t r.pid r.ppid r.name hempty hne q hqp hqq, fieldsOf_eq_none]

/-- A new node gets a rank above that of its parent. Nobody has it for a parent
    yet. -/
theorem ranked_createNode (n : Nat) (t : Table) (rank : Nat → Nat) (h : Ranked n t rank)
    (r : Proc) (hempty : t r.pid = none) (hne : r.pid ≠ r.ppid) :
    Ranked (n + 1) (createNode t r.pid r.ppid r.name)
      (Function.update rank r.pid (rank r.ppid + 1)) := by
  refine ⟨fun c q hcq => ?_, fun c q hcq => ?_, fun i => ?_⟩
  · refine createNode_ne_none t r hempty hne q ?_
    rcases hasParent_createNode t r hempty hne c q hcq with ⟨_, rfl⟩ | hold
    · exact Or.inr rfl
    · exact Or.inl (h.node c q hold)
  · rcases hasParent_createNode t r hempty hne c q hcq with ⟨rfl, rfl⟩ | hold
    · rw [Function.update_self, Function.update_of_ne hne.symm]
      exact Nat.lt_succ_self _
    · have hqp : q ≠ r.pid := fun hc => h.node c q hold (hc ▸ hempty)
      have hcp : c ≠ r.pid := by
        rintro rfl
        rcases hold with ⟨m, hm, _⟩
        rw [hempty] at hm
        exact Option.some_ne_none m hm.symm
      rw [Function.update_of_ne hqp, Function.update_of_ne hcp]
      exact h.lt c q hold
  · by_cases hi : i = r.pid
    · rw [hi, Function.update_self]
      exact Nat.succ_le_succ (h.le r.ppid)
    · rw [Function.update_of_ne hi]
      exact Nat.le_succ_of_le (h.le i)

/-- After any calls the nodes can be given ranks. -/
theorem ranked_enumerate (procs : List Proc) (hne : ∀ r ∈ procs, r.pid ≠ r.ppid) :
    ∃ rank, Ranked procs.length (enumerate procs) rank := by
  induction procs using List.reverseRecOn with
  | nil =>
      refine ⟨fun _ => 0, fun c q h => ?_, fun c q h => ?_, fun _ => Nat.le_refl 0⟩
      all_goals
        rcases h with ⟨m, hm, _⟩
        cases hm
  | append_singleton procs r ih =>
      have hne' : ∀ r' ∈ procs, r'.pid ≠ r'.ppid :=
        fun r' hr' => hne r' (List.mem_append_left _ hr')
      rcases ih hne' with ⟨rank, hranked⟩
      rw [enumerate_concat, List.length_append, List.length_singleton]
      by_cases hocc : enumerate procs r.pid = none
      · exact ⟨_, ranked_createNode _ _ rank hranked r hocc
          (hne r (List.mem_append_right _ List.mem_cons_self))⟩
      · rcases made_enumerate procs hne' with ⟨kids, hk⟩
        rw [createNode_of_made procs _ kids hk r hocc]
        exact ⟨rank, hranked.node, hranked.lt, fun i => Nat.le_succ_of_le (hranked.le i)⟩

/-- With ranks there is no cycle of parents. -/
theorem acyclic_of_ranked (n : Nat) (t : Table) (rank : Nat → Nat) (h : Ranked n t rank)
    (i : Nat) : ¬ Relation.TransGen (HasParent t) i i := by
  have hlt : ∀ c q, Relation.TransGen (HasParent t) c q → rank q < rank c := by
    intro c q hcq
    induction hcq with
    | single hstep => exact h.lt _ _ hstep
    | tail _ hstep ih => exact (h.lt _ _ hstep).trans ih
  exact fun hi => Nat.lt_irrefl _ (hlt i i hi)

/-! ### Printing -/

def nodeOf : Piece → Option Nat
  | .process i _ _ _ => some i
  | .newline => none

/-- The nodes that are printed, in order. -/
def visited (out : List Piece) : List Nat := out.filterMap nodeOf

theorem visited_process (s : Printer) (i bars : Nat) (pre buffer : List UInt8) :
    visited (s.process i bars pre buffer).out = visited s.out ++ [i] := by
  rw [Printer.process, visited, List.filterMap_append]
  rfl

theorem visited_newline (s : Printer) : visited s.newline.out = visited s.out := by
  rw [Printer.newline, visited, List.filterMap_append]
  exact List.append_nil _

/-- The nodes that a call for a process prints. -/
def VisitsProcess (t : Table) (kids : Forest Nat) : Prop :=
  ∀ (fuel i b : Nat) (pre : List UInt8) (print : Nat) (s : Printer), fuelFor kids + 1 ≤ fuel →
    Named t i → Held t (childOf t i) kids →
    ∃ s', printTree fuel t i b pre print s = some s' ∧
      visited s'.out = visited s.out ++ i :: kids.preorder

/-- The nodes that the loop prints for the rest of a list. -/
def VisitsSiblings (t : Table) (sibs : Forest Nat) : Prop :=
  ∀ (fuel b : Nat) (p : Option Nat) (s : Printer), fuelFor sibs ≤ fuel → Held t p sibs →
    ∃ s', printSiblings fuel t p b s = some s' ∧
      visited s'.out = visited s.out ++ sibs.preorder

section Visits

variable (t : Table)

theorem visits_leaf : VisitsProcess t .nil := by
  intro fuel i b pre print s hfuel hnamed hheld
  rcases Nat.exists_eq_add_of_le' hfuel with ⟨k, rfl⟩
  refine ⟨_, printTree_leaf t (k + 1) i b pre print s hnamed hheld, ?_⟩
  rw [visited_newline, visited_process, Forest.preorder]

theorem visits_parent (p : Nat) (kids sibs : Forest Nat) (hkids : VisitsProcess t kids)
    (hsibs : VisitsSiblings t sibs) : VisitsProcess t (.cons p kids sibs) := by
  intro fuel i b pre print s hfuel hnamed hheld
  rcases hheld with ⟨hp, hnamed', hheldk, hhelds⟩
  rw [fuelFor] at hfuel
  have hpos := fuelFor_pos sibs
  obtain ⟨rest, rfl⟩ : ∃ rest, fuel = rest + 1 := ⟨fuel - 1, by omega⟩
  rw [printTree_parent t rest i b pre print s p hnamed hp]
  -- The first child, whether or not there are others.
  have hfirst : ∃ s₁, (if (nextOf t p).isSome = true then
        printTree rest t p (b + widthOf t i) (firstConnector true) 0
          ((s.process i (print * b) pre (labelOf t i)).setMark (b + widthOf t i) bar)
      else printTree rest t p (b + widthOf t i) (firstConnector false) 0
        (s.process i (print * b) pre (labelOf t i))) = some s₁ ∧
      visited s₁.out = visited s.out ++ i :: p :: kids.preorder := by
    have hout := visited_process s i (print * b) pre (labelOf t i)
    split
    · rcases hkids rest p (b + widthOf t i) (firstConnector true) 0
        ((s.process i (print * b) pre (labelOf t i)).setMark (b + widthOf t i) bar) (by omega)
        hnamed' hheldk with ⟨s₁, hs₁, hv⟩
      refine ⟨s₁, hs₁, hv.trans ?_⟩
      rw [Printer.setMark, hout, List.append_assoc]
      rfl
    · rcases hkids rest p (b + widthOf t i) (firstConnector false) 0
        (s.process i (print * b) pre (labelOf t i)) (by omega) hnamed' hheldk with ⟨s₁, hs₁, hv⟩
      refine ⟨s₁, hs₁, hv.trans ?_⟩
      rw [hout, List.append_assoc]
      rfl
  rcases hfirst with ⟨s₁, hs₁, hv₁⟩
  rcases hsibs rest (b + widthOf t i) (nextOf t p) s₁ (by omega) hhelds with ⟨s₂, hs₂, hv₂⟩
  refine ⟨s₂.setMark (b + widthOf t i) blank, ?_, ?_⟩
  · rw [hs₁, Option.bind_some, hs₂, Option.map_some]
  · rw [Printer.setMark, hv₂, hv₁, Forest.preorder, List.append_assoc, List.cons_append,
      List.cons_append]

theorem visits_none : VisitsSiblings t .nil := by
  intro fuel b p s hfuel hheld
  rcases Nat.exists_eq_add_of_le' hfuel with ⟨k, rfl⟩
  rw [Held] at hheld
  subst hheld
  exact ⟨s, rfl, (List.append_nil _).symm⟩

theorem visits_more (i : Nat) (kids sibs : Forest Nat) (hkids : VisitsProcess t kids)
    (hsibs : VisitsSiblings t sibs) : VisitsSiblings t (.cons i kids sibs) := by
  intro fuel b p s hfuel hheld
  rw [fuelFor] at hfuel
  rcases hheld with ⟨rfl, hnamed, hheldk, hhelds⟩
  have hpos := fuelFor_pos sibs
  obtain ⟨rest, rfl⟩ : ∃ rest, fuel = rest + 1 := ⟨fuel - 1, by omega⟩
  rcases hkids rest i b (laterConnector (nextOf t i).isSome) 1 s (by omega) hnamed hheldk with
    ⟨s₁, hs₁, hv₁⟩
  rcases hsibs rest b (nextOf t i) s₁ (by omega) hhelds with ⟨s₂, hs₂, hv₂⟩
  refine ⟨s₂, ?_, ?_⟩
  · rw [printSiblings, hs₁, Option.bind_some, hs₂]
  · rw [hv₂, hv₁, Forest.preorder, List.append_assoc, List.cons_append]

/-- The nodes that are printed for a process, and for the rest of a list of
    children, whatever `mark` holds. -/
theorem visits (f : Forest Nat) : VisitsProcess t f ∧ VisitsSiblings t f := by
  induction f with
  | nil => exact ⟨visits_leaf t, visits_none t⟩
  | cons i kids sibs ihk ihs =>
      exact ⟨visits_parent t i kids sibs ihk.1 ihs.2, visits_more t i kids sibs ihk.1 ihs.2⟩

end Visits

/-! ### The shape -/

/-- The forest that the lists of children make is in the table. -/
theorem held_of_shaped (t : Table) (kids : Nat → List Nat)
    (hlinked : ∀ i, Linked (nextOf t) (childOf t i) (kids i))
    (hnamed : ∀ i c, c ∈ kids i → Named t c) (f : Forest Nat) (p : Option Nat) (l : List Nat)
    (h : f.Shaped kids l) (hp : Linked (nextOf t) p l) (hl : ∀ c ∈ l, Named t c) :
    Held t p f := by
  induction f generalizing p l with
  | nil =>
      cases h
      exact hp
  | cons a below sibs ihb ihs =>
      rcases h with ⟨rest, rfl, hbelow, hsibs⟩
      exact ⟨hp.1, hl a List.mem_cons_self, ihb _ _ hbelow (hlinked a) (hnamed a),
        ihs _ _ hsibs hp.2 (fun c hc => hl c (List.mem_cons_of_mem a hc))⟩

/-- `print_tree`, called for a node with any other arguments, comes to its end
    and prints finitely many nodes, none of them twice. -/
def VisitsOnce (t : Table) (i : Nat) : Prop :=
  ∃ nodes : List Nat, nodes.Nodup ∧ ∀ (b : Nat) (pre : List UInt8) (print : Nat) (s : Printer),
    ∃ n, ∀ fuel, n ≤ fuel → ∃ s', printTree fuel t i b pre print s = some s' ∧
      visited s'.out = visited s.out ++ nodes

/-- Every list of children ends. A node is in one list at most, at most once,
    and this is the list of its parent. No parents go round in a circle. What
    hangs below a node with a name is printed once. -/
structure WellShaped (t : Table) : Prop where
  lists : ∃ kids : Nat → List Nat, (∀ i, Linked (nextOf t) (childOf t i) (kids i)) ∧
    (∀ i, (kids i).Nodup) ∧ (∀ i j c, c ∈ kids i → c ∈ kids j → i = j) ∧
    ∀ i c, c ∈ kids i → HasParent t c i
  acyclic : ∀ i, ¬ Relation.TransGen (HasParent t) i i
  visitsOnce : ∀ i, (∃ n, t i = some n ∧ n.ins ≠ none) → VisitsOnce t i

/-- A node has its own pid. -/
theorem named_of_made (seen : List Proc) (t : Table) (kids : Nat → List Nat)
    (h : Made seen t kids) (i : Nat) (n : Node) (hn : t i = some n) (hins : n.ins ≠ none) :
    Named t i := by
  refine ⟨n, hn, ?_, hins⟩
  rcases h.slots i (n.pid, n.ppid, n.ins) (by rw [fieldsOf, hn, Option.map_some]) with
    ⟨heq, _⟩ | ⟨r, _, hr, heq⟩
  · exact congrArg Prod.fst heq
  · rw [← hr]
    exact congrArg Prod.fst heq

/-- A node in a list has a name: it was made for a process. -/
theorem named_of_mem (seen : List Proc) (t : Table) (kids : Nat → List Nat)
    (h : Made seen t kids) (i c : Nat) (hc : c ∈ kids i) : Named t c := by
  rcases (h.member i c).mp hc with ⟨pid, ins, hf⟩
  rcases Option.map_eq_some_iff.mp hf with ⟨n, hn, hnf⟩
  refine named_of_made seen t kids h c n hn ?_
  have hins : n.ins = ins := congrArg (fun x => x.2.2) hnf
  rcases h.slots c _ hf with ⟨heq, _⟩ | ⟨r, _, _, heq⟩
  · have hneg : (i : Int) = -1 := congrArg (fun x => x.2.1) heq
    omega
  · have hname : ins = some r.name := congrArg (fun x => x.2.2) heq
    rw [hins, hname]
    exact Option.some_ne_none _

/-- What hangs below a node with a name is printed once. -/
theorem visitsOnce_of_made (seen : List Proc) (t : Table) (kids : Nat → List Nat) (n : Nat)
    (rank : Nat → Nat) (h : Made seen t kids) (hranked : Ranked n t rank) (i : Nat)
    (hi : Named t i) : VisitsOnce t i := by
  have hparent : ∀ a b, b ∈ kids a → HasParent t b a :=
    fun a b hb => (hasParent_iff t b a).mpr ((h.member a b).mp hb)
  have hrank : ∀ a b, b ∈ kids a → rank a < rank b := fun a b hb => hranked.lt b a (hparent a b hb)
  have hnodup : ∀ a, (kids a).Nodup := fun a => linked_nodup _ _ _ (h.lists.linked a)
  rcases Forest.exists_shaped kids rank n (fun a b hb => ⟨hrank a b hb, hranked.le b⟩) [i] with
    ⟨f, hf⟩
  have hheld : f.Shaped kids [i] →
      ∃ below, f = .cons i below .nil ∧ below.Shaped kids (kids i) := by
    intro hf
    cases f with
    | nil => cases hf
    | cons a below sibs =>
        rcases hf with ⟨rest, hroots, hbelow, hsibs⟩
        cases hroots
        cases sibs with
        | nil => exact ⟨below, rfl, hbelow⟩
        | cons _ _ _ =>
            rcases hsibs with ⟨_, hnil, _⟩
            cases hnil
  rcases hheld hf with ⟨below, rfl, hbelow⟩
  have hpre : i :: below.preorder = (Forest.cons i below .nil).preorder := by
    rw [Forest.preorder, Forest.preorder, List.append_nil]
  refine ⟨i :: below.preorder, ?_, fun b pre print s => ⟨fuelFor below + 1, fun fuel hfuel => ?_⟩⟩
  · rw [hpre]
    refine Forest.nodup_shaped kids rank hrank h.lists.apart _ [i] hf hnodup
      (List.nodup_singleton i) (fun x hx y hy _ => ?_)
    rw [List.mem_singleton.mp hx, List.mem_singleton.mp hy]
  · exact (visits t below).1 fuel i b pre print s hfuel hi
      (held_of_shaped t kids h.lists.linked (named_of_mem seen t kids h) below _ _ hbelow
        (h.lists.linked i) (named_of_mem seen t kids h i))

/-- Whatever the calls of `create_node` are, as long as no process is its own
    parent, the table is well shaped. -/
theorem wellShaped_enumerate (procs : List Proc) (hne : ∀ r ∈ procs, r.pid ≠ r.ppid) :
    WellShaped (enumerate procs) := by
  rcases made_enumerate procs hne with ⟨kids, h⟩
  rcases ranked_enumerate procs hne with ⟨rank, hranked⟩
  refine ⟨⟨kids, h.lists.linked, fun i => linked_nodup _ _ _ (h.lists.linked i), h.lists.apart,
    fun i c hc => (hasParent_iff _ c i).mpr ((h.member i c).mp hc)⟩,
    acyclic_of_ranked _ _ rank hranked, ?_⟩
  rintro i ⟨n, hn, hins⟩
  exact visitsOnce_of_made procs _ kids _ rank h hranked i
    (named_of_made procs _ kids h i n hn hins)

/-- Two processes that are each other's parent, and one of them again with
    another parent. -/
def cycleOfTwo : List Proc := [⟨5, 6, [97]⟩, ⟨6, 5, [98]⟩, ⟨5, 7, [99]⟩]

theorem wellShaped_cycle : WellShaped (enumerate cycleOfTwo) :=
  wellShaped_enumerate cycleOfTwo (by decide)

end ProcessTree

end TlpiPractice
