import Mathlib.Logic.Relation
import TlpiPractice.Theory.ProcessTree.Lists

/-!
# What the Enumeration Leaves

The table after `create_node` has been called on a list of processes, in
whatever order.

Every node was made either for a process, and has its parent and its name, or
for a parent, and has neither. Which of the two is settled when the node is
made and never changes: `fieldsOf_enumerate_append`. A process keeps its own
fields exactly if it has no node yet when its turn comes, and it has one
exactly if one of its children came first and was itself made.

## Main definitions

* `Enumeration`: A list of processes as `/proc` may show them.
* `Made`: The table in terms of the processes seen.
* `addKid`: The children after one more process.

## Theorems

* `member_createNode`, `slots_createNode`, `made_createNode`: One more process.
* `made_enumerate`: The table after the enumeration.
* `fieldsOf_enumerate_append`: What further processes leave alone.
* `fields_of_first`, `fields_of_late`: A process without and with a node when
  its turn comes.
-/

namespace TlpiPractice

namespace ProcessTree

open LinkedList

/-- Processes as `/proc` may show them, in some order: distinct pids and
    parents' pids within bounds, pid 1 among them, and no cycle of parents. -/
structure Enumeration where
  procs : List Proc
  nodup : (procs.map Proc.pid).Nodup
  pid_pos : ∀ r ∈ procs, 1 ≤ r.pid
  pid_lt : ∀ r ∈ procs, r.pid < maxPid
  ppid_lt : ∀ r ∈ procs, r.ppid < maxPid
  init : ∃ name, (⟨1, 0, name⟩ : Proc) ∈ procs
  acyclic : ∀ p, ¬ Relation.TransGen (fun c q => ∃ r ∈ procs, r.pid = c ∧ r.ppid = q) p p

/-- No process is its own parent. -/
theorem Enumeration.pid_ne_ppid (E : Enumeration) (r : Proc) (hr : r ∈ E.procs) :
    r.pid ≠ r.ppid := by
  intro h
  exact E.acyclic r.pid (Relation.TransGen.single ⟨r, hr, rfl, h.symm⟩)

/-- The table after some processes: `kids` gives the children, each process
    with its parent's pid in its node is in that parent's list, and each node
    was made for a process or for a parent. -/
structure Made (seen : List Proc) (t : Table) (kids : Nat → List Nat) : Prop where
  lists : Lists t kids
  member : ∀ i c, c ∈ kids i ↔ ∃ pid ins, fieldsOf t c = some (pid, (i : Int), ins)
  slots : ∀ i x, fieldsOf t i = some x →
    (x = ((i : Int), -1, none) ∧ ∃ r ∈ seen, r.ppid = i) ∨
      ∃ r ∈ seen, r.pid = i ∧ x = ((r.pid : Int), (r.ppid : Int), some r.name)
  bound : ∀ i, (kids i).length ≤ seen.length

theorem made_empty : Made [] (fun _ => none) (fun _ => []) where
  lists := ⟨fun _ => rfl, fun _ _ _ h => absurd h List.not_mem_nil,
    fun _ _ h => absurd h List.not_mem_nil⟩
  member := fun _ _ => ⟨fun h => absurd h List.not_mem_nil, fun ⟨_, _, h⟩ => nomatch h⟩
  slots := fun _ _ h => nomatch h
  bound := fun _ => Nat.le_refl 0

/-- What a node was made for is still there after more processes. -/
theorem slots_append (seen more : List Proc) (i : Nat) (x : Int × Int × Option (List UInt8))
    (h : (x = ((i : Int), -1, none) ∧ ∃ r ∈ seen, r.ppid = i) ∨
      ∃ r ∈ seen, r.pid = i ∧ x = ((r.pid : Int), (r.ppid : Int), some r.name)) :
    (x = ((i : Int), -1, none) ∧ ∃ r ∈ seen ++ more, r.ppid = i) ∨
      ∃ r ∈ seen ++ more, r.pid = i ∧ x = ((r.pid : Int), (r.ppid : Int), some r.name) := by
  rcases h with ⟨hx, r, hr, hi⟩ | ⟨r, hr, hi⟩
  · exact Or.inl ⟨hx, r, List.mem_append_left _ hr, hi⟩
  · exact Or.inr ⟨r, List.mem_append_left _ hr, hi⟩

/-- A node has its own pid. -/
theorem pid_of_made (seen : List Proc) (t : Table) (kids : Nat → List Nat)
    (h : Made seen t kids) (i : Nat) (n : Node) (hn : t i = some n) : n.pid = i := by
  rcases h.slots i (n.pid, n.ppid, n.ins) (by rw [fieldsOf, hn, Option.map_some]) with
    ⟨heq, _⟩ | ⟨r, _, hr, heq⟩
  · exact congrArg Prod.fst heq
  · rw [← hr]
    exact congrArg Prod.fst heq

/-- So a pid that has a node is not made again. -/
theorem createNode_of_made (seen : List Proc) (t : Table) (kids : Nat → List Nat)
    (h : Made seen t kids) (r : Proc) (hocc : t r.pid ≠ none) :
    createNode t r.pid r.ppid r.name = t := by
  rcases Option.ne_none_iff_exists'.mp hocc with ⟨n, hn⟩
  refine createNode_occupied t r.pid r.ppid r.name n hn ?_
  rw [pid_of_made seen t kids h r.pid n hn]
  omega

section One

variable (seen : List Proc) (t : Table) (kids : Nat → List Nat) (h : Made seen t kids) (r : Proc)
  (hne : r.pid ≠ r.ppid) (hocc : t r.pid = none)

/-- The children after a node has been made: the new one is its parent's. -/
def addKid (kids : Nat → List Nat) (r : Proc) : Nat → List Nat :=
  Function.update kids r.ppid (r.pid :: kids r.ppid)

theorem mem_addKid_iff (i c : Nat) (hcp : c ≠ r.pid) : c ∈ addKid kids r i ↔ c ∈ kids i := by
  by_cases hi : i = r.ppid
  · rw [hi, addKid, Function.update_self, List.mem_cons]
    exact ⟨fun hc => hc.resolve_left hcp, Or.inr⟩
  · rw [addKid, Function.update_of_ne hi]

include h hne hocc

/-- The children are those of the nodes after one more process. -/
theorem member_createNode (i c : Nat) :
    c ∈ addKid kids r i ↔
      ∃ pid ins, fieldsOf (createNode t r.pid r.ppid r.name) c = some (pid, (i : Int), ins) := by
  by_cases hcp : c = r.pid
  · -- The new node, in the list of its parent and in no other.
    rw [hcp, fieldsOf_createNode_self t r.pid r.ppid r.name hocc hne]
    constructor
    · intro hc
      by_cases hi : i = r.ppid
      · exact ⟨_, _, by rw [hi]⟩
      · rw [addKid, Function.update_of_ne hi] at hc
        exact absurd hocc (h.lists.node i r.pid hc)
    · intro h
      rcases h with ⟨pid, ins, heq⟩
      have hi : r.ppid = i := by
        have := congrArg (fun x => x.2.1) (Option.some.inj heq)
        exact Int.ofNat.inj this
      rw [← hi, addKid, Function.update_self]
      exact List.mem_cons_self
  rw [mem_addKid_iff kids r i c hcp]
  by_cases hcq : c = r.ppid
  · rw [hcq, fieldsOf_createNode_parent t r.pid r.ppid r.name hocc hne]
    cases hf : fieldsOf t r.ppid with
    | none =>
        -- A node made now has no parent, so it is in no list.
        have hout : r.ppid ∉ kids i := by
          intro hin
          exact h.lists.node i r.ppid hin ((fieldsOf_eq_none t r.ppid).mp hf)
        refine ⟨fun hc => absurd hc hout, ?_⟩
        intro h
        rcases h with ⟨pid, ins, heq⟩
        have hneg : (-1 : Int) = i := congrArg (fun x => x.2.1) (Option.some.inj heq)
        omega
    | some x =>
        rw [Option.getD_some, ← hf]
        exact h.member i r.ppid
  · rw [fieldsOf_createNode_other t r.pid r.ppid r.name hocc hne c hcp hcq]
    exact h.member i c

/-- Every node after one more process was made for one or for a parent. -/
theorem slots_createNode (i : Nat) (x : Int × Int × Option (List UInt8))
    (hx : fieldsOf (createNode t r.pid r.ppid r.name) i = some x) :
    (x = ((i : Int), -1, none) ∧ ∃ r' ∈ seen ++ [r], r'.ppid = i) ∨
      ∃ r' ∈ seen ++ [r], r'.pid = i ∧ x = ((r'.pid : Int), (r'.ppid : Int), some r'.name) := by
  have hlast : r ∈ seen ++ [r] := List.mem_append_right _ List.mem_cons_self
  by_cases hip : i = r.pid
  · rw [hip, fieldsOf_createNode_self t r.pid r.ppid r.name hocc hne] at hx
    exact Or.inr ⟨r, hlast, hip.symm, (Option.some.inj hx).symm⟩
  by_cases hiq : i = r.ppid
  · rw [hiq, fieldsOf_createNode_parent t r.pid r.ppid r.name hocc hne] at hx
    cases hf : fieldsOf t r.ppid with
    | none =>
        -- The node is made now, as a parent.
        rw [hf, Option.getD_none] at hx
        exact Or.inl ⟨by rw [hiq]; exact (Option.some.inj hx).symm, ⟨r, hlast, hiq.symm⟩⟩
    | some y =>
        rw [hf, Option.getD_some] at hx
        exact slots_append seen [r] i x (h.slots i x (by rw [hiq, hf, hx]))
  · rw [fieldsOf_createNode_other t r.pid r.ppid r.name hocc hne i hip hiq] at hx
    exact slots_append seen [r] i x (h.slots i x hx)

end One

/-- One more process. -/
theorem made_createNode (seen : List Proc) (t : Table) (kids : Nat → List Nat)
    (h : Made seen t kids) (r : Proc) (hne : r.pid ≠ r.ppid) :
    ∃ kids', Made (seen ++ [r]) (createNode t r.pid r.ppid r.name) kids' := by
  by_cases hocc : t r.pid = none
  · refine ⟨addKid kids r, lists_createNode t kids r.pid r.ppid r.name h.lists hocc hne,
      member_createNode seen t kids h r hne hocc, slots_createNode seen t kids h r hne hocc,
      fun i => ?_⟩
    rw [List.length_append, List.length_singleton]
    by_cases hi : i = r.ppid
    · rw [hi, addKid, Function.update_self, List.length_cons]
      exact Nat.succ_le_succ (h.bound r.ppid)
    · rw [addKid, Function.update_of_ne hi]
      exact Nat.le_succ_of_le (h.bound i)
  · -- The process has a node, and `create_node` returns at once.
    rw [createNode_of_made seen t kids h r hocc]
    refine ⟨kids, h.lists, h.member, fun i x hx => slots_append seen [r] i x (h.slots i x hx),
      fun i => ?_⟩
    rw [List.length_append, List.length_singleton]
    exact Nat.le_succ_of_le (h.bound i)

theorem enumerate_concat (procs : List Proc) (r : Proc) :
    enumerate (procs ++ [r]) = createNode (enumerate procs) r.pid r.ppid r.name := by
  rw [enumerate, List.foldl_append]
  rfl

/-- The table after the enumeration. -/
theorem made_enumerate (procs : List Proc) (hne : ∀ r ∈ procs, r.pid ≠ r.ppid) :
    ∃ kids, Made procs (enumerate procs) kids := by
  induction procs using List.reverseRecOn with
  | nil => exact ⟨_, made_empty⟩
  | append_singleton procs r ih =>
      rcases ih (fun r' hr' => hne r' (List.mem_append_left _ hr')) with ⟨kids, hk⟩
      rw [enumerate_concat]
      exact made_createNode procs _ kids hk r
        (hne r (List.mem_append_right _ List.mem_cons_self))

/-- The fields of a node are set once. -/
theorem fieldsOf_enumerate_append (procs more : List Proc) (i : Nat)
    (x : Int × Int × Option (List UInt8)) (hne : ∀ r ∈ procs ++ more, r.pid ≠ r.ppid)
    (h : fieldsOf (enumerate procs) i = some x) :
    fieldsOf (enumerate (procs ++ more)) i = some x := by
  induction more using List.reverseRecOn with
  | nil => rwa [List.append_nil]
  | append_singleton more r ih =>
      rw [← List.append_assoc] at hne ⊢
      have hne' : ∀ r' ∈ procs ++ more, r'.pid ≠ r'.ppid :=
        fun r' hr' => hne r' (List.mem_append_left _ hr')
      have hr := hne r (List.mem_append_right _ List.mem_cons_self)
      have hx := ih hne'
      rcases made_enumerate _ hne' with ⟨kids, hk⟩
      rw [enumerate_concat]
      by_cases hocc : enumerate (procs ++ more) r.pid = none
      · have hip : i ≠ r.pid := by
          intro hip
          rw [hip, (fieldsOf_eq_none _ _).mpr hocc] at hx
          exact nomatch hx
        by_cases hiq : i = r.ppid
        · rw [hiq] at hx ⊢
          rw [fieldsOf_createNode_parent _ _ _ _ hocc hr, hx, Option.getD_some]
        · rw [fieldsOf_createNode_other _ _ _ _ hocc hr i hip hiq]
          exact hx
      · rw [createNode_of_made _ _ kids hk r hocc]
        exact hx

/-- A process that has no node when its turn comes gets its own. -/
theorem fields_of_first (before after : List Proc) (r : Proc)
    (hne : ∀ r' ∈ before ++ r :: after, r'.pid ≠ r'.ppid)
    (hempty : enumerate before r.pid = none) :
    fieldsOf (enumerate (before ++ r :: after)) r.pid
      = some ((r.pid : Int), (r.ppid : Int), some r.name) := by
  have hsplit : before ++ r :: after = (before ++ [r]) ++ after := by
    rw [List.append_assoc, List.singleton_append]
  rw [hsplit] at hne ⊢
  refine fieldsOf_enumerate_append _ _ _ _ hne ?_
  rw [enumerate_concat]
  exact fieldsOf_createNode_self _ _ _ _ hempty
    (hne r (List.mem_append_left _ (List.mem_append_right _ List.mem_cons_self)))

/-- A process that has a node when its turn comes, made for it as a parent,
    does not get its name. -/
theorem fields_of_late (before after : List Proc) (r : Proc)
    (hne : ∀ r' ∈ before ++ r :: after, r'.pid ≠ r'.ppid)
    (hpid : ∀ r' ∈ before, r'.pid ≠ r.pid) (hocc : enumerate before r.pid ≠ none) :
    fieldsOf (enumerate (before ++ r :: after)) r.pid = some ((r.pid : Int), -1, none) := by
  refine fieldsOf_enumerate_append _ _ _ _ hne ?_
  rcases made_enumerate before (fun r' hr' => hne r' (List.mem_append_left _ hr')) with ⟨kids, hk⟩
  rcases Option.ne_none_iff_exists'.mp
    (fun hf => hocc ((fieldsOf_eq_none _ _).mp hf)) with ⟨x, hx⟩
  rcases hk.slots r.pid x hx with ⟨rfl, _⟩ | ⟨r', hr', heq, _⟩
  · exact hx
  · exact absurd heq (hpid r' hr')

end ProcessTree

end TlpiPractice
