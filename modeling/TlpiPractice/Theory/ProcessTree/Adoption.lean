import TlpiPractice.Theory.ProcessTree.Order

/-!
# Adoption

When the loop that moves the children of nodes without a parent ends, and
what it leaves of the lists of children.

The loop takes the first child of such a node and puts it in front of the
children of pid 1. If pid 1 has no parent itself, its first child is taken
out and put back, and nothing has changed. A node without a parent was made
for one of its children, so it has at least one, and the loop goes on for
ever.

Pid 1 has a parent if `create_node` still found no node for it when it was
called for pid 1. Then the loop ends, whatever else was recorded: repeated
placeholders and cycles of parents do no harm, since only the lists matter.

All this is about nodes that are in `process`. A parent's pid is looked up in
it if the process has no node yet, and has to be below `MAX_PID` then.

## Main definitions

* `Calls`: The calls to `create_node`.
* `InitOpen`: Pid 1 has no node before its own call.
* `InBounds`: The parents that are looked up are inside the array.
* `Conserved`: No child is lost, or in two lists.

## Theorems

* `enumerateIn_eq`: When `create_node` stays inside the array.
* `childOf_of_orphaned`: A node without a parent has a child.
* `moveChildren_one`: Moving the children of pid 1 does not end.
* `orphaned_one_iff`: When pid 1 has no parent.
* `conserved_of_reparented`: What the moves leave.
* `reparents_iff`: When the loop ends, and leaves that.
* `childBeforeInit_never`: A sequence after which it does not.
-/

namespace TlpiPractice

namespace ProcessTree

open LinkedList

/-- Calls to `create_node`: the pids are distinct and within bounds, no
    process is its own parent, and pid 1 is recorded with the parent 0. -/
structure Calls where
  procs : List Proc
  nodup : (procs.map Proc.pid).Nodup
  pid_pos : ∀ r ∈ procs, 1 ≤ r.pid
  pid_lt : ∀ r ∈ procs, r.pid < maxPid
  pid_ne_ppid : ∀ r ∈ procs, r.pid ≠ r.ppid
  init : ∃ name, (⟨1, 0, name⟩ : Proc) ∈ procs

/-- When `create_node` is called for pid 1, `process[1]` is still a null
    pointer: nobody got a node as a child of pid 1 before. -/
def InitOpen (procs : List Proc) : Prop :=
  ∀ before r after, procs = before ++ r :: after → r.pid = 1 → enumerate before 1 = none

/-- The parent of a process that has no node yet is inside `process`. -/
def InBounds (procs : List Proc) : Prop :=
  ∀ before r after, procs = before ++ r :: after → enumerate before r.pid = none →
    r.ppid < maxPid

/-- What the moves should keep: every list of children ends, every child is in
    one list at one place, and the children of a node that has a parent are
    those from before, unless it is pid 1. -/
structure Conserved (t t' : Table) : Prop where
  finite : ∀ i, ∃ l, Linked (nextOf t') (childOf t' i) l
  once : ∀ i c, IsChild t i c →
    ∃! place : Nat × Nat, ∃ l, Linked (nextOf t') (childOf t' place.1) l ∧ l[place.2]? = some c
  kept : ∀ i n, t i = some n → n.ppid ≠ -1 → i ≠ 1 →
    ∀ l, Linked (nextOf t) (childOf t i) l → Linked (nextOf t') (childOf t' i) l

/-- The nodes are made inside the array, the loop ends, and keeps the children. -/
def Reparents (procs : List Proc) : Prop :=
  ∃ fuel t t', enumerateIn procs = some t ∧ reparent fuel t = some t' ∧ Conserved t t'

/-! ### The bounds of the array -/

theorem inBounds_concat (procs : List Proc) (r : Proc) :
    InBounds (procs ++ [r]) ↔
      InBounds procs ∧ (enumerate procs r.pid = none → r.ppid < maxPid) := by
  constructor
  · intro h
    refine ⟨fun before r' after heq => h before r' (after ++ [r]) ?_, h procs r [] rfl⟩
    rw [heq, List.append_assoc]
    rfl
  · intro h before r' after heq
    rcases List.eq_nil_or_concat after with rfl | ⟨after', last, rfl⟩
    · rcases List.append_inj' heq rfl with ⟨rfl, hr⟩
      rw [← (List.cons.inj hr).1]
      exact h.2
    · rw [List.concat_eq_append, ← List.cons_append, ← List.append_assoc] at heq
      rcases List.append_inj' heq rfl with ⟨hprocs, -⟩
      exact h.1 before r' after' hprocs

theorem addProcess_eq (procs : List Proc) (hne : ∀ r ∈ procs, r.pid ≠ r.ppid) (r : Proc)
    (hpid : r.pid < maxPid) :
    addProcess (enumerate procs) r.pid r.ppid r.name =
      if enumerate procs r.pid = none → r.ppid < maxPid then some (enumerate (procs ++ [r]))
      else none := by
  rcases made_enumerate procs hne with ⟨kids, hmade⟩
  rw [addProcess, if_neg (by omega), Int.toNat_natCast, Int.toNat_natCast, enumerate_concat]
  cases hnode : enumerate procs r.pid with
  | some n =>
      -- The call returns before it looks for the parent.
      have hany : n.pid ≠ -1 := by
        rw [pid_of_made procs _ kids hmade r.pid n hnode]
        omega
      rw [Option.any_some, if_pos (decide_eq_true hany), if_pos (fun h => nomatch h),
        createNode_of_made procs _ kids hmade r (hnode ▸ Option.some_ne_none n)]
  | none =>
      rw [Option.any_none, if_neg Bool.false_ne_true]
      by_cases hppid : r.ppid < maxPid
      · rw [if_neg (by omega), if_pos (fun _ => hppid)]
      · rw [if_pos (by omega), if_neg (fun h => hppid (h rfl))]

/-- The nodes that are made, if `create_node` stays inside the array. -/
theorem enumerateIn_eq (procs : List Proc) (hne : ∀ r ∈ procs, r.pid ≠ r.ppid)
    (hpid : ∀ r ∈ procs, r.pid < maxPid) (t : Table) :
    enumerateIn procs = some t ↔ InBounds procs ∧ t = enumerate procs := by
  induction procs using List.reverseRecOn generalizing t with
  | nil =>
      refine ⟨fun h => ⟨?_, (Option.some.inj h).symm⟩, fun h => congrArg some h.2.symm⟩
      intro before r after heq
      exact absurd heq.symm (List.append_ne_nil_of_right_ne_nil _ (List.cons_ne_nil _ _))
  | append_singleton procs r ih =>
      rcases List.forall_mem_append.mp hne with ⟨hne', -⟩
      rcases List.forall_mem_append.mp hpid with ⟨hpid', hr⟩
      have hstep : enumerateIn (procs ++ [r]) = (enumerateIn procs).bind
          (fun t => addProcess t r.pid r.ppid r.name) := by
        rw [enumerateIn, List.foldlM_append]
        simp only [List.foldlM_cons, List.foldlM_nil, bind_pure]
        rfl
      rw [hstep, Option.bind_eq_some_iff, inBounds_concat]
      have hadd := addProcess_eq procs hne' r (hr r List.mem_cons_self)
      constructor
      · rintro ⟨t', ht', ht⟩
        rcases (ih hne' hpid' t').mp ht' with ⟨hin, rfl⟩
        rw [hadd] at ht
        split at ht
        · rename_i hroom
          exact ⟨⟨hin, hroom⟩, (Option.some.inj ht).symm⟩
        · cases ht
      · rintro ⟨⟨hin, hroom⟩, rfl⟩
        refine ⟨enumerate procs, (ih hne' hpid' _).mpr ⟨hin, rfl⟩, ?_⟩
        rw [hadd, if_pos hroom]

/-! ### Pid 1 without a parent -/

/-- A node without a parent was made for a child. -/
theorem childOf_of_orphaned (procs : List Proc) (hne : ∀ r ∈ procs, r.pid ≠ r.ppid) (i : Nat)
    (ho : Orphaned (enumerate procs) i) : childOf (enumerate procs) i ≠ none := by
  induction procs using List.reverseRecOn with
  | nil =>
      rcases ho with ⟨pid, ins, hf⟩
      cases hf
  | append_singleton procs r ih =>
      have hne' : ∀ r' ∈ procs, r'.pid ≠ r'.ppid :=
        fun r' hr' => hne r' (List.mem_append_left _ hr')
      have hr := hne r (List.mem_append_right _ List.mem_cons_self)
      rw [enumerate_concat] at ho ⊢
      by_cases hocc : enumerate procs r.pid = none
      · rw [childOf_createNode _ _ _ _ hocc hr]
        by_cases hiq : i = r.ppid
        · rw [hiq, Function.update_self]
          exact Option.some_ne_none _
        rw [Function.update_of_ne hiq]
        -- The new node itself has a parent.
        have hip : i ≠ r.pid := by
          rintro rfl
          rcases ho with ⟨pid, ins, hf⟩
          rw [fieldsOf_createNode_self _ _ _ _ hocc hr] at hf
          have hneg : (r.ppid : Int) = -1 := congrArg (fun x => x.2.1) (Option.some.inj hf)
          omega
        rw [Orphaned, fieldsOf_createNode_other _ _ _ _ hocc hr i hip hiq] at ho
        exact ih hne' ho
      · -- A node that was there keeps its parent, or the lack of one.
        rcases made_enumerate procs hne' with ⟨kids, hk⟩
        rw [createNode_of_made procs _ kids hk r hocc] at ho ⊢
        exact ih hne' ho

/-- The first child of pid 1 is put back where it was, again and again. -/
theorem moveChildren_one (fuel : Nat) (t : Table) (h : childOf t 1 ≠ none) :
    moveChildren fuel t 1 = none := by
  induction fuel generalizing t with
  | zero => rfl
  | succ fuel ih =>
      rcases Option.ne_none_iff_exists'.mp h with ⟨tmp, htmp⟩
      have hone : t 1 ≠ none := by
        intro hone
        rw [childOf, hone, Option.bind_none] at htmp
        cases htmp
      -- The child is put at the head of the list it was taken from.
      have hagain : childOf (moveFirst t 1 tmp) 1 ≠ none := by
        rw [childOf_moveFirst t 1 tmp hone hone, Function.update_self]
        exact Option.some_ne_none _
      simp only [moveChildren, htmp, if_neg hone]
      exact ih _ hagain

/-- When pid 1 has no parent, the loop does not end. -/
theorem reparent_of_orphaned (fuel : Nat) (procs : List Proc)
    (hne : ∀ r ∈ procs, r.pid ≠ r.ppid) (ho : Orphaned (enumerate procs) 1) :
    reparent fuel (enumerate procs) = none := by
  have hpids : List.range' 1 (maxPid - 1) = 1 :: List.range' 2 (maxPid - 2) := rfl
  rw [reparent, hpids, List.foldlM_cons, reparentStep_orphaned fuel _ 1 ho,
    moveChildren_one fuel _ (childOf_of_orphaned procs hne 1 ho)]
  rfl

/-- Pid 1 has no parent in the end if it had a node before its own call. -/
theorem orphaned_one_iff (E : Calls) : Orphaned (enumerate E.procs) 1 ↔ ¬ InitOpen E.procs := by
  constructor
  · -- If it had none, the call recorded the parent 0.
    intro ho hopen
    rcases E.init with ⟨name, hinit⟩
    rcases List.append_of_mem hinit with ⟨before, after, h⟩
    have hfirst := fields_of_first before after ⟨1, 0, name⟩ (h ▸ E.pid_ne_ppid)
      (hopen before _ after h rfl)
    rcases ho with ⟨pid, ins, hf⟩
    rw [h, hfirst] at hf
    have hneg : (0 : Int) = -1 := congrArg (fun x => x.2.1) (Option.some.inj hf)
    omega
  · -- If it had one, that was made for a child and the call changed nothing.
    intro hclosed
    simp only [InitOpen, not_forall] at hclosed
    rcases hclosed with ⟨before, r, after, h, hr, hocc⟩
    have hlate := fields_of_late before after r (h ▸ E.pid_ne_ppid)
      (pid_ne_of_before E.procs before after r E.nodup h) (hr ▸ hocc)
    rw [← h, hr] at hlate
    exact ⟨_, _, hlate⟩

/-! ### What the moves leave -/

/-- A child is in one list, at one place. -/
theorem place_unique (t : Table) (kids : Nat → List Nat) (h : Lists t kids) (i c : Nat)
    (hc : c ∈ kids i) :
    ∃! place : Nat × Nat, ∃ l, Linked (nextOf t) (childOf t place.1) l ∧ l[place.2]? = some c := by
  rcases List.mem_iff_getElem?.mp hc with ⟨k, hk⟩
  refine ⟨(i, k), ⟨kids i, h.linked i, hk⟩, ?_⟩
  rintro ⟨j, k'⟩ ⟨l, hl, hk'⟩
  rw [kids_of_linked t kids h j l hl] at hk'
  have hij : i = j := h.apart i j c hc (List.mem_iff_getElem?.mpr ⟨k', hk'⟩)
  subst hij
  have hnodup := linked_nodup _ _ _ (h.linked i)
  have hlt : k < (kids i).length := (List.getElem?_eq_some_iff.mp hk).1
  rw [(List.getElem?_inj hlt hnodup).mp (hk.trans hk'.symm)]

/-- The moves of the loop keep the children. -/
theorem conserved_of_reparented (t t' : Table) (kids kids' : Nat → List Nat) (pids : List Nat)
    (h : Lists t kids) (h' : Lists t' kids') (hrep : Reparented t kids kids' pids) :
    Conserved t t' := by
  refine ⟨fun i => ⟨kids' i, h'.linked i⟩, ?_, ?_⟩
  · rintro i c ⟨l, hl, hc⟩
    rw [kids_of_linked t kids h i l hl] at hc
    -- A child goes to pid 1 if its parent is that already or has no parent.
    by_cases hi : i = 1
    · exact place_unique t' kids' h' 1 c ((hrep.moved c).mpr (Or.inl (hi ▸ hc)))
    by_cases ho : i ∈ pids ∧ Orphaned t i
    · exact place_unique t' kids' h' 1 c ((hrep.moved c).mpr (Or.inr ⟨i, ho.1, ho.2, hc⟩))
    · exact place_unique t' kids' h' i c (hrep.kept i hi ho ▸ hc)
  · intro i n hn hp hi l hl
    have ho : ¬ (i ∈ pids ∧ Orphaned t i) := by
      rintro ⟨-, pid, ins, hf⟩
      rw [fieldsOf, hn, Option.map_some] at hf
      exact hp (congrArg (fun x => x.2.1) (Option.some.inj hf))
    rw [kids_of_linked t kids h i l hl, ← hrep.kept i hi ho]
    exact h'.linked i

/-- When pid 1 has a parent, the loop ends. -/
theorem reparents_of_initOpen (E : Calls) (hin : InBounds E.procs) (hopen : InitOpen E.procs) :
    Reparents E.procs := by
  have hparent : ¬ Orphaned (enumerate E.procs) 1 := fun ho => (orphaned_one_iff E).mp ho hopen
  rcases made_enumerate E.procs E.pid_ne_ppid with ⟨kids, hmade⟩
  rcases E.init with ⟨name, hinit⟩
  rcases List.append_of_mem hinit with ⟨before, after, h⟩
  have hnode : enumerate E.procs 1 ≠ none := by
    intro hnone
    have hfirst := fields_of_first before after ⟨1, 0, name⟩ (h ▸ E.pid_ne_ppid)
      (hopen before _ after h rfl)
    rw [← h, (fieldsOf_eq_none _ _).mpr hnone] at hfirst
    cases hfirst
  rcases reparent_spec (E.procs.length + 1) (List.range' 1 (maxPid - 1)) _ kids hmade.lists hnode
    hparent (fun j _ => Nat.lt_succ_of_le (hmade.bound j)) with
    ⟨t, kids', hrun, -, hlists, hrep⟩
  exact ⟨E.procs.length + 1, _, t,
    (enumerateIn_eq E.procs E.pid_ne_ppid E.pid_lt _).mpr ⟨hin, rfl⟩, hrun,
    conserved_of_reparented _ t kids kids' _ hmade.lists hlists hrep⟩

theorem not_reparents_of_closed (E : Calls) (hclosed : ¬ InitOpen E.procs) :
    ¬ Reparents E.procs := by
  rintro ⟨fuel, t, t', hmade, hrun, -⟩
  rcases (enumerateIn_eq E.procs E.pid_ne_ppid E.pid_lt t).mp hmade with ⟨-, rfl⟩
  rw [reparent_of_orphaned fuel E.procs E.pid_ne_ppid ((orphaned_one_iff E).mpr hclosed)] at hrun
  cases hrun

/-- The loop of `main` ends, and keeps the children, exactly when pid 1 had no
    node yet when `create_node` was called for it, and no parent was looked up
    beyond the array. -/
theorem reparents_iff (E : Calls) :
    Reparents E.procs ↔ InBounds E.procs ∧ InitOpen E.procs := by
  constructor
  · intro h
    refine ⟨?_, ?_⟩
    · rcases h with ⟨fuel, t, t', hmade, -⟩
      exact ((enumerateIn_eq E.procs E.pid_ne_ppid E.pid_lt t).mp hmade).1
    · by_contra hclosed
      exact not_reparents_of_closed E hclosed h
  · intro h
    exact reparents_of_initOpen E h.1 h.2

/-- A child of pid 1 is recorded before pid 1. -/
def childBeforeInit : Calls where
  procs := [⟨5, 1, [115]⟩, ⟨1, 0, [105]⟩]
  nodup := by decide
  pid_pos := by decide
  pid_lt := by decide
  pid_ne_ppid := by decide
  init := ⟨_, List.mem_cons_of_mem _ List.mem_cons_self⟩

/-- The loop does not end. -/
theorem childBeforeInit_never : ¬ Reparents childBeforeInit.procs := by
  refine not_reparents_of_closed childBeforeInit ?_
  intro hopen
  have hnone := hopen [⟨5, 1, [115]⟩] ⟨1, 0, [105]⟩ [] rfl rfl
  have hmade : fieldsOf (enumerate [⟨5, 1, [115]⟩]) 1 = _ :=
    fieldsOf_createNode_parent (fun _ => none) 5 1 [115] rfl (by decide)
  rw [(fieldsOf_eq_none _ _).mpr hnone] at hmade
  cases hmade

end ProcessTree

end TlpiPractice
