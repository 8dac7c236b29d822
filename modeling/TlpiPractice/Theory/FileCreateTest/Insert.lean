import Mathlib.Tactic.Common
import TlpiPractice.Core.FileCreateTest

/-!
# The List of Names

What `insert` does to the list behind the dummy node.

The loop in it stops in front of the first name that is later, with `pre` one
node behind `p` all the way. So a name that is new gets between the names that
are earlier and those that are later, and a sorted list stays one.

## Main definitions

* `Sorted`: Names in order.
* `Named`: The names in the list.

## Theorems

* `returns_insertTurn`: Where the loop stops.
* `exists_insert`: The function ends.
* `sorted_insert`: A new name in its place.
* `named_insert`: What the function does to the list.
-/

namespace TlpiPractice

namespace FileCreateTest

open LinkedList Loops

/-- Names in the order of `strcmp`, each once. -/
def Sorted (names : List CString) : Prop :=
  names.Pairwise (fun a b => CString.strcmp a.bytes b.bytes < 0)

/-- The names in the list are these, in nodes that have been allocated and are
    not the dummy. -/
def Named (h : Heap) (names : List CString) : Prop :=
  ∃ cells, Linked h.next (h.next 0) cells ∧ cells.map h.filename = names.map some ∧
    (∀ c ∈ cells, 0 < c ∧ c < h.brk) ∧ 0 < h.brk

/-- The loop passes the nodes with earlier names, and stops with `pre` at the
    last of them. -/
theorem returns_insertTurn (h : Heap) (filename : CString) (cells : List Nat)
    (names : List CString) (pre : Nat) (hl : Linked h.next (h.next pre) cells)
    (hnames : cells.map h.filename = names.map some) :
    ∃ r u n m b, cells = r ++ u ∧ names = n ++ m ∧ r.map h.filename = n.map some ∧
      u.map h.filename = m.map some ∧ (pre :: r).getLast (List.cons_ne_nil pre r) = b ∧
      (∀ a ∈ n, ¬ CString.strcmp filename.bytes a.bytes < 0) ∧
      (∀ a ∈ m.head?, CString.strcmp filename.bytes a.bytes < 0) ∧
      ∀ res, Returns (insertTurn h filename) (h.next pre, some pre) res ↔
        res = some (h.next b, some b) := by
  -- Along the nodes behind `pre`, each of which is the next `pre`.
  induction cells generalizing pre names with
  | nil =>
      rw [List.map_nil, eq_comm, List.map_eq_nil_iff] at hnames
      subst hnames
      have hnext : h.next pre = none := hl
      refine ⟨[], [], [], [], pre, rfl, rfl, rfl, rfl, rfl,
        fun a ha => absurd ha List.not_mem_nil, fun a ha => absurd ha.symm
          (Option.some_ne_none a), fun res => ?_⟩
      rw [hnext]
      exact returns_done (insertTurn h filename) (none, some pre) (some (none, some pre)) rfl res
  | cons c cells ih =>
      cases names with
      | nil => cases hnames
      | cons name names =>
          rw [List.map_cons, List.map_cons, List.cons.injEq] at hnames
          rcases hl with ⟨hnext, hl⟩
          by_cases hlt : CString.strcmp filename.bytes name.bytes < 0
          · -- The loop stops in front of this node.
            refine ⟨[], c :: cells, [], name :: names, pre, rfl, rfl, rfl, ?_, rfl,
              fun a ha => absurd ha List.not_mem_nil, fun a ha => ?_, fun res => ?_⟩
            · rw [List.map_cons, List.map_cons, hnames.1, hnames.2]
            · cases Option.some.inj ha
              exact hlt
            · rw [hnext]
              refine returns_done _ _ _ ?_ res
              simp only [insertTurn, hnames.1, if_pos hlt]
          · -- It goes on with this node as `pre`.
            rcases ih names c hl hnames.2 with
              ⟨r, u, n, m, b, rfl, rfl, hr, hu, hlast, hbefore, hafter, hret⟩
            refine ⟨c :: r, u, name :: n, m, b, rfl, rfl, ?_, hu, ?_, ?_, hafter, fun res => ?_⟩
            · rw [List.map_cons, List.map_cons, hnames.1, hr]
            · rw [List.getLast_cons (List.cons_ne_nil c r)]
              exact hlast
            · exact List.forall_mem_cons.mpr ⟨hlt, hbefore⟩
            · rw [← hret res, hnext]
              refine returns_again _ _ _ ?_ res
              simp only [insertTurn, hnames.1, if_neg hlt, hnext]

/-- With memory, `insert` comes to its end. -/
theorem exists_insert (h : Heap) (names : List CString) (filename : CString)
    (hnamed : Named h names) : ∃ fuel h', insert fuel h filename (true, true) = .ok h' := by
  rcases hnamed with ⟨cells, hl, hnames, -⟩
  rcases returns_insertTurn h filename cells names 0 hl hnames with
    ⟨r, u, n, m, b, -, -, -, -, -, -, -, hret⟩
  rcases (hret _).mpr rfl with ⟨fuel, hrun⟩
  refine ⟨fuel, ?_⟩
  simp only [insert, hrun]
  exact ⟨_, rfl⟩

/-- A larger bound on the turns of its loop gives the same result. -/
theorem insert_mono (n m : Nat) (h h' : Heap) (filename : CString) (mem : Bool × Bool)
    (hle : n ≤ m) (hok : insert n h filename mem = .ok h') : insert m h filename mem = .ok h' := by
  unfold insert at hok ⊢
  cases hrun : run (insertTurn h filename) n (h.next 0, some 0) with
  | none =>
      rw [hrun] at hok
      cases hok
  | some res =>
      rw [hrun] at hok
      rw [run_mono _ n m _ res hrun hle]
      exact hok

/-- A name between those that are earlier and one that is later. -/
theorem sorted_insert (n m : List CString) (name : CString) (h : Sorted (n ++ m))
    (hbefore : ∀ a ∈ n, CString.strcmp a.bytes name.bytes < 0)
    (hafter : ∀ a ∈ m.head?, CString.strcmp name.bytes a.bytes < 0) :
    Sorted (n ++ name :: m) := by
  unfold Sorted at h ⊢
  rw [List.pairwise_append] at h ⊢
  have hlater : ∀ a ∈ m, CString.strcmp name.bytes a.bytes < 0 := by
    cases m with
    | nil => exact fun a ha => absurd ha List.not_mem_nil
    | cons first m =>
        -- The others are behind the first one that is later.
        have hfirst := hafter first rfl
        refine List.forall_mem_cons.mpr ⟨hfirst, fun a ha => ?_⟩
        exact CString.strcmp_neg_trans name first a hfirst
          ((List.pairwise_cons.mp h.2.1).1 a ha)
  refine ⟨h.1, List.pairwise_cons.mpr ⟨hlater, h.2.1⟩, fun a ha b hb => ?_⟩
  rcases List.mem_cons.mp hb with rfl | hb
  · exact hbefore a ha
  · exact h.2.2 a ha b hb

/-- `insert` puts a new name in its place. -/
theorem named_insert (fuel : Nat) (h h' : Heap) (names : List CString) (filename : CString)
    (mem : Bool × Bool) (hnamed : Named h names) (hsorted : Sorted names)
    (hnew : filename ∉ names) (hinsert : insert fuel h filename mem = .ok h') :
    ∃ names', Named h' names' ∧ Sorted names' ∧ names'.Perm (filename :: names) := by
  rcases hnamed with ⟨cells, hl, hnames, hcells, hbrk⟩
  rcases returns_insertTurn h filename cells names 0 hl hnames with
    ⟨r, u, n, m, b, rfl, rfl, hr, hu, hlast, hbefore, hafter, hret⟩
  unfold insert at hinsert
  cases hrun : run (insertTurn h filename) fuel (h.next 0, some 0) with
  | none =>
      rw [hrun] at hinsert
      cases hinsert
  | some res =>
      rw [hrun, (hret res).mp ⟨fuel, hrun⟩] at hinsert
      -- Without memory for both the node and the name there is no result.
      rcases mem with ⟨_ | _, _ | _⟩
      · cases hinsert
      · cases hinsert
      · cases hinsert
      · cases hinsert
        -- The new node is none of those that are there.
        have hfresh : h.brk ∉ r ++ u := fun hin => Nat.lt_irrefl _ (hcells _ hin).2
        have hdummy : 0 ∉ r ++ u := fun hin => Nat.lt_irrefl _ (hcells _ hin).1
        have hold : ∀ cs : List Nat, h.brk ∉ cs →
            cs.map (Function.update h.filename h.brk (some filename)) = cs.map h.filename :=
          fun cs hcs => List.map_congr_left (fun c hc =>
            Function.update_of_ne (fun (heq : c = h.brk) => hcs (heq ▸ hc)) _ _)
        rw [List.mem_append, not_or] at hfresh
        refine ⟨n ++ filename :: m, ⟨r ++ h.brk :: u, ?_, ?_, ?_, Nat.succ_pos _⟩, ?_,
          List.perm_middle⟩
        · exact linked_insert h.next 0 h.brk r u hl hdummy
            (fun hin => hfresh.elim (fun hr hu => (List.mem_append.mp hin).elim hr hu))
            (Nat.ne_of_gt hbrk) b hlast _ rfl
        · simp only [List.map_append, List.map_cons, hold r hfresh.1, hold u hfresh.2, hr, hu,
            Function.update_self]
        · intro c hc
          simp only
          rcases List.mem_append.mp hc with hc | hc
          · have hlt := hcells c (List.mem_append_left u hc)
            omega
          · rcases List.mem_cons.mp hc with rfl | hc
            · omega
            · have hlt := hcells c (List.mem_append_right r hc)
              omega
        · refine sorted_insert n m filename hsorted (fun a ha => ?_) hafter
          exact CString.strcmp_neg_of_not filename a (hbefore a ha)
            (fun heq => hnew (heq ▸ List.mem_append_left m ha))

end FileCreateTest

end TlpiPractice
