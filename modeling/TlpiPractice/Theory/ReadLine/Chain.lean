import Mathlib.Data.List.Nodup
import TlpiPractice.Core.ReadLine
import TlpiPractice.Library.LinkedList
import TlpiPractice.Theory.ReadLine.Copy

/-!
# The List of Buffers

The list from `header`, and what the parts of a call do to it: the search, a
new node in front, new contents of a node, and a node taken out.

`Chain` says that the list has the given nodes: it is finite, its nodes are
allocated, each has bytes left, and no two are for the same descriptor. What
a call must leave alone is `others`, the contents of all nodes for other
descriptors, in the order of the list. The links are not part of it, since
taking out a node relinks its predecessor.

Everything is stated for a heap and a first address, which is all of the state
that the list depends on.

## Main definitions

* `fdOf`, `contentOf`: What a node is for, and what it holds.
* `Chain`: The list has these nodes.
* `others`: The contents of the nodes for other descriptors.
* `target`: What the search ends with, read off the list.

## Theorems

* `search_target`: The search ends with its target.
* `chain_cons`: A new node in front of the list.
* `chain_keep`: New contents of a node.
* `chain_remove`: A node taken out through its predecessor.
-/

namespace TlpiPractice

namespace ReadLine

open LinkedList

/-- The descriptor that a node is for. -/
def fdOf (heap : Addr → Option BufNode) (a : Addr) : Option Int := (heap a).map BufNode.fd

/-- A node without its link. -/
def contentOf (heap : Addr → Option BufNode) (a : Addr) :
    Option (Int × Nat × Nat × (Nat → UInt8)) :=
  (heap a).map (fun n => (n.fd, n.cur, n.size, n.buf))

/-- The list from `first` has the nodes `l`: it is finite, every node is
    allocated and has bytes left, and no two have the same descriptor. -/
structure Chain (heap : Addr → Option BufNode) (first : Option Addr) (l : List Addr) : Prop where
  linked : Linked (nextOf heap) first l
  node : ∀ a ∈ l, ∃ n, heap a = some n ∧ Buffered n
  fds : (l.map (fdOf heap)).Nodup

/-- The nodes for other descriptors, with what they hold. -/
def others (heap : Addr → Option BufNode) (fd : Int) (l : List Addr) :
    List (Addr × Option (Int × Nat × Nat × (Nat → UInt8))) :=
  (l.filter (fun a => decide (fdOf heap a ≠ some fd))).map (fun a => (a, contentOf heap a))

theorem fdOf_some (heap : Addr → Option BufNode) (a : Addr) (node : BufNode)
    (h : heap a = some node) : fdOf heap a = some node.fd := by
  rw [fdOf, h, Option.map_some]

theorem fdOf_of_content (heap heap' : Addr → Option BufNode) (a : Addr)
    (h : contentOf heap' a = contentOf heap a) : fdOf heap' a = fdOf heap a := by
  have := congrArg (Option.map Prod.fst) h
  simpa only [contentOf, fdOf, Option.map_map, Function.comp_def] using this

theorem others_congr (heap heap' : Addr → Option BufNode) (fd : Int) (l : List Addr)
    (hfd : ∀ a ∈ l, fdOf heap' a = fdOf heap a)
    (h : ∀ a ∈ l, fdOf heap a ≠ some fd → contentOf heap' a = contentOf heap a) :
    others heap' fd l = others heap fd l := by
  rw [others, others, List.filter_congr (fun a ha => by rw [hfd a ha])]
  refine List.map_congr_left (fun a ha => ?_)
  rcases List.mem_filter.mp ha with ⟨hin, hne⟩
  rw [h a hin (of_decide_eq_true hne)]

/-- The node of the descriptor itself does not count. -/
theorem others_skip (heap : Addr → Option BufNode) (fd : Int) (u v : List Addr) (a : Addr)
    (h : fdOf heap a = some fd) : others heap fd (u ++ a :: v) = others heap fd (u ++ v) := by
  have hout : ¬ decide (fdOf heap a ≠ some fd) = true := by
    rw [decide_eq_true_eq, h]
    exact fun hne => hne rfl
  rw [others, others, List.filter_append, List.filter_append, List.filter_cons, if_neg hout]

/-! ### The search -/

/-- What the search ends with: the last address before the first node of the
    descriptor, and that node. -/
def target (heap : Addr → Option BufNode) (fd : Int) :
    Option Addr → List Addr → Option Addr × Option Addr
  | pre, [] => (pre, none)
  | pre, a :: l => if fdOf heap a = some fd then (pre, some a) else target heap fd (some a) l

/-- The search gives nothing but its target, and gives it with enough
    steps. -/
theorem search_target (heap : Addr → Option BufNode) (fd : Int) (l : List Addr) (fuel : Nat)
    (pre p : Option Addr) (hl : Linked (nextOf heap) p l) (hnode : ∀ a ∈ l, heap a ≠ none) :
    (search heap fd fuel pre p = none ∨
        search heap fd fuel pre p = some (target heap fd pre l)) ∧
      (l.length < fuel → search heap fd fuel pre p = some (target heap fd pre l)) := by
  induction l generalizing fuel pre p with
  | nil =>
      have hp : p = none := hl
      rw [hp]
      cases fuel with
      | zero => exact ⟨Or.inl rfl, fun h => absurd h (Nat.not_lt_zero _)⟩
      | succ fuel => exact ⟨Or.inr rfl, fun _ => rfl⟩
  | cons a l ih =>
      rw [hl.1]
      cases fuel with
      | zero => exact ⟨Or.inl rfl, fun h => absurd h (Nat.not_lt_zero _)⟩
      | succ fuel =>
          rcases Option.ne_none_iff_exists'.mp (hnode a List.mem_cons_self) with ⟨node, hn⟩
          have hrest : Linked (nextOf heap) node.next l := by
            have := hl.2
            rwa [nextOf, hn, Option.bind_some] at this
          rw [search, target, fdOf_some heap a node hn]
          simp only [hn, Option.some.injEq]
          by_cases hfd : node.fd = fd
          · rw [if_pos hfd, if_pos hfd]
            exact ⟨Or.inr rfl, fun _ => rfl⟩
          · rw [if_neg hfd, if_neg hfd]
            have hrec := ih fuel (some a) node.next hrest
              (fun b hb => hnode b (List.mem_cons_of_mem _ hb))
            exact ⟨hrec.1, fun h => hrec.2 (Nat.lt_of_succ_lt_succ h)⟩

theorem target_found (heap : Addr → Option BufNode) (fd : Int) (u v : List Addr) (a : Addr)
    (pre : Option Addr) (hu : ∀ b ∈ u, fdOf heap b ≠ some fd) (ha : fdOf heap a = some fd) :
    target heap fd pre (u ++ a :: v) = (u.getLast?.or pre, some a) := by
  induction u generalizing pre with
  | nil =>
      rw [List.nil_append, target, if_pos ha]
      rfl
  | cons b u ih =>
      rw [List.cons_append, target, if_neg (hu b List.mem_cons_self),
        ih (some b) (fun c hc => hu c (List.mem_cons_of_mem _ hc)), List.getLast?_cons]
      cases u.getLast? with
      | none => rfl
      | some c => rfl

theorem target_absent (heap : Addr → Option BufNode) (fd : Int) (l : List Addr)
    (pre : Option Addr) (hl : ∀ b ∈ l, fdOf heap b ≠ some fd) :
    target heap fd pre l = (l.getLast?.or pre, none) := by
  induction l generalizing pre with
  | nil => rfl
  | cons b l ih =>
      rw [target, if_neg (hl b List.mem_cons_self),
        ih (some b) (fun c hc => hl c (List.mem_cons_of_mem _ hc)), List.getLast?_cons]
      cases l.getLast? with
      | none => rfl
      | some c => rfl

/-- In a chain nothing before a node has its descriptor. -/
theorem fd_before (heap : Addr → Option BufNode) (first : Option Addr) (u v : List Addr)
    (a : Addr) (h : Chain heap first (u ++ a :: v)) (b : Addr) (hb : b ∈ u) :
    fdOf heap b ≠ fdOf heap a := by
  have hnodup := h.fds
  rw [List.map_append, List.map_cons, List.nodup_append] at hnodup
  exact hnodup.2.2 _ (List.mem_map_of_mem hb) _ List.mem_cons_self

/-! ### Changes of the list -/

section Changes

variable (heap : Addr → Option BufNode) (first : Option Addr)

/-- A new node in front of the list. -/
theorem chain_cons (l : List Addr) (a : Addr) (node : BufNode) (h : Chain heap first l)
    (hfree : heap a = none) (hnext : node.next = first) (hb : Buffered node)
    (hfd : ∀ b ∈ l, fdOf heap b ≠ some node.fd) :
    Chain (Function.update heap a (some node)) (some a) (a :: l) := by
  have hne : ∀ b ∈ l, b ≠ a := by
    intro b hb hba
    rcases h.node b hb with ⟨n, hn, _⟩
    rw [hba, hfree] at hn
    exact nomatch hn
  have hsame : ∀ b ∈ l, Function.update heap a (some node) b = heap b :=
    fun b hb => Function.update_of_ne (hne b hb) _ _
  refine ⟨⟨rfl, ?_⟩, fun b hb' => ?_, ?_⟩
  · rw [nextOf, Function.update_self, Option.bind_some, hnext]
    exact linked_congr (nextOf heap) _ first l
      (fun b hb => by rw [nextOf, nextOf, hsame b hb]) h.linked
  · rcases List.mem_cons.mp hb' with rfl | hb'
    · exact ⟨node, Function.update_self _ _ _, hb⟩
    · rw [hsame b hb']
      exact h.node b hb'
  · have hmap : l.map (fdOf (Function.update heap a (some node))) = l.map (fdOf heap) :=
      List.map_congr_left (fun b hb => by rw [fdOf, fdOf, hsame b hb])
    rw [List.map_cons, hmap, fdOf, Function.update_self, Option.map_some]
    refine List.nodup_cons.mpr ⟨fun hmem => ?_, h.fds⟩
    rcases List.mem_map.mp hmem with ⟨b, hb, hbfd⟩
    exact hfd b hb hbfd

/-- New contents of a node. -/
theorem chain_keep (l : List Addr) (a : Addr) (node node' : BufNode) (h : Chain heap first l)
    (ha : heap a = some node) (hfd : node'.fd = node.fd) (hnext : node'.next = node.next)
    (hb : Buffered node') : Chain (Function.update heap a (some node')) first l := by
  have hlinks : nextOf (Function.update heap a (some node')) = nextOf heap := by
    funext b
    by_cases hba : b = a
    · rw [hba, nextOf, nextOf, Function.update_self, ha, Option.bind_some, Option.bind_some, hnext]
    · rw [nextOf, nextOf, Function.update_of_ne hba]
  have hfds : fdOf (Function.update heap a (some node')) = fdOf heap := by
    funext b
    by_cases hba : b = a
    · rw [hba, fdOf, fdOf, Function.update_self, ha, Option.map_some, Option.map_some, hfd]
    · rw [fdOf, fdOf, Function.update_of_ne hba]
  refine ⟨hlinks ▸ h.linked, fun b hb' => ?_, hfds ▸ h.fds⟩
  by_cases hba : b = a
  · exact ⟨node', by rw [hba, Function.update_self], hb⟩
  · rw [Function.update_of_ne hba]
    exact h.node b hb'

end Changes

/-- Setting a link leaves the contents of all nodes. -/
theorem contentOf_setNext (s : State) (pre x : Option Addr) :
    contentOf (setNext s pre x).heap = contentOf s.heap := by
  cases pre with
  | none => rfl
  | some p =>
      funext b
      by_cases hbp : b = p
      · simp only [contentOf, setNext, hbp, Function.update_self, Option.map_map]
        rfl
      · simp only [contentOf, setNext, Function.update_of_ne hbp]

theorem nextOf_setNext (s : State) (p : Addr) (x : Option Addr) (hp : s.heap p ≠ none) :
    nextOf (setNext s (some p) x).heap = Function.update (nextOf s.heap) p x := by
  funext b
  by_cases hbp : b = p
  · rcases Option.ne_none_iff_exists'.mp hp with ⟨n, hn⟩
    simp only [nextOf, setNext, hbp, Function.update_self, hn, Option.map_some, Option.bind_some]
  · simp only [nextOf, setNext, Function.update_of_ne hbp]

/-- A node taken out through its predecessor, and freed. -/
theorem chain_remove (s : State) (u v : List Addr) (a : Addr) (node : BufNode)
    (h : Chain s.heap s.first (u ++ a :: v)) (ha : s.heap a = some node) :
    Chain (Function.update (setNext s u.getLast? node.next).heap a none)
      (setNext s u.getLast? node.next).first (u ++ v) := by
  have hnodup := linked_nodup _ _ _ h.linked
  have hout : a ∉ u ++ v := (List.nodup_cons.mp (List.nodup_middle.mp hnodup)).1
  have hmem : ∀ b ∈ u ++ v, b ∈ u ++ a :: v := by
    intro b hb
    rcases List.mem_append.mp hb with hb | hb
    · exact List.mem_append_left _ hb
    · exact List.mem_append_right _ (List.mem_cons_of_mem _ hb)
  have hcontent : ∀ b ∈ u ++ v,
      contentOf (Function.update (setNext s u.getLast? node.next).heap a none) b
        = contentOf s.heap b := by
    intro b hb
    rw [contentOf, Function.update_of_ne (fun hba : b = a => hout (hba ▸ hb)), ← contentOf,
      contentOf_setNext]
  refine ⟨?_, fun b hb => ?_, ?_⟩
  · refine linked_congr (nextOf (setNext s u.getLast? node.next).heap) _ _ _ (fun b hb => ?_) ?_
    · rw [nextOf, nextOf, Function.update_of_ne (fun hba : b = a => hout (hba ▸ hb))]
    · have hnext : nextOf s.heap a = node.next := by rw [nextOf, ha, Option.bind_some]
      rcases List.eq_nil_or_concat' u with rfl | ⟨w, p, rfl⟩
      · -- The node is the first one, and the header is its predecessor.
        have hlinked := h.linked
        rw [List.nil_append] at hlinked
        have := hlinked.2
        rw [hnext] at this
        exact this
      · have hp : s.heap p ≠ none := by
          rcases h.node p (hmem p (List.mem_append_left _
            (List.mem_append_right _ List.mem_cons_self))) with ⟨n, hn, _⟩
          rw [hn]
          exact nofun
        have hlinked := h.linked
        rw [List.append_assoc, List.singleton_append] at hlinked ⊢
        rw [List.getLast?_concat, nextOf_setNext s p _ hp, ← hnext]
        exact linked_unlink _ _ w p a v hlinked
  · rcases h.node b (hmem b hb) with ⟨n, hn, hbuf⟩
    have hc := hcontent b hb
    rw [contentOf, contentOf, hn, Option.map_some] at hc
    rcases Option.map_eq_some_iff.mp hc with ⟨n', hn', heq⟩
    have hcur : n'.cur = n.cur := congrArg (fun x => x.2.1) heq
    have hsize : n'.size = n.size := congrArg (fun x => x.2.2.1) heq
    exact ⟨n', hn', by rw [hcur, hsize]; exact hbuf.cur_lt, by rw [hsize]; exact hbuf.size_le⟩
  · rw [List.map_congr_left (fun b hb => fdOf_of_content _ _ b (hcontent b hb))]
    refine List.Nodup.sublist (List.Sublist.map _ ?_) h.fds
    exact List.Sublist.append_left (List.sublist_cons_self a v) u

end ReadLine

end TlpiPractice
