import TlpiPractice.Library.Runs
import TlpiPractice.Theory.ReadLine.Chain

/-!
# When the List of Buffers Stays Right

The calls that keep the list of buffers as it should be, and that there are
no others.

A call harms the list in three ways. The copying loop may go on after a
`read` that returned nothing, and use the node it has just freed. It may leave
the buffer, since its index goes on after a refill. And a node made in this
call may be freed in it, while the list has others: the predecessor is then
the last node and not the header, the header keeps the address that was
freed, and the last node is linked back to the first.

`Sound` excludes the three, in terms of the node or the first chunk, the limit
and the reads to come. `listInv_of_sound` shows that a sound call keeps the
list and the nodes of all other descriptors, and `not_listOk_of_unsound` that
any other call leaves a list that is broken, or no list at all. Together they
say of whole runs that the list is right throughout exactly when every call is
sound.

## Main definitions

* `ListOk`: The list is right.
* `OthersKept`: A call leaves the nodes of other descriptors alone.
* `Sound`: The calls that do no harm.
* `twoDescriptors`: A run that keeps the list.
* `secondDescriptor`: A run that breaks the list.

## Theorems

* `listInv_of_sound`: A sound call keeps the list.
* `not_listOk_of_unsound`: Another call breaks it.
* `list_ok_iff_sound`: The runs in which the list stays right.
* `secondDescriptor_breaks`: A list that does not.
-/

namespace TlpiPractice

namespace ReadLine

open LinkedList Runs

/-- The list is right: it is finite, its nodes are allocated and have bytes
    left, and no two are for the same descriptor. -/
def ListOk (s : State) : Prop := s.lost = false ∧ ∃ l, Chain s.heap s.first l

/-- A call leaves the nodes of all other descriptors as they are. -/
def OthersKept (s : State) (c : Call) (s' : State) : Prop :=
  ∀ l l', Chain s.heap s.first l → Chain s'.heap s'.first l' →
    others s'.heap c.fd l' = others s.heap c.fd l

/-- The calls that do no harm. For a descriptor that has a node, the copying
    loop is served from it. For one that has none, it is served from what the
    first `read` returns, and does not use it up unless the list is empty. -/
structure Sound (s : State) (c : Call) : Prop where
  found : ∀ a node, s.heap a = some node → node.fd = c.fd → Served c.n node (s.input c.fd) 0
  made : (∀ a node, s.heap a = some node → node.fd ≠ c.fd) →
    ∀ chunk input, firstRead (s.input c.fd) = (some chunk, input) →
      Served c.n (newNode s c chunk) input 0 ∧
        (Drained c.n (newNode s c chunk) input 0 → s.first = none)

/-- The list is right and has all nodes there are. -/
def ListInv (s : State) : Prop :=
  s.lost = false ∧ ∃ l, Chain s.heap s.first l ∧ ∀ a, s.heap a ≠ none → a ∈ l

theorem listInv_initial (input : Int → List ReadResult) : ListInv (initial input) :=
  ⟨rfl, [], ⟨rfl, fun _ h => absurd h List.not_mem_nil, List.nodup_nil⟩,
    fun _ h => absurd rfl h⟩

/-! ### The outcome of a call -/

/-- The outcome of a call for a descriptor without a node. -/
def made (s : State) (c : Call) (pre : Option Addr) : Option State :=
  match firstRead (s.input c.fd) with
  | (none, input) => some (returned s c input [] (-1))
  | (some chunk, input) => finish (created s c chunk) c pre c.addr (newNode s c chunk) input

section Outcome

variable (s : State) (c : Call) (s' : State) (hs : Step s c s')
include hs

/-- When a call has one outcome `F` for every bound with which its search ends,
    it comes to that, or it never returns. -/
theorem step_outcome (l : List Addr) (h : Chain s.heap s.first l) (F : Option State)
    (hF : ∀ fuel, search s.heap c.fd fuel none s.first = some (target s.heap c.fd none l) →
      readLine fuel s c = F) : F = some s' ∨ (F = none ∧ s' = { s with lost := true }) := by
  have hnode : ∀ b ∈ l, s.heap b ≠ none := by
    intro b hb
    rcases h.node b hb with ⟨n, hn, _⟩
    rw [hn]
    exact nofun
  have hsearch := fun fuel =>
    search_target s.heap c.fd l fuel none s.first h.linked hnode
  rcases hs.2 with ⟨fuel, hrun⟩ | ⟨hnone, hlost⟩
  · rcases (hsearch fuel).1 with hf | hf
    · -- A search that does not end gives no result.
      simp only [readLine, hf, reduceCtorEq] at hrun
    · exact Or.inl ((hF fuel hf).symm.trans hrun)
  · have hf := (hsearch (l.length + 1)).2 (Nat.lt_succ_self _)
    exact Or.inr ⟨(hF _ hf).symm.trans (hnone _), hlost⟩

/-- A call for a descriptor that has a node. -/
theorem step_found (u v : List Addr) (a : Addr) (node : BufNode)
    (h : Chain s.heap s.first (u ++ a :: v)) (ha : s.heap a = some node) (hfd : node.fd = c.fd) :
    finish s c u.getLast? a node (s.input c.fd) = some s' ∨
      (finish s c u.getLast? a node (s.input c.fd) = none ∧ s' = { s with lost := true }) := by
  have hafd : fdOf s.heap a = some c.fd := by rw [fdOf_some s.heap a node ha, hfd]
  have htarget := target_found s.heap c.fd u v a none
    (fun b hb => hafd ▸ fd_before s.heap s.first u v a h b hb) hafd
  refine step_outcome s c s' hs _ h _ (fun fuel hf => ?_)
  rw [htarget, Option.or_none] at hf
  simp only [readLine, hf, ha]

/-- A call for a descriptor that has none. -/
theorem step_made (l : List Addr) (h : Chain s.heap s.first l)
    (hfd : ∀ a ∈ l, fdOf s.heap a ≠ some c.fd) :
    made s c l.getLast? = some s' ∨
      (made s c l.getLast? = none ∧ s' = { s with lost := true }) := by
  refine step_outcome s c s' hs l h _ (fun fuel hf => ?_)
  rw [target_absent s.heap c.fd l none hfd, Option.or_none] at hf
  simp only [readLine, hf]
  rfl

end Outcome

/-- A call goes wrong in its copying loop only, and when that is not served. -/
theorem finish_eq_none_iff (s : State) (c : Call) (pre : Option Addr) (a : Addr)
    (node : BufNode) (input : List ReadResult) :
    finish s c pre a node input = none ↔ ¬ Served c.n node input 0 := by
  refine Iff.trans ?_ (copy_eq_none_iff c.n node input [])
  unfold finish
  rcases copy c.n (some node) input [] with _ | ⟨_ | node', input', stored⟩
  · exact ⟨fun _ => rfl, fun _ => rfl⟩
  · exact ⟨nofun, nofun⟩
  · exact ⟨nofun, nofun⟩

/-! ### What the loop leaves of the list -/

/-- The list after a call, with the nodes of other descriptors as in `l`
    before. -/
def Good (heap : Addr → Option BufNode) (fd : Int) (l : List Addr) (s' : State) : Prop :=
  s'.lost = false ∧ ∃ l', Chain s'.heap s'.first l' ∧ (∀ a, s'.heap a ≠ none → a ∈ l') ∧
    others s'.heap fd l' = others heap fd l

section Finish

variable (s : State) (c : Call) (a : Addr) (node : BufNode) (input : List ReadResult)
  (hok : s.lost = false) (ha : s.heap a = some node) (hfd : node.fd = c.fd)
include hok ha hfd

/-- When the node stays, only its contents change. -/
theorem good_of_kept (l : List Addr) (pre : Option Addr) (h : Chain s.heap s.first l)
    (hall : ∀ b, s.heap b ≠ none → b ∈ l) (hb : Buffered node) (node' : BufNode)
    (input' : List ReadResult) (stored : List UInt8)
    (hcopy : copy c.n (some node) input [] = some (some node', input', stored)) (s' : State)
    (hs : finish s c pre a node input = some s') : Good s.heap c.fd l s' := by
  rcases copy_kept c.n node input [] node' input' stored hb hcopy with ⟨hfd', hnext, hb'⟩
  simp only [finish, hcopy, Option.some.injEq] at hs
  rw [← hs]
  refine ⟨hok, l, chain_keep s.heap s.first l a node node' h ha hfd' hnext hb', fun b hnb => ?_, ?_⟩
  · by_cases hba : b = a
    · refine hall b ?_
      rw [hba, ha]
      exact nofun
    · exact hall b (by simpa only [returned, Function.update_of_ne hba] using hnb)
  · refine others_congr _ _ _ _ (fun b _ => ?_) (fun b _ hne => ?_)
    · by_cases hba : b = a
      · simp only [returned, fdOf, hba, Function.update_self, ha, Option.map_some, hfd']
      · simp only [returned, fdOf, Function.update_of_ne hba]
    · have hba : b ≠ a := by
        intro hba
        rw [hba, fdOf_some s.heap a node ha, hfd] at hne
        exact hne rfl
      simp only [returned, contentOf, Function.update_of_ne hba]

/-- When the node is freed, it is taken out, if the predecessor is right. -/
theorem good_of_freed (u v : List Addr) (h : Chain s.heap s.first (u ++ a :: v))
    (hall : ∀ b, s.heap b ≠ none → b ∈ u ++ a :: v) (input' : List ReadResult)
    (stored : List UInt8) (hcopy : copy c.n (some node) input [] = some (none, input', stored))
    (s' : State) (hs : finish s c u.getLast? a node input = some s') :
    Good s.heap c.fd (u ++ a :: v) s' := by
  simp only [finish, hcopy, Option.some.injEq] at hs
  rw [← hs]
  have hok' : (setNext s u.getLast? node.next).lost = false := by
    cases u.getLast? with
    | none => exact hok
    | some p => exact hok
  have hcontent : ∀ b, b ≠ a →
      contentOf (Function.update (setNext s u.getLast? node.next).heap a none) b
        = contentOf s.heap b := by
    intro b hba
    rw [contentOf, Function.update_of_ne hba, ← contentOf, contentOf_setNext]
  have hout : ∀ b ∈ u ++ v, b ≠ a := by
    intro b hb hba
    have hnodup := List.nodup_middle.mp (linked_nodup _ _ _ h.linked)
    exact (List.nodup_cons.mp hnodup).1 (hba ▸ hb)
  refine ⟨hok', u ++ v, chain_remove s u v a node h ha, fun b hnb => ?_, ?_⟩
  · have hba : b ≠ a := by
      intro hba
      simp only [returned, hba, Function.update_self, ne_eq, not_true_eq_false] at hnb
    have hnb' : s.heap b ≠ none := by
      intro hnone
      have hc := hcontent b hba
      rw [contentOf, contentOf, hnone, Option.map_none] at hc
      exact hnb (Option.map_eq_none_iff.mp hc)
    rcases List.mem_append.mp (hall b hnb') with hb | hb
    · exact List.mem_append_left _ hb
    · exact List.mem_append_right _ ((List.mem_cons.mp hb).resolve_left hba)
  · rw [others_skip s.heap c.fd u v a (by rw [fdOf_some s.heap a node ha, hfd])]
    exact others_congr _ _ _ _ (fun b hb => fdOf_of_content _ _ b (hcontent b (hout b hb)))
      (fun b hb _ => hcontent b (hout b hb))

/-- The list after a call that has gone through with the right predecessor. -/
theorem good_of_finish (u v : List Addr) (h : Chain s.heap s.first (u ++ a :: v))
    (hall : ∀ b, s.heap b ≠ none → b ∈ u ++ a :: v) (s' : State)
    (hs : finish s c u.getLast? a node input = some s') : Good s.heap c.fd (u ++ a :: v) s' := by
  cases hcopy : copy c.n (some node) input [] with
  | none => simp only [finish, hcopy, reduceCtorEq] at hs
  | some r =>
      rcases r with ⟨_ | node', input', stored⟩
      · exact good_of_freed s c a node input hok ha hfd u v h hall input' stored hcopy s' hs
      · rcases h.node a (List.mem_append_right _ List.mem_cons_self) with ⟨n, hn, hb⟩
        rw [ha, Option.some.injEq] at hn
        exact good_of_kept s c a node input hok ha hfd _ _ h hall (hn ▸ hb) node' input' stored
          hcopy s' hs

end Finish

theorem buffered_newNode (s : State) (c : Call) (chunk : Chunk) : Buffered (newNode s c chunk) :=
  ⟨List.length_pos_iff.mpr chunk.ne_nil, chunk.length_le⟩

section Made

variable (s : State) (c : Call) (l : List Addr) (hok : s.lost = false)
  (h : Chain s.heap s.first l) (hall : ∀ b, s.heap b ≠ none → b ∈ l) (hfree : s.heap c.addr = none)
  (hfd : ∀ a ∈ l, fdOf s.heap a ≠ some c.fd) (chunk : Chunk)
include h hfree

/-- The node made is not one of the list. -/
theorem addr_not_mem : c.addr ∉ l := by
  intro hmem
  rcases h.node c.addr hmem with ⟨n, hn, _⟩
  rw [hfree] at hn
  exact nomatch hn

include hfd in
theorem chain_created :
    Chain (created s c chunk).heap (created s c chunk).first (c.addr :: l) :=
  chain_cons s.heap s.first l c.addr (newNode s c chunk) h hfree rfl (buffered_newNode s c chunk)
    hfd

theorem others_created :
    others (created s c chunk).heap c.fd (c.addr :: l) = others s.heap c.fd l := by
  have hnew : fdOf (created s c chunk).heap c.addr = some c.fd :=
    fdOf_some _ _ (newNode s c chunk) (Function.update_self _ _ _)
  have hsame : ∀ b ∈ l, (created s c chunk).heap b = s.heap b := by
    intro b hb
    have hba : b ≠ c.addr := fun hba => addr_not_mem s c l h hfree (hba ▸ hb)
    simp only [created, Function.update_of_ne hba]
  rw [← List.nil_append (c.addr :: l), others_skip _ _ _ _ _ hnew, List.nil_append]
  exact others_congr _ _ _ _ (fun b hb => by rw [fdOf, fdOf, hsame b hb])
    (fun b hb _ => by rw [contentOf, contentOf, hsame b hb])

include hok hall hfd in
/-- The list after a call that has made its node, and has not freed it unless
    it was the only one. -/
theorem good_of_made (input : List ReadResult)
    (hdrained : Drained c.n (newNode s c chunk) input 0 → s.first = none) (s' : State)
    (hs : finish (created s c chunk) c l.getLast? c.addr (newNode s c chunk) input = some s') :
    Good s.heap c.fd l s' := by
  have hchain := chain_created s c l h hfree hfd chunk
  have hnew : (created s c chunk).heap c.addr = some (newNode s c chunk) :=
    Function.update_self _ _ _
  have hall' : ∀ b, (created s c chunk).heap b ≠ none → b ∈ c.addr :: l := by
    intro b hb
    by_cases hba : b = c.addr
    · rw [hba]
      exact List.mem_cons_self
    · simp only [created, Function.update_of_ne hba] at hb
      exact List.mem_cons_of_mem _ (hall b hb)
  have hgood : Good (created s c chunk).heap c.fd (c.addr :: l) s' := by
    cases hcopy : copy c.n (some (newNode s c chunk)) input [] with
    | none => simp only [finish, hcopy, reduceCtorEq] at hs
    | some r =>
        rcases r with ⟨_ | node', input', stored⟩
        · -- The list was empty, so the header is the predecessor after all.
          have hnil : l = [] := by
            have hdr := (copy_freed_iff c.n _ input [] none input' stored hcopy).mp rfl
            have hlinked := h.linked
            rw [hdrained hdr] at hlinked
            exact linked_unique _ none l [] hlinked rfl
          rw [hnil] at hchain hall' hs ⊢
          exact good_of_freed (created s c chunk) c c.addr _ input hok hnew rfl [] [] hchain hall'
            input' stored hcopy s' hs
        · exact good_of_kept (created s c chunk) c c.addr _ input hok hnew rfl _ _ hchain hall'
            (buffered_newNode s c chunk) node' input' stored hcopy s' hs
  rcases hgood with ⟨hok', l', hl', hall'', hothers⟩
  exact ⟨hok', l', hl', hall'', hothers.trans (others_created s c l h hfree chunk)⟩

end Made

/-! ### One call -/

/-- The node of a descriptor, if it has one. -/
theorem listInv_split (s : State) (fd : Int) (h : ListInv s) :
    (∃ u v a node, Chain s.heap s.first (u ++ a :: v) ∧
        (∀ b, s.heap b ≠ none → b ∈ u ++ a :: v) ∧ s.heap a = some node ∧ node.fd = fd) ∨
      ∃ l, Chain s.heap s.first l ∧ (∀ b, s.heap b ≠ none → b ∈ l) ∧
        ∀ a ∈ l, fdOf s.heap a ≠ some fd := by
  rcases h.2 with ⟨l, hl, hall⟩
  by_cases hex : ∃ a ∈ l, fdOf s.heap a = some fd
  · rcases hex with ⟨a, hmem, hfd⟩
    rcases hl.node a hmem with ⟨node, hn, _⟩
    rw [fdOf_some s.heap a node hn, Option.some.injEq] at hfd
    rcases List.append_of_mem hmem with ⟨u, v, huv⟩
    exact Or.inl ⟨u, v, a, node, huv ▸ hl, huv ▸ hall, hn, hfd⟩
  · exact Or.inr ⟨l, hl, hall, fun a ha hfd => hex ⟨a, ha, hfd⟩⟩

theorem listInv_of_good (s : State) (c : Call) (l : List Addr) (s' : State)
    (h : Chain s.heap s.first l) (hgood : Good s.heap c.fd l s') :
    ListInv s' ∧ OthersKept s c s' := by
  rcases hgood with ⟨hok, l', hl', hall, hothers⟩
  refine ⟨⟨hok, l', hl', hall⟩, fun k k' hk hk' => ?_⟩
  rw [linked_unique _ _ k l hk.linked h.linked, linked_unique _ _ k' l' hk'.linked hl'.linked]
  exact hothers

theorem absent_of_fds (s : State) (fd : Int) (l : List Addr)
    (hall : ∀ b, s.heap b ≠ none → b ∈ l) (hfd : ∀ a ∈ l, fdOf s.heap a ≠ some fd) (a : Addr)
    (node : BufNode) (ha : s.heap a = some node) : node.fd ≠ fd := by
  intro heq
  refine hfd a (hall a ?_) (by rw [fdOf_some s.heap a node ha, heq])
  rw [ha]
  exact nofun

/-- A sound call keeps the list. -/
theorem listInv_of_sound (s : State) (c : Call) (s' : State) (hinv : ListInv s)
    (hsound : Sound s c) (hs : Step s c s') : ListInv s' ∧ OthersKept s c s' := by
  rcases listInv_split s c.fd hinv with ⟨u, v, a, node, h, hall, ha, hfd⟩ | ⟨l, h, hall, hfd⟩
  · rcases step_found s c s' hs u v a node h ha hfd with hrun | ⟨hnone, _⟩
    · exact listInv_of_good s c _ s' h
        (good_of_finish s c a node _ hinv.1 ha hfd u v h hall s' hrun)
    · exact absurd (hsound.found a node ha hfd) ((finish_eq_none_iff s c _ a node _).mp hnone)
  · have hout := step_made s c s' hs l h hfd
    unfold made at hout
    rcases hread : firstRead (s.input c.fd) with ⟨_ | chunk, input⟩
    · -- Nothing could be read, and the list is as it was.
      simp only [hread, Option.some.injEq, reduceCtorEq, false_and, or_false] at hout
      rw [← hout]
      exact listInv_of_good s c l _ h ⟨hinv.1, l, h, hall, rfl⟩
    · rcases hsound.made (absent_of_fds s c.fd l hall hfd) chunk input hread with
        ⟨hserved, hdrained⟩
      simp only [hread] at hout
      rcases hout with hrun | ⟨hnone, _⟩
      · exact listInv_of_good s c l s' h
          (good_of_made s c l hinv.1 h hall hs.1.2 hfd chunk input hdrained s' hrun)
      · exact absurd hserved ((finish_eq_none_iff _ c _ _ _ _).mp hnone)

/-- A list that begins with a node that has been freed. -/
theorem not_listOk_of_first (s : State) (a : Addr) (hfirst : s.first = some a)
    (hfree : s.heap a = none) : ¬ ListOk s := by
  rintro ⟨_, l, hl⟩
  cases l with
  | nil => exact nomatch hfirst.symm.trans hl.linked
  | cons b l =>
      have hab : a = b := Option.some.inj (hfirst.symm.trans hl.linked.1)
      rcases hl.node b List.mem_cons_self with ⟨n, hn, _⟩
      rw [← hab, hfree] at hn
      exact nomatch hn

/-- A node made in front of others and freed in the same call is still the
    first one. -/
theorem not_listOk_of_drained (s : State) (c : Call) (l : List Addr)
    (h : Chain s.heap s.first l) (chunk : Chunk) (input : List ReadResult) (hne : s.first ≠ none)
    (hdrained : Drained c.n (newNode s c chunk) input 0) (s' : State)
    (hs : finish (created s c chunk) c l.getLast? c.addr (newNode s c chunk) input = some s') :
    ¬ ListOk s' := by
  rcases List.eq_nil_or_concat' l with rfl | ⟨w, p, rfl⟩
  · exact absurd h.linked hne
  rw [List.getLast?_concat] at hs
  cases hcopy : copy c.n (some (newNode s c chunk)) input [] with
  | none => simp only [finish, hcopy, reduceCtorEq] at hs
  | some r =>
      rcases r with ⟨buf, input', stored⟩
      have hbuf := (copy_freed_iff c.n _ input [] buf input' stored hcopy).mpr hdrained
      simp only [finish, hcopy, hbuf, Option.some.injEq] at hs
      rw [← hs]
      exact not_listOk_of_first _ c.addr rfl (Function.update_self _ _ _)

/-- Any other call leaves a list that is broken, or no list at all. -/
theorem not_listOk_of_unsound (s : State) (c : Call) (s' : State) (hinv : ListInv s)
    (hunsound : ¬ Sound s c) (hs : Step s c s') : ¬ ListOk s' := by
  rcases listInv_split s c.fd hinv with ⟨u, v, a, node, h, hall, ha, hfd⟩ | ⟨l, h, hall, hfd⟩
  · have hserved : ¬ Served c.n node (s.input c.fd) 0 := by
      intro hserved
      refine hunsound ⟨fun b node' hb hfd' => ?_, fun hnot => absurd hfd (hnot a node ha)⟩
      -- The descriptor has no other node.
      have hba : b = a := by
        refine List.inj_on_of_nodup_map h.fds (hall b ?_)
          (List.mem_append_right _ List.mem_cons_self) ?_
        · rw [hb]
          exact nofun
        · rw [fdOf_some s.heap b node' hb, fdOf_some s.heap a node ha, hfd, hfd']
      rw [hba, ha, Option.some.injEq] at hb
      exact hb ▸ hserved
    have hnone := (finish_eq_none_iff s c u.getLast? a node _).mpr hserved
    rcases step_found s c s' hs u v a node h ha hfd with hrun | ⟨_, hlost⟩
    · exact nomatch hnone.symm.trans hrun
    · exact fun hok => nomatch hok.1.symm.trans (congrArg State.lost hlost)
  · have habsent := absent_of_fds s c.fd l hall hfd
    have hout := step_made s c s' hs l h hfd
    unfold made at hout
    rcases hread : firstRead (s.input c.fd) with ⟨_ | chunk, input⟩
    · -- Nothing could be read, which does no harm.
      refine absurd ⟨fun a node ha heq => ?_, fun _ chunk input hr => ?_⟩ hunsound
      · exact absurd heq (habsent a node ha)
      · rw [hread] at hr
        exact nomatch (Prod.mk.inj hr).1
    · simp only [hread] at hout
      rcases hout with hrun | ⟨_, hlost⟩
      · by_cases hbad : Drained c.n (newNode s c chunk) input 0 ∧ s.first ≠ none
        · exact not_listOk_of_drained s c l h chunk input hbad.2 hbad.1 s' hrun
        refine absurd ⟨fun a node ha heq => ?_, fun _ chunk' input' hr => ?_⟩ hunsound
        · exact absurd heq (habsent a node ha)
        · rw [hread] at hr
          rcases Prod.mk.inj hr with ⟨hc, hi⟩
          rw [← Option.some.inj hc, ← hi]
          refine ⟨?_, fun hdr => by_contra (fun hne => hbad ⟨hdr, hne⟩)⟩
          by_contra hserved
          exact nomatch ((finish_eq_none_iff _ c _ _ _ _).mpr hserved).symm.trans hrun
      · exact fun hok => nomatch hok.1.symm.trans (congrArg State.lost hlost)

/-! ### Whole runs -/

/-- The list is right after every call, and every call leaves the nodes of
    other descriptors alone, exactly when all calls are sound. -/
theorem list_ok_iff_sound (input : Int → List ReadResult) (tr : List (Call × State))
    (hrun : AllSteps Step (initial input) tr) :
    (Always ListOk (initial input) tr ∧ AllSteps OthersKept (initial input) tr) ↔
      StepsMeet Sound (initial input) tr := by
  have hstep : ∀ s c s', ListInv s → Sound s c → Step s c s' → ListInv s' :=
    fun s c s' hinv hsound hs => (listInv_of_sound s c s' hinv hsound hs).1
  have hiff := always_iff_allSteps hstep not_listOk_of_unsound
    (fun s hinv => ⟨hinv.1, hinv.2.imp (fun _ h => h.1)⟩) _ tr (listInv_initial input) hrun
  refine ⟨fun h => hiff.mp h.1, fun hsound => ⟨hiff.mpr hsound, ?_⟩⟩
  exact allSteps_of_always (fun s c s' hi hq => (listInv_of_sound s c s' hi hq.1 hq.2).2) _ tr
    (always_of_guarded hstep _ tr (listInv_initial input) hrun hsound)
    (allSteps_and _ tr hsound hrun)

/-- Where a call leads that returns, with a bound on its search. -/
def after (fuel : Nat) (s : State) (c : Call) : State := (readLine fuel s c).getD s

/-- Calls that return make a run. -/
theorem allSteps_after (fuel : Nat) (s : State) (calls : List Call)
    (h : StepsMeet (fun s c => Enabled s c ∧ readLine fuel s c ≠ none) s
      (record (after fuel) s calls)) : AllSteps Step s (record (after fuel) s calls) := by
  refine allSteps_mono (fun s c s' hs => ?_) _ _ (allSteps_record _ (after fuel) s calls h)
  rcases Option.ne_none_iff_exists'.mp hs.1.2 with ⟨t, ht⟩
  refine ⟨hs.1.1, Or.inl ⟨fuel, ?_⟩⟩
  rw [hs.2, after, ht, Option.getD_some]

/-- What a `read` returns when it returns these bytes. -/
def dataOf (b : UInt8) (bytes : List UInt8) (h : (b :: bytes).length ≤ bufSize) : ReadResult :=
  .data ⟨b :: bytes, nofun, h⟩

/-- One descriptor is read to its end, with a call for another in between. -/
def twoDescriptors : List Call :=
  [⟨3, 2, 1, fun _ => 0⟩, ⟨4, 1, 2, fun _ => 0⟩, ⟨3, 3, 3, fun _ => 0⟩]

def twoDescriptorsInput (fd : Int) : List ReadResult :=
  if fd = 3 then [dataOf 97 [98, 99] (by decide), .eof]
  else [.intr, dataOf 100 [101] (by decide)]

/-- The calls are sound, and the node that is taken out is the last one. -/
theorem list_ok_iff_sound_twoDescriptors :
    Always ListOk (initial twoDescriptorsInput)
        (record (after 3) (initial twoDescriptorsInput) twoDescriptors) ∧
      AllSteps OthersKept (initial twoDescriptorsInput)
        (record (after 3) (initial twoDescriptorsInput) twoDescriptors) := by
  refine (list_ok_iff_sound twoDescriptorsInput _ (allSteps_after 3 _ _ ?_)).mpr ?_
  · exact ⟨⟨⟨rfl, rfl⟩, nofun⟩, ⟨⟨rfl, rfl⟩, nofun⟩, ⟨⟨rfl, rfl⟩, nofun⟩, trivial⟩
  refine ⟨⟨nofun, fun _ chunk input hr => ?_⟩,
    ⟨fun a node ha hfd => ?_, fun _ chunk input hr => ?_⟩,
    ⟨fun a node ha hfd => ?_, fun hnot => absurd rfl (hnot 1 _ rfl)⟩, trivial⟩
  · rcases Prod.mk.inj hr with ⟨hc, hi⟩
    rw [← Option.some.inj hc, ← hi]
    exact ⟨.limit _ _ _ _ (by decide) (by decide), fun _ => rfl⟩
  · -- The only node is at address 1, for the other descriptor.
    rcases a with _ | _ | a
    · exact nomatch ha
    · rw [← Option.some.inj ha] at hfd
      exact nomatch hfd
    · exact nomatch ha
  · rcases Prod.mk.inj hr with ⟨hc, hi⟩
    rw [← Option.some.inj hc, ← hi]
    refine ⟨.limit _ _ _ _ (by decide) (by decide), fun hdrained => ?_⟩
    -- The second byte is left.
    rcases (drained_succ _ _ _ _).mp hdrained with hnone | ⟨-, node', -, hrest⟩
    · exact nomatch hnone
    · exact absurd hrest (not_drained_zero node' _ _)
  · rcases a with _ | _ | _ | a
    · exact nomatch ha
    · -- The last byte is looked at, and nothing follows it.
      rw [← Option.some.inj ha]
      exact .limit _ _ _ _ (by decide) (by decide)
    · rw [← Option.some.inj ha] at hfd
      exact nomatch hfd
    · exact nomatch ha

/-- A line is read from one descriptor, with more to come, and then all of
    another. -/
def secondDescriptor : List Call := [⟨3, 10, 1, fun _ => 0⟩, ⟨4, 10, 2, fun _ => 0⟩]

def secondDescriptorInput (fd : Int) : List ReadResult :=
  if fd = 3 then [dataOf 120 [10, 121] (by decide)] else [dataOf 122 [10] (by decide), .eof]

/-- The list then begins with a node that has been freed. -/
theorem secondDescriptor_breaks :
    AllSteps Step (initial secondDescriptorInput)
        (record (after 2) (initial secondDescriptorInput) secondDescriptor) ∧
      ¬ Always ListOk (initial secondDescriptorInput)
        (record (after 2) (initial secondDescriptorInput) secondDescriptor) := by
  refine ⟨allSteps_after 2 _ _ ?_, fun h => ?_⟩
  · exact ⟨⟨⟨rfl, rfl⟩, nofun⟩, ⟨⟨rfl, rfl⟩, nofun⟩, trivial⟩
  · exact not_listOk_of_first _ 2 rfl rfl (always_last _ _ h)

end ReadLine

end TlpiPractice
