import TlpiPractice.Core.ChatBroadcast
import TlpiPractice.Library.LinkedList

/-!
# A Broadcast to Clients That May Fail

Handling one text sends it once to every client, in the order of the list,
and takes exactly those clients out that the send timed out for.

The list is edited while it is walked. What makes this safe is that `p` is
always the last node that the walk has kept: the header at first, and then
each client whose send succeeded. A timeout changes the link of `p` and the
node after it, so what lies before `p` keeps its nodes and what comes after
keeps its order, however many timeouts follow one another. `Cut` says where
the walk is, and each kind of round leads from one cut to the next.

The invariant is stated over the clients together with the addresses of
their nodes. The clients whose send timed out are then a sublist of the
original, picked by the number of the call.

`Core.Chat` steps through the same loop with the list cut in two. The last
section shows that the rounds here are steps there, which is what the results
on whole runs of the chat are about.

## Main definitions

* `links`: The links of the nodes in memory.
* `Registry`: The nodes from the header on hold these clients.
* `Cut`: The walk has kept some clients and has others to reach.
* `survivors`, `timedOut`: The clients whose send succeeded, and the others.
* `Handled`: What has become of memory, the queues and the calls.
* `Refines`: The state of the loop, seen with the list cut in two.

## Theorems

* `cut_advance`: Moving on keeps the list.
* `cut_drop`: A timeout takes one client out.
* `round_done`, `round_sent`, `round_eintr`, `round_error`: What each kind of
  round does.
* `handled_sent`, `handled_eintr`: One client in front of the others.
* `broadcast_handles`: The loop returns and has done what it should.
* `refines_again`, `refines_ended`: Rounds are steps of the chat.
-/

namespace TlpiPractice

namespace ChatBroadcast

open Chat LinkedList

variable {α : Type}

/-- The links of the nodes in memory. -/
def links (mem : α → Option (Node α)) (a : α) : Option α := (mem a).bind Node.next

/-- The nodes from the header on hold these clients, at these addresses. -/
structure Registry (mem : α → Option (Node α)) (header : α) (cells : List (α × Client)) :
    Prop where
  linked : Linked (links mem) (some header) (header :: cells.map Prod.fst)
  /-- The header holds no client. -/
  dummy : mem header ≠ none
  stored : ∀ x ∈ cells, (mem x.1).map Node.toClient = some x.2

/-- The walk is at `p`: it has kept some clients and has others to reach. -/
structure Cut (mem : α → Option (Node α)) (header : α) (kept pending : List (α × Client))
    (p : α) : Prop where
  registry : Registry mem header (kept ++ pending)
  /-- The cursor is at the last node kept. -/
  cursor : ∃ pre, header :: kept.map Prod.fst = pre ++ [p]

/-- The clients whose send succeeds, where the first has the number `i`. -/
def survivors (K : Kernel) (i : Nat) (cells : List (α × Client)) : List (α × Client) :=
  ((cells.zipIdx i).filter (fun x => K.msgsnd x.2 = .sent)).map Prod.fst

/-- The clients whose send times out, where the first has the number `i`. -/
def timedOut (K : Kernel) (i : Nat) (cells : List (α × Client)) : List (α × Client) :=
  ((cells.zipIdx i).filter (fun x => K.msgsnd x.2 = .eintr)).map Prod.fst

section Numbers

variable (K : Kernel) (i : Nat) (x : α × Client) (cells : List (α × Client))

theorem survivors_sent (h : K.msgsnd i = .sent) :
    survivors K i (x :: cells) = x :: survivors K (i + 1) cells := by
  simp only [survivors, List.zipIdx_cons, List.filter_cons, h, decide_true, if_true,
    List.map_cons]

theorem timedOut_sent (h : K.msgsnd i = .sent) :
    timedOut K i (x :: cells) = timedOut K (i + 1) cells := by
  simp only [timedOut, List.zipIdx_cons, List.filter_cons, h, reduceCtorEq, decide_false,
    Bool.false_eq_true, if_false]

theorem survivors_eintr (h : K.msgsnd i = .eintr) :
    survivors K i (x :: cells) = survivors K (i + 1) cells := by
  simp only [survivors, List.zipIdx_cons, List.filter_cons, h, reduceCtorEq, decide_false,
    Bool.false_eq_true, if_false]

theorem timedOut_eintr (h : K.msgsnd i = .eintr) :
    timedOut K i (x :: cells) = x :: timedOut K (i + 1) cells := by
  simp only [timedOut, List.zipIdx_cons, List.filter_cons, h, decide_true, if_true,
    List.map_cons]

end Numbers

section Memory

theorem mem_removeQueue (K : Kernel) (s : Server α) (c : Client) :
    (s.removeQueue K c).mem = s.mem := by
  rw [Server.removeQueue]
  split <;> rfl

theorem calls_removeQueue (K : Kernel) (s : Server α) (c : Client) :
    (s.removeQueue K c).calls = s.calls ++ [.rmid c.msgid] := by
  rw [Server.removeQueue]
  split <;> rfl

/-- The queue is gone if it could be removed, and no other is. -/
theorem queues_removeQueue (K : Kernel) (s : Server α) (c : Client) (q : Nat) :
    (s.removeQueue K c).queues q = true ↔
      s.queues q = true ∧ ¬(K.mayRemove q = true ∧ c.msgid = q) := by
  rw [Server.removeQueue]
  by_cases hq : c.msgid = q
  · subst hq
    split
    case isTrue h =>
      simp only [Function.update_self, Bool.false_eq_true, false_iff, not_and, not_not, and_true]
      exact fun _ => h.2
    case isFalse h =>
      simp only [Server.call, and_true, iff_self_and]
      exact fun hopen hmay => h ⟨hopen, hmay⟩
  · have hne : q ≠ c.msgid := fun h => hq h.symm
    split <;> simp only [Server.call, Function.update_of_ne hne, hq, and_false, not_false_eq_true,
      and_true]

variable [DecidableEq α]

theorem links_setNext (s : Server α) (p : α) (q : Option α) (hp : s.mem p ≠ none) :
    links (s.setNext p q).mem = Function.update (links s.mem) p q := by
  rcases Option.ne_none_iff_exists'.mp hp with ⟨n, hn⟩
  -- Only the node at `p` has been written, and only its link.
  ext1 a
  by_cases ha : a = p
  · subst ha
    simp only [links, Server.setNext, Function.update_self, hn, Option.map_some, Option.bind_some]
  · simp only [links, Server.setNext, Function.update_of_ne ha]

theorem links_free (s : Server α) (a : α) :
    links (s.free a).mem = Function.update (links s.mem) a none := by
  ext1 b
  by_cases hb : b = a
  · subst hb
    simp only [links, Server.free, Function.update_self, Option.bind_none]
  · simp only [links, Server.free, Function.update_of_ne hb]

/-- Changing a link changes no client. -/
theorem client_setNext (s : Server α) (p : α) (q : Option α) (a : α) :
    ((s.setNext p q).mem a).map Node.toClient = (s.mem a).map Node.toClient := by
  by_cases ha : a = p
  · subst ha
    simp only [Server.setNext, Function.update_self, Option.map_map]
    rfl
  · simp only [Server.setNext, Function.update_of_ne ha]

end Memory

section Cut

variable (header p : α) (kept pending : List (α × Client)) (x : α × Client)

/-- The addresses in order, cut behind the cursor. -/
theorem addresses_eq (mem : α → Option (Node α)) (h : Cut mem header kept pending p) :
    ∃ pre, header :: kept.map Prod.fst = pre ++ [p] ∧
      header :: (kept ++ pending).map Prod.fst = pre ++ p :: pending.map Prod.fst := by
  rcases h.cursor with ⟨pre, hpre⟩
  refine ⟨pre, hpre, ?_⟩
  rw [List.map_append, ← List.cons_append, hpre, List.append_assoc, List.singleton_append]

/-- From the cursor on come the clients still to be reached. -/
theorem cut_linked (mem : α → Option (Node α)) (h : Cut mem header kept pending p) :
    Linked (links mem) (links mem p) (pending.map Prod.fst) := by
  rcases addresses_eq header p kept pending mem h with ⟨pre, -, hall⟩
  have hlinked := h.registry.linked
  rw [hall] at hlinked
  exact (linked_suffix _ _ pre p _ hlinked).2

theorem cut_stored (mem : α → Option (Node α)) (h : Cut mem header kept pending p) :
    mem p ≠ none := by
  rcases h.cursor with ⟨pre, hpre⟩
  have hmem : p ∈ header :: kept.map Prod.fst := by
    rw [hpre]
    exact List.mem_append_right _ List.mem_cons_self
  -- The cursor is the header, or a client that has been kept.
  rcases List.mem_cons.mp hmem with rfl | hp
  · exact h.registry.dummy
  · rcases List.mem_map.mp hp with ⟨y, hy, rfl⟩
    intro hnone
    have hstored := h.registry.stored y (List.mem_append_left _ hy)
    rw [hnone] at hstored
    exact nomatch hstored

/-- The next client's node. -/
theorem cut_next (mem : α → Option (Node α)) (h : Cut mem header kept (x :: pending) p) :
    ∃ at_p n, mem p = some at_p ∧ at_p.next = some x.1 ∧ mem x.1 = some n ∧
      n.toClient = x.2 := by
  rcases Option.ne_none_iff_exists'.mp (cut_stored header p kept _ mem h) with ⟨at_p, hp⟩
  have hstored := h.registry.stored x (List.mem_append_right _ List.mem_cons_self)
  rcases Option.map_eq_some_iff.mp hstored with ⟨n, hn, hclient⟩
  refine ⟨at_p, n, hp, ?_, hn, hclient⟩
  have hlinked := (cut_linked header p kept _ mem h).1
  rwa [links, hp, Option.bind_some] at hlinked

/-- No two nodes share an address. -/
theorem cut_fresh (mem : α → Option (Node α)) (h : Cut mem header kept (x :: pending) p) :
    x.1 ∉ header :: (kept ++ pending).map Prod.fst := by
  have hnodup := linked_nodup _ _ _ h.registry.linked
  rw [List.map_append, List.map_cons] at hnodup
  rw [List.map_append]
  exact (List.nodup_cons.mp
    ((@List.perm_middle _ x.1 (header :: kept.map Prod.fst) _).nodup_iff.mp hnodup)).1

/-- Moving on to a client keeps it. -/
theorem cut_advance (mem : α → Option (Node α)) (h : Cut mem header kept (x :: pending) p) :
    Cut mem header (kept ++ [x]) pending x.1 := by
  refine ⟨?_, header :: kept.map Prod.fst, ?_⟩
  · rw [List.append_assoc]
    exact h.registry
  · rw [List.map_append, List.map_singleton, List.cons_append]

variable [DecidableEq α]

theorem mem_drop (K : Kernel) (s : Server α) (tmp : α) (n : Node α) :
    (drop K s p tmp n).mem = ((s.setNext p n.next).free tmp).mem := by
  rw [drop, Server.free, mem_removeQueue]
  rfl

theorem drop_freed (K : Kernel) (s : Server α) (tmp : α) (n : Node α) :
    (drop K s p tmp n).mem tmp = none :=
  Function.update_self ..

/-- Every other node keeps its client. -/
theorem drop_client (K : Kernel) (s : Server α) (tmp : α) (n : Node α) (a : α) (ha : a ≠ tmp) :
    ((drop K s p tmp n).mem a).map Node.toClient = (s.mem a).map Node.toClient := by
  rw [mem_drop, ← client_setNext s p n.next a]
  exact congrArg _ (Function.update_of_ne ha ..)

/-- Nodes the cursor is not at keep their links as well. -/
theorem drop_of_ne (K : Kernel) (s : Server α) (tmp : α) (n : Node α) (a : α) (ha : a ≠ tmp)
    (hp : a ≠ p) : (drop K s p tmp n).mem a = s.mem a := by
  rw [mem_drop]
  exact (Function.update_of_ne ha ..).trans (Function.update_of_ne hp ..)

/-- A timeout takes the client behind the cursor out, and the cursor stays. -/
theorem cut_drop (K : Kernel) (s : Server α) (n : Node α)
    (h : Cut s.mem header kept (x :: pending) p) (hn : s.mem x.1 = some n) :
    Cut (drop K s p x.1 n).mem header kept pending p := by
  rcases addresses_eq header p kept _ s.mem h with ⟨pre, hpre, hall⟩
  have hlinked := h.registry.linked
  have hfresh := cut_fresh header p kept pending x s.mem h
  rw [hall] at hlinked
  have hrest : header :: (kept ++ pending).map Prod.fst = pre ++ p :: pending.map Prod.fst := by
    rw [List.map_append, ← List.cons_append, hpre, List.append_assoc, List.singleton_append]
  refine ⟨⟨?_, ?_, ?_⟩, pre, hpre⟩
  · have hnext : n.next = links s.mem x.1 := by rw [links, hn, Option.bind_some]
    -- The client is unlinked first, and freed when nothing links to it any more.
    rw [mem_drop, links_free, links_setNext s p _ (cut_stored header p kept _ s.mem h), hnext]
    refine linked_update _ _ _ _ _ hfresh ?_
    rw [hrest]
    exact linked_unlink _ _ pre p x.1 _ hlinked
  · have hne : header ≠ x.1 := fun heq => hfresh (heq ▸ List.mem_cons_self)
    have hclient := drop_client p K s x.1 n header hne
    intro hnone
    rw [hnone, Option.map_none] at hclient
    exact h.registry.dummy (Option.map_eq_none_iff.mp hclient.symm)
  · intro y hy
    have hne : y.1 ≠ x.1 := fun heq =>
      hfresh (heq ▸ List.mem_cons_of_mem _ (List.mem_map_of_mem hy))
    have hold : y ∈ kept ++ x :: pending := by
      rcases List.mem_append.mp hy with hk | hk
      · exact List.mem_append_left _ hk
      · exact List.mem_append_right _ (List.mem_cons_of_mem _ hk)
    rw [drop_client p K s x.1 n y.1 hne]
    exact h.registry.stored y hold

end Cut

section Rounds

variable (K : Kernel) (msg : ClientMsg) (len : Nat) (s : Server α) (header p : α)
variable (kept pending : List (α × Client)) (x : α × Client)

/-- The server after the two calls every round with a client begins with. -/
def attempted : Server α := (s.call (.alarm 2)).call (.msgsnd x.2.msgid msg len)

theorem sends_call (c : Call) : (s.call c).sends = s.sends ++ (Call.send c).toList := by
  rw [Server.sends, Server.call, List.filterMap_append]
  cases c <;> rfl

theorem removals_call (c : Call) :
    (s.call c).removals = s.removals ++ (Call.removal c).toList := by
  rw [Server.removals, Server.call, List.filterMap_append]
  cases c <;> rfl

theorem sends_attempted :
    (attempted msg len s x).sends = s.sends ++ [(x.2.msgid, msg, len)] := by
  rw [attempted, sends_call, sends_call]
  simp only [Call.send, Option.toList_none, Option.toList_some, List.append_nil]

theorem removals_attempted : (attempted msg len s x).removals = s.removals := by
  rw [attempted, removals_call, removals_call]
  simp only [Call.removal, Option.toList_none, List.append_nil]

variable [DecidableEq α]

theorem sends_drop (tmp : α) (n : Node α) : (drop K s p tmp n).sends = s.sends := by
  rw [drop, Server.sends, Server.free, calls_removeQueue, List.filterMap_append]
  exact List.append_nil _

theorem removals_drop (tmp : α) (n : Node α) :
    (drop K s p tmp n).removals = s.removals ++ [n.msgid] := by
  rw [drop, Server.removals, Server.free, calls_removeQueue, List.filterMap_append]
  rfl

/-- With nobody left to reach the loop ends. -/
theorem round_done (h : Cut s.mem header kept [] p) :
    round K msg len s p = .ended .returned s := by
  rcases Option.ne_none_iff_exists'.mp (cut_stored header p kept _ s.mem h) with ⟨at_p, hp⟩
  have hnext : at_p.next = none := by
    have hlinked := cut_linked header p kept _ s.mem h
    rwa [List.map_nil, Linked, links, hp, Option.bind_some] at hlinked
  simp only [round, hp, hnext]

/-- A send that succeeds moves the cursor on. -/
theorem round_sent (h : Cut s.mem header kept (x :: pending) p)
    (hK : K.msgsnd s.sends.length = .sent) :
    round K msg len s p = .again ((attempted msg len s x).call (.alarm 0)) x.1 := by
  rcases cut_next header p kept pending x s.mem h with ⟨at_p, n, hp, hnext, hn, hclient⟩
  simp only [round, hp, hnext, hn, hK, attempted, hclient]

/-- A send that times out takes the client out and leaves the cursor. -/
theorem round_eintr (h : Cut s.mem header kept (x :: pending) p)
    (hK : K.msgsnd s.sends.length = .eintr) :
    ∃ n, s.mem x.1 = some n ∧ n.toClient = x.2 ∧
      round K msg len s p = .again (drop K (attempted msg len s x) p x.1 n) p := by
  rcases cut_next header p kept pending x s.mem h with ⟨at_p, n, hp, hnext, hn, hclient⟩
  refine ⟨n, hn, hclient, ?_⟩
  simp only [round, hp, hnext, hn, hK, attempted, hclient]

/-- Any other failure ends the server. -/
theorem round_error (h : Cut s.mem header kept (x :: pending) p)
    (hK : K.msgsnd s.sends.length = .error) :
    round K msg len s p = .ended .exited (attempted msg len s x) := by
  rcases cut_next header p kept pending x s.mem h with ⟨at_p, n, hp, hnext, hn, hclient⟩
  simp only [round, hp, hnext, hn, hK, attempted, hclient]

end Rounds

/-- What has become of a server that had kept some clients and had others to
    reach. Each of these was sent to once; the queues and the nodes of those
    whose send timed out are gone, and nothing else has changed. -/
structure Handled (K : Kernel) (msg : ClientMsg) (len : Nat) (header : α)
    (kept pending : List (α × Client)) (s s' : Server α) : Prop where
  sends : s'.sends = s.sends ++ pending.map (fun x => (x.2.msgid, msg, len))
  removals : s'.removals =
    s.removals ++ (timedOut K s.sends.length pending).map (fun x => x.2.msgid)
  queues : ∀ q, s'.queues q = true ↔ s.queues q = true ∧
    ¬(K.mayRemove q = true ∧ ∃ x ∈ timedOut K s.sends.length pending, x.2.msgid = q)
  registry : Registry s'.mem header (kept ++ survivors K s.sends.length pending)
  freed : ∀ x ∈ timedOut K s.sends.length pending, s'.mem x.1 = none
  others : ∀ a ∉ header :: (kept ++ pending).map Prod.fst, s'.mem a = s.mem a

section Loop

variable (K : Kernel) (msg : ClientMsg) (len : Nat) (s s' : Server α) (header p : α)
variable (kept pending : List (α × Client)) (x : α × Client)

theorem length_sends_attempted :
    (attempted msg len s x).sends.length = s.sends.length + 1 := by
  rw [sends_attempted, List.length_append, List.length_singleton]

/-- A client whose send succeeded, put in front of what the loop does with
    the others. -/
theorem handled_sent (hres : K.msgsnd s.sends.length = .sent)
    (h : Handled K msg len header (kept ++ [x]) pending
      ((attempted msg len s x).call (.alarm 0)) s') :
    Handled K msg len header kept (x :: pending) s s' := by
  have hsends : ((attempted msg len s x).call (.alarm 0)).sends =
      (attempted msg len s x).sends := (sends_call _ _).trans (List.append_nil _)
  have hremovals : ((attempted msg len s x).call (.alarm 0)).removals = s.removals :=
    ((removals_call _ _).trans (List.append_nil _)).trans (removals_attempted msg len s x)
  have hout := timedOut_sent K s.sends.length x pending hres
  -- The rest of the loop starts with one send more, so its numbers begin one later.
  rcases h with ⟨h1, h2, h3, h4, h5, h6⟩
  rw [hsends, length_sends_attempted] at h2 h3 h4 h5
  rw [hsends, sends_attempted, List.append_assoc] at h1
  rw [hremovals] at h2
  rw [List.append_assoc, List.singleton_append] at h4 h6
  rw [← survivors_sent K _ x pending hres] at h4
  constructor
  · exact h1
  · rw [hout]
    exact h2
  · rw [hout]
    exact h3
  · exact h4
  · rw [hout]
    exact h5
  · exact h6

variable [DecidableEq α]

/-- A client whose send timed out, put in front of what the loop does with
    the others. Its node is freed, and the loop leaves it alone after that. -/
theorem handled_eintr (n : Node α) (hres : K.msgsnd s.sends.length = .eintr)
    (hcut : Cut s.mem header kept (x :: pending) p) (hclient : n.toClient = x.2)
    (h : Handled K msg len header kept pending (drop K (attempted msg len s x) p x.1 n) s') :
    Handled K msg len header kept (x :: pending) s s' := by
  have hout := timedOut_eintr K s.sends.length x pending hres
  have hmsgid : n.msgid = x.2.msgid := congrArg Client.msgid hclient
  have hfresh := cut_fresh header p kept pending x s.mem hcut
  rcases h with ⟨h1, h2, h3, h4, h5, h6⟩
  rw [sends_drop, length_sends_attempted] at h2 h3 h4 h5
  rw [sends_drop, sends_attempted, List.append_assoc] at h1
  rw [removals_drop, removals_attempted, List.append_assoc, hmsgid] at h2
  rw [← survivors_eintr K _ x pending hres] at h4
  constructor
  · exact h1
  · rw [hout]
    exact h2
  · -- A queue is gone if it was this client's, or that of one dropped later.
    intro q
    have hdrop := queues_removeQueue K ((attempted msg len s x).setNext p n.next) n.toClient q
    refine (h3 q).trans ((and_congr_left' hdrop).trans ?_)
    simp only [hout, and_assoc, List.mem_cons, exists_eq_or_imp, ← not_or, ← and_or_left, hmsgid]
    rfl
  · exact h4
  · rw [hout]
    intro y hy
    rcases List.mem_cons.mp hy with rfl | hy
    · exact (h6 _ hfresh).trans (drop_freed p K _ _ n)
    · exact h5 y hy
  · -- Besides the freed node only the one at the cursor has changed.
    intro a ha
    rcases addresses_eq header p kept _ s.mem hcut with ⟨pre, -, hall⟩
    have hx : a ≠ x.1 := by
      rintro rfl
      exact ha (List.mem_cons_of_mem _ (List.mem_map_of_mem
        (List.mem_append_right _ List.mem_cons_self)))
    have hp : a ≠ p := by
      rintro rfl
      rw [hall] at ha
      exact ha (List.mem_append_right _ List.mem_cons_self)
    rw [h6 a ?_, drop_of_ne p K _ _ n a hx hp]
    · rfl
    · intro hmem
      refine ha ?_
      rw [List.map_append] at hmem ⊢
      rw [List.map_cons]
      exact (@List.perm_middle _ x.1 (header :: kept.map Prod.fst) _).mem_iff.mpr
        (List.mem_cons_of_mem _ hmem)

/-- The loop from any cut on. The induction is on the clients to reach. -/
theorem broadcast_cut (hK : ∀ i, K.msgsnd i ≠ .error) (h : Cut s.mem header kept pending p) :
    ∃ s', Handled K msg len header kept pending s s' ∧
      ∀ fuel, pending.length < fuel →
        broadcast K msg len fuel s p = some (.returned, s') := by
  induction pending generalizing s kept p with
  | nil =>
      refine ⟨s, ⟨?_, ?_, ?_, h.registry, ?_, fun _ _ => rfl⟩, fun fuel hfuel => ?_⟩
      · exact (List.append_nil _).symm
      · exact (List.append_nil _).symm
      · exact fun q => ⟨fun hq => ⟨hq, fun hout => nomatch hout.2⟩, And.left⟩
      · exact fun x hx => nomatch hx
      · cases fuel with
        | zero => exact absurd hfuel (Nat.not_lt_zero _)
        | succ fuel => rw [broadcast, round_done K msg len s header p kept h]
  | cons x pending ih =>
      cases hres : K.msgsnd s.sends.length with
      | error => exact absurd hres (hK _)
      | sent =>
          -- The client joins those kept, and the cursor is at its node.
          rcases ih ((attempted msg len s x).call (.alarm 0)) x.1 (kept ++ [x])
            (cut_advance header p kept pending x s.mem h) with ⟨s', hdone, hrun⟩
          refine ⟨s', handled_sent K msg len s s' header kept pending x hres hdone, ?_⟩
          intro fuel hfuel
          cases fuel with
          | zero => exact absurd hfuel (Nat.not_lt_zero _)
          | succ fuel =>
              rw [broadcast, round_sent K msg len s header p kept pending x h hres]
              exact hrun fuel (Nat.lt_of_succ_lt_succ hfuel)
      | eintr =>
          -- The cursor stays, at a node that now links past the client.
          rcases round_eintr K msg len s header p kept pending x h hres
            with ⟨n, hn, hclient, hround⟩
          rcases ih (drop K (attempted msg len s x) p x.1 n) p kept
            (cut_drop header p kept pending x K (attempted msg len s x) n h hn)
            with ⟨s', hdone, hrun⟩
          refine ⟨s', handled_eintr K msg len s s' header p kept pending x n hres h hclient
            hdone, ?_⟩
          intro fuel hfuel
          cases fuel with
          | zero => exact absurd hfuel (Nat.not_lt_zero _)
          | succ fuel =>
              rw [broadcast, hround]
              exact hrun fuel (Nat.lt_of_succ_lt_succ hfuel)

/-- Handling a text, whatever the list and whichever sends time out. The loop
    returns; it has sent the text once to each client in the order of the
    list, and dropped exactly those whose send timed out. -/
theorem broadcast_handles (cells : List (α × Client)) (hreg : Registry s.mem header cells)
    (hK : ∀ i, K.msgsnd i ≠ .error) :
    ∃ s', Handled K msg len header [] cells s s' ∧
      ∃ n, ∀ fuel, n ≤ fuel → broadcast K msg len fuel s header = some (.returned, s') := by
  rcases broadcast_cut K msg len s header header [] cells hK ⟨hreg, [], rfl⟩
    with ⟨s', hdone, hrun⟩
  exact ⟨s', hdone, cells.length + 1, hrun⟩

end Loop

/-- Three clients behind a header at the address `0`. -/
def threeClients : Server Nat where
  mem := fun a =>
    match a with
    | 0 => some ⟨⟨0, 0⟩, some 1⟩
    | 1 => some ⟨⟨10, 100⟩, some 2⟩
    | 2 => some ⟨⟨20, 200⟩, some 3⟩
    | 3 => some ⟨⟨30, 300⟩, none⟩
    | _ => none
  queues := fun _ => true
  calls := []
  reported := []

/-- The first two sends time out. -/
def twoTimeouts : Kernel where
  msgsnd := fun i => if i < 2 then .eintr else .sent
  mayRemove := fun _ => true

theorem broadcast_handles_threeClients :
    ∃ s', Handled twoTimeouts (.text 10 [104, 105]) 6 0 []
        [(1, ⟨10, 100⟩), (2, ⟨20, 200⟩), (3, ⟨30, 300⟩)] threeClients s' ∧
      ∃ n, ∀ fuel, n ≤ fuel → broadcast twoTimeouts (.text 10 [104, 105]) 6 fuel threeClients 0 =
        some (.returned, s') := by
  refine broadcast_handles twoTimeouts (.text 10 [104, 105]) 6 threeClients 0 _ ⟨?_, ?_, ?_⟩ ?_
  · exact ⟨rfl, rfl, rfl, rfl, rfl⟩
  · exact Option.some_ne_none _
  · intro x hx
    simp only [List.mem_cons, List.not_mem_nil, or_false] at hx
    rcases hx with rfl | rfl | rfl <;> rfl
  · intro i
    simp only [twoTimeouts]
    split <;> exact nofun

section Refinement

variable {ι : Type}

/-- The list of the chat's state, cut where the loop is. -/
structure Refines (s : Server α) (header p : α) (σ : State ι) : Prop where
  cut : ∃ kept pending, Cut s.mem header kept pending p ∧ σ.kept = kept.map Prod.snd ∧
    σ.pending = pending.map Prod.snd
  queues : σ.isOpen = s.queues

variable [DecidableEq α] (K : Kernel) (msg : ClientMsg) (len : Nat)
variable (s s' : Server α) (header p p' : α) (σ : State ι)

/-- A round that ends the loop does so where the chat can. -/
theorem refines_ended (h : Refines s header p σ) (hmode : σ.mode = .broadcasting msg)
    (hopen : ∀ e rest, σ.pending = e :: rest →
      (K.msgsnd s.sends.length = .error ↔ σ.isOpen e.msgid = false))
    (e : Ending) (hround : round K msg len s p = .ended e s') :
    (e = .returned ∧ Enabled σ .finish) ∨ (e = .exited ∧ Enabled σ .sendFails) := by
  rcases h with ⟨⟨kept, pending, hcut, hkept, hpending⟩, -⟩
  cases pending with
  | nil =>
      cases (round_done K msg len s header p kept hcut).symm.trans hround
      exact .inl ⟨rfl, msg, hmode, hpending⟩
  | cons x pending =>
      cases hres : K.msgsnd s.sends.length with
      | error =>
          cases (round_error K msg len s header p kept pending x hcut hres).symm.trans hround
          have hclosed := (hopen x.2 _ hpending).mp hres
          exact .inr ⟨rfl, msg, x.2, _, hmode, hpending, hclosed⟩
      | sent =>
          exact nomatch
            (round_sent K msg len s header p kept pending x hcut hres).symm.trans hround
      | eintr =>
          rcases round_eintr K msg len s header p kept pending x hcut hres with ⟨_, _, _, heq⟩
          exact nomatch heq.symm.trans hround

variable [DecidableEq ι] (P : Procs ι)

/-- A round that goes on is a step of the chat, provided a send fails exactly
    when the queue is gone and every queue may be removed. -/
theorem refines_again (h : Refines s header p σ) (hmode : σ.mode = .broadcasting msg)
    (hopen : ∀ e rest, σ.pending = e :: rest →
      (K.msgsnd s.sends.length = .error ↔ σ.isOpen e.msgid = false))
    (hmay : ∀ q, K.mayRemove q = true) (hround : round K msg len s p = .again s' p') :
    ∃ e, Step P σ e (next P σ e) ∧ Refines s' header p' (next P σ e) ∧
      (next P σ e).mode = .broadcasting msg := by
  rcases h with ⟨⟨kept, pending, hcut, hkept, hpending⟩, hqueues⟩
  cases pending with
  | nil => exact nomatch (round_done K msg len s header p kept hcut).symm.trans hround
  | cons x pending =>
      have hq : K.msgsnd s.sends.length ≠ .error → σ.isOpen x.2.msgid = true := fun hne =>
        eq_true_of_ne_false (fun hclosed => hne ((hopen x.2 _ hpending).mpr hclosed))
      cases hres : K.msgsnd s.sends.length with
      | error =>
          exact nomatch
            (round_error K msg len s header p kept pending x hcut hres).symm.trans hround
      | sent =>
          have hsend := hq (hres ▸ nofun)
          cases (round_sent K msg len s header p kept pending x hcut hres).symm.trans hround
          refine ⟨.send, ⟨⟨msg, x.2, _, hmode, hpending, hsend⟩, rfl⟩, ?_⟩
          simp only [next, hmode, hpending, List.map_cons]
          refine ⟨⟨⟨kept ++ [x], pending, ?_, ?_, rfl⟩, hqueues⟩, trivial⟩
          · exact cut_advance header p kept pending x s.mem hcut
          · rw [List.map_append, hkept]
            rfl
      | eintr =>
          have hsend := hq (hres ▸ nofun)
          rcases round_eintr K msg len s header p kept pending x hcut hres
            with ⟨n, hn, hclient, heq⟩
          cases heq.symm.trans hround
          refine ⟨.timeout, ⟨⟨msg, x.2, _, hmode, hpending, hsend⟩, rfl⟩, ?_⟩
          simp only [next, hmode, hpending, List.map_cons]
          refine ⟨⟨⟨kept, pending, ?_, hkept, rfl⟩, ?_⟩, trivial⟩
          · exact cut_drop header p kept pending x K (attempted msg len s x) n hcut hn
          · rw [hqueues] at hsend ⊢
            rw [drop, Server.free, Server.removeQueue, hclient, if_pos ⟨hsend, hmay _⟩]
            rfl

end Refinement

end ChatBroadcast

end TlpiPractice
