import Mathlib.Data.List.Nodup
import Mathlib.Data.List.Perm.Basic
import TlpiPractice.Core.Chat

/-!
# The Server's List of Clients

What is true of the server's list in every run, whatever the clients do.

A client that has sent its LOGIN is announced: either its LOGIN is still in
the server's queue, or the server has an entry for it, or it has been dropped
again. `announced` collects the entries of the first two kinds, those that
the queue will lead to and those that exist. Each client logs in once and
queue identifiers are distinct, so no entry is announced twice, and that is
all the later arguments need to know about how the list came about.

The events fall into three groups. Most change only how far a client has got
and which queues exist. The sends append one message. The four steps of the
server move an entry, and `receive_spec` is where the order of `msgrcv` comes
in: whatever is received has the lowest type in the queue.

## Main definitions

* `ClientMsg.announces`: The entry a LOGIN will lead to.
* `announced`: The entries the queue will lead to, and those in the list.
* `RegistryInv`: No entry is announced twice, and each belongs to a client
  that has logged in.
* `numbered`: Clients with distinct pids.

## Theorems

* `announced_handle_login` and its siblings: What each step does to the
  entries announced.
* `receive_spec`: What a received message is, and what becomes of the queue.
* `registryInv_initial`: The invariant holds at the start.
* `registryInv_step`: Every step keeps the invariant.
* `registryInv_always`: The invariant holds throughout every run.
-/

namespace TlpiPractice

namespace Chat

open MsgQueue Runs

variable {ι : Type}

/-- The entry that receiving a message adds to the list, if it is a LOGIN. -/
def ClientMsg.announces : ClientMsg → Option Client
  | .login pid msgid => some ⟨pid, msgid⟩
  | .logout _ => none
  | .text _ _ => none

/-- The entries the queue will lead to, and those already in the list. -/
def announced (s : State ι) : List Client :=
  s.queue.filterMap ClientMsg.announces ++ (s.kept ++ s.pending)

/-- The invariant of the server's list. -/
structure RegistryInv (P : Procs ι) (s : State ι) : Prop where
  nodup : (announced s).Nodup
  joined : ∀ e ∈ announced s, ∃ c, e = P.entry c ∧ s.joinedAt c ≠ none
  fresh : ∀ c, s.phase c = .absent ∨ s.phase c = .started → s.joinedAt c = none
  idle : s.mode = .receiving → s.pending = []

/-- Client processes numbered by their pids, with queues numbered alike. -/
def numbered : Procs Nat where
  pid := fun c => c
  msgid := fun c => c
  msgid_inj := fun _ _ h => h

theorem entry_inj (P : Procs ι) (c d : ι) (h : P.entry c = P.entry d) : c = d :=
  P.msgid_inj (congrArg Client.msgid h)

theorem mtype_le (m : ClientMsg) : m.mtype ≤ 3 := by
  cases m <;> simp only [ClientMsg.mtype] <;> omega

theorem registryInv_initial (P : Procs ι) : RegistryInv P initial where
  nodup := List.nodup_nil
  joined := fun _ he => absurd he List.not_mem_nil
  fresh := fun _ _ => rfl
  idle := fun _ => rfl

theorem not_announced_of_fresh (P : Procs ι) (s : State ι) (hi : RegistryInv P s) (c : ι)
    (hc : s.joinedAt c = none) : P.entry c ∉ announced s := by
  intro hmem
  rcases hi.joined _ hmem with ⟨d, heq, hd⟩
  exact hd (entry_inj P c d heq ▸ hc)

/-- A queue without LOGINs leads to no further entries. -/
theorem announces_nil (l : List ClientMsg) (hlow : ∀ x ∈ l, 2 ≤ x.mtype) :
    l.filterMap ClientMsg.announces = [] := by
  refine List.filterMap_eq_nil_iff.mpr (fun x hx => ?_)
  cases x with
  | login pid msgid => exact absurd (hlow _ hx) (by simp only [ClientMsg.mtype]; omega)
  | logout pid => rfl
  | text pid mtext => rfl

section Handle

variable (s : State ι) (pre post : List ClientMsg)

theorem mem_queue_of_rest (m x : ClientMsg) (hq : s.queue = pre ++ m :: post)
    (hx : x ∈ pre ++ post) : x ∈ s.queue := by
  rw [hq]
  rcases List.mem_append.mp hx with h | h
  · exact List.mem_append_left _ h
  · exact List.mem_append_right _ (List.mem_cons_of_mem _ h)

theorem mem_rest_of_queue (m x : ClientMsg) (hq : s.queue = pre ++ m :: post)
    (hx : x ∈ s.queue) (hne : x ≠ m) : x ∈ pre ++ post := by
  rw [hq] at hx
  rcases List.mem_append.mp hx with h | h
  · exact List.mem_append_left _ h
  · rcases List.mem_cons.mp h with h | h
    · exact absurd h hne
    · exact List.mem_append_right _ h

/-- Between broadcasts, with no LOGIN queued, the entries announced are those
    in the list. -/
theorem announced_eq_kept (hlow : ∀ x ∈ s.queue, 2 ≤ x.mtype) (hnil : s.pending = []) :
    announced s = s.kept := by
  simp only [announced, announces_nil s.queue hlow, hnil, List.append_nil, List.nil_append]

/-- Receiving a LOGIN moves its entry from the queue to the front of the
    list. -/
theorem announced_handle_login (pid msgid : Nat)
    (hq : s.queue = pre ++ .login pid msgid :: post) :
    (announced (handle s (pre ++ post) (.login pid msgid))).Perm (announced s) := by
  simp only [announced, handle, hq, List.filterMap_append, List.filterMap_cons,
    ClientMsg.announces, List.append_assoc, List.cons_append]
  exact List.Perm.append_left _ List.perm_middle

/-- Receiving a LOGOUT adds nothing, and at most one entry goes. -/
theorem announced_handle_logout (pid : Nat) (hq : s.queue = pre ++ .logout pid :: post) :
    (announced (handle s (pre ++ post) (.logout pid))).Sublist (announced s) := by
  simp only [announced, handle, hq, List.filterMap_append, List.filterMap_cons,
    ClientMsg.announces]
  exact List.Sublist.append_left (List.Sublist.append_right List.eraseP_sublist _) _

/-- Receiving a LOGOUT when no LOGIN is queued leaves the list without the
    first entry of that pid. -/
theorem announced_handle_logout_eq (pid : Nat) (hq : s.queue = pre ++ .logout pid :: post)
    (hlow : ∀ x ∈ s.queue, 2 ≤ x.mtype) (hnil : s.pending = []) :
    announced (handle s (pre ++ post) (.logout pid))
      = s.kept.eraseP (fun e => decide (e.pid = pid)) := by
  have hrest := announces_nil (pre ++ post)
    (fun x hx => hlow x (mem_queue_of_rest s pre post _ x hq hx))
  simp only [announced, handle, hrest, hnil, List.append_nil, List.nil_append]

/-- Receiving a TEXT makes the whole list pending. -/
theorem announced_handle_text (pid : Nat) (mtext : List UInt8)
    (hq : s.queue = pre ++ .text pid mtext :: post) (hnil : s.pending = []) :
    announced (handle s (pre ++ post) (.text pid mtext)) = announced s := by
  simp only [announced, handle, hq, hnil, List.filterMap_append, List.filterMap_cons,
    ClientMsg.announces, List.nil_append, List.append_nil]

/-- Handling a message keeps the invariant, whatever the message is. -/
theorem registryInv_handle (P : Procs ι) (hi : RegistryInv P s) (hmode : s.mode = .receiving)
    (m : ClientMsg) (hq : s.queue = pre ++ m :: post) :
    RegistryInv P (handle s (pre ++ post) m) := by
  have hnil := hi.idle hmode
  cases m with
  | login pid msgid =>
      have hperm := announced_handle_login s pre post pid msgid hq
      exact ⟨hperm.nodup_iff.mpr hi.nodup, fun e he => hi.joined e (hperm.mem_iff.mp he),
        hi.fresh, fun _ => hnil⟩
  | logout pid =>
      have hsub := announced_handle_logout s pre post pid hq
      exact ⟨hsub.nodup hi.nodup, fun e he => hi.joined e (hsub.subset he), hi.fresh,
        fun _ => hnil⟩
  | text pid mtext =>
      have heq := announced_handle_text s pre post pid mtext hq hnil
      refine ⟨heq ▸ hi.nodup, fun e he => hi.joined e (heq ▸ he), hi.fresh, fun h => ?_⟩
      exact absurd h (by simp only [handle, reduceCtorEq, not_false_eq_true])

end Handle

/-- When a client's entry is the only one in the list with its pid, removing
    the first entry with that pid removes the client's. -/
theorem entry_not_mem_eraseP (P : Procs ι) (l : List Client) (hnodup : l.Nodup) (c : ι)
    (hown : ∀ e ∈ l, e.pid = P.pid c → e = P.entry c) :
    P.entry c ∉ l.eraseP (fun e => decide (e.pid = P.pid c)) := by
  intro hmem
  have hin := List.mem_of_mem_eraseP hmem
  rcases List.exists_of_eraseP (p := fun e => decide (e.pid = P.pid c)) hin (decide_eq_true rfl)
    with ⟨a, l₁, l₂, _, ha, hl, hrest⟩
  have ha' : a = P.entry c :=
    hown a (hl ▸ List.mem_append_right _ List.mem_cons_self) (of_decide_eq_true ha)
  rw [hl, List.nodup_middle, List.nodup_cons, ha'] at hnodup
  rw [hrest] at hmem
  exact hnodup.1 hmem

/-- Two entries for the same queue are the same entry. -/
theorem eq_of_msgid_eq (P : Procs ι) (s : State ι) (hi : RegistryInv P s) (e e' : Client)
    (he : e ∈ announced s) (he' : e' ∈ announced s) (h : e.msgid = e'.msgid) : e = e' := by
  rcases hi.joined e he with ⟨c, rfl, _⟩
  rcases hi.joined e' he' with ⟨d, rfl, _⟩
  rw [P.msgid_inj h]

theorem mem_announced_of_pending (s : State ι) (e : Client) (he : e ∈ s.pending) :
    e ∈ announced s :=
  List.mem_append_right _ (List.mem_append_right _ he)

variable [DecidableEq ι]

/-- Receiving takes a message of the lowest type in the queue out of it and
    handles it. -/
theorem receive_spec (P : Procs ι) (s : State ι) (h : Enabled s .receive) :
    ∃ m pre post, receiveLowest ClientMsg.mtype 3 s.queue = some (m, pre ++ post) ∧
      s.queue = pre ++ m :: post ∧ next P s .receive = handle s (pre ++ post) m ∧
      ∀ x ∈ s.queue, m.mtype ≤ x.mtype := by
  rcases Option.isSome_iff_exists.mp h.2 with ⟨⟨m, q⟩, hm⟩
  rcases receiveLowest_spec ClientMsg.mtype 3 s.queue m q hm with
    ⟨_, hle, pre, post, hq, hq', _⟩
  refine ⟨m, pre, post, hq' ▸ hm, hq, ?_, fun x hx => hle x hx (mtype_le x)⟩
  simp only [next, hm, hq']

/-- A change of phase keeps `fresh` unless it makes a logged-in client look
    as if it had just started. -/
theorem fresh_update (phase : ι → Phase) (joinedAt : ι → Option Nat) (c : ι) (p : Phase)
    (h : ∀ d, phase d = .absent ∨ phase d = .started → joinedAt d = none)
    (hc : p = .absent ∨ p = .started → joinedAt c = none) (d : ι)
    (hd : Function.update phase c p d = .absent ∨ Function.update phase c p d = .started) :
    joinedAt d = none := by
  by_cases hdc : d = c
  · rw [hdc, Function.update_self] at hd
    rw [hdc]
    exact hc hd
  · rw [Function.update_of_ne hdc] at hd
    exact h d hd

/-- A client that changes its phase, and no more than its own queue. -/
theorem registryInv_phase (P : Procs ι) (s : State ι) (hi : RegistryInv P s) (c : ι) (p : Phase)
    (isOpen : Nat → Bool) (hc : p = .absent ∨ p = .started → s.joinedAt c = none) :
    RegistryInv P { s with phase := Function.update s.phase c p, isOpen := isOpen } :=
  ⟨hi.nodup, hi.joined, fresh_update s.phase s.joinedAt c p hi.fresh hc, hi.idle⟩

section Announced

variable (P : Procs ι) (s : State ι)

/-- A LOGIN announces its sender. -/
theorem announced_login (c : ι) :
    (announced (next P s (.login c))).Perm (P.entry c :: announced s) := by
  simp only [announced, next, List.filterMap_append, List.filterMap_cons,
    ClientMsg.announces, List.filterMap_nil, List.append_assoc, List.cons_append, List.nil_append]
  exact List.perm_middle

theorem announced_text (c : ι) (mtext : List UInt8) :
    announced (next P s (.text c mtext)) = announced s := by
  simp only [announced, next, List.filterMap_append, List.filterMap_cons,
    ClientMsg.announces, List.filterMap_nil, List.append_nil]

theorem announced_logout (c : ι) : announced (next P s (.logout c)) = announced s := by
  simp only [announced, next, List.filterMap_append, List.filterMap_cons,
    ClientMsg.announces, List.filterMap_nil, List.append_nil]

/-- A client that has been reached stays in the list. -/
theorem announced_send (m : ClientMsg) (e : Client) (rest : List Client)
    (hmode : s.mode = .broadcasting m) (hpend : s.pending = e :: rest) :
    announced (next P s .send) = announced s := by
  simp only [announced, next, hmode, hpend, List.append_assoc, List.cons_append, List.nil_append]

/-- A client that could not be reached in time is the one entry that goes. -/
theorem announced_timeout (e : Client) (rest : List Client) (hpend : s.pending = e :: rest) :
    (announced s).Perm (e :: announced (next P s .timeout)) := by
  simp only [announced, next, hpend]
  rw [← List.append_assoc, ← List.append_assoc]
  exact List.perm_middle

end Announced

/-- Every step keeps the invariant. -/
theorem registryInv_step (P : Procs ι) (s : State ι) (e : Event ι) (s' : State ι)
    (hi : RegistryInv P s) (hs : Step P s e s') : RegistryInv P s' := by
  rcases hs with ⟨hen, rfl⟩
  cases e with
  | start c => exact registryInv_phase P s hi c _ _ (fun _ => hi.fresh c (Or.inl hen))
  | login c =>
      -- The one step that announces a client, which it does not do twice.
      have hc := hi.fresh c (Or.inr hen)
      have hperm := announced_login P s c
      refine ⟨hperm.nodup_iff.mpr (List.nodup_cons.mpr
        ⟨not_announced_of_fresh P s hi c hc, hi.nodup⟩), fun e he => ?_, fun d hd => ?_, hi.idle⟩
      · rcases List.mem_cons.mp (hperm.mem_iff.mp he) with rfl | he
        · exact ⟨c, rfl, by simp only [next, Function.update_self, ne_eq, reduceCtorEq,
            not_false_eq_true]⟩
        · rcases hi.joined e he with ⟨d, rfl, hd⟩
          have hdc : d ≠ c := fun h => hd (h ▸ hc)
          exact ⟨d, rfl, by simpa only [next, Function.update_of_ne hdc] using hd⟩
      · by_cases hdc : d = c
        · simp only [next, hdc, Function.update_self, reduceCtorEq, or_self] at hd
        · simp only [next, Function.update_of_ne hdc] at hd ⊢
          exact hi.fresh d hd
  | text c mtext =>
      have heq := announced_text P s c mtext
      exact ⟨heq ▸ hi.nodup, fun e he => hi.joined e (heq ▸ he), hi.fresh, hi.idle⟩
  | logout c =>
      have heq := announced_logout P s c
      exact ⟨heq ▸ hi.nodup, fun e he => hi.joined e (heq ▸ he),
        fresh_update _ _ c _ hi.fresh (by simp only [reduceCtorEq, or_self, false_implies]),
        hi.idle⟩
  | signal c | logoutFails c | raise c | exit c =>
      -- The client gets further away from its start.
      exact registryInv_phase P s hi c _ _ (by simp only [reduceCtorEq, or_self, false_implies])
  | receive =>
      rcases receive_spec P s hen with ⟨m, pre, post, _, hq, hnext, _⟩
      rw [hnext]
      exact registryInv_handle s pre post P hi hen.1 m hq
  | send =>
      rcases hen with ⟨m, e, rest, hmode, hpend, _⟩
      have heq := announced_send P s m e rest hmode hpend
      have hm : (next P s .send).mode ≠ .receiving := by
        simp only [next, hmode, hpend, ne_eq, reduceCtorEq, not_false_eq_true]
      refine ⟨heq ▸ hi.nodup, fun e' he' => ?_, fun c hc => ?_, fun h => absurd h hm⟩
      · -- Whoever is announced was announced before.
        simp only [next, hmode, hpend]
        exact hi.joined e' (heq ▸ he')
      · simp only [next, hmode, hpend] at hc ⊢
        exact hi.fresh c hc
  | timeout =>
      rcases hen with ⟨m, e, rest, hmode, hpend, _⟩
      have hperm := announced_timeout P s e rest hpend
      -- One entry less, and the others as they were.
      refine ⟨(List.nodup_cons.mp (hperm.nodup_iff.mp hi.nodup)).2, fun e' he' => ?_,
        fun c hc => ?_, fun h => ?_⟩
      · simp only [next, hpend]
        exact hi.joined e' (hperm.mem_iff.mpr (List.mem_cons_of_mem _ he'))
      · simp only [next, hpend] at hc ⊢
        exact hi.fresh c hc
      · simp only [next, hpend, hmode, reduceCtorEq] at h
  | sendFails =>
      exact ⟨hi.nodup, hi.joined, hi.fresh, fun h => by simp only [next, reduceCtorEq] at h⟩
  | finish =>
      rcases hen with ⟨_, _, hpend⟩
      exact ⟨hi.nodup, hi.joined, hi.fresh, fun _ => hpend⟩

/-- The invariant holds throughout every run. -/
theorem registryInv_always (P : Procs ι) (tr : List (Event ι × State ι))
    (hrun : AllSteps (Step P) initial tr) : Always (RegistryInv P) initial tr :=
  always_of_allSteps (registryInv_step P) initial tr (registryInv_initial P) hrun

end Chat

end TlpiPractice
