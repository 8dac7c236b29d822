import TlpiPractice.Theory.Chat.Registry

/-!
# How a Client Can End the Server

A `msgsnd` to a queue that has been removed fails with something other than
`EINTR`, and the server answers that with `errExit`. A client removes its
queue before it tells the server, and when it leaves through `exit` it never
tells the server at all. So the server can meet a removed queue in its
broadcast, and this module says when.

There are two ways to it. A TEXT may be taken off the server's queue while
the list still has a client whose queue is gone, because that client's LOGOUT
has not been sent, or never will be. And a client may remove its queue in the
middle of a broadcast that has not reached it yet. `Undisturbed` rules out
both, and a run that keeps to it never gets to `errExit`.

Nothing weaker would do. After either of the two, some client still to be
reached has no queue, and no step gives it one back: `Doomed` states that, a
step against `Undisturbed` leads to it, and from there the server never
returns to the top of its loop.

## Main definitions

* `Undisturbed`: The steps that leave every client of a broadcast reachable.
* `SurvivalInv`: Every client still to be reached has its queue.
* `Doomed`: Some client still to be reached has lost its queue.
* `quietLeave`: A run in which a client leaves between broadcasts.
* `textAfterSignal`: A run that ends the server.

## Theorems

* `survivalInv_step`: An undisturbed step keeps the invariant.
* `survives_of_undisturbed`: A run of undisturbed steps never ends the server.
* `textAfterSignal_fails`: The server can be ended by a client that leaves.
* `doomed_of_disturbed`: Any other step dooms the broadcast.
* `doomed_step`: A doomed server stays doomed.
* `not_receiving_of_disturbed`: A broadcast once disturbed never ends.
-/

namespace TlpiPractice

namespace Chat

open MsgQueue Runs

variable {ι : Type}

/-- The steps that leave every client of a broadcast with its queue: a TEXT is
    received only when all clients in the list have theirs, and no client the
    broadcast has still to reach removes its own. -/
def Undisturbed (P : Procs ι) (s : State ι) : Event ι → Prop
  | .receive =>
      ∀ pid mtext q, receiveLowest ClientMsg.mtype 3 s.queue = some (.text pid mtext, q) →
        ∀ e ∈ s.kept, s.isOpen e.msgid = true
  | .signal c => P.entry c ∉ s.pending
  | .exit c => P.entry c ∉ s.pending
  | _ => True

/-- The server has not failed, and every client the broadcast has still to
    reach has its queue. -/
structure SurvivalInv (P : Procs ι) (s : State ι) : Prop where
  registry : RegistryInv P s
  alive : s.mode ≠ .failed
  reachable : ∀ e ∈ s.pending, s.isOpen e.msgid = true

theorem survivalInv_initial (P : Procs ι) : SurvivalInv P (initial : State ι) where
  registry := registryInv_initial P
  alive := by simp only [initial, ne_eq, reduceCtorEq, not_false_eq_true]
  reachable := fun _ he => absurd he List.not_mem_nil

/-- A queue removed by a client that is not pending is no pending client's. -/
theorem reachable_remove [DecidableEq ι] (P : Procs ι) (s : State ι) (hi : SurvivalInv P s) (c : ι)
    (hc : P.entry c ∉ s.pending) :
    ∀ e ∈ s.pending, Function.update s.isOpen (P.msgid c) false e.msgid = true := by
  intro e he
  rcases hi.registry.joined e (mem_announced_of_pending s e he) with ⟨d, rfl, _⟩
  have hne : P.msgid d ≠ P.msgid c := by
    intro h
    rw [P.msgid_inj h] at he
    exact hc he
  rw [Function.update_of_ne (show (P.entry d).msgid ≠ P.msgid c from hne)]
  exact hi.reachable _ he

/-- The queue that a timeout removes is not that of a client behind it. -/
theorem msgid_ne_of_behind (P : Procs ι) (s : State ι) (hi : RegistryInv P s) (e : Client)
    (rest : List Client) (hpend : s.pending = e :: rest) (e' : Client) (he' : e' ∈ rest) :
    e'.msgid ≠ e.msgid := by
  intro h
  have hhead : e ∈ announced s := mem_announced_of_pending s e (hpend ▸ List.mem_cons_self)
  have htail : e' ∈ announced s :=
    mem_announced_of_pending s e' (hpend ▸ List.mem_cons_of_mem _ he')
  have heq := eq_of_msgid_eq P s hi e' e htail hhead h
  have hnodup : (e :: rest).Nodup :=
    hpend ▸ (hi.nodup.of_append_right).of_append_right
  exact (List.nodup_cons.mp hnodup).1 (heq ▸ he')

section Undisturbed

theorem not_failed (s : State ι) (m : ClientMsg) (h : s.mode = .broadcasting m) :
    s.mode ≠ .failed := by
  rw [h]
  simp only [ne_eq, reduceCtorEq, not_false_eq_true]

variable [DecidableEq ι]

/-- An undisturbed step keeps the invariant. -/
theorem survivalInv_step (P : Procs ι) (s : State ι) (e : Event ι) (s' : State ι)
    (hi : SurvivalInv P s) (hg : Undisturbed P s e) (hs : Step P s e s') : SurvivalInv P s' := by
  have hreg := registryInv_step P s e s' hi.registry hs
  rcases hs with ⟨hen, rfl⟩
  cases e with
  | start c =>
      refine ⟨hreg, hi.alive, fun e he => ?_⟩
      by_cases h : e.msgid = P.msgid c
      · simp only [next, h, Function.update_self]
      · simp only [next, Function.update_of_ne h]
        exact hi.reachable e he
  | login c => exact ⟨hreg, hi.alive, hi.reachable⟩
  | text c mtext => exact ⟨hreg, hi.alive, hi.reachable⟩
  | signal c => exact ⟨hreg, hi.alive, reachable_remove P s hi c hg⟩
  | logout c => exact ⟨hreg, hi.alive, hi.reachable⟩
  | logoutFails c => exact ⟨hreg, hi.alive, hi.reachable⟩
  | raise c => exact ⟨hreg, hi.alive, hi.reachable⟩
  | exit c => exact ⟨hreg, hi.alive, reachable_remove P s hi c hg⟩
  | receive =>
      rcases receive_spec P s hen with ⟨m, pre, post, hm, hq, hnext, _⟩
      rw [hnext] at hreg ⊢
      cases m with
      | login pid msgid => exact ⟨hreg, hi.alive, hi.reachable⟩
      | logout pid => exact ⟨hreg, hi.alive, hi.reachable⟩
      | text pid mtext =>
          -- The broadcast begins with the whole list to reach.
          refine ⟨hreg, ?_, hg pid mtext _ hm⟩
          simp only [handle, ne_eq, reduceCtorEq, not_false_eq_true]
  | send =>
      rcases hen with ⟨m, e, rest, hmode, hpend, _⟩
      refine ⟨hreg, ?_, fun e' he' => ?_⟩
      · simp only [next, hmode, hpend, ne_eq, reduceCtorEq, not_false_eq_true]
      · simp only [next, hmode, hpend] at he' ⊢
        exact hi.reachable e' (hpend ▸ List.mem_cons_of_mem _ he')
  | timeout =>
      rcases hen with ⟨m, e, rest, hmode, hpend, _⟩
      refine ⟨hreg, ?_, fun e' he' => ?_⟩
      · simp only [next, hmode, hpend, ne_eq, reduceCtorEq, not_false_eq_true]
      · simp only [next, hpend] at he' ⊢
        rw [Function.update_of_ne (msgid_ne_of_behind P s hi.registry e rest hpend e' he')]
        exact hi.reachable e' (hpend ▸ List.mem_cons_of_mem _ he')
  | sendFails =>
      -- The failing send needs a pending client without a queue.
      rcases hen with ⟨m, e, rest, _, hpend, hclosed⟩
      have hopen := hi.reachable e (hpend ▸ List.mem_cons_self)
      rw [hclosed] at hopen
      exact absurd hopen (by simp only [Bool.false_eq_true, not_false_eq_true])
  | finish =>
      refine ⟨hreg, ?_, hi.reachable⟩
      simp only [next, ne_eq, reduceCtorEq, not_false_eq_true]

/-- In a run of undisturbed steps the server never reaches `errExit` in its
    broadcast loop. -/
theorem survives_of_undisturbed (P : Procs ι) (tr : List (Event ι × State ι))
    (hrun : AllSteps (Step P) initial tr) (hmeet : StepsMeet (Undisturbed P) initial tr) :
    Always (fun s => s.mode ≠ .failed) initial tr :=
  always_mono (fun _ hi => hi.alive) initial tr
    (always_of_guarded (survivalInv_step P) initial tr (survivalInv_initial P) hrun hmeet)

/-- A broadcast from the first client to the only one there is, which leaves
    once it is over. -/
def quietLeave : List (Event Nat) :=
  [.start 10, .login 10, .receive, .text 10 [104, 105], .receive, .send, .finish,
    .signal 10, .logout 10, .receive, .raise 10]

theorem survives_of_undisturbed_quietLeave :
    Always (fun s => s.mode ≠ .failed) initial (record (next numbered) initial quietLeave) := by
  refine survives_of_undisturbed numbered _ (allSteps_record Enabled _ _ _ ?_) ?_
  · exact ⟨rfl, rfl, ⟨rfl, rfl⟩, rfl, ⟨rfl, rfl⟩, ⟨_, _, _, rfl, rfl, rfl⟩, ⟨_, rfl, rfl⟩,
      Or.inr rfl, rfl, ⟨rfl, rfl⟩, rfl, trivial⟩
  · refine ⟨trivial, trivial, fun _ _ _ h => ?_, trivial, fun _ _ _ _ e he => ?_, trivial, trivial,
      List.not_mem_nil, trivial, fun _ _ _ h => ?_, trivial, trivial⟩
    · exact nomatch (h : some (ClientMsg.login 10 10, ([] : List ClientMsg)) = _)
    · rw [List.mem_singleton.mp he]
      rfl
    · exact nomatch (h : some (ClientMsg.logout 10, ([] : List ClientMsg)) = _)

/-- The client removes its queue on `SIGINT` while its text is still in the
    server's, and the server takes the text before the LOGOUT is sent. -/
def textAfterSignal : List (Event Nat) :=
  [.start 10, .login 10, .receive, .text 10 [104, 105], .signal 10, .receive, .sendFails]

/-- This is a run, and the server has gone through `errExit` at its end. -/
theorem textAfterSignal_fails :
    AllSteps (Step numbered) initial (record (next numbered) initial textAfterSignal) ∧
      ¬ Always (fun s => s.mode ≠ .failed) initial
        (record (next numbered) initial textAfterSignal) := by
  refine ⟨allSteps_record Enabled _ _ _ ?_, fun h => ?_⟩
  · exact ⟨rfl, rfl, ⟨rfl, rfl⟩, rfl, Or.inr rfl, ⟨rfl, rfl⟩, ⟨_, _, _, rfl, rfl, rfl⟩, trivial⟩
  · exact always_last _ _ h rfl

end Undisturbed

/-! ### No weaker condition -/

/-- The server has failed, or is in a broadcast that has to reach a client
    without a queue. -/
def Doomed (s : State ι) : Prop :=
  s.mode = .failed ∨
    ∃ m, s.mode = .broadcasting m ∧ ∃ e ∈ s.pending, s.isOpen e.msgid = false

/-- A client with its entry pending is in a broadcast, or the server has
    failed, so removing its queue dooms the server. -/
theorem doomed_remove (P : Procs ι) (s : State ι) (hi : RegistryInv P s) (c : ι)
    (phase : ι → Phase) (hc : P.entry c ∈ s.pending) :
    Doomed { s with
      phase := phase, isOpen := Function.update s.isOpen (P.msgid c) false } := by
  cases hmode : s.mode with
  | receiving =>
      rw [hi.idle hmode] at hc
      exact absurd hc List.not_mem_nil
  | broadcasting m =>
      refine Or.inr ⟨m, rfl, P.entry c, hc, ?_⟩
      simp only [Procs.entry, Function.update_self]
  | failed => exact Or.inl rfl

/-- Removing a queue gives no other client its queue back. -/
theorem closed_update (isOpen : Nat → Bool) (k : Nat) (e : Client)
    (h : isOpen e.msgid = false) : Function.update isOpen k false e.msgid = false := by
  by_cases hk : e.msgid = k
  · rw [hk, Function.update_self]
  · rw [Function.update_of_ne hk, h]

/-- While a doomed server broadcasts, there is a client without a queue. -/
theorem closed_of_doomed (s : State ι) (m : ClientMsg) (hdoom : Doomed s)
    (hmode : s.mode = .broadcasting m) : ∃ e ∈ s.pending, s.isOpen e.msgid = false := by
  rcases hdoom with h | ⟨_, _, hclosed⟩
  · exact absurd h (not_failed s m hmode)
  · exact hclosed

/-- The client without a queue is not the one that was just reached. -/
theorem closed_behind (s : State ι) (e e' : Client) (rest : List Client)
    (hpend : s.pending = e :: rest) (hopen : s.isOpen e.msgid = true) (he' : e' ∈ s.pending)
    (hclosed : s.isOpen e'.msgid = false) : e' ∈ rest := by
  rw [hpend] at he'
  rcases List.mem_cons.mp he' with rfl | h
  · rw [hopen] at hclosed
    exact absurd hclosed (by simp only [Bool.true_eq_false, not_false_eq_true])
  · exact h

/-- A doomed server is not at the top of its loop. -/
theorem mode_of_doomed (s : State ι) (h : Doomed s) : s.mode ≠ .receiving := by
  intro hmode
  rcases h with h | ⟨m, h, _⟩
  · rw [hmode] at h
    exact nomatch h
  · rw [hmode] at h
    exact nomatch h

variable [DecidableEq ι]

/-- A step that is not undisturbed dooms the server. -/
theorem doomed_of_disturbed (P : Procs ι) (s : State ι) (e : Event ι) (s' : State ι)
    (hi : RegistryInv P s) (hg : ¬ Undisturbed P s e) (hs : Step P s e s') : Doomed s' := by
  rcases hs with ⟨hen, rfl⟩
  cases e with
  | signal c => exact doomed_remove P s hi c _ (not_not.mp hg)
  | exit c => exact doomed_remove P s hi c _ (not_not.mp hg)
  | receive =>
      -- What was received is a TEXT, and the list it goes to has a closed queue.
      simp only [Undisturbed, not_forall] at hg
      rcases hg with ⟨pid, mtext, q, hm, e, he, hclosed⟩
      refine Or.inr ⟨.text pid mtext, ?_, e, ?_, ?_⟩
      · simp only [next, hm, handle]
      · simpa only [next, hm, handle] using he
      · simpa only [next, hm, handle, Bool.not_eq_true] using hclosed
  | _ => exact absurd trivial hg

/-- A doomed server stays doomed. -/
theorem doomed_step (P : Procs ι) (s : State ι) (e : Event ι) (s' : State ι)
    (hi : RegistryInv P s ∧ Doomed s) (hs : Step P s e s') : RegistryInv P s' ∧ Doomed s' := by
  refine ⟨registryInv_step P s e s' hi.1 hs, ?_⟩
  rcases hi with ⟨hreg, hdoom⟩
  rcases hs with ⟨hen, rfl⟩
  cases e with
  | login c => exact hdoom
  | text c mtext => exact hdoom
  | logout c => exact hdoom
  | logoutFails c => exact hdoom
  | raise c => exact hdoom
  | sendFails => exact Or.inl rfl
  | start c =>
      rcases hdoom with h | ⟨m, hmode, e, he, hclosed⟩
      · exact Or.inl h
      · -- The queue created is a new client's, and no entry is that client's yet.
        have hne : e.msgid ≠ P.msgid c := by
          intro h
          have hin := mem_announced_of_pending s e he
          rcases hreg.joined e hin with ⟨d, rfl, hd⟩
          rw [P.msgid_inj h] at hd
          exact hd (hreg.fresh c (Or.inl hen))
        refine Or.inr ⟨m, hmode, e, he, ?_⟩
        simpa only [next, Function.update_of_ne hne] using hclosed
  | signal c =>
      rcases hdoom with h | ⟨m, hmode, e, he, hclosed⟩
      · exact Or.inl h
      · exact Or.inr ⟨m, hmode, e, he, closed_update s.isOpen _ e hclosed⟩
  | exit c =>
      rcases hdoom with h | ⟨m, hmode, e, he, hclosed⟩
      · exact Or.inl h
      · exact Or.inr ⟨m, hmode, e, he, closed_update s.isOpen _ e hclosed⟩
  | receive => exact absurd hen.1 (mode_of_doomed s hdoom)
  | send =>
      rcases hen with ⟨m, e, rest, hmode, hpend, hopen⟩
      rcases closed_of_doomed s m hdoom hmode with ⟨e', he', hclosed⟩
      have hrest := closed_behind s e e' rest hpend hopen he' hclosed
      refine Or.inr ⟨m, ?_, e', ?_, ?_⟩
      · simp only [next, hmode, hpend]
      · simpa only [next, hmode, hpend] using hrest
      · simpa only [next, hmode, hpend] using hclosed
  | timeout =>
      rcases hen with ⟨m, e, rest, hmode, hpend, hopen⟩
      rcases closed_of_doomed s m hdoom hmode with ⟨e', he', hclosed⟩
      have hrest := closed_behind s e e' rest hpend hopen he' hclosed
      refine Or.inr ⟨m, ?_, e', ?_, ?_⟩
      · simp only [next, hpend, hmode]
      · simpa only [next, hpend] using hrest
      · simpa only [next, hpend] using closed_update s.isOpen e.msgid e' hclosed
  | finish =>
      -- The loop has not come past the client without a queue.
      rcases hen with ⟨m, hmode, hpend⟩
      rcases closed_of_doomed s m hdoom hmode with ⟨e', he', -⟩
      rw [hpend] at he'
      exact absurd he' List.not_mem_nil

/-- Once a step of a run has disturbed a broadcast, the server is never again
    at the top of its loop. -/
theorem not_receiving_of_disturbed (P : Procs ι) (tr : List (Event ι × State ι)) (e : Event ι)
    (s' : State ι) (tr' : List (Event ι × State ι)) (hrun : AllSteps (Step P) initial tr)
    (hs : Step P (lastState initial tr) e s')
    (hg : ¬ Undisturbed P (lastState initial tr) e) (hrun' : AllSteps (Step P) s' tr') :
    Always (fun s => s.mode ≠ .receiving) s' tr' := by
  have hreg := always_last initial tr (registryInv_always P tr hrun)
  have hdoom := doomed_of_disturbed P _ e s' hreg hg hs
  have hreg' := registryInv_step P _ e s' hreg hs
  exact always_mono (fun s hi => mode_of_doomed s hi.2) s' tr'
    (always_of_allSteps (doomed_step P) s' tr' ⟨hreg', hdoom⟩ hrun')

end Chat

end TlpiPractice
