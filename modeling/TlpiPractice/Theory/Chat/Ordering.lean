import TlpiPractice.Theory.Chat.Segments

/-!
# One Order for All

In what order the clients get the texts, in every run. Pids may come back
here, and a LOGOUT may then take the wrong client off the list.

The server takes the texts off its queue one by one, and that is the order for
everybody. What has been put into a client's queue is a contiguous piece of
this sequence: a client is reached at most once in each broadcast, and when it
has been left out of one it is not in the list any more. It does not come back
to the list, because it logs in only once. The texts of one pid are taken in
the order they were sent, as `msgrcv` returns the oldest of a type. So two
clients never see two texts in different orders, and what a client gets from
one sender is a piece of what this sender has sent, with nothing missing in
between and nothing twice.

## Main definitions

* `fromPid`: The texts of one sender.
* `sentBy`: What a sender has sent in a run.
* `OrderInv`: How far behind the sequence each client queue is.

## Theorems

* `orderInv_step`: Every step keeps the invariant.
* `texts_step`: What a step does to the texts of a sender.
* `delivered_ordered`: One order, and each sender's own order within it.
-/

namespace TlpiPractice

namespace Chat

open Runs

variable {ι : Type}

/-- A text of the process with this pid. -/
def ClientMsg.fromPid (p : Nat) : ClientMsg → Bool
  | .text pid _ => decide (pid = p)
  | _ => false

/-- What an event sends on behalf of a pid. -/
def Event.sends (P : Procs ι) (p : Nat) : Event ι → List ClientMsg
  | .text c mtext => if P.pid c = p then [.text (P.pid c) mtext] else []
  | _ => []

/-- The texts that have been sent in a run under a pid, in order. -/
def sentBy (P : Procs ι) (p : Nat) (tr : List (Event ι × State ι)) : List ClientMsg :=
  tr.flatMap (fun r => r.1.sends P p)

/-- How far behind the sequence of texts each client queue is. -/
structure OrderInv (P : Procs ι) (s : State ι) : Prop where
  registry : RegistryInv P s
  current : ∀ m, s.mode = .broadcasting m → ∃ t, s.taken = t ++ [m]
  piece : ∀ c, s.delivered (P.msgid c) <:+: s.taken
  /-- Whoever has been reached is level with the sequence. -/
  kept : ∀ c, P.entry c ∈ s.kept → s.delivered (P.msgid c) <:+ s.taken
  /-- Whoever has still to be reached is one text behind. -/
  pending : ∀ c, P.entry c ∈ s.pending → s.delivered (P.msgid c) <:+ s.taken.dropLast
  queued : ∀ c, .login (P.pid c) (P.msgid c) ∈ s.queue → s.delivered (P.msgid c) = []
  silent : ∀ c, s.joinedAt c = none → s.delivered (P.msgid c) = []

theorem orderInv_initial (P : Procs ι) : OrderInv P initial where
  registry := registryInv_initial P
  current := fun _ h => Mode.noConfusion h
  piece := fun _ => List.infix_rfl
  kept := fun _ h => absurd h List.not_mem_nil
  pending := fun _ h => absurd h List.not_mem_nil
  queued := fun _ h => absurd h List.not_mem_nil
  silent := fun _ _ => rfl

variable [DecidableEq ι]

section Steps

variable (P : Procs ι) (s : State ι)

/-- What holds of every client queue holds when one client has been sent more. -/
theorem forall_delivered {R : ι → List ClientMsg → Prop} (c : ι) (l : List ClientMsg)
    (h : ∀ d, d ≠ c → R d (s.delivered (P.msgid d))) (hc : R c l) (d : ι) :
    R d (Function.update s.delivered (P.msgid c) l (P.msgid d)) := by
  by_cases hdc : d = c
  · rw [hdc, Function.update_self]
    exact hc
  · rw [Function.update_of_ne (fun heq => hdc (P.msgid_inj heq))]
    exact h d hdc

variable (hi : OrderInv P s)
include hi

/-- Whoever is sent a text is sent the one that the sequence ends with. -/
theorem orderInv_send (hen : Enabled s .send) : OrderInv P (next P s .send) := by
  have hreg := registryInv_step P s _ _ hi.registry ⟨hen, rfl⟩
  rcases hen with ⟨m, e, rest, hmode, hpend, -⟩
  have hnext : next P s .send = { s with
      kept := s.kept ++ [e]
      pending := rest
      delivered := Function.update s.delivered e.msgid (s.delivered e.msgid ++ [m]) } := by
    simp only [next, hmode, hpend]
  rw [hnext] at hreg ⊢
  have hin : e ∈ s.pending := hpend ▸ List.mem_cons_self
  have hmem : e ∈ announced s := mem_announced_of_pending s e hin
  rcases hi.registry.joined e hmem with ⟨c, rfl, hjoined⟩
  rcases hi.current m hmode with ⟨t, ht⟩
  have hlevel : s.delivered (P.msgid c) ++ [m] <:+ s.taken := by
    have hbehind := hi.pending c hin
    rw [ht, List.dropLast_concat] at hbehind
    rcases hbehind with ⟨pre, hpre⟩
    exact ⟨pre, by rw [ht, ← hpre, List.append_assoc]⟩
  have hnodup := (List.nodup_append.mp hi.registry.nodup).2
  have hout : P.entry c ∉ rest := by
    have hrest := (List.nodup_append.mp hnodup.1).2.1
    rw [hpend, List.nodup_cons] at hrest
    exact hrest.1
  -- A client whose LOGIN is queued is not in the list yet.
  have hadded : .login (P.pid c) (P.msgid c) ∉ s.queue := by
    intro hc
    have hqueued : P.entry c ∈ s.queue.filterMap ClientMsg.announces :=
      List.mem_filterMap.mpr ⟨_, hc, rfl⟩
    exact hnodup.2 _ hqueued _ (List.mem_append_right _ hin) rfl
  refine ⟨hreg, hi.current, ?_, ?_, ?_, ?_, ?_⟩
  · exact forall_delivered (R := fun _ l => l <:+: s.taken) P s c _ (fun d _ => hi.piece d)
      hlevel.isInfix
  · refine forall_delivered (R := fun d l => P.entry d ∈ s.kept ++ [P.entry c] → l <:+ s.taken)
      P s c _ (fun d hdc hd => hi.kept d ?_) (fun _ => hlevel)
    refine (List.mem_append.mp hd).resolve_right (fun h => ?_)
    exact hdc (entry_inj P d c (List.mem_singleton.mp h))
  · exact forall_delivered (R := fun d l => P.entry d ∈ rest → l <:+ s.taken.dropLast) P s c _
      (fun d _ hd => hi.pending d (hpend ▸ List.mem_cons_of_mem _ hd)) (fun hc => absurd hc hout)
  · exact forall_delivered (R := fun d l => .login (P.pid d) (P.msgid d) ∈ s.queue → l = [])
      P s c _ (fun d _ hd => hi.queued d hd) (fun hc => absurd hc hadded)
  · exact forall_delivered (R := fun d l => s.joinedAt d = none → l = []) P s c _
      (fun d _ hd => hi.silent d hd) (fun hc => absurd hc hjoined)

/-- The server has taken a message. -/
theorem orderInv_receive (hen : Enabled s .receive) : OrderInv P (next P s .receive) := by
  have hreg := registryInv_step P s _ _ hi.registry ⟨hen, rfl⟩
  rcases receive_spec P s hen with ⟨m, pre, post, -, hq, hnext, -⟩
  rw [hnext] at hreg ⊢
  have hrest : ∀ x ∈ pre ++ post, x ∈ s.queue := fun x hx =>
    mem_queue_of_rest s pre post m x hq hx
  have hqueued : ∀ c, .login (P.pid c) (P.msgid c) ∈ pre ++ post →
      s.delivered (P.msgid c) = [] := fun c hc => hi.queued c (hrest _ hc)
  cases m with
  | login pid msgid =>
      refine ⟨hreg, hi.current, hi.piece, fun c hc => ?_, hi.pending, hqueued, hi.silent⟩
      rcases List.mem_cons.mp hc with hc | hc
      · -- Nothing has been sent to a client that has just been added.
        have hlogin : ClientMsg.login (P.pid c) (P.msgid c) ∈ s.queue := by
          have hpid : P.pid c = pid := congrArg Client.pid hc
          have hmsgid : P.msgid c = msgid := congrArg Client.msgid hc
          rw [hq, hpid, hmsgid]
          exact List.mem_append_right _ List.mem_cons_self
        have hnone := hi.queued c hlogin
        have hsuffix : s.delivered (P.msgid c) <:+ s.taken := hnone ▸ List.nil_suffix
        exact hsuffix
      · exact hi.kept c hc
  | logout pid =>
      exact ⟨hreg, hi.current, hi.piece, fun c hc => hi.kept c (List.mem_of_mem_eraseP hc),
        hi.pending, hqueued, hi.silent⟩
  | text pid mtext =>
      refine ⟨hreg, fun m hm => ⟨s.taken, ?_⟩, fun c => ?_, fun c hc => absurd hc List.not_mem_nil,
        fun c hc => ?_, hqueued, hi.silent⟩
      · rw [← Mode.broadcasting.inj hm]
        rfl
      · exact (hi.piece c).trans (List.prefix_append _ _).isInfix
      · have hlevel := hi.kept c hc
        have hlast : (s.taken ++ [ClientMsg.text pid mtext]).dropLast = s.taken :=
          List.dropLast_concat
        exact hlast.symm ▸ hlevel

omit [DecidableEq ι] hi in
omit P s in
theorem mem_queue_append (q : List ClientMsg) (m : ClientMsg) (pid msgid : Nat)
    (hm : m ≠ .login pid msgid) (h : .login pid msgid ∈ q ++ [m]) : .login pid msgid ∈ q :=
  (List.mem_append.mp h).resolve_right (fun hc => hm (List.mem_singleton.mp hc).symm)

/-- Every step keeps the invariant. -/
theorem orderInv_step (e : Event ι) (s' : State ι) (hs : Step P s e s') : OrderInv P s' := by
  have hreg := registryInv_step P s e s' hi.registry hs
  rcases hs with ⟨hen, rfl⟩
  cases e with
  | start c | signal c | logoutFails c | raise c | exit c =>
      exact ⟨hreg, hi.current, hi.piece, hi.kept, hi.pending, hi.queued, hi.silent⟩
  | login c =>
      have hfresh := hi.registry.fresh c (.inr hen)
      refine ⟨hreg, hi.current, hi.piece, hi.kept, hi.pending, fun d hd => ?_, fun d hd => ?_⟩
      · rcases List.mem_append.mp hd with hd | hd
        · exact hi.queued d hd
        · have hdc : d = c := P.msgid_inj (ClientMsg.login.inj (List.mem_singleton.mp hd)).2
          rw [hdc]
          exact hi.silent c hfresh
      · by_cases hdc : d = c
        · rw [hdc]
          exact hi.silent c hfresh
        · have hold : Function.update s.joinedAt c (some s.taken.length) d = s.joinedAt d :=
            Function.update_of_ne hdc _ _
          exact hi.silent d (hold.symm.trans hd)
  | text c mtext =>
      exact ⟨hreg, hi.current, hi.piece, hi.kept, hi.pending,
        fun d hd => hi.queued d (mem_queue_append _ _ _ _ ClientMsg.noConfusion hd), hi.silent⟩
  | logout c =>
      exact ⟨hreg, hi.current, hi.piece, hi.kept, hi.pending,
        fun d hd => hi.queued d (mem_queue_append _ _ _ _ ClientMsg.noConfusion hd), hi.silent⟩
  | receive => exact orderInv_receive P s hi hen
  | send => exact orderInv_send P s hi hen
  | timeout =>
      rcases hen with ⟨m, e, rest, hmode, hpend, -⟩
      simp only [next, hpend] at hreg ⊢
      exact ⟨hreg, hi.current, hi.piece, hi.kept,
        fun c hc => hi.pending c (hpend ▸ List.mem_cons_of_mem _ hc), hi.queued, hi.silent⟩
  | sendFails =>
      exact ⟨hreg, fun _ hm => Mode.noConfusion hm, hi.piece, hi.kept, hi.pending, hi.queued,
        hi.silent⟩
  | finish =>
      exact ⟨hreg, fun _ hm => Mode.noConfusion hm, hi.piece, hi.kept, hi.pending, hi.queued,
        hi.silent⟩

end Steps

/-! ### The texts of one sender -/

/-- The texts of a pid, those taken first and then those in the queue. -/
def textsOf (p : Nat) (s : State ι) : List ClientMsg :=
  (s.taken ++ s.queue).filter (ClientMsg.fromPid p)

omit [DecidableEq ι] in
theorem textsOf_eq (p : Nat) (s : State ι) :
    textsOf p s = (s.taken ++ s.queue.filter ClientMsg.isText).filter (ClientMsg.fromPid p) := by
  rw [textsOf, List.filter_append, List.filter_append, List.filter_filter]
  congr 1
  refine List.filter_congr (fun m _ => ?_)
  cases m with
  | text pid mtext => exact (Bool.and_true _).symm
  | _ => rfl

/-- A step adds to the texts of a sender what it sends, and nothing is lost. -/
theorem texts_step (P : Procs ι) (p : Nat) (s : State ι) (e : Event ι) (s' : State ι)
    (hs : Step P s e s') : textsOf p s' = textsOf p s ++ e.sends P p := by
  have hsends : (sentText P s e).filter (ClientMsg.fromPid p) = e.sends P p := by
    cases e with
    | text c mtext =>
        by_cases hp : P.pid c = p
        · rw [Event.sends, if_pos hp]
          exact List.filter_cons_of_pos (decide_eq_true hp)
        · rw [Event.sends, if_neg hp]
          exact List.filter_cons_of_neg (by simp only [ClientMsg.fromPid, hp, decide_false,
            Bool.false_eq_true, not_false_eq_true])
    | _ => rfl
  rw [textsOf_eq, textsOf_eq, texts_sent_step P s e s' hs, List.filter_append _ (sentText P s e),
    hsends]

theorem texts_run (P : Procs ι) (p : Nat) (s : State ι) (tr : List (Event ι × State ι))
    (hrun : AllSteps (Step P) s tr) :
    textsOf p (lastState s tr) = textsOf p s ++ sentBy P p tr := by
  induction tr generalizing s with
  | nil => exact (List.append_nil _).symm
  | cons r tr ih =>
      rw [lastState, ih r.2 hrun.2, texts_step P p s r.1 r.2 hrun.1, List.append_assoc]
      rfl

/-- At any time, what has been put into each client's queue is a contiguous piece
    of one sequence, the texts the server has taken; this sequence has of each
    sender the first texts that were sent under its pid; and so what a client
    gets from one sender is a contiguous piece of what this one has sent. -/
theorem delivered_ordered (P : Procs ι) (tr : List (Event ι × State ι))
    (hrun : AllSteps (Step P) initial tr) :
    (∀ c, (lastState initial tr).delivered (P.msgid c) <:+: (lastState initial tr).taken) ∧
      (∀ p, (lastState initial tr).taken.filter (ClientMsg.fromPid p) <+: sentBy P p tr) ∧
      ∀ c p, ((lastState initial tr).delivered (P.msgid c)).filter (ClientMsg.fromPid p) <:+:
        sentBy P p tr := by
  have hinv : OrderInv P (lastState initial tr) :=
    always_last initial tr (always_of_allSteps (fun s e s' hi hs => orderInv_step P s hi e s' hs)
      initial tr (orderInv_initial P) hrun)
  have hfirsts : ∀ p, (lastState initial tr).taken.filter (ClientMsg.fromPid p) <+:
      sentBy P p tr := by
    intro p
    have htexts := texts_run P p initial tr hrun
    rw [textsOf, List.filter_append] at htexts
    exact ⟨_, htexts⟩
  exact ⟨hinv.piece, hfirsts, fun c p => ((hinv.piece c).filter _).trans (hfirsts p).isInfix⟩

/-- One client that sends two texts and is sent the first. -/
def twoTexts : List (Event Nat × State Nat) :=
  record (next numbered) initial
    [.start 10, .login 10, .receive, .text 10 [104], .text 10 [105], .receive, .send]

theorem delivered_ordered_twoTexts :
    (∀ c, (lastState initial twoTexts).delivered (numbered.msgid c) <:+:
        (lastState initial twoTexts).taken) ∧
      (∀ p, (lastState initial twoTexts).taken.filter (ClientMsg.fromPid p) <+:
        sentBy numbered p twoTexts) ∧
      ∀ c p, ((lastState initial twoTexts).delivered (numbered.msgid c)).filter
        (ClientMsg.fromPid p) <:+: sentBy numbered p twoTexts :=
  delivered_ordered numbered twoTexts (allSteps_record Enabled _ _ _
    ⟨rfl, rfl, ⟨rfl, rfl⟩, rfl, rfl, ⟨rfl, rfl⟩, ⟨_, _, _, rfl, rfl, rfl⟩, trivial⟩)

end Chat

end TlpiPractice
