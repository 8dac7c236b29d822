import TlpiPractice.Theory.Chat.Delivery

/-!
# Segments of a Run

What each client has been sent, told by the events of the run alone.

The fields of the state in which `Delivery` keeps the sequence and the
positions are records that the steps make of themselves. Here they are what
really happened: the sequence is what `msgrcv` has returned from the server's
queue, a client's segment starts where this sequence was at the event that sent
its LOGIN, and it ends at the event that sent its LOGOUT or before the text of
the first send that failed. Each of the three events happens once at most, so
the fields agree with them. And the sequence is what the clients have sent: with
the texts still in the queue behind it, it is all their texts in order.

## Main definitions

* `receivedText`: The text that the server takes off its queue in a step.
* `puts`: What the server puts into a queue in a step.
* `segmentOf`: The segment of a client in a run.

## Theorems

* `taken_eq_received`: The sequence is what has been received.
* `sent_eq_received`: What has been sent is what has been received and what is
  still in the queue.
* `delivered_eq_segment`: Between broadcasts each client has been sent exactly
  its segment.
-/

namespace TlpiPractice

namespace Chat

open MsgQueue Runs

variable {ι : Type}

def ClientMsg.isText : ClientMsg → Bool
  | .text _ _ => true
  | _ => false

/-- The text that `msgrcv` returns in a step of the server, if it is one. -/
def receivedText (s : State ι) : Event ι → List ClientMsg
  | .receive =>
      match receiveLowest ClientMsg.mtype 3 s.queue with
      | some (m, _) => [m].filter ClientMsg.isText
      | none => []
  | _ => []

/-- The text that a client sends to the server in a step. -/
def sentText (P : Procs ι) (_ : State ι) : Event ι → List ClientMsg
  | .text c mtext => [.text (P.pid c) mtext]
  | _ => []

/-- What `msgsnd` puts into a client's queue in a step of the server. -/
def puts (i : Nat) (s : State ι) : Event ι → List ClientMsg
  | .send =>
      match s.mode, s.pending with
      | .broadcasting m, e :: _ => if e.msgid = i then [m] else []
      | _, _ => []
  | _ => []

/-- The send to a client's queue that times out. -/
def fails (i : Nat) (s : State ι) : Event ι → Bool
  | .timeout =>
      match s.pending with
      | e :: _ => decide (e.msgid = i)
      | [] => false
  | _ => false

variable [DecidableEq ι]

def logsIn (c : ι) (_ : State ι) : Event ι → Bool
  | .login d => decide (d = c)
  | _ => false

def logsOut (c : ι) (_ : State ι) : Event ι → Bool
  | .logout d => decide (d = c)
  | _ => false

/-- The texts that the server has received after a client sent its LOGIN, and
    before it sent its LOGOUT or the first text that could not be sent to it. That
    text has been received when the send to the client fails. -/
def segmentOf (P : Procs ι) (tr : List (Event ι × State ι)) (c : ι) : List ClientMsg :=
  window (outputs receivedText initial tr)
    (countBefore receivedText (logsIn c) initial tr)
    (countBefore receivedText (logsOut c) initial tr)
    ((countBefore receivedText (fails (P.msgid c)) initial tr).map (fun n => n - 1))

section Steps

variable (P : Procs ι) (s : State ι)

theorem taken_step (e : Event ι) (s' : State ι) (hs : Step P s e s') :
    s'.taken = s.taken ++ receivedText s e := by
  rcases hs with ⟨hen, rfl⟩
  cases e with
  | receive =>
      rcases receive_spec P s hen with ⟨m, pre, post, hm, -, hnext, -⟩
      simp only [hnext, receivedText, hm]
      cases m with
      | login pid msgid | logout pid => exact (List.append_nil _).symm
      | text pid mtext => rfl
  | send =>
      rcases hen with ⟨m, e, rest, hmode, hpend, -⟩
      simp only [next, hmode, hpend, receivedText, List.append_nil]
  | timeout =>
      rcases hen with ⟨m, e, rest, -, hpend, -⟩
      simp only [next, hpend, receivedText, List.append_nil]
  | _ => exact (List.append_nil _).symm

/-- The texts received and those still in the queue: a step adds what a client
    sends. -/
theorem texts_sent_step (e : Event ι) (s' : State ι) (hs : Step P s e s') :
    s'.taken ++ s'.queue.filter ClientMsg.isText =
      s.taken ++ s.queue.filter ClientMsg.isText ++ sentText P s e := by
  rcases hs with ⟨hen, rfl⟩
  cases e with
  | login c | logout c =>
      simp only [next, sentText, List.filter_append, List.append_nil]
      rw [List.filter_cons_of_neg Bool.false_ne_true, List.filter_nil, List.append_nil]
  | text c mtext =>
      simp only [next, sentText, List.filter_append, List.append_assoc]
      rfl
  | receive =>
      rcases receive_spec P s hen with ⟨m, pre, post, hm, hq, hnext, hlow⟩
      have hnone : sentText P s .receive = [] := rfl
      rw [hnext, hnone, List.append_nil, hq]
      cases m with
      | login pid msgid | logout pid =>
          simp only [handle, List.filter_append]
          rw [List.filter_cons_of_neg Bool.false_ne_true]
      | text pid mtext =>
          -- The queue has texts only, and this one is the oldest.
          rcases receiveLowest_spec ClientMsg.mtype 3 s.queue _ _ hm with
            ⟨-, -, pre', post', hq', hrest, hpre⟩
          have hnone : pre' = [] := by
            refine List.eq_nil_iff_forall_not_mem.mpr (fun x hx => hpre x hx ?_)
            have hmem : x ∈ s.queue := hq' ▸ List.mem_append_left _ hx
            exact Nat.le_antisymm (mtype_le x) (hlow x hmem)
          subst hnone
          simp only [handle]
          rw [hrest, ← hq, hq', List.nil_append, List.nil_append, List.append_assoc,
            List.filter_cons_of_pos rfl]
          rfl
  | send =>
      rcases hen with ⟨m, e, rest, hmode, hpend, -⟩
      simp only [next, hmode, hpend, sentText, List.append_nil]
  | timeout =>
      rcases hen with ⟨m, e, rest, -, hpend, -⟩
      simp only [next, hpend, sentText, List.append_nil]
  | _ => exact (List.append_nil _).symm

theorem delivered_step (i : Nat) (e : Event ι) (s' : State ι) (hs : Step P s e s') :
    s'.delivered i = s.delivered i ++ puts i s e := by
  rcases hs with ⟨hen, rfl⟩
  cases e with
  | receive =>
      rcases receive_spec P s hen with ⟨m, pre, post, -, -, hnext, -⟩
      rw [hnext]
      cases m with
      | _ => exact (List.append_nil _).symm
  | send =>
      rcases hen with ⟨m, e, rest, hmode, hpend, -⟩
      simp only [next, hmode, hpend, puts]
      by_cases hei : e.msgid = i
      · rw [if_pos hei, hei, Function.update_self]
      · rw [if_neg hei, Function.update_of_ne (fun h => hei h.symm), List.append_nil]
  | timeout =>
      rcases hen with ⟨m, e, rest, -, hpend, -⟩
      simp only [next, hpend, puts, List.append_nil]
  | _ => exact (List.append_nil _).symm

/-- The positions recorded are changed by one kind of event each. -/
theorem positions_next (e : Event ι) (hen : Enabled s e) :
    ((∀ c, e ≠ .login c) → (next P s e).joinedAt = s.joinedAt) ∧
      ((∀ c, e ≠ .logout c) → (next P s e).leftAt = s.leftAt) ∧
      (e ≠ .timeout → (next P s e).failedAt = s.failedAt) := by
  cases e with
  | login c => exact ⟨fun h => absurd rfl (h c), fun _ => rfl, fun _ => rfl⟩
  | logout c => exact ⟨fun _ => rfl, fun h => absurd rfl (h c), fun _ => rfl⟩
  | receive =>
      rcases receive_spec P s hen with ⟨m, pre, post, -, -, hnext, -⟩
      rw [hnext]
      cases m with
      | _ => exact ⟨fun _ => rfl, fun _ => rfl, fun _ => rfl⟩
  | send =>
      rcases hen with ⟨m, e, rest, hmode, hpend, -⟩
      simp only [next, hmode, hpend]
      exact ⟨fun _ => trivial, fun _ => trivial, fun _ => trivial⟩
  | timeout =>
      rcases hen with ⟨m, e, rest, -, hpend, -⟩
      simp only [next, hpend]
      exact ⟨fun _ => trivial, fun _ => trivial, fun h => absurd rfl h⟩
  | _ => exact ⟨fun _ => rfl, fun _ => rfl, fun _ => rfl⟩

variable (hi : DeliveryInv P s)
include hi

/-- Whoever logs in has not done so before. -/
theorem joinedAt_login (c : ι) (e : Event ι) (s' : State ι) (hs : Step P s e s')
    (hit : logsIn c s e = true) : s.joinedAt c = none ∧ s'.joinedAt c = some s.taken.length := by
  rcases hs with ⟨hen, rfl⟩
  cases e with
  | login d =>
      have hdc : d = c := of_decide_eq_true hit
      subst hdc
      exact ⟨hi.registry.fresh d (.inr hen), Function.update_self d _ _⟩
  | _ => cases hit

/-- Whoever logs out has not done so before. -/
theorem leftAt_logout (c : ι) (e : Event ι) (s' : State ι) (hs : Step P s e s')
    (hit : logsOut c s e = true) : s.leftAt c = none ∧ s'.leftAt c = some s.taken.length := by
  rcases hs with ⟨hen, rfl⟩
  cases e with
  | logout d =>
      have hdc : d = c := of_decide_eq_true hit
      subst hdc
      exact ⟨left_none_of_early P s hi d (.inr (.inr (.inr hen))), Function.update_self d _ _⟩
  | _ => cases hit

/-- Whoever could not be reached is not tried again. -/
theorem failedAt_timeout (c : ι) (e : Event ι) (s' : State ι) (hs : Step P s e s')
    (hit : fails (P.msgid c) s e = true) :
    s.failedAt (P.msgid c) = none ∧ s'.failedAt (P.msgid c) = some (s.taken.length - 1) := by
  rcases hs with ⟨hen, rfl⟩
  cases e with
  | timeout =>
      rcases hen with ⟨m, e, rest, -, hpend, -⟩
      have hmem : e ∈ announced s := mem_announced_of_pending s e (hpend ▸ List.mem_cons_self)
      simp only [fails, hpend] at hit
      have hec : e.msgid = P.msgid c := of_decide_eq_true hit
      simp only [next, hpend]
      rw [← hec, Function.update_self]
      refine ⟨?_, rfl⟩
      -- After a send that failed it would not be in the list.
      rcases hi.registry.joined e hmem with ⟨d, rfl, -⟩
      by_contra hfailed
      exact (hi.failed_out d hfailed).2 hmem
  | _ => cases hit

omit hi in
/-- A step of another kind leaves a client's positions. -/
theorem positions_other (c : ι) (e : Event ι) (s' : State ι) (hs : Step P s e s') :
    (logsIn c s e = false → s'.joinedAt c = s.joinedAt c) ∧
      (logsOut c s e = false → s'.leftAt c = s.leftAt c) ∧
      (fails (P.msgid c) s e = false → s'.failedAt (P.msgid c) = s.failedAt (P.msgid c)) := by
  rcases hs with ⟨hen, rfl⟩
  rcases positions_next P s e hen with ⟨hjoined, hleft, hfailed⟩
  refine ⟨fun h => ?_, fun h => ?_, fun h => ?_⟩
  · by_cases hlogin : ∃ d, e = .login d
    · rcases hlogin with ⟨d, rfl⟩
      exact Function.update_of_ne (fun hcd => of_decide_eq_false h hcd.symm) _ _
    · exact congrFun (hjoined (fun d hd => hlogin ⟨d, hd⟩)) c
  · by_cases hlogout : ∃ d, e = .logout d
    · rcases hlogout with ⟨d, rfl⟩
      exact Function.update_of_ne (fun hcd => of_decide_eq_false h hcd.symm) _ _
    · exact congrFun (hleft (fun d hd => hlogout ⟨d, hd⟩)) c
  · by_cases htimeout : e = .timeout
    · subst htimeout
      rcases hen with ⟨m, e, rest, -, hpend, -⟩
      simp only [fails, hpend] at h
      simp only [next, hpend]
      exact Function.update_of_ne (fun hec => of_decide_eq_false h hec.symm) _ _
    · exact congrFun (hfailed htimeout) (P.msgid c)

end Steps

section Runs

variable (P : Procs ι) (tr : List (Event ι × State ι)) (hrun : AllSteps (Step P) initial tr)
include hrun

theorem taken_eq_received : (lastState initial tr).taken = outputs receivedText initial tr :=
  outputs_of_field (fun _ => True) State.taken (fun _ _ _ _ _ => trivial)
    (fun s e s' _ hs => taken_step P s e s' hs) initial tr trivial hrun

/-- All texts that have been sent to the server, in order: first those it has
    received, then those in its queue. -/
theorem sent_eq_received :
    outputs (sentText P) initial tr =
      outputs receivedText initial tr ++ (lastState initial tr).queue.filter ClientMsg.isText := by
  have htexts := outputs_of_field (fun _ => True)
    (fun s => s.taken ++ s.queue.filter ClientMsg.isText) (fun _ _ _ _ _ => trivial)
    (fun s e s' _ hs => texts_sent_step P s e s' hs) initial tr trivial hrun
  rw [taken_eq_received P tr hrun] at htexts
  exact htexts.symm

theorem delivered_eq_puts (i : Nat) :
    (lastState initial tr).delivered i = outputs (puts i) initial tr :=
  outputs_of_field (fun _ => True) (fun s => s.delivered i) (fun _ _ _ _ _ => trivial)
    (fun s e s' _ hs => delivered_step P s i e s' hs) initial tr trivial hrun

/-- The fields have the positions of the events. -/
theorem segment_eq (hpid : Function.Injective P.pid) (c : ι) :
    segment P (lastState initial tr) c = segmentOf P tr c := by
  -- What the steps record is the length of `taken`, the texts received.
  have hstep := deliveryInv_step P hpid
  have hinit := deliveryInv_initial P
  have htaken := fun s e s' (_ : DeliveryInv P s) (hs : Step P s e s') => taken_step P s e s' hs
  have hjoined := countBefore_eq (DeliveryInv P) State.taken (logsIn c) (fun s => s.joinedAt c) id
    hstep htaken (fun s e s' hi hs => joinedAt_login P s hi c e s' hs)
    (fun s e s' _ hs => (positions_other P s c e s' hs).1) initial tr hinit rfl rfl hrun
  have hleft := countBefore_eq (DeliveryInv P) State.taken (logsOut c) (fun s => s.leftAt c) id
    hstep htaken (fun s e s' hi hs => leftAt_logout P s hi c e s' hs)
    (fun s e s' _ hs => (positions_other P s c e s' hs).2.1) initial tr hinit rfl rfl hrun
  have hfailed := countBefore_eq (DeliveryInv P) State.taken (fails (P.msgid c))
    (fun s => s.failedAt (P.msgid c)) (fun n => n - 1) hstep htaken
    (fun s e s' hi hs => failedAt_timeout P s hi c e s' hs)
    (fun s e s' _ hs => (positions_other P s c e s' hs).2.2) initial tr hinit rfl rfl hrun
  rw [Option.map_id, id] at hjoined hleft
  rw [segment, segmentOf, hjoined, hleft, hfailed, taken_eq_received P tr hrun]

end Runs

/-- In every run with distinct pids that has come to the top of the server's
    loop, each client's queue has been sent, by the sends of the server, that
    client's segment of the texts received. All texts that have been sent to the
    server are received in this order or are still in its queue. -/
theorem delivered_eq_segment (P : Procs ι) (hpid : Function.Injective P.pid)
    (tr : List (Event ι × State ι)) (hrun : AllSteps (Step P) initial tr)
    (hmode : (lastState initial tr).mode = .receiving) :
    (∀ c, (lastState initial tr).delivered (P.msgid c) = segmentOf P tr c ∧
        outputs (puts (P.msgid c)) initial tr = segmentOf P tr c) ∧
      outputs (sentText P) initial tr =
        outputs receivedText initial tr ++
          (lastState initial tr).queue.filter ClientMsg.isText := by
  have hi : DeliveryInv P (lastState initial tr) :=
    always_last initial tr
      (always_of_allSteps (deliveryInv_step P hpid) initial tr (deliveryInv_initial P) hrun)
  have hsent : ∀ c, (lastState initial tr).delivered (P.msgid c) = segmentOf P tr c := by
    intro c
    rw [← segment_eq P tr hrun hpid c]
    refine hi.sent c ?_
    rw [hi.registry.idle hmode]
    exact List.not_mem_nil
  exact ⟨fun c => ⟨hsent c, (delivered_eq_puts P tr hrun _).symm.trans (hsent c)⟩,
    sent_eq_received P tr hrun⟩

/-- The second client logs in after the first has sent a text, and is sent
    that text all the same. -/
def lateLogin : List (Event Nat × State Nat) :=
  record (next numbered) initial
    [.start 10, .login 10, .receive, .text 10 [104, 105], .start 11, .login 11,
      .receive, .receive, .send, .send, .finish]

theorem delivered_eq_segment_lateLogin :
    (∀ c, (lastState initial lateLogin).delivered (numbered.msgid c) =
          segmentOf numbered lateLogin c ∧
        outputs (puts (numbered.msgid c)) initial lateLogin = segmentOf numbered lateLogin c) ∧
      outputs (sentText numbered) initial lateLogin =
        outputs receivedText initial lateLogin ++
          (lastState initial lateLogin).queue.filter ClientMsg.isText :=
  delivered_eq_segment numbered (fun _ _ h => h) lateLogin (allSteps_record Enabled _ _ _
    ⟨rfl, rfl, ⟨rfl, rfl⟩, rfl, rfl, rfl, ⟨rfl, rfl⟩, ⟨rfl, rfl⟩,
      ⟨_, _, _, rfl, rfl, rfl⟩, ⟨_, _, _, rfl, rfl, rfl⟩, ⟨_, rfl, rfl⟩, trivial⟩) rfl

end Chat

end TlpiPractice
