import Mathlib.Algebra.Order.BigOperators.Group.List
import Mathlib.Algebra.Order.Group.Int
import Mathlib.Algebra.Ring.Int.Defs
import Mathlib.Data.List.Induction
import TlpiPractice.Core.SigServer

/-!
# Every Request Served in Turn

What becomes of the requests, for any clients and any interleaving.

The FIFO has no borders between requests. Every client writes whole requests
and the server reads as many bytes as a request has, so there are always whole
requests in it, and each read returns the one that was written first. `ServeInv`
says this with the requests in the FIFO written out.

The counter is the sum of the lengths that have been asked for, without those
of the clients whose FIFO could not be opened. So the number in a response is
the sum over the requests before it. If no length is negative and the sum of
all does not go beyond an `int`, no two responses have a number in common.

## Main definitions

* `asked`: The sum of the lengths that have been taken.
* `Numbered`: Every response has the right number.
* `Apart`: Two responses have no number in common.
* `ServeInv`: The invariant.
* `Served`: What is to be proved of every state.
* `twoClients`: A run in which one of two clients has gone.

## Theorems

* `decode_encode`: A request is read back.
* `serveInv_receive`, `serveInv_handle`: The two ends of a request.
* `serveInv_step`: Every step keeps the invariant.
* `apart_of_numbered`: Responses with the right numbers are apart.
* `requests_served`: Every state of every run.
-/

namespace TlpiPractice

namespace SigServer

open Ints Runs Words

/-- What a client can ask for. -/
def Request.Fits (req : Request) : Prop := InRange req.pid ∧ InRange req.seqLen

/-- The number in the response, whether or not it was written. -/
def Outcome.start : Outcome → Option Int
  | .noFifo => none
  | .answered n => some n
  | .unwritten n => some n

/-- How many numbers a request has taken. -/
def taken (p : Request × Outcome) : Int :=
  match p.2 with
  | .noFifo => 0
  | _ => p.1.seqLen

/-- How many numbers some requests have taken. -/
def asked (handled : List (Request × Outcome)) : Int := (handled.map taken).sum

/-- The number of a response is what the requests before it have taken. -/
def Numbered (handled : List (Request × Outcome)) : Prop :=
  ∀ pre p post n, handled = pre ++ p :: post → p.2.start = some n → n = wrap (asked pre)

/-- The responses, with the lengths of their requests. -/
def responses (handled : List (Request × Outcome)) : List (Int × Int) :=
  handled.filterMap (fun p =>
    match p.2 with
    | .answered n => some (n, p.1.seqLen)
    | _ => none)

/-- Two responses have no number in common. -/
def Apart (r r' : Int × Int) : Prop := r.1 + r.2 ≤ r'.1 ∨ r'.1 + r'.2 ≤ r.1

/-- The request that the server is working on, before its end is recorded. -/
def Pc.current : Pc → List Request
  | .received req => [req]
  | .connected req => [req]
  | _ => []

/-- The counter, in terms of what has been taken. -/
def Counter (s : State) : Prop :=
  match s.pc with
  | .ended => True
  | .answered req => wrap (s.seqNum + req.seqLen) = wrap (asked s.handled)
  | _ => s.seqNum = wrap (asked s.handled)

/-- There are whole requests in the FIFO, and all that have been written are
    accounted for, or the server has ended. -/
structure ServeInv (s : State) : Prop where
  fifo : ∃ lost pending : List Request, (∀ req ∈ pending, req.Fits) ∧
    s.fifo = (pending.map encode).flatten ∧
    s.sent = s.handled.map Prod.fst ++ s.pc.current ++ lost ++ pending ∧
    (s.pc ≠ .ended → lost = [])
  counter : Counter s
  numbered : Numbered s.handled

/-- The requests are handled in the order in which they were written, none of
    them twice and none left out, and the numbers in the responses are right. -/
structure Served (s : State) : Prop where
  inOrder : s.handled.map Prod.fst <+: s.sent
  /-- As long as the server runs, what has been written has been handled, is
      being worked on, or is in the FIFO. -/
  accounted : s.pc ≠ .ended → ∃ pending : List Request,
    s.fifo = (pending.map encode).flatten ∧
      s.sent = s.handled.map Prod.fst ++ s.pc.current ++ pending
  numbered : Numbered s.handled
  apart : (∀ req ∈ s.sent, 0 ≤ req.seqLen) → (s.sent.map Request.seqLen).sum ≤ intMax →
    (responses s.handled).Pairwise Apart

/-- A read gets a whole request. -/
def WholeReads (s : State) : Event → Prop
  | .receive => requestSize ≤ s.fifo.length
  | _ => True

theorem length_encode (req : Request) : (encode req).length = requestSize := rfl

theorem decode_encode (req : Request) (h : req.Fits) : decode (encode req) = req := by
  have hpid := getWord_of_drop (encode req) _ 0 (word req.pid) 0 rfl (word_lt _)
  have hseqLen := getWord_of_drop (encode req) [] 4 (word req.seqLen) 0 rfl (word_lt _)
  unfold decode
  simp only [hpid, hseqLen, wrap_word _ h.1, wrap_word _ h.2]

theorem asked_concat (handled : List (Request × Outcome)) (p : Request × Outcome) :
    asked (handled ++ [p]) = asked handled + taken p := by
  unfold asked
  rw [List.map_append, List.sum_append, List.map_singleton, List.sum_singleton]

theorem numbered_concat (handled : List (Request × Outcome)) (p : Request × Outcome)
    (h : Numbered handled) (hp : ∀ n, p.2.start = some n → n = wrap (asked handled)) :
    Numbered (handled ++ [p]) := by
  intro pre q post n heq hq
  rcases List.eq_nil_or_concat post with rfl | ⟨post, r, rfl⟩
  · rcases List.append_inj' heq rfl with ⟨rfl, hlast⟩
    cases hlast
    exact hp n hq
  · rw [List.concat_eq_append, ← List.cons_append, ← List.append_assoc] at heq
    exact h pre q post n (List.append_inj' heq rfl).1 hq

theorem serveInv_initial : ServeInv initial where
  fifo := ⟨[], [], List.forall_mem_nil _, rfl, rfl, fun _ => rfl⟩
  counter := rfl
  numbered := by
    intro pre p post n h
    exact absurd h.symm (List.append_ne_nil_of_right_ne_nil pre (List.cons_ne_nil p post))

/-- A request is written behind the others. -/
theorem serveInv_send (s : State) (req : Request) (h : ServeInv s) (hreq : req.Fits) :
    ServeInv (next s (.send req)) := by
  rcases h.fifo with ⟨lost, pending, hfits, hfifo, hsent, hlost⟩
  refine ⟨⟨lost, pending ++ [req], ?_, ?_, ?_, hlost⟩, h.counter, h.numbered⟩
  · intro r hr
    rcases List.mem_append.mp hr with hr | hr
    · exact hfits r hr
    · rw [List.mem_singleton.mp hr]
      exact hreq
  · simp only [next, hfifo, List.map_append, List.flatten_append, List.map_singleton,
      List.flatten_singleton]
  · simp only [next, hsent, List.append_assoc]

/-- The first request of those in the FIFO is read, and it is whole. -/
theorem serveInv_receive (s : State) (h : ServeInv s) (hpc : s.pc = .ready) (hsome : s.fifo ≠ []) :
    requestSize ≤ s.fifo.length ∧ ServeInv (next s .receive) := by
  rcases h.fifo with ⟨lost, pending, hfits, hfifo, hsent, hlost⟩
  cases pending with
  | nil => exact absurd hfifo hsome
  | cons req pending =>
      rcases List.forall_mem_cons.mp hfits with ⟨hreq, hrest⟩
      rw [List.map_cons, List.flatten_cons] at hfifo
      have hlen := length_encode req
      have htake : s.fifo.take requestSize = encode req := by
        rw [hfifo]
        exact List.take_left' hlen
      have hdrop : s.fifo.drop requestSize = (pending.map encode).flatten := by
        rw [hfifo]
        exact List.drop_left' hlen
      have hnext : next s .receive =
          { s with fifo := (pending.map encode).flatten, pc := .received req } := by
        simp only [next, htake, hlen, if_true, decode_encode req hreq, hdrop]
      have hnone : lost = [] := hlost (by rw [hpc]; exact Pc.noConfusion)
      constructor
      · rw [hfifo, List.length_append, hlen]
        exact Nat.le_add_right _ _
      · rw [hnext]
        refine ⟨⟨[], pending, hrest, rfl, ?_, fun _ => rfl⟩, ?_, h.numbered⟩
        · rw [hsent, hpc, hnone]
          simp only [Pc.current, List.append_nil, List.append_assoc, List.cons_append,
            List.nil_append]
        · have hcounter := h.counter
          rw [Counter, hpc] at hcounter
          exact hcounter

/-- A request is done with, or as good as done. -/
theorem serveInv_handle (s : State) (h : ServeInv s) (req : Request) (o : Outcome) (pc : Pc)
    (hnow : s.pc.current = [req]) (hlive : s.pc ≠ .ended)
    (hcurrent : pc.current = [])
    (hstart : ∀ n, o.start = some n → n = wrap (asked s.handled))
    (hcounter : Counter { s with pc := pc, handled := s.handled ++ [(req, o)] }) :
    ServeInv { s with pc := pc, handled := s.handled ++ [(req, o)] } := by
  rcases h.fifo with ⟨lost, pending, hfits, hfifo, hsent, hlost⟩
  have hnone := hlost hlive
  refine ⟨⟨[], pending, hfits, hfifo, ?_, fun _ => rfl⟩, hcounter,
    numbered_concat s.handled (req, o) h.numbered hstart⟩
  show s.sent = _
  rw [hsent, hnow, hnone, hcurrent, List.map_append]
  simp only [List.append_nil, List.map_cons, List.map_nil]

/-- The counter before the response, whatever the server is doing. -/
theorem counter_eq (s : State) (h : ServeInv s) (req : Request)
    (hpc : s.pc = .received req ∨ s.pc = .connected req) : s.seqNum = wrap (asked s.handled) := by
  have hcounter := h.counter
  rcases hpc with hpc | hpc
  · rw [Counter, hpc] at hcounter
    exact hcounter
  · rw [Counter, hpc] at hcounter
    exact hcounter

/-- The numbers of a response are taken, whether or not it was written. -/
theorem serveInv_respond (s : State) (h : ServeInv s) (req : Request) (o : Outcome)
    (hpc : s.pc = .connected req) (hstart : o.start = some s.seqNum)
    (htaken : taken (req, o) = req.seqLen) :
    ServeInv { s with pc := .answered req, handled := s.handled ++ [(req, o)] } := by
  have heq := counter_eq s h req (.inr hpc)
  refine serveInv_handle s h req o _ (by rw [hpc]; rfl) (by rw [hpc]; exact Pc.noConfusion)
        rfl ?_ ?_
  · intro n hn
    rw [← heq]
    exact (Option.some.inj (hstart.symm.trans hn)).symm
  · show wrap (s.seqNum + req.seqLen) = wrap (asked (s.handled ++ [(req, o)]))
    rw [asked_concat, htaken, heq]
    exact Int.bmod_add_bmod

theorem serveInv_step (s : State) (e : Event) (s' : State) (h : ServeInv s) (hstep : Step s e s') :
    ServeInv s' := by
  rcases hstep with ⟨hen, rfl⟩
  rcases h.fifo with ⟨lost, pending, hfits, hfifo, hsent, hlost⟩
  cases e with
  | send req => exact serveInv_send s req h hen.2
  | receive => exact (serveInv_receive s h hen.1 hen.2).2
  | receiveFails => exact h
  | connect =>
      rcases hen with ⟨req, hpc⟩
      have heq := counter_eq s h req (.inl hpc)
      rw [hpc] at hsent hlost
      simp only [next, hpc]
      exact ⟨⟨lost, pending, hfits, hfifo, hsent, fun _ => hlost Pc.noConfusion⟩, heq, h.numbered⟩
  | connectFails =>
      rcases hen with ⟨req, hpc⟩
      simp only [next, hpc]
      refine serveInv_handle s h req .noFifo .ready (by rw [hpc]; rfl)
        (by rw [hpc]; exact Pc.noConfusion) rfl
        (fun n hn => absurd hn.symm (Option.some_ne_none n)) ?_
      show s.seqNum = wrap (asked (s.handled ++ [(req, .noFifo)]))
      rw [asked_concat, counter_eq s h req (.inl hpc)]
      exact congrArg wrap (Int.add_zero _).symm
  | respond =>
      rcases hen with ⟨req, hpc⟩
      simp only [next, hpc]
      exact serveInv_respond s h req _ hpc rfl rfl
  | respondFails =>
      rcases hen with ⟨req, hpc⟩
      simp only [next, hpc]
      exact serveInv_respond s h req _ hpc rfl rfl
  | close =>
      rcases hen with ⟨req, hpc⟩
      have hcounter := h.counter
      rw [Counter, hpc] at hcounter
      rw [hpc] at hsent hlost
      simp only [next, hpc]
      exact ⟨⟨lost, pending, hfits, hfifo, hsent, fun _ => hlost Pc.noConfusion⟩, hcounter,
        h.numbered⟩
  | signal =>
      -- What the server was working on is lost.
      refine ⟨⟨s.pc.current ++ lost, pending, hfits, hfifo, ?_, fun hc => absurd rfl hc⟩, trivial,
        h.numbered⟩
      show s.sent = s.handled.map Prod.fst ++ [] ++ (s.pc.current ++ lost) ++ pending
      rw [hsent, List.append_nil, List.append_assoc (s.handled.map Prod.fst)]

/-! ### Numbers in common -/

theorem taken_nonneg (p : Request × Outcome) (h : 0 ≤ p.1.seqLen) : 0 ≤ taken p := by
  unfold taken
  split
  · exact Int.le_refl 0
  · exact h

theorem taken_le (p : Request × Outcome) (h : 0 ≤ p.1.seqLen) : taken p ≤ p.1.seqLen := by
  unfold taken
  split
  · exact h
  · exact Int.le_refl _

theorem asked_nonneg (handled : List (Request × Outcome))
    (h : ∀ p ∈ handled, 0 ≤ p.1.seqLen) : 0 ≤ asked handled := by
  refine List.sum_nonneg (fun x hx => ?_)
  rcases List.mem_map.mp hx with ⟨p, hp, rfl⟩
  exact taken_nonneg p (h p hp)

/-- What has been taken is not more than what has been written. -/
theorem asked_le (handled : List (Request × Outcome)) (sent : List Request)
    (h : handled.map Prod.fst <+: sent) (hsent : ∀ req ∈ sent, 0 ≤ req.seqLen) :
    asked handled ≤ (sent.map Request.seqLen).sum := by
  rcases h with ⟨rest, rfl⟩
  have hrest : 0 ≤ (rest.map Request.seqLen).sum := by
    refine List.sum_nonneg (fun x hx => ?_)
    rcases List.mem_map.mp hx with ⟨req, hreq, rfl⟩
    exact hsent req (List.mem_append_right _ hreq)
  have hle : asked handled ≤ ((handled.map Prod.fst).map Request.seqLen).sum := by
    rw [List.map_map]
    refine List.sum_le_sum (fun p hp => taken_le p ?_)
    exact hsent p.1 (List.mem_append_left _ (List.mem_map_of_mem hp))
  rw [List.map_append, List.sum_append]
  omega

theorem responses_concat (handled : List (Request × Outcome)) (p : Request × Outcome) :
    responses (handled ++ [p]) = responses handled ++ responses [p] :=
  List.filterMap_append

/-- The responses end where the counter is, and no two of them have a number in
    common. -/
theorem apart_of_numbered (handled : List (Request × Outcome)) (hnumbered : Numbered handled)
    (hlens : ∀ p ∈ handled, 0 ≤ p.1.seqLen) (hfits : asked handled ≤ intMax) :
    (∀ r ∈ responses handled, r.1 + r.2 ≤ asked handled) ∧
      (responses handled).Pairwise Apart := by
  induction handled using List.reverseRecOn with
  | nil => exact ⟨List.forall_mem_nil _, List.Pairwise.nil⟩
  | append_singleton handled p ih =>
      have hp : 0 ≤ p.1.seqLen := hlens p (List.mem_append_right _ List.mem_cons_self)
      have hbefore : ∀ q ∈ handled, 0 ≤ q.1.seqLen :=
        fun q hq => hlens q (List.mem_append_left _ hq)
      have htaken := taken_nonneg p hp
      have hasked := asked_nonneg handled hbefore
      rw [asked_concat] at hfits ⊢
      have hold : Numbered handled := by
        intro pre q post n heq hq
        refine hnumbered pre q (post ++ [p]) n ?_ hq
        rw [heq, List.append_assoc, List.cons_append]
      rcases ih hold hbefore (by omega) with ⟨hends, hapart⟩
      rw [responses_concat]
      have hlast : ∀ r ∈ responses [p], r = (asked handled, taken p) := by
        intro r hr
        rcases List.mem_filterMap.mp hr with ⟨q, hq, hsome⟩
        rw [List.mem_singleton.mp hq] at hsome
        cases hout : p.2 with
        | noFifo =>
            rw [hout] at hsome
            cases hsome
        | unwritten n =>
            rw [hout] at hsome
            cases hsome
        | answered n =>
            rw [hout] at hsome
            have hn := hnumbered handled p [] n rfl (by rw [hout]; rfl)
            rw [wrap_of_nonneg _ hasked (by omega)] at hn
            rw [← Option.some.inj hsome, hn, taken, hout]
      constructor
      · intro r hr
        rcases List.mem_append.mp hr with hr | hr
        · have hle := hends r hr
          omega
        · rw [hlast r hr]
      · refine List.pairwise_append.mpr ⟨hapart, ?_, fun r hr r' hr' => .inl ?_⟩
        · unfold responses
          rw [List.filterMap_cons]
          split
          · exact List.Pairwise.nil
          · exact List.pairwise_singleton _ _
        · rw [hlast r' hr']
          exact hends r hr

theorem served_of_inv (s : State) (h : ServeInv s) : Served s := by
  rcases h.fifo with ⟨lost, pending, _, hfifo, hsent, hlost⟩
  have hinOrder : s.handled.map Prod.fst <+: s.sent := by
    rw [hsent, List.append_assoc, List.append_assoc]
    exact List.prefix_append _ _
  refine ⟨hinOrder, fun hlive => ⟨pending, hfifo, ?_⟩, h.numbered, fun hlens hfits => ?_⟩
  · rw [hsent, hlost hlive, List.append_nil]
  refine (apart_of_numbered s.handled h.numbered ?_ ?_).2
  · exact fun p hp => hlens p.1 (hinOrder.subset (List.mem_map_of_mem hp))
  · exact (asked_le s.handled s.sent hinOrder hlens).trans hfits

theorem wholeReads_of_inv (s : State) (e : Event) (hen : Enabled s e) (h : ServeInv s) :
    WholeReads s e := by
  cases e with
  | receive => exact (serveInv_receive s h hen.1 hen.2).1
  | send req => exact trivial
  | receiveFails => exact trivial
  | connect => exact trivial
  | connectFails => exact trivial
  | respond => exact trivial
  | respondFails => exact trivial
  | close => exact trivial
  | signal => exact trivial

/-- Whatever the clients ask for and whatever fails, the requests are handled
    in the order in which they were written, every read gets one of them whole,
    every response has the number that the requests before it leave, and where
    the numbers do not run out no two responses have one in common. -/
theorem requests_served (tr : List (Event × State)) (hrun : AllSteps Step initial tr) :
    Always Served initial tr ∧ StepsMeet WholeReads initial tr := by
  have hinv := always_of_allSteps serveInv_step initial tr serveInv_initial hrun
  refine ⟨always_mono served_of_inv initial tr hinv, allSteps_of_always ?_ initial tr hinv hrun⟩
  exact fun s e _ h hstep => wholeReads_of_inv s e hstep.1 h

/-- The FIFO of the first client is not there any more. -/
def twoClients : List Event :=
  [.send ⟨7, 3⟩, .send ⟨8, 2⟩, .receive, .connectFails, .receive, .connect, .respond, .close,
    .signal]

theorem requests_served_twoClients :
    Always Served initial (record next initial twoClients) ∧
      StepsMeet WholeReads initial (record next initial twoClients) := by
  refine requests_served _ (allSteps_record Enabled next _ _ ?_)
  have hfits : ∀ x : Int, 0 ≤ x → x ≤ 8 → InRange x := by
    intro x hlow hhigh
    rw [InRange, intMin, intMax]
    omega
  exact ⟨⟨Pc.noConfusion, hfits 7 (by decide) (by decide), hfits 3 (by decide) (by decide)⟩,
    ⟨Pc.noConfusion, hfits 8 (by decide) (by decide), hfits 2 (by decide) (by decide)⟩,
    ⟨rfl, by decide⟩, ⟨_, rfl⟩, ⟨rfl, by decide⟩, ⟨_, rfl⟩, ⟨_, rfl⟩, ⟨_, rfl⟩,
    fun h => Pc.noConfusion h, trivial⟩

end SigServer

end TlpiPractice
