import TlpiPractice.Theory.Chat.Registry

/-!
# Delivery of Texts

What each client has been sent, in every run with distinct pids.

The texts the server has taken off its queue form one sequence, and what it
has put into a client's queue is a contiguous piece of it: the piece that
starts where the sequence was when the client sent its LOGIN, and ends where
it was when the client sent its LOGOUT, or just before the first text that
could not be sent to it. Nothing is lost at either end, although a LOGIN may
be sent while texts are already queued and a LOGOUT while some are still
queued, because no text is taken while a LOGIN or a LOGOUT is in the queue.
`msgrcv` returns those first, so whoever has asked to join is in the list
before the next text is taken, and whoever has asked to leave is not.

`window` is that piece, as a function of the sequence and of the recorded
positions. During a broadcast the clients still to be reached are one text
behind, and `DeliveryInv` says so by cutting the last text off for them. The
rest of the invariant is what the window lemmas ask for: the positions lie
within the sequence, a client that is no longer announced has an end recorded,
and an announced client that has sent its LOGOUT still has it in the queue.

Pids have to be distinct here. A LOGOUT names a pid, and the server drops the
first entry with that pid, whoever sent it.

## Main definitions

* `window`: The piece of a sequence between the recorded positions.
* `segment`: The window of a client.
* `DeliveryInv`: What every queue has been sent, with the facts it rests on.

## Theorems

* `window_append_closed`: A closed window does not grow.
* `window_append_open`: An open window grows with the sequence.
* `window_fail`, `window_leave_now`: Recording an end at the current position.
* `deliveryInv_step`: Every step keeps the invariant.
-/

namespace TlpiPractice

namespace Chat

open MsgQueue Runs

/-! ### Windows of the sequence of texts -/

/-- The texts from position `joined` on, up to the earlier of the two ends
    that are recorded. -/
def window (taken : List ClientMsg) (joined left failed : Option Nat) : List ClientMsg :=
  match joined with
  | none => []
  | some a => (taken.take (min (left.getD taken.length) (failed.getD taken.length))).drop a

section Window

variable (taken : List ClientMsg) (m : ClientMsg) (joined left failed : Option Nat)

/-- Once an end is recorded, further texts are outside the window. -/
theorem window_append_closed (hleft : ∀ k, left = some k → k ≤ taken.length)
    (hfailed : ∀ k, failed = some k → k ≤ taken.length) (hend : left ≠ none ∨ failed ≠ none) :
    window (taken ++ [m]) joined left failed = window taken joined left failed := by
  cases joined with
  | none => rfl
  | some a =>
      have hmin : min (left.getD (taken ++ [m]).length) (failed.getD (taken ++ [m]).length)
          = min (left.getD taken.length) (failed.getD taken.length) := by
        rw [List.length_append, List.length_singleton]
        -- The earlier of the ends is one of the recorded ones, within the old sequence.
        cases left with
        | none =>
            cases failed with
            | none => exact absurd hend (by simp only [ne_eq, not_true_eq_false, or_self,
                not_false_eq_true])
            | some j =>
                have hj := hfailed j rfl
                simp only [Option.getD_none, Option.getD_some]
                omega
        | some k =>
            have hk := hleft k rfl
            cases failed with
            | none =>
                simp only [Option.getD_none, Option.getD_some]
                omega
            | some j => rfl
      have hle : min (left.getD taken.length) (failed.getD taken.length) ≤ taken.length := by
        cases left with
        | none => exact Nat.min_le_left _ _
        | some k => exact Nat.le_trans (Nat.min_le_left _ _) (hleft k rfl)
      simp only [window]
      rw [hmin, List.take_append_of_le_length hle]

/-- Before any end is recorded, the window is the rest of the sequence. -/
theorem window_open (a : Nat) : window taken (some a) none none = taken.drop a := by
  simp only [window, Option.getD_none, Nat.min_self, List.take_length]

/-- Recording the current position as an end does not change the window. -/
theorem window_leave_now :
    window taken joined (some taken.length) failed = window taken joined none failed := by
  cases joined with
  | none => rfl
  | some a => simp only [window, Option.getD_some, Option.getD_none]

/-- An open window grows with the sequence. -/
theorem window_append_open (a : Nat) (ha : a ≤ taken.length) :
    window (taken ++ [m]) (some a) none none = window taken (some a) none none ++ [m] := by
  rw [window_open, window_open, List.drop_append_of_le_length ha]

/-- A text that could not be sent is outside the window from then on. -/
theorem window_fail (a : Nat) (hleft : left = none ∨ left = some (taken ++ [m]).length) :
    window (taken ++ [m]) (some a) left (some taken.length)
      = window taken (some a) none none := by
  have hlen : taken.length ≤ (taken ++ [m]).length := by
    rw [List.length_append]
    omega
  have hmin : min (left.getD (taken ++ [m]).length) taken.length = taken.length := by
    rcases hleft with rfl | rfl
    · exact Nat.min_eq_right hlen
    · exact Nat.min_eq_right hlen
  simp only [window, Option.getD_some, Option.getD_none, hmin, Nat.min_self]
  rw [List.take_append_of_le_length (Nat.le_refl _)]

/-- A window that starts at the end of the sequence is empty. -/
theorem window_start : window taken (some taken.length) left failed = [] := by
  refine List.drop_eq_nil_of_le ?_
  rw [List.length_take]
  exact Nat.min_le_right _ _

end Window

variable {ι : Type}

/-- The texts a client should have been sent: those taken off the server's
    queue after it sent its LOGIN, and before it sent its LOGOUT or the first
    send to it failed. -/
def segment (P : Procs ι) (s : State ι) (c : ι) : List ClientMsg :=
  window s.taken (s.joinedAt c) (s.leftAt c) (s.failedAt (P.msgid c))

/-- What each client queue has been sent, and the facts this rests on. -/
structure DeliveryInv (P : Procs ι) (s : State ι) : Prop where
  registry : RegistryInv P s
  joined_le : ∀ c a, s.joinedAt c = some a → a ≤ s.taken.length
  left_le : ∀ c k, s.leftAt c = some k → k ≤ s.taken.length
  failed_le : ∀ i j, s.failedAt i = some j → j ≤ s.taken.length
  left_phase : ∀ c, s.leftAt c ≠ none → s.phase c = .leaving ∨ s.phase c = .gone
  left_queued : ∀ c, P.entry c ∈ announced s → s.leftAt c ≠ none → .logout (P.pid c) ∈ s.queue
  sender : ∀ p, .logout p ∈ s.queue → ∃ c, P.pid c = p ∧ s.leftAt c ≠ none
  failed_out : ∀ c, s.failedAt (P.msgid c) ≠ none →
    s.joinedAt c ≠ none ∧ P.entry c ∉ announced s
  ended : ∀ c, s.joinedAt c ≠ none → P.entry c ∉ announced s →
    s.leftAt c ≠ none ∨ s.failedAt (P.msgid c) ≠ none
  behind : ∀ c, P.entry c ∈ s.pending →
    (∃ a, s.joinedAt c = some a ∧ a < s.taken.length) ∧
      (s.leftAt c = none ∨ s.leftAt c = some s.taken.length)
  current : ∀ m, s.mode = .broadcasting m → ∃ t, s.taken = t ++ [m]
  sent_behind : ∀ c, P.entry c ∈ s.pending →
    s.delivered (P.msgid c) = window s.taken.dropLast (s.joinedAt c) none none
  sent : ∀ c, P.entry c ∉ s.pending → s.delivered (P.msgid c) = segment P s c

theorem deliveryInv_initial (P : Procs ι) : DeliveryInv P initial where
  registry := registryInv_initial P
  joined_le := fun _ _ h => absurd h (by simp only [initial, reduceCtorEq, not_false_eq_true])
  left_le := fun _ _ h => absurd h (by simp only [initial, reduceCtorEq, not_false_eq_true])
  failed_le := fun _ _ h => absurd h (by simp only [initial, reduceCtorEq, not_false_eq_true])
  left_phase := fun _ h => absurd rfl h
  left_queued := fun _ h => absurd h List.not_mem_nil
  sender := fun _ h => absurd h List.not_mem_nil
  failed_out := fun _ h => absurd rfl h
  ended := fun _ h => absurd rfl h
  behind := fun _ h => absurd h List.not_mem_nil
  current := fun _ h => absurd h (by simp only [initial, reduceCtorEq, not_false_eq_true])
  sent_behind := fun _ h => absurd h List.not_mem_nil
  sent := fun _ _ => rfl

/-- A step that only changes how far clients have got and which queues exist
    keeps the invariant. -/
theorem deliveryInv_phase (P : Procs ι) (s : State ι) (hi : DeliveryInv P s) (phase : ι → Phase)
    (isOpen : Nat → Bool)
    (hreg : RegistryInv P { s with phase := phase, isOpen := isOpen })
    (hphase : ∀ c, s.leftAt c ≠ none → phase c = .leaving ∨ phase c = .gone) :
    DeliveryInv P { s with phase := phase, isOpen := isOpen } where
  registry := hreg
  joined_le := hi.joined_le
  left_le := hi.left_le
  failed_le := hi.failed_le
  left_phase := hphase
  left_queued := hi.left_queued
  sender := hi.sender
  failed_out := hi.failed_out
  ended := hi.ended
  behind := hi.behind
  current := hi.current
  sent_behind := hi.sent_behind
  sent := hi.sent

/-- Receiving a LOGIN changes where an entry is, not whether it is there. -/
theorem deliveryInv_handle_login (P : Procs ι) (s : State ι) (hi : DeliveryInv P s)
    (pre post : List ClientMsg) (pid msgid : Nat)
    (hq : s.queue = pre ++ .login pid msgid :: post)
    (hreg : RegistryInv P (handle s (pre ++ post) (.login pid msgid))) :
    DeliveryInv P (handle s (pre ++ post) (.login pid msgid)) := by
  have hperm := announced_handle_login s pre post pid msgid hq
  -- The LOGIN itself is the only message that has gone.
  have hstays : ∀ p, ClientMsg.logout p ∈ s.queue ↔ ClientMsg.logout p ∈ pre ++ post := by
    intro p
    simp only [hq, List.mem_append, List.mem_cons, reduceCtorEq, false_or]
  refine ⟨hreg, hi.joined_le, hi.left_le, hi.failed_le, hi.left_phase, fun d hd hl => ?_,
    fun p hp => hi.sender p ((hstays p).mpr hp), fun d hf => ?_, fun d hj hd => ?_, hi.behind,
    hi.current, hi.sent_behind, hi.sent⟩
  · -- The queued LOGOUTs are the same.
    exact (hstays _).mp (hi.left_queued d (hperm.mem_iff.mp hd) hl)
  · -- An entry dropped before has not come back.
    exact ⟨(hi.failed_out d hf).1, fun h => (hi.failed_out d hf).2 (hperm.mem_iff.mp h)⟩
  · exact hi.ended d hj (fun h => hd (hperm.mem_iff.mpr h))

/-- Receiving a LOGOUT drops its sender, whose window it had closed. -/
theorem deliveryInv_handle_logout (P : Procs ι) (hpid : Function.Injective P.pid) (s : State ι)
    (hi : DeliveryInv P s) (pre post : List ClientMsg) (pid : Nat) (hmode : s.mode = .receiving)
    (hq : s.queue = pre ++ .logout pid :: post) (hlow : ∀ x ∈ s.queue, 2 ≤ x.mtype)
    (hreg : RegistryInv P (handle s (pre ++ post) (.logout pid))) :
    DeliveryInv P (handle s (pre ++ post) (.logout pid)) := by
  have hnil := hi.registry.idle hmode
  have hsub := announced_handle_logout s pre post pid hq
  -- No LOGIN is queued, so whoever is announced is in the list.
  have hkept := announced_eq_kept s hlow hnil
  have hkept' := announced_handle_logout_eq s pre post pid hq hlow hnil
  have hgone : ∀ d, P.pid d = pid →
      P.entry d ∉ announced (handle s (pre ++ post) (.logout pid)) := by
    intro d hd
    rw [hkept', ← hd]
    -- The entry removed has the client's pid, so it is the client's.
    refine entry_not_mem_eraseP P s.kept (hkept ▸ hi.registry.nodup) d (fun e he hep => ?_)
    rcases hi.registry.joined e (hkept ▸ he) with ⟨c, rfl, _⟩
    rw [hpid hep]
  refine ⟨hreg, hi.joined_le, hi.left_le, hi.failed_le, hi.left_phase, fun d hd hl => ?_,
    fun p hp => ?_, fun d hf => ?_, fun d hj hd => ?_, hi.behind, hi.current, hi.sent_behind,
    hi.sent⟩
  · -- Another client's LOGOUT is still queued.
    have hne : P.pid d ≠ pid := fun h => hgone d h hd
    exact mem_rest_of_queue s pre post _ _ hq (hi.left_queued d (hsub.subset hd) hl)
      (fun h => hne (ClientMsg.logout.inj h))
  · exact hi.sender p (mem_queue_of_rest s pre post _ _ hq hp)
  · -- An entry dropped before has not come back.
    exact ⟨(hi.failed_out d hf).1, fun h => (hi.failed_out d hf).2 (hsub.subset h)⟩
  · by_cases hin : P.entry d ∈ announced s
    · -- The entry that went has the pid of the LOGOUT, so its owner sent it.
      by_cases hdp : P.pid d = pid
      · have hmem : ClientMsg.logout pid ∈ s.queue := by
          rw [hq]
          exact List.mem_append_right _ List.mem_cons_self
        rcases hi.sender pid hmem with ⟨c, hc, hl⟩
        rw [← hdp] at hc
        exact Or.inl (hpid hc ▸ hl)
      · refine absurd ?_ hd
        rw [hkept']
        refine (List.mem_eraseP_of_neg ?_).mpr (hkept ▸ hin)
        rw [decide_eq_true_eq]
        exact hdp
    · exact hi.ended d hj hin

/-- Taking a text makes everyone in the list lag behind by it, and nobody
    else is concerned. -/
theorem deliveryInv_handle_text (P : Procs ι) (s : State ι) (hi : DeliveryInv P s)
    (pre post : List ClientMsg) (pid : Nat) (mtext : List UInt8) (hmode : s.mode = .receiving)
    (hq : s.queue = pre ++ .text pid mtext :: post) (hlow : ∀ x ∈ s.queue, 3 ≤ x.mtype)
    (hreg : RegistryInv P (handle s (pre ++ post) (.text pid mtext))) :
    DeliveryInv P (handle s (pre ++ post) (.text pid mtext)) := by
  have hnil := hi.registry.idle hmode
  have heq := announced_handle_text s pre post pid mtext hq hnil
  -- Nobody who is announced has a LOGOUT on the way, nor one already sent.
  have hstay : ∀ d, P.entry d ∈ announced s → s.leftAt d = none := by
    intro d hd
    by_contra hl
    have hmtype := hlow _ (hi.left_queued d hd hl)
    simp only [ClientMsg.mtype] at hmtype
    omega
  have hkept := announced_eq_kept s (fun x hx => Nat.le_trans (by omega) (hlow x hx)) hnil
  have hlen : (s.taken ++ [ClientMsg.text pid mtext]).length = s.taken.length + 1 := by
    rw [List.length_append, List.length_singleton]
  refine ⟨hreg, fun d a hd => ?_, fun d k hd => ?_, fun i j hf => ?_, hi.left_phase,
    fun d hd hl => ?_, fun p hp => hi.sender p (mem_queue_of_rest s pre post _ _ hq hp),
    fun d hf => ?_, fun d hj hd => ?_, fun d hd => ?_, fun m hm => ?_, fun d hd => ?_,
    fun d hd => ?_⟩
  · -- The recorded positions are within the longer sequence, too.
    have := hi.joined_le d a hd
    simp only [handle, hlen]
    omega
  · have := hi.left_le d k hd
    simp only [handle, hlen]
    omega
  · have := hi.failed_le i j hf
    simp only [handle, hlen]
    omega
  · -- No LOGOUT is queued that an entry could belong to.
    exact absurd (hstay d (heq ▸ hd)) hl
  · exact ⟨(hi.failed_out d hf).1, heq ▸ (hi.failed_out d hf).2⟩
  · exact hi.ended d hj (heq ▸ hd)
  · -- Whoever is in the list has joined before this text.
    have hmem : P.entry d ∈ announced s := hkept ▸ hd
    rcases hi.registry.joined _ hmem with ⟨c, hc, hj⟩
    rcases Option.ne_none_iff_exists'.mp hj with ⟨a, ha⟩
    have hle := hi.joined_le c a ha
    rw [← entry_inj P d c hc] at ha
    refine ⟨⟨a, ha, ?_⟩, Or.inl (hstay d hmem)⟩
    simp only [handle, hlen]
    omega
  · -- The text broadcast is the last one taken.
    simp only [handle, Mode.broadcasting.injEq] at hm
    exact ⟨s.taken, by simp only [handle, hm]⟩
  · -- In the list: one text behind, with an open window.
    have hmem : P.entry d ∈ announced s := hkept ▸ hd
    have hfail : s.failedAt (P.msgid d) = none := by
      by_contra hf
      exact (hi.failed_out d hf).2 hmem
    have hsent := hi.sent d (hnil ▸ List.not_mem_nil)
    rw [segment, hstay d hmem, hfail] at hsent
    simp only [handle, List.dropLast_concat]
    exact hsent
  · -- Not in the list: no window yet, or a closed one.
    have hsent := hi.sent d (hnil ▸ List.not_mem_nil)
    simp only [handle, segment] at hd hsent ⊢
    rw [hsent]
    by_cases hj : s.joinedAt d = none
    · rw [hj]
      rfl
    · exact (window_append_closed s.taken _ _ _ _ (hi.left_le d) (hi.failed_le _)
        (hi.ended d hj (hkept ▸ hd))).symm

/-- Only the first of the clients still to be reached is reached. -/
theorem not_pending_of_ne (P : Procs ι) (s : State ι) (c d : ι) (rest : List Client)
    (hpend : s.pending = P.entry c :: rest) (hdc : d ≠ c) (hd : P.entry d ∉ rest) :
    P.entry d ∉ s.pending := by
  intro h
  rw [hpend] at h
  rcases List.mem_cons.mp h with h | h
  · exact hdc (entry_inj P d c h)
  · exact hd h

/-- A client that is not yet leaving has not sent its LOGOUT. -/
theorem left_none_of_early (P : Procs ι) (s : State ι) (hi : DeliveryInv P s) (c : ι)
    (hc : s.phase c = .absent ∨ s.phase c = .started ∨ s.phase c = .active ∨
      s.phase c = .closing) : s.leftAt c = none := by
  by_contra hne
  rcases hi.left_phase c hne with h | h
  · simp only [h, reduceCtorEq, or_self] at hc
  · simp only [h, reduceCtorEq, or_self] at hc

variable [DecidableEq ι]

/-- Any phase may follow for a client that has not sent its LOGOUT. -/
theorem left_phase_update (P : Procs ι) (s : State ι) (hi : DeliveryInv P s) (c : ι) (p : Phase)
    (hc : s.leftAt c = none ∨ p = .leaving ∨ p = .gone) (d : ι) (hd : s.leftAt d ≠ none) :
    Function.update s.phase c p d = .leaving ∨ Function.update s.phase c p d = .gone := by
  by_cases hdc : d = c
  · rw [hdc] at hd
    rw [hdc, Function.update_self]
    exact hc.resolve_left hd
  · rw [Function.update_of_ne hdc]
    exact hi.left_phase d hd

/-- Sending the LOGIN opens the client's window where the sequence stands. -/
theorem deliveryInv_login (P : Procs ι) (s : State ι) (hi : DeliveryInv P s) (c : ι)
    (hen : Enabled s (.login c)) : DeliveryInv P (next P s (.login c)) := by
  have hreg := registryInv_step P s _ _ hi.registry ⟨hen, rfl⟩
  have hc := hi.registry.fresh c (Or.inr hen)
  have hperm := announced_login P s c
  have hout := not_announced_of_fresh P s hi.registry c hc
  have hleft := left_none_of_early P s hi c (Or.inr (Or.inl hen))
  refine ⟨hreg, fun d a hd => ?_, hi.left_le, hi.failed_le, ?_, fun d hd hl => ?_, fun p hp => ?_,
    fun d hf => ?_, fun d hj hd => ?_, fun d hd => ?_, hi.current, fun d hd => ?_, fun d hd => ?_⟩
  · -- The position recorded is the end of the sequence.
    by_cases hdc : d = c
    · simp only [next, hdc, Function.update_self, Option.some.injEq] at hd
      exact Nat.le_of_eq hd.symm
    · simp only [next, Function.update_of_ne hdc] at hd
      exact hi.joined_le d a hd
  · exact left_phase_update P s hi c _ (Or.inl hleft)
  · -- The queued LOGOUTs are the same, and the newcomer has sent none.
    rcases List.mem_cons.mp (hperm.mem_iff.mp hd) with heq | hd
    · exact absurd (entry_inj P d c heq ▸ hleft) hl
    · exact List.mem_append_left _ (hi.left_queued d hd hl)
  · rcases List.mem_append.mp hp with hp | hp
    · exact hi.sender p hp
    · simp only [List.mem_singleton, reduceCtorEq] at hp
  · -- A client dropped has logged in before, so it is not this one.
    rcases hi.failed_out d hf with ⟨hj, hd⟩
    have hdc : d ≠ c := fun h => hj (h ▸ hc)
    refine ⟨by simpa only [next, Function.update_of_ne hdc] using hj, fun hmem => ?_⟩
    rcases List.mem_cons.mp (hperm.mem_iff.mp hmem) with heq | hmem
    · exact hdc (entry_inj P d c heq)
    · exact hd hmem
  · have hdc : d ≠ c := fun h => hd (h ▸ hperm.mem_iff.mpr List.mem_cons_self)
    simp only [next, Function.update_of_ne hdc] at hj
    exact hi.ended d hj (fun hmem => hd (hperm.mem_iff.mpr (List.mem_cons_of_mem _ hmem)))
  · -- The newcomer is not in the list yet, so it has nothing to catch up with.
    have hdc : d ≠ c := fun h => hout (h ▸ List.mem_append_right _ (List.mem_append_right _ hd))
    simpa only [next, Function.update_of_ne hdc] using hi.behind d hd
  · have hdc : d ≠ c := fun h => hout (h ▸ List.mem_append_right _ (List.mem_append_right _ hd))
    simpa only [next, Function.update_of_ne hdc] using hi.sent_behind d hd
  · by_cases hdc : d = c
    · -- The newcomer has been sent nothing, and its window is empty.
      rw [hdc] at hd ⊢
      have hsent := hi.sent c hd
      rw [segment, hc] at hsent
      simp only [next, segment, Function.update_self, window_start]
      exact hsent
    · simpa only [next, segment, Function.update_of_ne hdc] using hi.sent d hd

/-- Sending the LOGOUT closes the client's window where the sequence stands. -/
theorem deliveryInv_logout (P : Procs ι) (s : State ι) (hi : DeliveryInv P s) (c : ι)
    (hen : Enabled s (.logout c)) : DeliveryInv P (next P s (.logout c)) := by
  have hreg := registryInv_step P s _ _ hi.registry ⟨hen, rfl⟩
  have heq := announced_logout P s c
  have hleft := left_none_of_early P s hi c (Or.inr (Or.inr (Or.inr hen)))
  refine ⟨hreg, hi.joined_le, fun d k hd => ?_, hi.failed_le, fun d hd => ?_, fun d hd hl => ?_,
    fun p hp => ?_, fun d hf => ?_, fun d hj hd => ?_, fun d hd => ?_, hi.current, hi.sent_behind,
    fun d hd => ?_⟩
  · by_cases hdc : d = c
    · simp only [next, hdc, Function.update_self, Option.some.injEq] at hd
      exact Nat.le_of_eq hd.symm
    · simp only [next, Function.update_of_ne hdc] at hd
      exact hi.left_le d k hd
  · by_cases hdc : d = c
    · simp only [next, hdc, Function.update_self, true_or]
    · simp only [next, Function.update_of_ne hdc] at hd ⊢
      exact hi.left_phase d hd
  · by_cases hdc : d = c
    · rw [hdc]
      exact List.mem_append_right _ List.mem_cons_self
    · simp only [next, Function.update_of_ne hdc] at hl
      exact List.mem_append_left _ (hi.left_queued d (heq ▸ hd) hl)
  · rcases List.mem_append.mp hp with hp | hp
    · rcases hi.sender p hp with ⟨d, hd, hl⟩
      have hdc : d ≠ c := fun h => hl (h ▸ hleft)
      exact ⟨d, hd, by simpa only [next, Function.update_of_ne hdc] using hl⟩
    · simp only [List.mem_singleton, ClientMsg.logout.injEq] at hp
      exact ⟨c, hp.symm, by simp only [next, Function.update_self, ne_eq, reduceCtorEq,
        not_false_eq_true]⟩
  · exact ⟨(hi.failed_out d hf).1, heq ▸ (hi.failed_out d hf).2⟩
  · by_cases hdc : d = c
    · exact Or.inl (by simp only [next, hdc, Function.update_self, ne_eq, reduceCtorEq,
        not_false_eq_true])
    · simpa only [next, Function.update_of_ne hdc] using hi.ended d hj (heq ▸ hd)
  · rcases hi.behind d hd with ⟨ha, hl⟩
    refine ⟨ha, ?_⟩
    by_cases hdc : d = c
    · exact Or.inr (by simp only [next, hdc, Function.update_self])
    · simpa only [next, Function.update_of_ne hdc] using hl
  · by_cases hdc : d = c
    · rw [hdc] at hd ⊢
      have hsent := hi.sent c hd
      rw [segment, hleft] at hsent
      simp only [next, segment, Function.update_self, window_leave_now]
      exact hsent
    · simpa only [next, segment, Function.update_of_ne hdc] using hi.sent d hd

/-- A text in the server's queue concerns nobody until it is taken. -/
theorem deliveryInv_text (P : Procs ι) (s : State ι) (hi : DeliveryInv P s) (c : ι)
    (mtext : List UInt8) (hen : Enabled s (.text c mtext)) :
    DeliveryInv P (next P s (.text c mtext)) := by
  have hreg := registryInv_step P s _ _ hi.registry ⟨hen, rfl⟩
  have heq := announced_text P s c mtext
  refine ⟨hreg, hi.joined_le, hi.left_le, hi.failed_le, hi.left_phase, fun d hd hl => ?_,
    fun p hp => ?_, fun d hf => ?_, fun d hj hd => hi.ended d hj (heq ▸ hd), hi.behind,
    hi.current, hi.sent_behind, hi.sent⟩
  · -- One more message in the queue, and no LOGOUT.
    exact List.mem_append_left _ (hi.left_queued d (heq ▸ hd) hl)
  · rcases List.mem_append.mp hp with hp | hp
    · exact hi.sender p hp
    · simp only [List.mem_singleton, reduceCtorEq] at hp
  · exact ⟨(hi.failed_out d hf).1, heq ▸ (hi.failed_out d hf).2⟩

/-- A client that has been reached catches up with the sequence. -/
theorem deliveryInv_send (P : Procs ι) (s : State ι) (hi : DeliveryInv P s)
    (hen : Enabled s .send) : DeliveryInv P (next P s .send) := by
  have hreg := registryInv_step P s _ _ hi.registry ⟨hen, rfl⟩
  rcases hen with ⟨m, e, rest, hmode, hpend, _⟩
  have heq := announced_send P s m e rest hmode hpend
  have hnext : next P s .send = { s with
      kept := s.kept ++ [e]
      pending := rest
      delivered := Function.update s.delivered e.msgid (s.delivered e.msgid ++ [m]) } := by
    simp only [next, hmode, hpend]
  have hsub : ∀ x ∈ rest, x ∈ s.pending := fun x hx => hpend ▸ List.mem_cons_of_mem _ hx
  have hin : e ∈ s.pending := hpend ▸ List.mem_cons_self
  have hmem : e ∈ announced s := List.mem_append_right _ (List.mem_append_right _ hin)
  rcases hi.registry.joined e hmem with ⟨c, rfl, _⟩
  rcases hi.current m hmode with ⟨t, ht⟩
  rw [hnext] at hreg heq ⊢
  -- The client reached is not reached again.
  have hout : P.entry c ∉ rest := by
    have hnodup := (List.nodup_append.mp (List.nodup_append.mp hi.registry.nodup).2.1).2.1
    rw [hpend, List.nodup_cons] at hnodup
    exact hnodup.1
  refine ⟨hreg, hi.joined_le, hi.left_le, hi.failed_le, hi.left_phase,
    fun d hd hl => hi.left_queued d (heq ▸ hd) hl, hi.sender,
    fun d hf => ⟨(hi.failed_out d hf).1, heq ▸ (hi.failed_out d hf).2⟩,
    fun d hj hd => hi.ended d hj (heq ▸ hd), fun d hd => hi.behind d (hsub _ hd), hi.current,
    fun d hd => ?_, fun d hd => ?_⟩
  · -- Nobody else's queue has changed.
    have hdc : P.msgid d ≠ P.msgid c := fun h => hout (P.msgid_inj h ▸ hd)
    simpa only [Procs.entry, Function.update_of_ne hdc] using hi.sent_behind d (hsub _ hd)
  · by_cases hdc : d = c
    · -- One text behind before, level with the sequence now.
      rw [hdc]
      rcases hi.behind c hin with ⟨⟨a, ha, hlt⟩, hleft⟩
      have hfail : s.failedAt (P.msgid c) = none := by
        by_contra hf
        exact (hi.failed_out c hf).2 hmem
      have hopen : segment P s c = window s.taken (some a) none none := by
        rw [segment, ha, hfail]
        rcases hleft with hl | hl
        · rw [hl]
        · rw [hl, window_leave_now]
      have hold := hi.sent_behind c hin
      rw [ht, List.length_append, List.length_singleton] at hlt
      rw [ha, ht, List.dropLast_concat] at hold
      change Function.update s.delivered (P.msgid c) (s.delivered (P.msgid c) ++ [m]) (P.msgid c)
        = segment P s c
      rw [Function.update_self, hopen, ht, window_append_open t m a (by omega), hold]
    · have hne : P.msgid d ≠ P.msgid c := fun h => hdc (P.msgid_inj h)
      have hd' := not_pending_of_ne P s c d rest hpend hdc hd
      simpa only [Procs.entry, segment, Function.update_of_ne hne] using hi.sent d hd'

/-- A client that could not be reached keeps the window it had before the
    text. -/
theorem deliveryInv_timeout (P : Procs ι) (s : State ι) (hi : DeliveryInv P s)
    (hen : Enabled s .timeout) : DeliveryInv P (next P s .timeout) := by
  have hreg := registryInv_step P s _ _ hi.registry ⟨hen, rfl⟩
  rcases hen with ⟨m, e, rest, hmode, hpend, _⟩
  have hperm := announced_timeout P s e rest hpend
  have hnext : next P s .timeout = { s with
      pending := rest
      isOpen := Function.update s.isOpen e.msgid false
      failedAt := Function.update s.failedAt e.msgid (some (s.taken.length - 1)) } := by
    simp only [next, hpend]
  have hsub : ∀ x ∈ rest, x ∈ s.pending := fun x hx => hpend ▸ List.mem_cons_of_mem _ hx
  have hin : e ∈ s.pending := hpend ▸ List.mem_cons_self
  have hmem : e ∈ announced s := List.mem_append_right _ (List.mem_append_right _ hin)
  rcases hi.registry.joined e hmem with ⟨c, rfl, hjoined⟩
  rcases hi.current m hmode with ⟨t, ht⟩
  have hlen : s.taken.length - 1 = t.length := by
    rw [ht, List.length_append, List.length_singleton]
    omega
  rw [hnext] at hreg hperm ⊢
  -- The client dropped is announced nowhere else.
  have hgone := (List.nodup_cons.mp (hperm.nodup_iff.mp hi.registry.nodup)).1
  have hback : ∀ x, x ∈ announced _ → x ∈ announced s :=
    fun x hx => hperm.mem_iff.mpr (List.mem_cons_of_mem (P.entry c) hx)
  refine ⟨hreg, hi.joined_le, hi.left_le, fun i j hf => ?_, hi.left_phase,
    fun d hd hl => hi.left_queued d (hback _ hd) hl, hi.sender, fun d hf => ?_,
    fun d hj hd => ?_, fun d hd => hi.behind d (hsub _ hd), hi.current,
    fun d hd => hi.sent_behind d (hsub _ hd), fun d hd => ?_⟩
  · -- The position recorded is that of the text before.
    by_cases hic : i = P.msgid c
    · simp only [Procs.entry, hic, Function.update_self, Option.some.injEq] at hf
      change j ≤ s.taken.length
      omega
    · simp only [Procs.entry, Function.update_of_ne hic] at hf
      exact hi.failed_le i j hf
  · -- Dropped now, or dropped before.
    by_cases hdc : d = c
    · rw [hdc]
      exact ⟨hjoined, hgone⟩
    · have hne : P.msgid d ≠ P.msgid c := fun h => hdc (P.msgid_inj h)
      simp only [Procs.entry, Function.update_of_ne hne] at hf
      exact ⟨(hi.failed_out d hf).1, fun h => (hi.failed_out d hf).2 (hback _ h)⟩
  · -- The end recorded now is that of the client dropped.
    by_cases hdc : d = c
    · refine Or.inr ?_
      simp only [Procs.entry, hdc, Function.update_self, ne_eq, reduceCtorEq, not_false_eq_true]
    · have hne : P.msgid d ≠ P.msgid c := fun h => hdc (P.msgid_inj h)
      simp only [Procs.entry, Function.update_of_ne hne]
      refine hi.ended d hj (fun h => ?_)
      rcases List.mem_cons.mp (hperm.mem_iff.mp h) with h | h
      · exact hdc (entry_inj P d c h)
      · exact hd h
  · -- Its window ends just before the text it has missed.
    by_cases hdc : d = c
    · rw [hdc]
      rcases hi.behind c hin with ⟨⟨a, ha, _⟩, hleft⟩
      have hold := hi.sent_behind c hin
      rw [ha, ht, List.dropLast_concat] at hold
      simp only [segment, Procs.entry, Function.update_self]
      rw [ha, hlen, ht, window_fail t m _ a (ht ▸ hleft), hold]
    · have hne : P.msgid d ≠ P.msgid c := fun h => hdc (P.msgid_inj h)
      have hd' := not_pending_of_ne P s c d rest hpend hdc hd
      simpa only [Procs.entry, segment, Function.update_of_ne hne] using hi.sent d hd'

/-- Every step keeps the invariant. -/
theorem deliveryInv_step (P : Procs ι) (hpid : Function.Injective P.pid) (s : State ι)
    (e : Event ι) (s' : State ι) (hi : DeliveryInv P s) (hs : Step P s e s') :
    DeliveryInv P s' := by
  have hreg := registryInv_step P s e s' hi.registry hs
  rcases hs with ⟨hen, rfl⟩
  cases e with
  | start c =>
      exact deliveryInv_phase P s hi _ _ hreg (left_phase_update P s hi c _
        (Or.inl (left_none_of_early P s hi c (Or.inl hen))))
  | login c => exact deliveryInv_login P s hi c hen
  | text c mtext => exact deliveryInv_text P s hi c mtext hen
  | signal c | exit c =>
      have hleft := left_none_of_early P s hi c (Or.inr (hen.imp_right Or.inl))
      exact deliveryInv_phase P s hi _ _ hreg (left_phase_update P s hi c _ (Or.inl hleft))
  | logout c => exact deliveryInv_logout P s hi c hen
  | logoutFails c =>
      exact deliveryInv_phase P s hi _ s.isOpen hreg (left_phase_update P s hi c _
        (Or.inl (left_none_of_early P s hi c (Or.inr (Or.inr (Or.inr hen))))))
  | raise c =>
      -- The LOGOUT has been sent, and the phase is one of the last two again.
      exact deliveryInv_phase P s hi _ s.isOpen hreg (left_phase_update P s hi c _
        (Or.inr (Or.inr rfl)))
  | receive =>
      rcases receive_spec P s hen with ⟨m, pre, post, _, hq, hnext, hlow⟩
      rw [hnext] at hreg ⊢
      cases m with
      | login pid msgid => exact deliveryInv_handle_login P s hi pre post pid msgid hq hreg
      | logout pid =>
          exact deliveryInv_handle_logout P hpid s hi pre post pid hen.1 hq hlow hreg
      | text pid mtext => exact deliveryInv_handle_text P s hi pre post pid mtext hen.1 hq hlow hreg
  | send => exact deliveryInv_send P s hi hen
  | timeout => exact deliveryInv_timeout P s hi hen
  | sendFails =>
      exact ⟨hreg, hi.joined_le, hi.left_le, hi.failed_le, hi.left_phase, hi.left_queued,
        hi.sender, hi.failed_out, hi.ended, hi.behind,
        fun m hm => by simp only [next, reduceCtorEq] at hm, hi.sent_behind, hi.sent⟩
  | finish =>
      exact ⟨hreg, hi.joined_le, hi.left_le, hi.failed_le, hi.left_phase, hi.left_queued,
        hi.sender, hi.failed_out, hi.ended, hi.behind,
        fun m hm => by simp only [next, reduceCtorEq] at hm, hi.sent_behind, hi.sent⟩

end Chat

end TlpiPractice
