import TlpiPractice.Theory.Chat.Registry

/-!
# The List When Pids Come Back

A client process may get the pid of one that has sent its LOGOUT and exited.
The server knows its clients by pid, and it takes a LOGIN before a LOGOUT that
was sent earlier. If the new client's LOGIN is sent while the LOGOUT of the
old one is still queued, the server adds the new entry in front of the old
one, and then removes the first entry with that pid, which is the new one.

`PidRule` is the kernel's promise about pids, together with the assumption
that no send fails. `QuietLogin` is the condition that keeps the list right: a
client logs in only when no LOGOUT with its pid is queued. Under both, a
client that is logged in is announced and cannot be removed by a LOGOUT in the
queue, one that has logged out and still has an entry is named by a LOGOUT in
the queue, and no two entries share a pid. When the queue holds neither LOGINs
nor LOGOUTs, the list is then exactly the clients logged in.

## Main definitions

* `PidRule`: A pid comes back only after its last holder is gone.
* `QuietLogin`: No LOGIN is sent into a queue with a LOGOUT of that pid.
* `LoggedIn`: The clients that the list should have.
* `RegistryExact`: What the list is when no LOGIN or LOGOUT is queued.
* `ReuseInv`: The invariant behind it.
* `secondIncarnation`: A run in which the wrong entry is removed.

## Theorems

* `reuseInv_step`: A step that keeps both conditions keeps the invariant.
* `registryExact_of_quietLogin`: In a run that keeps both, the list is exact.
* `secondIncarnation_removed`: Without the second one it is not.
-/

namespace TlpiPractice

namespace Chat

open MsgQueue Runs

variable {ι : Type}

/-- No client process, or one that has ended after its LOGOUT. -/
def Away (phase : ι → Phase) (c : ι) : Prop := phase c = .absent ∨ phase c = .gone

/-- A process starts only with a pid that no other holds, and no `msgsnd`
    fails. -/
def PidRule (P : Procs ι) (s : State ι) : Event ι → Prop
  | .start c => ∀ d, d ≠ c → P.pid d = P.pid c → Away s.phase d
  | .logoutFails _ => False
  | .timeout => False
  | .sendFails => False
  | _ => True

/-- A client logs in only when no LOGOUT with its pid is queued. -/
def QuietLogin (P : Procs ι) (s : State ι) : Event ι → Prop
  | .login c => .logout (P.pid c) ∉ s.queue
  | _ => True

/-- A client has sent its LOGIN, is running, and has not sent its LOGOUT. -/
def LoggedIn (s : State ι) (c : ι) : Prop :=
  s.joinedAt c ≠ none ∧ (s.phase c = .active ∨ s.phase c = .closing)

/-- When the queue holds texts only, the list has exactly one entry with the
    pid of each client logged in, which is that client's own, and none of any
    client that has logged out. -/
def RegistryExact (P : Procs ι) (s : State ι) : Prop :=
  (∀ m ∈ s.queue, m.mtype = 3) → ∀ c,
    (LoggedIn s c →
      (s.kept ++ s.pending).filter (fun e => decide (e.pid = P.pid c)) = [P.entry c]) ∧
    (s.leftAt c ≠ none → P.entry c ∉ s.kept ++ s.pending)

/-- The invariant under which the list is exact. -/
structure ReuseInv (P : Procs ι) (s : State ι) : Prop where
  registry : RegistryInv P s
  alone : ∀ c d, c ≠ d → P.pid c = P.pid d → Away s.phase c ∨ Away s.phase d
  left_iff : ∀ c, s.phase c = .leaving ∨ s.phase c = .gone ↔ s.leftAt c ≠ none
  live : ∀ c, LoggedIn s c → P.entry c ∈ announced s ∧ .logout (P.pid c) ∉ s.queue
  left_queued : ∀ c, P.entry c ∈ announced s → s.leftAt c ≠ none → .logout (P.pid c) ∈ s.queue
  unique : ∀ c d, P.pid c = P.pid d → P.entry c ∈ announced s → P.entry d ∈ announced s → c = d

theorem reuseInv_initial (P : Procs ι) : ReuseInv P initial where
  registry := registryInv_initial P
  alone := fun _ _ _ _ => Or.inl (Or.inl rfl)
  left_iff := fun c => by simp only [initial, reduceCtorEq, or_self, ne_eq, not_true_eq_false]
  live := fun c hc => absurd rfl hc.1
  left_queued := fun _ hc => absurd hc List.not_mem_nil
  unique := fun _ _ _ hc => absurd hc List.not_mem_nil

/-- The invariant makes the list exact. -/
theorem registryExact_of_reuseInv (P : Procs ι) (s : State ι) (hi : ReuseInv P s) :
    RegistryExact P s := by
  intro htexts c
  have hann : announced s = s.kept ++ s.pending := by
    rw [announced, announces_nil s.queue (fun x hx => by rw [htexts x hx]; omega),
      List.nil_append]
  constructor
  · intro hc
    have hin := (hi.live c hc).1
    rw [← hann]
    -- Both sides have no duplicates, so it is enough that they have the same entries.
    refine List.Perm.eq_singleton ((List.perm_ext_iff_of_nodup
      (hi.registry.nodup.filter _) (List.nodup_singleton _)).mpr (fun e => ?_))
    rw [List.mem_filter, decide_eq_true_eq, List.mem_singleton]
    constructor
    · intro he
      rcases hi.registry.joined e he.1 with ⟨d, rfl, _⟩
      rw [hi.unique d c he.2 he.1 hin]
    · intro he
      exact ⟨he ▸ hin, he ▸ rfl⟩
  · intro hleft hmem
    have hlogout := hi.left_queued c (hann ▸ hmem) hleft
    have := htexts _ hlogout
    simp only [ClientMsg.mtype] at this
    omega

/-- Receiving a LOGIN moves an entry and leaves the LOGOUTs. -/
theorem reuseInv_handle_login (P : Procs ι) (s : State ι) (hi : ReuseInv P s)
    (pre post : List ClientMsg) (pid msgid : Nat) (hq : s.queue = pre ++ .login pid msgid :: post)
    (hreg : RegistryInv P (handle s (pre ++ post) (.login pid msgid))) :
    ReuseInv P (handle s (pre ++ post) (.login pid msgid)) := by
  have hperm := announced_handle_login s pre post pid msgid hq
  refine ⟨hreg, hi.alone, hi.left_iff, fun c hc => ?_, fun c hc hl => ?_, fun c d h hc hd => ?_⟩
  · -- The entry moves from the queue to the list.
    refine ⟨hperm.mem_iff.mpr (hi.live c hc).1, fun h => (hi.live c hc).2 ?_⟩
    exact mem_queue_of_rest s pre post _ _ hq h
  · -- A LOGIN is not a LOGOUT.
    have hmem := hi.left_queued c (hperm.mem_iff.mp hc) hl
    exact mem_rest_of_queue s pre post _ _ hq hmem (fun h => nomatch h)
  · exact hi.unique c d h (hperm.mem_iff.mp hc) (hperm.mem_iff.mp hd)

/-- Receiving a LOGOUT removes the one entry with its pid, whose client has
    logged out. -/
theorem reuseInv_handle_logout (P : Procs ι) (s : State ι) (hi : ReuseInv P s)
    (pre post : List ClientMsg) (pid : Nat) (hmode : s.mode = .receiving)
    (hq : s.queue = pre ++ .logout pid :: post) (hlow : ∀ x ∈ s.queue, 2 ≤ x.mtype)
    (hreg : RegistryInv P (handle s (pre ++ post) (.logout pid))) :
    ReuseInv P (handle s (pre ++ post) (.logout pid)) := by
  have hnil := hi.registry.idle hmode
  have hsub := announced_handle_logout s pre post pid hq
  have hkept := announced_eq_kept s hlow hnil
  have hkept' := announced_handle_logout_eq s pre post pid hq hlow hnil
  have hlogout : ClientMsg.logout pid ∈ s.queue := by
    rw [hq]
    exact List.mem_append_right _ List.mem_cons_self
  refine ⟨hreg, hi.alone, hi.left_iff, fun c hc => ?_, fun c hc hl => ?_, fun c d h hc hd => ?_⟩
  · -- No client logged in has the pid of a queued LOGOUT, so its entry stays.
    have hlive := hi.live c hc
    have hne : P.pid c ≠ pid := by
      intro h
      rw [h] at hlive
      exact hlive.2 hlogout
    refine ⟨?_, fun h => hlive.2 (mem_queue_of_rest s pre post _ _ hq h)⟩
    rw [hkept', List.mem_eraseP_of_neg (by rw [decide_eq_true_eq]; exact hne), ← hkept]
    exact hlive.1
  · have hin := hsub.subset hc
    refine mem_rest_of_queue s pre post _ _ hq (hi.left_queued c hin hl) (fun h => ?_)
    -- The client's own entry was the only one that could be removed.
    have hpid : P.pid c = pid := ClientMsg.logout.inj h
    rw [hkept', ← hpid] at hc
    refine entry_not_mem_eraseP P s.kept (hkept ▸ hi.registry.nodup) c (fun e he hep => ?_) hc
    rcases hi.registry.joined e (hkept ▸ he) with ⟨d, rfl, _⟩
    rw [hi.unique d c hep (hkept ▸ he) hin]
  · exact hi.unique c d h (hsub.subset hc) (hsub.subset hd)

/-- Receiving a TEXT leaves the entries and the LOGOUTs. -/
theorem reuseInv_handle_text (P : Procs ι) (s : State ι) (hi : ReuseInv P s)
    (pre post : List ClientMsg) (pid : Nat) (mtext : List UInt8) (hmode : s.mode = .receiving)
    (hq : s.queue = pre ++ .text pid mtext :: post)
    (hreg : RegistryInv P (handle s (pre ++ post) (.text pid mtext))) :
    ReuseInv P (handle s (pre ++ post) (.text pid mtext)) := by
  have heq := announced_handle_text s pre post pid mtext hq (hi.registry.idle hmode)
  refine ⟨hreg, hi.alone, hi.left_iff, fun c hc => ?_, fun c hc hl => ?_, fun c d h hc hd => ?_⟩
  · -- A TEXT announces nobody.
    refine ⟨heq ▸ (hi.live c hc).1, fun h => (hi.live c hc).2 ?_⟩
    exact mem_queue_of_rest s pre post _ _ hq h
  · -- A TEXT is not a LOGOUT.
    have hmem := hi.left_queued c (heq ▸ hc) hl
    exact mem_rest_of_queue s pre post _ _ hq hmem (fun h => nomatch h)
  · exact hi.unique c d h (heq ▸ hc) (heq ▸ hd)

section Update

variable [DecidableEq ι] (P : Procs ι) (phase : ι → Phase) (c : ι) (p : Phase)

/-- A client may change its phase as long as no other with its pid is
    running. -/
theorem alone_update
    (h : ∀ d e, d ≠ e → P.pid d = P.pid e → Away phase d ∨ Away phase e)
    (hc : ∀ d, d ≠ c → P.pid d = P.pid c → Away phase d) (d e : ι) (hde : d ≠ e)
    (hpid : P.pid d = P.pid e) :
    Away (Function.update phase c p) d ∨ Away (Function.update phase c p) e := by
  have hsame : ∀ x, x ≠ c → Away phase x → Away (Function.update phase c p) x := by
    intro x hx hax
    rwa [Away, Function.update_of_ne hx]
  -- Of the two, the one whose phase has changed is not the one that is away.
  by_cases hdc : d = c
  · rw [hdc] at hde hpid
    exact Or.inr (hsame e hde.symm (hc e hde.symm hpid.symm))
  · by_cases hec : e = c
    · rw [hec] at hpid
      exact Or.inl (hsame d hdc (hc d hdc hpid))
    · exact (h d e hde hpid).imp (hsame d hdc) (hsame e hec)

/-- The phases after the LOGOUT go with a recorded LOGOUT. -/
theorem left_iff_update (leftAt : ι → Option Nat)
    (h : ∀ d, phase d = .leaving ∨ phase d = .gone ↔ leftAt d ≠ none)
    (hc : p = .leaving ∨ p = .gone ↔ leftAt c ≠ none) (d : ι) :
    Function.update phase c p d = .leaving ∨ Function.update phase c p d = .gone ↔
      leftAt d ≠ none := by
  by_cases hdc : d = c
  · rw [hdc, Function.update_self]
    exact hc
  · rw [Function.update_of_ne hdc]
    exact h d

end Update

/-- While a client runs, no other with its pid does. -/
theorem away_of_running (P : Procs ι) (s : State ι) (hi : ReuseInv P s) (c : ι)
    (hc : s.phase c = .started ∨ s.phase c = .active ∨ s.phase c = .closing ∨
      s.phase c = .leaving) (d : ι) (hd : d ≠ c) (hpid : P.pid d = P.pid c) : Away s.phase d := by
  refine (hi.alone d c hd hpid).resolve_right ?_
  rintro (h | h)
  · simp only [h, reduceCtorEq, or_self] at hc
  · simp only [h, reduceCtorEq, or_self] at hc

/-- A client that has not sent its LOGOUT has none recorded. -/
theorem left_none (P : Procs ι) (s : State ι) (hi : ReuseInv P s) (c : ι)
    (hc : s.phase c = .absent ∨ s.phase c = .started ∨ s.phase c = .active ∨
      s.phase c = .closing) : s.leftAt c = none := by
  by_contra h
  rcases (hi.left_iff c).mpr h with h | h
  · simp only [h, reduceCtorEq, or_self] at hc
  · simp only [h, reduceCtorEq, or_self] at hc

/-- It may go on to a phase that is not behind the LOGOUT. -/
theorem not_left_iff (P : Procs ι) (s : State ι) (hi : ReuseInv P s) (c : ι) (p : Phase)
    (hc : s.phase c = .absent ∨ s.phase c = .started ∨ s.phase c = .active ∨
      s.phase c = .closing) (hp : ¬ (p = .leaving ∨ p = .gone)) :
    p = .leaving ∨ p = .gone ↔ s.leftAt c ≠ none :=
  iff_of_false hp (not_not.mpr (left_none P s hi c hc))

/-- A step that leaves clients, entries and LOGOUTs as they are keeps the
    invariant. -/
theorem reuseInv_same (P : Procs ι) (s s' : State ι) (hi : ReuseInv P s)
    (hreg : RegistryInv P s') (hphase : s'.phase = s.phase) (hjoined : s'.joinedAt = s.joinedAt)
    (hleft : s'.leftAt = s.leftAt) (hann : announced s' = announced s)
    (hlogout : ∀ pid, ClientMsg.logout pid ∈ s'.queue ↔ ClientMsg.logout pid ∈ s.queue) :
    ReuseInv P s' := by
  -- Every field speaks of what has stayed the same.
  refine ⟨hreg, hphase ▸ hi.alone, ?_, fun c hc => ?_, fun c hc hl => ?_, hann ▸ hi.unique⟩
  · rw [hphase, hleft]
    exact hi.left_iff
  · rw [LoggedIn, hphase, hjoined] at hc
    rw [hann, hlogout]
    exact hi.live c hc
  · rw [hann] at hc
    rw [hleft] at hl
    rw [hlogout]
    exact hi.left_queued c hc hl

variable [DecidableEq ι]

/-- A client that goes further without sending a message. What is asked of it
    is what `alone`, `left_iff` and `live` will say of it. -/
theorem reuseInv_phase (P : Procs ι) (s : State ι) (hi : ReuseInv P s) (c : ι) (p : Phase)
    (isOpen : Nat → Bool)
    (hreg : RegistryInv P { s with phase := Function.update s.phase c p, isOpen := isOpen })
    (halone : ∀ d, d ≠ c → P.pid d = P.pid c → Away s.phase d)
    (hleft : p = .leaving ∨ p = .gone ↔ s.leftAt c ≠ none)
    (hlive : p = .active ∨ p = .closing → s.joinedAt c ≠ none → LoggedIn s c) :
    ReuseInv P { s with phase := Function.update s.phase c p, isOpen := isOpen } := by
  refine ⟨hreg, alone_update P s.phase c p hi.alone halone,
    left_iff_update s.phase c p s.leftAt hi.left_iff hleft, fun d hd => hi.live d ?_,
    hi.left_queued, hi.unique⟩
  by_cases hdc : d = c
  · rw [hdc] at hd ⊢
    simp only [LoggedIn, Function.update_self] at hd
    exact hlive hd.2 hd.1
  · simpa only [LoggedIn, Function.update_of_ne hdc] using hd

/-- A LOGIN announces a client whose pid no entry has: the last client with
    that pid is gone, and with no LOGOUT of it queued its entry is too. -/
theorem reuseInv_login (P : Procs ι) (s : State ι) (hi : ReuseInv P s) (c : ι)
    (hen : s.phase c = .started) (hquiet : .logout (P.pid c) ∉ s.queue)
    (hreg : RegistryInv P (next P s (.login c))) : ReuseInv P (next P s (.login c)) := by
  have hperm := announced_login P s c
  have halone := away_of_running P s hi c (Or.inl hen)
  have hnone : s.leftAt c = none := left_none P s hi c (Or.inr (Or.inl hen))
  have hlogout : ∀ pid, ClientMsg.logout pid ∈ (next P s (.login c)).queue ↔
      ClientMsg.logout pid ∈ s.queue := by
    intro pid
    simp only [next, List.mem_append, List.mem_singleton, reduceCtorEq, or_false]
  -- Nobody else with this pid has an entry, queued or in the list.
  have hother : ∀ d, d ≠ c → P.pid d = P.pid c → P.entry d ∉ announced s := by
    intro d hdc hpid hmem
    rcases hi.registry.joined _ hmem with ⟨d', heq, hjoined⟩
    rw [← entry_inj P d d' heq] at hjoined
    rcases halone d hdc hpid with h | h
    · exact hjoined (hi.registry.fresh d (Or.inl h))
    · have hl := (hi.left_iff d).mp (Or.inr h)
      exact hquiet (hpid ▸ hi.left_queued d hmem hl)
  have hmem : ∀ d, P.entry d ∈ announced (next P s (.login c)) →
      d = c ∨ P.entry d ∈ announced s := by
    intro d hd
    exact (List.mem_cons.mp (hperm.mem_iff.mp hd)).imp_left (entry_inj P d c)
  refine ⟨hreg, alone_update P s.phase c _ hi.alone halone,
    left_iff_update s.phase c _ s.leftAt hi.left_iff ?_, fun d hd => ?_, fun d hd hl => ?_,
    fun d e hpid hd he => ?_⟩
  · -- It has not logged out, and its phase does not say so.
    simp only [hnone, reduceCtorEq, or_self, ne_eq, not_true_eq_false]
  · -- Logged in now: the newcomer itself, or a client that was before.
    rw [hlogout]
    by_cases hdc : d = c
    · rw [hdc]
      exact ⟨hperm.mem_iff.mpr List.mem_cons_self, hquiet⟩
    · have hlive := hi.live d (by simpa only [LoggedIn, next, Function.update_of_ne hdc] using hd)
      exact ⟨hperm.mem_iff.mpr (List.mem_cons_of_mem _ hlive.1), hlive.2⟩
  · -- Logged out: not the newcomer.
    rw [hlogout]
    rcases hmem d hd with rfl | hd
    · exact absurd hnone hl
    · exact hi.left_queued d hd hl
  · -- Two entries with one pid would be the newcomer's and another's.
    by_contra hne
    rcases hmem d hd with rfl | hd'
    · rcases hmem e he with rfl | he'
      · exact hne rfl
      · exact hother e (Ne.symm hne) hpid.symm he'
    · rcases hmem e he with rfl | he'
      · exact hother d hne hpid hd'
      · exact hne (hi.unique d e hpid hd' he')

/-- A LOGOUT names its sender and no client that is logged in. -/
theorem reuseInv_logout (P : Procs ι) (s : State ι) (hi : ReuseInv P s) (c : ι)
    (hen : s.phase c = .closing) (hreg : RegistryInv P (next P s (.logout c))) :
    ReuseInv P (next P s (.logout c)) := by
  have heq := announced_logout P s c
  have halone := away_of_running P s hi c (Or.inr (Or.inr (Or.inl hen)))
  have hlogout : ∀ pid, ClientMsg.logout pid ∈ (next P s (.logout c)).queue ↔
      ClientMsg.logout pid ∈ s.queue ∨ pid = P.pid c := by
    intro pid
    simp only [next, List.mem_append, List.mem_singleton, ClientMsg.logout.injEq]
  refine ⟨hreg, alone_update P s.phase c _ hi.alone halone, fun d => ?_, fun d hd => ?_,
    fun d hd hl => ?_, fun d e hpid hd he => hi.unique d e hpid (heq ▸ hd) (heq ▸ he)⟩
  · -- The recorded LOGOUT goes with the new phase.
    by_cases hdc : d = c
    · simp only [next, hdc, Function.update_self, reduceCtorEq, or_false, ne_eq,
        not_false_eq_true]
    · simp only [next, Function.update_of_ne hdc]
      exact hi.left_iff d
  · -- The sender is not logged in any more, and the others have other pids.
    have hdc : d ≠ c := by
      intro h
      simp only [LoggedIn, next, h, Function.update_self, reduceCtorEq, or_self, and_false] at hd
    have hlive : LoggedIn s d := by
      simpa only [LoggedIn, next, Function.update_of_ne hdc] using hd
    refine ⟨heq ▸ (hi.live d hlive).1, fun h => ?_⟩
    rcases (hlogout _).mp h with h | h
    · exact (hi.live d hlive).2 h
    · -- A client that is logged in is running, so its pid is not the sender's.
      have hactive := hlive.2
      rcases halone d hdc h with ha | ha
      · simp only [ha, reduceCtorEq, or_self] at hactive
      · simp only [ha, reduceCtorEq, or_self] at hactive
  · rw [hlogout]
    by_cases hdc : d = c
    · exact Or.inr (by rw [hdc])
    · simp only [next, Function.update_of_ne hdc] at hl
      exact Or.inl (hi.left_queued d (heq ▸ hd) hl)

/-- Every step that keeps both conditions keeps the invariant. -/
theorem reuseInv_step (P : Procs ι) (s : State ι) (e : Event ι) (s' : State ι)
    (hi : ReuseInv P s) (hg : PidRule P s e ∧ QuietLogin P s e) (hs : Step P s e s') :
    ReuseInv P s' := by
  have hreg := registryInv_step P s e s' hi.registry hs
  rcases hs with ⟨hen, rfl⟩
  cases e with
  | start c =>
      refine reuseInv_phase P s hi c _ _ hreg hg.1
        (not_left_iff P s hi c _ (Or.inl hen) (by simp only [reduceCtorEq, or_self,
          not_false_eq_true])) (fun h => ?_)
      simp only [reduceCtorEq, or_self] at h
  | login c => exact reuseInv_login P s hi c hen hg.2 hreg
  | text c mtext =>
      refine reuseInv_same P s _ hi hreg rfl rfl rfl (announced_text P s c mtext) (fun pid => ?_)
      simp only [next, List.mem_append, List.mem_singleton, reduceCtorEq, or_false]
  | signal c =>
      refine reuseInv_phase P s hi c _ _ hreg (away_of_running P s hi c ?_)
        (not_left_iff P s hi c _ ?_ (by simp only [reduceCtorEq, or_self, not_false_eq_true]))
        (fun _ hj => ?_)
      · exact hen.imp_right Or.inl
      · exact Or.inr (hen.imp_right Or.inl)
      · rcases hen with h | h
        · -- It has not sent a LOGIN, so it is not logged in now either.
          exact absurd (hi.registry.fresh c (Or.inr h)) hj
        · exact ⟨hj, Or.inl h⟩
  | logout c => exact reuseInv_logout P s hi c hen hreg
  | logoutFails c => exact hg.1.elim
  | raise c =>
      refine reuseInv_phase P s hi c _ s.isOpen hreg
        (away_of_running P s hi c (Or.inr (Or.inr (Or.inr hen)))) ?_ (fun h => ?_)
      · simp only [reduceCtorEq, false_or, true_iff]
        exact (hi.left_iff c).mp (Or.inl hen)
      · simp only [reduceCtorEq, or_self] at h
  | exit c =>
      refine reuseInv_phase P s hi c _ _ hreg (away_of_running P s hi c ?_)
        (not_left_iff P s hi c _ ?_ (by simp only [reduceCtorEq, or_self, not_false_eq_true]))
        (fun h => ?_)
      · exact hen.imp_right Or.inl
      · exact Or.inr (hen.imp_right Or.inl)
      · simp only [reduceCtorEq, or_self] at h
  | receive =>
      rcases receive_spec P s hen with ⟨m, pre, post, _, hq, hnext, hlow⟩
      rw [hnext] at hreg ⊢
      cases m with
      | login pid msgid => exact reuseInv_handle_login P s hi pre post pid msgid hq hreg
      | logout pid => exact reuseInv_handle_logout P s hi pre post pid hen.1 hq hlow hreg
      | text pid mtext => exact reuseInv_handle_text P s hi pre post pid mtext hen.1 hq hreg
  | send =>
      rcases hen with ⟨m, e, rest, hmode, hpend, _⟩
      refine reuseInv_same P s _ hi hreg ?_ ?_ ?_ (announced_send P s m e rest hmode hpend) ?_
      all_goals simp only [next, hmode, hpend, implies_true]
  | timeout => exact hg.1.elim
  | sendFails => exact hg.1.elim
  | finish => exact reuseInv_same P s _ hi hreg rfl rfl rfl rfl (fun _ => Iff.rfl)

/-- In every run in which a pid comes back only after its last holder has
    logged out and exited, no send fails, and no client logs in while a LOGOUT
    with its pid is queued, the list is exact in every state. -/
theorem registryExact_of_quietLogin (P : Procs ι) (tr : List (Event ι × State ι))
    (hrun : AllSteps (Step P) initial tr) (hrule : StepsMeet (PidRule P) initial tr)
    (hquiet : StepsMeet (QuietLogin P) initial tr) : Always (RegistryExact P) initial tr :=
  always_mono (registryExact_of_reuseInv P) initial tr
    (always_of_guarded (reuseInv_step P) initial tr (reuseInv_initial P) hrun
      (allSteps_and initial tr hrule hquiet))

/-- Two processes, the second with the pid of the first. -/
def samePid : Procs Bool where
  pid := fun _ => 7
  msgid := Bool.toNat
  msgid_inj := by
    intro c d h
    cases c <;> cases d <;> first | rfl | exact nomatch h

/-- The second process logs in once the first one's LOGOUT has been handled. -/
def afterLogout : List (Event Bool) :=
  [.start false, .login false, .receive, .signal false, .logout false, .raise false,
    .receive, .start true, .login true, .receive]

theorem registryExact_of_quietLogin_afterLogout :
    Always (RegistryExact samePid) initial (record (next samePid) initial afterLogout) := by
  refine registryExact_of_quietLogin samePid _ (allSteps_record Enabled _ _ _ ?_) ?_ ?_
  · exact ⟨rfl, rfl, ⟨rfl, rfl⟩, Or.inr rfl, rfl, rfl, ⟨rfl, rfl⟩, rfl, rfl, ⟨rfl, rfl⟩, trivial⟩
  · refine ⟨fun d _ _ => Or.inl rfl, trivial, trivial, trivial, trivial, trivial, trivial,
      fun d hd _ => ?_, trivial, trivial, trivial⟩
    cases d with
    | false => exact Or.inr rfl
    | true => exact absurd rfl hd
  · exact ⟨trivial, List.not_mem_nil, trivial, trivial, trivial, trivial, trivial, trivial,
      List.not_mem_nil, trivial, trivial⟩

/-- The second process logs in while the first one's LOGOUT is queued. -/
def secondIncarnation : List (Event Bool) :=
  [.start false, .login false, .receive, .signal false, .logout false, .raise false,
    .start true, .login true, .receive, .receive]

/-- This is a run that keeps the rule about pids, and at its end the queue is
    empty and the client logged in has no entry. -/
theorem secondIncarnation_removed :
    AllSteps (Step samePid) initial (record (next samePid) initial secondIncarnation) ∧
      StepsMeet (PidRule samePid) initial (record (next samePid) initial secondIncarnation) ∧
      ¬ Always (RegistryExact samePid) initial
        (record (next samePid) initial secondIncarnation) := by
  refine ⟨allSteps_record Enabled _ _ _ ?_, ?_, fun h => ?_⟩
  · exact ⟨rfl, rfl, ⟨rfl, rfl⟩, Or.inr rfl, rfl, rfl, rfl, rfl, ⟨rfl, rfl⟩, ⟨rfl, rfl⟩, trivial⟩
  · refine ⟨fun d _ _ => Or.inl rfl, trivial, trivial, trivial, trivial, trivial,
      fun d hd _ => ?_, trivial, trivial, trivial, trivial⟩
    cases d with
    | false => exact Or.inr rfl
    | true => exact absurd rfl hd
  · have hlast := always_last _ _ h (fun m hm => absurd hm List.not_mem_nil) true
    have hone := hlast.1 ⟨nofun, Or.inl rfl⟩
    exact absurd hone (by decide)

end Chat

end TlpiPractice
