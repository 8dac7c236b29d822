import TlpiPractice.Core.FifoSem

/-!
# Bytes of the FIFO and Holders

When the bytes in the FIFO and the holders of the semaphore add up to one, and
nothing but the FIFO is read or written.

The only descriptor that is ever used is 0, and when the semaphore is made no
descriptor refers to its FIFO yet. So `initAvail` puts its byte somewhere else,
and nobody will find it in the FIFO. After `initUsed` nothing is wrong at
first. What follows is right as long as every process that comes to a `read`
or a `write` has opened the FIFO itself as its descriptor 0, and nobody closes
the last descriptor of the FIFO while the byte is in it. It is wrong at the
first step for which this is not so.

## Main definitions

* `Conserved`: The bytes and the holders add up to one, and no other file has
  been used.
* `OnFifo`: The steps that use the FIFO, and leave its byte in it.
* `TokenInv`: The invariant.
* `openedFifo`: A run in which a process opens the FIFO.

## Theorems

* `init_cases`: What a semaphore that has been made looks like.
* `tokenInv_step`: A step that uses the FIFO, and leaves its byte in it, keeps
  the invariant.
* `not_conserved_of_elsewhere`: Any other `read`, `write` or closing breaks it.
* `conserved_iff_onFifo`: The runs in which the sum is always one.
-/

namespace TlpiPractice

namespace FifoSem

open Runs

variable {ι : Type}

/-- The bytes in the FIFO and the holders add up to one, and nothing but the
    FIFO has been read or written. -/
def Conserved (s : State ι) : Prop :=
  s.bytes + s.holders.length = 1 ∧ ∀ f ∈ s.accesses, f = some .own

/-- A `read` or `write` is made only by a process whose descriptor 0 is the
    FIFO, and the last descriptor of the FIFO is closed only when it is empty. -/
def OnFifo (s : State ι) : Event ι → Prop
  | .reserve _ => True
  | .read p _ => s.desc p 0 = some .own
  | .release p _ => s.desc p 0 = some .own
  | .reopen _ _ closed => closed = true → s.bytes = 0

structure TokenInv (s : State ι) : Prop where
  fifo : s.sem.fifo = 0
  conserved : Conserved s

theorem conserved_access (s : State ι) (p : ι) (h : TokenInv s) (hp : s.desc p 0 = some .own) :
    s.target p = some .own ∧ ∀ f ∈ s.accesses ++ [s.target p], f = some .own := by
  have htarget : s.target p = some .own := by
    rw [State.target, h.fifo]
    exact hp
  refine ⟨htarget, fun f hf => ?_⟩
  rcases List.mem_append.mp hf with hf | hf
  · exact h.conserved.2 f hf
  · rw [List.mem_singleton.mp hf, htarget]

variable [DecidableEq ι]

/-- What is left when a semaphore has been made: the value of `mkfifo` is taken
    for a descriptor, and either the initialiser holds the semaphore or a byte
    has gone to its descriptor 0. -/
theorem init_cases (w : World ι) (p : ι) (time : Nat) (i : Init)
    (h : (init w p time i).1 = 0) :
    (∃ made wrote, i = .avail made wrote ∧ (init w p time i).2.bytes = 0 ∧
        (init w p time i).2.holders = []) ∨
      (∃ made, i = .used made ∧ TokenInv (init w p time i).2) := by
  cases i with
  | avail made wrote =>
      refine .inl ⟨made, wrote, rfl, ?_⟩
      cases made with
      | false =>
          have hfail : (-1 : Int) = 0 := h
          omega
      | true =>
          -- No descriptor refers to the FIFO yet, so no byte gets into it.
          have htarget : (w.withSem ⟨0, semFile time⟩).target p ≠ some .own := by
            simp only [State.target, World.withSem, ne_eq, Option.map_eq_some_iff, reduceCtorEq,
              and_false, exists_false, not_false_eq_true]
          cases wrote with
          | done => exact ⟨if_neg htarget, rfl⟩
          | intr => exact ⟨rfl, rfl⟩
          | fail => exact ⟨rfl, rfl⟩
  | used made =>
      refine .inr ⟨made, rfl, ?_⟩
      cases made with
      | false =>
          have hfail : (-1 : Int) = 0 := h
          omega
      | true => exact ⟨rfl, rfl, fun f hf => absurd hf List.not_mem_nil⟩

/-- A byte that is read from the FIFO becomes a holder; anything else leaves
    both as they are. -/
theorem tokenInv_read (s : State ι) (p : ι) (r : ReadResult) (h : TokenInv s)
    (hcan : CanRead s p r) (hp : s.desc p 0 = some .own) : TokenInv (read s p r) := by
  rcases conserved_access s p h hp with ⟨htarget, hall⟩
  have hsum := h.conserved.1
  cases r with
  | one =>
      have hpos := hcan.2 htarget
      refine ⟨h.fifo, ?_, hall⟩
      simp only [read, if_pos htarget, List.length_cons]
      omega
  | eof => exact ⟨h.fifo, hsum, hall⟩
  | intr => exact ⟨h.fifo, hsum, hall⟩
  | fail => exact ⟨h.fifo, hsum, hall⟩

/-- A holder that has written its byte is none any more. -/
theorem tokenInv_release (s : State ι) (p : ι) (r : WriteResult) (h : TokenInv s)
    (hmem : p ∈ s.holders) (hp : s.desc p 0 = some .own) :
    TokenInv (next s (.release p r)) := by
  rcases conserved_access s p h hp with ⟨htarget, hall⟩
  have hsum := h.conserved.1
  have hpos := List.length_pos_of_mem hmem
  cases r with
  | done =>
      refine ⟨h.fifo, ?_, hall⟩
      simp only [next, write, if_pos htarget, if_true, List.length_erase_of_mem hmem]
      omega
  | intr => exact ⟨h.fifo, hsum, hall⟩
  | fail => exact ⟨h.fifo, hsum, hall⟩

/-- Whoever closes the last descriptor of an empty FIFO loses nothing. -/
theorem tokenInv_reopen (s : State ι) (p : ι) (desc : Int → Option File) (closed : Bool)
    (h : TokenInv s) (hempty : closed = true → s.bytes = 0) :
    TokenInv (next s (.reopen p desc closed)) := by
  have hbytes : (next s (.reopen p desc closed)).bytes = s.bytes := by
    simp only [next]
    split
    · rename_i hclosed
      exact (hempty hclosed).symm
    · rfl
  refine ⟨h.fifo, ?_, h.conserved.2⟩
  rw [hbytes]
  exact h.conserved.1

theorem tokenInv_step (s : State ι) (e : Event ι) (s' : State ι) (h : TokenInv s)
    (hon : OnFifo s e) (hstep : Step s e s') : TokenInv s' := by
  rcases hstep with ⟨hen, rfl⟩
  cases e with
  | reserve p => exact ⟨h.fifo, h.conserved⟩
  | read p r => exact tokenInv_read s p r h hen.2 hon
  | release p r => exact tokenInv_release s p r h hen.2.1 hon
  | reopen p desc closed => exact tokenInv_reopen s p desc closed h hon

/-- Whatever a call has used is in the record, however it went. -/
theorem access_mem (s : State ι) (p : ι) :
    (∀ r, s.target p ∈ (read s p r).accesses) ∧
      ∀ r, s.target p ∈ (next s (.release p r)).accesses := by
  have hlast : s.target p ∈ s.accesses ++ [s.target p] :=
    List.mem_append_right _ List.mem_cons_self
  constructor
  · intro r
    cases r <;> exact hlast
  · intro r
    cases r <;> exact hlast

/-- A `read` or `write` on anything else breaks the rule, and so does closing
    the FIFO with the byte in it: nobody holds the semaphore then. -/
theorem not_conserved_of_elsewhere (s : State ι) (e : Event ι) (s' : State ι) (h : TokenInv s)
    (hoff : ¬ OnFifo s e) (hstep : Step s e s') : ¬ Conserved s' := by
  rcases hstep with ⟨_, rfl⟩
  intro hcons
  cases e with
  | reserve p => exact hoff trivial
  | read p r =>
      have hown := hcons.2 _ ((access_mem s p).1 r)
      rw [State.target, h.fifo] at hown
      exact hoff hown
  | release p r =>
      have hown := hcons.2 _ ((access_mem s p).2 r)
      rw [State.target, h.fifo] at hown
      exact hoff hown
  | reopen p desc closed =>
      have hsum := h.conserved.1
      have hafter := hcons.1
      simp only [OnFifo, Classical.not_imp] at hoff
      simp only [next, if_pos hoff.1] at hafter
      omega

/-- After the semaphore has been made, the bytes in the FIFO and the holders
    add up to one in every state of a run, and nothing else is read or
    written, exactly when it has been made by `initUsed`, every `read` and
    `write` is by a process whose descriptor 0 is the FIFO, and its last
    descriptor is not closed while a byte is in it. -/
theorem conserved_iff_onFifo (w : World ι) (p : ι) (time : Nat) (i : Init)
    (hinit : (init w p time i).1 = 0) (tr : List (Event ι × State ι))
    (hrun : AllSteps Step (init w p time i).2 tr) :
    Always Conserved (init w p time i).2 tr ↔
      (∃ made, i = .used made) ∧ StepsMeet OnFifo (init w p time i).2 tr := by
  rcases init_cases w p time i hinit with ⟨made, wrote, hi, hbytes, hholders⟩ | ⟨made, hi, hinv⟩
  · -- The byte of `initAvail` is not in the FIFO, and nobody holds anything.
    constructor
    · intro h
      have hsum := (always_head _ _ h).1
      rw [hbytes, hholders, List.length_nil] at hsum
      omega
    · intro h
      rcases h with ⟨⟨made', hi'⟩, _⟩
      rw [hi] at hi'
      exact nomatch hi'
  · have hiff := always_iff_allSteps tokenInv_step not_conserved_of_elsewhere
      (fun _ h => h.conserved) _ tr hinv hrun
    rw [hiff]
    exact ⟨fun h => ⟨⟨made, hi⟩, h⟩, fun h => h.2⟩

/-- Every descriptor refers to one and the same other file. -/
def oneFile : World Nat := { desc := fun _ _ => some 1, eintr := fun _ => false }

/-- The holder opens the FIFO as its descriptor 0, releases the semaphore and
    reserves it again. -/
def openedFifo : List (Event Nat) :=
  [.reopen 7 (fun _ => some .own) false, .release 7 .done, .reserve 7, .read 7 .one]

theorem conserved_iff_onFifo_openedFifo :
    Always Conserved (init oneFile 7 0 (.used true)).2
        (record next (init oneFile 7 0 (.used true)).2 openedFifo) ↔
      (∃ made, Init.used true = .used made) ∧
        StepsMeet OnFifo (init oneFile 7 0 (.used true)).2
          (record next (init oneFile 7 0 (.used true)).2 openedFifo) := by
  refine conserved_iff_onFifo oneFile 7 0 (.used true) rfl _ (allSteps_record Enabled _ _ _ ?_)
  have hopen : ¬ ∀ q fd, Function.update (init oneFile 7 0 (.used true)).2.desc 7
      (fun _ => some .own) q fd ≠ some .own := fun h => h 7 0 (by decide)
  exact ⟨⟨rfl, fun h => Bool.noConfusion h, fun h => absurd h hopen⟩,
    ⟨rfl, List.mem_cons_self, Option.some_ne_none _⟩, rfl,
    ⟨rfl, Option.some_ne_none _, fun _ => Nat.one_pos⟩, trivial⟩

/-- `initAvail` returns 0, its byte has gone to descriptor 0, and the FIFO is
    empty although nobody holds the semaphore. -/
theorem initAvail_loses :
    ¬ ∀ (w : World Nat) (p : Nat) (time : Nat) (i : Init) (tr : List (Event Nat × State Nat)),
      (init w p time i).1 = 0 → AllSteps Step (init w p time i).2 tr →
        Always Conserved (init w p time i).2 tr := by
  intro hall
  have h := hall oneFile 7 0 (.avail true .done) [] rfl trivial
  have hsum : 0 + 0 = 1 := h.1
  omega

end FifoSem

end TlpiPractice
