import TlpiPractice.Theory.SparseCopy.Trace

/-!
# The Limits of the Sparse Copy

Three things in the loop have a limit that nothing checks: the room in `wbuf`,
the range of `zero_cnt`, and the range of `curr`, which has to tell an offset
from a failure. This module says for which sources each of them is kept.

`wbuf` is not emptied at the end of a block, so what counts is the length of
the runs of the source and not how it was read. The same goes for `zero_cnt`.
The result of `lseek` is an offset of the destination. Kept in an `int` of 32
bits it looks like `-1` when it is one less than a multiple of 2^32, and then
the program reports a failure of a call that has succeeded.

A limit can only be broken by a process that gets there, so each condition is
about the part of the source before anything else has stopped it.

## Main definitions

* `AtByte`: The states at the head of the inner loop.
* `StoresInBounds`: Every store goes into `wbuf`.
* `CountsInRange`: `zero_cnt` stays in the range of `int`.
* `ExitsHonestly`: The program reports a failed `lseek` only after one.
* `Answered`: No call up to some point fails.

## Theorems

* `atByte_iff`: A byte of the source is seen to in the state after those
  before it.
* `storesInBounds_iff`: When every store is in bounds.
* `ofOff_eq_neg_one_iff`: The offsets that look like a failure.
* `arithmetic_iff`: When the counters of 32 bits do no harm.
-/

namespace TlpiPractice

namespace SparseCopy

open MaximalRuns

/-- The states at the head of the inner loop, with the byte to be seen to: the
    files are open, some blocks have been copied and a part of one more. -/
def AtByte (A : CInt) (K : Kernel) (blocks : List Block) (old : List UInt8) (s : Copy)
    (b : UInt8) : Prop :=
  (K.opensSource = true ∧ K.opensDest = true) ∧
    ∃ done block rest u v, blocks = done ++ block :: rest ∧ block.bytes = u ++ b :: v ∧
      s = u.foldl (copyByte A K) (done.foldl (copyBlock A K) (opened old))

/-- Every store of the loop goes into `wbuf`. -/
def StoresInBounds (A : CInt) (K : Kernel) (blocks : List Block) (old : List UInt8) : Prop :=
  ∀ s b, AtByte A K blocks old s b → s.status = .running → b ≠ 0 →
    (skip A K s).status = .running → (skip A K s).wbuf.length < bufSize

/-- `zero_cnt` stays in the range of `int` whenever it is incremented. -/
def CountsInRange (A : CInt) (K : Kernel) (blocks : List Block) (old : List UInt8) : Prop :=
  ∀ s, AtByte A K blocks old s 0 → s.status = .running → (flush K s).status = .running →
    A.holds ((flush K s).zeroCnt + 1) = true

/-- The program ends with `LSEEK_FAILURE` only when an `lseek` has failed. -/
def ExitsHonestly (A : CInt) (K : Kernel) (blocks : List Block) (old : List UInt8) : Prop :=
  (main A K blocks old).status = .exited lseekFailure →
    ∃ off dist, Sys.lseek off dist false ∈ (main A K blocks old).calls

/-- A call that does not fail. -/
def Sys.Done : Sys → Prop
  | .write _ _ taken => taken ≠ none
  | .lseek _ _ done => done = true

/-! ### The bytes of the blocks -/

theorem source_append (blocks blocks' : List Block) :
    source (blocks ++ blocks') = source blocks ++ source blocks' := by
  rw [source, List.map_append, List.flatten_append, source, source]

theorem source_cons (block : Block) (blocks : List Block) :
    source (block :: blocks) = block.bytes ++ source blocks := by
  rw [source, List.map_cons, List.flatten_cons, source]

/-- A byte of the source lies in a block. -/
theorem exists_block (blocks : List Block) (p : List UInt8) (b : UInt8)
    (h : p ++ [b] <+: source blocks) :
    ∃ done block rest u v, blocks = done ++ block :: rest ∧ block.bytes = u ++ b :: v ∧
      p = source done ++ u := by
  induction blocks generalizing p with
  | nil => exact absurd (List.prefix_nil.mp h) (List.concat_ne_nil b p)
  | cons block blocks ih =>
      rw [source_cons] at h
      have hblock := List.prefix_append block.bytes (source blocks)
      rcases Nat.lt_or_ge p.length block.bytes.length with hlt | hge
      · -- It is in the first block.
        have hle : (p ++ [b]).length ≤ block.bytes.length := by
          rw [List.length_append, List.length_singleton]
          exact hlt
        rcases List.prefix_of_prefix_length_le h hblock hle with ⟨v, hv⟩
        refine ⟨[], block, blocks, p, v, rfl, ?_, rfl⟩
        rw [← hv, List.append_assoc, List.singleton_append]
      · -- It is behind the first block.
        have hp := (List.prefix_append p [b]).trans h
        rcases List.prefix_of_prefix_length_le hblock hp hge with ⟨p', rfl⟩
        rw [List.append_assoc, List.prefix_append_right_inj] at h
        rcases ih p' h with ⟨done, block', rest, u, v, rfl, hbytes, rfl⟩
        refine ⟨block :: done, block', rest, u, v, rfl, hbytes, ?_⟩
        rw [source_cons, List.append_assoc]

/-- A byte of the source is seen to in the state after those before it. -/
theorem atByte_iff (A : CInt) (K : Kernel) (blocks : List Block) (old : List UInt8) (s : Copy)
    (b : UInt8) :
    AtByte A K blocks old s b ↔ (K.opensSource = true ∧ K.opensDest = true) ∧
      ∃ p, p ++ [b] <+: source blocks ∧ s = after A K old p := by
  refine and_congr_right (fun _ => ⟨?_, ?_⟩)
  · rintro ⟨done, block, rest, u, v, rfl, hbytes, rfl⟩
    refine ⟨source done ++ u, ⟨v ++ source rest, ?_⟩, ?_⟩
    · simp only [source_append, source_cons, hbytes, List.append_assoc, List.cons_append,
        List.nil_append]
    · rw [foldl_copyBlock, after, List.foldl_append]
  · rintro ⟨p, hp, rfl⟩
    rcases exists_block blocks p b hp with ⟨done, block, rest, u, v, hblocks, hbytes, rfl⟩
    refine ⟨done, block, rest, u, v, hblocks, hbytes, ?_⟩
    rw [foldl_copyBlock, after, List.foldl_append]

/-! ### The room in the buffer -/

/-- Equal bytes are one run. -/
theorem runs_replicate (n : Nat) (b : UInt8) :
    runs zero (List.replicate (n + 1) b) = [List.replicate (n + 1) b] := by
  refine runs_of_same zero _ nofun (fun x hx y hy => ?_)
  rw [List.eq_of_mem_replicate hx, List.eq_of_mem_replicate hy]

theorem ended_replicate (n : Nat) (b : UInt8) :
    ended zero (List.replicate (n + 1) b) = [] := by
  rw [ended, runs_replicate, List.dropLast_singleton]

theorem isZeros_replicate (n : Nat) (b : UInt8) :
    isZeros (List.replicate (n + 1) b) = zero b := by
  rw [isZeros, List.all_replicate, if_neg (Nat.succ_ne_zero n)]

section Limits

variable (A : CInt) (K : Kernel) (blocks : List Block) (old : List UInt8)

theorem tracks_of_reaches (p : List UInt8) (h : Reaches A K p) :
    Tracks K p (after A K old p) := by
  rcases after_spec A K old p with ⟨-, htracks⟩ | ⟨hstop, -⟩
  · exact htracks
  · exact absurd h hstop

theorem reaches_of_running (p : List UInt8) (h : (after A K old p).status = .running) :
    Reaches A K p := by
  rcases after_spec A K old p with ⟨hreach, -⟩ | ⟨-, hstop⟩
  · exact hreach
  · exact absurd h hstop

/-- The closing of a run goes well when the calls of the runs ended do. -/
theorem ready_of_callsOk (p : List UInt8) (b : UInt8) (h : Reaches A K p)
    (hok : CallsOk A K (p ++ [b])) : ∃ q, Ready K p b q (close A K b (after A K old p)) := by
  rcases close_spec A K _ b p (tracks_of_reaches A K old p h) h.calls
    with ⟨-, ⟨-, hready⟩ | ⟨c, htrace, hstops, -⟩⟩
  · exact hready
  · refine absurd (hok c ?_) (not_ok_of_stops A b c hstops)
    rw [htrace]
    exact List.mem_append_right _ List.mem_cons_self

/-- The other way round: a process that runs after the closing has made no
    call that fails. -/
theorem callsOk_of_running (p : List UInt8) (b : UInt8) (h : Reaches A K p)
    (hrun : (close A K b (after A K old p)).status = .running) :
    CallsOk A K (p ++ [b]) ∧ ∃ q, Ready K p b q (close A K b (after A K old p)) := by
  rcases close_spec A K _ b p (tracks_of_reaches A K old p h) h.calls
    with ⟨-, hready | ⟨_, -, -, -, hexit⟩⟩
  · exact hready
  · exact nomatch hexit.symm.trans hrun

/-- When every store is in bounds, the process gets wherever neither a call nor
    `zero_cnt` stops it. -/
theorem reaches_of_stores (hstores : StoresInBounds A K blocks old)
    (hopen : K.opensSource = true ∧ K.opensDest = true) (p : List UInt8)
    (hp : p <+: source blocks) (hok : CallsOk A K p) (hcounted : ∀ r ∈ runs zero p, Counted A r) :
    Reaches A K p := by
  induction p using List.reverseRecOn with
  | nil => exact ⟨hok, hcounted, fun r hr => absurd hr List.not_mem_nil⟩
  | append_singleton p b ih =>
      have hpre := List.prefix_append p [b]
      rcases (counted_concat A p b).mp hcounted with ⟨hbefore, hcur⟩
      have hreach := ih (hpre.trans hp) (callsOk_mono A K p _ hpre hok) hbefore
      rcases ready_of_callsOk A K old p b hreach hok with ⟨q, hready⟩
      refine ⟨hok, hcounted, (room_concat p b).mpr ⟨hreach.room, ?_⟩⟩
      by_cases hb : b = 0
      · intro hother
        rw [hready.current, (ready_zero K p q b _ hready hb).1] at hother
        exact nomatch hother
      · -- The store of this byte is in bounds, so its run has room.
        have hat := (atByte_iff A K blocks old _ b).mpr ⟨hopen, p, hp, rfl⟩
        have hclose : close A K b (after A K old p) = skip A K (after A K old p) := if_neg hb
        have hstore := hstores _ b hat (tracks_of_reaches A K old p hreach).status hb
          (hclose ▸ hready.status)
        rw [← hclose] at hstore
        exact ((held_nonzero A K p q b _ hready hb).mpr hstore).room

/-- Every store is in bounds exactly when `wbuf` has room for every run of
    bytes other than zero, as far as neither a call nor `zero_cnt` has stopped
    the process before. -/
theorem storesInBounds_iff :
    StoresInBounds A K blocks old ↔ (K.opensSource = true ∧ K.opensDest = true →
      ∀ p, p <+: source blocks → CallsOk A K p → (∀ r ∈ runs zero p, Counted A r) →
        ∀ r ∈ runs zero p, Room r) := by
  refine ⟨fun hstores hopen p hp hok hcounted =>
    (reaches_of_stores A K blocks old hstores hopen p hp hok hcounted).room, ?_⟩
  intro hroom s b hat hs hb hskip
  rcases (atByte_iff A K blocks old s b).mp hat with ⟨hopen, p, hp, rfl⟩
  have hclose : close A K b (after A K old p) = skip A K (after A K old p) := if_neg hb
  have hreach := reaches_of_running A K old p hs
  rw [← hclose] at hskip ⊢
  rcases callsOk_of_running A K old p b hreach hskip with ⟨hok, q, hready⟩
  have hcounted : Counted A (current zero (p ++ [b])) := by
    intro hzeros
    rw [hready.current, (ready_nonzero K p q b _ hready hb).1] at hzeros
    exact nomatch hzeros
  have hall := hroom hopen _ hp hok ((counted_concat A p b).mpr ⟨hreach.counted, hcounted⟩)
  exact (held_nonzero A K p q b _ hready hb).mp ⟨hcounted, ((room_concat p b).mp hall).2⟩

/-- Two blocks that are one run of ones. -/
def onesBlocks : List Block :=
  [⟨List.replicate 1024 1, nofun, Nat.le_of_eq List.length_replicate⟩,
    ⟨[1], nofun, Nat.le_of_ble_eq_true rfl⟩]

/-- A run that is longer than `wbuf`, though no block is. -/
theorem onesBlocks_out_of_bounds : ¬ StoresInBounds int32 reliable onesBlocks [] := by
  intro hstores
  have hsource : source onesBlocks = List.replicate 1025 1 := by
    simp only [source, onesBlocks, List.map_cons, List.map_nil, List.flatten_cons,
      List.flatten_nil, List.append_nil]
    exact List.replicate_succ'.symm
  have hcounted : ∀ r ∈ runs zero (List.replicate 1025 1), Counted int32 r := by
    rw [runs_replicate 1024 1, List.forall_mem_singleton]
    intro hzeros
    cases (isZeros_replicate 1024 1).symm.trans hzeros
  have hok : CallsOk int32 reliable (List.replicate 1025 1) := by
    rw [CallsOk, ended_replicate 1024 1]
    exact fun c hc => absurd hc List.not_mem_nil
  have hreach := reaches_of_stores int32 reliable onesBlocks [] hstores ⟨rfl, rfl⟩ _
    (hsource ▸ List.prefix_refl _) hok hcounted
  have hroom := hreach.room (List.replicate 1025 1)
    (by rw [runs_replicate 1024 1]; exact List.mem_cons_self) (isZeros_replicate 1024 1)
  rw [List.length_replicate, bufSize] at hroom
  omega

/-! ### The counters -/

/-- No call for the runs that have ended before this point fails. -/
def Answered (p : List UInt8) : Prop := ∀ c ∈ trace K (ended zero p), c.Done

/-- No `lseek` for them has a result that looks like a failure. -/
def WellRead (p : List UInt8) : Prop :=
  ∀ off dist, Sys.lseek off dist true ∈ trace K (ended zero p) → A.ofOff (off + dist : Nat) ≠ -1

theorem callsOk_iff (p : List UInt8) : CallsOk A K p ↔ Answered K p ∧ WellRead A K p := by
  constructor
  · refine fun hok => ⟨fun c hc => ?_, fun off dist hc => (hok _ hc).2⟩
    have hone := hok c hc
    cases c with
    | write off data taken => exact hone
    | lseek off dist done => exact hone.1
  · rintro ⟨hdone, hread⟩ c hc
    have hone := hdone c hc
    cases c with
    | write off data taken => exact hone
    | lseek off dist done =>
        cases hone
        exact ⟨rfl, hread off dist hc⟩

theorem answered_mono (p s : List UInt8) (h : p <+: s) (hs : Answered K s) : Answered K p :=
  fun c hc => hs c ((trace_mono K _ _ (ended_mono zero p s h)).subset hc)

/-- A process that has stopped stays as it is. -/
theorem after_stopped (p s : List UInt8) (h : p <+: s)
    (hstop : (after A K old p).status ≠ .running) : after A K old s = after A K old p := by
  rcases h with ⟨t, rfl⟩
  induction t using List.reverseRecOn with
  | nil => rw [List.append_nil]
  | append_singleton t b ih =>
      rw [← List.append_assoc, after_concat, ih, copyByte, Copy.andThen, if_neg hstop]

theorem main_of_stopped (hopen : K.opensSource = true ∧ K.opensDest = true) (p : List UInt8)
    (hp : p <+: source blocks) (hstop : (after A K old p).status ≠ .running) :
    main A K blocks old = after A K old p := by
  rw [main, if_pos hopen, foldl_copyBlock, ← after, after_stopped A K old p _ hp hstop,
    Copy.andThen, if_neg hstop]

/-- A byte before which a call stops the process. -/
theorem after_of_stops (p : List UInt8) (b : UInt8) (code : Int) (h : Reaches A K p)
    (hexit : (close A K b (after A K old p)).status = .exited code) :
    after A K old (p ++ [b]) = close A K b (after A K old p) := by
  have hstop : (close A K b (after A K old p)).status ≠ .running := by
    rw [hexit]
    exact nofun
  rw [after_concat, copyByte_eq A K _ b (tracks_of_reaches A K old p h).status, Copy.andThen,
    if_neg hstop]

/-- When the counters do no harm, the process gets wherever neither a call
    fails nor `wbuf` runs out of room. -/
theorem reaches_of_arithmetic (hcounts : CountsInRange A K blocks old)
    (hexits : ExitsHonestly A K blocks old)
    (hopen : K.opensSource = true ∧ K.opensDest = true) (p : List UInt8)
    (hp : p <+: source blocks) (hdone : Answered K p) (hroom : ∀ r ∈ runs zero p, Room r) :
    Reaches A K p := by
  induction p using List.reverseRecOn with
  | nil => exact ⟨fun c hc => absurd hc List.not_mem_nil, fun r hr => absurd hr List.not_mem_nil,
      hroom⟩
  | append_singleton p b ih =>
      have hpre := List.prefix_append p [b]
      rcases (room_concat p b).mp hroom with ⟨hbefore, hcur⟩
      have hreach := ih (hpre.trans hp) (answered_mono K p _ hpre hdone) hbefore
      have htracks := tracks_of_reaches A K old p hreach
      rcases close_spec A K _ b p htracks hreach.calls
        with ⟨hcalls, ⟨hok, q, hready⟩ | ⟨c, htrace, hstops, -, hexit⟩⟩
      · refine ⟨hok, (counted_concat A p b).mpr ⟨hreach.counted, ?_⟩, hroom⟩
        by_cases hb : b = 0
        · -- This zero was counted, so the run can be.
          subst hb
          have hat := (atByte_iff A K blocks old _ 0).mpr ⟨hopen, p, hp, rfl⟩
          exact ((held_zero A K p q 0 _ hready rfl).mpr
            (hcounts _ hat htracks.status hready.status)).counted
        · intro hzeros
          rw [hready.current, (ready_nonzero K p q b _ hready hb).1] at hzeros
          exact nomatch hzeros
      · have hmem : c ∈ trace K (ended zero (p ++ [b])) := by
          rw [htrace]
          exact List.mem_append_right _ List.mem_cons_self
        cases c with
        | write off data taken => exact absurd hstops.2 (hdone _ hmem)
        | lseek off dist done =>
            -- The call did not fail, so the program takes its result for a failure.
            rw [if_neg hstops.1] at hexit
            have hafter := after_of_stops A K old p b _ hreach hexit
            have hstop : (after A K old (p ++ [b])).status ≠ .running := by
              rw [hafter, hexit]
              exact nofun
            have hmain := main_of_stopped A K blocks old hopen _ hp hstop
            rcases hexits (by rw [hmain, hafter]; exact hexit) with ⟨off', dist', hfail⟩
            rw [hmain, hafter, hcalls] at hfail
            exact absurd (hdone _ hfail) Bool.false_ne_true

/-- The condition under which the counters do no harm: where neither a call
    fails nor `wbuf` runs out of room before, every run of zeros can be counted
    and no result of `lseek` looks like a failure. -/
def CountersSuffice : Prop :=
  ∀ p, p <+: source blocks → Answered K p → (∀ r ∈ runs zero p, Room r) →
    (∀ r ∈ runs zero p, Counted A r) ∧ WellRead A K p

theorem countsInRange_of_suffice
    (h : K.opensSource = true ∧ K.opensDest = true → CountersSuffice A K blocks) :
    CountsInRange A K blocks old := by
  intro s hat hs hflush
  rcases (atByte_iff A K blocks old s 0).mp hat with ⟨hopen, p, hp, rfl⟩
  have hclose : close A K 0 (after A K old p) = flush K (after A K old p) := if_pos rfl
  have hreach := reaches_of_running A K old p hs
  rw [← hclose] at hflush ⊢
  rcases callsOk_of_running A K old p 0 hreach hflush with ⟨hok, q, hready⟩
  have hroom : Room (current zero (p ++ [0])) := by
    intro hother
    rw [hready.current, (ready_zero K p q 0 _ hready rfl).1] at hother
    exact nomatch hother
  have hall := (h hopen _ hp ((callsOk_iff A K _).mp hok).1
    ((room_concat p 0).mpr ⟨hreach.room, hroom⟩)).1
  exact (held_zero A K p q 0 _ hready rfl).mp ⟨((counted_concat A p 0).mp hall).2, hroom⟩

/-- A process that has ended with `LSEEK_FAILURE` in the loop has seen a failed
    `lseek`. -/
theorem lseek_failed_of_suffice (h : CountersSuffice A K blocks) (p : List UInt8)
    (hp : p <+: source blocks) (hexit : (after A K old p).status = .exited lseekFailure) :
    ∃ off dist, Sys.lseek off dist false ∈ (after A K old p).calls := by
  induction p using List.reverseRecOn with
  | nil => cases hexit
  | append_singleton p b ih =>
      have hpre := List.prefix_append p [b]
      rcases after_spec A K old p with ⟨hreach, htracks⟩ | ⟨-, hstop⟩
      · rcases close_spec A K _ b p htracks hreach.calls
          with ⟨hcalls, ⟨-, q, hready⟩ | ⟨c, htrace, hstops, hcur, hcode⟩⟩
        · -- The call went well, and what follows does not exit.
          rw [after_concat, copyByte_eq A K _ b htracks.status, Copy.andThen,
            if_pos hready.status] at hexit
          rcases take_spec A K p q b _ hready hcalls with ⟨-, hnext⟩ | ⟨-, hundef⟩
          · cases hnext.status.symm.trans hexit
          · cases hundef.symm.trans hexit
        · rw [after_of_stops A K old p b _ hreach hcode] at hexit ⊢
          have hb : b ≠ 0 := by
            intro hb
            rw [hcode, if_pos hb] at hexit
            exact absurd hexit (by decide)
          cases c with
          | write off data taken => exact absurd hstops.1 hb
          | lseek off dist done =>
              -- If the call succeeded, its result was taken for a failure.
              cases hd : done with
              | false =>
                  refine ⟨off, dist, ?_⟩
                  rw [hcalls, htrace, hd]
                  exact List.mem_append_right _ List.mem_cons_self
              | true =>
                  -- A result that looks like a failure is what the condition excludes.
                  have hdone : Answered K (p ++ [b]) := by
                    rw [Answered, htrace, List.forall_mem_append, List.forall_mem_singleton]
                    exact ⟨((callsOk_iff A K p).mp hreach.calls).1, hd⟩
                  have hroom : Room (current zero (p ++ [b])) := by
                    rw [hcur]
                    exact fun _ => Nat.le_of_ble_eq_true rfl
                  have hread := (h _ hp hdone ((room_concat p b).mpr ⟨hreach.room, hroom⟩)).2
                  refine absurd (hstops.2 hd) (hread off dist ?_)
                  rw [htrace, hd]
                  exact List.mem_append_right _ List.mem_cons_self
      · -- It had ended before.
        have hsame := after_stopped A K old p _ hpre hstop
        rw [hsame] at hexit ⊢
        exact ih (hpre.trans hp) hexit

/-- What follows the loop has no `lseek` in it. -/
theorem finish_status (s : Copy) (hs : s.status = .running) :
    (finish K s).status ≠ .exited lseekFailure := by
  rw [finish]
  split
  · rw [flush]
    split
    · rw [Copy.andThen, if_pos hs]
      intro h
      cases h
    · rw [writeOut]
      cases K.write s.calls.length with
      | none =>
          intro h
          exact absurd (Status.exited.inj h) (by decide)
      | some k =>
          rw [Copy.andThen, if_pos hs]
          intro h
          cases h
  · intro h
    exact absurd (Status.exited.inj h) (by decide)

theorem exitsHonestly_of_suffice
    (h : K.opensSource = true ∧ K.opensDest = true → CountersSuffice A K blocks) :
    ExitsHonestly A K blocks old := by
  intro hexit
  by_cases hopen : K.opensSource = true ∧ K.opensDest = true
  · rw [main, if_pos hopen, foldl_copyBlock, ← after] at hexit ⊢
    by_cases hs : (after A K old (source blocks)).status = .running
    · rw [Copy.andThen, if_pos hs] at hexit
      exact absurd hexit (finish_status K _ hs)
    · rw [Copy.andThen, if_neg hs] at hexit ⊢
      exact lseek_failed_of_suffice A K blocks old (h hopen) _ (List.prefix_refl _) hexit
  · rw [main, if_neg hopen] at hexit
    have hcode : openFailure = lseekFailure := Status.exited.inj hexit
    exact absurd hcode (by decide)

end Limits

/-- An offset looks like a failure when it is one less than a multiple of
    2^32. -/
theorem ofOff_eq_neg_one_iff (n : Nat) :
    int32.ofOff (n : Nat) = -1 ↔ n % 4294967296 = 4294967295 := by
  have hwrap : int32.ofOff = Ints.wrap := rfl
  rw [hwrap, Ints.wrap_eq_neg_one_iff]

theorem counted_int32_iff (r : List UInt8) :
    Counted int32 r ↔ (isZeros r = true → r.length ≤ 2147483647) := by
  refine forall_congr' (fun _ => ?_)
  exact decide_eq_true_iff

/-- With `int` of 32 bits the counters do no harm exactly when, as far as the
    process gets without a call that fails and without a run too long for
    `wbuf`, every run of zeros is shorter than 2^31 bytes and no `lseek` leads
    to an offset that is one less than a multiple of 2^32. -/
theorem arithmetic_iff (K : Kernel) (blocks : List Block) (old : List UInt8) :
    (CountsInRange int32 K blocks old ∧ ExitsHonestly int32 K blocks old) ↔
      (K.opensSource = true ∧ K.opensDest = true → ∀ p, p <+: source blocks → Answered K p →
        (∀ r ∈ runs zero p, isZeros r = false → r.length ≤ bufSize) →
          (∀ r ∈ runs zero p, isZeros r = true → r.length ≤ 2147483647) ∧
            ∀ off dist, Sys.lseek off dist true ∈ trace K (ended zero p) →
              (off + dist) % 4294967296 ≠ 4294967295) := by
  have hsame : CountersSuffice int32 K blocks ↔ ∀ p, p <+: source blocks → Answered K p →
      (∀ r ∈ runs zero p, isZeros r = false → r.length ≤ bufSize) →
        (∀ r ∈ runs zero p, isZeros r = true → r.length ≤ 2147483647) ∧
          ∀ off dist, Sys.lseek off dist true ∈ trace K (ended zero p) →
            (off + dist) % 4294967296 ≠ 4294967295 := by
    refine forall_congr' (fun p => forall₃_congr (fun _ _ _ => and_congr ?_ ?_))
    · exact forall₂_congr (fun r _ => counted_int32_iff r)
    · exact forall₃_congr (fun off dist _ => (ofOff_eq_neg_one_iff (off + dist)).not)
  rw [← hsame]
  constructor
  · rintro ⟨hcounts, hexits⟩ hopen p hp hdone hroom
    have hreach := reaches_of_arithmetic int32 K blocks old hcounts hexits hopen p hp hdone hroom
    exact ⟨hreach.counted, ((callsOk_iff int32 K p).mp hreach.calls).2⟩
  · exact fun h => ⟨countsInRange_of_suffice int32 K blocks old h,
      exitsHonestly_of_suffice int32 K blocks old h⟩

/-- A file of 2^31 zeros, in blocks of 1024. -/
def manyZeros : List Block :=
  List.replicate 2097152 ⟨List.replicate 1024 0, nofun, Nat.le_of_eq List.length_replicate⟩

/-- No call fails, and `zero_cnt` overflows. -/
theorem manyZeros_out_of_range :
    ¬ (CountsInRange int32 reliable manyZeros [] ∧ ExitsHonestly int32 reliable manyZeros []) := by
  rintro ⟨hcounts, hexits⟩
  have hsource : source manyZeros = List.replicate 2147483648 0 := by
    simp only [source, manyZeros, List.map_replicate, List.flatten_replicate_replicate]
  have hroom : ∀ r ∈ runs zero (List.replicate 2147483648 0), Room r := by
    rw [runs_replicate 2147483647 0, List.forall_mem_singleton]
    intro hother
    cases (isZeros_replicate 2147483647 0).symm.trans hother
  have hdone : Answered reliable (List.replicate 2147483648 0) := by
    rw [Answered, ended_replicate 2147483647 0]
    exact fun c hc => absurd hc List.not_mem_nil
  have hreach := reaches_of_arithmetic int32 reliable manyZeros [] hcounts hexits ⟨rfl, rfl⟩ _
    (hsource ▸ List.prefix_refl _) hdone hroom
  have hheld := hreach.counted (List.replicate 2147483648 0)
    (by rw [runs_replicate 2147483647 0]; exact List.mem_cons_self)
  rw [counted_int32_iff, List.length_replicate] at hheld
  exact absurd (hheld (isZeros_replicate 2147483647 0)) (by omega)

end SparseCopy

end TlpiPractice
