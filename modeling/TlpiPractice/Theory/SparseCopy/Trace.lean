import TlpiPractice.Library.MaximalRuns
import TlpiPractice.Theory.SparseCopy.Copies

/-!
# The Calls of the Sparse Copy

The calls that the copy makes on the destination, for any source, any way of
reading it, and any way the calls go.

The source is cut into its maximal runs of zeros and of other bytes. Each run
leads to one call when another byte follows: a run of zeros to an `lseek` over
it, a run of other bytes to a `write` of it. So the calls made so far are
those of the runs that have ended, and what is in the two accumulators is the
current run. `trace` is the calls of some runs as the kernel answers them,
each at the offset that those before it have led to, and `Tracks` is the
invariant. After the last byte a run of other bytes is written and a run of
zeros is dropped.

The process goes on exactly as long as those calls succeed and no run is too
long for what holds it. `running_iff` says so for every kernel and every
`int`; the limits of the program follow from it.

When all writes are complete each call is made at the offset that its run has
in the source. `plan` is the calls then, and does not mention the kernel.

## Main definitions

* `isZeros`: A run of zeros.
* `runCall`, `trace`: The calls of some runs.
* `Sys.Ok`: A call that does not end the process.
* `Tracks`: The accumulators hold the current run.
* `Reaches`: Nothing stops the process before some point.
* `plan`: The calls when every write is complete.

## Theorems

* `take_spec`: One byte, for a process that runs.
* `after_spec`: When the process still runs.
* `trace_eq_moveAll`: Complete writes keep the offsets of the source.
* `main_trace`: The calls of the whole program.
-/

namespace TlpiPractice

namespace SparseCopy

open MaximalRuns

/-- A run of zeros. -/
def isZeros (r : List UInt8) : Bool := r.all zero

/-- How far a call moves the offset. -/
def Sys.moves : Sys → Nat
  | .write _ _ taken => taken.getD 0
  | .lseek _ dist done => if done = true then dist else 0

/-- The offset that some calls lead to. -/
def offsetAfter (calls : List Sys) : Nat := (calls.map Sys.moves).sum

/-- The call that a run leads to after some others, as the kernel answers it. -/
def runCall (K : Kernel) (calls : List Sys) (r : List UInt8) : Sys :=
  if isZeros r = true then .lseek (offsetAfter calls) r.length (K.lseek calls.length)
  else .write (offsetAfter calls) r ((K.write calls.length).map (fun k => (r.take k).length))

/-- The calls of some runs. -/
def trace (K : Kernel) (rs : List (List UInt8)) : List Sys :=
  rs.foldl (fun calls r => calls ++ [runCall K calls r]) []

/-- A call that does not end the process: it succeeds, and its result is not
    taken for a failure. -/
def Sys.Ok (A : CInt) : Sys → Prop
  | .write _ _ taken => taken ≠ none
  | .lseek off dist done => done = true ∧ A.ofOff (off + dist : Nat) ≠ -1

/-- A call that ends the process before `b` is taken: a `write` that fails, or
    an `lseek` that fails or whose result is taken for a failure. -/
def Sys.Stops (A : CInt) (b : UInt8) : Sys → Prop
  | .write _ _ taken => b = 0 ∧ taken = none
  | .lseek off dist done => b ≠ 0 ∧ (done = true → A.ofOff (off + dist : Nat) = -1)

theorem not_ok_of_stops (A : CInt) (b : UInt8) (c : Sys) (h : c.Stops A b) : ¬ c.Ok A := by
  cases c with
  | write off data taken => exact fun hok => hok h.2
  | lseek off dist done => exact fun hok => hok.2 (h.2 hok.1)

/-- The state of a process that runs: the calls are those of the runs that
    have ended, and the accumulators hold the current one. -/
structure Tracks (K : Kernel) (p : List UInt8) (s : Copy) : Prop where
  status : s.status = .running
  calls : s.calls = trace K (ended zero p)
  offset : s.offset = offsetAfter s.calls
  wbuf : s.wbuf = (current zero p).filter nonzero
  zeroCnt : s.zeroCnt = ((current zero p).filter zero).length

/-- `zero_cnt` can hold the length of the run, if it is one of zeros. -/
def Counted (A : CInt) (r : List UInt8) : Prop := isZeros r = true → A.holds r.length = true

/-- `wbuf` has room for the run, if it is one of other bytes. -/
def Room (r : List UInt8) : Prop := isZeros r = false → r.length ≤ bufSize

/-- A run that its accumulator can hold. -/
structure Held (A : CInt) (r : List UInt8) : Prop where
  counted : Counted A r
  room : Room r

theorem trace_concat (K : Kernel) (rs : List (List UInt8)) (r : List UInt8) :
    trace K (rs ++ [r]) = trace K rs ++ [runCall K (trace K rs) r] := by
  simp only [trace, List.foldl_append, List.foldl_cons, List.foldl_nil]

theorem trace_mono (K : Kernel) (rs rs' : List (List UInt8)) (h : rs <+: rs') :
    trace K rs <+: trace K rs' := by
  rcases h with ⟨t, rfl⟩
  induction t using List.reverseRecOn with
  | nil => rw [List.append_nil]
  | append_singleton t r ih =>
      rw [← List.append_assoc, trace_concat]
      exact ih.trans (List.prefix_append _ _)

theorem offsetAfter_concat (calls : List Sys) (c : Sys) :
    offsetAfter (calls ++ [c]) = offsetAfter calls + c.moves := by
  simp only [offsetAfter, List.map_append, List.map_singleton, List.sum_append,
    List.sum_singleton]

/-! ### The two kinds of runs -/

theorem nonzero_eq_not_zero (b : UInt8) : nonzero b = !zero b := decide_not

/-- A run is of zeros if it has one. -/
theorem isZeros_eq (p r : List UInt8) (hr : r ∈ runs zero p) (b : UInt8) (hb : b ∈ r) :
    isZeros r = zero b := by
  cases hz : zero b with
  | true => exact List.all_eq_true.mpr (fun c hc => (same_kind zero p r hr c b hc hb).trans hz)
  | false =>
      refine Bool.eq_false_iff.mpr (fun hall => ?_)
      exact nomatch hz.symm.trans (List.all_eq_true.mp hall b hb)

theorem filter_of_zeros (r : List UInt8) (h : ∀ x ∈ r, zero x = true) :
    r.filter zero = r ∧ r.filter nonzero = [] := by
  refine ⟨List.filter_eq_self.mpr h, List.filter_eq_nil_iff.mpr (fun x hx => ?_)⟩
  rw [nonzero_eq_not_zero, h x hx]
  exact Bool.false_ne_true

theorem filter_of_others (r : List UInt8) (h : ∀ x ∈ r, zero x = false) :
    r.filter zero = [] ∧ r.filter nonzero = r := by
  refine ⟨List.filter_eq_nil_iff.mpr (fun x hx => ?_), List.filter_eq_self.mpr (fun x hx => ?_)⟩
  · rw [h x hx]
    exact Bool.false_ne_true
  · rw [nonzero_eq_not_zero, h x hx]
    rfl

/-- What a run leaves in the accumulators, by its kind. -/
theorem filter_run (p r : List UInt8) (hr : r ∈ runs zero p) :
    (isZeros r = true ∧ r.filter zero = r ∧ r.filter nonzero = []) ∨
      (isZeros r = false ∧ r.filter zero = [] ∧ r.filter nonzero = r) := by
  have hkind : ∀ b ∈ r, isZeros r = zero b := isZeros_eq p r hr
  cases hz : isZeros r with
  | true => exact .inl ⟨rfl, filter_of_zeros r (fun x hx => (hkind x hx).symm.trans hz)⟩
  | false => exact .inr ⟨rfl, filter_of_others r (fun x hx => (hkind x hx).symm.trans hz)⟩

/-! ### Closing a run -/

/-- What is done before a byte is taken: the accumulator of the other kind is
    seen to. -/
def close (A : CInt) (K : Kernel) (b : UInt8) (s : Copy) : Copy :=
  if b = 0 then flush K s else skip A K s

/-- What is done with the byte. -/
def takeByte (A : CInt) (b : UInt8) : Copy → Copy :=
  if b = 0 then countZero A else fun s => store s b

theorem copyByte_eq (A : CInt) (K : Kernel) (s : Copy) (b : UInt8) (hs : s.status = .running) :
    copyByte A K s b = (close A K b s).andThen (takeByte A b) := by
  rw [copyByte, Copy.andThen, if_pos hs, close, takeByte]
  by_cases hb : b = 0
  · rw [if_pos hb, if_pos hb, if_pos hb]
  · rw [if_neg hb, if_neg hb, if_neg hb]

section Close

variable (A : CInt) (K : Kernel) (s : Copy) (b : UInt8)

/-- A byte of the same kind closes nothing. -/
theorem close_same (hw : b = 0 → s.wbuf = []) (hz : b ≠ 0 → s.zeroCnt = 0) :
    close A K b s = s := by
  rw [close]
  by_cases hb : b = 0
  · rw [if_pos hb, flush, if_pos (hw hb)]
  · rw [if_neg hb, skip, if_pos (hz hb)]

/-- A zero after other bytes writes them. -/
theorem flush_runCall (r : List UInt8) (hr : r ≠ []) (hkind : isZeros r = false)
    (hw : s.wbuf = r) (hs : s.status = .running) (hoff : s.offset = offsetAfter s.calls) :
    (flush K s).calls = s.calls ++ [runCall K s.calls r] ∧
      (((runCall K s.calls r).Ok A ∧ (flush K s).status = .running ∧ (flush K s).wbuf = [] ∧
        (flush K s).zeroCnt = s.zeroCnt ∧ (flush K s).offset = offsetAfter (flush K s).calls) ∨
      ((runCall K s.calls r).Stops A 0 ∧ (flush K s).status = .exited writeFailure)) := by
  have hcall : runCall K s.calls r =
      .write s.offset r ((K.write s.calls.length).map (fun k => (r.take k).length)) := by
    rw [runCall, hkind, hoff]
    rfl
  rw [flush, if_neg (hw ▸ hr), writeOut, hcall]
  cases hk : K.write s.calls.length with
  | none => exact ⟨by rw [hw]; rfl, .inr ⟨⟨rfl, rfl⟩, rfl⟩⟩
  | some k =>
      refine ⟨by rw [hw]; rfl, .inl ⟨Option.some_ne_none _, hs, rfl, rfl, ?_⟩⟩
      simp only [offsetAfter_concat, Sys.moves, Option.getD_some, hoff]

/-- Another byte after zeros seeks over them. -/
theorem skip_runCall (r : List UInt8) (hb : b ≠ 0) (hr : r ≠ []) (hkind : isZeros r = true)
    (hz : s.zeroCnt = r.length) (hs : s.status = .running)
    (hoff : s.offset = offsetAfter s.calls) :
    (skip A K s).calls = s.calls ++ [runCall K s.calls r] ∧
      (((runCall K s.calls r).Ok A ∧ (skip A K s).status = .running ∧
        (skip A K s).zeroCnt = 0 ∧ (skip A K s).wbuf = s.wbuf ∧
        (skip A K s).offset = offsetAfter (skip A K s).calls) ∨
      ((runCall K s.calls r).Stops A b ∧ (skip A K s).status = .exited lseekFailure)) := by
  have hcall : runCall K s.calls r = .lseek s.offset r.length (K.lseek s.calls.length) := by
    rw [runCall, if_pos hkind, hoff]
  have hpos : s.zeroCnt ≠ 0 := by
    rw [hz]
    exact List.length_eq_zero_iff.not.mpr hr
  rw [skip, if_neg hpos, seek, hcall, hz]
  by_cases hl : K.lseek s.calls.length = true
  · rw [if_pos hl, hl]
    by_cases hc : A.ofOff (s.offset + r.length : Nat) = -1
    · rw [if_pos hc]
      exact ⟨rfl, .inr ⟨⟨hb, fun _ => hc⟩, rfl⟩⟩
    · rw [if_neg hc]
      refine ⟨rfl, .inl ⟨⟨rfl, hc⟩, hs, rfl, rfl, ?_⟩⟩
      simp only [offsetAfter_concat, Sys.moves, if_true, hoff]
  · rw [if_neg hl, Bool.eq_false_iff.mpr hl]
    exact ⟨rfl, .inr ⟨⟨hb, fun hdone => absurd hdone Bool.false_ne_true⟩, rfl⟩⟩

/-- After the closing: the current run is `q` followed by the byte to come. -/
structure Ready (K : Kernel) (p : List UInt8) (b : UInt8) (q : List UInt8) (t : Copy) : Prop where
  current : current zero (p ++ [b]) = q ++ [b]
  status : t.status = .running
  offset : t.offset = offsetAfter t.calls
  wbuf : t.wbuf = q.filter nonzero
  zeroCnt : t.zeroCnt = (q.filter zero).length

/-- No call of the runs that have ended stops the process. -/
def CallsOk (A : CInt) (K : Kernel) (p : List UInt8) : Prop :=
  ∀ c ∈ trace K (ended zero p), c.Ok A

/-- The closing makes the call of the run that the byte ends, if it ends one,
    and leaves the process running exactly when the call is a success. -/
theorem close_spec (p : List UInt8) (h : Tracks K p s) (hok : CallsOk A K p) :
    (close A K b s).calls = trace K (ended zero (p ++ [b])) ∧
      ((CallsOk A K (p ++ [b]) ∧ ∃ q, Ready K p b q (close A K b s)) ∨
        ∃ c, trace K (ended zero (p ++ [b])) = trace K (ended zero p) ++ [c] ∧ c.Stops A b ∧
          current zero (p ++ [b]) = [b] ∧
          (close A K b s).status = .exited (if b = 0 then writeFailure else lseekFailure)) := by
  rcases same_or_other zero p b with hsame | ⟨hp, hother⟩
  · -- The run goes on, so there is nothing to close.
    have hw : b = 0 → s.wbuf = [] := by
      intro hb
      have hzeros : ∀ x ∈ current zero p, zero x = true := fun x hx =>
        (hsame x hx).trans (decide_eq_true hb)
      rw [h.wbuf, (filter_of_zeros _ hzeros).2]
    have hz : b ≠ 0 → s.zeroCnt = 0 := by
      intro hb
      have hothers : ∀ x ∈ current zero p, zero x = false := fun x hx =>
        (hsame x hx).trans (decide_eq_false hb)
      rw [h.zeroCnt, (filter_of_others _ hothers).1, List.length_nil]
    rw [close_same A K s b hw hz, CallsOk, ended_concat_same zero p b hsame]
    exact ⟨h.calls, .inl ⟨hok, current zero p, current_concat_same zero p b hsame, h.status,
      h.offset, h.wbuf, h.zeroCnt⟩⟩
  · -- The run has ended, and its call is made.
    have hr := current_mem zero p hp
    have hne := current_ne_nil zero p hp
    have htrace : trace K (ended zero (p ++ [b])) =
        s.calls ++ [runCall K s.calls (current zero p)] := by
      rw [ended_concat_other zero p b hp hother, trace_concat, h.calls]
    have hok' : (runCall K s.calls (current zero p)).Ok A → CallsOk A K (p ++ [b]) := by
      intro hcall
      rw [CallsOk, htrace, List.forall_mem_append, h.calls]
      exact ⟨hok, fun c hc => List.mem_singleton.mp hc ▸ h.calls ▸ hcall⟩
    have hcur := current_concat_other zero p b hp hother
    rcases List.exists_mem_of_ne_nil _ hne with ⟨x, hx⟩
    have hkind := (isZeros_eq p _ hr x hx).trans (Bool.eq_not_of_ne (hother x hx))
    rw [← h.calls, htrace, close]
    rcases filter_run p _ hr with ⟨hzeros, hfz, hfn⟩ | ⟨hzeros, hfz, hfn⟩
    · have hb : b ≠ 0 := by
        rintro rfl
        exact nomatch hzeros.symm.trans hkind
      rw [if_neg hb, if_neg hb]
      rcases skip_runCall A K s b _ hb hne hzeros (hfz ▸ h.zeroCnt) h.status h.offset
        with ⟨hcalls, ⟨hcall, hs, hcnt, hbuf, hoff⟩ | ⟨hstop, hexit⟩⟩
      · refine ⟨hcalls, .inl ⟨hok' hcall, [], hcur, hs, hoff, ?_, hcnt⟩⟩
        rw [hbuf, h.wbuf, hfn]
        rfl
      · exact ⟨hcalls, .inr ⟨_, rfl, hstop, hcur, hexit⟩⟩
    · have hb : b = 0 := by
        by_contra hb
        have hzb : zero b = false := decide_eq_false hb
        rw [hzeros, hzb] at hkind
        exact nomatch hkind
      rw [if_pos hb, if_pos hb]
      rcases flush_runCall A K s _ hne hzeros (hfn ▸ h.wbuf) h.status h.offset
        with ⟨hcalls, ⟨hcall, hs, hbuf, hcnt, hoff⟩ | ⟨hstop, hexit⟩⟩
      · refine ⟨hcalls, .inl ⟨hok' hcall, [], hcur, hs, hoff, hbuf, ?_⟩⟩
        rw [hcnt, h.zeroCnt, hfz]
        rfl
      · exact ⟨hcalls, .inr ⟨_, rfl, hb ▸ hstop, hcur, hexit⟩⟩

end Close

/-! ### Taking the byte -/

section Take

variable (A : CInt) (K : Kernel) (p q : List UInt8) (b : UInt8) (t : Copy)

/-- Before a zero only zeros are counted. -/
theorem ready_zero (h : Ready K p b q t) (hb : b = 0) :
    isZeros (q ++ [b]) = true ∧ t.zeroCnt = q.length ∧ t.wbuf = [] := by
  have hr := current_mem zero (p ++ [b]) (List.concat_ne_nil b p)
  rw [h.current] at hr
  have hzeros : isZeros (q ++ [b]) = true := by
    rw [isZeros_eq _ _ hr b (List.mem_append_right q List.mem_cons_self)]
    exact decide_eq_true hb
  have hall : ∀ x ∈ q, zero x = true := fun x hx =>
    List.all_eq_true.mp hzeros x (List.mem_append_left _ hx)
  have hfilter := filter_of_zeros q hall
  exact ⟨hzeros, h.zeroCnt.trans (congrArg List.length hfilter.1), h.wbuf.trans hfilter.2⟩

/-- Before another byte only such bytes are collected. -/
theorem ready_nonzero (h : Ready K p b q t) (hb : b ≠ 0) :
    isZeros (q ++ [b]) = false ∧ t.wbuf = q ∧ t.zeroCnt = 0 := by
  have hr := current_mem zero (p ++ [b]) (List.concat_ne_nil b p)
  rw [h.current] at hr
  have hkind := isZeros_eq _ _ hr
  have hzeros : isZeros (q ++ [b]) = false := by
    rw [hkind b (List.mem_append_right q List.mem_cons_self)]
    exact decide_eq_false hb
  have hall : ∀ x ∈ q, zero x = false := fun x hx =>
    (hkind x (List.mem_append_left _ hx)).symm.trans hzeros
  have hfilter := filter_of_others q hall
  exact ⟨hzeros, h.wbuf.trans hfilter.2, h.zeroCnt.trans (congrArg List.length hfilter.1)⟩

/-- The run that a zero belongs to is held if `zero_cnt` can go on. -/
theorem held_zero (h : Ready K p b q t) (hb : b = 0) :
    Held A (current zero (p ++ [b])) ↔ A.holds (t.zeroCnt + 1) = true := by
  rcases ready_zero K p q b t h hb with ⟨hzeros, hcnt, -⟩
  have hlen : (q ++ [b]).length = t.zeroCnt + 1 := by
    rw [hcnt, List.length_append, List.length_singleton]
  rw [h.current, ← hlen]
  exact ⟨fun hheld => hheld.counted hzeros,
    fun hcount => ⟨fun _ => hcount, fun hother => nomatch hzeros.symm.trans hother⟩⟩

/-- The run that another byte belongs to is held if `wbuf` has room. -/
theorem held_nonzero (h : Ready K p b q t) (hb : b ≠ 0) :
    Held A (current zero (p ++ [b])) ↔ t.wbuf.length < bufSize := by
  rcases ready_nonzero K p q b t h hb with ⟨hother, hbuf, -⟩
  have hlen : (q ++ [b]).length = t.wbuf.length + 1 := by
    rw [hbuf, List.length_append, List.length_singleton]
  rw [h.current, ← Nat.succ_le_iff, Nat.succ_eq_add_one, ← hlen]
  exact ⟨fun hheld => hheld.room hother,
    fun hroom => ⟨fun hzeros => (nomatch hzeros.symm.trans hother), fun _ => hroom⟩⟩

/-- The byte is taken if its accumulator can hold the run. -/
theorem take_spec (h : Ready K p b q t) (hcalls : t.calls = trace K (ended zero (p ++ [b]))) :
    (Held A (current zero (p ++ [b])) ∧ Tracks K (p ++ [b]) (takeByte A b t)) ∨
      (¬ Held A (current zero (p ++ [b])) ∧ (takeByte A b t).status = .undefined) := by
  have hcur := h.current
  by_cases hb : b = 0
  · rw [held_zero A K p q b t h hb, takeByte, if_pos hb, countZero]
    by_cases hheld : A.holds (t.zeroCnt + 1) = true
    · rw [if_pos hheld]
      refine .inl ⟨hheld, h.status, hcalls, h.offset, ?_, ?_⟩
      · rw [hcur, List.filter_append, hb, h.wbuf]
        exact (List.append_nil _).symm
      · rw [hcur, List.filter_append, List.length_append, hb, ← h.zeroCnt]
        rfl
    · rw [if_neg hheld]
      exact .inr ⟨hheld, rfl⟩
  · have hnz : nonzero b = true := decide_eq_true hb
    have hz : ¬ zero b = true := fun hzero => hb (of_decide_eq_true hzero)
    rw [held_nonzero A K p q b t h hb, takeByte, if_neg hb]
    simp only [store]
    by_cases hroom : t.wbuf.length < bufSize
    · rw [if_pos hroom]
      refine .inl ⟨hroom, h.status, hcalls, h.offset, ?_, ?_⟩
      · rw [hcur, List.filter_append, List.filter_cons_of_pos hnz, List.filter_nil, h.wbuf]
      · rw [hcur, List.filter_append, List.filter_cons_of_neg hz, List.filter_nil,
          List.append_nil]
        exact h.zeroCnt
    · rw [if_neg hroom]
      exact .inr ⟨hroom, rfl⟩

end Take

/-! ### Any number of bytes -/

/-- Nothing stops the process before this point: the calls of the runs that
    have ended succeed, and every run is held. -/
structure Reaches (A : CInt) (K : Kernel) (p : List UInt8) : Prop where
  calls : CallsOk A K p
  counted : ∀ r ∈ runs zero p, Counted A r
  room : ∀ r ∈ runs zero p, Room r

/-- The kind of a run shows in any part of it. -/
theorem isZeros_concat (r : List UInt8) (b : UInt8) (hne : r ≠ [])
    (hr : ∀ x ∈ r, zero x = zero b) : isZeros (r ++ [b]) = isZeros r := by
  rcases List.exists_mem_of_ne_nil r hne with ⟨x, hx⟩
  rw [isZeros, List.all_append, ← isZeros, List.all_cons, List.all_nil, Bool.and_true]
  cases hz : zero b with
  | true => exact Bool.and_true _
  | false =>
      rw [Bool.and_false, eq_comm, Bool.eq_false_iff]
      exact fun hall => nomatch (hz.symm.trans (hr x hx).symm).trans (List.all_eq_true.mp hall x hx)

theorem length_le_concat (r : List UInt8) (b : UInt8) : r.length ≤ (r ++ [b]).length := by
  rw [List.length_append]
  exact Nat.le_add_right _ _

theorem counted_concat (A : CInt) (p : List UInt8) (b : UInt8) :
    (∀ r ∈ runs zero (p ++ [b]), Counted A r) ↔
      (∀ r ∈ runs zero p, Counted A r) ∧ Counted A (current zero (p ++ [b])) := by
  refine forall_runs_concat zero (Counted A) (fun r b hne hr h hz => ?_) p b
  rw [Counted, isZeros_concat r b hne hr] at h
  exact holds_mono A _ _ (length_le_concat r b) (h hz)

theorem room_concat (p : List UInt8) (b : UInt8) :
    (∀ r ∈ runs zero (p ++ [b]), Room r) ↔
      (∀ r ∈ runs zero p, Room r) ∧ Room (current zero (p ++ [b])) := by
  refine forall_runs_concat zero Room (fun r b hne hr h hz => ?_) p b
  rw [Room, isZeros_concat r b hne hr] at h
  exact Nat.le_trans (length_le_concat r b) (h hz)

section Bytes

variable (A : CInt) (K : Kernel) (old : List UInt8)

/-- The state after some bytes of the source. -/
def after (p : List UInt8) : Copy := p.foldl (copyByte A K) (opened old)

theorem after_concat (p : List UInt8) (b : UInt8) :
    after A K old (p ++ [b]) = copyByte A K (after A K old p) b := by
  simp only [after, List.foldl_append, List.foldl_cons, List.foldl_nil]

theorem callsOk_mono (p s : List UInt8) (h : p <+: s) (hok : CallsOk A K s) : CallsOk A K p :=
  fun c hc => hok c ((trace_mono K _ _ (ended_mono zero p s h)).subset hc)

theorem reaches_concat (p : List UInt8) (b : UInt8) :
    Reaches A K (p ++ [b]) ↔
      Reaches A K p ∧ CallsOk A K (p ++ [b]) ∧ Held A (current zero (p ++ [b])) := by
  constructor
  · rintro ⟨hcalls, hcounted, hroom⟩
    rcases (counted_concat A p b).mp hcounted with ⟨hcounted, hcur⟩
    rcases (room_concat p b).mp hroom with ⟨hroom, hcur'⟩
    exact ⟨⟨callsOk_mono A K p _ (List.prefix_append p [b]) hcalls, hcounted, hroom⟩,
      hcalls, hcur, hcur'⟩
  · rintro ⟨hp, hcalls, hcur, hcur'⟩
    exact ⟨hcalls, (counted_concat A p b).mpr ⟨hp.counted, hcur⟩,
      (room_concat p b).mpr ⟨hp.room, hcur'⟩⟩

/-- The process still runs exactly when nothing has stopped it. -/
theorem after_spec (p : List UInt8) :
    (Reaches A K p ∧ Tracks K p (after A K old p)) ∨
      (¬ Reaches A K p ∧ (after A K old p).status ≠ .running) := by
  induction p using List.reverseRecOn with
  | nil =>
      exact .inl ⟨⟨fun c hc => absurd hc List.not_mem_nil, fun r hr => absurd hr List.not_mem_nil,
        fun r hr => absurd hr List.not_mem_nil⟩, rfl, rfl, rfl, rfl, rfl⟩
  | append_singleton p b ih =>
      rw [after_concat, reaches_concat]
      rcases ih with ⟨hreach, htracks⟩ | ⟨hreach, hstop⟩
      · rcases close_spec A K _ b p htracks hreach.calls
          with ⟨hcalls, ⟨hok, q, hready⟩ | ⟨c, htrace, hstops, -, hexit⟩⟩
        · rw [copyByte_eq A K _ b htracks.status, Copy.andThen, if_pos hready.status]
          rcases take_spec A K p q b _ hready hcalls with ⟨hheld, hnext⟩ | ⟨hheld, hundef⟩
          · exact .inl ⟨⟨hreach, hok, hheld⟩, hnext⟩
          · refine .inr ⟨fun h => hheld h.2.2, ?_⟩
            intro h
            cases hundef.symm.trans h
        · have hstop : (close A K b (after A K old p)).status ≠ .running := by
            intro h
            cases hexit.symm.trans h
          rw [copyByte_eq A K _ b htracks.status, Copy.andThen, if_neg hstop]
          -- The call that stopped the process is among those that should succeed.
          refine .inr ⟨fun h => not_ok_of_stops A b c hstops (h.2.1 c ?_), hstop⟩
          rw [htrace]
          exact List.mem_append_right _ List.mem_cons_self
      · rw [copyByte, Copy.andThen, if_neg hstop]
        exact .inr ⟨fun h => hreach h.1, hstop⟩

end Bytes

/-! ### Complete writes -/

/-- No call fails, and a write takes all of `wbuf`. -/
structure Completes (K : Kernel) : Prop where
  opens : K.opensSource = true ∧ K.opensDest = true
  write : ∀ n, ∃ k, K.write n = some k ∧ bufSize ≤ k
  lseek : ∀ n, K.lseek n = true
  readsEnd : K.readsEnd = true

/-- The call for a run, at its own offset in the source. -/
def moveOver (off : Nat) (r : List UInt8) : Sys :=
  if isZeros r = true then .lseek off r.length true else .write off r (some r.length)

/-- The calls for runs that lie one after the other. -/
def moveAll : Nat → List (List UInt8) → List Sys
  | _, [] => []
  | off, r :: rs => moveOver off r :: moveAll (off + r.length) rs

/-- The calls that copying the source should lead to. A last run of zeros is
    not followed by anything and leads to none. -/
def plan (src : List UInt8) : List Sys :=
  moveAll 0 (if isZeros (current zero src) = true then ended zero src else runs zero src)

example : plan [7, 0, 0, 8, 0] = [.write 0 [7] (some 1), .lseek 1 2 true, .write 3 [8] (some 1)] :=
  rfl

theorem moveAll_concat (off : Nat) (rs : List (List UInt8)) (r : List UInt8) :
    moveAll off (rs ++ [r]) = moveAll off rs ++ [moveOver (off + rs.flatten.length) r] := by
  induction rs generalizing off with
  | nil => rfl
  | cons r' rs ih =>
      rw [List.cons_append, moveAll, ih, moveAll, List.cons_append, List.flatten_cons,
        List.length_append, Nat.add_assoc]

theorem mem_moveAll (off : Nat) (rs : List (List UInt8)) (c : Sys) (hc : c ∈ moveAll off rs) :
    ∃ n, ∃ r ∈ rs, c = moveOver n r := by
  induction rs generalizing off with
  | nil => exact nomatch hc
  | cons r rs ih =>
      rcases List.mem_cons.mp hc with hc | hc
      · exact ⟨off, r, List.mem_cons_self, hc⟩
      · rcases ih (off + r.length) hc with ⟨n, r', hr', heq⟩
        exact ⟨n, r', List.mem_cons_of_mem r hr', heq⟩

section Complete

variable (K : Kernel)

/-- A complete call leads to the end of its run. -/
theorem runCall_complete (hK : Completes K) (calls : List Sys) (r : List UInt8)
    (hr : isZeros r = false → r.length ≤ bufSize) :
    runCall K calls r = moveOver (offsetAfter calls) r ∧
      (runCall K calls r).moves = r.length := by
  cases hz : isZeros r with
  | true =>
      rw [runCall, if_pos hz, moveOver, if_pos hz, hK.lseek]
      exact ⟨rfl, rfl⟩
  | false =>
      rcases hK.write calls.length with ⟨k, hk, hle⟩
      have htake : r.take k = r := List.take_of_length_le (Nat.le_trans (hr hz) hle)
      rw [runCall, hz, moveOver, hz, hk, Option.map_some, htake]
      exact ⟨rfl, rfl⟩

/-- Complete writes keep the offsets of the source. -/
theorem trace_eq_moveAll (hK : Completes K) (rs : List (List UInt8))
    (hrs : ∀ r ∈ rs, isZeros r = false → r.length ≤ bufSize) :
    trace K rs = moveAll 0 rs ∧ offsetAfter (trace K rs) = rs.flatten.length := by
  induction rs using List.reverseRecOn with
  | nil => exact ⟨rfl, rfl⟩
  | append_singleton rs r ih =>
      rcases ih (fun r' hr' => hrs r' (List.mem_append_left _ hr')) with ⟨htrace, hoff⟩
      rcases runCall_complete K hK (trace K rs) r (hrs r (List.mem_append_right _
        List.mem_cons_self)) with ⟨hcall, hmoves⟩
      constructor
      · rw [trace_concat, hcall, moveAll_concat, htrace, ← htrace, hoff, Nat.zero_add]
      · rw [trace_concat, offsetAfter_concat, hmoves, hoff, List.flatten_append,
          List.flatten_singleton, List.length_append]

theorem moveOver_ok (n : Nat) (r : List UInt8) : (moveOver n r).Ok unbounded := by
  rw [moveOver]
  split
  · exact ⟨rfl, by change ((n + r.length : Nat) : Int) ≠ -1; omega⟩
  · exact Option.some_ne_none _

theorem reaches_complete (hK : Completes K) (p : List UInt8)
    (hruns : ∀ r ∈ runs zero p, isZeros r = false → r.length ≤ bufSize) :
    Reaches unbounded K p := by
  refine ⟨fun c hc => ?_, fun r hr hz => rfl, hruns⟩
  · have hended : ∀ r ∈ ended zero p, isZeros r = false → r.length ≤ bufSize :=
      fun r hr => hruns r (List.dropLast_subset _ hr)
    rw [(trace_eq_moveAll K hK _ hended).1] at hc
    rcases mem_moveAll _ _ c hc with ⟨n, r, -, rfl⟩
    exact moveOver_ok n r

end Complete

/-- What follows the loop writes the current run, if it is not of zeros. -/
theorem finish_trace (K : Kernel) (hK : Completes K) (p : List UInt8) (s : Copy)
    (hs : Tracks K p s) (hruns : ∀ r ∈ runs zero p, isZeros r = false → r.length ≤ bufSize) :
    (finish K s).status = .returned ∧ (finish K s).calls = plan p := by
  have hended : ∀ r ∈ ended zero p, isZeros r = false → r.length ≤ bufSize :=
    fun r hr => hruns r (List.dropLast_subset _ hr)
  rw [finish, if_pos hK.readsEnd, plan]
  cases hz : isZeros (current zero p) with
  | true =>
      have hw : s.wbuf = [] := hs.wbuf.trans (filter_of_zeros _ (List.all_eq_true.mp hz)).2
      rw [flush, if_pos hw, Copy.andThen, if_pos hs.status, if_pos rfl,
        ← (trace_eq_moveAll K hK _ hended).1]
      exact ⟨rfl, hs.calls⟩
  | false =>
      have hp : p ≠ [] := by
        rintro rfl
        cases hz
      have hr := current_mem zero p hp
      have hlast : s.wbuf = current zero p := by
        rcases filter_run p _ hr with ⟨hzeros, -⟩ | ⟨-, -, hfn⟩
        · cases hzeros.symm.trans hz
        · exact hs.wbuf.trans hfn
      have hcalls := (trace_eq_moveAll K hK _ hruns).1
      -- The write of the last run completes the calls of all runs.
      rw [runs_eq zero p hp, trace_concat, ← hs.calls] at hcalls
      rcases flush_runCall unbounded K s _ (current_ne_nil zero p hp) hz hlast hs.status hs.offset
        with ⟨hflush, ⟨-, hrun, -⟩ | ⟨hfail, -⟩⟩
      · rw [Copy.andThen, if_pos hrun, if_neg Bool.false_ne_true, runs_eq zero p hp, ← hcalls]
        exact ⟨rfl, hflush⟩
      · rw [(runCall_complete K hK s.calls _ (hruns _ hr)).1] at hfail
        exact absurd (moveOver_ok _ _) (not_ok_of_stops unbounded 0 _ hfail)

/-- No byte that a plan writes is zero. -/
theorem ne_zero_of_mem_plan (src : List UInt8) (off : Nat) (data : List UInt8)
    (taken : Option Nat) (h : Sys.write off data taken ∈ plan src) : ∀ b ∈ data, b ≠ 0 := by
  rcases mem_moveAll _ _ _ h with ⟨n, r, hr, heq⟩
  have hrun : r ∈ runs zero src := by
    revert hr
    split
    · exact fun hr => List.dropLast_subset _ hr
    · exact fun hr => hr
  rw [moveOver] at heq
  split at heq
  case isTrue => exact nomatch heq
  case isFalse hz =>
    have hdata : data = r := (Sys.write.inj heq).2.1
    intro b hb hzero
    rw [hdata] at hb
    exact hz ((isZeros_eq src r hrun b hb).trans (decide_eq_true hzero))

/-- The calls of the copy, for any source and any way of reading it, when the
    writes are complete, offsets have no bound and every run of bytes other
    than zero fits `wbuf`: one write for each such run and one seek for each
    run of zeros that something follows, in the order of the source and at the
    offsets they have there. -/
theorem main_trace (K : Kernel) (hK : Completes K) (blocks : List Block) (old : List UInt8)
    (hruns : ∀ r ∈ runs zero (source blocks), isZeros r = false → r.length ≤ bufSize) :
    (main unbounded K blocks old).status = .returned ∧
      (main unbounded K blocks old).calls = plan (source blocks) ∧
      (∀ off data taken, Sys.write off data taken ∈ (main unbounded K blocks old).calls →
        ∀ b ∈ data, b ≠ 0) ∧
      ∀ blocks', source blocks' = source blocks →
        (main unbounded K blocks' old).calls = (main unbounded K blocks old).calls := by
  -- Only the bytes of the blocks matter, so the plan is that of any split.
  have hmain : ∀ blocks', source blocks' = source blocks →
      (main unbounded K blocks' old).status = .returned ∧
        (main unbounded K blocks' old).calls = plan (source blocks) := by
    intro blocks' hsame
    rw [main, if_pos hK.opens, foldl_copyBlock, hsame, ← after]
    rcases after_spec unbounded K old (source blocks) with ⟨-, htracks⟩ | ⟨hstop, -⟩
    · rw [Copy.andThen, if_pos htracks.status]
      exact finish_trace K hK _ _ htracks hruns
    · exact absurd (reaches_complete K hK _ hruns) hstop
  rcases hmain blocks rfl with ⟨hstatus, hcalls⟩
  refine ⟨hstatus, hcalls, fun off data taken hmem => ?_, fun blocks' hsame => ?_⟩
  · rw [hcalls] at hmem
    exact ne_zero_of_mem_plan _ off data taken hmem
  · rw [(hmain blocks' hsame).2, hcalls]

theorem main_trace_reliable :
    (main unbounded reliable [block 7 0, block 0 8] []).status = .returned ∧
      (main unbounded reliable [block 7 0, block 0 8] []).calls = plan [7, 0, 0, 8] ∧
      (∀ off data taken, Sys.write off data taken ∈
        (main unbounded reliable [block 7 0, block 0 8] []).calls → ∀ b ∈ data, b ≠ 0) ∧
      ∀ blocks', source blocks' = [7, 0, 0, 8] →
        (main unbounded reliable blocks' []).calls =
          (main unbounded reliable [block 7 0, block 0 8] []).calls := by
  have hK : Completes reliable :=
    ⟨⟨rfl, rfl⟩, fun _ => ⟨bufSize, rfl, Nat.le_refl _⟩, fun _ => rfl, rfl⟩
  have hruns : ∀ r ∈ [[7], [0, 0], [8]], isZeros r = false → r.length ≤ bufSize := by
    simp only [List.forall_mem_cons, List.length_cons, List.length_nil, bufSize]
    exact ⟨fun _ => by omega, fun _ => by omega, fun _ => by omega, nofun⟩
  exact main_trace reliable hK [block 7 0, block 0 8] [] hruns

end SparseCopy

end TlpiPractice
