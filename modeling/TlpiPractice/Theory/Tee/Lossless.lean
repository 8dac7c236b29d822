import Mathlib.Tactic.Common
import TlpiPractice.Core.Tee

/-!
# The Bytes That Reach the Targets

When the targets of `tee` hold the whole input after the program has returned
zero.

Every target is written at its end, whether it has been opened with
`O_APPEND` or its offset has got there, so it holds what the writes to it have
taken, one behind the other. Nothing is written again, and a later block does
not make up for an earlier one: as no write takes more than its block, the
whole input is there only if every write has taken all of its block.

## Main definitions

* `targets`: The files that are opened, in order.
* `Stops`: When the program does not return zero.
* `TeeRight`: What the program should do.
* `stored`: What the writes to a target have taken.
* `Holds`: What the targets hold between the blocks.

## Theorems

* `optLoop_eq_ok_iff`, `operandLoop_eq_ok_iff`: When the targets are opened.
* `main_eq_returned_iff`: When the program returns zero.
* `holds_writeLoop`: One block.
* `readLoop_file`: All the blocks.
* `stored_eq_iff`: When nothing is lost.
* `teeRight_iff`: When the program is right.
* `shortWrite_wrong`: A write for which it is not.
-/

namespace TlpiPractice

namespace Tee

open ByteFile

/-- The targets of the options. -/
def optTargets : List Opt → List (CString × Bool)
  | [] => []
  | .a optarg :: opts => (optarg, true) :: optTargets opts
  | .unknown :: opts => optTargets opts

/-- The files that are opened, and whether with `O_APPEND`. -/
def targets (opts : List Opt) (operands : List CString) : List (CString × Bool) :=
  optTargets opts ++ operands.map (fun arg => (arg, false))

/-- An option is not known, there are too many files, one cannot be opened, or
    a read fails. -/
def Stops (canOpen : CString → Bool) (opts : List Opt) (operands : List CString)
    (input : Input) : Prop :=
  .unknown ∈ opts ∨ 10 < (targets opts operands).length ∨
    (∃ t ∈ targets opts operands, canOpen t.1 = false) ∨ input.failed = true

/-- What a target holds before the first block. -/
def prior (files : Files) (t : CString × Bool) : List UInt8 :=
  if t.2 then (files t.1).getD [] else []

/-- If the program returns zero, every target should hold the input, behind
    what was there before with `-a`. -/
def TeeRight (canOpen : CString → Bool) (opts : List Opt) (operands : List CString)
    (files : Files) (input : Input) (result : Nat → Nat → Option Nat) : Prop :=
  ∀ files', main canOpen opts operands files input result = .returned files' →
    ∀ t ∈ targets opts operands, files' t.1 = some (prior files t ++ input.blocks.flatten)

/-! ### The targets are opened -/

/-- The targets from `i` on hold these bytes, and are written at their ends. -/
def Holds (i : Nat) (fds : List Desc) (files : Files) (content : Nat → List UInt8) : Prop :=
  ∀ j d, fds[j]? = some d → files d.file = some (content (i + j)) ∧
    (d.append = true ∨ d.offset = (content (i + j)).length)

/-- The state after some targets have been opened. -/
def after (files : Files) (ts : List (CString × Bool)) : State :=
  ⟨ts.map (fun t => ⟨t.1, t.2, 0⟩), ts.foldl (fun files t => opened files t.1 t.2) files⟩

theorem after_concat (files : Files) (ts : List (CString × Bool)) (t : CString × Bool) :
    after files (ts ++ [t]) =
      ⟨(after files ts).fds ++ [⟨t.1, t.2, 0⟩], opened (after files ts).files t.1 t.2⟩ := by
  unfold after
  rw [List.map_append, List.foldl_append]
  rfl

/-- One more target is opened if there is room for it and it can be. -/
theorem openTarget_cases (canOpen : CString → Bool) (files : Files)
    (ts : List (CString × Bool)) (t : CString × Bool) (hlen : ts.length ≤ 10) :
    (∃ files', openTarget canOpen t.1 t.2 (after files ts) = .error files') ∧
        ¬ (ts.length + 1 ≤ 10 ∧ canOpen t.1 = true) ∨
      openTarget canOpen t.1 t.2 (after files ts) = .ok (after files (ts ++ [t])) ∧
        ts.length + 1 ≤ 10 ∧ canOpen t.1 = true := by
  have hfds : (after files ts).fds.length = ts.length := List.length_map _
  rw [openTarget, hfds, after_concat]
  by_cases hfull : ts.length = 10
  · rw [if_pos hfull]
    exact .inl ⟨⟨_, rfl⟩, fun h => by omega⟩
  · rw [if_neg hfull]
    cases hopen : canOpen t.1 with
    | false =>
        rw [if_neg Bool.false_ne_true]
        exact .inl ⟨⟨_, rfl⟩, fun h => Bool.false_ne_true h.2⟩
    | true =>
        rw [if_pos rfl]
        exact .inr ⟨rfl, by omega, rfl⟩

theorem optLoop_eq_ok_iff (canOpen : CString → Bool) (files : Files) (opts : List Opt)
    (ts : List (CString × Bool)) (hlen : ts.length ≤ 10) (s : State) :
    optLoop canOpen opts (after files ts) = .ok s ↔
      .unknown ∉ opts ∧ ts.length + (optTargets opts).length ≤ 10 ∧
        (∀ t ∈ optTargets opts, canOpen t.1 = true) ∧ s = after files (ts ++ optTargets opts) := by
  induction opts generalizing ts with
  | nil =>
      rw [optLoop, optTargets, List.append_nil]
      refine ⟨fun h => ⟨List.not_mem_nil, hlen, fun t ht => absurd ht List.not_mem_nil, ?_⟩,
        fun h => ?_⟩
      · cases h
        rfl
      · rw [h.2.2.2]
  | cons opt opts ih =>
      cases opt with
      | unknown =>
          refine iff_of_false (fun h => ?_) (fun h => h.1 List.mem_cons_self)
          cases h
      | a optarg =>
          rw [optLoop, optTargets, List.forall_mem_cons, List.length_cons]
          rcases openTarget_cases canOpen files ts (optarg, true) hlen with
            ⟨⟨files', herror⟩, hnot⟩ | ⟨hok, hroom, hcan⟩
          · rw [herror]
            refine iff_of_false (fun h => ?_) (fun h => hnot ⟨by omega, h.2.2.1.1⟩)
            cases h
          · have hconcat : (ts ++ [(optarg, true)]).length = ts.length + 1 := List.length_append
            rw [hok]
            simp only
            rw [ih (ts ++ [(optarg, true)]) (by omega), hconcat, List.append_assoc]
            refine ⟨fun h => ⟨?_, by omega, ⟨hcan, h.2.2.1⟩, h.2.2.2⟩,
              fun h => ⟨fun hin => h.1 (List.mem_cons_of_mem _ hin), by omega, h.2.2.1.2,
                h.2.2.2⟩⟩
            -- An option with a file is a known one.
            intro hin
            rcases List.mem_cons.mp hin with heq | hin
            · cases heq
            · exact h.1 hin

theorem operandLoop_eq_ok_iff (canOpen : CString → Bool) (files : Files)
    (operands : List CString) (ts : List (CString × Bool)) (hlen : ts.length ≤ 10) (s : State) :
    operandLoop canOpen operands (after files ts) = .ok s ↔
      ts.length + operands.length ≤ 10 ∧ (∀ arg ∈ operands, canOpen arg = true) ∧
        s = after files (ts ++ operands.map (fun arg => (arg, false))) := by
  induction operands generalizing ts with
  | nil =>
      rw [operandLoop, List.map_nil, List.append_nil]
      refine ⟨fun h => ⟨hlen, fun arg harg => absurd harg List.not_mem_nil, ?_⟩, fun h => ?_⟩
      · cases h
        rfl
      · rw [h.2.2]
  | cons arg operands ih =>
      rw [operandLoop, List.forall_mem_cons, List.length_cons, List.map_cons]
      rcases openTarget_cases canOpen files ts (arg, false) hlen with
        ⟨⟨files', herror⟩, hnot⟩ | ⟨hok, hroom, hcan⟩
      · rw [herror]
        refine iff_of_false (fun h => ?_) (fun h => hnot ⟨by omega, h.2.1.1⟩)
        cases h
      · have hconcat : (ts ++ [(arg, false)]).length = ts.length + 1 := List.length_append
        rw [hok]
        simp only
        rw [ih (ts ++ [(arg, false)]) (by omega), hconcat, List.append_assoc]
        exact ⟨fun h => ⟨by omega, ⟨hcan, h.2.1⟩, h.2.2⟩, fun h => ⟨by omega, h.2.1.2, h.2.2⟩⟩

/-- What does not stop the program, as the two loops have it. -/
theorem not_stops_iff (canOpen : CString → Bool) (opts : List Opt) (operands : List CString)
    (input : Input) :
    ¬ Stops canOpen opts operands input ↔
      (.unknown ∉ opts ∧ (optTargets opts).length ≤ 10 ∧
        ∀ t ∈ optTargets opts, canOpen t.1 = true) ∧
      ((optTargets opts).length + operands.length ≤ 10 ∧ ∀ arg ∈ operands, canOpen arg = true) ∧
      input.failed = false := by
  have hlen : (targets opts operands).length = (optTargets opts).length + operands.length := by
    rw [targets, List.length_append, List.length_map]
  have hall : (¬ ∃ t ∈ targets opts operands, canOpen t.1 = false) ↔
      (∀ t ∈ optTargets opts, canOpen t.1 = true) ∧ ∀ arg ∈ operands, canOpen arg = true := by
    simp only [targets, List.mem_append, List.mem_map, not_exists, not_and, Bool.not_eq_false]
    refine ⟨fun h => ⟨fun t ht => h t (.inl ht), fun arg harg => h _ (.inr ⟨arg, harg, rfl⟩)⟩,
      fun h t ht => ?_⟩
    rcases ht with ht | ⟨arg, harg, rfl⟩
    · exact h.1 t ht
    · exact h.2 arg harg
  rw [Stops, not_or, not_or, not_or, hall, hlen, Bool.not_eq_true]
  exact ⟨fun h => ⟨⟨h.1, by omega, h.2.2.1.1⟩, ⟨by omega, h.2.2.1.2⟩, h.2.2.2⟩,
    fun h => ⟨h.1.1, by omega, ⟨h.1.2.2, h.2.1.2⟩, h.2.2⟩⟩

/-- The program returns zero if nothing stops it, and then every block has been
    written to every target. -/
theorem main_eq_returned_iff (canOpen : CString → Bool) (opts : List Opt)
    (operands : List CString) (files : Files) (input : Input) (result : Nat → Nat → Option Nat)
    (files' : Files) :
    main canOpen opts operands files input result = .returned files' ↔
      ¬ Stops canOpen opts operands input ∧
        files' = readLoop result 0 input.blocks (after files (targets opts operands)).fds
          (after files (targets opts operands)).files := by
  have hopts := optLoop_eq_ok_iff canOpen files opts [] (Nat.zero_le _)
  have hnil : (⟨[], files⟩ : State) = after files [] := rfl
  rw [not_stops_iff, main, hnil]
  cases hopt : optLoop canOpen opts (after files []) with
  | error files' =>
      refine iff_of_false (fun h => ?_) (fun h => ?_)
      · cases h
      · rw [(hopts _).mpr ⟨h.1.1.1, by rw [List.length_nil]; omega, h.1.1.2.2, rfl⟩] at hopt
        cases hopt
  | ok s =>
      rcases (hopts s).mp hopt with ⟨hknown, hle, hcan, rfl⟩
      rw [List.length_nil, Nat.zero_add] at hle
      rw [List.nil_append]
      have hoperands := operandLoop_eq_ok_iff canOpen files operands (optTargets opts) hle
      simp only
      cases hoperand : operandLoop canOpen operands (after files (optTargets opts)) with
      | error files' =>
          refine iff_of_false (fun h => ?_) (fun h => ?_)
          · cases h
          · rw [(hoperands _).mpr ⟨h.1.2.1.1, h.1.2.1.2, rfl⟩] at hoperand
            cases hoperand
      | ok s' =>
          rcases (hoperands s').mp hoperand with ⟨hle', hcan', rfl⟩
          simp only
          cases hfailed : input.failed with
          | true =>
              rw [if_pos rfl]
              refine iff_of_false (fun h => ?_) (fun h => ?_)
              · cases h
              · cases h.1.2.2
          | false =>
              rw [if_neg Bool.false_ne_true]
              refine ⟨fun h => ⟨⟨⟨hknown, hle, hcan⟩, ⟨hle', hcan'⟩, rfl⟩, ?_⟩, fun h => ?_⟩
              · cases h
                rfl
              · rw [h.2]
                rfl

/-- The files that are not opened stay as they are. -/
theorem after_other (files : Files) (ts : List (CString × Bool)) (file : CString)
    (hfile : file ∉ ts.map Prod.fst) : (after files ts).files file = files file := by
  unfold after
  simp only
  induction ts generalizing files with
  | nil => rfl
  | cons u ts ih =>
      rw [List.map_cons, List.mem_cons, not_or] at hfile
      rw [List.foldl_cons, ih _ hfile.2, opened, Function.update_of_ne hfile.1]

/-- A target holds what was there before, if it is only opened once. -/
theorem after_file (files : Files) (ts : List (CString × Bool))
    (hnodup : (ts.map Prod.fst).Nodup) (t : CString × Bool) (ht : t ∈ ts) :
    (after files ts).files t.1 = some (prior files t) := by
  induction ts generalizing files with
  | nil => cases ht
  | cons u ts ih =>
      have hcons : (after files (u :: ts)).files = (after (opened files u.1 u.2) ts).files := rfl
      rw [List.map_cons, List.nodup_cons] at hnodup
      rw [hcons]
      rcases List.mem_cons.mp ht with rfl | ht
      · rw [after_other _ ts t.1 hnodup.1, opened, Function.update_self]
        rfl
      · have hne : t.1 ≠ u.1 := fun heq => hnodup.1 (heq ▸ List.mem_map_of_mem ht)
        rw [ih (opened files u.1 u.2) hnodup.2 ht]
        unfold prior opened
        rw [Function.update_of_ne hne]

/-- Every target is written at its end. -/
theorem holds_after (files : Files) (ts : List (CString × Bool))
    (hnodup : (ts.map Prod.fst).Nodup) (t : CString × Bool) :
    Holds 0 (after files ts).fds (after files ts).files
      (fun j => prior files (ts[j]?.getD t)) := by
  intro j d hd
  rw [after, List.getElem?_map, Option.map_eq_some_iff] at hd
  rcases hd with ⟨u, hu, rfl⟩
  simp only [Nat.zero_add, hu, Option.getD_some]
  refine ⟨after_file files _ hnodup u (List.mem_of_getElem? hu), ?_⟩
  unfold prior
  cases happend : u.2 with
  | true => exact .inl rfl
  | false => exact .inr rfl

/-! ### The blocks are written -/

/-- The bytes that a write takes. -/
def taken (result : Option Nat) (buf : List UInt8) : List UInt8 :=
  match result with
  | none => []
  | some n => buf.take n

/-- What the writes of some blocks to the target `i` have taken. -/
def stored (result : Nat → Nat → Option Nat) (i : Nat) : Nat → List (List UInt8) → List UInt8
  | _, [] => []
  | k, buf :: blocks => taken (result k i) buf ++ stored result i (k + 1) blocks

/-- A write puts what it takes at the end of its target. -/
theorem write_file (result : Option Nat) (buf content : List UInt8) (d : Desc) (files : Files)
    (hfile : files d.file = some content) (hend : d.append = true ∨ d.offset = content.length) :
    (write result buf d files).2 d.file = some (content ++ taken result buf) ∧
      (write result buf d files).1.file = d.file ∧
      ((write result buf d files).1.append = true ∨
        (write result buf d files).1.offset = (content ++ taken result buf).length) := by
  cases result with
  | none =>
      have hnil : taken none buf = [] := rfl
      rw [hnil, List.append_nil]
      exact ⟨hfile, rfl, hend⟩
  | some n =>
      have hstart : (if d.append then content.length else d.offset) = content.length := by
        rcases hend with happend | hoffset
        · rw [if_pos happend]
        · rw [hoffset, ite_self]
      unfold write
      simp only [hfile, Option.getD_some, hstart, writeAt_length]
      refine ⟨Function.update_self .., trivial, .inr ?_⟩
      rw [List.length_append]
      rfl

theorem write_other (result : Option Nat) (buf : List UInt8) (d : Desc) (files : Files)
    (file : CString) (hne : file ≠ d.file) : (write result buf d files).2 file = files file := by
  cases result with
  | none => rfl
  | some n => exact Function.update_of_ne hne _ _

theorem writeLoop_cons (result : Nat → Option Nat) (buf : List UInt8) (i : Nat) (d : Desc)
    (fds : List Desc) (files : Files) :
    writeLoop result buf i (d :: fds) files =
      ((write (result i) buf d files).1 ::
          (writeLoop result buf (i + 1) fds (write (result i) buf d files).2).1,
        (writeLoop result buf (i + 1) fds (write (result i) buf d files).2).2) := rfl

theorem writeLoop_other (result : Nat → Option Nat) (buf : List UInt8) (i : Nat)
    (fds : List Desc) (files : Files) (file : CString) (hfile : file ∉ fds.map Desc.file) :
    (writeLoop result buf i fds files).2 file = files file := by
  induction fds generalizing i files with
  | nil => rfl
  | cons d fds ih =>
      rw [List.map_cons, List.mem_cons, not_or] at hfile
      rw [writeLoop_cons]
      exact (ih (i + 1) _ hfile.2).trans (write_other (result i) buf d files file hfile.1)

/-- One block: every target has what its write takes behind what it held. -/
theorem holds_writeLoop (result : Nat → Option Nat) (buf : List UInt8) (i : Nat)
    (fds : List Desc) (files : Files) (content : Nat → List UInt8)
    (hnodup : (fds.map Desc.file).Nodup) (h : Holds i fds files content) :
    (writeLoop result buf i fds files).1.map Desc.file = fds.map Desc.file ∧
      Holds i (writeLoop result buf i fds files).1 (writeLoop result buf i fds files).2
        (fun j => content j ++ taken (result j) buf) := by
  induction fds generalizing i files with
  | nil => exact ⟨rfl, fun j d hd => absurd hd.symm (Option.some_ne_none d)⟩
  | cons d fds ih =>
      rw [List.map_cons, List.nodup_cons] at hnodup
      rcases h 0 d rfl with ⟨hfile, hend⟩
      rcases write_file (result i) buf (content i) d files hfile hend with
        ⟨hfile', hname, hend'⟩
      -- The write to the first target leaves the others alone.
      have hrest : Holds (i + 1) fds (write (result i) buf d files).2 content := by
        intro j e he
        have hne : e.file ≠ d.file := fun heq =>
          hnodup.1 (heq ▸ List.mem_map_of_mem (List.mem_of_getElem? he))
        rw [write_other (result i) buf d files e.file hne, Nat.add_assoc, Nat.add_comm 1 j]
        exact h (j + 1) e he
      rcases ih (i + 1) _ hnodup.2 hrest with ⟨hnames, hholds⟩
      rw [writeLoop_cons]
      refine ⟨?_, ?_⟩
      · rw [List.map_cons, hnames, hname]
        rfl
      · intro j e he
        cases j with
        | zero =>
            cases Option.some.inj he
            refine ⟨?_, hend'⟩
            simp only [hname]
            exact (writeLoop_other result buf (i + 1) fds _ d.file hnodup.1).trans hfile'
        | succ j =>
            have hj := hholds j e he
            rw [Nat.add_assoc, Nat.add_comm 1 j] at hj
            exact hj

/-- All the blocks: every target has what its writes have taken behind what it
    held. -/
theorem readLoop_file (result : Nat → Nat → Option Nat) (k : Nat) (blocks : List (List UInt8))
    (fds : List Desc) (files : Files) (content : Nat → List UInt8)
    (hnodup : (fds.map Desc.file).Nodup) (h : Holds 0 fds files content) (i : Nat)
    (file : CString) (hfile : (fds.map Desc.file)[i]? = some file) :
    readLoop result k blocks fds files file = some (content i ++ stored result i k blocks) := by
  induction blocks generalizing k fds files content with
  | nil =>
      rw [List.getElem?_map, Option.map_eq_some_iff] at hfile
      rcases hfile with ⟨d, hd, rfl⟩
      have hd' := (h i d hd).1
      rw [Nat.zero_add] at hd'
      rw [readLoop, stored, List.append_nil]
      exact hd'
  | cons buf blocks ih =>
      rcases holds_writeLoop (result k) buf 0 fds files content hnodup h with ⟨hnames, hholds⟩
      rw [readLoop, stored, ← List.append_assoc]
      exact ih (k + 1) _ _ _ (hnames ▸ hnodup) hholds (hnames ▸ hfile)

/-- What a target holds in the end, by its number. -/
theorem readLoop_after (result : Nat → Nat → Option Nat) (files : Files)
    (ts : List (CString × Bool)) (blocks : List (List UInt8)) (hnodup : (ts.map Prod.fst).Nodup)
    (i : Nat) (t : CString × Bool) (ht : ts[i]? = some t) :
    readLoop result 0 blocks (after files ts).fds (after files ts).files t.1 =
      some (prior files t ++ stored result i 0 blocks) := by
  have hnames : (after files ts).fds.map Desc.file = ts.map Prod.fst := by
    rw [after, List.map_map]
    rfl
  have hread := readLoop_file result 0 blocks _ _ _ (hnames ▸ hnodup)
    (holds_after files ts hnodup t) i t.1
    (by rw [hnames, List.getElem?_map, ht, Option.map_some])
  simp only [ht, Option.getD_some] at hread
  exact hread

/-! ### Nothing is lost -/

theorem taken_isPrefix (result : Option Nat) (buf : List UInt8) : taken result buf <+: buf := by
  cases result with
  | none => exact List.nil_prefix
  | some n => exact List.take_prefix n buf

theorem length_stored_le (result : Nat → Nat → Option Nat) (i k : Nat)
    (blocks : List (List UInt8)) : (stored result i k blocks).length ≤ blocks.flatten.length := by
  induction blocks generalizing k with
  | nil => exact Nat.le_refl 0
  | cons buf blocks ih =>
      rw [stored, List.flatten_cons, List.length_append, List.length_append]
      exact Nat.add_le_add (taken_isPrefix _ buf).length_le (ih (k + 1))

/-- A write takes its whole block. -/
def Whole (result : Option Nat) (buf : List UInt8) : Prop := ∃ n, result = some n ∧ buf.length ≤ n

theorem taken_eq_self_iff (result : Option Nat) (buf : List UInt8) (hne : buf ≠ []) :
    taken result buf = buf ↔ Whole result buf := by
  cases result with
  | none =>
      refine iff_of_false (fun h => hne h.symm) ?_
      rintro ⟨n, hn, -⟩
      cases hn
  | some n =>
      rw [taken, List.take_eq_self_iff]
      refine ⟨fun h => ⟨n, rfl, h⟩, ?_⟩
      rintro ⟨n', hn, hle⟩
      cases hn
      exact hle

/-- The whole input is there only if every write has taken its block, as later
    writes take no more than theirs. -/
theorem stored_eq_iff (result : Nat → Nat → Option Nat) (i k : Nat) (blocks : List (List UInt8))
    (hne : ∀ buf ∈ blocks, buf ≠ []) :
    stored result i k blocks = blocks.flatten ↔
      ∀ j buf, blocks[j]? = some buf → Whole (result (k + j) i) buf := by
  induction blocks generalizing k with
  | nil => exact iff_of_true rfl (fun j buf hbuf => absurd hbuf.symm (Option.some_ne_none buf))
  | cons buf blocks ih =>
      rw [List.forall_mem_cons] at hne
      rw [stored, List.flatten_cons]
      have hshort := (taken_isPrefix (result k i) buf).length_le
      have hrest := length_stored_le result i (k + 1) blocks
      constructor
      · intro h
        -- Neither part is longer than it should be, so neither is shorter.
        have hlen := congrArg List.length h
        rw [List.length_append, List.length_append] at hlen
        rcases List.append_inj h (by omega) with ⟨hbuf, hblocks⟩
        intro j buf' hbuf'
        cases j with
        | zero =>
            cases Option.some.inj hbuf'
            exact (taken_eq_self_iff _ buf hne.1).mp hbuf
        | succ j =>
            have hj := (ih (k + 1) hne.2).mp hblocks j buf' hbuf'
            rw [Nat.add_assoc, Nat.add_comm 1 j] at hj
            exact hj
      · intro h
        have hbuf : taken (result k i) buf = buf :=
          (taken_eq_self_iff _ buf hne.1).mpr (h 0 buf rfl)
        have hblocks := (ih (k + 1) hne.2).mpr (fun j buf' hbuf' => by
          have hj := h (j + 1) buf' hbuf'
          rw [Nat.add_assoc, Nat.add_comm 1 j]
          exact hj)
        rw [hbuf, hblocks]

/-- With targets that are different files, the program is right exactly if it
    does not return zero or every write takes its whole block. -/
theorem teeRight_iff (canOpen : CString → Bool) (opts : List Opt) (operands : List CString)
    (files : Files) (input : Input) (result : Nat → Nat → Option Nat)
    (hnodup : ((targets opts operands).map Prod.fst).Nodup) :
    TeeRight canOpen opts operands files input result ↔
      Stops canOpen opts operands input ∨
        ∀ k buf, input.blocks[k]? = some buf →
          ∀ i, i < (targets opts operands).length → Whole (result k i) buf := by
  have hne : ∀ buf ∈ input.blocks, buf ≠ [] := fun buf hbuf => (input.fits buf hbuf).1
  have hfinal := readLoop_after result files (targets opts operands) input.blocks hnodup
  constructor
  · intro h
    by_cases hstops : Stops canOpen opts operands input
    · exact .inl hstops
    · refine .inr (fun k buf hbuf i hi => ?_)
      have hmain := (main_eq_returned_iff canOpen opts operands files input result _).mpr
        ⟨hstops, rfl⟩
      -- The target holds the whole input, so nothing of it has been lost.
      have ht := h _ hmain _ (List.getElem_mem hi)
      rw [hfinal i _ (List.getElem?_eq_getElem hi)] at ht
      have hstored := List.append_cancel_left (Option.some.inj ht)
      have hwhole := (stored_eq_iff result i 0 input.blocks hne).mp hstored k buf hbuf
      rw [Nat.zero_add] at hwhole
      exact hwhole
  · intro h files' hmain t ht
    rcases (main_eq_returned_iff canOpen opts operands files input result files').mp hmain with
      ⟨hstops, rfl⟩
    rcases List.getElem?_of_mem ht with ⟨i, hi⟩
    rw [hfinal i t hi, (stored_eq_iff result i 0 input.blocks hne).mpr]
    intro k buf hbuf
    rw [Nat.zero_add]
    exact h.resolve_left hstops k buf hbuf i (List.getElem?_eq_some_iff.mp hi).1

/-- An input of two bytes. -/
def twoBytes : Input :=
  ⟨[[104, 105]], fun buf hbuf => by rw [List.mem_singleton.mp hbuf]; decide, false⟩

/-- A write that takes both bytes. -/
theorem teeRight_twoBytes :
    TeeRight (fun _ => true) [.a .empty] [] (fun _ => some [111]) twoBytes
      (fun _ _ => some 2) := by
  refine (teeRight_iff (fun _ => true) [.a .empty] [] (fun _ => some [111]) twoBytes
    (fun _ _ => some 2) (List.nodup_singleton _)).mpr (.inr (fun k buf hbuf i _ => ?_))
  refine ⟨2, rfl, ?_⟩
  rw [List.mem_singleton.mp (List.mem_of_getElem? hbuf)]
  exact Nat.le_refl 2

/-- A write that takes one of the two bytes, and the program returns zero. -/
theorem shortWrite_wrong :
    ¬ TeeRight (fun _ => true) [] [.empty] (fun _ => none) twoBytes (fun _ _ => some 1) := by
  intro h
  have hfile := h _ rfl (.empty, false) (List.mem_singleton_self _)
  cases Option.some.inj hfile

end Tee

end TlpiPractice
