import Mathlib.Tactic.Common
import TlpiPractice.Core.Chattr

/-!
# What a Mode Does

Which attributes a file gets from `my_chattr`.

The loop over the letters has an end only if the mode is empty. With any other
mode the program comes to where it is not defined, unless it gives up before
the loop, so no mode ever sets an attribute.

## Main definitions

* `Mode`: A mode, as it should be given.
* `Mode.attrs`: What it should make of the attributes.
* `ChattrRight`: What the program should do.

## Theorems

* `returns_flagTurn`: How the loop ends.
* `main_of_enters`, `main_of_not_enters`: What the program does.
* `chattrRight_iff`: When the program is right.
* `append_wrong`: A mode for which it is not.
-/

namespace TlpiPractice

namespace Chattr

open Loops

/-- An operator and some letters that are known. -/
structure Mode where
  op : UInt8
  letters : List UInt8
  isOperator_op : isOperator op = true
  known : ∀ c ∈ letters, (flag c).isSome

/-- The flags of the letters. -/
def Mode.flags (mode : Mode) : BitVec 32 :=
  mode.letters.foldl (fun flags c => flags ||| (flag c).getD 0) 0

/-- The attributes that a mode should leave. -/
def Mode.attrs (mode : Mode) (old : BitVec 32) : BitVec 32 :=
  if mode.op = 43 then old ||| mode.flags
  else if mode.op = 45 then old &&& ~~~mode.flags
  else mode.flags

/-- The argument is a mode. -/
def IsMode (arg : CString) : Prop := ∃ mode : Mode, arg.bytes = mode.op :: mode.letters

/-- The program should end without leaving the language. With a mode it should
    set the attributes if the calls succeed, and with any other argument it
    should leave them as they are. -/
def ChattrRight (calls : Calls) (arg file : CString) (attrs : BitVec 32) : Prop :=
  ∃ fuel outcome, main fuel calls arg file attrs = some outcome ∧ outcome ≠ .undefined ∧
    (∀ mode : Mode, arg.bytes = mode.op :: mode.letters →
      calls.opens = true → calls.gets = true → calls.sets = true →
        outcome = .returned (mode.attrs attrs)) ∧
    (¬ IsMode arg → outcome = .returned attrs ∨ outcome = .exited attrs)

/-- The loop is not entered with an empty argument. -/
theorem returns_flagTurn_nil (arg : CString) (harg : arg.bytes = []) (attr : BitVec 32) :
    run (flagTurn arg) 1 (1, attr) = some (some attr) := by
  rw [run, flagTurn, harg]
  rfl

/-- With any other argument every end of the loop is where `FLAG` has no
    value. -/
theorem returns_flagTurn (arg : CString) (harg : arg.bytes ≠ []) (s : Nat × BitVec 32)
    (r : Option (BitVec 32)) (h : Returns (flagTurn arg) s r) : r = none := by
  -- The test is that of the first byte, so it never ends the loop.
  refine returns_of_invariant (flagTurn arg) (fun _ => True) (fun r => r = none)
    (fun _ _ _ _ => trivial) ?_ s trivial r h
  rintro ⟨i, attr⟩ r - hturn
  rw [flagTurn] at hturn
  cases hhead : arg.bytes.head? with
  | none => exact absurd (List.head?_eq_none_iff.mp hhead) harg
  | some op =>
      simp only [hhead] at hturn
      cases hflag : flag (arg.bytes.getD i 0) with
      | none =>
          simp only [hflag] at hturn
          cases hturn
          rfl
      | some FLAG =>
          simp only [hflag] at hturn
          cases hturn

/-- The program comes to the loop. -/
def Enters (calls : Calls) (file : CString) : Prop :=
  file.bytes.head? = some 61 ∧ calls.opens = true ∧ calls.gets = true

/-- Then it ends as the loop does. -/
theorem main_of_enters (fuel : Nat) (calls : Calls) (arg file : CString) (attrs : BitVec 32)
    (h : Enters calls file) :
    main fuel calls arg file attrs =
      (run (flagTurn arg) fuel (1, attrs)).map (fun r =>
        r.elim .undefined (fun attr => if calls.sets then .returned attr else .exited attrs)) := by
  have hop : isOperator 61 = true := rfl
  rcases h with ⟨hhead, hopens, hgets⟩
  unfold main
  rw [hhead, Option.map_some, hop, hopens, hgets]
  cases run (flagTurn arg) fuel (1, attrs) with
  | none => rfl
  | some r =>
      cases r with
      | none => rfl
      | some attr => cases calls.sets <;> rfl

theorem main_of_not_enters (fuel : Nat) (calls : Calls) (arg file : CString)
    (attrs : BitVec 32) (h : ¬ Enters calls file) :
    main fuel calls arg file attrs = some (.exited attrs) := by
  unfold main
  split
  · by_cases hopens : calls.opens = false
    · rw [if_pos hopens]
    · rw [if_neg hopens]
      by_cases hhead : file.bytes.head? = some 61
      · have hgets : calls.gets = false := by
          cases hgets : calls.gets with
          | false => rfl
          | true => exact absurd ⟨hhead, Bool.eq_true_of_not_eq_false hopens, hgets⟩ h
        rw [if_neg (fun hne => hne hhead), if_pos hgets]
      · rw [if_pos hhead]
  · rfl

/-- The program is right exactly if the argument is empty or the loop is not
    entered, and if it is a mode then one of the calls fails. -/
theorem chattrRight_iff (calls : Calls) (arg file : CString) (attrs : BitVec 32) :
    ChattrRight calls arg file attrs ↔
      (arg.bytes = [] ∨ ¬ Enters calls file) ∧
        (IsMode arg → ¬ (calls.opens = true ∧ calls.gets = true ∧ calls.sets = true)) := by
  have hmode : arg.bytes = [] → ¬ IsMode arg := by
    rintro hnil ⟨mode, harg⟩
    rw [hnil] at harg
    cases harg
  constructor
  · rintro ⟨fuel, outcome, hmain, hdefined, hset, -⟩
    by_cases hnil : arg.bytes = []
    · exact ⟨.inl hnil, fun h => absurd h (hmode hnil)⟩
    · by_cases henters : Enters calls file
      · -- The loop ends where the program is not defined.
        rw [main_of_enters fuel calls arg file attrs henters] at hmain
        cases hrun : run (flagTurn arg) fuel (1, attrs) with
        | none =>
            rw [hrun] at hmain
            cases hmain
        | some r =>
            rw [hrun, returns_flagTurn arg hnil (1, attrs) r ⟨fuel, hrun⟩] at hmain
            cases hmain
            exact absurd rfl hdefined
      · refine ⟨.inr henters, ?_⟩
        rintro ⟨mode, harg⟩ ⟨hopens, hgets, hsets⟩
        -- Nothing has been set, as the mode would want it.
        rw [main_of_not_enters fuel calls arg file attrs henters] at hmain
        cases hmain
        cases hset mode harg hopens hgets hsets
  · rintro ⟨hends, hfails⟩
    have hset : ∀ outcome : Outcome, ∀ mode : Mode, arg.bytes = mode.op :: mode.letters →
        calls.opens = true → calls.gets = true → calls.sets = true →
          outcome = .returned (mode.attrs attrs) :=
      fun _ mode harg hopens hgets hsets => absurd ⟨hopens, hgets, hsets⟩ (hfails ⟨mode, harg⟩)
    by_cases henters : Enters calls file
    · -- What has been fetched is set again.
      have hnil := hends.resolve_right (fun h => h henters)
      have hmain := main_of_enters 1 calls arg file attrs henters
      rw [returns_flagTurn_nil arg hnil attrs] at hmain
      cases hsets : calls.sets with
      | true =>
          rw [hsets] at hmain
          refine ⟨1, _, hmain, fun h => ?_, hset _, fun _ => .inl rfl⟩
          cases h
      | false =>
          rw [hsets] at hmain
          refine ⟨1, _, hmain, fun h => ?_, hset _, fun _ => .inr rfl⟩
          cases h
    · refine ⟨0, _, main_of_not_enters 0 calls arg file attrs henters, fun h => ?_, hset _,
        fun _ => .inr rfl⟩
      cases h

/-- `+a`. -/
def plusA : Mode := ⟨43, [97], rfl, fun c hc => by rw [List.mem_singleton.mp hc]; rfl⟩

/-- The file `f` does not get the attribute `a`. -/
theorem append_wrong :
    ¬ ChattrRight ⟨true, true, true⟩ (.ofBytes [43, 97]) (.ofBytes [102]) 0 := by
  rintro ⟨fuel, outcome, hmain, -, hset, -⟩
  cases hmain
  cases hset plusA rfl rfl rfl rfl

end Chattr

end TlpiPractice
