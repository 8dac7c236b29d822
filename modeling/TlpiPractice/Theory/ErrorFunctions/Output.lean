import TlpiPractice.Core.ErrorFunctions

/-!
# The Order of the Output

What is to be seen of a program that prints, fails and complains.

A message is put together from two texts that have been cut already, and is cut
itself. The cuts add up to one: what is shown is the front of the whole
message, as if only the last buffer were short.

Nothing is lost or out of order, whatever the library writes out by itself and
whatever the writing of a message leaves in `errno`: the terminal and what
`stdout` keeps back are all that has been printed, in the order of the calls,
and a message names the last call that failed. The program that ends through
`err_exit` loses what is kept back, and no other.

## Main definitions

* `message`, `line`: A whole message, and what is shown of it.
* `told`: All that the calls print.
* `numberAfter`: The last number of a call that failed.
* `Last.line`, `Last.flushes`: The message at the end, and what is done before
  it.

## Theorems

* `take_append_take`: A cut in the middle does not matter if there is another.
* `outputError_spec`: What is written.
* `told_run`: The calls before the last one.
* `told_finish`: The whole program.
-/

namespace TlpiPractice

namespace ErrorFunctions

open Environment GetNum

/-- A whole message. There is no number for `fatal`. -/
def message (strerror : Int → CString) (err : Option Int) (msg : CString) : List UInt8 :=
  ascii "ERROR" ++
    (match err with
      | some e => ascii " [" ++ enameOf e ++ ascii " " ++ (strerror e).bytes ++ ascii "]"
      | none => ascii ":") ++
    (ascii " " ++ (msg.bytes ++ ascii "\n"))

/-- What is shown of it. -/
def line (strerror : Int → CString) (err : Option Int) (msg : CString) : List UInt8 :=
  (message strerror err msg).take (bufSize - 1)

/-- All that the calls print. The last call that failed left the number `e`. -/
def told (strerror : Int → CString) : Int → List Call → List UInt8
  | _, [] => []
  | e, .printf text _ :: calls => text.bytes ++ told strerror e calls
  | _, .failed e :: calls => told strerror e calls
  | e, .errMsg msg _ :: calls => line strerror (some e) msg ++ told strerror e calls

/-- The number that the last call that failed left. -/
def numberAfter : Int → List Call → Int
  | e, [] => e
  | _, .failed e :: calls => numberAfter e calls
  | e, .printf _ _ :: calls => numberAfter e calls
  | e, .errMsg _ _ :: calls => numberAfter e calls

/-- The message at the end. -/
def Last.line (strerror : Int → CString) (e : Int) : Last → List UInt8
  | .errExit msg | .err_exit msg => ErrorFunctions.line strerror (some e) msg
  | .errExitEN errnum msg => ErrorFunctions.line strerror (some errnum) msg
  | .fatal msg => ErrorFunctions.line strerror none msg
  | .usageErr msg => ascii "Usage: " ++ msg.bytes
  | .cmdLineErr msg => ascii "Command-line usage error: " ++ msg.bytes

/-- What `stdout` keeps back is written out before the message. -/
def Last.flushes : Last → Bool
  | .err_exit _ => false
  | _ => true

/-- A cut in the middle of a text does not matter if the text is cut, too. -/
theorem take_append_take {α : Type*} (n : Nat) (a b c : List α) :
    (a ++ (b.take n ++ c)).take n = (a ++ (b ++ c)).take n := by
  rw [List.take_append, List.take_append, List.take_append, List.take_append, List.take_take,
    Nat.min_eq_left (Nat.sub_le n a.length), List.length_take]
  congr 2
  -- Either nothing has been cut off, or there is no room behind it.
  rcases Nat.le_total b.length n with hb | hb
  · rw [Nat.min_eq_right hb]
  · rw [Nat.min_eq_left hb]
    have hroom : n - a.length - n = 0 := by omega
    have hroom' : n - a.length - b.length = 0 := by omega
    rw [hroom, hroom']

/-- The two texts that a message is made of need not have been cut. -/
theorem cut_message (n : Nat) (head errText space userMsg newline : List UInt8) :
    (head ++ errText.take n ++ space ++ userMsg.take n ++ newline).take n =
      (head ++ errText ++ (space ++ (userMsg ++ newline))).take n := by
  have huser := take_append_take n (head ++ errText.take n ++ space) userMsg newline
  have herr := take_append_take n head errText (space ++ (userMsg ++ newline))
  simp only [List.append_assoc] at huser herr ⊢
  rw [huser, herr]

/-- The message behind what was there, and `stdout` before it if it is asked
    for. -/
theorem outputError_spec (strerror : Int → CString) (useErr : Bool) (err : Int)
    (flushStdout : Bool) (msg : CString) (left : Int) (s : Process) :
    outputError strerror useErr err flushStdout msg left s =
      { errno := left
        pending := if flushStdout then [] else s.pending
        terminal := s.terminal ++ (if flushStdout then s.pending else []) ++
          line strerror (if useErr then some err else none) msg } := by
  have hcut : ∀ errText : List UInt8,
      snprintf bufSize (ascii "ERROR" ++ snprintf bufSize errText ++ ascii " " ++
        snprintf bufSize msg.bytes ++ ascii "\n") =
      (ascii "ERROR" ++ errText ++ (ascii " " ++ (msg.bytes ++ ascii "\n"))).take (bufSize - 1) :=
    fun errText => cut_message (bufSize - 1) _ errText _ _ _
  cases useErr with
  | true =>
      cases flushStdout with
      | true =>
          simp only [outputError, if_true, hcut]
          rfl
      | false =>
          simp only [outputError, if_true, Bool.false_eq_true, if_false, hcut, List.append_nil]
          rfl
  | false =>
      cases flushStdout with
      | true =>
          simp only [outputError, if_true, Bool.false_eq_true, if_false, hcut]
          rfl
      | false =>
          simp only [outputError, Bool.false_eq_true, if_false, hcut, List.append_nil]
          rfl

/-- One call: what it prints is added, and the number is the one it leaves. -/
theorem told_step (strerror : Int → CString) (s : Process) (call : Call) (calls : List Call) :
    (step strerror s call).terminal ++ (step strerror s call).pending ++
        told strerror (step strerror s call).errno calls =
      s.terminal ++ s.pending ++ told strerror s.errno (call :: calls) ∧
    numberAfter (step strerror s call).errno calls = numberAfter s.errno (call :: calls) := by
  cases call with
  | printf text written =>
      refine ⟨?_, rfl⟩
      show s.terminal ++ (s.pending ++ text.bytes).take written ++
        (s.pending ++ text.bytes).drop written ++ told strerror s.errno calls =
        s.terminal ++ s.pending ++ (text.bytes ++ told strerror s.errno calls)
      rw [List.append_assoc s.terminal, List.take_append_drop, ← List.append_assoc,
        ← List.append_assoc]
  | failed errno => exact ⟨rfl, rfl⟩
  | errMsg msg left =>
      have hspec := outputError_spec strerror true s.errno true msg left s
      refine ⟨?_, rfl⟩
      -- `errno` is put back, so that the next message names the same call.
      show (outputError strerror true s.errno true msg left s).terminal ++
        (outputError strerror true s.errno true msg left s).pending ++
          told strerror s.errno calls = _
      rw [hspec]
      show s.terminal ++ s.pending ++ line strerror (some s.errno) msg ++ [] ++
        told strerror s.errno calls =
        s.terminal ++ s.pending ++ (line strerror (some s.errno) msg ++
          told strerror s.errno calls)
      rw [List.append_nil, ← List.append_assoc]

/-- The terminal and what `stdout` keeps back are all that was printed. -/
theorem told_run (strerror : Int → CString) (calls : List Call) (s : Process) :
    (run strerror s calls).terminal ++ (run strerror s calls).pending =
      s.terminal ++ s.pending ++ told strerror s.errno calls ∧
    (run strerror s calls).errno = numberAfter s.errno calls := by
  induction calls generalizing s with
  | nil => exact ⟨(List.append_nil _).symm, rfl⟩
  | cons call calls ih =>
      have hstep := told_step strerror s call calls
      have hrest := ih (step strerror s call)
      exact ⟨hrest.1.trans hstep.1, hrest.2.trans hstep.2⟩

/-- Nothing is kept back when a process ends, or it is dropped. -/
theorem terminate_terminal (env : List CString) (useExit3 : Bool) (s : Process)
    (h : s.pending = [] ∨ useExit3 = false) :
    (terminate env useExit3 s).terminal = s.terminal := by
  unfold terminate
  split
  · rfl
  · rcases h with h | h
    · rw [h, List.append_nil]
      split
      · rfl
      · rfl
    · rw [h, if_neg Bool.false_ne_true]

/-- The last call writes its message, behind all of `stdout` or in its place. -/
theorem finish_terminal (strerror : Int → CString) (env : List CString) (left : Int)
    (s : Process) (last : Last) :
    (finish strerror env left s last).terminal =
      s.terminal ++ (if last.flushes then s.pending else []) ++ last.line strerror s.errno := by
  cases last with
  | errExit msg =>
      rw [finish, errExit, outputError_spec]
      exact terminate_terminal env true _ (.inl rfl)
  | err_exit msg =>
      rw [finish, err_exit, outputError_spec]
      exact terminate_terminal env false _ (.inr rfl)
  | errExitEN errnum msg =>
      rw [finish, errExitEN, outputError_spec]
      exact terminate_terminal env true _ (.inl rfl)
  | fatal msg =>
      rw [finish, fatal, outputError_spec]
      exact terminate_terminal env true _ (.inl rfl)
  | usageErr msg => exact List.append_assoc _ _ _
  | cmdLineErr msg => exact List.append_assoc _ _ _

/-- A program that prints, fails and complains, and ends with a message. All is
    on the terminal, in the order of the calls, and each message is the front of
    the whole message. It is all but what `stdout` keeps back if the last call is
    `err_exit`. -/
theorem told_finish (strerror : Int → CString) (env : List CString) (left : Int)
    (calls : List Call) (s : Process) (last : Last) :
    (last.flushes = true → (finish strerror env left (run strerror s calls) last).terminal =
      s.terminal ++ s.pending ++ told strerror s.errno calls ++
        last.line strerror (numberAfter s.errno calls)) ∧
    (last.flushes = false → ∃ shown, shown ++ (run strerror s calls).pending =
        s.terminal ++ s.pending ++ told strerror s.errno calls ∧
      (finish strerror env left (run strerror s calls) last).terminal =
        shown ++ last.line strerror (numberAfter s.errno calls)) := by
  rcases told_run strerror calls s with ⟨htold, hnumber⟩
  have hfinish := finish_terminal strerror env left (run strerror s calls) last
  rw [hnumber] at hfinish
  refine ⟨fun hflush => ?_, fun hflush => ⟨(run strerror s calls).terminal, htold, ?_⟩⟩
  · rw [hfinish, if_pos hflush, htold]
  · rw [hfinish, hflush, if_neg Bool.false_ne_true, List.append_nil]

end ErrorFunctions

end TlpiPractice
