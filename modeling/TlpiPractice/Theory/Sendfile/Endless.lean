import Mathlib.Tactic.Common
import TlpiPractice.Core.Sendfile

/-!
# A Sendfile That Does Not Return

What `my_sendfile` does in its loop, and what it returns.

Each turn writes from the first byte that has not been written, so at any time
`out_fd` has received the front of the buffer, each byte once and in order. If
the writes go on, all of it is received at some point. But then the loop asks
for zero bytes again and again. Only an error ends it, and the calls before it
return only on an error too, so no result but -1 is ever returned.

## Main definitions

* `Sent`: What the output is during the loop.
* `Retries`: Writes that are interrupted or take something.
* `Right`: What a call should do.
* `threeBytes`: A call for the bytes of a small file.

## Theorems

* `sent_after`: The output during the loop.
* `sends_all`: All of the buffer is received.
* `not_returns`: The loop goes on forever.
* `sends_and_stays`: Both, and what is received in between.
* `mySendfile_returned`: The only result is -1.
* `mySendfile_never`: No call is right.
* `threeBytes_wrong`: One that is not.
-/

namespace TlpiPractice

namespace Sendfile

open Loops

/-- The output is what was there before, and the front of the buffer. -/
structure Sent (buf old : List UInt8) (s : Sending) : Prop where
  output : s.output = old ++ buf.take s.sendTotal
  le : s.sendTotal ≤ buf.length

/-- Each write is interrupted or takes at least one byte, and there is no end
    of writes that take something. -/
structure Retries (K : Kernel) : Prop where
  answer : ∀ i, K.write i = .eintr ∨ ∃ n, K.write i = .wrote (n + 1)
  goesOn : ∀ i, ∃ j n, i ≤ j ∧ K.write j = .wrote (n + 1)

/-- One turn keeps the output the front of the buffer. -/
theorem sent_turn (K : Kernel) (buf old : List UInt8) (s s' : Sending) (hs : Sent buf old s)
    (h : turn K buf s = .again s') : Sent buf old s' := by
  rw [turn] at h
  cases hw : K.write s.writes with
  | eintr =>
      rw [hw] at h
      cases h
      exact ⟨hs.output, hs.le⟩
  | failed =>
      rw [hw] at h
      cases h
  | wrote n =>
      rw [hw] at h
      cases h
      have hlen : ((buf.drop s.sendTotal).take n).length = min n (buf.length - s.sendTotal) := by
        rw [List.length_take, List.length_drop]
      have hle := hs.le
      refine ⟨?_, ?_⟩
      · -- What is taken stands behind what has been taken.
        change s.output ++ (buf.drop s.sendTotal).take n =
          old ++ buf.take (s.sendTotal + ((buf.drop s.sendTotal).take n).length)
        rw [hs.output, List.append_assoc, List.take_add]
        congr 2
        rw [hlen, ← List.length_drop, ← List.take_eq_take_min]
      · change s.sendTotal + ((buf.drop s.sendTotal).take n).length ≤ buf.length
        omega

/-- At any time the output is the front of the buffer, each byte once and in
    order. -/
theorem sent_after (K : Kernel) (buf old : List UInt8) (t : Sending)
    (h : After (turn K buf) ⟨0, old, 0⟩ t) : Sent buf old t := by
  refine after_of_invariant (turn K buf) (Sent buf old) (sent_turn K buf old) _ ?_ t h
  exact ⟨by rw [List.take_zero, List.append_nil], Nat.zero_le _⟩

/-- The interruptions before the next write leave everything as it is. -/
theorem after_interrupts (K : Kernel) (hK : Retries K) (buf : List UInt8) (s t : Sending)
    (h : After (turn K buf) s t) :
    ∃ t' n, After (turn K buf) s t' ∧ t'.sendTotal = t.sendTotal ∧
      K.write t'.writes = .wrote (n + 1) := by
  rcases hK.goesOn t.writes with ⟨j, n, hle, hj⟩
  -- By induction on the number of calls until then.
  induction hd : j - t.writes generalizing t with
  | zero =>
      have heq : t.writes = j := by omega
      exact ⟨t, n, h, rfl, heq ▸ hj⟩
  | succ d ih =>
      rcases hK.answer t.writes with hint | ⟨m, hm⟩
      · have hagain : turn K buf t = .again { t with writes := t.writes + 1 } := by
          rw [turn, hint]
        rcases ih { t with writes := t.writes + 1 } (After.again t _ h hagain)
          (by change t.writes + 1 ≤ j; omega) (by change j - (t.writes + 1) = d; omega) with
          ⟨t', n', hafter, htotal, hwrite⟩
        exact ⟨t', n', hafter, htotal, hwrite⟩
      · exact ⟨t, m, h, rfl, hm⟩

/-- If the writes go on, all of the buffer is received. -/
theorem sends_all (K : Kernel) (hK : Retries K) (buf old : List UInt8) :
    ∃ t, After (turn K buf) ⟨0, old, 0⟩ t ∧ t.sendTotal = buf.length ∧ t.output = old ++ buf := by
  suffices hmain : ∀ d t, After (turn K buf) ⟨0, old, 0⟩ t → buf.length - t.sendTotal = d →
      ∃ t', After (turn K buf) ⟨0, old, 0⟩ t' ∧ t'.sendTotal = buf.length by
    rcases hmain _ _ After.start rfl with ⟨t, hafter, htotal⟩
    refine ⟨t, hafter, htotal, ?_⟩
    rw [(sent_after K buf old t hafter).output, htotal, List.take_length]
  intro d
  -- By induction on the number of bytes left.
  induction d using Nat.strongRecOn with
  | _ d ih =>
      intro t hafter hd
      rcases Nat.eq_or_lt_of_le (sent_after K buf old t hafter).le with hall | hlt
      · exact ⟨t, hafter, hall⟩
      · -- The next write that is not interrupted takes something.
        rcases after_interrupts K hK buf _ t hafter with ⟨t', n, hafter', htotal, hwrite⟩
        have hagain : turn K buf t' = .again
            { sendTotal := t'.sendTotal + ((buf.drop t'.sendTotal).take (n + 1)).length
              output := t'.output ++ (buf.drop t'.sendTotal).take (n + 1)
              writes := t'.writes + 1 } := by
          rw [turn, hwrite]
        refine ih _ ?_ _ (After.again t' _ hafter' hagain) rfl
        change buf.length - (t'.sendTotal + ((buf.drop t'.sendTotal).take (n + 1)).length) < d
        rw [List.length_take, List.length_drop]
        omega

/-- Writes that go on keep the loop going on. -/
theorem not_returns (K : Kernel) (hK : Retries K) (buf old : List UInt8)
    (r : Int × List UInt8) : ¬ Returns (turn K buf) ⟨0, old, 0⟩ r := by
  intro h
  -- No turn is the last one.
  refine returns_of_invariant (turn K buf) (fun _ => True) (fun _ => False)
    (fun _ _ _ _ => trivial) ?_ _ trivial r h
  intro s r' _ hturn
  rw [turn] at hturn
  rcases hK.answer s.writes with hint | ⟨n, hn⟩
  · rw [hint] at hturn
    cases hturn
  · rw [hn] at hturn
    cases hturn

/-- However the writes are cut and interrupted, the output is at any time the
    front of the buffer behind what was there before, it becomes all of it, and
    the loop goes on forever. -/
theorem sends_and_stays (K : Kernel) (hK : Retries K) (buf old : List UInt8) :
    (∀ t, After (turn K buf) ⟨0, old, 0⟩ t →
      t.output = old ++ buf.take t.sendTotal ∧ t.sendTotal ≤ buf.length) ∧
      (∃ t, After (turn K buf) ⟨0, old, 0⟩ t ∧ t.output = old ++ buf) ∧
      ∀ r, ¬ Returns (turn K buf) ⟨0, old, 0⟩ r := by
  refine ⟨fun t h => ?_, ?_, not_returns K hK buf old⟩
  · have hsent := sent_after K buf old t h
    exact ⟨hsent.output, hsent.le⟩
  · rcases sends_all K hK buf old with ⟨t, hafter, -, houtput⟩
    exact ⟨t, hafter, houtput⟩

/-- Every other write is interrupted, and the others take a byte. -/
def everyOther : Kernel where
  tells := true
  seeks := fun _ => true
  stack := 8388608
  read := some 8388608
  write := fun i => if i % 2 = 0 then .eintr else .wrote 1

theorem retries_everyOther : Retries everyOther where
  answer := fun i => by
    rcases Nat.mod_two_eq_zero_or_one i with hi | hi
    · exact .inl (if_pos hi)
    · exact .inr ⟨0, if_neg (by omega)⟩
  goesOn := fun i => ⟨2 * i + 1, 0, by omega, if_neg (by omega)⟩

theorem sends_and_stays_everyOther :
    (∀ t, After (turn everyOther [104, 105]) ⟨0, [], 0⟩ t →
      t.output = [] ++ [104, 105].take t.sendTotal ∧ t.sendTotal ≤ [104, 105].length) ∧
      (∃ t, After (turn everyOther [104, 105]) ⟨0, [], 0⟩ t ∧ t.output = [] ++ [104, 105]) ∧
      ∀ r, ¬ Returns (turn everyOther [104, 105]) ⟨0, [], 0⟩ r :=
  sends_and_stays everyOther retries_everyOther [104, 105] []

/-- The loop returns only on an error. -/
theorem returns_negative (K : Kernel) (buf : List UInt8) (s : Sending) (r : Int × List UInt8)
    (h : Returns (turn K buf) s r) : r.1 = -1 := by
  refine returns_of_invariant (turn K buf) (fun _ => True) (fun r => r.1 = -1)
    (fun _ _ _ _ => trivial) ?_ s trivial r h
  intro s r _ hturn
  rw [turn] at hturn
  cases hw : K.write s.writes with
  | failed =>
      rw [hw] at hturn
      cases hturn
      rfl
  | _ =>
      rw [hw] at hturn
      cases hturn

/-- The only result is -1. -/
theorem mySendfile_returned (K : Kernel) (fuel : Nat) (s s' : Files) (address : Int) (count : Nat)
    (result : Int) (h : mySendfile K fuel s address count = some (.returned result s')) :
    result = -1 := by
  rw [mySendfile] at h
  split at h
  · cases h
    rfl
  split at h
  · cases h
    rfl
  split at h
  · cases h
  cases hread : K.read with
  | none =>
      rw [hread] at h
      cases h
      rfl
  | some n =>
      simp only [hread, Option.map_eq_some_iff] at h
      rcases h with ⟨r, hr, hout⟩
      cases hout
      exact returns_negative K _ _ r ⟨fuel, hr⟩

/-- The bytes that should be sent. -/
def wanted (s : Files) (count : Nat) : List UInt8 := (s.input.drop s.offset).take count

/-- What a call should do: return the number of the bytes wanted, with these
    bytes received, `*offset` behind them and all else as it was. -/
def Right (K : Kernel) (s : Files) (address : Int) (count : Nat) : Prop :=
  ∃ fuel, mySendfile K fuel s address count = some (.returned (wanted s count).length
    { s with
      output := s.output ++ wanted s count
      offset := s.offset + (wanted s count).length })

/-- No call does it. -/
theorem mySendfile_never (K : Kernel) (s : Files) (address : Int) (count : Nat) :
    ¬ Right K s address count := by
  rintro ⟨fuel, h⟩
  have hresult := mySendfile_returned K fuel s _ address count _ h
  omega

/-- Every call works, and a `write` takes one byte. -/
def plain : Kernel where
  tells := true
  seeks := fun _ => true
  stack := 8388608
  read := some 8388608
  write := fun _ => .wrote 1

/-- Three bytes, to be sent from the first on. -/
def threeBytes : Files := ⟨[1, 2, 3], 0, [], 0⟩

/-- They are not. -/
theorem threeBytes_wrong : ¬ Right plain threeBytes 140720308486144 3 := by
  rintro ⟨fuel, h⟩
  have hresult := mySendfile_returned plain fuel threeBytes _ _ 3 _ h
  omega

end Sendfile

end TlpiPractice
