import Mathlib.Data.List.Basic

/-!
# Message Queues Read by Type

A message queue whose messages carry a numeric type, read the way System V
`msgrcv` reads it when the requested type is negative: the oldest message of
the lowest type present, types above the bound being left alone.

The messages are kept oldest first, so sending appends. Reading is therefore
not first-in first-out: a message of a low type overtakes every message of a
higher one. `receiveLowest_spec` says all a reader can rely on: the queue was
cut around the message read, no message of the requested range has a lower
type, and no older message has the same type.

## Main definitions

* `takeFirst`: The oldest message satisfying a test, and the queue without it.
* `lowestType`: The lowest type present, among those within the bound.
* `receiveLowest`: The oldest message of the lowest type.

## Theorems

* `takeFirst_spec`: Where the message taken stood.
* `lowestType_le`: The lowest type is below all types within the bound.
* `receiveLowest_spec`: What a reader by type can rely on.
-/

namespace MsgQueue

variable {μ : Type*}

/-- The oldest message satisfying the test, and the queue without it. -/
def takeFirst (test : μ → Bool) : List μ → Option (μ × List μ)
  | [] => none
  | m :: q =>
      if test m then some (m, q)
      else (takeFirst test q).map (fun r => (r.1, m :: r.2))

/-- The lowest type present in the queue, among those within the bound. -/
def lowestType (mtype : μ → Nat) (bound : Nat) (q : List μ) : Option Nat :=
  ((q.map mtype).filter (fun t => decide (t ≤ bound))).min?

/-- `msgrcv` with a negative type: the oldest message of the lowest type. -/
def receiveLowest (mtype : μ → Nat) (bound : Nat) (q : List μ) : Option (μ × List μ) :=
  (lowestType mtype bound q).bind (fun t => takeFirst (fun m => decide (mtype m = t)) q)

theorem takeFirst_spec (test : μ → Bool) (q : List μ) (m : μ) (q' : List μ)
    (h : takeFirst test q = some (m, q')) :
    test m = true ∧ ∃ pre post, q = pre ++ m :: post ∧ q' = pre ++ post ∧
      ∀ x ∈ pre, test x = false := by
  induction q generalizing q' with
  | nil => exact absurd h (by simp only [takeFirst, reduceCtorEq, not_false_eq_true])
  | cons a q ih =>
      simp only [takeFirst] at h
      by_cases ha : test a = true
      · -- The oldest message is the one taken.
        rw [if_pos ha, Option.some.injEq, Prod.mk.injEq] at h
        rw [← h.1, ← h.2]
        exact ⟨ha, [], q, rfl, rfl, fun x hx => absurd hx List.not_mem_nil⟩
      · rw [if_neg ha, Option.map_eq_some_iff] at h
        rcases h with ⟨⟨m', q''⟩, hrec, heq⟩
        simp only [Prod.mk.injEq] at heq
        rcases heq with ⟨rfl, rfl⟩
        rcases ih q'' hrec with ⟨hm, pre, post, hq, hq'', hpre⟩
        refine ⟨hm, a :: pre, post, by rw [hq, List.cons_append], by rw [hq'', List.cons_append],
          fun x hx => ?_⟩
        rcases List.mem_cons.mp hx with rfl | hx
        · exact Bool.eq_false_iff.mpr ha
        · exact hpre x hx

theorem lowestType_le (mtype : μ → Nat) (bound : Nat) (q : List μ) (t : Nat)
    (h : lowestType mtype bound q = some t) :
    t ≤ bound ∧ ∀ x ∈ q, mtype x ≤ bound → t ≤ mtype x := by
  unfold lowestType at h
  have hmin := (List.min?_eq_some_iff).mp h
  refine ⟨?_, fun x hx hb => ?_⟩
  · have hmem := List.mem_filter.mp hmin.1
    exact of_decide_eq_true hmem.2
  · exact hmin.2 _ (List.mem_filter.mpr ⟨List.mem_map_of_mem hx, decide_eq_true hb⟩)

/-- The queue was cut around the message read; nothing within the bound has a
    lower type, and nothing older has the same type. -/
theorem receiveLowest_spec (mtype : μ → Nat) (bound : Nat) (q : List μ) (m : μ) (q' : List μ)
    (h : receiveLowest mtype bound q = some (m, q')) :
    mtype m ≤ bound ∧ (∀ x ∈ q, mtype x ≤ bound → mtype m ≤ mtype x) ∧
      ∃ pre post, q = pre ++ m :: post ∧ q' = pre ++ post ∧ ∀ x ∈ pre, mtype x ≠ mtype m := by
  unfold receiveLowest at h
  rcases Option.bind_eq_some_iff.mp h with ⟨t, ht, htake⟩
  rcases lowestType_le mtype bound q t ht with ⟨hb, hle⟩
  rcases takeFirst_spec _ q m q' htake with ⟨hm, pre, post, hq, hq', hpre⟩
  have hmt : mtype m = t := of_decide_eq_true hm
  refine ⟨hmt ▸ hb, fun x hx hx' => hmt ▸ hle x hx hx', pre, post, hq, hq', fun x hx heq => ?_⟩
  have hx' := hpre x hx
  rw [heq, hmt, decide_eq_true rfl] at hx'
  exact absurd hx' (by simp only [Bool.true_eq_false, not_false_eq_true])

end MsgQueue
