import TlpiPractice.Core.ReadLine

/-!
# The Copying Loop

How the loop of `readLine` that copies bytes ends.

It ends in one of three ways: the node stays, with bytes that have not been
looked at; the node has been freed, by a `read` that returned nothing; or
something undefined happens. The last is the case when the index leaves the
buffer, or when the loop goes on after the node has been freed. `Served` says
that it is not, and `Drained` tells the other two apart, both in terms of what
the buffer contains and what the reads to come return. A `read` happens at the
last byte of the latest one, but behind it, where the index can be after a
refill, at every byte. What is looked at there are older bytes of the buffer.

## Main definitions

* `BufNode.stretch`: How many bytes are looked at up to the next `read`.
* `Served`: The loop finds every byte it looks at.
* `Drained`: The loop ends with a `read` that returned nothing.
* `Buffered`: A node with bytes that have not been looked at.

## Theorems

* `served_succ`, `drained_succ`: The same for the next byte.
* `copy_eq_none_iff`: The loop is undefined when it is not served.
* `copy_freed_iff`: The node is freed when the loop is drained.
* `copy_kept`: A node that stays has bytes left.
-/

namespace TlpiPractice

namespace ReadLine

/-- How many bytes are looked at, with `i` passed, when the next `read` comes. -/
def BufNode.stretch (node : BufNode) (i : Nat) : Nat := max (node.size - (node.cur + i)) 1

/-- A node after a `read` that has returned something. -/
def BufNode.filled (node : BufNode) (chunk : Chunk) : BufNode :=
  { node with buf := fill node.buf chunk.bytes, size := chunk.bytes.length, cur := 0 }

/-- With `i` bytes passed and `rem` iterations left, the loop ends before the
    next `read`, at a newline or as there are no more iterations, or that `read`
    returns bytes and the same holds from there on. No index leaves the
    buffer. -/
inductive Served : Nat → BufNode → List ReadResult → Nat → Prop where
  | done (node : BufNode) (input : List ReadResult) (i : Nat) : Served 0 node input i
  | line (rem : Nat) (node : BufNode) (input : List ReadResult) (i k : Nat)
      (hk : k < node.stretch i) (hroom : node.cur + i + k < bufSize)
      (hch : node.buf (node.cur + i + k) = newline) : Served rem node input i
  | limit (rem : Nat) (node : BufNode) (input : List ReadResult) (i : Nat)
      (h : rem ≤ node.stretch i) (hroom : node.cur + i + rem ≤ bufSize) :
      Served rem node input i
  | refilled (rem : Nat) (node : BufNode) (chunk : Chunk) (input : List ReadResult) (i : Nat)
      (hroom : node.cur + i + node.stretch i ≤ bufSize)
      (hrest : Served (rem - node.stretch i) (node.filled chunk) input (i + node.stretch i)) :
      Served rem node (.data chunk :: input) i

/-- The loop ends with a `read` that returned nothing: it gets to the next `read`
    without a newline before its byte, and this one returns nothing, or the same
    holds from there on. -/
inductive Drained : Nat → BufNode → List ReadResult → Nat → Prop where
  | last (rem : Nat) (node : BufNode) (input : List ReadResult) (i : Nat)
      (h : node.stretch i ≤ rem)
      (hline : ∀ k, k + 1 < node.stretch i → node.buf (node.cur + i + k) ≠ newline)
      (hread : ∀ chunk rest, input ≠ .data chunk :: rest) : Drained rem node input i
  | refilled (rem : Nat) (node : BufNode) (chunk : Chunk) (input : List ReadResult) (i : Nat)
      (hline : ∀ k < node.stretch i, node.buf (node.cur + i + k) ≠ newline)
      (hrest : Drained (rem - node.stretch i) (node.filled chunk) input (i + node.stretch i)) :
      Drained rem node (.data chunk :: input) i

/-- A node with bytes that have not been looked at, in a buffer that has
    them. -/
structure Buffered (node : BufNode) : Prop where
  cur_lt : node.cur < node.size
  size_le : node.size ≤ bufSize

/-- A refill that returns something leaves a node with all its bytes left. -/
theorem refill_some (node : BufNode) (input : List ReadResult) (node' : BufNode)
    (h : (refill node input).1 = some node') :
    node'.fd = node.fd ∧ node'.next = node.next ∧ Buffered node' := by
  cases input with
  | nil => exact nomatch h
  | cons r input =>
      cases r with
      | data chunk =>
          rw [refill, Option.some.injEq] at h
          rw [← h]
          exact ⟨rfl, rfl, List.length_pos_iff.mpr chunk.ne_nil, chunk.length_le⟩
      | eof => exact nomatch h
      | intr => exact nomatch h
      | fail => exact nomatch h

theorem look_some (node : BufNode) (input : List ReadResult) (i : Nat) (node' : BufNode)
    (hb : Buffered node) (h : (look node input i).1 = some node') :
    node'.fd = node.fd ∧ node'.next = node.next ∧ Buffered node' := by
  rw [look] at h
  by_cases hsize : node.size ≤ node.cur + i + 1
  · rw [if_pos hsize] at h
    exact refill_some node input node' h
  · rw [if_neg hsize, Option.some.injEq] at h
    rw [← h]
    exact ⟨rfl, rfl, hb⟩

/-! ### The next byte -/

theorem stretch_pos (node : BufNode) (i : Nat) : 0 < node.stretch i :=
  Nat.lt_of_lt_of_le Nat.one_pos (Nat.le_max_right _ _)

/-- The next `read` comes with the byte at hand, or with one behind it. -/
theorem stretch_cases (node : BufNode) (input : List ReadResult) (i : Nat) :
    (node.stretch i = 1 ∧ look node input i = refill node input) ∨
      (node.stretch i = node.stretch (i + 1) + 1 ∧ look node input i = (some node, input)) := by
  unfold look BufNode.stretch
  by_cases hlast : node.size ≤ node.cur + i + 1
  · rw [if_pos hlast]
    exact .inl ⟨by omega, rfl⟩
  · rw [if_neg hlast]
    exact .inr ⟨by omega, rfl⟩

theorem refill_eq_none_iff (node : BufNode) (input : List ReadResult) :
    (refill node input).1 = none ↔ ∀ chunk rest, input ≠ .data chunk :: rest := by
  cases input with
  | nil => exact ⟨fun _ => nofun, fun _ => rfl⟩
  | cons r input =>
      cases r with
      | data chunk => exact ⟨nofun, fun h => absurd rfl (h chunk input)⟩
      | eof => exact ⟨fun _ => nofun, fun _ => rfl⟩
      | intr => exact ⟨fun _ => nofun, fun _ => rfl⟩
      | fail => exact ⟨fun _ => nofun, fun _ => rfl⟩

theorem refill_eq_some (node : BufNode) (input : List ReadResult) (node' : BufNode)
    (h : (refill node input).1 = some node') :
    ∃ chunk rest, input = .data chunk :: rest ∧
      refill node input = (some (node.filled chunk), rest) ∧ node' = node.filled chunk := by
  cases input with
  | nil => exact nomatch h
  | cons r input =>
      cases r with
      | data chunk => exact ⟨chunk, input, rfl, rfl, (Option.some.inj h).symm⟩
      | eof => exact nomatch h
      | intr => exact nomatch h
      | fail => exact nomatch h

theorem served_succ (rem : Nat) (node : BufNode) (input : List ReadResult) (i : Nat) :
    Served (rem + 1) node input i ↔
      node.cur + i < bufSize ∧
        (node.buf (node.cur + i) = newline ∨ rem = 0 ∨
          ∃ node', (look node input i).1 = some node' ∧
            Served rem node' (look node input i).2 (i + 1)) := by
  have hpos := stretch_pos node i
  constructor
  · intro h
    rcases stretch_cases node input i with ⟨hone, hlook⟩ | ⟨hmore, hlook⟩
    · cases h with
      | line _ _ _ _ k hk hroom hch =>
          have hk0 : k = 0 := by omega
          rw [hk0, Nat.add_zero] at hroom hch
          exact ⟨hroom, .inl hch⟩
      | limit _ _ _ _ hle hroom => exact ⟨by omega, .inr (.inl (by omega))⟩
      | refilled _ _ chunk rest _ hroom hrest =>
          rw [hone, Nat.add_sub_cancel] at hrest
          rw [hlook]
          exact ⟨by omega, .inr (.inr ⟨node.filled chunk, rfl, hrest⟩)⟩
    · rw [hlook]
      cases h with
      | line _ _ _ _ k hk hroom hch =>
          refine ⟨by omega, ?_⟩
          cases k with
          | zero => exact .inl hch
          | succ k =>
              refine .inr (.inr ⟨node, rfl, .line _ _ _ _ k (by omega) (by omega) ?_⟩)
              rw [← Nat.add_assoc, Nat.add_right_comm _ 1 k]
              exact hch
      | limit _ _ _ _ hle hroom =>
          exact ⟨by omega, .inr (.inr ⟨node, rfl, .limit _ _ _ _ (by omega) (by omega)⟩)⟩
      | refilled _ _ chunk rest _ hroom hrest =>
          refine ⟨by omega, .inr (.inr ⟨node, rfl, .refilled _ _ _ _ _ (by omega) ?_⟩)⟩
          have hrem : rem + 1 - node.stretch i = rem - node.stretch (i + 1) := by omega
          have hi : i + node.stretch i = i + 1 + node.stretch (i + 1) := by omega
          rwa [hrem, hi] at hrest
  · rintro ⟨hroom, hch | hrem | ⟨node', hsome, hserved⟩⟩
    · exact .line _ _ _ _ 0 hpos hroom hch
    · exact .limit _ _ _ _ (by omega) (by omega)
    · rcases stretch_cases node input i with ⟨hone, hlook⟩ | ⟨hmore, hlook⟩
      · rw [hlook] at hsome hserved
        rcases refill_eq_some node input node' hsome with ⟨chunk, rest, rfl, hrefill, rfl⟩
        rw [hrefill] at hserved
        refine .refilled _ _ _ _ _ (by omega) ?_
        rw [hone, Nat.add_sub_cancel]
        exact hserved
      · rw [hlook] at hsome hserved
        rcases Option.some.inj hsome with rfl
        cases hserved with
        | done => exact .limit _ _ _ _ (by omega) (by omega)
        | line _ _ _ _ k hk hroom' hch =>
            refine .line _ _ _ _ (k + 1) (by omega) (by omega) ?_
            rw [← Nat.add_assoc, Nat.add_right_comm _ k 1]
            exact hch
        | limit _ _ _ _ hle hroom' => exact .limit _ _ _ _ (by omega) (by omega)
        | refilled _ _ chunk rest _ hroom' hrest =>
            refine .refilled _ _ _ _ _ (by omega) ?_
            have hrem : rem + 1 - node.stretch i = rem - node.stretch (i + 1) := by omega
            have hi : i + node.stretch i = i + 1 + node.stretch (i + 1) := by omega
            rwa [hrem, hi]

theorem not_drained_zero (node : BufNode) (input : List ReadResult) (i : Nat) :
    ¬ Drained 0 node input i := by
  intro h
  induction input generalizing node i with
  | nil =>
      cases h with
      | last _ _ _ _ h => exact absurd (stretch_pos node i) (Nat.not_lt.mpr h)
  | cons r input ih =>
      cases h with
      | last _ _ _ _ h => exact absurd (stretch_pos node i) (Nat.not_lt.mpr h)
      | refilled _ _ chunk _ _ _ hrest =>
          rw [Nat.zero_sub] at hrest
          exact ih _ _ hrest

theorem drained_succ (rem : Nat) (node : BufNode) (input : List ReadResult) (i : Nat) :
    Drained (rem + 1) node input i ↔
      (look node input i).1 = none ∨
        (node.buf (node.cur + i) ≠ newline ∧ ∃ node', (look node input i).1 = some node' ∧
          Drained rem node' (look node input i).2 (i + 1)) := by
  have hpos := stretch_pos node i
  constructor
  · intro h
    rcases stretch_cases node input i with ⟨hone, hlook⟩ | ⟨hmore, hlook⟩
    · rw [hlook]
      cases h with
      | last _ _ _ _ hle hline hread => exact .inl ((refill_eq_none_iff node input).mpr hread)
      | refilled _ _ chunk rest _ hline hrest =>
          rw [hone, Nat.add_sub_cancel] at hrest
          exact .inr ⟨hline 0 hpos, node.filled chunk, rfl, hrest⟩
    · rw [hlook]
      have hnext : ∀ k, node.cur + (i + 1) + k = node.cur + i + (k + 1) := by omega
      cases h with
      | last _ _ _ _ hle hline hread =>
          have hfirst := stretch_pos node (i + 1)
          refine .inr ⟨hline 0 (by omega), node, rfl, .last _ _ _ _ (by omega) (fun k hk => ?_)
            hread⟩
          rw [hnext]
          exact hline (k + 1) (by omega)
      | refilled _ _ chunk rest _ hline hrest =>
          have hrem : rem + 1 - node.stretch i = rem - node.stretch (i + 1) := by omega
          have hi : i + node.stretch i = i + 1 + node.stretch (i + 1) := by omega
          rw [hrem, hi] at hrest
          refine .inr ⟨hline 0 hpos, node, rfl, .refilled _ _ _ _ _ (fun k hk => ?_) hrest⟩
          rw [hnext]
          exact hline (k + 1) (by omega)
  · rintro (hnone | ⟨hch, node', hsome, hdrained⟩)
    · rcases stretch_cases node input i with ⟨hone, hlook⟩ | ⟨-, hlook⟩
      · rw [hlook, refill_eq_none_iff] at hnone
        exact .last _ _ _ _ (by omega) (fun k hk => by omega) hnone
      · rw [hlook] at hnone
        exact nomatch hnone
    · rcases stretch_cases node input i with ⟨hone, hlook⟩ | ⟨hmore, hlook⟩
      · rw [hlook] at hsome hdrained
        rcases refill_eq_some node input node' hsome with ⟨chunk, rest, rfl, hrefill, rfl⟩
        rw [hrefill] at hdrained
        refine .refilled _ _ _ _ _ (fun k hk => ?_) ?_
        · have hk0 : k = 0 := by omega
          rw [hk0]
          exact hch
        · rw [hone, Nat.add_sub_cancel]
          exact hdrained
      · rw [hlook] at hsome hdrained
        rcases Option.some.inj hsome with rfl
        -- The byte at hand is no newline, and those behind it are not either.
        have hnext : ∀ n, (∀ k, k + 1 < n → node.buf (node.cur + (i + 1) + k) ≠ newline) →
            ∀ k, k < n → node.buf (node.cur + i + k) ≠ newline := by
          intro n hline k hk
          cases k with
          | zero => exact hch
          | succ k =>
              rw [← Nat.add_assoc, Nat.add_right_comm _ k 1]
              exact hline k hk
        cases hdrained with
        | last _ _ _ _ hle hline hread =>
            refine .last _ _ _ _ (by omega) (fun k hk => ?_) hread
            exact hnext (node.stretch (i + 1)) hline k (by omega)
        | refilled _ _ chunk rest _ hline hrest =>
            have hrem : rem + 1 - node.stretch i = rem - node.stretch (i + 1) := by omega
            have hi : i + node.stretch i = i + 1 + node.stretch (i + 1) := by omega
            refine .refilled _ _ _ _ _ (hnext _ (fun k hk => hline k (by omega))) ?_
            rwa [hrem, hi]

section Iteration

variable (rem : Nat) (node : BufNode) (input : List ReadResult) (stored : List UInt8)

/-- The loop after the node has been freed. -/
theorem copy_freed : copy rem none input stored = if rem = 0 then some (none, input, stored)
    else none := by
  cases rem with
  | zero => rfl
  | succ rem => rfl

/-- A result without the node is one that has freed it. -/
theorem eq_none_of_copy_freed (buf : Option BufNode) (input' : List ReadResult)
    (stored' : List UInt8) (h : copy rem none input stored = some (buf, input', stored')) :
    buf = none := by
  rw [copy_freed] at h
  by_cases hrem : rem = 0
  · rw [if_pos hrem, Option.some.injEq, Prod.mk.injEq] at h
    exact h.1.symm
  · rw [if_neg hrem] at h
    cases h

theorem copy_outside (h : ¬ node.cur + stored.length < bufSize) :
    copy (rem + 1) (some node) input stored = none := by
  rw [copy, if_neg h]

theorem copy_newline (h : node.cur + stored.length < bufSize)
    (hch : node.buf (node.cur + stored.length) = newline) :
    copy (rem + 1) (some node) input stored =
      some ((look node input stored.length).1, (look node input stored.length).2, stored) := by
  simp only [copy, if_pos h, if_pos hch]

theorem copy_other (h : node.cur + stored.length < bufSize)
    (hch : node.buf (node.cur + stored.length) ≠ newline) :
    copy (rem + 1) (some node) input stored =
      copy rem (look node input stored.length).1 (look node input stored.length).2
        (stored ++ [node.buf (node.cur + stored.length)]) := by
  simp only [copy, if_pos h, if_neg hch]

end Iteration

theorem length_concat (stored : List UInt8) (ch : UInt8) :
    (stored ++ [ch]).length = stored.length + 1 := by
  rw [List.length_append, List.length_singleton]

/-- The loop is undefined exactly when it is not served. -/
theorem copy_eq_none_iff (rem : Nat) (node : BufNode) (input : List ReadResult)
    (stored : List UInt8) :
    copy rem (some node) input stored = none ↔ ¬ Served rem node input stored.length := by
  induction rem generalizing node input stored with
  | zero => exact ⟨nofun, fun h => absurd (.done node input _) h⟩
  | succ rem ih =>
      rw [served_succ]
      by_cases hidx : node.cur + stored.length < bufSize
      · by_cases hch : node.buf (node.cur + stored.length) = newline
        · rw [copy_newline rem node input stored hidx hch]
          exact ⟨nofun, fun h => absurd ⟨hidx, Or.inl hch⟩ h⟩
        rw [copy_other rem node input stored hidx hch]
        simp only [hidx, hch, true_and, false_or]
        cases hl : (look node input stored.length).1 with
        | none =>
            -- The node has been freed, so this must have been the last byte.
            rw [copy_freed]
            by_cases hrem : rem = 0
            · rw [if_pos hrem]
              exact ⟨nofun, fun h => absurd (Or.inl hrem) h⟩
            · rw [if_neg hrem]
              simp only [hrem, false_or, reduceCtorEq, false_and, exists_false,
                not_false_eq_true]
        | some node' =>
            rw [ih, length_concat]
            simp only [Option.some.injEq, exists_eq_left']
            by_cases hrem : rem = 0
            · subst hrem
              simp only [Served.done, true_or]
            · simp only [hrem, false_or]
      · rw [copy_outside rem node input stored hidx]
        simp only [hidx, false_and, not_false_eq_true]

/-- A loop that is served frees the node exactly when it is drained. -/
theorem copy_freed_iff (rem : Nat) (node : BufNode) (input : List ReadResult)
    (stored : List UInt8) (buf : Option BufNode) (input' : List ReadResult)
    (stored' : List UInt8) (h : copy rem (some node) input stored = some (buf, input', stored')) :
    buf = none ↔ Drained rem node input stored.length := by
  induction rem generalizing node input stored with
  | zero =>
      simp only [copy, Option.some.injEq, Prod.mk.injEq] at h
      rw [← h.1]
      exact ⟨nofun, fun h => absurd h (not_drained_zero node input _)⟩
  | succ rem ih =>
      rw [drained_succ]
      by_cases hidx : node.cur + stored.length < bufSize
      · by_cases hch : node.buf (node.cur + stored.length) = newline
        · rw [copy_newline rem node input stored hidx hch, Option.some.injEq, Prod.mk.injEq] at h
          simp only [hch, ne_eq, not_true_eq_false, false_and, or_false, h.1]
        rw [copy_other rem node input stored hidx hch] at h
        simp only [ne_eq, hch, not_false_eq_true, true_and]
        cases hl : (look node input stored.length).1 with
        | none =>
            rw [hl] at h
            simp only [eq_none_of_copy_freed _ _ _ buf input' stored' h, true_or]
        | some node' =>
            rw [hl] at h
            simp only [reduceCtorEq, false_or, Option.some.injEq, exists_eq_left',
              ← length_concat stored (node.buf (node.cur + stored.length))]
            exact ih node' _ _ h
      · rw [copy_outside rem node input stored hidx] at h
        exact nomatch h

/-- A node that stays keeps its descriptor and its link, and has bytes left. -/
theorem copy_kept (rem : Nat) (node : BufNode) (input : List ReadResult)
    (stored : List UInt8) (node' : BufNode) (input' : List ReadResult) (stored' : List UInt8)
    (hb : Buffered node)
    (h : copy rem (some node) input stored = some (some node', input', stored')) :
    node'.fd = node.fd ∧ node'.next = node.next ∧ Buffered node' := by
  induction rem generalizing node input stored with
  | zero =>
      simp only [copy, Option.some.injEq, Prod.mk.injEq] at h
      rw [← h.1]
      exact ⟨rfl, rfl, hb⟩
  | succ rem ih =>
      by_cases hidx : node.cur + stored.length < bufSize
      · by_cases hch : node.buf (node.cur + stored.length) = newline
        · rw [copy_newline rem node input stored hidx hch, Option.some.injEq, Prod.mk.injEq] at h
          exact look_some node input _ node' hb h.1
        rw [copy_other rem node input stored hidx hch] at h
        cases hl : (look node input stored.length).1 with
        | none =>
            -- The node does not stay, as it has been freed.
            rw [hl] at h
            have hfreed := eq_none_of_copy_freed _ _ _ _ input' stored' h
            exact absurd hfreed (Option.some_ne_none node')
        | some node₁ =>
            rw [hl] at h
            rcases look_some node input _ node₁ hb hl with ⟨hfd, hnext, hb₁⟩
            rcases ih node₁ _ _ hb₁ h with ⟨hfd', hnext', hb'⟩
            exact ⟨hfd'.trans hfd, hnext'.trans hnext, hb'⟩
      · rw [copy_outside rem node input stored hidx] at h
        exact nomatch h

end ReadLine

end TlpiPractice
