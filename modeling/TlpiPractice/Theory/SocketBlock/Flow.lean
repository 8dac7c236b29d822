import Mathlib.Algebra.GroupWithZero.Nat
import TlpiPractice.Core.SocketBlock

/-!
# What Goes Through the Socket

The bytes on their way are those that have been written and not read, and the
child is never further ahead of the parent than the socket has room for.

Both processes hold both ends. So no process ever learns that the other one is
gone: the parent does not see the end of the data, and no `write` of the child
fails. Where one of them has been killed, the other one waits for ever as soon
as the socket is empty, or full.

## Main definitions

* `ParentPc.taken`: The bytes read that are not printed yet.
* `ChildPc.whole`: How far the child is in its block.
* `FlowInv`: The invariant.
* `Stuck`: Nobody can go on.

## Theorems

* `flowInv_child`, `flowInv_parent`: A step of either keeps the invariant.
* `stuck_iff`: Who waits for ever.
* `flow`: What is so in every run.
-/

namespace TlpiPractice

namespace SocketBlock

open Runs

/-- The bytes read that are not printed yet. -/
def ParentPc.taken : ParentPc → Nat
  | .showing readNum => readNum
  | _ => 0

/-- The bytes of the block that the child is at which are written. -/
def ChildPc.whole : ChildPc → Nat
  | .sending => 0
  | .writing left => blockSize - left
  | .counting => blockSize

/-- What is so between any two steps. -/
structure FlowInv (room : Nat) (s : State) : Prop where
  /-- What has been written has been read or is on its way. -/
  conserved : s.entered = s.shown.sum + s.parent.taken + s.inFlight
  /-- What has been written are whole blocks and a part of one. -/
  blocks : s.entered = blockSize * s.cnt + s.child.whole
  bounded : s.inFlight ≤ room
  left : ∀ left, s.child = .writing left → 0 < left ∧ left ≤ blockSize
  taken : ∀ readNum, s.parent = .showing readNum → 0 < readNum
  shown : ∀ readNum ∈ s.shown, 0 < readNum
  status : ∀ p, s.status p ≠ .exited

/-- Nobody can go on, unless somebody is killed. -/
def Stuck (room : Nat) (s : State) : Prop :=
  (∀ k, ¬ Enabled room s (.child k)) ∧ ∀ k, ¬ Enabled room s (.parent k)

theorem flowInv_initial (room : Nat) : FlowInv room initial where
  conserved := rfl
  blocks := rfl
  bounded := Nat.zero_le room
  left := fun _ h => by cases h
  taken := fun _ h => by cases h
  shown := fun _ h => absurd h List.not_mem_nil
  status := fun _ h => by cases h

theorem held_of_running (s : State) (p : Proc) (h : s.status p = .running) : s.held := by
  cases p with
  | parent => exact .inl h
  | child => exact .inr h

theorem flowInv_child (room : Nat) (s : State) (k : Nat) (h : FlowInv room s)
    (hen : Enabled room s (.child k)) : FlowInv room (childStep s k) := by
  rcases hen with ⟨hrun, hen⟩
  have hheld := held_of_running s .child hrun
  have hblocks := h.blocks
  cases hpc : s.child with
  | sending =>
      rw [hpc] at hblocks
      have hstep : childStep s k = { s with child := .writing blockSize } := by
        rw [childStep, hpc]
      rw [hstep]
      refine ⟨h.conserved, ?_, h.bounded, ?_, h.taken, h.shown, h.status⟩
      · exact hblocks
      · intro left hleft
        cases hleft
        decide
  | writing left =>
      rw [hpc] at hen hblocks
      have hleft := h.left left hpc
      -- The child holds the end that is read from itself, so its `write` cannot fail.
      have hfits := hen.resolve_left (fun hc => hc hheld)
      have hstep : childStep s k =
          { s with
            inFlight := s.inFlight + k
            entered := s.entered + k
            child := if left = k then .counting else .writing (left - k) } := by
        rw [childStep, hpc]
        exact if_pos hheld
      have hwhole : (if left = k then ChildPc.counting else .writing (left - k)).whole =
          blockSize - left + k := by
        by_cases hk : left = k
        · rw [if_pos hk, ChildPc.whole]
          omega
        · rw [if_neg hk, ChildPc.whole]
          omega
      rw [hstep]
      refine ⟨?_, ?_, hfits.2.2, ?_, h.taken, h.shown, h.status⟩
      · show s.entered + k = s.shown.sum + s.parent.taken + (s.inFlight + k)
        have hconserved := h.conserved
        omega
      · show s.entered + k = blockSize * s.cnt +
          (if left = k then ChildPc.counting else .writing (left - k)).whole
        rw [hwhole, hblocks, ChildPc.whole]
        omega
      · intro left' hleft'
        have hcase : (if left = k then ChildPc.counting else .writing (left - k)) =
            .writing left' := hleft'
        split at hcase
        · cases hcase
        · cases hcase
          omega
  | counting =>
      rw [hpc] at hblocks
      have hstep : childStep s k = { s with child := .sending, cnt := s.cnt + 1 } := by
        rw [childStep, hpc]
      rw [hstep]
      refine ⟨h.conserved, ?_, h.bounded, fun _ hc => (by cases hc), h.taken, h.shown, h.status⟩
      show s.entered = blockSize * (s.cnt + 1) + 0
      rw [hblocks, Nat.mul_succ]
      rfl

theorem flowInv_parent (room : Nat) (s : State) (k : Nat) (h : FlowInv room s)
    (hen : Enabled room s (.parent k)) : FlowInv room (parentStep s k) := by
  rcases hen with ⟨hrun, hen⟩
  have hheld := held_of_running s .parent hrun
  have hconserved := h.conserved
  cases hpc : s.parent with
  | sleeping =>
      rw [hpc] at hconserved
      have hstep : parentStep s k = { s with parent := .reading } := by
        rw [parentStep, hpc]
      rw [hstep]
      exact ⟨hconserved, h.blocks, h.bounded, h.left, fun _ hc => (by cases hc), h.shown, h.status⟩
  | reading =>
      rw [hpc] at hen hconserved
      -- The parent holds the end that is written to itself, so it sees no end.
      have hpos : k ≠ 0 := by
        rintro rfl
        exact hen.2 hheld
      have hthere : k ≤ s.inFlight := by
        have hboth : k ≤ blockSize ∧ k ≤ s.inFlight := by
          have hen' : (if k = 0 then s.inFlight = 0 ∧ ¬ s.held
              else k ≤ blockSize ∧ k ≤ s.inFlight) := hen
          rw [if_neg hpos] at hen'
          exact hen'
        exact hboth.2
      have hstep : parentStep s k =
          { s with inFlight := s.inFlight - k, parent := .showing k } := by
        rw [parentStep, hpc]
      rw [hstep]
      refine ⟨?_, h.blocks, Nat.le_trans (Nat.sub_le _ _) h.bounded, h.left, ?_, h.shown, h.status⟩
      · show s.entered = s.shown.sum + k + (s.inFlight - k)
        have hnone : ParentPc.reading.taken = 0 := rfl
        omega
      · intro readNum hr
        cases hr
        exact Nat.pos_of_ne_zero hpos
  | showing readNum =>
      rw [hpc] at hconserved
      have hstep : parentStep s k =
          { s with parent := .sleeping, shown := s.shown ++ [readNum] } := by
        rw [parentStep, hpc]
      rw [hstep]
      refine ⟨?_, h.blocks, h.bounded, h.left, fun _ hc => (by cases hc), ?_, h.status⟩
      · show s.entered = (s.shown ++ [readNum]).sum + 0 + s.inFlight
        rw [List.sum_append, List.sum_singleton, hconserved]
        rfl
      · intro n hn
        rcases List.mem_append.mp hn with hn | hn
        · exact h.shown n hn
        · rw [List.mem_singleton.mp hn]
          exact h.taken readNum hpc

theorem flowInv_step (room : Nat) (s : State) (e : Event) (s' : State) (h : FlowInv room s)
    (hstep : Step room s e s') : FlowInv room s' := by
  rcases hstep with ⟨hen, rfl⟩
  cases e with
  | child k => exact flowInv_child room s k h hen
  | parent k => exact flowInv_parent room s k h hen
  | kill p =>
      refine ⟨h.conserved, h.blocks, h.bounded, h.left, h.taken, h.shown, fun q => ?_⟩
      show Function.update s.status p .killed q ≠ .exited
      by_cases hqp : q = p
      · rw [hqp, Function.update_self]
        exact Status.noConfusion
      · rw [Function.update_of_ne hqp]
        exact h.status q

/-- The child waits exactly in a `write` with the socket full. -/
theorem child_waits_iff (room : Nat) (s : State) (h : FlowInv room s)
    (hrun : s.status .child = .running) :
    (∀ k, ¬ Enabled room s (.child k)) ↔
      (∃ left, s.child = .writing left) ∧ s.inFlight = room := by
  have hheld := held_of_running s .child hrun
  have hbounded := h.bounded
  refine ⟨fun hwait => ?_, ?_⟩
  · have hone := hwait 1
    unfold Enabled at hone
    cases hpc : s.child with
    | sending => rw [hpc] at hone; exact absurd ⟨hrun, trivial⟩ hone
    | counting => rw [hpc] at hone; exact absurd ⟨hrun, trivial⟩ hone
    | writing left =>
        rw [hpc] at hone
        have hleft := h.left left hpc
        refine ⟨⟨left, rfl⟩, ?_⟩
        by_contra hne
        exact hone ⟨hrun, .inr ⟨Nat.one_pos, hleft.1, by omega⟩⟩
  · rintro ⟨⟨left, hpc⟩, hfull⟩ k ⟨-, hen⟩
    rw [hpc] at hen
    have hfits := hen.resolve_left (fun hc => hc hheld)
    omega

/-- The parent waits exactly in a `read` with the socket empty. -/
theorem parent_waits_iff (room : Nat) (s : State) (hrun : s.status .parent = .running) :
    (∀ k, ¬ Enabled room s (.parent k)) ↔ s.parent = .reading ∧ s.inFlight = 0 := by
  have hheld := held_of_running s .parent hrun
  refine ⟨fun hwait => ?_, ?_⟩
  · have hone := hwait 1
    unfold Enabled at hone
    cases hpc : s.parent with
    | sleeping => rw [hpc] at hone; exact absurd ⟨hrun, trivial⟩ hone
    | showing readNum => rw [hpc] at hone; exact absurd ⟨hrun, trivial⟩ hone
    | reading =>
        rw [hpc] at hone
        refine ⟨rfl, ?_⟩
        by_contra hne
        have hsmall : 1 ≤ blockSize ∧ 1 ≤ s.inFlight := ⟨by decide, Nat.pos_of_ne_zero hne⟩
        exact hone ⟨hrun, hsmall⟩
  · rintro ⟨hpc, hempty⟩ k ⟨-, hen⟩
    rw [hpc] at hen
    have hen' : (if k = 0 then s.inFlight = 0 ∧ ¬ s.held
        else k ≤ blockSize ∧ k ≤ s.inFlight) := hen
    split at hen'
    · exact hen'.2 hheld
    · omega

/-- Who waits for ever: nobody while both run, and else who is left as soon as
    the socket is full or empty. -/
theorem stuck_iff (room : Nat) (hroom : 0 < room) (s : State) (h : FlowInv room s) :
    Stuck room s ↔
      (s.status .child = .running → (∃ left, s.child = .writing left) ∧ s.inFlight = room) ∧
        (s.status .parent = .running → s.parent = .reading ∧ s.inFlight = 0) ∧
        (s.status .child ≠ .running ∨ s.status .parent ≠ .running) := by
  refine ⟨fun hstuck => ?_, fun hwait => ⟨fun k hen => ?_, fun k hen => ?_⟩⟩
  · have hchild := fun hrun => (child_waits_iff room s h hrun).mp hstuck.1
    have hparent := fun hrun => (parent_waits_iff room s hrun).mp hstuck.2
    refine ⟨hchild, hparent, ?_⟩
    -- Both wait only if the socket is full and empty.
    by_contra hboth
    rw [not_or, not_not, not_not] at hboth
    have hfull := (hchild hboth.1).2
    have hempty := (hparent hboth.2).2
    omega
  · exact (child_waits_iff room s h hen.1).mpr (hwait.1 hen.1) k hen
  · exact (parent_waits_iff room s hen.1).mpr (hwait.2.1 hen.1) k hen

/-- In every run the bytes are conserved, the child is at most as far ahead as the
    socket has room, nobody ends by itself or reads nothing, and only a killed
    process leaves the other one stuck. -/
theorem flow (room : Nat) (hroom : 0 < room) (tr : List (Event × State))
    (hrun : AllSteps (Step room) initial tr) :
    FlowInv room (lastState initial tr) ∧
      blockSize * (lastState initial tr).cnt ≤ (lastState initial tr).shown.sum +
        (lastState initial tr).parent.taken + room ∧
      (Stuck room (lastState initial tr) ↔
        ((lastState initial tr).status .child = .running →
            (∃ left, (lastState initial tr).child = .writing left) ∧
              (lastState initial tr).inFlight = room) ∧
          ((lastState initial tr).status .parent = .running →
            (lastState initial tr).parent = .reading ∧ (lastState initial tr).inFlight = 0) ∧
          ((lastState initial tr).status .child ≠ .running ∨
            (lastState initial tr).status .parent ≠ .running)) := by
  have hinv := always_last _ tr
    (always_of_allSteps (flowInv_step room) initial tr (flowInv_initial room) hrun)
  refine ⟨hinv, ?_, stuck_iff room hroom _ hinv⟩
  have hconserved := hinv.conserved
  have hblocks := hinv.blocks
  have hbounded := hinv.bounded
  omega

/-- The child is killed behind its first block, and the parent reads on. -/
def oneBlock : List Event :=
  [.child 0, .child 4096, .kill .child, .parent 0, .parent 4096, .parent 0, .parent 0]

theorem flow_oneBlock :
    FlowInv 8192 (lastState initial (record next initial oneBlock)) ∧
      blockSize * (lastState initial (record next initial oneBlock)).cnt ≤
        (lastState initial (record next initial oneBlock)).shown.sum +
          (lastState initial (record next initial oneBlock)).parent.taken + 8192 ∧
      (Stuck 8192 (lastState initial (record next initial oneBlock)) ↔
        ((lastState initial (record next initial oneBlock)).status .child = .running →
            (∃ left,
              (lastState initial (record next initial oneBlock)).child = .writing left) ∧
              (lastState initial (record next initial oneBlock)).inFlight = 8192) ∧
          ((lastState initial (record next initial oneBlock)).status .parent = .running →
            (lastState initial (record next initial oneBlock)).parent = .reading ∧
              (lastState initial (record next initial oneBlock)).inFlight = 0) ∧
          ((lastState initial (record next initial oneBlock)).status .child ≠ .running ∨
            (lastState initial (record next initial oneBlock)).status .parent ≠ .running)) := by
  refine flow 8192 (by decide) _ (allSteps_record (Enabled 8192) next _ _ ?_)
  refine ⟨⟨rfl, trivial⟩, ⟨rfl, .inr ?_⟩, rfl, ⟨rfl, trivial⟩, ⟨rfl, ?_⟩, ⟨rfl, trivial⟩,
    ⟨rfl, trivial⟩, trivial⟩
  · decide
  · exact ⟨Nat.le_refl 4096, Nat.le_refl 4096⟩

end SocketBlock

end TlpiPractice
