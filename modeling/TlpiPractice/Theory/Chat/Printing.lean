import Mathlib.Tactic.Common
import TlpiPractice.Core.ChatClient

/-!
# What the Client Prints

Whether the child of the chat client prints the messages that it receives.

It prints one message for every outcome of `msgrcv` that does not end it, and
so one too many for every timeout. A message that has been received is printed
as it is, whatever has been in the buffer before it, since it has its NUL.

## Main definitions

* `reached`: The outcomes before one that ends the child.
* `ClientRight`: What the child should do.

## Theorems

* `print_receive`: A message is printed as it is.
* `length_printed`: One message for every outcome.
* `clientRight_iff`: When the child is right.
* `timeout_wrong`: A timeout for which it is not.
-/

namespace TlpiPractice

namespace ChatClient

/-- The outcomes before the one that ends the child. -/
def reached : List Event → List Event
  | [] => []
  | .failed :: _ => []
  | .received m :: events => .received m :: reached events
  | .eintr :: events => .eintr :: reached events

/-- The sender and the text of a message that has been received. -/
def Event.message : Event → Option (BitVec 32 × List UInt8)
  | .received m => some (m.pid, CString.str m.mtext)
  | .eintr => none
  | .failed => none

/-- The sender and the text of a message that has been printed. -/
def Output.message? : Output → Option (BitVec 32 × List UInt8)
  | .message pid text => some (pid, text)
  | .noMessage => none

/-- The messages printed should be those received, each once and in order. -/
def ClientRight (msg : Buffer) (events : List Event) : Prop :=
  ∃ outputs, child msg events = some outputs ∧
    outputs.filterMap Output.message? = (reached events).filterMap Event.message

/-- A message is printed as it is. -/
theorem print_receive (msg : Buffer) (m : Message) :
    (msg.receive m).print = some (.message m.pid (CString.str m.mtext)) := by
  unfold Buffer.print Buffer.receive
  simp only
  rw [if_pos (List.mem_append_left _ m.terminated), CString.str_append_of_mem _ _ m.terminated]

/-- What is printed is a message. -/
theorem message_of_print (msg : Buffer) (output : Output) (h : msg.print = some output) :
    output.message? ≠ none := by
  unfold Buffer.print at h
  by_cases hnul : 0 ∈ msg.mtext
  · rw [if_pos hnul] at h
    cases h
    exact Option.some_ne_none _
  · rw [if_neg hnul] at h
    cases h

/-- One message is printed for every outcome, a timeout or not. -/
theorem length_printed (msg : Buffer) (events : List Event) (outputs : List Output)
    (h : child msg events = some outputs) :
    (outputs.filterMap Output.message?).length = (reached events).length := by
  induction events generalizing msg outputs with
  | nil =>
      cases h
      rfl
  | cons e events ih =>
      cases e with
      | failed =>
          cases h
          rfl
      | received m =>
          rw [child, print_receive] at h
          rcases Option.map_eq_some_iff.mp h with ⟨rest, hrest, rfl⟩
          have hmessage : (Output.message m.pid (CString.str m.mtext)).message? =
              some (m.pid, CString.str m.mtext) := rfl
          rw [List.filterMap_cons_some hmessage, reached, List.length_cons, List.length_cons,
            ih _ rest hrest]
      | eintr =>
          -- What is in the buffer is printed behind the line about the timeout.
          rw [child] at h
          cases hprint : msg.print with
          | none =>
              rw [hprint] at h
              cases h
          | some output =>
              rw [hprint] at h
              rcases Option.map_eq_some_iff.mp h with ⟨rest, hrest, rfl⟩
              rcases Option.ne_none_iff_exists'.mp (message_of_print msg output hprint) with
                ⟨p, hp⟩
              rw [List.filterMap_cons_none rfl, List.filterMap_cons_some hp, reached,
                List.length_cons, List.length_cons, ih msg rest hrest]

/-- Without a timeout what is received is printed. -/
theorem exists_child (msg : Buffer) (events : List Event)
    (h : ∀ e ∈ reached events, e.message ≠ none) : ClientRight msg events := by
  induction events generalizing msg with
  | nil => exact ⟨[], rfl, rfl⟩
  | cons e events ih =>
      cases e with
      | failed => exact ⟨[], rfl, rfl⟩
      | eintr => exact absurd rfl (h .eintr List.mem_cons_self)
      | received m =>
          rw [reached, List.forall_mem_cons] at h
          rcases ih (msg.receive m) h.2 with ⟨outputs, hchild, hsame⟩
          refine ⟨.message m.pid (CString.str m.mtext) :: outputs, ?_, ?_⟩
          · rw [child, print_receive]
            simp only [hchild, Option.map_some]
          · have hprinted : (Output.message m.pid (CString.str m.mtext)).message? =
                some (m.pid, CString.str m.mtext) := rfl
            have hreceived : (Event.received m).message = some (m.pid, CString.str m.mtext) := rfl
            rw [List.filterMap_cons_some hprinted, hsame, reached,
              List.filterMap_cons_some hreceived]

theorem failed_notMem_reached (events : List Event) : Event.failed ∉ reached events := by
  induction events with
  | nil => exact List.not_mem_nil
  | cons e events ih =>
      cases e with
      | failed => exact List.not_mem_nil
      | eintr => exact List.not_mem_cons_of_ne_of_not_mem (fun h => by cases h) ih
      | received m => exact List.not_mem_cons_of_ne_of_not_mem (fun h => by cases h) ih

/-- Nothing but an interruption leaves the child without a message. -/
theorem eintr_notMem_iff (events : List Event) :
    Event.eintr ∉ reached events ↔ ∀ e ∈ reached events, e.message ≠ none := by
  constructor
  · intro h e he
    cases e with
    | failed => exact absurd he (failed_notMem_reached events)
    | eintr => exact absurd he h
    | received m => exact Option.some_ne_none _
  · exact fun h hin => h .eintr hin rfl

/-- The child is right exactly if no `msgrcv` that it gets to has been
    interrupted. -/
theorem clientRight_iff (msg : Buffer) (events : List Event) :
    ClientRight msg events ↔ Event.eintr ∉ reached events := by
  rw [eintr_notMem_iff]
  constructor
  · rintro ⟨outputs, hchild, hsame⟩
    -- As many messages are printed as there are outcomes.
    have hlen := length_printed msg events outputs hchild
    rw [hsame] at hlen
    intro e he hnone
    have hlt : ((reached events).filterMap Event.message).length < (reached events).length :=
      List.length_filterMap_lt_length_iff_exists.mpr ⟨e, he, hnone⟩
    omega
  · exact exists_child msg events

/-- A text of one byte. -/
def hello : Message := ⟨7, [104, 0], by decide, by decide⟩

/-- The message of a login, with the queue's identifier zero. -/
def login : Buffer := ⟨42, List.replicate maxTextLen 0, List.length_replicate⟩

/-- After a timeout the last message is printed once more. -/
theorem timeout_wrong : ¬ ClientRight login [.received hello, .eintr] := by
  rintro ⟨outputs, hchild, hsame⟩
  have hlen := length_printed login _ outputs hchild
  rw [hsame] at hlen
  cases hlen

end ChatClient

end TlpiPractice
