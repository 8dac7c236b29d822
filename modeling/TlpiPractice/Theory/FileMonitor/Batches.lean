import TlpiPractice.Core.FileMonitor

/-!
# Whole Batches of Events

That every event is shown once, in the order of the events, with the name that
belongs to it.

A `read` returns whole events. Each is a header and then its name, filled up
with NULs to the length in the header. So the loop meets the events one after
the other, reads no name beyond its NULs, and stops where the last one ends,
whatever earlier reads have left in the buffer behind them.

## Main definitions

* `Sent`: An event as the kernel sends it.
* `encode`: The bytes of an event.
* `Sent.event`: What the program is to make of it.
* `Batch`: What one `read` returns.
* `twoBatches`: Three events in two reads.

## Theorems

* `getWord_encode`: The four words of a header are read back.
* `eventAt_encode`: An event is read where its bytes are.
* `forLoop_encode`: The loop over a batch.
* `readLoop_batches`: The loop over the reads, from any buffer.
* `shown_batches`: Every event of every batch is shown.
-/

namespace TlpiPractice

namespace FileMonitor

open CString Ints Words

/-- An event as the kernel sends it: its name, if it has one, has at least one
    NUL behind it. -/
structure Sent where
  wd : Int
  mask : Nat
  cookie : Nat
  name : List UInt8
  /-- How many NULs there are. -/
  fill : Nat
  wd_inRange : InRange wd
  mask_lt : mask < 4294967296
  cookie_lt : cookie < 4294967296
  noNul : ∀ b ∈ name, b ≠ 0
  terminated : name ≠ [] → 0 < fill
  len_lt : name.length + fill < 4294967296

/-- The words of the header, where `wd` is in two's complement. -/
def Sent.words (e : Sent) : List Nat :=
  [word e.wd, e.mask, e.cookie, e.name.length + e.fill]

/-- The bytes of an event. -/
def encode (e : Sent) : List UInt8 :=
  (e.words.map wordBytes).flatten ++ (e.name ++ List.replicate e.fill 0)

/-- The bytes of some events. -/
def encodeAll (events : List Sent) : List UInt8 := (events.map encode).flatten

/-- The events of one `read`, which fit into the buffer. -/
structure Batch where
  events : List Sent
  fits : (encodeAll events).length ≤ bufLen

/-- The event itself. -/
def Sent.event (e : Sent) : Event where
  wd := e.wd
  mask := e.mask
  cookie := e.cookie
  len := e.name.length + e.fill
  name := e.name

theorem length_encode (e : Sent) :
    (encode e).length = headerSize + (e.name.length + e.fill) := by
  unfold encode
  rw [List.length_append, List.length_append, List.length_replicate]
  rfl

theorem words_lt (e : Sent) (w : Nat) (h : w ∈ e.words) : w < 4294967296 := by
  simp only [Sent.words, List.mem_cons, List.not_mem_nil, or_false] at h
  rcases h with rfl | rfl | rfl | rfl
  · exact word_lt e.wd
  · exact e.mask_lt
  · exact e.cookie_lt
  · exact e.len_lt

/-- The four words of a header are read back. -/
theorem getWord_encode (buffer rest : List UInt8) (p : Nat) (e : Sent)
    (h : buffer.drop p = encode e ++ rest) (k : Nat) (w : Nat) (hk : e.words[k]? = some w) :
    getWord (fun i => buffer.getD i 0) (p + 4 * k) = w := by
  have hlt := words_lt e w (List.mem_of_getElem? hk)
  have hdrop : buffer.drop (p + 4 * k) =
      wordBytes w ++ (encode e ++ rest).drop (4 * k + 4) := by
    rw [← List.drop_drop, h]
    rcases k with _ | _ | _ | _ | k
    · cases hk
      rfl
    · cases hk
      rfl
    · cases hk
      rfl
    · cases hk
      rfl
    · cases hk
  exact getWord_of_drop buffer _ _ w 0 hdrop hlt

/-- An event is read where its bytes are, whatever comes behind them. -/
theorem eventAt_encode (buffer rest : List UInt8) (p : Nat) (e : Sent)
    (h : buffer.drop p = encode e ++ rest) : eventAt buffer p = some e.event := by
  have hword := getWord_encode buffer rest p e h
  have hbehind : buffer.drop (p + headerSize) = e.name ++ (List.replicate e.fill 0 ++ rest) := by
    rw [← List.drop_drop, h, encode, List.append_assoc, List.append_assoc]
    rfl
  have hlen : ¬ buffer.length < p + headerSize := by
    have hsize := congrArg List.length h
    rw [List.length_drop, List.length_append, length_encode] at hsize
    unfold headerSize at hsize ⊢
    omega
  have h0 := hword 0 _ rfl
  have h1 := hword 1 _ rfl
  have h2 := hword 2 _ rfl
  have h3 := hword 3 _ rfl
  simp only [Nat.mul_zero, Nat.add_zero, Nat.mul_one, Nat.reduceMul] at h0 h1 h2 h3
  simp only [eventAt, if_neg hlen, h0, h1, h2, h3, wrap_word e.wd e.wd_inRange, hbehind]
  by_cases hnone : e.name.length + e.fill = 0
  · -- Without a name nothing behind the header is looked at.
    have hname : e.name = [] := List.length_eq_zero_iff.mp (by omega)
    rw [if_pos hnone]
    simp only [Sent.event, hname]
  · have hfill : 0 < e.fill := by
      by_contra hzero
      have hname : e.name ≠ [] := by
        intro hname
        rw [hname, List.length_nil] at hnone
        omega
      exact hzero (e.terminated hname)
    obtain ⟨n, hn⟩ : ∃ n, e.fill = n + 1 := ⟨e.fill - 1, by omega⟩
    rw [if_neg hnone, hn, List.replicate_succ, List.cons_append,
      if_pos (List.mem_append_right _ List.mem_cons_self), str_append _ _ e.noNul]
    simp only [Sent.event, hn]

/-- The loop over a batch, from where some of it is still to come. -/
theorem forLoop_encode (buffer : List UInt8) (readNum : Nat) (events : List Sent)
    (rest : List UInt8) (p : Nat) (h : buffer.drop p = encodeAll events ++ rest)
    (hend : readNum = p + (encodeAll events).length) :
    forLoop buffer readNum p =
      some (events.map (fun e => displayInotifyEvent e.event)).flatten := by
  -- By induction on the events that are still to come.
  induction events generalizing p with
  | nil =>
      rw [forLoop, if_neg]
      · rfl
      · rw [hend]
        exact Nat.lt_irrefl p
  | cons e events ih =>
      have hcons : encodeAll (e :: events) = encode e ++ encodeAll events := rfl
      have hsize := length_encode e
      rw [hcons, List.append_assoc] at h
      rw [hcons, List.length_append, hsize] at hend
      have hdrop : buffer.drop (p + (headerSize + e.event.len)) = encodeAll events ++ rest := by
        rw [← List.drop_drop, h]
        exact List.drop_left' hsize
      have hgoes : p < readNum := by
        unfold headerSize at hend
        omega
      have hagain := ih (p + (headerSize + e.event.len)) hdrop
        (hend.trans (Nat.add_assoc _ _ _).symm)
      rw [forLoop, if_pos hgoes, eventAt_encode buffer _ p e h]
      simp only [hagain, Option.map_some]
      rfl

/-- What is in the buffer to begin with does not matter. -/
theorem readLoop_batches (junk : List UInt8) (batches : List Batch) :
    readLoop junk (batches.map (fun batch => encodeAll batch.events)) =
      some ((batches.map Batch.events).flatten.map
        (fun e => displayInotifyEvent e.event)).flatten := by
  induction batches generalizing junk with
  | nil => rfl
  | cons batch batches ih =>
      -- The batch lies in front of what the one before has left.
      have hloop := forLoop_encode
        (encodeAll batch.events ++ junk.drop (encodeAll batch.events).length)
        (encodeAll batch.events).length batch.events (junk.drop (encodeAll batch.events).length) 0
        rfl (Nat.zero_add _).symm
      rw [List.map_cons, readLoop, if_neg (Nat.not_lt.mpr batch.fits)]
      simp only [hloop, ih, Option.map_some]
      rw [List.map_cons, List.flatten_cons, List.map_append, List.flatten_append]

/-- However the events come in batches, each of them is shown once, in the
    order of the events. -/
theorem shown_batches (batches : List Batch) :
    shown (batches.map (fun batch => encodeAll batch.events)) =
      some ((batches.map Batch.events).flatten.map
        (fun e => displayInotifyEvent e.event)).flatten :=
  readLoop_batches _ batches

/-- A file has been created, with the name `a`. -/
def created : Sent where
  wd := 1
  mask := 0x100
  cookie := 0
  name := [97]
  fill := 15
  wd_inRange := ⟨by decide, by decide⟩
  mask_lt := by decide
  cookie_lt := by decide
  noNul := by simp
  terminated := fun _ => by decide
  len_lt := by decide

/-- The directory itself has been removed. -/
def deletedSelf : Sent where
  wd := 1
  mask := 0x400
  cookie := 0
  name := []
  fill := 0
  wd_inRange := ⟨by decide, by decide⟩
  mask_lt := by decide
  cookie_lt := by decide
  noNul := by simp
  terminated := fun h => absurd rfl h
  len_lt := by decide

/-- One event, and then two with one `read`. -/
def twoBatches : List Batch :=
  [⟨[created], by decide⟩, ⟨[created, deletedSelf], by decide⟩]

theorem shown_batches_two :
    shown (twoBatches.map (fun batch => encodeAll batch.events)) =
      some (displayInotifyEvent created.event ++
        (displayInotifyEvent created.event ++ displayInotifyEvent deletedSelf.event)) := by
  rw [shown_batches twoBatches]
  simp only [twoBatches, List.map_cons, List.map_nil, List.flatten_cons, List.flatten_nil,
    List.append_nil, List.cons_append, List.nil_append]

end FileMonitor

end TlpiPractice
