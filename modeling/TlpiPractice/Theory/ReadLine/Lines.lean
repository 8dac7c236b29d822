import TlpiPractice.Library.Lines
import TlpiPractice.Theory.ReadLine.Invariant

/-!
# When Lines Are Read Right

The calls for one descriptor that hand out its stream line by line, and what
goes wrong in the others.

A call starts at the byte that `cur` leads to, and `cur` moves in a refill
only. So the bytes a call has handed out are handed out again unless the call
ends at the very byte that makes it refill the buffer. If it goes on after the
refill, its index skips as many bytes of the new ones as it has stored
already. If there are no new ones, it goes on in a buffer that is freed. And
at the end of the stream a call returns `-1` where it should have found
nothing to store.

`Aligned` is what is left: the line ends where the bytes at hand end. In a run
of such calls the lines are the right ones and nothing is lost or repeated.
`aligned_of_right` shows that there are no others, but for those that go on
after a refill, which can store the right bytes when the skipped ones happen
to be equal to them.

## Main definitions

* `atHand`: The bytes that a call finds first.
* `toCome`: The bytes that are still to be handed out.
* `Right`: The calls so far have read their lines.
* `Aligned`: The line ends where the bytes at hand do.
* `GoesOn`: The call needs bytes from behind a refill.
* `wholeChunks`: A run of aligned calls.
* `sharedChunk`: A run with two lines in one buffer.

## Theorems

* `copy_endsAt`: The copying loop in an aligned call.
* `right_of_aligned`: An aligned call reads its line.
* `aligned_of_right`: A call that reads its line is aligned, or goes on.
* `lines_of_aligned`: Runs of aligned calls.
* `sharedChunk_repeats`: A line that is read twice.
-/

namespace TlpiPractice

namespace ReadLine

open LinkedList Lines Runs

/-- The bytes of a node from an index on. -/
def BufNode.left (node : BufNode) (i : Nat) : List UInt8 :=
  (List.range (node.size - (node.cur + i))).map (fun k => node.buf (node.cur + i + k))

/-- The bytes that a `read` returns. -/
def ReadResult.bytes : ReadResult → List UInt8
  | .data chunk => chunk.bytes
  | _ => []

/-- The bytes that all reads to come return. -/
def bytesOf (input : List ReadResult) : List UInt8 := input.flatMap ReadResult.bytes

/-- The first node of the list. When all calls are for one descriptor, there
    is no other. -/
def held (s : State) : Option BufNode := s.first.bind s.heap

/-- The bytes that a call finds first: those of the node, or the first chunk. -/
def atHand (s : State) (fd : Int) : List UInt8 :=
  match held s with
  | some node => node.left 0
  | none => bytesOf ((s.input fd).take 1)

/-- The bytes that are still to be handed out. -/
def toCome (s : State) (fd : Int) : List UInt8 :=
  match held s with
  | some node => node.left 0 ++ bytesOf (s.input fd)
  | none => bytesOf (s.input fd)

/-- The calls so far have read their lines: each has stored the next line of
    the stream and returned its length, the rest of the stream is still to
    come, and the lines with their newlines make up what is before it. -/
structure Right (fd : Int) (stream : List UInt8) (s : State) : Prop where
  alive : s.lost = false
  lines : Cut newline stream (s.calls.map (fun r => (r.n, r.stored))) (toCome s fd)
  counts : ∀ r ∈ s.calls, r.ret = r.stored.length
  restored : ∃ pieces : List (List UInt8), pieces.flatten ++ toCome s fd = stream ∧
    List.Forall₂ (fun r p => p = r.stored ∨ p = r.stored ++ [newline]) s.calls pieces

/-- There are bytes at hand, and the line ends where they do. -/
def Aligned (s : State) (c : Call) : Prop :=
  atHand s c.fd ≠ [] ∧ EndsAt newline c.n (atHand s c.fd)

/-- The line does not end in the bytes at hand, and there are others. -/
def GoesOn (s : State) (c : Call) : Prop :=
  newline ∉ atHand s c.fd ∧ (atHand s c.fd).length < c.n ∧ toCome s c.fd ≠ atHand s c.fd

/-! ### The copying loop -/

theorem left_eq_nil_iff (node : BufNode) (i : Nat) :
    node.left i = [] ↔ node.size ≤ node.cur + i := by
  rw [BufNode.left, List.map_eq_nil_iff, List.range_eq_nil, Nat.sub_eq_zero_iff_le]

theorem left_cons (node : BufNode) (i : Nat) (x : UInt8) (u : List UInt8)
    (h : node.left i = x :: u) :
    node.cur + i < node.size ∧ node.buf (node.cur + i) = x ∧ node.left (i + 1) = u := by
  have hlt : node.cur + i < node.size := by
    by_contra hge
    rw [(left_eq_nil_iff node i).mpr (Nat.le_of_not_lt hge)] at h
    exact nomatch h
  have hsize : node.size - (node.cur + i) = node.size - (node.cur + (i + 1)) + 1 := by omega
  rw [BufNode.left, hsize, List.range_succ_eq_map, List.map_cons, List.map_map] at h
  rcases List.cons.inj h with ⟨hx, hu⟩
  refine ⟨hlt, hx, ?_⟩
  rw [← hu, BufNode.left]
  refine List.map_congr_left (fun k _ => ?_)
  have hk : node.cur + (i + 1) + k = node.cur + i + k.succ := by omega
  rw [Function.comp_apply, hk]

theorem left_append (node : BufNode) (i : Nat) (w v : List UInt8) (h : node.left i = w ++ v) :
    node.left (i + w.length) = v := by
  induction w generalizing i with
  | nil => exact h
  | cons a w ih =>
      rw [List.length_cons, Nat.add_comm w.length 1, ← Nat.add_assoc]
      exact ih (i + 1) (left_cons node i a (w ++ v) h).2.2

theorem look_inside (node : BufNode) (input : List ReadResult) (i : Nat)
    (h : node.left (i + 1) ≠ []) : look node input i = (some node, input) := by
  have hsize : ¬ node.size ≤ node.cur + i + 1 := fun hle =>
    h ((left_eq_nil_iff node (i + 1)).mpr hle)
  rw [look, if_neg hsize]

theorem look_last (node : BufNode) (input : List ReadResult) (i : Nat)
    (h : node.left (i + 1) = []) : look node input i = refill node input := by
  have hsize : node.size ≤ node.cur + i + 1 := (left_eq_nil_iff node (i + 1)).mp h
  rw [look, if_pos hsize]

section Loop

variable (node : BufNode) (input : List ReadResult) (hb : Buffered node)
include hb

/-- The loop at a newline. -/
theorem copy_stop (rem : Nat) (u : List UInt8) (stored : List UInt8)
    (h : node.left stored.length = newline :: u) :
    copy (rem + 1) (some node) input stored =
      some ((look node input stored.length).1, (look node input stored.length).2, stored) := by
  rcases left_cons node _ newline u h with ⟨hlt, hbuf, _⟩
  exact copy_newline _ _ _ _ (Nat.lt_of_lt_of_le hlt hb.size_le) hbuf

/-- The loop at another byte. -/
theorem copy_pass (rem : Nat) (x : UInt8) (u : List UInt8) (stored : List UInt8)
    (hx : x ≠ newline) (h : node.left stored.length = x :: u) :
    copy (rem + 1) (some node) input stored =
      copy rem (look node input stored.length).1 (look node input stored.length).2
        (stored ++ [x]) := by
  rcases left_cons node _ x u h with ⟨hlt, hbuf, _⟩
  rw [copy_other _ _ _ _ (Nat.lt_of_lt_of_le hlt hb.size_le) (by rw [hbuf]; exact hx), hbuf]

/-- The loop passes over bytes that are neither newlines nor the last one. -/
theorem copy_append (rem : Nat) (w u : List UInt8) (x : UInt8) (stored : List UInt8)
    (hw : newline ∉ w) (h : node.left stored.length = w ++ x :: u) :
    copy (w.length + rem) (some node) input stored =
      copy rem (some node) input (stored ++ w) := by
  induction w generalizing stored with
  | nil => rw [List.length_nil, Nat.zero_add, List.append_nil]
  | cons a w ih =>
      rcases not_or.mp (fun h => hw (List.mem_cons.mpr h)) with ⟨ha, hw'⟩
      have hrest := (left_cons node _ a (w ++ x :: u) h).2.2
      have hne : node.left (stored.length + 1) ≠ [] := by
        rw [hrest]
        exact List.append_ne_nil_of_right_ne_nil _ (List.cons_ne_nil x u)
      rw [List.length_cons, Nat.add_right_comm,
        copy_pass node input hb _ a _ stored (Ne.symm ha) h, look_inside node input _ hne,
        ih (stored ++ [a]) hw' (by rw [length_concat, hrest]), List.append_assoc,
        List.singleton_append]

/-- The loop in a call whose line ends before the bytes do. -/
theorem copy_endsInside (rem : Nat) (h : EndsInside newline rem (node.left 0)) :
    ∃ stored, copy rem (some node) input [] = some (some node, input, stored) := by
  rcases h with ⟨w, x, u, hleft, hw, hend⟩
  have hskip := fun k => copy_append node input hb k w u x [] hw hleft
  rcases hend with hlen | ⟨hx, hu, hlen⟩
  · exact ⟨w, by rw [← hlen, ← Nat.add_zero w.length, hskip, List.nil_append, copy]⟩
  · obtain ⟨k, hk⟩ : ∃ k, rem = w.length + (k + 1) := ⟨rem - w.length - 1, by omega⟩
    have hat := left_append node 0 w (x :: u) hleft
    rw [Nat.zero_add, hx] at hat
    have hne : node.left (w.length + 1) ≠ [] := by
      rw [(left_cons node _ _ u hat).2.2]
      exact hu
    refine ⟨w, ?_⟩
    rw [hk, hskip, List.nil_append, copy_stop node input hb k u w hat,
      look_inside node input _ hne]

/-- The loop up to the last byte, which is not a newline. -/
theorem copy_all (rem : Nat) (hne : node.left 0 ≠ []) (hd : newline ∉ node.left 0) :
    copy ((node.left 0).length + rem) (some node) input [] =
      copy rem (refill node input).1 (refill node input).2 (node.left 0) := by
  rcases List.eq_nil_or_concat' (node.left 0) with hnil | ⟨w, x, hw⟩
  · exact absurd hnil hne
  have hat := left_append node 0 w [x] hw
  rw [Nat.zero_add] at hat
  have hlast := (left_cons node _ x [] hat).2.2
  rw [hw] at hd ⊢
  rcases not_or.mp (fun h => hd (List.mem_append.mpr h)) with ⟨hd', hx⟩
  rw [length_concat, Nat.add_assoc, copy_append node input hb _ w [] x [] hd' hw,
    List.nil_append, Nat.add_comm 1 rem,
    copy_pass node input hb rem x [] w (fun h => hx (h ▸ List.mem_singleton_self _)) hat,
    look_last node input _ hlast]

/-- The loop in a call whose line ends where the bytes do. -/
theorem copy_endsAt (rem : Nat) (hne : node.left 0 ≠ []) (h : EndsAt newline rem (node.left 0)) :
    copy rem (some node) input [] = some ((refill node input).1, (refill node input).2,
      line newline rem (node.left 0)) := by
  rcases h with ⟨w, hw, hd, hlen⟩ | ⟨hd, hlen⟩
  · have hat := left_append node 0 w [newline] hw
    rw [Nat.zero_add] at hat
    have hlast := (left_cons node _ newline [] hat).2.2
    rw [hw, length_concat] at hlen
    obtain ⟨k, hk⟩ : ∃ k, rem = w.length + (k + 1) := ⟨rem - w.length - 1, by omega⟩
    rw [hk, copy_append node input hb _ w [] newline [] hd hw, List.nil_append,
      copy_stop node input hb k [] w hat, look_last node input _ hlast, hw,
      line_append newline _ w _ hd, line_cons_self, List.append_nil]
  · have hline := line_append newline 0 _ [] hd
    rw [List.append_nil, line_zero, List.append_nil] at hline
    rw [← hlen, ← Nat.add_zero (node.left 0).length, copy_all node input hb 0 hne hd, copy, hline]

end Loop

/-! ### One descriptor -/

/-- All calls so far have been for one descriptor: the list has at most its
    node. What is still to be read on it are chunks. -/
structure Alone (fd : Int) (s : State) : Prop where
  ok : s.lost = false
  chunks : ∃ chunks : List Chunk, s.input fd = chunks.map .data
  node : s.first = none ∨ ∃ a node, s.first = some a ∧ s.heap a = some node ∧ node.fd = fd ∧
    node.next = none ∧ Buffered node

theorem left_ne_nil (node : BufNode) (hb : Buffered node) : node.left 0 ≠ [] := fun h =>
  absurd ((left_eq_nil_iff node 0).mp h) (Nat.not_le_of_lt hb.cur_lt)

/-- A buffer that has just been filled. -/
theorem left_fill (node : BufNode) (buf : Nat → UInt8) (bytes : List UInt8)
    (hbuf : node.buf = fill buf bytes) (hcur : node.cur = 0) (hsize : node.size = bytes.length) :
    node.left 0 = bytes := by
  refine List.ext_getElem ?_ (fun k h _ => ?_)
  · rw [BufNode.left, List.length_map, List.length_range, hcur, hsize]
    rfl
  · rw [BufNode.left, List.length_map, List.length_range, hcur, hsize] at h
    have hk : k < bytes.length := h
    simp only [BufNode.left, List.getElem_map, List.getElem_range, hbuf, hcur, Nat.zero_add, fill,
      if_pos hk, List.getD_eq_getElem?_getD, List.getElem?_eq_getElem hk, Option.getD_some]

theorem bytesOf_cons (chunk : Chunk) (input : List ReadResult) :
    bytesOf (.data chunk :: input) = chunk.bytes ++ bytesOf input := List.flatMap_cons

/-- How the copying loop of a call begins: the node it has, alone in the list,
    and what will be read. -/
structure Begun (s : State) (c : Call) (s₁ : State) (a : Addr) (node : BufNode)
    (input : List ReadResult) : Prop where
  ok : s₁.lost = false
  calls : s₁.calls = s.calls
  first : s₁.first = some a
  cell : s₁.heap a = some node
  fd : node.fd = c.fd
  last : node.next = none
  buffered : Buffered node
  chunks : ∃ chunks : List Chunk, input = chunks.map .data
  hand : atHand s c.fd = node.left 0
  come : toCome s c.fd = node.left 0 ++ bytesOf input

section Begin

variable (s : State) (c : Call) (s' : State) (h : Alone c.fd s) (hs : Step s c s')
include h hs

/-- A call with bytes at hand comes to its copying loop. -/
theorem begun_of_alone (hne : atHand s c.fd ≠ []) :
    ∃ s₁ a node input, Begun s c s₁ a node input ∧
      (finish s₁ c none a node input = some s' ∨
        (finish s₁ c none a node input = none ∧ s' = { s with lost := true })) := by
  rcases h.chunks with ⟨chunks, hchunks⟩
  rcases h.node with hfirst | ⟨a, node, hfirst, ha, hfd, hnext, hb⟩
  · -- The node is made from the first chunk.
    have hheld : held s = none := by rw [held, hfirst, Option.bind_none]
    have hout := step_made s c s' hs [] ⟨hfirst, fun _ h => absurd h List.not_mem_nil,
      List.nodup_nil⟩ (fun _ h => absurd h List.not_mem_nil)
    cases chunks with
    | nil => exact absurd (by rw [atHand, hheld, hchunks]; rfl) hne
    | cons chunk chunks =>
        have hleft : (newNode s c chunk).left 0 = chunk.bytes :=
          left_fill _ c.junk chunk.bytes rfl rfl rfl
        unfold made at hout
        rw [hchunks] at hout
        refine ⟨_, _, _, _, ?_, hout⟩
        refine ⟨h.ok, rfl, rfl, Function.update_self _ _ _, rfl, hfirst,
          buffered_newNode s c chunk, ⟨chunks, rfl⟩, ?_, ?_⟩
        · simp only [atHand, hheld, hchunks, hleft, List.map_cons, List.take_succ_cons,
            List.take_zero, bytesOf_cons]
          exact List.append_nil _
        · simp only [toCome, hheld, hchunks, hleft, List.map_cons, bytesOf_cons]
  · have hheld : held s = some node := by rw [held, hfirst, Option.bind_some, ha]
    refine ⟨s, a, node, s.input c.fd, ?_, ?_⟩
    · refine ⟨h.ok, rfl, hfirst, ha, hfd, hnext, hb, h.chunks, ?_, ?_⟩
      · simp only [atHand, hheld]
      · simp only [toCome, hheld]
    · refine step_found s c s' hs [] [] a node ⟨?_, fun b hmem => ?_, ?_⟩ ha hfd
      · refine ⟨hfirst, ?_⟩
        rw [nextOf, ha, Option.bind_some]
        exact hnext
      · exact ⟨node, List.mem_singleton.mp hmem ▸ ha, hb⟩
      · exact List.nodup_singleton _

/-- A call at the end of the stream. -/
theorem returned_of_alone (hnil : atHand s c.fd = []) : s' = returned s c [] [] (-1) := by
  rcases h.chunks with ⟨chunks, hchunks⟩
  rcases h.node with hfirst | ⟨a, node, hfirst, ha, _, _, hb⟩
  · have hheld : held s = none := by rw [held, hfirst, Option.bind_none]
    have hout := step_made s c s' hs [] ⟨hfirst, fun _ h => absurd h List.not_mem_nil,
      List.nodup_nil⟩ (fun _ h => absurd h List.not_mem_nil)
    cases chunks with
    | nil =>
        unfold made at hout
        rw [hchunks] at hout
        rcases hout with hout | ⟨hout, _⟩
        · exact (Option.some.inj hout).symm
        · exact nomatch hout
    | cons chunk chunks =>
        simp only [atHand, hheld, hchunks, List.map_cons, List.take_succ_cons, bytesOf_cons]
          at hnil
        exact absurd (List.append_eq_nil_iff.mp hnil).1 chunk.ne_nil
  · have hheld : held s = some node := by rw [held, hfirst, Option.bind_some, ha]
    simp only [atHand, hheld] at hnil
    exact absurd hnil (left_ne_nil node hb)

end Begin

/-! ### One call -/

/-- The record of a call that has stored these bytes. -/
def recordOf (c : Call) (stored : List UInt8) : Record := ⟨c.fd, c.n, stored, stored.length⟩

/-- A call whose line ends where the bytes at hand do uses them up. -/
theorem finish_endsAt (s : State) (c : Call) (s₁ : State) (a : Addr) (node : BufNode)
    (input : List ReadResult) (s' : State) (h : Begun s c s₁ a node input)
    (hend : EndsAt newline c.n (node.left 0))
    (hout : finish s₁ c none a node input = some s' ∨
      (finish s₁ c none a node input = none ∧ s' = { s with lost := true })) :
    Alone c.fd s' ∧ s'.calls = s.calls ++ [recordOf c (line newline c.n (node.left 0))] ∧
      toCome s' c.fd = bytesOf input := by
  have hcopy := copy_endsAt node input h.buffered c.n (left_ne_nil node h.buffered) hend
  rcases h.chunks with ⟨_ | ⟨chunk, chunks⟩, hchunks⟩
  · -- Nothing is left to be read, and the node goes.
    rw [hchunks, List.map_nil, refill] at hcopy
    simp only [finish, hchunks, List.map_nil, hcopy, Option.some.injEq, reduceCtorEq, false_and,
      or_false] at hout
    rw [← hout]
    refine ⟨⟨h.ok, ⟨[], Function.update_self _ _ _⟩, Or.inl h.last⟩, ?_, ?_⟩
    · simp only [returned, setNext, h.calls, recordOf]
    · simp only [toCome, held, returned, setNext, h.last, Option.bind_none, Function.update_self,
        hchunks, List.map_nil]
  · rw [hchunks, List.map_cons, refill] at hcopy
    simp only [finish, hchunks, List.map_cons, hcopy, Option.some.injEq, reduceCtorEq, false_and,
      or_false] at hout
    rw [← hout]
    refine ⟨⟨h.ok, ⟨chunks, Function.update_self _ _ _⟩, Or.inr ⟨a, _, h.first,
      Function.update_self _ _ _, h.fd, h.last, List.length_pos_iff.mpr chunk.ne_nil,
      chunk.length_le⟩⟩, ?_, ?_⟩
    · simp only [returned, h.calls, recordOf]
    · simp only [toCome, held, returned, h.first, Option.bind_some, Function.update_self, hchunks,
        List.map_cons, bytesOf_cons]
      rw [left_fill _ node.buf chunk.bytes rfl rfl rfl]

theorem right_of_cut (fd : Int) (stream : List UInt8) (s : State) (hok : s.lost = false)
    (hcut : Cut newline stream (s.calls.map (fun r => (r.n, r.stored))) (toCome s fd))
    (hcounts : ∀ r ∈ s.calls, r.ret = r.stored.length) : Right fd stream s := by
  refine ⟨hok, hcut, hcounts, ?_⟩
  rcases cut_restored newline stream _ _ hcut with ⟨pieces, hflat, hall⟩
  exact ⟨pieces, hflat, List.forall₂_map_left_iff.mp hall⟩

/-- An aligned call reads its line. -/
theorem right_of_aligned (stream : List UInt8) (s : State) (c : Call) (s' : State)
    (halone : Alone c.fd s) (hright : Right c.fd stream s) (haligned : Aligned s c)
    (hs : Step s c s') : Alone c.fd s' ∧ Right c.fd stream s' := by
  rcases begun_of_alone s c s' halone hs haligned.1 with ⟨s₁, a, node, input, hbegun, hout⟩
  have hend := haligned.2
  rw [hbegun.hand] at hend
  rcases finish_endsAt s c s₁ a node input s' hbegun hend hout with ⟨halone', hcalls, hcome⟩
  refine ⟨halone', right_of_cut c.fd stream s' halone'.ok ?_ (fun r hr => ?_)⟩
  · rcases endsAt_taken newline c.n (node.left 0) (bytesOf input) hend with ⟨hline, htaken⟩
    have hcut := cut_concat newline stream _ _ c.n hright.lines
    rw [hbegun.come, hline, htaken, List.drop_left] at hcut
    rw [hcalls, hcome, List.map_append]
    exact hcut
  · rw [hcalls] at hr
    rcases List.mem_append.mp hr with hr | hr
    · exact hright.counts r hr
    · rw [List.mem_singleton.mp hr]
      rfl

/-- A call that reads its line is aligned, unless it goes on after a refill. -/
theorem aligned_of_right (stream : List UInt8) (s : State) (c : Call) (s' : State)
    (hn : 0 < c.n) (halone : Alone c.fd s) (hright : Right c.fd stream s)
    (hs : Step s c s') (hright' : Right c.fd stream s') : Aligned s c ∨ GoesOn s c := by
  by_cases hne : atHand s c.fd = []
  · -- The call returns `-1`.
    rw [returned_of_alone s c s' halone hs hne] at hright'
    have hret : (-1 : Int) = 0 :=
      hright'.counts _ (List.mem_append_right _ (List.mem_singleton_self _))
    exact absurd hret (by decide)
  rcases begun_of_alone s c s' halone hs hne with ⟨s₁, a, node, input, hbegun, hout⟩
  rcases endsAt_or_endsInside_or newline c.n (atHand s c.fd) with hend | hend | ⟨hd, hlen⟩
  · exact Or.inl ⟨hne, hend⟩
  · -- Nothing is used up, although a line is taken.
    rw [hbegun.hand] at hend
    rcases copy_endsInside node input hbegun.buffered c.n hend with ⟨stored, hcopy⟩
    simp only [finish, hcopy, Option.some.injEq, reduceCtorEq, false_and, or_false] at hout
    have hcalls : s'.calls = s.calls ++ [recordOf c stored] := by
      rw [← hout, ← hbegun.calls]
      rfl
    have hcome : toCome s' c.fd = toCome s c.fd := by
      rw [hbegun.come, ← hout]
      simp only [toCome, held, returned, hbegun.first, Option.bind_some, Function.update_self]
    have hcut := hright'.lines
    rw [hcalls, List.map_append, hcome] at hcut
    have hrest : toCome s c.fd = (toCome s c.fd).drop (taken newline c.n (toCome s c.fd)).length :=
      (cut_concat_inv newline stream _ _ _ _ _ hright.lines hcut).2
    have hcomene : toCome s c.fd ≠ [] := by
      rw [hbegun.come]
      exact List.append_ne_nil_of_left_ne_nil (left_ne_nil node hbegun.buffered) _
    have hlen := congrArg List.length (taken_append_drop newline c.n (toCome s c.fd))
    rw [← hrest, List.length_append] at hlen
    exact absurd (List.length_eq_zero_iff.mp (by omega))
      (taken_ne_nil newline c.n _ hn hcomene)
  · refine Or.inr ⟨hd, hlen, fun hall => ?_⟩
    -- There is nothing behind the bytes at hand, and the loop goes on without a node.
    rw [hbegun.come, hbegun.hand] at hall
    rcases hbegun.chunks with ⟨_ | ⟨chunk, chunks⟩, hchunks⟩
    · rw [hbegun.hand] at hd hlen
      obtain ⟨k, hk⟩ : ∃ k, c.n = (node.left 0).length + (k + 1) :=
        ⟨c.n - (node.left 0).length - 1, by omega⟩
      have hcopy := copy_all node input hbegun.buffered (k + 1)
        (left_ne_nil node hbegun.buffered) hd
      rw [← hk, hchunks, List.map_nil, refill, copy] at hcopy
      simp only [finish, hchunks, List.map_nil, hcopy, reduceCtorEq, true_and, false_or] at hout
      exact Bool.false_ne_true (hright'.alive.symm.trans (congrArg State.lost hout))
    · rw [hchunks, List.map_cons, bytesOf_cons] at hall
      have hlen := congrArg List.length hall
      have hpos := List.length_pos_iff.mpr chunk.ne_nil
      rw [List.length_append, List.length_append] at hlen
      omega

/-! ### Whole runs -/

/-- In a run of calls for one descriptor that are all aligned, every call reads
    its line. -/
theorem lines_of_aligned (fd : Int) (chunks : List Chunk) (input : Int → List ReadResult)
    (hinput : input fd = chunks.map .data) (tr : List (Call × State))
    (hrun : AllSteps Step (initial input) tr)
    (hfd : StepsMeet (fun _ c => c.fd = fd) (initial input) tr)
    (haligned : StepsMeet Aligned (initial input) tr) :
    Always (Right fd (chunks.flatMap Chunk.bytes)) (initial input) tr := by
  have hstream : bytesOf (input fd) = chunks.flatMap Chunk.bytes := by
    rw [hinput, bytesOf, List.flatMap_map]
    rfl
  have hright : Right fd (chunks.flatMap Chunk.bytes) (initial input) :=
    right_of_cut fd _ _ rfl hstream (fun _ h => absurd h List.not_mem_nil)
  have hmeet : StepsMeet (fun s c => c.fd = fd ∧ Aligned s c) (initial input) tr :=
    allSteps_and _ tr hfd haligned
  have hstep : ∀ s c s', Alone fd s ∧ Right fd (chunks.flatMap Chunk.bytes) s →
      c.fd = fd ∧ Aligned s c → Step s c s' →
      Alone fd s' ∧ Right fd (chunks.flatMap Chunk.bytes) s' := by
    rintro s c s' ⟨halone, hr⟩ ⟨rfl, hal⟩ hs
    exact right_of_aligned _ s c s' halone hr hal hs
  exact always_mono (fun _ h => h.2) _ tr (always_of_guarded hstep _ tr
    ⟨⟨rfl, ⟨chunks, hinput⟩, Or.inl rfl⟩, hright⟩ hrun hmeet)

/-- A line is read, and then the rest. -/
def wholeChunks : List Call := [⟨5, 10, 1, fun _ => 0⟩, ⟨5, 2, 2, fun _ => 0⟩]

/-- Every chunk ends with a line. -/
def wholeChunksInput : List Chunk :=
  [⟨[97, 98, 10], nofun, by decide⟩, ⟨[99, 100], nofun, by decide⟩]

theorem lines_of_aligned_wholeChunks :
    Always (Right 5 [97, 98, 10, 99, 100]) (initial (fun _ => wholeChunksInput.map .data))
      (record (after 2) (initial (fun _ => wholeChunksInput.map .data)) wholeChunks) := by
  refine lines_of_aligned 5 wholeChunksInput _ rfl _ (allSteps_after 2 _ _ ?_) ?_ ?_
  · exact ⟨⟨⟨rfl, rfl⟩, nofun⟩, ⟨⟨rfl, rfl⟩, nofun⟩, trivial⟩
  · exact ⟨rfl, rfl, trivial⟩
  · exact ⟨⟨nofun, Or.inl ⟨[97, 98], rfl, by decide, by decide⟩⟩,
      ⟨nofun, Or.inr ⟨by decide, rfl⟩⟩, trivial⟩

/-- Two lines are read. -/
def sharedChunk : List Call := [⟨5, 10, 1, fun _ => 0⟩, ⟨5, 10, 2, fun _ => 0⟩]

/-- The lines come in one chunk. -/
def sharedChunkInput : List Chunk := [⟨[97, 10, 98, 10], nofun, by decide⟩]

/-- Both calls return the first line. -/
theorem sharedChunk_repeats :
    AllSteps Step (initial (fun _ => sharedChunkInput.map .data))
        (record (after 2) (initial (fun _ => sharedChunkInput.map .data)) sharedChunk) ∧
      ¬ Always (Right 5 [97, 10, 98, 10]) (initial (fun _ => sharedChunkInput.map .data))
        (record (after 2) (initial (fun _ => sharedChunkInput.map .data)) sharedChunk) := by
  refine ⟨allSteps_after 2 _ _ ?_, fun h => ?_⟩
  · exact ⟨⟨⟨rfl, rfl⟩, nofun⟩, ⟨⟨rfl, rfl⟩, nofun⟩, trivial⟩
  · have hline : [97] = line newline 10 [98, 10] := (always_last _ _ h).lines.2.1
    exact absurd hline (by decide)

end ReadLine

end TlpiPractice
