import TlpiPractice.Theory.ReadLine.Lines

/-!
# What the Copying Loop Looks At

When every byte that `readLine` looks at is one that the latest `read` has put
into the buffer of a node that has not been freed.

An index that is too large need not leave the buffer, so there are calls that
return and have still looked at bytes of an earlier `read`, or at bytes that
were never read. `Access.Valid` rules these out as well. What makes the index
too large is that `i` counts the bytes of the whole call while a refill puts
`cur` back to the start of the buffer: after a refill the loop goes on at the
byte whose index is the number of bytes it has passed. So the call is right as
long as every refill that it goes on from brings more bytes than it has passed
so far, which is what `Growing` says. A `read` that returns nothing brings
none, and the node is freed.

## Main definitions

* `Access.Valid`: An access to a byte of the latest `read`.
* `AccessesValid`: All accesses of a call are.
* `Listed`, `Bounded`: The nodes of the list, and that they have bytes left.
* `Growing`: Every refill brings more bytes than have been passed.
* `Supplied`: The reads of a call are growing.

## Theorems

* `copy_eq_none_iff_access`: A loop is undefined when one of its accesses is.
* `copy_ne_none_of_valid`: A loop whose accesses are valid is not.
* `accesses_valid_iff`: The accesses of a loop are valid if its reads grow.
* `readLine_ne_none_of_valid`: A call whose accesses are valid returns.
* `accessesValid_iff`: The accesses of a call are valid if its reads grow.
-/

namespace TlpiPractice

namespace ReadLine

/-- The node has not been freed, and the index is one of the bytes that the
    latest `read` has put into its buffer. -/
def Access.Valid (access : Access) : Prop :=
  ∃ node, access.node = some node ∧ node.cur + access.i < node.size

/-- The node has not been freed, and the index is inside its buffer. -/
def Access.Defined (access : Access) : Prop :=
  ∃ node, access.node = some node ∧ node.cur + access.i < bufSize

/-- Every access of a call is valid. -/
def AccessesValid (s : State) (c : Call) : Prop :=
  ∀ fuel, ∀ access ∈ accessesOf fuel s c, access.Valid

/-- The nodes of the list from `header`. -/
inductive Listed (s : State) : Addr → Prop where
  | first (a : Addr) (h : s.first = some a) : Listed s a
  | next (a b : Addr) (h : Listed s a) (hnext : nextOf s.heap a = some b) : Listed s b

/-- Each node of the list has its `cur` before its `size`, which is what a
    `read` into its buffer has returned. -/
def Bounded (s : State) : Prop := ∀ a node, Listed s a → s.heap a = some node → Buffered node

/-- With `i` bytes passed and these bytes left in the buffer, the loop ends
    among them, at a newline or at `n`, or the next `read` brings more bytes
    than have then been passed, and the same holds from there on. The bytes of
    a refill up to the index are not looked at. -/
inductive Growing (n : Nat) : Nat → List UInt8 → List ReadResult → Prop where
  | line (i : Nat) (bytes : List UInt8) (input : List ReadResult) (h : newline ∈ bytes) :
      Growing n i bytes input
  | limit (i : Nat) (bytes : List UInt8) (input : List ReadResult) (h : n ≤ i + bytes.length) :
      Growing n i bytes input
  | refilled (i : Nat) (bytes : List UInt8) (chunk : Chunk) (input : List ReadResult)
      (h : i + bytes.length < chunk.bytes.length)
      (hrest : Growing n (i + bytes.length) (chunk.bytes.drop (i + bytes.length)) input) :
      Growing n i bytes (.data chunk :: input)

/-- The reads that a call meets are growing, from what is left in the node
    that the search finds, or from the first chunk of a new node. -/
structure Supplied (s : State) (c : Call) : Prop where
  found : ∀ fuel pre a node, search s.heap c.fd fuel none s.first = some (pre, some a) →
    s.heap a = some node → Growing c.n 0 (node.left 0) (s.input c.fd)
  made : ∀ fuel pre chunk input, search s.heap c.fd fuel none s.first = some (pre, none) →
    firstRead (s.input c.fd) = (some chunk, input) → Growing c.n 0 chunk.bytes input

/-! ### The accesses and the loop -/

section Accesses

variable (rem : Nat) (node : BufNode) (input : List ReadResult) (i : Nat)

theorem accesses_stop (h : ¬ (node.cur + i < bufSize ∧ node.buf (node.cur + i) ≠ newline)) :
    accesses (rem + 1) (some node) input i = [⟨some node, i⟩] := by
  rw [accesses, if_neg h]

theorem accesses_pass (h : node.cur + i < bufSize) (hch : node.buf (node.cur + i) ≠ newline) :
    accesses (rem + 1) (some node) input i =
      ⟨some node, i⟩ :: accesses rem (look node input i).1 (look node input i).2 (i + 1) := by
  rw [accesses, if_pos ⟨h, hch⟩]

/-- Every iteration begins with its access. -/
theorem accesses_head (buf : Option BufNode) :
    ∃ l, accesses (rem + 1) buf input i = ⟨buf, i⟩ :: l := by
  cases buf with
  | none => exact ⟨[], rfl⟩
  | some node => exact ⟨_, rfl⟩

/-- At an index that is not valid the loop must end before its access. -/
theorem accesses_valid_iff_zero (buf : Option BufNode) (h : ¬ Access.Valid ⟨buf, i⟩) :
    (∀ access ∈ accesses rem buf input i, access.Valid) ↔ rem = 0 := by
  cases rem with
  | zero => exact ⟨fun _ => rfl, fun _ _ hin => absurd hin List.not_mem_nil⟩
  | succ rem =>
      rcases accesses_head rem input i buf with ⟨l, hl⟩
      rw [hl]
      exact ⟨fun hall => absurd (hall _ List.mem_cons_self) h, fun hz => absurd hz rem.succ_ne_zero⟩

end Accesses

/-- The accesses are those of the loop: it is undefined exactly when one of
    them is. -/
theorem copy_eq_none_iff_access (rem : Nat) (buf : Option BufNode) (input : List ReadResult)
    (stored : List UInt8) :
    copy rem buf input stored = none ↔
      ∃ access ∈ accesses rem buf input stored.length, ¬ access.Defined := by
  induction rem generalizing buf input stored with
  | zero => exact ⟨nofun, fun ⟨_, hin, _⟩ => absurd hin List.not_mem_nil⟩
  | succ rem ih =>
      cases buf with
      | none =>
          refine ⟨fun _ => ⟨⟨none, stored.length⟩, List.mem_singleton_self _, ?_⟩, fun _ => rfl⟩
          exact fun ⟨_, hnode, _⟩ => nomatch hnode
      | some node =>
          by_cases hidx : node.cur + stored.length < bufSize
          · have hdef : Access.Defined ⟨some node, stored.length⟩ := ⟨node, rfl, hidx⟩
            by_cases hch : node.buf (node.cur + stored.length) = newline
            · rw [copy_newline rem node input stored hidx hch,
                accesses_stop rem node input _ (fun h => h.2 hch)]
              refine ⟨nofun, fun ⟨access, hin, hnot⟩ => ?_⟩
              rw [List.mem_singleton.mp hin] at hnot
              exact absurd hdef hnot
            · -- This access is defined, so it is left to those behind it.
              rw [copy_other rem node input stored hidx hch, ih, length_concat,
                accesses_pass rem node input _ hidx hch, List.exists_mem_cons_iff]
              exact ⟨Or.inr, fun h => h.resolve_left (not_not_intro hdef)⟩
          · rw [copy_outside rem node input stored hidx,
              accesses_stop rem node input _ (fun h => hidx h.1)]
            refine ⟨fun _ => ⟨_, List.mem_singleton_self _, fun ⟨node', hnode, hlt⟩ => ?_⟩,
              fun _ => rfl⟩
            rw [← Option.some.inj hnode] at hlt
            exact hidx hlt

/-- A loop whose accesses are valid is not undefined. -/
theorem copy_ne_none_of_valid (rem : Nat) (node : BufNode) (input : List ReadResult)
    (stored : List UInt8) (hb : Buffered node)
    (h : ∀ access ∈ accesses rem (some node) input stored.length, access.Valid) :
    copy rem (some node) input stored ≠ none := by
  induction rem generalizing node input stored with
  | zero => exact nofun
  | succ rem ih =>
      rcases accesses_head rem input stored.length (some node) with ⟨l, hl⟩
      rcases h _ (hl ▸ List.mem_cons_self) with ⟨node', hnode, hlt⟩
      rw [← Option.some.inj hnode] at hlt
      have hidx : node.cur + stored.length < bufSize := Nat.lt_of_lt_of_le hlt hb.size_le
      by_cases hch : node.buf (node.cur + stored.length) = newline
      · rw [copy_newline rem node input stored hidx hch]
        exact nofun
      rw [copy_other rem node input stored hidx hch]
      rw [accesses_pass rem node input _ hidx hch, List.forall_mem_cons] at h
      cases hl : (look node input stored.length).1 with
      | none =>
          -- The loop cannot go on in a freed node, so this was its last byte.
          rw [hl] at h
          have hrem := (accesses_valid_iff_zero rem _ _ none (fun ⟨_, hn, _⟩ => nomatch hn)).mp h.2
          rw [copy_freed, if_pos hrem]
          exact nofun
      | some node₁ =>
          rw [hl] at h
          refine ih node₁ _ _ (look_some node input _ node₁ hb hl).2.2 ?_
          rw [length_concat]
          exact h.2

/-! ### Growing reads -/

section Growing

variable (n i : Nat)

/-- The loop ends among the bytes left, or goes on from a refill. -/
theorem growing_iff (bytes : List UInt8) (input : List ReadResult) :
    Growing n i bytes input ↔ newline ∈ bytes ∨ n ≤ i + bytes.length ∨
      ∃ chunk rest, input = .data chunk :: rest ∧ i + bytes.length < chunk.bytes.length ∧
        Growing n (i + bytes.length) (chunk.bytes.drop (i + bytes.length)) rest := by
  constructor
  · intro h
    cases h with
    | line _ _ _ h => exact Or.inl h
    | limit _ _ _ h => exact Or.inr (Or.inl h)
    | refilled _ _ chunk rest h hrest => exact Or.inr (Or.inr ⟨chunk, rest, rfl, h, hrest⟩)
  · rintro (h | h | ⟨chunk, rest, rfl, h, hrest⟩)
    · exact .line i bytes input h
    · exact .limit i bytes input h
    · exact .refilled i bytes chunk rest h hrest

/-- A byte that is not a newline is passed. -/
theorem growing_cons (x : UInt8) (bytes : List UInt8) (input : List ReadResult)
    (hx : x ≠ newline) : Growing n i (x :: bytes) input ↔ Growing n (i + 1) bytes input := by
  have hlen : i + (x :: bytes).length = i + 1 + bytes.length := by
    rw [List.length_cons, Nat.add_comm bytes.length 1, Nat.add_assoc]
  have hmem : newline ∈ x :: bytes ↔ newline ∈ bytes :=
    ⟨fun h => List.mem_of_ne_of_mem hx.symm h, List.mem_cons_of_mem x⟩
  rw [growing_iff, growing_iff n (i + 1), hlen, hmem]

/-- No bytes are left: the loop is at its limit, or the refill is longer than
    what has been passed. -/
theorem growing_nil (input : List ReadResult) :
    Growing n i [] input ↔ n ≤ i ∨ ∃ chunk rest, input = .data chunk :: rest ∧
      i < chunk.bytes.length ∧ Growing n i (chunk.bytes.drop i) rest := by
  rw [growing_iff, List.length_nil, Nat.add_zero]
  exact ⟨fun h => h.resolve_left List.not_mem_nil, Or.inr⟩

end Growing

/-- The bytes of a buffer that has just been filled, from an index on. -/
theorem left_fill_drop (node : BufNode) (buf : Nat → UInt8) (bytes : List UInt8) (i : Nat)
    (hbuf : node.buf = fill buf bytes) (hcur : node.cur = 0) (hsize : node.size = bytes.length)
    (h : i ≤ bytes.length) : node.left i = bytes.drop i := by
  have hleft := left_fill node buf bytes hbuf hcur hsize
  rw [← List.take_append_drop i bytes] at hleft
  have hat := left_append node 0 _ _ hleft
  rwa [Nat.zero_add, List.length_take_of_le h] at hat

/-- A refill brings a chunk, from the start of the buffer, or frees the
    node. -/
theorem refill_cases (node : BufNode) (input : List ReadResult) :
    (∃ chunk rest node', input = .data chunk :: rest ∧ refill node input = (some node', rest) ∧
        node'.cur = 0 ∧ node'.size = chunk.bytes.length ∧
          node'.buf = fill node.buf chunk.bytes) ∨
      ((∀ chunk rest, input ≠ .data chunk :: rest) ∧ (refill node input).1 = none) := by
  cases input with
  | nil => exact Or.inr ⟨nofun, rfl⟩
  | cons r input =>
      cases r with
      | data chunk => exact Or.inl ⟨chunk, input, _, rfl, rfl, rfl, rfl, rfl⟩
      | eof => exact Or.inr ⟨nofun, rfl⟩
      | intr => exact Or.inr ⟨nofun, rfl⟩
      | fail => exact Or.inr ⟨nofun, rfl⟩

/-! ### Valid accesses -/

/-- The accesses after a refill, given those in a chunk that is long enough. -/
theorem accesses_refill_iff (rem : Nat) (node : BufNode) (input : List ReadResult) (i : Nat)
    (hchunk : ∀ node' rest, (refill node input).1 = some node' → node'.cur + i < node'.size →
      ((∀ access ∈ accesses rem (some node') rest i, access.Valid) ↔
        Growing (i + rem) i (node'.left i) rest)) :
    (∀ access ∈ accesses rem (refill node input).1 (refill node input).2 i, access.Valid) ↔
      Growing (i + rem) i [] input := by
  have hrem : i + rem ≤ i ↔ rem = 0 := by omega
  rw [growing_nil, hrem]
  rcases refill_cases node input with ⟨chunk, rest, node', hin, hr, hcur, hsize, hbuf⟩ | ⟨hnot, hr⟩
  · rw [hr]
    by_cases hi : i < chunk.bytes.length
    · have hvalid : node'.cur + i < node'.size := by rwa [hcur, hsize, Nat.zero_add]
      rw [hchunk node' rest (congrArg Prod.fst hr) hvalid,
        left_fill_drop node' node.buf chunk.bytes i hbuf hcur hsize (Nat.le_of_lt hi)]
      constructor
      · intro h
        exact Or.inr ⟨chunk, rest, hin, hi, h⟩
      · rintro (h | ⟨chunk', rest', hin', _, h⟩)
        · rw [h, Nat.add_zero]
          exact .limit _ _ _ (Nat.le_add_right i _)
        · rcases List.cons.inj (hin.symm.trans hin') with ⟨hc, hrest⟩
          rw [ReadResult.data.inj hc, hrest]
          exact h
    · -- The chunk is not longer than what has been passed.
      have hstale : ¬ Access.Valid ⟨some node', i⟩ := by
        rintro ⟨node₁, hnode, hlt⟩
        rw [← Option.some.inj hnode, hcur, hsize, Nat.zero_add] at hlt
        exact hi hlt
      rw [accesses_valid_iff_zero rem rest i _ hstale]
      refine ⟨Or.inl, fun h => h.resolve_right ?_⟩
      rintro ⟨chunk', rest', hin', hlt, _⟩
      rw [ReadResult.data.inj (List.cons.inj (hin'.symm.trans hin)).1] at hlt
      exact hi hlt
  · rw [hr, accesses_valid_iff_zero rem _ i none (fun ⟨_, hnode, _⟩ => nomatch hnode)]
    exact ⟨Or.inl, fun h => h.resolve_right (fun ⟨chunk, rest, hin, _⟩ => hnot chunk rest hin)⟩

/-- The accesses of the loop from a valid one on are all valid exactly when the
    reads to come are growing. -/
theorem accesses_valid_iff (rem : Nat) (node : BufNode) (input : List ReadResult) (i : Nat)
    (hlt : node.cur + i < node.size) (hb : Buffered node) :
    (∀ access ∈ accesses rem (some node) input i, access.Valid) ↔
      Growing (i + rem) i (node.left i) input := by
  induction rem generalizing node input i with
  | zero =>
      refine ⟨fun _ => .limit _ _ _ (Nat.le_add_right i _), fun _ _ hin => ?_⟩
      exact absurd hin List.not_mem_nil
  | succ rem ih =>
      have hvalid : Access.Valid ⟨some node, i⟩ := ⟨node, rfl, hlt⟩
      -- The access is to the first of the bytes left.
      obtain ⟨x, bytes, hleft⟩ : ∃ x bytes, node.left i = x :: bytes :=
        List.exists_cons_of_ne_nil fun h =>
          absurd ((left_eq_nil_iff node i).mp h) (Nat.not_le_of_lt hlt)
      rcases left_cons node i x bytes hleft with ⟨_, hx, hrest⟩
      by_cases hch : x = newline
      · -- The loop ends here, whatever the refill has brought.
        rw [accesses_stop rem node input i (fun h => h.2 (hx.trans hch)), List.forall_mem_singleton,
          hleft, hch]
        exact ⟨fun _ => .line _ _ _ List.mem_cons_self, fun _ => hvalid⟩
      · rw [accesses_pass rem node input i (Nat.lt_of_lt_of_le hlt hb.size_le)
          (fun h => hch (hx.symm.trans h)), List.forall_mem_cons, hleft,
          growing_cons _ _ _ _ _ hch, ← Nat.add_assoc, Nat.add_right_comm]
        refine Iff.trans ⟨fun h => h.2, fun h => ⟨hvalid, h⟩⟩ ?_
        cases bytes with
        | nil =>
            -- It was the last one, and the loop goes on in what `read` brings.
            rw [look_last node input i hrest]
            exact accesses_refill_iff rem node input (i + 1) (fun node' rest hr hlt' =>
              ih node' rest (i + 1) hlt' (refill_some node input node' hr).2.2)
        | cons y bytes =>
            have hnext := (left_cons node (i + 1) y bytes hrest).1
            rw [look_inside node input i (hrest ▸ List.cons_ne_nil y bytes), ← hrest]
            exact ih node input (i + 1) hnext hb

/-- The accesses of a loop that starts with a node that has bytes left. -/
theorem accesses_start_iff (rem : Nat) (node : BufNode) (input : List ReadResult)
    (hb : Buffered node) :
    (∀ access ∈ accesses rem (some node) input 0, access.Valid) ↔
      Growing rem 0 (node.left 0) input := by
  have h := accesses_valid_iff rem node input 0 hb.cur_lt hb
  rwa [Nat.zero_add] at h

/-! ### Calls -/

/-- What the search finds is a node of the list. -/
theorem listed_of_search (s : State) (fd : Int) (fuel : Nat) (pre p pre' : Option Addr) (a : Addr)
    (hp : ∀ b, p = some b → Listed s b)
    (h : search s.heap fd fuel pre p = some (pre', some a)) :
    Listed s a ∧ ∃ node, s.heap a = some node := by
  induction fuel generalizing pre p with
  | zero => exact nomatch h
  | succ fuel ih =>
      cases p with
      | none => exact nomatch h
      | some b =>
          cases hn : s.heap b with
          | none => simp only [search, hn, reduceCtorEq] at h
          | some node =>
              simp only [search, hn] at h
              by_cases hfd : node.fd = fd
              · rw [if_pos hfd, Option.some.injEq, Prod.mk.injEq, Option.some.injEq] at h
                rw [← h.2]
                exact ⟨hp b rfl, node, hn⟩
              · rw [if_neg hfd] at h
                refine ih (some b) node.next (fun b' hb' => ?_) h
                exact .next b b' (hp b rfl) (by rw [nextOf, hn, Option.bind_some, hb'])

section Call

variable (s : State) (c : Call) (fuel : Nat) (pre : Option Addr)

/-- The node that a call finds has bytes left, as all nodes of the list have. -/
theorem buffered_found (hs : Bounded s) (a : Addr) (node : BufNode)
    (h : search s.heap c.fd fuel none s.first = some (pre, some a)) (ha : s.heap a = some node) :
    Buffered node :=
  hs a node (listed_of_search s c.fd fuel none _ pre a (fun b hb => .first b hb) h).1 ha

theorem accessesOf_found (a : Addr) (node : BufNode)
    (h : search s.heap c.fd fuel none s.first = some (pre, some a)) (ha : s.heap a = some node) :
    accessesOf fuel s c = accesses c.n (some node) (s.input c.fd) 0 := by
  simp only [accessesOf, h, ha]

theorem accessesOf_made (chunk : Chunk) (input : List ReadResult)
    (h : search s.heap c.fd fuel none s.first = some (pre, none))
    (hread : firstRead (s.input c.fd) = (some chunk, input)) :
    accessesOf fuel s c = accesses c.n (some (newNode s c chunk)) input 0 := by
  simp only [accessesOf, h, hread]

/-- A call with an access has come to its loop. -/
theorem accessesOf_cases (access : Access) (hin : access ∈ accessesOf fuel s c) :
    (∃ pre a node, search s.heap c.fd fuel none s.first = some (pre, some a) ∧
        s.heap a = some node) ∨
      ∃ pre chunk input, search s.heap c.fd fuel none s.first = some (pre, none) ∧
        firstRead (s.input c.fd) = (some chunk, input) := by
  cases h : search s.heap c.fd fuel none s.first with
  | none =>
      simp only [accessesOf, h] at hin
      exact absurd hin List.not_mem_nil
  | some r =>
      rcases r with ⟨pre, _ | a⟩
      · cases hread : firstRead (s.input c.fd) with
        | mk first input =>
            cases first with
            | none =>
                simp only [accessesOf, h, hread] at hin
                exact absurd hin List.not_mem_nil
            | some chunk => exact Or.inr ⟨pre, chunk, input, rfl, rfl⟩
      · cases ha : s.heap a with
        | none =>
            simp only [accessesOf, h, ha] at hin
            exact absurd hin List.not_mem_nil
        | some node => exact Or.inl ⟨pre, a, node, rfl, ha⟩

end Call

/-- A call whose accesses are valid is not lost in its loop: it returns as soon
    as its search ends. -/
theorem readLine_ne_none_of_valid (s : State) (c : Call) (fuel : Nat) (hs : Bounded s)
    (hvalid : AccessesValid s c) (hsearch : search s.heap c.fd fuel none s.first ≠ none) :
    readLine fuel s c ≠ none := by
  have hfinish : ∀ s₁ pre a node input, Buffered node →
      (∀ access ∈ accesses c.n (some node) input 0, access.Valid) →
      finish s₁ c pre a node input ≠ none := by
    intro s₁ pre a node input hb hall hnone
    have hserved := (finish_eq_none_iff s₁ c pre a node input).mp hnone
    exact copy_ne_none_of_valid c.n node input [] hb hall
      ((copy_eq_none_iff c.n node input []).mpr hserved)
  rcases Option.ne_none_iff_exists'.mp hsearch with ⟨⟨pre, _ | a⟩, h⟩
  · cases hread : firstRead (s.input c.fd) with
    | mk first input =>
        cases first with
        | none =>
            simp only [readLine, h, hread]
            exact Option.some_ne_none _
        | some chunk =>
            simp only [readLine, h, hread]
            refine hfinish _ pre _ _ input (buffered_newNode s c chunk) ?_
            rw [← accessesOf_made s c fuel pre chunk input h hread]
            exact hvalid fuel
  · rcases listed_of_search s c.fd fuel none _ pre a (fun b hb => .first b hb) h with
      ⟨_, node, ha⟩
    simp only [readLine, h, ha]
    refine hfinish s pre a node _ (buffered_found s c fuel pre hs a node h ha) ?_
    rw [← accessesOf_found s c fuel pre a node h ha]
    exact hvalid fuel

/-- Every access of a call is valid if and only if the reads that it meets are
    growing. -/
theorem accessesValid_iff (s : State) (c : Call) (hs : Bounded s) :
    AccessesValid s c ↔ Supplied s c := by
  have hnew : ∀ chunk, (newNode s c chunk).left 0 = chunk.bytes := fun chunk =>
    left_fill _ c.junk chunk.bytes rfl rfl rfl
  constructor
  · intro hvalid
    refine ⟨fun fuel pre a node h ha => ?_, fun fuel pre chunk input h hread => ?_⟩
    · rw [← accesses_start_iff c.n node _ (buffered_found s c fuel pre hs a node h ha),
        ← accessesOf_found s c fuel pre a node h ha]
      exact hvalid fuel
    · rw [← hnew chunk, ← accesses_start_iff c.n _ _ (buffered_newNode s c chunk),
        ← accessesOf_made s c fuel pre chunk input h hread]
      exact hvalid fuel
  · intro hsup fuel access hin
    rcases accessesOf_cases s c fuel access hin with
      ⟨pre, a, node, h, ha⟩ | ⟨pre, chunk, input, h, hread⟩
    · rw [accessesOf_found s c fuel pre a node h ha] at hin
      exact (accesses_start_iff c.n node _ (buffered_found s c fuel pre hs a node h ha)).mpr
        (hsup.found fuel pre a node h ha) access hin
    · rw [accessesOf_made s c fuel pre chunk input h hread] at hin
      refine (accesses_start_iff c.n _ _ (buffered_newNode s c chunk)).mpr ?_ access hin
      rw [hnew chunk]
      exact hsup.made fuel pre chunk input h hread

/-- Descriptor `3` has one byte left, an `a`. -/
def oneByteLeft (input : List ReadResult) : State :=
  { heap := fun a => if a = 1 then some ⟨3, 0, 1, fun _ => 97, none⟩ else none
    first := some 1
    input := fun _ => input
    lost := false
    calls := [] }

/-- A call for at most so many bytes from it. -/
def fromThree (n : Nat) : Call := ⟨3, n, 2, fun _ => 0⟩

theorem bounded_oneByteLeft (input : List ReadResult) : Bounded (oneByteLeft input) := by
  intro a node _ ha
  simp only [oneByteLeft, Option.ite_none_right_eq_some, Option.some.injEq] at ha
  rw [← ha.2]
  exact ⟨Nat.one_pos, by decide⟩

/-- A refill with three bytes: the second and the third are looked at. -/
theorem accessesValid_iff_threeBytes :
    AccessesValid (oneByteLeft [dataOf 98 [99, 100] (by decide)]) (fromThree 3) := by
  refine (accessesValid_iff _ _ (bounded_oneByteLeft _)).mpr ⟨?_, ?_⟩
  · intro fuel pre a node hsearch ha
    have hnode := (Option.ite_none_right_eq_some.mp ha).2
    rw [← Option.some.inj hnode]
    exact .refilled 0 [97] _ [] (by decide) (.limit 1 [99, 100] [] (by decide))
  · intro fuel pre chunk input hsearch _
    cases fuel with
    | zero => exact nomatch hsearch
    | succ fuel => exact absurd (Prod.mk.inj (Option.some.inj hsearch)).2 nofun

/-- With two bytes asked for and one left, a refill with one byte is looked at
    behind its end, and a node that the end of the file has freed is looked at
    as well. -/
theorem oneByteLeft_invalid :
    (Bounded (oneByteLeft [dataOf 98 [] (by decide)]) ∧
      ¬ AccessesValid (oneByteLeft [dataOf 98 [] (by decide)]) (fromThree 2)) ∧
    (Bounded (oneByteLeft [.eof]) ∧ ¬ AccessesValid (oneByteLeft [.eof]) (fromThree 2)) := by
  refine ⟨⟨bounded_oneByteLeft _, fun h => ?_⟩, ⟨bounded_oneByteLeft _, fun h => ?_⟩⟩
  · rcases h 1 _ (List.mem_cons_of_mem _ List.mem_cons_self) with ⟨node, hnode, hlt⟩
    rw [← Option.some.inj hnode] at hlt
    exact absurd hlt (by decide)
  · rcases h 1 _ (List.mem_cons_of_mem _ List.mem_cons_self) with ⟨node, hnode, _⟩
    exact nomatch hnode

end ReadLine

end TlpiPractice
