import Mathlib.Logic.Function.Basic

/-!
# Buffered Line Reading

The `readLine` of `59-1-readLine.c`. For every descriptor that is read from it
keeps a node with a buffer of `BUF_SIZE` bytes, in a list that begins at
`header`. A call looks for the node of its descriptor, makes one in front of
the list when there is none, and copies bytes out of its buffer until a
newline or until it has `n` of them. When it looks at the last byte of the
buffer it reads the next ones into it, and when there are none it takes the
node out of the list and frees it.

Three things about the loop matter and are kept as they are. The index `i`
into the buffer goes on after a refill, although `cur` goes back to zero. `cur`
is set by refills only and not by the end of a call. And a node that has been
freed is looked at again if the loop goes on. The predecessor used to take
the node out is the one that the search ended with; a search that found
nothing ended with the last node.

Nodes live at addresses that `malloc` chooses, with whatever bytes are there.
A node and its buffer are allocated and freed together and are one cell here.
Using an address that is not allocated, or an index outside the buffer, is
undefined, and a process that has got there is `lost`, as is one whose search
never ends. `malloc` itself does not fail.

What `read` will return on each descriptor is part of the state, as a list
that each `read` takes an element of. After its end there is nothing more.

The log of calls records what each of them has been given and has returned,
and no call looks at it.

`accesses` runs the copying loop once more, for the places in the buffers that
it reads from.

## Main definitions

* `ReadResult`: What a `read` returns.
* `BufNode`: A node with its buffer.
* `State`: The list and what is still to be read.
* `search`: The loop that looks for a node.
* `refill`: The `read` in the copying loop.
* `look`, `copy`: The copying loop.
* `readLine`: A call.
* `accesses`, `accessesOf`: What the copying loop looks at.
* `Step`: A call, with the case that it goes wrong.
-/

namespace TlpiPractice

namespace ReadLine

/-- `BUF_SIZE`. -/
def bufSize : Nat := 4096

/-- `'\n'`. -/
def newline : UInt8 := 10

/-- Bytes that one `read` can return. -/
structure Chunk where
  bytes : List UInt8
  ne_nil : bytes ≠ []
  length_le : bytes.length ≤ bufSize

/-- What a `read` returns: some bytes, the end of the file, or `-1`, with
    `EINTR` or with another error. -/
inductive ReadResult where
  | data (chunk : Chunk)
  | eof
  | intr
  | fail

/-- The address of a node. -/
abbrev Addr := Nat

/-- `struct buf_node`. -/
structure BufNode where
  fd : Int
  cur : Nat
  size : Nat
  buf : Nat → UInt8
  next : Option Addr

/-- A call, as the log has it. -/
structure Record where
  fd : Int
  n : Nat
  stored : List UInt8
  ret : Int
  deriving DecidableEq

structure State where
  /-- The nodes allocated. -/
  heap : Addr → Option BufNode
  /-- `header->next`. -/
  first : Option Addr
  /-- What `read` will return on each descriptor. -/
  input : Int → List ReadResult
  /-- Something undefined has happened, or a call has not returned. -/
  lost : Bool
  calls : List Record

/-- A call: its descriptor and limit, and where and with what bytes `malloc`
    would make a node for it. -/
structure Call where
  fd : Int
  n : Nat
  addr : Addr
  junk : Nat → UInt8

/-- The link of a node. -/
def nextOf (heap : Addr → Option BufNode) (a : Addr) : Option Addr := (heap a).bind BufNode.next

/-- A buffer after a `read` into it. -/
def fill (buf : Nat → UInt8) (bytes : List UInt8) (k : Nat) : UInt8 :=
  if k < bytes.length then bytes.getD k 0 else buf k

/-- The search: the predecessor it ends with, where no address means the
    header, and the node it has found. It ends without a result at an address
    that is not allocated. -/
def search (heap : Addr → Option BufNode) (fd : Int) :
    Nat → Option Addr → Option Addr → Option (Option Addr × Option Addr)
  | 0, _, _ => none
  | _ + 1, pre, none => some (pre, none)
  | fuel + 1, pre, some a =>
      match heap a with
      | none => none
      | some node =>
          -- `pre` follows `buf` one node behind.
          if node.fd = fd then some (pre, some a) else search heap fd fuel (some a) node.next

/-- The first `read` of a new node, repeated as long as it is interrupted. -/
def firstRead : List ReadResult → Option Chunk × List ReadResult
  | [] => (none, [])
  -- Only this `read` is repeated after `EINTR`.
  | .intr :: input => firstRead input
  | .data chunk :: input => (some chunk, input)
  | .eof :: input => (none, input)
  | .fail :: input => (none, input)

/-- The `read` in the copying loop. It gives no node when the node is freed. -/
def refill (node : BufNode) : List ReadResult → Option BufNode × List ReadResult
  | .data chunk :: input =>
      (some { node with
        buf := fill node.buf chunk.bytes, size := chunk.bytes.length, cur := 0 }, input)
  -- The end of the file and any error, `EINTR` included, free the node.
  | _ :: input => (none, input)
  | [] => (none, [])

/-- The node after the byte that `i` leads to has been looked at: the last byte
    makes room for the next ones. -/
def look (node : BufNode) (input : List ReadResult) (i : Nat) :
    Option BufNode × List ReadResult :=
  if node.size ≤ node.cur + i + 1 then refill node input else (some node, input)

/-- The copying loop, with the iterations left, the node unless it has been
    freed, and what has been stored, which is as much as `i` says. -/
def copy : Nat → Option BufNode → List ReadResult → List UInt8 →
    Option (Option BufNode × List ReadResult × List UInt8)
  | 0, buf, input, stored => some (buf, input, stored)
  -- The loop goes on in a node that has been freed.
  | _ + 1, none, _, _ => none
  | rem + 1, some node, input, stored =>
      let i := stored.length
      if node.cur + i < bufSize then
        let ch := node.buf (node.cur + i)
        -- The buffer is refilled before the byte itself is looked at.
        let r := look node input i
        if ch = newline then some (r.1, r.2, stored) else copy rem r.1 r.2 (stored ++ [ch])
      else none

/-- `pre->next = x`. -/
def setNext (s : State) (pre x : Option Addr) : State :=
  match pre with
  | none => { s with first := x }
  | some p =>
      { s with heap := Function.update s.heap p ((s.heap p).map (fun m => { m with next := x })) }

/-- The call returns `ret`, after `input` has been left unread. -/
def returned (s : State) (c : Call) (input : List ReadResult) (stored : List UInt8) (ret : Int) :
    State :=
  { s with
    input := Function.update s.input c.fd input
    calls := s.calls ++ [⟨c.fd, c.n, stored, ret⟩] }

/-- The rest of a call once it has its node: the copying loop, and the effects
    of it on the list. A node that has been freed is taken out through the
    predecessor. -/
def finish (s : State) (c : Call) (pre : Option Addr) (a : Addr) (node : BufNode)
    (input : List ReadResult) : Option State :=
  match copy c.n (some node) input [] with
  | none => none
  | some (some node', input', stored) =>
      -- `cur` is left as the last refill has set it.
      some (returned { s with heap := Function.update s.heap a (some node') } c input' stored
        stored.length)
  | some (none, input', stored) =>
      -- `pre` comes from the search, whether or not the node was made since.
      let cut := setNext s pre node.next
      some (returned { cut with heap := Function.update cut.heap a none } c input' stored
        stored.length)

/-- The node made for a descriptor, with what the first `read` returned. -/
def newNode (s : State) (c : Call) (chunk : Chunk) : BufNode :=
  { fd := c.fd
    cur := 0
    size := chunk.bytes.length
    buf := fill c.junk chunk.bytes
    next := s.first }

/-- The node is put in front of the list. -/
def created (s : State) (c : Call) (chunk : Chunk) : State :=
  { s with
    heap := Function.update s.heap c.addr (some (newNode s c chunk))
    first := some c.addr }

/-- `readLine`, with a bound on the steps of the search. -/
def readLine (fuel : Nat) (s : State) (c : Call) : Option State :=
  match search s.heap c.fd fuel none s.first with
  | none => none
  | some (pre, some a) =>
      match s.heap a with
      | none => none
      | some node => finish s c pre a node (s.input c.fd)
  | some (pre, none) =>
      match firstRead (s.input c.fd) with
      | (none, input) => some (returned s c input [] (-1))
      | (some chunk, input) =>
          finish (created s c chunk) c pre c.addr (newNode s c chunk) input

/-- A use of `buf->buf[buf->cur + i]`: the node, unless it has been freed, and
    `i`. -/
structure Access where
  node : Option BufNode
  i : Nat

/-- The accesses of the copying loop, in their order. The last one is the one
    to a newline, or one that is undefined, unless the iterations run out. -/
def accesses : Nat → Option BufNode → List ReadResult → Nat → List Access
  | 0, _, _, _ => []
  | _ + 1, none, _, i => [⟨none, i⟩]
  | rem + 1, some node, input, i =>
      ⟨some node, i⟩ ::
        if node.cur + i < bufSize ∧ node.buf (node.cur + i) ≠ newline then
          accesses rem (look node input i).1 (look node input i).2 (i + 1)
        else []

/-- The accesses of a call, with a bound on the steps of the search. A call
    that does not come to its copying loop has none. -/
def accessesOf (fuel : Nat) (s : State) (c : Call) : List Access :=
  match search s.heap c.fd fuel none s.first with
  | none => []
  | some (_, some a) =>
      match s.heap a with
      | none => []
      | some node => accesses c.n (some node) (s.input c.fd) 0
  | some (_, none) =>
      match firstRead (s.input c.fd) with
      | (none, _) => []
      | (some chunk, input) => accesses c.n (some (newNode s c chunk)) input 0

/-- A call happens in a process that is not lost, and `malloc` gives it an
    address that is free. -/
def Enabled (s : State) (c : Call) : Prop := s.lost = false ∧ s.heap c.addr = none

/-- A call returns, or the process is lost in it. -/
def Step (s : State) (c : Call) (s' : State) : Prop :=
  Enabled s c ∧ ((∃ fuel, readLine fuel s c = some s') ∨
    ((∀ fuel, readLine fuel s c = none) ∧ s' = { s with lost := true }))

/-- Before the first call. -/
def initial (input : Int → List ReadResult) : State :=
  { heap := fun _ => none, first := none, input := input, lost := false, calls := [] }

end ReadLine

end TlpiPractice
