import Mathlib.Data.List.GetD
import TlpiPractice.Core.PrintTree
import TlpiPractice.Library.CString
import TlpiPractice.Library.Ints
import TlpiPractice.Library.Words

/-!
# Showing File Events

The loop of `19-1-file_monitor.c` that shows what happens to the files it
watches. A `read` puts any number of events into the buffer, each of them a
header and a name, and the inner loop goes from one event to the next by the
length that is in the header.

The buffer is global and keeps what earlier reads have put into it behind the
bytes of the last one. What an event has behind its header is read up to a
NUL, and only if its length is not zero. There is no result if a header or a
name goes over the end of the buffer.

The list of the watched directories, which nothing looks at, is left out.

## Main definitions

* `Event`: `struct inotify_event`.
* `displayInotifyEvent`: What is printed for an event.
* `eventAt`: The event at a place in the buffer.
* `forLoop`: The loop over the buffer.
* `readLoop`: The loop over the reads.
* `shown`: What the program prints.
-/

namespace TlpiPractice

namespace FileMonitor

open Ints Words

/-- `sizeof(struct inotify_event)`. -/
def headerSize : Nat := 16

/-- `BUF_LEN`, where `NAME_MAX` is 255. -/
def bufLen : Nat := 10 * (headerSize + 255 + 1)

/-- `struct inotify_event`, with the string at `name`. -/
structure Event where
  wd : Int
  mask : Nat
  cookie : Nat
  len : Nat
  name : List UInt8
  deriving DecidableEq

/-- A string of the source. -/
def ascii (s : String) : List UInt8 := s.toList.map (fun c => UInt8.ofNat c.toNat)

/-- `"%Nd"` for a width `N`. -/
def padded (width : Nat) (x : Int) : List UInt8 :=
  List.replicate (width - (ProcessTree.decimal x).length) 32 ++ ProcessTree.decimal x

/-- The bits of a mask, in the order in which they are tested. -/
def maskNames : List (Nat × String) :=
  [(0x1, "IN_ACCESS "), (0x4, "IN_ATTRIB "), (0x10, "IN_CLOSE_NOWRITE "),
    (0x8, "IN_CLOSE_WRITE "), (0x100, "IN_CREATE "), (0x200, "IN_DELETE "),
    (0x400, "IN_DELETE_SELF "), (0x8000, "IN_IGNORED "), (0x40000000, "IN_ISDIR "),
    (0x2, "IN_MODIFY "), (0x800, "IN_MOVE_SELF "), (0x40, "IN_MOVED_FROM "),
    (0x80, "IN_MOVED_TO "), (0x20, "IN_OPEN "), (0x4000, "IN_Q_OVERFLOW "),
    (0x2000, "IN_UNMOUNT ")]

/-- The names of the bits that are set. -/
def maskText (mask : Nat) : List UInt8 :=
  (maskNames.map (fun p => if mask &&& p.1 ≠ 0 then ascii p.2 else [])).flatten

/-- What is printed for an event. -/
def displayInotifyEvent (i : Event) : List UInt8 :=
  ascii "    wd =" ++ padded 2 i.wd ++ ascii "; " ++
    (if 0 < i.cookie then ascii "cookie =" ++ padded 4 (wrap i.cookie) ++ ascii "; " else []) ++
    ascii "mask = " ++ maskText i.mask ++ ascii "\n" ++
    (if 0 < i.len then ascii "        name = " ++ i.name ++ ascii "\n" else [])

/-- The event at `p`, unless a part of it that is looked at is outside the
    buffer. -/
def eventAt (buffer : List UInt8) (p : Nat) : Option Event :=
  let memory : Memory := fun i => buffer.getD i 0
  let behind := buffer.drop (p + headerSize)
  if buffer.length < p + headerSize then none
  else
    let event := fun name =>
      { wd := wrap (getWord memory p)
        mask := getWord memory (p + 4)
        cookie := getWord memory (p + 8)
        len := getWord memory (p + 12)
        name := name : Event }
    if getWord memory (p + 12) = 0 then some (event [])
    else if 0 ∈ behind then some (event (CString.str behind))
    else none

/-- What is printed from `p` on, if that is not at the end of what was read. -/
def forLoop (buffer : List UInt8) (readNum p : Nat) : Option (List UInt8) :=
  if p < readNum then
    match eventAt buffer p with
    | none => none
    | some event =>
        (forLoop buffer readNum (p + (headerSize + event.len))).map
          (fun printed => displayInotifyEvent event ++ printed)
  else some []
termination_by readNum - p
decreasing_by
  unfold headerSize
  omega

/-- What is printed when the reads give these bytes, one after the other. None
    of them can give more than there is room for. -/
def readLoop : List UInt8 → List (List UInt8) → Option (List UInt8)
  | _, [] => some []
  | buffer, bytes :: reads =>
      if bufLen < bytes.length then none
      else
        -- What an earlier read has left behind these bytes stays.
        let buffer := bytes ++ buffer.drop bytes.length
        match forLoop buffer bytes.length 0 with
        | none => none
        | some printed => (readLoop buffer reads).map (fun rest => printed ++ rest)

/-- What the program prints until these reads are over. -/
def shown (reads : List (List UInt8)) : Option (List UInt8) :=
  readLoop (List.replicate bufLen 0) reads

end FileMonitor

end TlpiPractice
