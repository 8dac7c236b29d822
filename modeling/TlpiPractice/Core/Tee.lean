import TlpiPractice.Library.ByteFile
import TlpiPractice.Library.CString

/-!
# Copying the Standard Input to Files

The program `4-1-tee.c`, which copies its standard input to the files that it
is given, behind what is there if the file comes with the option `-a`.

The result of `write` is not looked at, so bytes that a call has not taken are
left out of the file, and the program goes on and returns zero.

The options are what `getopt` finds, which stops at the first argument that is
none. It is given whether a file can be opened, what every read gives, and
what every write takes.

## Main definitions

* `Opt`: An option.
* `Input`: What the reads give.
* `openTarget`: The opening of a target.
* `optLoop`, `operandLoop`: The loops over the arguments.
* `write`: A call of `write`.
* `writeLoop`: The loop over the targets.
* `readLoop`: The loop over the reads.
* `main`: The program.
-/

namespace TlpiPractice

namespace Tee

open ByteFile

/-- What `getopt` finds. -/
inductive Opt where
  /-- `-a` with a file. -/
  | a (optarg : CString)
  /-- An option that is not known, or lacks its file. -/
  | unknown
  deriving DecidableEq

/-- The blocks that the reads give before the last one, which finds the end of
    the input or fails. -/
structure Input where
  blocks : List (List UInt8)
  fits : ∀ buf ∈ blocks, buf ≠ [] ∧ buf.length ≤ 1024
  failed : Bool

/-- The files by their names. -/
abbrev Files := CString → Option (List UInt8)

/-- What is behind a descriptor. -/
structure Desc where
  file : CString
  append : Bool
  offset : Nat

/-- The entries of `fds` up to `cur`, and the files. -/
structure State where
  fds : List Desc
  files : Files

/-- What `O_CREAT` does to the files, with `O_APPEND` or with `O_TRUNC`. -/
def opened (files : Files) (file : CString) (append : Bool) : Files :=
  Function.update files file (some (if append then (files file).getD [] else []))

/-- The test of `cur` and the call of `Open`, or the files with which the
    program exits. -/
def openTarget (canOpen : CString → Bool) (file : CString) (append : Bool) (s : State) :
    Except Files State :=
  if s.fds.length = 10 then .error s.files
  else if canOpen file then .ok ⟨s.fds ++ [⟨file, append, 0⟩], opened s.files file append⟩
  else .error s.files

/-- The loop over the options. -/
def optLoop (canOpen : CString → Bool) : List Opt → State → Except Files State
  | [], s => .ok s
  | .unknown :: _, s => .error s.files
  | .a optarg :: opts, s =>
      match openTarget canOpen optarg true s with
      | .error files => .error files
      | .ok s => optLoop canOpen opts s

/-- The loop over the other arguments. -/
def operandLoop (canOpen : CString → Bool) : List CString → State → Except Files State
  | [], s => .ok s
  | arg :: operands, s =>
      match openTarget canOpen arg false s with
      | .error files => .error files
      | .ok s => operandLoop canOpen operands s

/-- `write`, which fails or takes some bytes, and no more than there are. -/
def write (result : Option Nat) (buf : List UInt8) (d : Desc) (files : Files) : Desc × Files :=
  match result with
  | none => (d, files)
  | some n =>
      let content := (files d.file).getD []
      let start := if d.append then content.length else d.offset
      ({ d with offset := start + (buf.take n).length },
        Function.update files d.file (some (writeAt content start (buf.take n))))

/-- The loop over the targets from the one with the number `i` on. -/
def writeLoop (result : Nat → Option Nat) (buf : List UInt8) :
    Nat → List Desc → Files → List Desc × Files
  | _, [], files => ([], files)
  | i, d :: fds, files =>
      let (d', files) := write (result i) buf d files
      let (fds', files) := writeLoop result buf (i + 1) fds files
      (d' :: fds', files)

/-- The loop over the reads, from the one with the number `k` on. -/
def readLoop (result : Nat → Nat → Option Nat) :
    Nat → List (List UInt8) → List Desc → Files → Files
  | _, [], _, files => files
  | k, buf :: blocks, fds, files =>
      let (fds, files) := writeLoop (result k) buf 0 fds files
      readLoop result (k + 1) blocks fds files

inductive Outcome where
  /-- `return 0`. -/
  | returned (files : Files)
  /-- `exit(-1)`. -/
  | exited (files : Files)

/-- The program, where `result k i` is what the write of the block `k` to the
    target `i` gives. -/
def main (canOpen : CString → Bool) (opts : List Opt) (operands : List CString) (files : Files)
    (input : Input) (result : Nat → Nat → Option Nat) : Outcome :=
  match optLoop canOpen opts ⟨[], files⟩ with
  | .error files => .exited files
  | .ok s =>
      match operandLoop canOpen operands s with
      | .error files => .exited files
      | .ok s =>
          let files := readLoop result 0 input.blocks s.fds s.files
          if input.failed then .exited files else .returned files

end Tee

end TlpiPractice
