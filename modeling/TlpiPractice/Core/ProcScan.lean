import TlpiPractice.Core.ProcessTree
import TlpiPractice.Core.ShowUserProcs

/-!
# Scanning the Processes

The loop of `main` in `12-2-print_process_tree.c` that goes through `/proc`,
reads the status file of every process and makes a node for it.

The array for the path is the one that is read into. So behind a short read
there is what is left of the path, and there is no NUL behind a full one. The
pid, the parent's pid and the name are taken from where `Pid:`, `PPid:` and
`Name:` are in it first. Nothing is asked about what is found: there is no
result if a tag or the newline behind the name is missing, or if a pid is
beyond the array of nodes.

No read fails. An entry whose status file cannot be opened is left out, and so
are `self` and `thread-self`.

## Main definitions

* `statusPath`: The array with the path in it.
* `fieldsIn`: What is taken from the array.
* `scan`: The loop.
-/

namespace TlpiPractice

namespace ProcessTree

open ShowUserProcs

/-- `"Pid:"`. -/
def pidTag : List UInt8 := [80, 105, 100, 58]

/-- `"PPid:"`. -/
def ppidTag : List UInt8 := 80 :: pidTag

/-- `"self"`. -/
def selfName : List UInt8 := [115, 101, 108, 102]

/-- `"thread-self"`. -/
def threadSelf : List UInt8 := [116, 104, 114, 101, 97, 100, 45] ++ selfName

/-- An entry of `/proc`, with what is in its status file if that can be
    opened. -/
structure DirEntry where
  dName : List UInt8
  status : Option (List UInt8)

/-- `sizeof(buffer)`. -/
def bufferSize : Nat := 1024

/-- The array with `"/proc/%s/status"` in it, and zeros. -/
def statusPath (dName : List UInt8) : List UInt8 :=
  let path := [47, 112, 114, 111, 99, 47] ++ dName ++ [47, 115, 116, 97, 116, 117, 115]
  let string := path.take (bufferSize - 1)
  string ++ List.replicate (bufferSize - string.length) 0

/-- The array after the read. -/
def readInto (buffer file : List UInt8) : List UInt8 :=
  file.take bufferSize ++ buffer.drop (file.take bufferSize).length

/-- The name, up to where `strchr` has found a newline that is replaced by a
    NUL, with `Name:` looked for once more. -/
def nameIn (buffer : List UInt8) : Option (List UInt8) :=
  match found nameTag buffer with
  | none => none
  | some at' =>
      let text := at'.drop 6
      let name := (CString.str text).takeWhile (fun b => decide (b ≠ 10))
      if name.length = (CString.str text).length then none
      else
        let cut := buffer.set (buffer.length - text.length + name.length) 0
        (found nameTag cut).bind (fun at' => stringAt (at'.drop 6))

/-- The pid, the parent's pid and the name. -/
def fieldsIn (buffer : List UInt8) : Option (Int × Int × List UInt8) :=
  match (found pidTag buffer).bind (fun at' => atoi (at'.drop 5)),
    (found ppidTag buffer).bind (fun at' => atoi (at'.drop 6)), nameIn buffer with
  | some pid, some ppid, some name => some (pid, ppid, name)
  | _, _, _ => none

/-- The body of the loop. -/
def scanEntry (t : Table) (e : DirEntry) : Option Table :=
  if e.dName = selfName ∨ e.dName = threadSelf then some t
  else
    match e.status with
    | none => some t
    | some file =>
        match fieldsIn (readInto (statusPath e.dName) file) with
        | none => none
        | some (pid, ppid, name) => addProcess t pid ppid name

/-- The loop over the directory. -/
def scan (entries : List DirEntry) : Option Table := entries.foldlM scanEntry (fun _ => none)

end ProcessTree

end TlpiPractice
