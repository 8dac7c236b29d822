import TlpiPractice.Library.PathWalk

/-!
# Canonical Paths

`realpath` of `18-3-my_realpath.c`. A relative path is put behind the current
directory, component by component, and after each component the path so far is
looked up. If it names a symbolic link, the target takes the place of the last
component, or of the whole path.

The path is first cut up by a loop that turns its slashes into NULs. A second
loop goes from one string to the next, and ends at an empty one.

A string is the list of its bytes. The buffers have PATH_MAX bytes, and what is
stored behind their end is not defined. `lstat` and `readlink` are those of the
kernel, which follows up to `limit` links in a path.

## Main definitions

* `Cwd`: A current directory.
* `strings`: The strings the second loop goes through.
* `resolve`: The second loop.
* `realpath`: A call.
-/

namespace TlpiPractice

namespace Realpath

open DirTree PathWalk

variable {δ ο : Type*} (T : Tree δ ο) (L : Links ο)

/-- A current directory, and the names on the way down to it, which `getcwd`
    returns. -/
structure Cwd where
  dir : δ
  names : List CString
  way : PathTo T names dir

/-- What ends a call without a return: `errExit`, or a store outside a
    buffer. -/
inductive Stop where
  | errExit
  | undefined
  deriving DecidableEq

/-- The first loop. -/
def slashToNul (path : List UInt8) : List UInt8 := path.map (fun b => if b = 47 then 0 else b)

/-- The strings in the bytes, up to the first that is empty. -/
def strings (bytes : List UInt8) : List (List UInt8) :=
  (bytes.splitOn 0).takeWhile (fun p => decide (p ≠ []))

/-- The second loop. A slash and the string go to `offset`. The target of a
    link goes to the front if it is absolute, and behind the slash if not. -/
def resolve (limit : Nat) (cwd : δ) :
    List (List UInt8) → List UInt8 → Nat → Except Stop (List UInt8)
  | [], resolvePath, _ => .ok resolvePath
  | p :: rest, resolvePath, offset =>
      -- The slash overwrites the NUL at `offset`, and `strcpy` follows it.
      let resolvePath := resolvePath.take offset ++ 47 :: p
      if pathMax ≤ resolvePath.length then .error .undefined
      else
        match namei T L false limit cwd resolvePath with
        | none => .error .errExit
        | some st =>
            match linkOf L st with
            | none => resolve limit cwd rest resolvePath resolvePath.length
            | some buffer =>
                -- `offset` is behind the slash by now.
                let resolvePath :=
                  if buffer.bytes.head? = some 47 then buffer.bytes
                  else resolvePath.take (offset + 1) ++ buffer.bytes
                if pathMax ≤ resolvePath.length then .error .undefined
                else resolve limit cwd rest resolvePath resolvePath.length

/-- `realpath`, with the string in the buffer it is given, if it is given one.
    The result is the string that is in the buffer at the end. -/
def realpath (limit : Nat) (cwd : Cwd T) (path : CString) (resolvePath : Option CString) :
    Except Stop (List UInt8) :=
  let buffer := resolvePath.getD CString.empty
  let copy := path.bytes.take pathMax
  let pieces := strings (slashToNul copy)
  -- Only a relative path is put behind the current directory.
  if copy.head? ≠ some 47 then
    if pathMax ≤ (absPath cwd.names).length then .error .errExit
    else resolve T L limit cwd.dir pieces (absPath cwd.names) (absPath cwd.names).length
  else resolve T L limit cwd.dir pieces buffer.bytes 0

end Realpath

end TlpiPractice
