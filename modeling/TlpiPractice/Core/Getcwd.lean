import TlpiPractice.Library.DirTree
import TlpiPractice.Library.Ints
import TlpiPractice.Library.Memory

/-!
# The Way Up

`m_getcwd` of `18-5-my_getcwd.c`. It climbs to the root with `chdir("..")`, and
in each directory looks for the entry of the one it came from. The names it
finds go to the front of a list, which then is copied into the buffer.

No system call fails here. The walk carries a number of rounds it may take, so
that it is a function. `offset` is an `int`, and `size` a `size_t`.

## Main definitions

* `findEntry`: The loop over the entries of a directory.
* `walkUp`: The loop up to the root.
* `concat`: The loop over the names.
* `mGetcwd`: A call.
-/

namespace TlpiPractice

namespace Getcwd

open DirTree Ints Memory

variable {δ ο : Type*} (T : Tree δ ο) (V : View T)

/-- What ends a call without a return: `fatal`, a failed `lstat`, an access
    or an addition that C does not define, or too few rounds. -/
inductive Stop where
  | fatal
  | errExit
  | undefined
  | unfinished
  deriving DecidableEq

/-- Read the entries of the current directory `upper` until one has the wanted
    `st_dev` and `st_ino`. -/
def findEntry (upper : δ) (stLocal : Nat × Nat) : List (CString × Obj δ ο) → Except Stop CString
  | [] => .error .fatal
  | ent :: rest =>
      match lookup T upper ent.1.bytes with
      | none => .error .errExit
      | some o => if V.ident o = stLocal then .ok ent.1 else findEntry upper stLocal rest

/-- Climb from `cwd` to the root. The result is the directory it has got to,
    and the names, those found last first. -/
def walkUp : Nat → δ → List CString → δ × Except Stop (List CString)
  | 0, cwd, _ => (cwd, .error .unfinished)
  | rounds + 1, cwd, header =>
      if V.ident (.dir cwd) = V.ident (.dir (T.parent cwd)) then (cwd, .ok header)
      else
        match findEntry T V (T.parent cwd) (V.ident (.dir cwd)) (V.listing (T.parent cwd)) with
        | .error e => (T.parent cwd, .error e)
        | .ok name => walkUp rounds (T.parent cwd) (name :: header)

/-- The buffer, and one more than the highest index that has been stored to. -/
structure Buffer where
  mem : Nat → UInt8
  high : Nat

/-- Put bytes at an index of the buffer. -/
def Buffer.put (buf : Buffer) (a : Nat) (bytes : List UInt8) : Buffer :=
  ⟨store buf.mem a bytes, max buf.high (a + bytes.length)⟩

/-- What a call returns: the buffer, or `NULL` with `ERANGE`. -/
inductive Ret where
  | path
  | erange
  deriving DecidableEq

/-- The loop over the names. The comparison with `size` is unsigned and has 64
    bits, `offset++` has 32. -/
def concat (size : Nat) : List CString → Int → Buffer → Except Stop (Ret × Buffer)
  | [], _, buf => .ok (.path, buf)
  | dir :: rest, offset, buf =>
      -- `offset` is converted for the addition, a negative one to a huge number.
      if size ≤ toSize (offset + dir.bytes.length + 1) then .ok (.erange, buf)
      -- An index in front of the buffer, or an overflow of `offset++`.
      else if offset < 0 ∨ intMax ≤ offset then .error .undefined
      else
        -- The slash, then `strcpy` of the name with its NUL, then `strlen(buf)`.
        let buf := (buf.put offset.toNat [47]).put (offset.toNat + 1) (dir.bytes ++ [0])
        concat size rest (wrap (CString.str (load buf.mem 0 size)).length) buf

/-- `m_getcwd`, from the current directory `cwd`, with the buffer it was given
    or has got from `malloc`. The result is the current directory it leaves,
    and what becomes of the call. -/
def mGetcwd (rounds : Nat) (cwd : δ) (buf : Nat → UInt8) (size : Nat) :
    δ × Except Stop (Ret × Buffer) :=
  match walkUp T V rounds cwd [] with
  | (top, .error e) => (top, .error e)
  | (top, .ok names) => (top, concat size names 0 ⟨buf, 0⟩)

end Getcwd

end TlpiPractice
