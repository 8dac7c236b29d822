import Mathlib.Logic.Function.Basic

/-!
# Mutexes

A lock that one thread at a time can hold, and the code it protects.

Where a thread stands in its program is a value of any type, and a predicate
on these values says which of them lie between the lock and the unlock.
`Held` relates the two sides: a thread that stands there holds the lock. The
other direction is left open, since a program may return without unlocking.

That no two threads stand in the protected code is a consequence, and every
step of a thread is one of three kinds: it keeps its side of the boundary, it
takes a lock that is free, or it gives the lock up.

## Main definitions

* `Held`: The threads in the protected code hold the lock.

## Theorems

* `held_unique`: The protected code belongs to one thread at a time.
* `held_free`: Nobody is in the protected code of a free lock.
* `held_move`: A step that enters nothing.
* `held_acquire`: A step that takes the lock.
* `held_release`: A step that gives the lock up.
-/

namespace Mutex

variable {ι κ : Type*}

/-- The threads in the protected code hold the lock. -/
def Held (inside : κ → Prop) (pc : ι → κ) (lock : Option ι) : Prop :=
  ∀ t, inside (pc t) → lock = some t

theorem held_unique {inside : κ → Prop} {pc : ι → κ} {lock : Option ι}
    (h : Held inside pc lock) (t u : ι) (ht : inside (pc t)) (hu : inside (pc u)) : t = u :=
  Option.some.inj ((h t ht).symm.trans (h u hu))

theorem held_free {inside : κ → Prop} {pc : ι → κ} {lock : Option ι}
    (h : Held inside pc lock) (hfree : lock = none) (t : ι) : ¬ inside (pc t) := by
  intro ht
  have hsome := h t ht
  rw [hfree] at hsome
  cases hsome

variable [DecidableEq ι]

/-- A thread that was inside before, or is outside afterwards, can go on. -/
theorem held_move {inside : κ → Prop} {pc : ι → κ} {lock : Option ι}
    (h : Held inside pc lock) (t : ι) (p : κ) (hp : inside p → inside (pc t)) :
    Held inside (Function.update pc t p) lock := by
  intro u hu
  by_cases hut : u = t
  · subst hut
    rw [Function.update_self] at hu
    exact h u (hp hu)
  · rw [Function.update_of_ne hut] at hu
    exact h u hu

/-- A free lock can be taken. -/
theorem held_acquire {inside : κ → Prop} {pc : ι → κ} {lock : Option ι}
    (h : Held inside pc lock) (hfree : lock = none) (t : ι) (p : κ) :
    Held inside (Function.update pc t p) (some t) := by
  intro u hu
  by_cases hut : u = t
  · rw [hut]
  · rw [Function.update_of_ne hut] at hu
    exact absurd hu (held_free h hfree u)

/-- A thread that leaves the protected code gives up the lock. -/
theorem held_release {inside : κ → Prop} {pc : ι → κ} {lock : Option ι}
    (h : Held inside pc lock) (t : ι) (p : κ) (ht : inside (pc t)) (hp : ¬ inside p) :
    Held inside (Function.update pc t p) none := by
  intro u hu
  by_cases hut : u = t
  · subst hut
    rw [Function.update_self] at hu
    exact absurd hu hp
  · rw [Function.update_of_ne hut] at hu
    exact absurd (held_unique h u t hu ht) hut

end Mutex
