import Mathlib.Data.List.TakeWhile
import TlpiPractice.Core.Realpath

/-!
# When the Path Is Canonical

For which paths `realpath` returns a canonical path.

The first loop makes every slash a NUL, so the second loop sees an absolute
path as an empty string and does nothing. What it returns is what was in the
buffer.

Of a relative path it sees the components up to the first empty one. They are
put behind the current directory as they are, `.` and `..` among them. The
target of a link is put there as it is, too, and its own dots and links stay. An
absolute target takes the place of everything before, so that only what comes
behind the last of these counts. In the root, the current directory ends in a
slash, and the next one makes an empty component.

The loop keeps one thing right: the string that it has built names the object
that the components so far name. This is the invariant, and the number of links
on the way never is larger than on the way along the path itself.

## Main definitions

* `front`: The components up to the first that is empty.
* `Fits`: No path that is needed on the way is too long.
* `direct`: A walk along entries and links to plain relative paths.
* `FromTarget`: A plain absolute target, and such a walk from there.
* `OnWay`: The invariant of the loop.
* `KeptPlain`: The exact condition.

## Theorems

* `resolve_step`: One round of the loop.
* `resolve_iff`: The loop, from any state that the invariant describes.
* `canonical_iff_keptPlain`: When the result is canonical.
* `absolute_empty`: An absolute path, and no buffer.
-/

namespace TlpiPractice

namespace Realpath

open DirTree PathWalk

/-- The components of a path up to the first that is empty. -/
def front (path : List UInt8) : List (List UInt8) :=
  (comps path).takeWhile (fun c => decide (c ≠ []))

section Walks

variable {δ ο : Type*} (T : Tree δ ο) (L : Links ο)

/-- Of the components, each in turn goes behind a path of `len` bytes, and then
    is replaced if it is a link. No path that this makes is too long. -/
def Fits : Obj δ ο → Nat → List (List UInt8) → Prop
  | _, _, [] => True
  | .other _, _, _ :: _ => True
  | .dir d, len, c :: rest =>
      len + 1 + c.length < pathMax ∧ ∀ o, lookup T d c = some o →
        match linkOf L o with
        | none => Fits o (len + 1 + c.length) rest
        | some t => ∀ o', LeadsTo T L (start T d t.bytes) (comps t.bytes) o' →
            if t.bytes.head? = some 47 then Fits o' t.bytes.length rest
            else len + 1 + t.bytes.length < pathMax ∧ Fits o' (len + 1 + t.bytes.length) rest

/-- A walk along entries and along links whose targets are relative and walk
    along entries themselves. -/
def direct : Obj δ ο → List (List UInt8) → Option (Obj δ ο)
  | o, [] => some o
  | .other _, _ :: _ => none
  | .dir d, c :: rest =>
      if Special c then none
      else
        match lookup T d c with
        | none => none
        | some o =>
            match linkOf L o with
            | none => direct o rest
            | some t =>
                if t.bytes.head? = some 47 then none
                else
                  match straight T L (.dir d) (comps t.bytes) with
                  | none => none
                  | some o' => direct o' rest

/-- The path behind the slash of an absolute target is plain, and `rest` goes
    on directly from there. For the root itself nothing may go on. -/
def Through (u : List UInt8) (rest : List (List UInt8)) (o : Obj δ ο) : Prop :=
  (rest = [] ∧ u = [] ∧ o = .dir T.root) ∨
    ∃ a, straight T L (.dir T.root) (comps u) = some a ∧ direct T L a rest = some o

/-- The component is a link whose target is absolute, and the target and what
    follows lead to the object directly. -/
def TargetAt (d : δ) (c : List UInt8) (rest : List (List UInt8)) (o : Obj δ ο) : Prop :=
  ∃ x t u, lookup T d c = some x ∧ linkOf L x = some t ∧ t.bytes = 47 :: u ∧ Through T L u rest o

/-- Some component is such a link. -/
def FromTarget (a : Obj δ ο) (cs : List (List UInt8)) (o : Obj δ ο) : Prop :=
  ∃ before c rest d, cs = before ++ c :: rest ∧ LeadsTo T L a before (.dir d) ∧
    TargetAt T L d c rest o

/-- The path so far, without its first slash, and the components to come make a
    canonical path of the object. -/
def Ahead (u : List UInt8) (a : Obj δ ο) (cs : List (List UInt8)) (o : Obj δ ο) : Prop :=
  (cs = [] ∧ u = [] ∧ a = o) ∨
    (straight T L (.dir T.root) (comps u) = some a ∧ direct T L a cs = some o) ∨
    FromTarget T L a cs o

theorem fromTarget_nil (a o : Obj δ ο) : ¬ FromTarget T L a [] o := by
  intro h
  rcases h with ⟨before, c, rest, d, hcs, _⟩
  exact List.append_ne_nil_of_right_ne_nil before (List.cons_ne_nil c rest) hcs.symm

/-- The link is the first component, or one of those behind it. -/
theorem fromTarget_cons (d : δ) (c : List UInt8) (rest : List (List UInt8)) (a o : Obj δ ο)
    (hc : LeadsTo T L (.dir d) [c] a) :
    FromTarget T L (.dir d) (c :: rest) o ↔ TargetAt T L d c rest o ∨ FromTarget T L a rest o := by
  constructor
  · intro h
    rcases h with ⟨before, l, rest', d', hcs, hlead, htarget⟩
    cases before with
    | nil =>
        rw [List.nil_append] at hcs
        rcases List.cons.inj hcs with ⟨rfl, rfl⟩
        have hd := Obj.dir.inj (leadsTo_unique T L _ [] _ _ (leadsTo_nil T L (.dir d)) hlead)
        exact .inl (hd.symm ▸ htarget)
    | cons c' before =>
        rw [List.cons_append] at hcs
        rcases List.cons.inj hcs with ⟨rfl, rfl⟩
        exact .inr ⟨before, l, rest', d', rfl, (leadsTo_append T L _ a _ [c] before hc).mp hlead,
          htarget⟩
  · intro h
    rcases h with htarget | ⟨before, l, rest', d', rfl, hlead, htarget⟩
    · exact ⟨[], c, rest, d, rfl, leadsTo_nil T L _, htarget⟩
    · exact ⟨c :: before, l, rest', d', rfl, (leadsTo_append T L _ a _ [c] before hc).mpr hlead,
        htarget⟩

theorem targetAt_iff (d : δ) (c : List UInt8) (rest : List (List UInt8)) (o x : Obj δ ο)
    (t : CString) (u : List UInt8) (hlook : lookup T d c = some x) (hlink : linkOf L x = some t)
    (ht : t.bytes = 47 :: u) : TargetAt T L d c rest o ↔ Through T L u rest o := by
  refine ⟨fun h => ?_, fun h => ⟨x, t, u, hlook, hlink, ht, h⟩⟩
  rcases h with ⟨x', t', u', hlook', hlink', ht', hthrough⟩
  have hx := Option.some.inj (hlook.symm.trans hlook')
  subst hx
  have hsame := Option.some.inj (hlink.symm.trans hlink')
  subst hsame
  exact (List.cons.inj (ht.symm.trans ht')).2 ▸ hthrough

/-- The next component is not a link. -/
theorem ahead_entry (u : List UInt8) (d : δ) (c : List UInt8) (rest : List (List UInt8))
    (x o : Obj δ ο) (hc : c ≠ []) (hslash : 47 ∉ c) (hlook : lookup T d c = some x)
    (hlink : linkOf L x = none) (left left' : Nat)
    (hu : walk T L true left (.dir T.root) (comps u) = some (.dir d, left')) :
    Ahead T L u (.dir d) (c :: rest) o ↔ Ahead T L (u ++ 47 :: c) x rest o := by
  have hlead : LeadsTo T L (.dir d) [c] x :=
    ⟨0, 0, by rw [walk_entry T L _ _ d c [] x hc hlook hlink, walk_nil]⟩
  have hnot : ¬ TargetAt T L d c rest o := by
    intro h
    rcases h with ⟨x', t, _, hlook', hlink', _⟩
    rw [← Option.some.inj (hlook.symm.trans hlook'), hlink] at hlink'
    cases hlink'
  have hlonger : straight T L (.dir T.root) (comps (u ++ 47 :: c)) = some x ↔
      straight T L (.dir T.root) (comps u) = some (.dir d) ∧ ¬ Special c := by
    rw [comps_append, comps_of_noSlash c hslash, straight_append]
    constructor
    · intro h
      rcases Option.bind_eq_some_iff.mp h with ⟨b, hb, hstep⟩
      -- A walk along entries is the walk, so it has come to the same directory.
      have hwalk := walk_of_straight T L left _ _ b hb
      rw [hu] at hwalk
      cases hwalk
      refine ⟨hb, fun hspecial => ?_⟩
      rw [straight, if_pos hspecial] at hstep
      cases hstep
    · intro h
      rcases h with ⟨hstraight, hspecial⟩
      rw [hstraight, Option.bind_some, straight_entry T L d c [] x hspecial hlook hlink, straight]
  have hdirect : direct T L (.dir d) (c :: rest) = some o ↔
      ¬ Special c ∧ direct T L x rest = some o := by
    rw [direct]
    by_cases hspecial : Special c
    · rw [if_pos hspecial]
      exact ⟨fun h => absurd h (Option.some_ne_none o).symm, fun h => absurd hspecial h.1⟩
    · rw [if_neg hspecial, hlook]
      simp only [hlink]
      exact ⟨fun h => ⟨hspecial, h⟩, fun h => h.2⟩
  unfold Ahead
  rw [fromTarget_cons T L d c rest x o hlead, hlonger, hdirect]
  constructor
  · intro h
    rcases h with ⟨hnil, _⟩ | ⟨hstraight, hspecial, hrest⟩ | htarget | hfrom
    · cases hnil
    · exact .inr (.inl ⟨⟨hstraight, hspecial⟩, hrest⟩)
    · exact absurd htarget hnot
    · exact .inr (.inr hfrom)
  · intro h
    rcases h with ⟨_, hnil, _⟩ | ⟨⟨hstraight, hspecial⟩, hrest⟩ | hfrom
    · exact absurd hnil (List.append_ne_nil_of_right_ne_nil u (List.cons_ne_nil 47 c))
    · exact .inr (.inl ⟨hstraight, hspecial, hrest⟩)
    · exact .inr (.inr (.inr hfrom))

/-- The next component is a link with an absolute target. -/
theorem ahead_absolute (u : List UInt8) (d : δ) (c : List UInt8) (rest : List (List UInt8))
    (x a o : Obj δ ο) (t : CString) (v : List UInt8) (hlook : lookup T d c = some x)
    (hlink : linkOf L x = some t) (ht : t.bytes = 47 :: v) (hlead : LeadsTo T L (.dir d) [c] a)
    (left left' : Nat) (hv : walk T L true left (.dir T.root) (comps v) = some (a, left')) :
    Ahead T L u (.dir d) (c :: rest) o ↔ Ahead T L v a rest o := by
  -- Nothing goes on directly behind such a link; the target decides alone.
  have hdirect : direct T L (.dir d) (c :: rest) = none := by
    rw [direct]
    by_cases hspecial : Special c
    · rw [if_pos hspecial]
    · rw [if_neg hspecial, hlook]
      simp only [hlink, ht, List.head?_cons, if_true]
  unfold Ahead
  rw [fromTarget_cons T L d c rest a o hlead, targetAt_iff T L d c rest o x t v hlook hlink ht,
    hdirect]
  unfold Through
  constructor
  · intro h
    rcases h with ⟨hnil, _⟩ | ⟨_, hnone⟩ | (⟨hrest, rfl, rfl⟩ | ⟨b, hb, hbrest⟩) | hfrom
    · cases hnil
    · cases hnone
    · -- The target is the root.
      have hroot : a = .dir T.root := by
        have hempty : comps [] = [[]] := rfl
        rw [hempty, walk_empty, walk_nil] at hv
        exact (Prod.mk.inj (Option.some.inj hv)).1.symm
      exact .inl ⟨hrest, rfl, hroot⟩
    · have hwalk := walk_of_straight T L left _ _ b hb
      rw [hv] at hwalk
      cases hwalk
      exact .inr (.inl ⟨hb, hbrest⟩)
    · exact .inr (.inr hfrom)
  · intro h
    rcases h with ⟨hrest, rfl, rfl⟩ | hstraight | hfrom
    · have hempty : comps [] = [[]] := rfl
      rw [hempty, walk_empty, walk_nil] at hv
      exact .inr (.inr (.inl (.inl ⟨hrest, rfl, (Prod.mk.inj (Option.some.inj hv)).1.symm⟩)))
    · exact .inr (.inr (.inl (.inr ⟨a, hstraight⟩)))
    · exact .inr (.inr (.inr hfrom))

/-- The next component is a link with a relative target. -/
theorem ahead_relative (u : List UInt8) (d : δ) (c : List UInt8) (rest : List (List UInt8))
    (x a o : Obj δ ο) (t : CString) (hc : c ≠ []) (hlook : lookup T d c = some x)
    (hlink : linkOf L x = some t) (ht : t.bytes.head? ≠ some 47)
    (hlead : LeadsTo T L (.dir d) [c] a) (left left' : Nat)
    (hu : walk T L true left (.dir T.root) (comps u) = some (.dir d, left'))
    (more more' : Nat) (hmore : walk T L true more (.dir d) (comps t.bytes) = some (a, more')) :
    Ahead T L u (.dir d) (c :: rest) o ↔ Ahead T L (u ++ 47 :: t.bytes) a rest o := by
  have hspecial : ¬ Special c := by
    -- `.` and `..` are directories, and not links.
    intro h
    rcases h with hnil | hdot | hdotdot
    · exact hc hnil
    · subst hdot
      cases hlook
      cases hlink
    · subst hdotdot
      cases hlook
      cases hlink
  have hnot : ¬ TargetAt T L d c rest o := by
    intro h
    rcases h with ⟨x', t', v, hlook', hlink', ht', _⟩
    rw [← Option.some.inj (hlook.symm.trans hlook'), hlink] at hlink'
    rw [Option.some.inj hlink', ht'] at ht
    exact ht rfl
  -- The target leads to one object only.
  have honly : ∀ b, straight T L (.dir d) (comps t.bytes) = some b → b = a := by
    intro b hb
    have hwalk := walk_of_straight T L more _ _ b hb
    rw [hmore] at hwalk
    exact (Prod.mk.inj (Option.some.inj hwalk)).1.symm
  have hlonger : straight T L (.dir T.root) (comps (u ++ 47 :: t.bytes)) = some a ↔
      straight T L (.dir T.root) (comps u) = some (.dir d) ∧
        straight T L (.dir d) (comps t.bytes) = some a := by
    rw [comps_append, straight_append]
    constructor
    · intro h
      rcases Option.bind_eq_some_iff.mp h with ⟨b, hb, hstep⟩
      have hwalk := walk_of_straight T L left _ _ b hb
      rw [hu] at hwalk
      cases hwalk
      exact ⟨hb, hstep⟩
    · intro h
      rcases h with ⟨hstraight, hstep⟩
      rw [hstraight, Option.bind_some, hstep]
  have hdirect : direct T L (.dir d) (c :: rest) = some o ↔
      straight T L (.dir d) (comps t.bytes) = some a ∧ direct T L a rest = some o := by
    rw [direct, if_neg hspecial, hlook]
    simp only [hlink, if_neg ht]
    cases hstraight : straight T L (.dir d) (comps t.bytes) with
    | none => exact ⟨fun h => absurd h (Option.some_ne_none o).symm, fun h => absurd h.1.symm
        (Option.some_ne_none a)⟩
    | some b =>
        rw [honly b hstraight]
        exact ⟨fun h => ⟨rfl, h⟩, fun h => h.2⟩
  unfold Ahead
  rw [fromTarget_cons T L d c rest a o hlead, hlonger, hdirect]
  constructor
  · intro h
    rcases h with ⟨hnil, _⟩ | ⟨hstraight, hstep, hrest⟩ | htarget | hfrom
    · cases hnil
    · exact .inr (.inl ⟨⟨hstraight, hstep⟩, hrest⟩)
    · exact absurd htarget hnot
    · exact .inr (.inr hfrom)
  · intro h
    rcases h with ⟨_, hnil, _⟩ | ⟨⟨hstraight, hstep⟩, hrest⟩ | hfrom
    · exact absurd hnil (List.append_ne_nil_of_right_ne_nil u (List.cons_ne_nil 47 t.bytes))
    · exact .inr (.inl ⟨hstraight, hstep, hrest⟩)
    · exact .inr (.inr (.inr hfrom))

theorem ahead_nil (u : List UInt8) (a o : Obj δ ο) :
    Ahead T L u a [] o ↔ a = o ∧ (u = [] ∨ straight T L (.dir T.root) (comps u) = some a) := by
  have hdirect : direct T L a [] = some a := by
    unfold direct
    rfl
  unfold Ahead
  rw [hdirect, Option.some_inj]
  constructor
  · intro h
    rcases h with ⟨_, hnil, hsame⟩ | ⟨hstraight, hsame⟩ | hfrom
    · exact ⟨hsame, .inl hnil⟩
    · exact ⟨hsame, .inr hstraight⟩
    · exact absurd hfrom (fromTarget_nil T L a o)
  · intro h
    rcases h with ⟨hsame, hnil | hstraight⟩
    · exact .inl ⟨rfl, hnil, hsame⟩
    · exact .inr (.inl ⟨hstraight, hsame⟩)

/-- `lstat` of the path so far and the next component. -/
theorem namei_next (limit : Nat) (cwd : δ) (u : List UInt8) (d : δ) (c : List UInt8)
    (x : Obj δ ο) (left : Nat) (hc : c ≠ []) (hslash : 47 ∉ c) (hlook : lookup T d c = some x)
    (hu : walk T L true limit (.dir T.root) (comps u) = some (.dir d, left))
    (hlen : (u ++ 47 :: c).length + 1 < pathMax) :
    namei T L false limit cwd (47 :: (u ++ 47 :: c)) = some x := by
  have hlast : walk T L false left (.dir d) [c] = some (x, left) := by
    cases hlink : linkOf L x with
    | none => rw [walk_entry T L false left d c [] x hc hlook hlink, walk_nil]
    | some t => exact walk_last_link T L left d c x t hc hlook hlink
  rw [namei_absolute T L false limit cwd _ hlen, comps_append, comps_of_noSlash c hslash,
    walk_append T L false _ _ _ _ (.inr (List.cons_ne_nil c [])), hu, Option.bind_some, hlast,
    Option.map_some]

/-- The string after a component has been put behind it, and the part of it
    that a relative target leaves. -/
theorem take_place (u c : List UInt8) :
    (47 :: u).take (u.length + 1) ++ 47 :: c = 47 :: (u ++ 47 :: c) ∧
      (47 :: (u ++ 47 :: c)).take (u.length + 1 + 1) = 47 :: (u ++ [47]) := by
  have hlen : (u ++ [47]).length = u.length + 1 := by
    rw [List.length_append, List.length_singleton]
  constructor
  · rw [List.take_of_length_le (Nat.le_of_eq List.length_cons), List.cons_append]
  · rw [List.take_succ_cons, List.append_cons,
      List.take_append_of_le_length (Nat.le_of_eq hlen.symm),
      List.take_of_length_le (Nat.le_of_eq hlen)]

/-- One round of the loop, for a component that is not a link. -/
theorem resolve_entry (limit : Nat) (cwd : δ) (u c : List UInt8) (rest : List (List UInt8))
    (x : Obj δ ο) (hlen : (u ++ 47 :: c).length + 1 < pathMax)
    (hstat : namei T L false limit cwd (47 :: (u ++ 47 :: c)) = some x)
    (hlink : linkOf L x = none) :
    resolve T L limit cwd (c :: rest) (47 :: u) (u.length + 1) =
      resolve T L limit cwd rest (47 :: (u ++ 47 :: c)) ((u ++ 47 :: c).length + 1) := by
  have hshort : ¬ pathMax ≤ (47 :: (u ++ 47 :: c)).length := by
    rw [List.length_cons]
    omega
  rw [resolve]
  simp only
  rw [(take_place u c).1, if_neg hshort, hstat]
  simp only [hlink]
  rw [List.length_cons]

/-- One round, for a link. -/
theorem resolve_link (limit : Nat) (cwd : δ) (u c : List UInt8) (rest : List (List UInt8))
    (x : Obj δ ο) (t : CString) (next : List UInt8) (hlen : (u ++ 47 :: c).length + 1 < pathMax)
    (hstat : namei T L false limit cwd (47 :: (u ++ 47 :: c)) = some x)
    (hlink : linkOf L x = some t)
    (hnext : 47 :: next =
      if t.bytes.head? = some 47 then t.bytes else 47 :: (u ++ 47 :: t.bytes))
    (hroom : next.length + 1 < pathMax) :
    resolve T L limit cwd (c :: rest) (47 :: u) (u.length + 1) =
      resolve T L limit cwd rest (47 :: next) (next.length + 1) := by
  have hshort : ¬ pathMax ≤ (47 :: (u ++ 47 :: c)).length := by
    rw [List.length_cons]
    omega
  have hroom' : ¬ pathMax ≤ (47 :: next).length := by
    rw [List.length_cons]
    omega
  have hplace : (47 :: (u ++ 47 :: c)).take (u.length + 1 + 1) ++ t.bytes =
      47 :: (u ++ 47 :: t.bytes) := by
    rw [(take_place u c).2, List.cons_append, List.append_assoc, List.singleton_append]
  rw [resolve]
  simp only
  rw [(take_place u c).1, if_neg hshort, hstat]
  simp only [hlink]
  rw [hplace, ← hnext, if_neg hroom', List.length_cons]

theorem linkOf_short (x : Obj δ ο) (t : CString) (h : linkOf L x = some t) :
    t.bytes.length < pathMax := by
  cases x with
  | dir d => cases h
  | other o => exact L.target_short o t h

/-- The invariant of the loop. The string so far, less its first slash, names
    the object of the components so far, with no more links than the path
    itself; and the components to come lead to some object. -/
structure OnWay (limit : Nat) (u : List UInt8) (a : Obj δ ο) (r : Nat)
    (cs : List (List UInt8)) : Prop where
  names : ∃ k, walk T L true limit (.dir T.root) (comps u) = some (a, k) ∧ r ≤ k
  onward : ∃ p, walk T L true r a cs = some p
  room : u.length + 1 < pathMax
  fits : Fits T L a (u.length + 1) cs

theorem length_behind (u c : List UInt8) :
    (u ++ 47 :: c).length + 1 = u.length + 1 + 1 + c.length := by
  rw [List.length_append, List.length_cons]
  omega

/-- What is known of the next component, which must be found in a directory. -/
theorem onWay_cons (limit : Nat) (cwd : δ) (u : List UInt8) (a : Obj δ ο) (r : Nat)
    (c : List UInt8) (rest : List (List UInt8)) (hc : c ≠ []) (hslash : 47 ∉ c)
    (h : OnWay T L limit u a r (c :: rest)) :
    ∃ d x, a = .dir d ∧ lookup T d c = some x ∧ (u ++ 47 :: c).length + 1 < pathMax ∧
      namei T L false limit cwd (47 :: (u ++ 47 :: c)) = some x := by
  rcases h.names with ⟨k, hu, _⟩
  rcases h.onward with ⟨p, hp⟩
  have hfits := h.fits
  cases a with
  | other a =>
      rw [walk_other] at hp
      cases hp
  | dir d =>
      cases hlook : lookup T d c with
      | none =>
          rw [walk_none T L true r d c rest hc hlook] at hp
          cases hp
      | some x =>
          unfold Fits at hfits
          have hroom : (u ++ 47 :: c).length + 1 < pathMax := by
            rw [length_behind]
            exact hfits.1
          exact ⟨d, x, rfl, hlook, hroom,
            namei_next T L limit cwd u d c x k hc hslash hlook hu hroom⟩

/-- A round for a component that is not a link keeps the invariant. -/
theorem onWay_entry (limit : Nat) (u : List UInt8) (d : δ) (r : Nat) (c : List UInt8)
    (rest : List (List UInt8)) (x : Obj δ ο) (hc : c ≠ []) (hslash : 47 ∉ c)
    (hlook : lookup T d c = some x) (hlink : linkOf L x = none)
    (h : OnWay T L limit u (.dir d) r (c :: rest)) : OnWay T L limit (u ++ 47 :: c) x r rest := by
  rcases h.names with ⟨k, hu, hr⟩
  rcases h.onward with ⟨p, hp⟩
  have hfits := h.fits
  unfold Fits at hfits
  rcases hfits with ⟨hroom, hfits⟩
  have hfits := hfits x hlook
  rw [hlink, ← length_behind] at hfits
  rw [← length_behind] at hroom
  refine ⟨⟨k, ?_, hr⟩, ⟨p, ?_⟩, hroom, hfits⟩
  · rw [comps_append, comps_of_noSlash c hslash, walk_append T L true _ _ _ _ (.inl rfl), hu,
      Option.bind_some, walk_entry T L true k d c [] x hc hlook hlink, walk_nil]
  · rwa [walk_entry T L true r d c rest x hc hlook hlink] at hp

/-- Along the path itself, a link takes one of the links that are left, and
    what its target takes. -/
theorem onWay_link (limit : Nat) (u : List UInt8) (d : δ) (r : Nat) (c : List UInt8)
    (rest : List (List UInt8)) (x : Obj δ ο) (t : CString) (hc : c ≠ [])
    (hlook : lookup T d c = some x) (hlink : linkOf L x = some t)
    (h : OnWay T L limit u (.dir d) r (c :: rest)) :
    ∃ y q q', r = q + 1 ∧ walk T L true q (start T d t.bytes) (comps t.bytes) = some (y, q') ∧
      (∃ p, walk T L true q' y rest = some p) ∧ LeadsTo T L (.dir d) [c] y := by
  rcases h.onward with ⟨p, hp⟩
  rw [walk_link T L true r d c rest x t hc hlook hlink (.inl rfl)] at hp
  cases r with
  | zero => cases hp
  | succ q =>
      rw [onLinkOf, walk_append T L true _ _ _ _ (.inl rfl)] at hp
      rcases Option.bind_eq_some_iff.mp hp with ⟨⟨y, q'⟩, hmore, hrest⟩
      refine ⟨y, q, q', rfl, hmore, ⟨p, hrest⟩, q + 1, q', ?_⟩
      rw [walk_link T L true _ d c [] x t hc hlook hlink (.inl rfl), List.append_nil]
      exact hmore

/-- A round for a link with an absolute target keeps the invariant. -/
theorem onWay_absolute (limit : Nat) (u : List UInt8) (d : δ) (q : Nat) (c : List UInt8)
    (rest : List (List UInt8)) (x y : Obj δ ο) (t : CString) (v : List UInt8) (q' : Nat)
    (hlook : lookup T d c = some x) (hlink : linkOf L x = some t) (ht : t.bytes = 47 :: v)
    (hmore : walk T L true q (start T d t.bytes) (comps t.bytes) = some (y, q'))
    (hrest : ∃ p, walk T L true q' y rest = some p)
    (h : OnWay T L limit u (.dir d) (q + 1) (c :: rest)) : OnWay T L limit v y q' rest := by
  rcases h.names with ⟨k, hu, hr⟩
  have hk := left_le_of_walk T L limit _ _ _ k hu
  have hroom := linkOf_short L x t hlink
  have hfits := h.fits
  unfold Fits at hfits
  have hfits := hfits.2 x hlook
  rw [hlink] at hfits
  have hfits := hfits y ⟨q, q', hmore⟩
  have habs : t.bytes.head? = some 47 := by
    rw [ht]
    rfl
  rw [if_pos habs, ht, List.length_cons] at hfits
  rw [start, if_pos habs, ht, comps_slash, walk_empty] at hmore
  rw [ht, List.length_cons] at hroom
  -- What the longer way has left is left here, and more.
  have hlift := walk_lift T L q _ _ _ _ (limit - q) hmore
  rw [Nat.add_sub_cancel' (by omega)] at hlift
  exact ⟨⟨q' + (limit - q), hlift, Nat.le_add_right q' _⟩, hrest, hroom, hfits⟩

/-- A round for a link with a relative target keeps the invariant. -/
theorem onWay_relative (limit : Nat) (u : List UInt8) (d : δ) (q : Nat) (c : List UInt8)
    (rest : List (List UInt8)) (x y : Obj δ ο) (t : CString) (q' : Nat)
    (hlook : lookup T d c = some x) (hlink : linkOf L x = some t)
    (ht : t.bytes.head? ≠ some 47)
    (hmore : walk T L true q (start T d t.bytes) (comps t.bytes) = some (y, q'))
    (hrest : ∃ p, walk T L true q' y rest = some p)
    (h : OnWay T L limit u (.dir d) (q + 1) (c :: rest)) :
    OnWay T L limit (u ++ 47 :: t.bytes) y q' rest := by
  rcases h.names with ⟨k, hu, hr⟩
  have hfits := h.fits
  unfold Fits at hfits
  have hfits := hfits.2 x hlook
  rw [hlink] at hfits
  have hfits := hfits y ⟨q, q', hmore⟩
  rw [if_neg ht, ← length_behind] at hfits
  rw [start, if_neg ht] at hmore
  -- The string so far has left at least as many links.
  have hlift := walk_lift T L q _ _ _ _ (k - q) hmore
  rw [Nat.add_sub_cancel' (by omega)] at hlift
  refine ⟨⟨q' + (k - q), ?_, Nat.le_add_right q' _⟩, hrest, hfits.1, hfits.2⟩
  rw [comps_append, walk_append T L true _ _ _ _ (.inl rfl), hu, Option.bind_some, hlift]

/-- One round of the loop: the invariant is kept, and so is what lies ahead. -/
theorem resolve_step (limit : Nat) (cwd : δ) (u : List UInt8) (a : Obj δ ο) (r : Nat)
    (c : List UInt8) (rest : List (List UInt8)) (hc : c ≠ []) (hslash : 47 ∉ c)
    (h : OnWay T L limit u a r (c :: rest)) :
    ∃ u' a' r', OnWay T L limit u' a' r' rest ∧
      resolve T L limit cwd (c :: rest) (47 :: u) (u.length + 1) =
        resolve T L limit cwd rest (47 :: u') (u'.length + 1) ∧
      ∀ o, Ahead T L u a (c :: rest) o ↔ Ahead T L u' a' rest o := by
  rcases onWay_cons T L limit cwd u a r c rest hc hslash h with
    ⟨d, x, rfl, hlook, hroom, hstat⟩
  rcases h.names with ⟨k, hu, _⟩
  cases hlink : linkOf L x with
  | none =>
      exact ⟨u ++ 47 :: c, x, r, onWay_entry T L limit u d r c rest x hc hslash hlook hlink h,
        resolve_entry T L limit cwd u c rest x hroom hstat hlink,
        fun o => ahead_entry T L u d c rest x o hc hslash hlook hlink limit k hu⟩
  | some t =>
      rcases onWay_link T L limit u d r c rest x t hc hlook hlink h with
        ⟨y, q, q', rfl, hmore, hrest, hlead⟩
      by_cases habs : t.bytes.head? = some 47
      · rcases List.head?_eq_some_iff.mp habs with ⟨v, hv⟩
        have hnext := onWay_absolute T L limit u d q c rest x y t v q' hlook hlink hv hmore hrest h
        rcases hnext.names with ⟨k', hv', _⟩
        exact ⟨v, y, q', hnext,
          resolve_link T L limit cwd u c rest x t v hroom hstat hlink (by rw [if_pos habs, hv])
            hnext.room,
          fun o => ahead_absolute T L u d c rest x y o t v hlook hlink hv hlead limit k' hv'⟩
      · have hnext := onWay_relative T L limit u d q c rest x y t q' hlook hlink habs hmore hrest h
        rw [start, if_neg habs] at hmore
        exact ⟨u ++ 47 :: t.bytes, y, q', hnext,
          resolve_link T L limit cwd u c rest x t _ hroom hstat hlink (by rw [if_neg habs])
            hnext.room,
          fun o => ahead_relative T L u d c rest x y o t hc hlook hlink habs hlead limit k hu q q'
            hmore⟩

/-- From any state that the invariant describes, the loop goes on to the end,
    and what it returns is canonical just when that is what lies ahead. -/
theorem resolve_iff (limit : Nat) (cwd : δ) (o : Obj δ ο) (pieces : List (List UInt8))
    (hpieces : ∀ c ∈ pieces, c ≠ [] ∧ 47 ∉ c) (u : List UInt8) (a : Obj δ ο) (r : Nat)
    (h : OnWay T L limit u a r pieces) :
    ∃ path, resolve T L limit cwd pieces (47 :: u) (u.length + 1) = .ok path ∧
      (Canonical T L limit cwd path o ↔ Ahead T L u a pieces o) := by
  induction pieces generalizing u a r with
  | nil =>
      rcases h.names with ⟨k, hu, _⟩
      refine ⟨47 :: u, rfl, ?_⟩
      rw [canonical_iff T L limit cwd u a o k hu h.room, ahead_nil]
  | cons c rest ih =>
      rcases hpieces c List.mem_cons_self with ⟨hc, hslash⟩
      rcases resolve_step T L limit cwd u a r c rest hc hslash h with
        ⟨u', a', r', hnext, hround, hahead⟩
      rw [hround, hahead o]
      exact ih (fun c' hc' => hpieces c' (List.mem_cons_of_mem c hc')) u' a' r' hnext

/-- What is needed on the way stays below PATH_MAX bytes. -/
def NeedsLess (cwd : Cwd T) (path : CString) : Prop :=
  path.bytes.head? ≠ some 47 → (absPath cwd.names).length < pathMax ∧
    Fits T L (.dir cwd.dir) (absPath cwd.names).length (front path.bytes)

/-- An absolute path has its answer in the buffer already. A relative one leads
    to the object directly, from a current directory that is not the root or
    from the target of some link on the way. -/
def KeptPlain (limit : Nat) (cwd : Cwd T) (path : CString) (resolvePath : Option CString)
    (o : Obj δ ο) : Prop :=
  (path.bytes.head? = some 47 ∧
      ∃ b, resolvePath = some b ∧ Canonical T L limit cwd.dir b.bytes o) ∨
    (path.bytes.head? ≠ some 47 ∧
      ((cwd.dir ≠ T.root ∧ direct T L (.dir cwd.dir) (front path.bytes) = some o) ∨
        FromTarget T L (.dir cwd.dir) (front path.bytes) o))

end Walks

/-- The strings between the NULs are those between the slashes. -/
theorem strings_slashToNul (path : List UInt8) (h : ∀ b ∈ path, b ≠ 0) :
    strings (slashToNul path) = front path := by
  have hsplit : (slashToNul path).splitOn 0 = comps path := by
    induction path with
    | nil => rfl
    | cons b path ih =>
        have hb := h b List.mem_cons_self
        have hrest := ih (fun b' hb' => h b' (List.mem_cons_of_mem b hb'))
        unfold slashToNul comps at *
        rw [List.map_cons, List.splitOn_cons_eq_if_modifyHead, List.splitOn_cons_eq_if_modifyHead,
          hrest]
        by_cases hslash : b = 47
        · rw [if_pos hslash, if_pos (beq_iff_eq.mpr rfl), if_pos (beq_iff_eq.mpr hslash)]
        · rw [if_neg hslash, if_neg (fun hc => hb (beq_iff_eq.mp hc)),
            if_neg (fun hc => hslash (beq_iff_eq.mp hc))]
  unfold strings front
  rw [hsplit]

theorem noSlash_of_mem_comps (path c : List UInt8) (h : c ∈ comps path) : 47 ∉ c := by
  induction path generalizing c with
  | nil =>
      rw [List.mem_singleton.mp h]
      exact List.not_mem_nil
  | cons b path ih =>
      unfold comps at h ih
      rw [List.splitOn_cons_eq_if_modifyHead] at h
      by_cases hb : b = 47
      · rw [if_pos (beq_iff_eq.mpr hb)] at h
        rcases List.mem_cons.mp h with rfl | h
        · exact List.not_mem_nil
        · exact ih c h
      · rw [if_neg (fun hc => hb (beq_iff_eq.mp hc))] at h
        cases hsplit : path.splitOn 47 with
        | nil => exact absurd hsplit (List.splitOn_ne_nil 47 path)
        | cons first others =>
            rw [hsplit] at h ih
            rcases List.mem_cons.mp h with rfl | h
            · intro hmem
              rcases List.mem_cons.mp hmem with hc | hmem
              · exact hb hc.symm
              · exact ih first List.mem_cons_self hmem
            · exact ih c (List.mem_cons_of_mem first h)

theorem mem_front (path c : List UInt8) (h : c ∈ front path) : c ≠ [] ∧ 47 ∉ c := by
  unfold front at h
  have hne := List.mem_takeWhile_imp h
  exact ⟨of_decide_eq_true hne,
    noSlash_of_mem_comps path c ((List.takeWhile_prefix _).subset h)⟩

/-- An absolute path begins with an empty component. -/
theorem front_absolute (u : List UInt8) : front (47 :: u) = [] := by
  unfold front
  rw [comps_slash]
  rfl

/-- A relative path does not. -/
theorem front_relative (path : List UInt8) (hne : path ≠ []) (h : path.head? ≠ some 47) :
    front path ≠ [] := by
  cases path with
  | nil => exact absurd rfl hne
  | cons b path =>
      have hb : b ≠ 47 := fun hc => h (by rw [hc]; rfl)
      unfold front comps
      rw [List.splitOn_cons_eq_if_modifyHead, if_neg (fun hc => hb (beq_iff_eq.mp hc))]
      cases hsplit : path.splitOn 47 with
      | nil => exact absurd hsplit (List.splitOn_ne_nil 47 path)
      | cons first others => exact List.cons_ne_nil _ _

section Calls

variable {δ ο : Type*} (T : Tree δ ο) (L : Links ο)

/-- The path of the current directory, which the loop begins with. -/
theorem absPath_cwd (limit : Nat) (cwd : Cwd T) :
    ∃ u, absPath cwd.names = 47 :: u ∧
      walk T L true limit (.dir T.root) (comps u) = some (.dir cwd.dir, limit) ∧
      (straight T L (.dir T.root) (comps u) = some (.dir cwd.dir) ↔ cwd.dir ≠ T.root) := by
  have hroot := pathTo_nil_iff T cwd.names cwd.dir cwd.way
  have hslash : ∀ n ∈ cwd.names, 47 ∉ n.bytes := fun n hn =>
    (proper_of_pathTo T cwd.names cwd.dir cwd.way n hn).noSlash
  have hstraight := straight_pathTo T L cwd.names cwd.dir cwd.way
  cases hnames : cwd.names with
  | nil =>
      have hdir := hroot.mp hnames
      refine ⟨[], rfl, ?_, ?_⟩
      · have hempty : comps [] = [[]] := rfl
        rw [hempty, walk_empty, walk_nil, hdir]
      · have hnone : straight T L (.dir T.root) (comps []) = none := rfl
        rw [hnone]
        exact ⟨fun h => absurd h.symm (Option.some_ne_none _), fun h => absurd hdir h⟩
  | cons name names =>
      rw [hnames] at hslash hstraight
      have hcomps := comps_pathString name names hslash
      refine ⟨name.bytes ++ pathString names, ?_, ?_, ?_⟩
      · rw [absPath, if_neg (List.cons_ne_nil name names), pathString_cons]
      · rw [hcomps]
        exact walk_of_straight T L limit _ _ _ hstraight
      · rw [hcomps]
        refine ⟨fun _ hc => ?_, fun _ => hstraight⟩
        exact List.cons_ne_nil name names (hnames.symm.trans (hroot.mpr hc))

/-- Of an absolute path the loop sees nothing, and the buffer is returned. -/
theorem realpath_absolute (limit : Nat) (cwd : Cwd T) (path : CString)
    (resolvePath : Option CString) (o : Obj δ ο) (hlen : path.bytes.length < pathMax)
    (habs : path.bytes.head? = some 47) :
    (∃ result, realpath T L limit cwd path resolvePath = .ok result ∧
        Canonical T L limit cwd.dir result o) ↔
      ∃ b, resolvePath = some b ∧ Canonical T L limit cwd.dir b.bytes o := by
  rcases List.head?_eq_some_iff.mp habs with ⟨u, hu⟩
  have hreturn : realpath T L limit cwd path resolvePath =
      .ok (resolvePath.getD CString.empty).bytes := by
    unfold realpath
    simp only
    rw [List.take_of_length_le (Nat.le_of_lt hlen), strings_slashToNul path.bytes path.noNul,
      if_neg (fun hc => hc habs), hu, front_absolute, resolve]
  rw [hreturn]
  constructor
  · intro h
    rcases h with ⟨result, hresult, hcanonical⟩
    cases hresult
    cases resolvePath with
    | none => exact absurd hcanonical.absolute (Option.some_ne_none 47).symm
    | some b => exact ⟨b, rfl, hcanonical⟩
  · intro h
    rcases h with ⟨b, rfl, hcanonical⟩
    exact ⟨b.bytes, rfl, hcanonical⟩

/-- A relative path goes behind the current directory. -/
theorem realpath_relative (limit : Nat) (cwd : Cwd T) (path : CString)
    (resolvePath : Option CString) (o : Obj δ ο) (left : Nat) (hne : path.bytes ≠ [])
    (hlen : path.bytes.length < pathMax) (hrel : path.bytes.head? ≠ some 47)
    (hwalk : walk T L true limit (.dir cwd.dir) (comps path.bytes) = some (o, left))
    (hneeds : NeedsLess T L cwd path) :
    (∃ result, realpath T L limit cwd path resolvePath = .ok result ∧
        Canonical T L limit cwd.dir result o) ↔
      (cwd.dir ≠ T.root ∧ direct T L (.dir cwd.dir) (front path.bytes) = some o) ∨
        FromTarget T L (.dir cwd.dir) (front path.bytes) o := by
  rcases hneeds hrel with ⟨hroom, hfits⟩
  rcases absPath_cwd T L limit cwd with ⟨u, hu, hcwd, hstraight⟩
  rw [hu, List.length_cons] at hroom hfits
  -- The components that the loop sees lead to some object, too.
  have hsplit : comps path.bytes = front path.bytes ++
      (comps path.bytes).dropWhile (fun c => decide (c ≠ [])) :=
    List.takeWhile_append_dropWhile.symm
  rw [hsplit, walk_append T L true _ _ _ _ (.inl rfl)] at hwalk
  rcases Option.bind_eq_some_iff.mp hwalk with ⟨p, hfront, _⟩
  rcases resolve_iff T L limit cwd.dir o (front path.bytes)
    (fun c hc => mem_front path.bytes c hc) u (.dir cwd.dir) limit
    ⟨⟨limit, hcwd, Nat.le_refl limit⟩, ⟨p, hfront⟩, hroom, hfits⟩ with ⟨result, hresult, hcanonical⟩
  have hreturn : realpath T L limit cwd path resolvePath = .ok result := by
    unfold realpath
    simp only
    rw [List.take_of_length_le (Nat.le_of_lt hlen), strings_slashToNul path.bytes path.noNul,
      if_pos hrel, hu, List.length_cons, if_neg (Nat.not_le_of_lt hroom), hresult]
  have hahead : Ahead T L u (.dir cwd.dir) (front path.bytes) o ↔
      (cwd.dir ≠ T.root ∧ direct T L (.dir cwd.dir) (front path.bytes) = some o) ∨
        FromTarget T L (.dir cwd.dir) (front path.bytes) o := by
    unfold Ahead
    rw [hstraight]
    exact or_iff_right (fun h => front_relative path.bytes hne hrel h.1)
  rw [hreturn, ← hahead, ← hcanonical]
  constructor
  · intro h
    rcases h with ⟨_, hsame, h⟩
    cases hsame
    exact h
  · intro h
    exact ⟨result, rfl, h⟩

/-- For every tree with symbolic links, every current directory, every path
    that names an object and needs less than PATH_MAX bytes, and every buffer:
    `realpath` returns a canonical path of that object just when the path is
    kept plain. -/
theorem canonical_iff_keptPlain (limit : Nat) (cwd : Cwd T) (path : CString)
    (resolvePath : Option CString) (o : Obj δ ο)
    (hnames : namei T L true limit cwd.dir path.bytes = some o) (hneeds : NeedsLess T L cwd path) :
    (∃ result, realpath T L limit cwd path resolvePath = .ok result ∧
        Canonical T L limit cwd.dir result o) ↔
      KeptPlain T L limit cwd path resolvePath o := by
  unfold namei at hnames
  by_cases hbad : path.bytes = [] ∨ pathMax ≤ path.bytes.length
  · rw [if_pos hbad] at hnames
    cases hnames
  · rw [if_neg hbad] at hnames
    rcases Option.map_eq_some_iff.mp hnames with ⟨⟨a, left⟩, hwalk, hsame⟩
    simp only at hsame
    subst hsame
    have hne : path.bytes ≠ [] := fun hc => hbad (.inl hc)
    have hlen : path.bytes.length < pathMax := Nat.lt_of_not_le (fun hc => hbad (.inr hc))
    unfold KeptPlain
    by_cases habs : path.bytes.head? = some 47
    · rw [realpath_absolute T L limit cwd path resolvePath a hlen habs]
      exact ⟨fun h => .inl ⟨habs, h⟩, fun h => h.elim (fun h => h.2) (fun h => absurd habs h.1)⟩
    · rw [start, if_neg habs] at hwalk
      rw [realpath_relative T L limit cwd path resolvePath a left hne hlen habs hwalk hneeds]
      exact ⟨fun h => .inr ⟨habs, h⟩, fun h => h.elim (fun h => absurd h.1 habs) (fun h => h.2)⟩

end Calls

/-- `"a"`. -/
def nameA : CString := .cons 97 (by decide) .empty

/-- `"l"`. -/
def nameL : CString := .cons 108 (by decide) .empty

/-- The entries of a small tree: in the root the directory `a` and a link
    `l`. -/
def entries : Bool → List (CString × Obj Bool Unit)
  | false => [(nameA, .dir true), (nameL, .other ())]
  | true => []

theorem mem_entries (d d' : Bool) (name : CString) (h : (name, .dir d') ∈ entries d) :
    d = false ∧ d' = true ∧ name = nameA := by
  cases d with
  | true => exact absurd h List.not_mem_nil
  | false =>
      rcases List.mem_cons.mp h with h | h
      · cases h
        exact ⟨rfl, rfl, rfl⟩
      · cases List.mem_singleton.mp h

/-- The small tree. -/
def smallTree : Tree Bool Unit where
  root := false
  parent := fun _ => false
  children := entries
  parent_root := rfl
  ancestor := fun _ => ⟨1, rfl⟩
  mem_parent := fun d hd => by
    cases d with
    | false => exact absurd rfl hd
    | true => exact ⟨nameA, List.mem_cons_self⟩
  home := fun d d' name h => by
    rcases mem_entries d d' name h with ⟨rfl, rfl, _⟩
    exact ⟨Bool.noConfusion, rfl⟩
  oneName := fun d d' name name' h h' => by
    rw [(mem_entries d d' name h).2.2, (mem_entries d d' name' h').2.2]
  distinctNames := fun d => by
    cases d with
    | false => decide
    | true => exact List.nodup_nil
  proper := fun d entry h => by
    cases d with
    | true => exact absurd h List.not_mem_nil
    | false =>
        rcases List.mem_cons.mp h with rfl | h
        · exact ⟨by decide, by decide, by decide, by decide, by decide⟩
        · rw [List.mem_singleton.mp h]
          exact ⟨by decide, by decide, by decide, by decide, by decide⟩

/-- `"/a"`. -/
def slashA : CString := .cons 47 (by decide) nameA

/-- The target of the link is `"/a"`. -/
def smallLinks : Links Unit where
  target := fun _ => some slashA
  target_ne_nil := fun _ t h => by
    cases h
    decide
  target_short := fun _ t h => by
    cases h
    decide

/-- The current directory is the root. -/
def inRoot : Cwd smallTree := ⟨false, [], .root⟩

/-- The path `"/a"`, and no buffer. It names a directory, and the result is the
    empty string. -/
theorem absolute_empty :
    namei smallTree smallLinks true 40 inRoot.dir slashA.bytes = some (.dir true) ∧
      NeedsLess smallTree smallLinks inRoot slashA ∧
      realpath smallTree smallLinks 40 inRoot slashA none = .ok [] ∧
      ¬ Canonical smallTree smallLinks 40 inRoot.dir [] (.dir true) :=
  ⟨rfl, fun h => absurd rfl h, rfl, fun h => absurd h.absolute (Option.some_ne_none 47).symm⟩

/-- The path `"l"`, whose target is plain. -/
theorem canonical_iff_keptPlain_link :
    (∃ result, realpath smallTree smallLinks 40 inRoot nameL none = .ok result ∧
        Canonical smallTree smallLinks 40 inRoot.dir result (.dir true)) ↔
      KeptPlain smallTree smallLinks 40 inRoot nameL none (.dir true) := by
  refine canonical_iff_keptPlain smallTree smallLinks 40 inRoot nameL none (.dir true) rfl ?_
  refine fun _ => ⟨by decide, by decide, fun o ho => ?_⟩
  cases ho
  exact fun _ _ => trivial

end Realpath

end TlpiPractice
