import TlpiPractice.Library.DirTree

/-!
# Path Resolution

How the kernel finds the object that a path names, in a tree of directories
with symbolic links.

A path is walked component by component. An empty component changes nothing, a
link is replaced by the components of its target, and a component that is not
the last must be a directory. The walk may follow only so many links, and says
how many are left, so that what is walked in two parts is walked in one.

`straight` walks along entries only, and gives up at an empty component, at
`.`, at `..` and at a link. A path that can be walked like that is its own
canonical form.

## Main definitions

* `Links`: The targets of symbolic links.
* `comps`: The components of a path.
* `walk`: The walk along components.
* `namei`: The object that a path names.
* `straight`: A walk along entries only.
* `Plain`: No component is empty, a dot, two dots, or a link.
* `LeadsTo`: A walk with any number of links.
* `Canonical`: A path that is its own canonical form.

## Theorems

* `walk_append`: A walk in two parts.
* `walk_lift`: More links than needed.
* `straight_append`: The same for entries only.
* `walk_of_straight`: Such a walk is a walk.
* `plain_iff_straight`: Which walks are along entries only.
* `canonical_iff`: Which paths are canonical.
* `straight_pathTo`: The way down to a directory.
-/

namespace PathWalk

open DirTree

/-- The length that no path may reach. -/
def pathMax : Nat := 4096

/-- The targets of the symbolic links among the objects that are not
    directories. -/
structure Links (ο : Type*) where
  target : ο → Option CString
  target_ne_nil : ∀ o t, target o = some t → t.bytes ≠ []
  target_short : ∀ o t, target o = some t → t.bytes.length < pathMax

section Walks

variable {δ ο : Type*} (T : Tree δ ο) (L : Links ο)

/-- The target, if the object is a symbolic link. -/
def linkOf : Obj δ ο → Option CString
  | .dir _ => none
  | .other o => L.target o

/-- The components of a path. -/
def comps (path : List UInt8) : List (List UInt8) := path.splitOn 47

/-- The directory a path starts from. -/
def start (d : δ) (path : List UInt8) : Obj δ ο :=
  if path.head? = some 47 then .dir T.root else .dir d

/-- A walk along components, where `onLink` walks on behind a link. With
    `follow` the last component is followed too, if it is a link. -/
def walkWith (follow : Bool) (left : Nat)
    (onLink : Obj δ ο → List (List UInt8) → Option (Obj δ ο × Nat)) :
    Obj δ ο → List (List UInt8) → Option (Obj δ ο × Nat)
  | o, [] => some (o, left)
  | .other _, _ :: _ => none
  | .dir d, c :: rest =>
      -- A slash more than is needed.
      if c = [] then walkWith follow left onLink (.dir d) rest
      else
        match lookup T d c with
        | none => none
        | some o =>
            match linkOf L o with
            | none => walkWith follow left onLink o rest
            | some t =>
                -- The target takes the place of the component, in the directory of the link
                -- or, if it is absolute, in the root.
                if follow = false ∧ rest = [] then some (o, left)
                else onLink (start T d t.bytes) (comps t.bytes ++ rest)

/-- A walk that may follow `left` links. The result is the object it ends at,
    and how many more links it might have followed. -/
def walk (follow : Bool) : Nat → Obj δ ο → List (List UInt8) → Option (Obj δ ο × Nat)
  | 0 => walkWith T L follow 0 (fun _ _ => none)
  | left + 1 => walkWith T L follow (left + 1) (fun o cs => walk follow left o cs)

/-- The object that a path names, with `follow` as `stat` sees it and without
    as `lstat` does. -/
def namei (follow : Bool) (limit : Nat) (cwd : δ) (path : List UInt8) : Option (Obj δ ο) :=
  if path = [] ∨ pathMax ≤ path.length then none
  else (walk T L follow limit (start T cwd path) (comps path)).map Prod.fst

/-- A walk with as many links as it needs. -/
def LeadsTo (o : Obj δ ο) (cs : List (List UInt8)) (o' : Obj δ ο) : Prop :=
  ∃ limit left, walk T L true limit o cs = some (o', left)

/-- A component that is not the name of an entry. -/
def Special (c : List UInt8) : Prop := c = [] ∨ c = dot.bytes ∨ c = dotdot.bytes

instance (c : List UInt8) : Decidable (Special c) :=
  inferInstanceAs (Decidable (_ ∨ _ ∨ _))

/-- A walk along entries that are not links. -/
def straight : Obj δ ο → List (List UInt8) → Option (Obj δ ο)
  | o, [] => some o
  | .other _, _ :: _ => none
  | .dir d, c :: rest =>
      if Special c then none
      else
        match lookup T d c with
        | none => none
        | some o => if linkOf L o = none then straight o rest else none

/-- As far as the components name objects, none is empty, `.`, `..` or a
    link. -/
def Plain : Obj δ ο → List (List UInt8) → Prop
  | _, [] => True
  | .other _, _ :: _ => True
  | .dir d, c :: rest =>
      ¬ Special c ∧
        match lookup T d c with
        | none => True
        | some o => linkOf L o = none ∧ Plain o rest

/-- The path is absolute, its components are plain, and it names the object. -/
structure Canonical (limit : Nat) (cwd : δ) (path : List UInt8) (o : Obj δ ο) : Prop where
  absolute : path.head? = some 47
  plain : path = [47] ∨ Plain T L (.dir T.root) (comps path).tail
  same : namei T L true limit cwd path = some o

theorem comps_append (u v : List UInt8) : comps (u ++ 47 :: v) = comps u ++ comps v :=
  List.splitOn_append_cons_self u v

theorem comps_slash (u : List UInt8) : comps (47 :: u) = [] :: comps u :=
  List.splitOn_append_cons_self [] u

theorem comps_of_noSlash (c : List UInt8) (h : 47 ∉ c) : comps c = [c] :=
  List.splitOn_eq_singleton h

/-- The way a walk goes on behind a link. -/
def onLinkOf (follow : Bool) : Nat → Obj δ ο → List (List UInt8) → Option (Obj δ ο × Nat)
  | 0 => fun _ _ => none
  | left + 1 => walk T L follow left

theorem walk_eq (follow : Bool) (left : Nat) :
    walk T L follow left = walkWith T L follow left (onLinkOf T L follow left) := by
  cases left with
  | zero => rfl
  | succ left => rfl

theorem walk_nil (follow : Bool) (left : Nat) (o : Obj δ ο) :
    walk T L follow left o [] = some (o, left) := by
  rw [walk_eq]
  unfold walkWith
  rfl

theorem walk_empty (follow : Bool) (left : Nat) (d : δ) (rest : List (List UInt8)) :
    walk T L follow left (.dir d) ([] :: rest) = walk T L follow left (.dir d) rest := by
  rw [walk_eq, walkWith, if_pos rfl]

theorem walk_other (follow : Bool) (left : Nat) (o : ο) (c : List UInt8)
    (rest : List (List UInt8)) : walk T L follow left (.other o) (c :: rest) = none := by
  rw [walk_eq, walkWith]

theorem walk_none (follow : Bool) (left : Nat) (d : δ) (c : List UInt8)
    (rest : List (List UInt8)) (hc : c ≠ []) (h : lookup T d c = none) :
    walk T L follow left (.dir d) (c :: rest) = none := by
  rw [walk_eq, walkWith, if_neg hc, h]

/-- A component that is not a link. -/
theorem walk_entry (follow : Bool) (left : Nat) (d : δ) (c : List UInt8)
    (rest : List (List UInt8)) (o : Obj δ ο) (hc : c ≠ []) (h : lookup T d c = some o)
    (ho : linkOf L o = none) :
    walk T L follow left (.dir d) (c :: rest) = walk T L follow left o rest := by
  rw [walk_eq, walkWith, if_neg hc, h]
  simp only [ho]

/-- A component that is a link, and is followed. -/
theorem walk_link (follow : Bool) (left : Nat) (d : δ) (c : List UInt8)
    (rest : List (List UInt8)) (o : Obj δ ο) (t : CString) (hc : c ≠ [])
    (h : lookup T d c = some o) (ho : linkOf L o = some t) (hfollow : follow = true ∨ rest ≠ []) :
    walk T L follow left (.dir d) (c :: rest) =
      onLinkOf T L follow left (start T d t.bytes) (comps t.bytes ++ rest) := by
  have hno : ¬ (follow = false ∧ rest = []) := by
    intro hcase
    rcases hcase with ⟨hfalse, hnil⟩
    rcases hfollow with hf | hf
    · exact Bool.noConfusion (hf.symm.trans hfalse)
    · exact hf hnil
  rw [walk_eq, walkWith, if_neg hc, h]
  simp only [ho, if_neg hno]

/-- A link at the end, which is not followed. -/
theorem walk_last_link (left : Nat) (d : δ) (c : List UInt8) (o : Obj δ ο) (t : CString)
    (hc : c ≠ []) (h : lookup T d c = some o) (ho : linkOf L o = some t) :
    walk T L false left (.dir d) [c] = some (o, left) := by
  rw [walk_eq, walkWith, if_neg hc, h]
  simp only [ho, and_self, if_true]

/-- The induction on a walk: on the number of links, and on the components up
    to the next link. -/
@[elab_as_elim]
theorem walk_induct {motive : Nat → Obj δ ο → List (List UInt8) → Prop}
    (nil : ∀ left o, motive left o [])
    (other : ∀ left o c rest, motive left (.other o) (c :: rest))
    (empty : ∀ left d rest, motive left (.dir d) rest → motive left (.dir d) ([] :: rest))
    (missing : ∀ left d c rest, c ≠ [] → lookup T d c = none → motive left (.dir d) (c :: rest))
    (entry : ∀ left d c rest o, c ≠ [] → lookup T d c = some o → linkOf L o = none →
      motive left o rest → motive left (.dir d) (c :: rest))
    (tooMany : ∀ d c rest o t, c ≠ [] → lookup T d c = some o → linkOf L o = some t →
      motive 0 (.dir d) (c :: rest))
    (link : ∀ left d c rest o t, c ≠ [] → lookup T d c = some o → linkOf L o = some t →
      motive left (start T d t.bytes) (comps t.bytes ++ rest) →
      motive (left + 1) (.dir d) (c :: rest))
    (left : Nat) (o : Obj δ ο) (cs : List (List UInt8)) : motive left o cs := by
  induction left generalizing o cs with
  | zero =>
      induction cs generalizing o with
      | nil => exact nil 0 o
      | cons c rest ih =>
          cases o with
          | other o => exact other 0 o c rest
          | dir d =>
              by_cases hc : c = []
              · exact hc ▸ empty 0 d rest (ih _)
              · cases hlook : lookup T d c with
                | none => exact missing 0 d c rest hc hlook
                | some o =>
                    cases hlink : linkOf L o with
                    | none => exact entry 0 d c rest o hc hlook hlink (ih o)
                    | some t => exact tooMany d c rest o t hc hlook hlink
  | succ left ihleft =>
      induction cs generalizing o with
      | nil => exact nil _ o
      | cons c rest ih =>
          cases o with
          | other o => exact other _ o c rest
          | dir d =>
              by_cases hc : c = []
              · exact hc ▸ empty _ d rest (ih _)
              · cases hlook : lookup T d c with
                | none => exact missing _ d c rest hc hlook
                | some o =>
                    cases hlink : linkOf L o with
                    | none => exact entry _ d c rest o hc hlook hlink (ih o)
                    | some t => exact link left d c rest o t hc hlook hlink (ihleft _ _)

/-- A walk in two parts. The first follows every link, the second counts on
    from there. -/
theorem walk_append (follow : Bool) (left : Nat) (o : Obj δ ο) (xs ys : List (List UInt8))
    (h : follow = true ∨ ys ≠ []) :
    walk T L follow left o (xs ++ ys) =
      (walk T L true left o xs).bind (fun p => walk T L follow p.2 p.1 ys) := by
  have hrest : ∀ rest : List (List UInt8), follow = true ∨ rest ++ ys ≠ [] := fun rest =>
    h.imp id (fun hys => List.append_ne_nil_of_right_ne_nil rest hys)
  induction left, o, xs using walk_induct T L with
  | nil left o => rw [walk_nil, List.nil_append, Option.bind_some]
  | other left o c rest => rw [List.cons_append, walk_other, walk_other, Option.bind_none]
  | empty left d rest ih => rw [List.cons_append, walk_empty, walk_empty, ih]
  | missing left d c rest hc hlook =>
      rw [List.cons_append, walk_none T L _ _ d c _ hc hlook, walk_none T L _ _ d c _ hc hlook,
        Option.bind_none]
  | entry left d c rest o hc hlook hlink ih =>
      rw [List.cons_append, walk_entry T L _ _ d c _ o hc hlook hlink,
        walk_entry T L _ _ d c _ o hc hlook hlink, ih]
  | tooMany d c rest o t hc hlook hlink =>
      rw [List.cons_append, walk_link T L _ _ d c _ o t hc hlook hlink (hrest rest),
        walk_link T L _ _ d c _ o t hc hlook hlink (.inl rfl)]
      rfl
  | link left d c rest o t hc hlook hlink ih =>
      rw [List.cons_append, walk_link T L _ _ d c _ o t hc hlook hlink (hrest rest),
        walk_link T L _ _ d c _ o t hc hlook hlink (.inl rfl), ← List.append_assoc]
      exact ih

/-- The induction on a walk that ends at an object. -/
@[elab_as_elim]
theorem walk_some_induct {o' : Obj δ ο} {left' : Nat}
    {motive : Nat → Obj δ ο → List (List UInt8) → Prop}
    (nil : motive left' o' [])
    (empty : ∀ left d rest, walk T L true left (.dir d) rest = some (o', left') →
      motive left (.dir d) rest → motive left (.dir d) ([] :: rest))
    (entry : ∀ left d c rest o, c ≠ [] → lookup T d c = some o → linkOf L o = none →
      walk T L true left o rest = some (o', left') → motive left o rest →
      motive left (.dir d) (c :: rest))
    (link : ∀ left d c rest o t, c ≠ [] → lookup T d c = some o → linkOf L o = some t →
      walk T L true left (start T d t.bytes) (comps t.bytes ++ rest) = some (o', left') →
      motive left (start T d t.bytes) (comps t.bytes ++ rest) →
      motive (left + 1) (.dir d) (c :: rest))
    (left : Nat) (o : Obj δ ο) (cs : List (List UInt8))
    (h : walk T L true left o cs = some (o', left')) : motive left o cs := by
  induction left, o, cs using walk_induct T L with
  | nil left o =>
      rw [walk_nil] at h
      cases h
      exact nil
  | other left o c rest =>
      rw [walk_other] at h
      cases h
  | empty left d rest ih =>
      rw [walk_empty] at h
      exact empty left d rest h (ih h)
  | missing left d c rest hc hlook =>
      rw [walk_none T L _ _ d c rest hc hlook] at h
      cases h
  | entry left d c rest o hc hlook hlink ih =>
      rw [walk_entry T L _ _ d c rest o hc hlook hlink] at h
      exact entry left d c rest o hc hlook hlink h (ih h)
  | tooMany d c rest o t hc hlook hlink =>
      rw [walk_link T L _ _ d c rest o t hc hlook hlink (.inl rfl)] at h
      cases h
  | link left d c rest o t hc hlook hlink ih =>
      rw [walk_link T L _ _ d c rest o t hc hlook hlink (.inl rfl)] at h
      exact link left d c rest o t hc hlook hlink h (ih h)

/-- With more links than it needs, a walk ends at the same object. -/
theorem walk_lift (left : Nat) (o : Obj δ ο) (cs : List (List UInt8)) (o' : Obj δ ο)
    (left' more : Nat) (h : walk T L true left o cs = some (o', left')) :
    walk T L true (left + more) o cs = some (o', left' + more) := by
  refine walk_some_induct T L ?_ ?_ ?_ ?_ left o cs h
  · rw [walk_nil]
  · intro left d rest _ ih
    rw [walk_empty, ih]
  · intro left d c rest o hc hlook hlink _ ih
    rw [walk_entry T L _ _ d c rest o hc hlook hlink, ih]
  · intro left d c rest o t hc hlook hlink _ ih
    rw [Nat.add_right_comm, walk_link T L _ _ d c rest o t hc hlook hlink (.inl rfl)]
    exact ih

theorem left_le_of_walk (left : Nat) (o : Obj δ ο) (cs : List (List UInt8)) (o' : Obj δ ο)
    (left' : Nat) (h : walk T L true left o cs = some (o', left')) : left' ≤ left := by
  refine walk_some_induct T L (Nat.le_refl left') ?_ ?_ ?_ left o cs h
  · intro left d rest _ ih
    exact ih
  · intro left d c rest o _ _ _ _ ih
    exact ih
  · intro left d c rest o t _ _ _ _ ih
    exact Nat.le_succ_of_le ih

/-- All walks with enough links end at the same object. -/
theorem leadsTo_unique (o : Obj δ ο) (cs : List (List UInt8)) (a b : Obj δ ο)
    (ha : LeadsTo T L o cs a) (hb : LeadsTo T L o cs b) : a = b := by
  rcases ha with ⟨limit, left, ha⟩
  rcases hb with ⟨limit', left', hb⟩
  have hboth := walk_lift T L limit o cs a left limit' ha
  rw [Nat.add_comm, walk_lift T L limit' o cs b left' limit hb] at hboth
  exact (Prod.mk.inj (Option.some.inj hboth)).1.symm

theorem leadsTo_nil (o : Obj δ ο) : LeadsTo T L o [] o := ⟨0, 0, walk_nil T L true 0 o⟩

/-- Behind a first part, a walk goes on from the object of that part. -/
theorem leadsTo_append (o a b : Obj δ ο) (xs ys : List (List UInt8)) (h : LeadsTo T L o xs a) :
    LeadsTo T L o (xs ++ ys) b ↔ LeadsTo T L a ys b := by
  rcases h with ⟨limit, left, h⟩
  constructor
  · intro hcase
    rcases hcase with ⟨limit', left', hwhole⟩
    -- Both walks are given the links of the other one too.
    have hlong := walk_lift T L limit' o (xs ++ ys) b left' limit hwhole
    rw [Nat.add_comm, walk_append T L true _ o xs ys (.inl rfl),
      walk_lift T L limit o xs a left limit' h, Option.bind_some] at hlong
    exact ⟨left + limit', left' + limit, hlong⟩
  · intro hcase
    rcases hcase with ⟨limit', left', hrest⟩
    refine ⟨limit + limit', left + left', ?_⟩
    rw [walk_append T L true _ o xs ys (.inl rfl), walk_lift T L limit o xs a left limit' h,
      Option.bind_some, Nat.add_comm left limit', Nat.add_comm left left']
    exact walk_lift T L limit' a ys b left' left hrest

theorem straight_append (o : Obj δ ο) (xs ys : List (List UInt8)) :
    straight T L o (xs ++ ys) = (straight T L o xs).bind (fun o' => straight T L o' ys) := by
  induction xs generalizing o with
  | nil => rfl
  | cons c rest ih =>
      cases o with
      | other o => rfl
      | dir d =>
          rw [List.cons_append, straight, straight]
          by_cases hc : Special c
          · rw [if_pos hc, if_pos hc, Option.bind_none]
          · rw [if_neg hc, if_neg hc]
            cases lookup T d c with
            | none => rfl
            | some o =>
                simp only
                by_cases hlink : linkOf L o = none
                · rw [if_pos hlink, if_pos hlink, ih]
                · rw [if_neg hlink, if_neg hlink, Option.bind_none]

/-- A step along an entry. -/
theorem straight_entry (d : δ) (c : List UInt8) (rest : List (List UInt8)) (o : Obj δ ο)
    (hc : ¬ Special c) (h : lookup T d c = some o) (ho : linkOf L o = none) :
    straight T L (.dir d) (c :: rest) = straight T L o rest := by
  rw [straight, if_neg hc, h]
  simp only [if_pos ho]

theorem walk_of_straight (left : Nat) (o : Obj δ ο) (cs : List (List UInt8)) (o' : Obj δ ο)
    (h : straight T L o cs = some o') : walk T L true left o cs = some (o', left) := by
  induction cs generalizing o with
  | nil =>
      rw [walk_nil]
      cases h
      rfl
  | cons c rest ih =>
      cases o with
      | other o => cases h
      | dir d =>
          rw [straight] at h
          by_cases hc : Special c
          · rw [if_pos hc] at h
            cases h
          · rw [if_neg hc] at h
            cases hlook : lookup T d c with
            | none =>
                rw [hlook] at h
                cases h
            | some o =>
                rw [hlook] at h
                simp only at h
                by_cases hlink : linkOf L o = none
                · rw [if_pos hlink] at h
                  rw [walk_entry T L _ _ d c rest o (fun hnil => hc (.inl hnil)) hlook hlink]
                  exact ih o h
                · rw [if_neg hlink] at h
                  cases h

/-- A walk is along entries only when no component is special or a link. -/
theorem plain_iff_straight (left : Nat) (o : Obj δ ο) (cs : List (List UInt8)) (o' : Obj δ ο)
    (left' : Nat) (h : walk T L true left o cs = some (o', left')) :
    Plain T L o cs ↔ straight T L o cs = some o' := by
  refine walk_some_induct T L ⟨fun _ => rfl, fun _ => trivial⟩ ?_ ?_ ?_ left o cs h
  · intro left d rest _ _
    rw [Plain, straight, if_pos (.inl rfl)]
    exact ⟨fun hplain => absurd (.inl rfl) hplain.1, fun hnone => by cases hnone⟩
  · intro left d c rest o _ hlook hlink _ ih
    rw [Plain, straight, hlook]
    simp only [hlink, true_and, if_true]
    by_cases hc : Special c
    · rw [if_pos hc]
      exact ⟨fun hplain => absurd hc hplain.1, fun hnone => by cases hnone⟩
    · rw [if_neg hc, ← ih]
      exact ⟨fun hplain => hplain.2, fun hplain => ⟨hc, hplain⟩⟩
  · intro left d c rest o t _ hlook hlink _ _
    rw [Plain, straight, hlook]
    simp only [hlink, reduceCtorEq, false_and, and_false, if_false, ite_self]

/-- An absolute path is walked from the root. -/
theorem namei_absolute (follow : Bool) (limit : Nat) (cwd : δ) (u : List UInt8)
    (hlen : u.length + 1 < pathMax) :
    namei T L follow limit cwd (47 :: u) =
      (walk T L follow limit (.dir T.root) (comps u)).map Prod.fst := by
  have hfits : ¬ (47 :: u = [] ∨ pathMax ≤ (47 :: u).length) := by
    rw [List.length_cons]
    intro h
    rcases h with hnil | hmax
    · exact List.cons_ne_nil 47 u hnil
    · omega
  have hroot : start T cwd (47 :: u) = (.dir T.root : Obj δ ο) := if_pos rfl
  unfold namei
  rw [if_neg hfits, hroot, comps_slash, walk_empty]

/-- When a path that is walked from the root is canonical. -/
theorem canonical_iff (limit : Nat) (cwd : δ) (u : List UInt8) (a o : Obj δ ο) (left : Nat)
    (h : walk T L true limit (.dir T.root) (comps u) = some (a, left))
    (hlen : u.length + 1 < pathMax) :
    Canonical T L limit cwd (47 :: u) o ↔
      a = o ∧ (u = [] ∨ straight T L (.dir T.root) (comps u) = some a) := by
  have hname : namei T L true limit cwd (47 :: u) = some a := by
    rw [namei_absolute T L true limit cwd u hlen, h, Option.map_some]
  have hplain := plain_iff_straight T L limit _ (comps u) a left h
  constructor
  · intro hcanonical
    refine ⟨Option.some.inj (hname.symm.trans hcanonical.same), ?_⟩
    rcases hcanonical.plain with hroot | hcs
    · exact .inl (List.cons.inj hroot).2
    · rw [comps_slash] at hcs
      exact .inr (hplain.mp hcs)
  · intro hstraight
    refine ⟨rfl, ?_, hname.trans (congrArg some hstraight.1)⟩
    rcases hstraight.2 with hnil | hcs
    · exact .inl (by rw [hnil])
    · rw [comps_slash]
      exact .inr (hplain.mpr hcs)

/-- The names on the way down to a directory. -/
theorem straight_pathTo (names : List CString) (d : δ) (h : PathTo T names d) :
    straight T L (.dir T.root) (names.map CString.bytes) = some (.dir d) := by
  induction h with
  | root => rfl
  | step names p name d _ hmem ih =>
      -- A name of an entry is none of the special ones.
      have hproper := T.proper p _ hmem
      have hspecial : ¬ Special name.bytes := by
        intro hcase
        rcases hcase with hc | hc | hc
        · exact hproper.ne_nil hc
        · exact hproper.ne_dot hc
        · exact hproper.ne_dotdot hc
      rw [List.map_append, straight_append, ih, Option.bind_some, List.map_singleton,
        straight_entry T L p name.bytes [] (.dir d) hspecial (lookup_of_mem T p name _ hmem) rfl]
      rfl

/-- The components of a path made of names. -/
theorem comps_pathString (name : CString) (names : List CString)
    (h : ∀ n ∈ name :: names, 47 ∉ n.bytes) :
    comps (name.bytes ++ pathString names) = (name :: names).map CString.bytes := by
  induction names generalizing name with
  | nil => rw [pathString_nil, List.append_nil, comps_of_noSlash _ (h name List.mem_cons_self),
      List.map_singleton]
  | cons next names ih =>
      rw [pathString_cons, comps_append, comps_of_noSlash _ (h name List.mem_cons_self),
        ih next (fun n hn => h n (List.mem_cons_of_mem name hn)), List.singleton_append,
        ← List.map_cons]

end Walks

end PathWalk
