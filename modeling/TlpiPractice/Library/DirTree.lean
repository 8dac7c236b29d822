import Mathlib.Logic.Function.Iterate
import Mathlib.Data.List.Nodup
import TlpiPractice.Library.CString

/-!
# Directory Trees

A tree of directories as a program sees it: each directory has its entries,
among them `.` for itself and `..` for the directory above it, and the root is
its own `..`.

The structure says what makes it a tree. Going up ends at the root, and a
directory has one entry, in the directory above it. Names are not empty, are no
longer than 255 bytes, and have no slash in them.

`View` adds what `stat` and `readdir` tell of the tree.

## Main definitions

* `Obj`: A directory or something else.
* `Tree`: A tree of directories.
* `lookup`: The object of a name in a directory.
* `PathTo`: The names on the way down from the root.
* `pathString`: These names, each behind a slash.
* `absPath`: The absolute path they make.
* `View`: A tree whose directories can be told apart.

## Theorems

* `eq_root_of_parent_eq`: Only the root is its own `..`.
* `exists_pathTo`: There is a way down to every directory.
* `lookup_of_mem`: An entry is found by its name.
* `mem_listing_dir`: The entry that leads back down to a directory.
-/

namespace DirTree

/-- What a directory entry can stand for. -/
inductive Obj (δ ο : Type*) where
  | dir (d : δ)
  | other (o : ο)
  deriving DecidableEq

/-- `"."`. -/
def dot : CString := .cons 46 (by decide) .empty

/-- `".."`. -/
def dotdot : CString := .cons 46 (by decide) dot

/-- A name that a file can have. -/
structure Proper (name : CString) : Prop where
  ne_nil : name.bytes ≠ []
  noSlash : 47 ∉ name.bytes
  ne_dot : name.bytes ≠ dot.bytes
  ne_dotdot : name.bytes ≠ dotdot.bytes
  short : name.bytes.length ≤ 255

/-- A tree of directories. `children` leaves out the entries `.` and `..`. -/
structure Tree (δ ο : Type*) where
  root : δ
  parent : δ → δ
  children : δ → List (CString × Obj δ ο)
  parent_root : parent root = root
  ancestor : ∀ d, ∃ n, parent^[n] d = root
  mem_parent : ∀ d, d ≠ root → ∃ name, (name, .dir d) ∈ children (parent d)
  home : ∀ d d' name, (name, .dir d') ∈ children d → d' ≠ root ∧ parent d' = d
  oneName : ∀ d d' name name', (name, .dir d') ∈ children d → (name', .dir d') ∈ children d →
    name' = name
  distinctNames : ∀ d, ((children d).map Prod.fst).Nodup
  proper : ∀ d entry, entry ∈ children d → Proper entry.1

section Trees

variable {δ ο : Type*} (T : Tree δ ο)

/-- The object that the name stands for in the directory, without following
    it. -/
def lookup (d : δ) (name : List UInt8) : Option (Obj δ ο) :=
  if name = dot.bytes then some (.dir d)
  else if name = dotdot.bytes then some (.dir (T.parent d))
  else ((T.children d).find? (fun entry => entry.1.bytes = name)).map Prod.snd

/-- The names lead from the root down to the directory. -/
inductive PathTo : List CString → δ → Prop where
  | root : PathTo [] T.root
  | step (names : List CString) (d : δ) (name : CString) (d' : δ) (h : PathTo names d)
      (hmem : (name, .dir d') ∈ T.children d) : PathTo (names ++ [name]) d'

/-- The names, each behind a slash. -/
def pathString (names : List CString) : List UInt8 := names.flatMap (fun name => 47 :: name.bytes)

/-- The absolute path that the names make. -/
def absPath (names : List CString) : List UInt8 := if names = [] then [47] else pathString names

theorem pathString_nil : pathString [] = [] := rfl

theorem pathString_append (names rest : List CString) :
    pathString (names ++ rest) = pathString names ++ pathString rest := by
  unfold pathString
  rw [List.flatMap_append]

theorem pathString_cons (name : CString) (names : List CString) :
    pathString (name :: names) = 47 :: (name.bytes ++ pathString names) := by
  unfold pathString
  rw [List.flatMap_cons, List.cons_append]

theorem length_pathString_cons (name : CString) (names : List CString) :
    (pathString (name :: names)).length = name.bytes.length + 1 + (pathString names).length := by
  rw [pathString_cons, List.length_cons, List.length_append]
  omega

theorem length_pathString_append (names rest : List CString) :
    (pathString (names ++ rest)).length = (pathString names).length + (pathString rest).length := by
  rw [pathString_append, List.length_append]

theorem pathString_noNul (names : List CString) : ∀ b ∈ pathString names, b ≠ 0 := by
  intro b hb
  rcases List.mem_flatMap.mp hb with ⟨name, _, hb⟩
  rcases List.mem_cons.mp hb with rfl | hb
  · decide
  · exact name.noNul b hb

theorem eq_root_of_parent_eq (d : δ) (h : T.parent d = d) : d = T.root := by
  rcases T.ancestor d with ⟨n, hn⟩
  rwa [Function.iterate_fixed h n] at hn

theorem exists_pathTo (d : δ) : ∃ names, PathTo T names d := by
  rcases T.ancestor d with ⟨n, hn⟩
  induction n generalizing d with
  | zero =>
      rw [Function.iterate_zero, id_eq] at hn
      exact ⟨[], hn ▸ PathTo.root⟩
  | succ n ih =>
      by_cases hroot : d = T.root
      · exact ⟨[], hroot ▸ PathTo.root⟩
      · rcases ih (T.parent d) (by rwa [Function.iterate_succ_apply] at hn) with ⟨names, hnames⟩
        rcases T.mem_parent d hroot with ⟨name, hmem⟩
        exact ⟨names ++ [name], .step names _ name d hnames hmem⟩

/-- The names on the way to a directory are proper. -/
theorem proper_of_pathTo (names : List CString) (d : δ) (h : PathTo T names d) :
    ∀ name ∈ names, Proper name := by
  induction h with
  | root => exact fun name hname => absurd hname List.not_mem_nil
  | step names p name d _ hmem ih =>
      intro name' hname'
      rcases List.mem_append.mp hname' with h | h
      · exact ih name' h
      · rw [List.mem_singleton.mp h]
        exact T.proper p _ hmem

theorem pathTo_nil_iff (names : List CString) (d : δ) (h : PathTo T names d) :
    names = [] ↔ d = T.root := by
  cases h with
  | root => exact ⟨fun _ => rfl, fun _ => rfl⟩
  | step names p name _ hp hmem =>
      exact ⟨fun hc => absurd hc (List.append_ne_nil_of_right_ne_nil names (List.cons_ne_nil _ _)),
        fun hc => absurd hc (T.home p d name hmem).1⟩

theorem lookup_of_mem (d : δ) (name : CString) (o : Obj δ ο) (h : (name, o) ∈ T.children d) :
    lookup T d name.bytes = some o := by
  have hproper := T.proper d _ h
  unfold lookup
  rw [if_neg hproper.ne_dot, if_neg hproper.ne_dotdot]
  cases hfind : (T.children d).find? (fun entry => entry.1.bytes = name.bytes) with
  | none => exact absurd (decide_eq_true rfl) (List.find?_eq_none.mp hfind (name, o) h)
  | some entry =>
      -- No two entries of a directory have one name.
      have hbytes : entry.1.bytes = name.bytes := by simpa using List.find?_some hfind
      have hname := CString.eq_of_bytes entry.1 name hbytes
      have hsame := List.inj_on_of_nodup_map (T.distinctNames d)
        (List.mem_of_find?_eq_some hfind) h hname
      rw [hsame]
      rfl

/-- What two steps up lead back to is the root. -/
theorem eq_root_of_parent_parent_eq (d : δ) (h : T.parent (T.parent d) = d) : d = T.root := by
  -- All steps up stay between the two directories.
  have hturn : ∀ n, T.parent^[n] d = d ∨ T.parent^[n] d = T.parent d := by
    intro n
    induction n with
    | zero => exact .inl rfl
    | succ n ih =>
        rw [Function.iterate_succ_apply']
        rcases ih with ih | ih
        · exact .inr (by rw [ih])
        · exact .inl (by rw [ih, h])
  rcases T.ancestor d with ⟨n, hn⟩
  rcases hturn n with hd | hd
  · rw [← hd, hn]
  · rw [← h, ← hd, hn, T.parent_root]

/-- What `stat` and `readdir` tell of a tree. `ident` is `st_dev` and `st_ino`,
    and the entries come in any order, with `.` and `..` among them. -/
structure View (T : Tree δ ο) where
  ident : Obj δ ο → Nat × Nat
  distinct : ∀ d o, ident (.dir d) = ident o → o = .dir d
  listing : δ → List (CString × Obj δ ο)
  listing_perm : ∀ d, (listing d).Perm
    ((dot, .dir d) :: (dotdot, .dir (T.parent d)) :: T.children d)

theorem lookup_of_mem_listing (V : View T) (d : δ) (name : CString) (o : Obj δ ο)
    (h : (name, o) ∈ V.listing d) : lookup T d name.bytes = some o := by
  rcases List.mem_cons.mp ((V.listing_perm d).mem_iff.mp h) with h | h
  · obtain ⟨rfl, rfl⟩ := Prod.mk.inj h
    rfl
  · rcases List.mem_cons.mp h with h | h
    · obtain ⟨rfl, rfl⟩ := Prod.mk.inj h
      rfl
    · exact lookup_of_mem T d name o h

/-- The entry for a directory is the only one that leads to it. -/
theorem mem_listing_dir (V : View T) (d : δ) (hd : d ≠ T.root) (name : CString) :
    (name, .dir d) ∈ V.listing (T.parent d) ↔ (name, .dir d) ∈ T.children (T.parent d) := by
  refine ⟨fun h => ?_, fun h => (V.listing_perm _).mem_iff.mpr
    (List.mem_cons_of_mem _ (List.mem_cons_of_mem _ h))⟩
  rcases List.mem_cons.mp ((V.listing_perm _).mem_iff.mp h) with h | h
  · exact absurd (eq_root_of_parent_eq T d (Obj.dir.inj (Prod.mk.inj h).2).symm) hd
  · rcases List.mem_cons.mp h with h | h
    · exact absurd (eq_root_of_parent_parent_eq T d (Obj.dir.inj (Prod.mk.inj h).2).symm) hd
    · exact h

end Trees

end DirTree
