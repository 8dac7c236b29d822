import TlpiPractice.Core.Getcwd

/-!
# The Path That Is Found

What `m_getcwd` returns, for every tree and every size.

The walk is right: a directory is the only object with its `st_dev` and
`st_ino`, so the entry that is found is the one that leads back down, and the
names are those of the way from the root.

The copying is right as long as `offset` can hold the length of what has been
copied. When the path down to some directory on the way has 2^31 - 1 bytes or
more, `offset` is at the end of its range or has become negative. What follows
then depends on the size. A negative `offset` makes the comparison with `size`
one with a huge number, so `ERANGE` is returned although the buffer may be
large enough; at the end of the range `offset++` is not defined.

## Main definitions

* `Right`: The call ends as `getcwd` says.
* `OffsetHolds`: The exact condition: the path stays below 2^31 - 1 bytes down
  to the last name, or the size is such that `ERANGE` is right anyway.
* `chain`: A tree with one directory on each level.

## Theorems

* `walkUp_pathTo`: The walk finds the names.
* `concat_right_iff`: When the names are copied as they should be.
* `right_iff_offsetHolds`: When the result is right.
* `chain_wrong`: A path that is too long for `offset`.
-/

namespace TlpiPractice

namespace Getcwd

open DirTree Ints Memory

section Walk

variable {δ ο : Type*} (T : Tree δ ο) (V : View T)

/-- Among entries of `upper`, the search stops at the one for the directory. -/
theorem findEntry_of_mem (d : δ) (hd : d ≠ T.root) (name : CString)
    (hname : (name, .dir d) ∈ T.children (T.parent d)) (entries : List (CString × Obj δ ο))
    (hsub : ∀ entry ∈ entries, entry ∈ V.listing (T.parent d)) (hmem : (name, .dir d) ∈ entries) :
    findEntry T V (T.parent d) (V.ident (.dir d)) entries = .ok name := by
  induction entries with
  | nil => exact absurd hmem List.not_mem_nil
  | cons ent rest ih =>
      have hent := hsub ent List.mem_cons_self
      unfold findEntry
      rw [lookup_of_mem_listing T V _ ent.1 ent.2 hent]
      simp only
      by_cases hident : V.ident ent.2 = V.ident (.dir d)
      · -- No other object has these numbers, and the directory has no other name.
        have hdir := V.distinct d ent.2 hident.symm
        have hchild := (mem_listing_dir T V d hd ent.1).mp (hdir ▸ hent)
        rw [if_pos hident, T.oneName _ d name ent.1 hname hchild]
      · rw [if_neg hident]
        refine ih (fun entry h => hsub entry (List.mem_cons_of_mem ent h)) ?_
        rcases List.mem_cons.mp hmem with h | h
        · exact absurd (by rw [← h]) hident
        · exact h

/-- The walk ends at the root, with the names of the way down in front of the
    list. -/
theorem walkUp_pathTo (names : List CString) (d : δ) (h : PathTo T names d) (rounds : Nat)
    (header : List CString) (hrounds : names.length < rounds) :
    walkUp T V rounds d header = (T.root, .ok (names ++ header)) := by
  induction h generalizing rounds header with
  | root =>
      cases rounds with
      | zero => exact absurd hrounds (Nat.not_lt_zero _)
      | succ rounds =>
          unfold walkUp
          rw [T.parent_root, if_pos rfl]
          rfl
  | step names p name d _ hmem ih =>
      cases rounds with
      | zero => exact absurd hrounds (Nat.not_lt_zero _)
      | succ rounds =>
          rcases T.home p d name hmem with ⟨hroot, hparent⟩
          have hother : V.ident (.dir d) ≠ V.ident (.dir p) := by
            intro hc
            have hsame := Obj.dir.inj (V.distinct d _ hc)
            exact hroot (eq_root_of_parent_eq T d (hparent.trans hsame))
          have hlisted : (name, Obj.dir d) ∈ T.children (T.parent d) := hparent.symm ▸ hmem
          have hfound := findEntry_of_mem T V d hroot name hlisted (V.listing (T.parent d))
            (fun _ h => h) ((mem_listing_dir T V d hroot name).mpr hlisted)
          rw [hparent] at hfound
          rw [List.length_append, List.length_singleton] at hrounds
          unfold walkUp
          rw [hparent, if_neg hother, hfound]
          simp only
          rw [ih rounds (name :: header) (by omega), List.append_assoc, List.singleton_append]

end Walk

/-- The buffer holds the names so far, with a NUL behind them, and nothing has
    been stored at `size` or beyond. -/
structure Holds (size : Nat) (before : List CString) (buf : Buffer) : Prop where
  text : load buf.mem 0 (pathString before).length = pathString before
  ended : before ≠ [] → (pathString before).length < size ∧
    load buf.mem 0 ((pathString before).length + 1) = pathString before ++ [0]
  inside : buf.high ≤ size

/-- One round of the loop over the names. -/
theorem holds_put (size : Nat) (before : List CString) (dir : CString) (buf : Buffer)
    (h : Holds size before buf)
    (hfits : (pathString before).length + dir.bytes.length + 1 < size) :
    let buf' := (buf.put (pathString before).length [47]).put ((pathString before).length + 1)
      (dir.bytes ++ [0])
    Holds size (before ++ [dir]) buf' ∧
      CString.str (load buf'.mem 0 size) = pathString (before ++ [dir]) := by
  intro buf'
  have hpath : pathString (before ++ [dir]) = pathString before ++ 47 :: dir.bytes := by
    rw [pathString_append, pathString_cons, pathString_nil, List.append_nil]
  have hlen : (pathString (before ++ [dir])).length =
      (pathString before).length + dir.bytes.length + 1 := by
    rw [hpath, List.length_append, List.length_cons]
    omega
  -- The slash and the name are one copy behind what is there already.
  have hwhole : load buf'.mem 0 ((pathString (before ++ [dir])).length + 1) =
      pathString (before ++ [dir]) ++ [0] := by
    have hstore : buf'.mem = store buf.mem (0 + (pathString before).length)
        (47 :: dir.bytes ++ [0]) := by
      rw [Nat.zero_add]
      exact store_store buf.mem (pathString before).length [47] (dir.bytes ++ [0])
    have hcount : (pathString (before ++ [dir])).length + 1 =
        (pathString before).length + (47 :: dir.bytes ++ [0]).length := by
      rw [hlen, List.length_append, List.length_cons, List.length_singleton]
      omega
    rw [hstore, hcount, load_store_behind, h.text, hpath, List.append_assoc]
  have hhigh : buf'.high ≤ size := by
    have hbefore := h.inside
    change max (max buf.high _) (_ + (dir.bytes ++ [0]).length) ≤ size
    rw [List.length_append, List.length_singleton, List.length_singleton]
    omega
  refine ⟨⟨load_front _ _ _ _ _ hwhole, fun _ => ⟨by omega, hwhole⟩, hhigh⟩, ?_⟩
  have hsize : size = (pathString (before ++ [dir])).length + 1 +
      (size - ((pathString (before ++ [dir])).length + 1)) := by omega
  rw [hsize, load_add, hwhole, List.append_assoc, List.singleton_append]
  exact CString.str_append _ _ (pathString_noNul _)

/-- The call ends as it should, where `path` is what it should find. -/
def Right (path : List UInt8) (size : Nat) : Except Stop (Ret × Buffer) → Prop
  | .error _ => False
  | .ok (ret, buf) => buf.high ≤ size ∧
      if path.length < size then ret = .path ∧ load buf.mem 0 (path.length + 1) = path ++ [0]
      else ret = .erange

/-- Consider the first directory on the way whose path has 2^31 - 1 bytes or
    more, if there is one, and the name after it. Then `ERANGE` comes in time,
    or it comes too early for the path so far but is right in the end. -/
def OffsetHolds (names : List CString) (size : Nat) : Prop :=
  ∀ before dir after, names = before ++ dir :: after →
    (pathString before.dropLast).length < 2147483647 → 2147483647 ≤ (pathString before).length →
    size ≤ (pathString before).length + dir.bytes.length + 1 ∨
      ((pathString before).length ≠ 2147483647 ∧ size ≤ (pathString names).length ∧
        size ≤ 18446744069414584320 + (pathString before).length + dir.bytes.length + 1)

/-- A name has its place behind the names before it. -/
theorem length_step (before : List CString) (dir : CString) (after : List CString) :
    (pathString (before ++ dir :: after)).length =
      (pathString before).length + dir.bytes.length + 1 + (pathString after).length := by
  rw [length_pathString_append, length_pathString_cons]
  omega

/-- The way to a directory on the way is no longer than the way to the one
    above the end. -/
theorem length_le_dropLast (before : List CString) (dir : CString) (after : List CString) :
    (pathString before).length ≤ (pathString (before ++ dir :: after).dropLast).length := by
  rw [List.dropLast_append_of_ne_nil (List.cons_ne_nil dir after), length_pathString_append]
  omega

/-- There is one first directory with a path that long. -/
theorem first_late_unique (before before' : List CString) (dir dir' : CString)
    (after after' : List CString) (h : before ++ dir :: after = before' ++ dir' :: after')
    (habove : (pathString before.dropLast).length < 2147483647)
    (hlate : 2147483647 ≤ (pathString before).length)
    (habove' : (pathString before'.dropLast).length < 2147483647)
    (hlate' : 2147483647 ≤ (pathString before').length) : before' = before ∧ dir' = dir := by
  rcases List.append_eq_append_iff.mp h with ⟨mid, hbefore', hrest⟩ | ⟨mid, hbefore, hrest⟩
  · cases mid with
    | nil => exact ⟨by rw [hbefore', List.append_nil], (List.cons.inj hrest).1.symm⟩
    | cons name mid =>
        have hle := length_le_dropLast before name mid
        rw [← hbefore'] at hle
        omega
  · cases mid with
    | nil => exact ⟨by rw [hbefore, List.append_nil], (List.cons.inj hrest).1⟩
    | cons name mid =>
        have hle := length_le_dropLast before' name mid
        rw [← hbefore] at hle
        omega

/-- The first path that is too long is not much too long. -/
theorem length_lt_of_above (before : List CString)
    (hshort : ∀ name ∈ before, name.bytes.length ≤ 255)
    (habove : (pathString before.dropLast).length < 2147483647) :
    (pathString before).length < 2147483904 := by
  by_cases hnil : before = []
  · rw [hnil, pathString_nil, List.length_nil]
    omega
  · have hlast := hshort _ (List.getLast_mem hnil)
    have hlen := length_step before.dropLast (before.getLast hnil) []
    rw [List.dropLast_append_getLast hnil, pathString_nil, List.length_nil] at hlen
    omega

/-- A name behind a path that is too long. -/
theorem concat_late (size : Nat) (before : List CString) (dir : CString) (after : List CString)
    (buf : Buffer)
    (hshort : ∀ name ∈ before ++ dir :: after, name.bytes.length ≤ 255)
    (habove : (pathString before.dropLast).length < 2147483647)
    (hlate : 2147483647 ≤ (pathString before).length) (hinside : buf.high ≤ size) :
    Right (pathString (before ++ dir :: after)) size
        (concat size (dir :: after) (wrap (pathString before).length) buf) ↔
      OffsetHolds (before ++ dir :: after) size := by
  have hlt := length_lt_of_above before
    (fun name h => hshort name (List.mem_append_left _ h)) habove
  have hdir := hshort dir (List.mem_append_right _ List.mem_cons_self)
  have htotal := length_step before dir after
  have honly : OffsetHolds (before ++ dir :: after) size ↔
      (size ≤ (pathString before).length + dir.bytes.length + 1 ∨
        ((pathString before).length ≠ 2147483647 ∧
          size ≤ (pathString (before ++ dir :: after)).length ∧
          size ≤ 18446744069414584320 + (pathString before).length + dir.bytes.length + 1)) := by
    refine ⟨fun h => h before dir after rfl habove hlate, fun h => ?_⟩
    intro before' dir' after' hnames habove' hlate'
    rcases first_late_unique before before' dir dir' after after' hnames habove hlate habove'
      hlate' with ⟨rfl, rfl⟩
    exact h
  rw [honly, concat]
  by_cases hend : (pathString before).length = 2147483647
  · -- `offset` is at the end of its range, and cannot be incremented.
    rw [wrap_of_nonneg _ (by omega) (by unfold intMax; omega),
      toSize_of_nonneg _ (by omega) (by omega)]
    by_cases herange : size ≤ (pathString before).length + dir.bytes.length + 1
    · rw [if_pos (by omega)]
      refine ⟨fun _ => .inl herange, fun _ => ⟨hinside, ?_⟩⟩
      rw [if_neg (by omega)]
    · rw [if_neg (by omega), if_pos (.inr (by unfold intMax; omega))]
      refine ⟨fun h => h.elim, fun h => ?_⟩
      rcases h with h | h
      · exact absurd h herange
      · exact absurd hend h.1
  · -- `offset` is negative, so what `size` is compared with is huge.
    rw [wrap_of_late _ (by omega) (by omega), toSize_of_neg _ (by omega) (by omega)]
    by_cases herange :
        size ≤ 18446744069414584320 + (pathString before).length + dir.bytes.length + 1
    · rw [if_pos (by omega)]
      unfold Right
      simp only
      by_cases hfits : (pathString (before ++ dir :: after)).length < size
      · rw [if_pos hfits]
        refine ⟨fun h => absurd h.2.1 (by decide), fun h => ?_⟩
        rcases h with h | h
        · omega
        · omega
      · rw [if_neg hfits]
        exact ⟨fun _ => .inr ⟨hend, by omega, herange⟩, fun _ => ⟨hinside, trivial⟩⟩
    · rw [if_neg (by omega), if_pos (.inl (by omega))]
      refine ⟨fun h => h.elim, fun h => ?_⟩
      rcases h with h | h
      · omega
      · exact absurd h.2.2 herange

/-- From any name on: what has been copied is right, so the rest decides. -/
theorem concat_right_iff (size : Nat) (before rest : List CString) (buf : Buffer)
    (hsize : size < 18446744073709551616)
    (hshort : ∀ name ∈ before ++ rest, name.bytes.length ≤ 255) (hne : before ++ rest ≠ [])
    (habove : (pathString before.dropLast).length < 2147483647) (h : Holds size before buf) :
    Right (pathString (before ++ rest)) size
        (concat size rest (wrap (pathString before).length) buf) ↔
      OffsetHolds (before ++ rest) size := by
  induction rest generalizing before buf with
  | nil =>
      rw [List.append_nil] at hne ⊢
      rcases h.ended hne with ⟨hfits, hended⟩
      refine ⟨fun _ => ?_, fun _ => ⟨h.inside, ?_⟩⟩
      · -- All directories above the last name have shorter paths.
        intro before' dir after hnames _ hlate
        have hle := length_le_dropLast before' dir after
        rw [← hnames] at hle
        omega
      · rw [if_pos hfits]
        exact ⟨rfl, hended⟩
  | cons dir after ih =>
      by_cases hlate : 2147483647 ≤ (pathString before).length
      · exact concat_late size before dir after buf hshort habove hlate h.inside
      · have hdir := hshort dir (List.mem_append_right _ List.mem_cons_self)
        have htotal := length_step before dir after
        rw [concat, wrap_of_nonneg _ (by omega) (by unfold intMax; omega),
          toSize_of_nonneg _ (by omega) (by omega)]
        by_cases herange : size ≤ (pathString before).length + dir.bytes.length + 1
        · rw [if_pos (by omega)]
          refine ⟨fun _ => ?_, fun _ => ⟨h.inside, ?_⟩⟩
          · -- A path that is too long comes later, where `size` is reached.
            intro before' dir' after' hnames _ hlate'
            rcases List.append_eq_append_iff.mp hnames with ⟨mid, hmid, hrest⟩ | ⟨mid, hmid, _⟩
            · cases mid with
              | nil =>
                  rw [List.append_nil] at hmid
                  rw [hmid] at hlate'
                  omega
              | cons name mid =>
                  have hname := (List.cons.inj hrest).1
                  have hlen := length_step before name mid
                  rw [← hmid, ← hname] at hlen
                  exact .inl (by omega)
            · have hlen := length_pathString_append before' mid
              rw [← hmid] at hlen
              omega
          · rw [if_neg (by omega)]
        · rw [if_neg (by omega), if_neg (by unfold intMax; omega)]
          rcases holds_put size before dir buf h (by omega) with ⟨hholds, hstr⟩
          simp only [Int.toNat_natCast]
          rw [hstr]
          have hrec := ih (before ++ [dir]) _ (by rwa [List.append_assoc, List.singleton_append])
            (by rwa [List.append_assoc, List.singleton_append])
            (by rw [List.dropLast_concat]; omega) hholds
          rwa [List.append_assoc, List.singleton_append] at hrec

theorem holds_empty (size : Nat) (mem : Nat → UInt8) : Holds size [] ⟨mem, 0⟩ :=
  ⟨rfl, fun h => absurd rfl h, Nat.zero_le size⟩

section Calls

variable {δ ο : Type*} (T : Tree δ ο) (V : View T)

/-- A call that is given enough rounds. -/
theorem mGetcwd_eq (names : List CString) (cwd : δ) (h : PathTo T names cwd) (rounds : Nat)
    (hrounds : names.length < rounds) (buf : Nat → UInt8) (size : Nat) :
    mGetcwd T V rounds cwd buf size = (T.root, concat size names 0 ⟨buf, 0⟩) := by
  unfold mGetcwd
  rw [walkUp_pathTo T V names cwd h rounds [] hrounds, List.append_nil]

/-- The result of a call with enough rounds, from a directory other than the
    root, is right just when `offset` holds out. -/
theorem mGetcwd_right_iff (names : List CString) (cwd : δ) (h : PathTo T names cwd)
    (hcwd : cwd ≠ T.root) (rounds : Nat) (hrounds : names.length < rounds) (buf : Nat → UInt8)
    (size : Nat) (hsize : size < 18446744073709551616) :
    Right (pathString names) size (mGetcwd T V rounds cwd buf size).2 ↔ OffsetHolds names size := by
  have hne : names ≠ [] := fun hc => hcwd ((pathTo_nil_iff T names cwd h).mp hc)
  rw [mGetcwd_eq T V names cwd h rounds hrounds]
  exact concat_right_iff size [] names ⟨buf, 0⟩ hsize
    (fun name hname => (proper_of_pathTo T names cwd h name hname).short) hne (by decide)
    (holds_empty size buf)

/-- For every tree, every current directory other than the root and every size:
    the way up finds the names of the way down, and the call returns their path
    if it fits, and `ERANGE` if not, and stores inside the buffer, just when
    `offset` can hold what it has to. -/
theorem right_iff_offsetHolds (cwd : δ) (hcwd : cwd ≠ T.root) (buf : Nat → UInt8) (size : Nat)
    (hsize : size < 18446744073709551616) :
    ∃ names, PathTo T names cwd ∧ ∀ rounds, names.length < rounds →
      (Right (pathString names) size (mGetcwd T V rounds cwd buf size).2 ↔
        OffsetHolds names size) := by
  rcases exists_pathTo T cwd with ⟨names, h⟩
  exact ⟨names, h, fun rounds hrounds =>
    mGetcwd_right_iff T V names cwd h hcwd rounds hrounds buf size hsize⟩

end Calls

/-- A name of 255 bytes. -/
def longName : CString := ⟨List.replicate 255 97, fun b hb => by
  rw [List.eq_of_mem_replicate hb]
  decide⟩

theorem length_longName : longName.bytes.length = 255 := List.length_replicate

theorem proper_longName : Proper longName where
  ne_nil := List.ne_nil_of_length_pos (by rw [length_longName]; omega)
  noSlash := fun h => absurd (List.eq_of_mem_replicate h) (by decide)
  ne_dot := fun h => absurd (length_longName.symm.trans (congrArg List.length h)) (by decide)
  ne_dotdot := fun h => absurd (length_longName.symm.trans (congrArg List.length h)) (by decide)
  short := by rw [length_longName]

/-- The directory above a level of the chain. -/
def above (n : Nat) (d : Fin (n + 1)) : Fin (n + 1) := ⟨d.val - 1, by omega⟩

/-- The entries of a level of the chain. -/
def below (n : Nat) (d : Fin (n + 1)) : List (CString × Obj (Fin (n + 1)) Empty) :=
  if h : d.val < n then [(longName, .dir ⟨d.val + 1, by omega⟩)] else []

theorem mem_below (n : Nat) (d d' : Fin (n + 1)) (name : CString) :
    (name, .dir d') ∈ below n d ↔ name = longName ∧ d'.val = d.val + 1 := by
  unfold below
  by_cases h : d.val < n
  · rw [dif_pos h, List.mem_singleton, Prod.mk.injEq, Obj.dir.injEq, Fin.ext_iff]
  · rw [dif_neg h]
    exact ⟨fun hc => absurd hc List.not_mem_nil, fun hc => by omega⟩

theorem iterate_above (n k : Nat) (d : Fin (n + 1)) : ((above n)^[k] d).val = d.val - k := by
  induction k with
  | zero => rfl
  | succ k ih =>
      rw [Function.iterate_succ_apply', above]
      simp only [ih]
      omega

/-- One directory on each level, `n` levels below the root. -/
def chain (n : Nat) : Tree (Fin (n + 1)) Empty where
  root := ⟨0, by omega⟩
  parent := above n
  children := below n
  parent_root := rfl
  ancestor := fun d => ⟨d.val, Fin.ext (by rw [iterate_above, Nat.sub_self])⟩
  mem_parent := fun d hd => by
    have hpos : d.val ≠ 0 := fun hc => hd (Fin.ext hc)
    refine ⟨longName, (mem_below n _ d longName).mpr ⟨rfl, ?_⟩⟩
    simp only [above]
    omega
  home := fun d d' name h => by
    have hd' := ((mem_below n d d' name).mp h).2
    refine ⟨fun hc => ?_, Fin.ext ?_⟩
    · rw [hc] at hd'
      simp only at hd'
      omega
    · simp only [above]
      omega
  oneName := fun d d' name name' h h' => by
    rw [((mem_below n d d' name).mp h).1, ((mem_below n d d' name').mp h').1]
  distinctNames := fun d => by
    unfold below
    by_cases h : d.val < n
    · rw [dif_pos h]
      exact List.nodup_singleton _
    · rw [dif_neg h]
      exact List.nodup_nil
  proper := fun d entry h => by
    unfold below at h
    by_cases hd : d.val < n
    · rw [dif_pos hd, List.mem_singleton] at h
      rw [h]
      exact proper_longName
    · rw [dif_neg hd] at h
      exact absurd h List.not_mem_nil

/-- The levels are numbered. -/
def chainView (n : Nat) : View (chain n) where
  ident
    | .dir d => (0, d.val)
    | .other o => o.elim
  distinct := fun d o h => by
    cases o with
    | dir d' => rw [Fin.ext (Prod.mk.inj h).2]
    | other o => exact o.elim
  listing := fun d => (dot, .dir d) :: (dotdot, .dir (above n d)) :: below n d
  listing_perm := fun _ => List.Perm.refl _

theorem last_ne_root (n : Nat) : Fin.last (n + 1) ≠ (chain (n + 1)).root :=
  fun hc => absurd (congrArg Fin.val hc) (Nat.succ_ne_zero n)

theorem pathTo_chain (n k : Nat) (hk : k < n + 1) :
    PathTo (chain n) (List.replicate k longName) ⟨k, hk⟩ := by
  induction k with
  | zero => exact .root
  | succ k ih =>
      rw [List.replicate_succ']
      exact .step _ _ longName _ (ih (by omega)) ((mem_below n _ _ longName).mpr ⟨rfl, rfl⟩)

theorem length_pathString_replicate (k : Nat) :
    (pathString (List.replicate k longName)).length = 256 * k := by
  induction k with
  | zero => rfl
  | succ k ih =>
      rw [List.replicate_succ, length_pathString_cons, ih, length_longName]
      omega

/-- The path is too long where the last name follows, and fits. -/
theorem chain_late (n : Nat) (hn : n = 8388608) (buf : Nat → UInt8) :
    ¬ Right (pathString (List.replicate (n + 1) longName)) 4294967296
      (mGetcwd (chain (n + 1)) (chainView (n + 1)) (n + 2) (Fin.last (n + 1)) buf
        4294967296).2 := by
  intro h
  have hpath := pathTo_chain (n + 1) (n + 1) (Nat.lt_succ_self (n + 1))
  have hholds := (mGetcwd_right_iff (chain (n + 1)) (chainView (n + 1)) _ _ hpath
    (last_ne_root n) (n + 2) (by rw [List.length_replicate]; omega) buf 4294967296
    (by omega)).mp h
  have hlate := hholds (List.replicate n longName) longName [] List.replicate_succ'
    (by rw [List.dropLast_replicate, length_pathString_replicate]; omega)
    (by rw [length_pathString_replicate]; omega)
  rw [length_pathString_replicate, length_pathString_replicate, length_longName] at hlate
  omega

/-- A directory 2^23 + 1 levels down, and a buffer of 4 GiB. Its path has
    2^31 + 256 bytes, and fits. -/
theorem chain_wrong :
    PathTo (chain 8388609) (List.replicate 8388609 longName) (Fin.last 8388609) ∧
      (pathString (List.replicate 8388609 longName)).length < 4294967296 ∧
      ¬ Right (pathString (List.replicate 8388609 longName)) 4294967296
        (mGetcwd (chain 8388609) (chainView 8388609) 8388610 (Fin.last 8388609) (fun _ => 0)
          4294967296).2 :=
  ⟨pathTo_chain 8388609 8388609 (Nat.lt_succ_self 8388609),
    by rw [length_pathString_replicate]; omega, chain_late 8388608 rfl (fun _ => 0)⟩

theorem right_iff_offsetHolds_oneLevel :
    ∃ names, PathTo (chain 1) names (Fin.last 1) ∧ ∀ rounds, names.length < rounds →
      (Right (pathString names) 300
          (mGetcwd (chain 1) (chainView 1) rounds (Fin.last 1) (fun _ => 0) 300).2 ↔
        OffsetHolds names 300) :=
  right_iff_offsetHolds (chain 1) (chainView 1) (Fin.last 1) (last_ne_root 0)
    (fun _ => 0) 300 (by omega)

end Getcwd

end TlpiPractice
