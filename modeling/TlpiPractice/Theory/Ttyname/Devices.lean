import Mathlib.Tactic.Common
import TlpiPractice.Core.Ttyname

/-!
# The Path of a Device

What the path that `my_ttyname` gives is the path of.

A device in `/dev` is found, and its path is right, unless an entry in front
of it cannot be looked at. A device in `/dev/pts` is never given its path: the
string that is given ends with the directory, which is not the device, since
otherwise it would have been found in `/dev`. So with a device that is only
there the function is always wrong.

## Main definitions

* `statPath`: What `stat` gives for a path.
* `TtynameRight`: What the function should do.
* `InReach`: A device in `/dev` that is found.
* `DevStops`: The function gives up in `/dev`.

## Theorems

* `scanDir_spec`: What the loop over a directory finds.
* `str_dev`, `str_pts`: The strings at the pointer.
* `not_right_pts`: A device of `/dev/pts`.
* `ttynameRight_iff`: When the function is right.
* `pts_wrong`: A terminal for which it is not.
-/

namespace TlpiPractice

namespace Ttyname

open Memory

/-- The entries of a directory, if it can be opened. -/
def entriesOf (dir : Option Dir) : List Entry := dir.elim [] Dir.entries

/-- What `stat` gives for a name in a directory. -/
def lookup (dir : Option Dir) (name : List UInt8) : Option Dev :=
  ((entriesOf dir).find? (fun ent => decide (ent.dName.bytes = name))).bind Entry.stRdev

/-- `"/dev/pts/"`. -/
def devPtsSlash : List UInt8 := [47, 100, 101, 118, 47, 112, 116, 115, 47]

/-- What `stat` gives for a path in one of the two directories. -/
def statPath (dev pts : Option Dir) (path : List UInt8) : Option Dev :=
  if devPtsSlash.isPrefixOf path then lookup pts (path.drop devPtsSlash.length)
  else if devSlash.isPrefixOf path then lookup dev (path.drop devSlash.length)
  else none

/-- For a descriptor on a terminal the function should give a path of the
    device, if there is an entry for it, and a null pointer only if there is
    none. -/
def TtynameRight (rdev : Dev) (dev pts : Option Dir) : Prop :=
  ∃ res, ttyname true (some rdev) dev pts = .returned res ∧
    ((∃ ent ∈ entriesOf dev ++ entriesOf pts, ent.stRdev = some rdev) →
      ∃ path, res = some path ∧ statPath dev pts path = some rdev) ∧
    (res = none → ∀ ent ∈ entriesOf dev ++ entriesOf pts, ent.stRdev ≠ some rdev)

/-- An entry for the device with none in front of it that `stat` fails for. -/
def InReach (rdev : Dev) (entries : List Entry) : Prop :=
  ∃ before ent after, entries = before ++ ent :: after ∧
    (∀ e ∈ before, e.stRdev ≠ none) ∧ ent.stRdev = some rdev

/-- `/dev` cannot be opened, one of its entries cannot be looked at, or it
    cannot be read to its end. -/
def DevStops (dev : Option Dir) : Prop :=
  ∀ dir, dev = some dir → (∃ ent ∈ dir.entries, ent.stRdev = none) ∨ dir.readFails = true

/-! ### The loop over a directory -/

theorem inReach_cons (rdev : Dev) (ent : Entry) (rest : List Entry) :
    InReach rdev (ent :: rest) ↔
      ent.stRdev = some rdev ∨ (ent.stRdev ≠ none ∧ InReach rdev rest) := by
  constructor
  · rintro ⟨before, ent', after, hsplit, hbefore, hent⟩
    cases before with
    | nil =>
        cases hsplit
        exact .inl hent
    | cons e before =>
        cases hsplit
        rw [List.forall_mem_cons] at hbefore
        exact .inr ⟨hbefore.1, before, ent', after, rfl, hbefore.2, hent⟩
  · rintro (hent | ⟨hsome, before, ent', after, rfl, hbefore, hent⟩)
    · exact ⟨[], ent, rest, rfl, fun e he => absurd he List.not_mem_nil, hent⟩
    · exact ⟨ent :: before, ent', after, rfl, List.forall_mem_cons.mpr ⟨hsome, hbefore⟩, hent⟩

theorem exists_of_inReach (rdev : Dev) (entries : List Entry) (h : InReach rdev entries) :
    ∃ ent ∈ entries, ent.stRdev = some rdev := by
  rcases h with ⟨before, ent, after, rfl, -, hstat⟩
  exact ⟨ent, List.mem_append_right before List.mem_cons_self, hstat⟩

/-- What it means that the loop ends in one of the three ways. -/
def Found (rdev : Dev) (readFails : Bool) (entries : List Entry) : Scan → Prop
  | .found dName => InReach rdev entries ∧ ∃ ent ∈ entries, ent.dName = dName ∧
      ent.stRdev = some rdev
  | .failed => ¬ InReach rdev entries ∧ ((∃ ent ∈ entries, ent.stRdev = none) ∨ readFails = true)
  | .ended => (∀ ent ∈ entries, ent.stRdev ≠ none ∧ ent.stRdev ≠ some rdev) ∧ readFails = false

theorem scanDir_spec (rdev : Dev) (readFails : Bool) (entries : List Entry) :
    Found rdev readFails entries (scanDir rdev readFails entries) := by
  induction entries with
  | nil =>
      rw [scanDir]
      cases readFails with
      | false => exact ⟨fun ent hent => absurd hent List.not_mem_nil, rfl⟩
      | true =>
          refine ⟨?_, .inr rfl⟩
          intro hin
          rcases exists_of_inReach rdev [] hin with ⟨ent, hent, -⟩
          cases hent
  | cons ent rest ih =>
      rw [scanDir]
      cases hstat : ent.stRdev with
      | none =>
          refine ⟨fun h => ?_, .inl ⟨ent, List.mem_cons_self, hstat⟩⟩
          rw [inReach_cons, hstat] at h
          rcases h with h | h
          · cases h
          · exact h.1 rfl
      | some stRdev =>
          simp only
          by_cases hrdev : stRdev = rdev
          · rw [if_pos hrdev]
            rw [hrdev] at hstat
            exact ⟨(inReach_cons rdev ent rest).mpr (.inl hstat),
              ent, List.mem_cons_self, rfl, hstat⟩
          · rw [if_neg hrdev]
            have hne : ent.stRdev ≠ some rdev := fun h =>
              hrdev (Option.some.inj (hstat.symm.trans h))
            have hsome : ent.stRdev ≠ none := fun h => Option.some_ne_none _ (hstat.symm.trans h)
            have hreach : InReach rdev (ent :: rest) ↔ InReach rdev rest := by
              rw [inReach_cons]
              exact ⟨fun h => (h.resolve_left hne).2, fun h => .inr ⟨hsome, h⟩⟩
            -- The rest ends as it does without this entry.
            cases hscan : scanDir rdev readFails rest with
            | found dName =>
                rw [hscan] at ih
                rcases ih with ⟨hin, ent', hent', hname⟩
                exact ⟨hreach.mpr hin, ent', List.mem_cons_of_mem ent hent', hname⟩
            | failed =>
                rw [hscan] at ih
                refine ⟨fun h => ih.1 (hreach.mp h), ih.2.imp_left ?_⟩
                rintro ⟨ent', hent', hnone⟩
                exact ⟨ent', List.mem_cons_of_mem ent hent', hnone⟩
            | ended =>
                rw [hscan] at ih
                exact ⟨List.forall_mem_cons.mpr ⟨⟨hsome, hne⟩, ih.1⟩, ih.2⟩

/-- A loop over `/dev` that comes to its end has not found the device. -/
theorem not_of_ended (rdev : Dev) (dir : Dir)
    (h : scanDir rdev dir.readFails dir.entries = .ended) :
    ¬ InReach rdev (entriesOf (some dir)) ∧ ¬ DevStops (some dir) := by
  have hspec := scanDir_spec rdev dir.readFails dir.entries
  rw [h] at hspec
  refine ⟨fun hin => ?_, fun hstops => ?_⟩
  · rcases exists_of_inReach rdev _ hin with ⟨ent, hent, hstat⟩
    exact (hspec.1 ent hent).2 hstat
  · rcases hstops dir rfl with ⟨ent, hent, hnone⟩ | hfails
    · exact (hspec.1 ent hent).1 hnone
    · rw [hspec.2] at hfails
      cases hfails

/-! ### The string that is given -/

/-- A name behind the directory. -/
theorem str_dev (name : CString) (hshort : name.bytes.length ≤ 255) :
    CString.str (load (strcpy (strcpy (fun _ => 0) 0 devSlash) 5 name.bytes) 0 pathMax) =
      devSlash ++ name.bytes := by
  have hsplit : pathMax = 5 + (name.bytes ++ [0]).length + (4090 - name.bytes.length) := by
    rw [List.length_append, List.length_singleton, pathMax]
    omega
  have hfront : load (strcpy (fun _ => 0) 0 devSlash) 0 5 = devSlash := by decide
  have hcopied := load_store_behind (strcpy (fun _ => 0) 0 devSlash) 0 5 (name.bytes ++ [0])
  rw [Nat.zero_add, hfront] at hcopied
  have hnul : ∀ b ∈ devSlash ++ name.bytes, b ≠ 0 := by
    intro b hb
    rcases List.mem_append.mp hb with hb | hb
    · rintro rfl
      exact absurd hb (by decide)
    · exact name.noNul b hb
  rw [hsplit, load_add]
  unfold strcpy at hcopied ⊢
  rw [hcopied, ← List.append_assoc, List.append_assoc _ [0], List.singleton_append,
    CString.str_append _ _ hnul]

/-- A name too far behind the other directory: it is behind a NUL. -/
theorem str_pts (name : CString) :
    CString.str (load (strcpy (strcpy (strcpy (fun _ => 0) 0 devSlash) 4 slashPts) 9 name.bytes)
      0 pathMax) = [47, 100, 101, 118, 47, 112, 116, 115] := by
  have hsplit : pathMax = 9 + 4087 := rfl
  have hfront : load (strcpy (strcpy (fun _ => 0) 0 devSlash) 4 slashPts) 0 9 =
      [47, 100, 101, 118, 47, 112, 116, 115, 0] := by decide
  have hkept := load_store_apart (strcpy (strcpy (fun _ => 0) 0 devSlash) 4 slashPts) 9 0 9
    (name.bytes ++ [0]) (fun x _ hx => by omega)
  rw [hsplit, load_add]
  unfold strcpy at hkept hfront ⊢
  rw [hkept, hfront]
  rfl

/-- The path of an entry of `/dev` is looked up there. -/
theorem statPath_dev (dir : Dir) (pts : Option Dir) (ent : Entry) (hent : ent ∈ dir.entries) :
    statPath (some dir) pts (devSlash ++ ent.dName.bytes) = ent.stRdev := by
  have hpts : devPtsSlash.isPrefixOf (devSlash ++ ent.dName.bytes) = false := by
    rw [Bool.eq_false_iff]
    intro h
    -- The name would have a slash.
    rcases List.isPrefixOf_iff_prefix.mp h with ⟨rest, hrest⟩
    have hsame : devSlash ++ ([112, 116, 115, 47] ++ rest) = devSlash ++ ent.dName.bytes := hrest
    have hname : [112, 116, 115, 47] ++ rest = ent.dName.bytes := List.append_cancel_left hsame
    exact ent.noSlash (hname ▸ List.mem_append_left rest (by decide))
  have hdev : devSlash.isPrefixOf (devSlash ++ ent.dName.bytes) = true :=
    List.isPrefixOf_iff_prefix.mpr (List.prefix_append _ _)
  rw [statPath, if_neg (Bool.eq_false_iff.mp hpts), if_pos hdev, List.drop_left]
  have hfind : dir.entries.find? (fun e => decide (e.dName.bytes = ent.dName.bytes)) =
      some ent := by
    rw [List.find?_eq_some_iff_append]
    refine ⟨decide_eq_true rfl, ?_⟩
    rcases List.append_of_mem hent with ⟨before, after, hsplit⟩
    refine ⟨before, after, hsplit, fun e he => ?_⟩
    have hdistinct := dir.distinct
    rw [hsplit, List.map_append, List.map_cons, List.nodup_append] at hdistinct
    have hne : e.dName ≠ ent.dName :=
      hdistinct.2.2 _ (List.mem_map_of_mem he) _ List.mem_cons_self
    rw [Bool.not_eq_true', decide_eq_false_iff_not]
    exact fun hbytes => hne (CString.eq_of_bytes _ _ hbytes)
  rw [lookup, entriesOf, Option.elim_some, hfind, Option.bind_some]

/-- The string that is given for an entry of `/dev/pts` is not its path, and
    not that of any device that is not in `/dev`. -/
theorem statPath_pts (dev pts : Option Dir) (rdev : Dev)
    (hdev : ∀ ent ∈ entriesOf dev, ent.stRdev ≠ some rdev) :
    statPath dev pts [47, 100, 101, 118, 47, 112, 116, 115] ≠ some rdev := by
  have hpts : devPtsSlash.isPrefixOf [47, 100, 101, 118, 47, 112, 116, 115] = false := by decide
  have hin : devSlash.isPrefixOf [47, 100, 101, 118, 47, 112, 116, 115] = true := by decide
  rw [statPath, if_neg (Bool.eq_false_iff.mp hpts), if_pos hin, lookup]
  intro h
  rcases Option.bind_eq_some_iff.mp h with ⟨ent, hfind, hstat⟩
  exact hdev ent (List.mem_of_find?_eq_some hfind) hstat

/-! ### The function -/

/-- If no entry is the device the null pointer is right, and so is every
    return. -/
theorem right_of_none (rdev : Dev) (dev pts : Option Dir)
    (hnone : ∀ ent ∈ entriesOf dev ++ entriesOf pts, ent.stRdev ≠ some rdev)
    (res : Option (List UInt8)) (h : ttyname true (some rdev) dev pts = .returned res) :
    TtynameRight rdev dev pts := by
  refine ⟨res, h, ?_, fun _ => hnone⟩
  rintro ⟨ent, hent, hstat⟩
  exact absurd hstat (hnone ent hent)

/-- A null pointer is right only if no entry is the device. -/
theorem right_null_iff (rdev : Dev) (dev pts : Option Dir)
    (h : ttyname true (some rdev) dev pts = .returned none) :
    TtynameRight rdev dev pts ↔
      ∀ ent ∈ entriesOf dev ++ entriesOf pts, ent.stRdev ≠ some rdev := by
  constructor
  · rintro ⟨res, hres, -, hnull⟩
    rw [h] at hres
    cases hres
    exact hnull rfl
  · exact fun hnone => right_of_none rdev dev pts hnone none h

/-- A device that is only in `/dev/pts` does not get its path. -/
theorem not_right_pts (rdev : Dev) (dev pts : Dir) (dName : CString)
    (hdev : scanDir rdev dev.readFails dev.entries = .ended)
    (hpts : scanDir rdev pts.readFails pts.entries = .found dName) :
    ¬ TtynameRight rdev (some dev) (some pts) := by
  have hspec := scanDir_spec rdev dev.readFails dev.entries
  rw [hdev] at hspec
  have hspec' := scanDir_spec rdev pts.readFails pts.entries
  rw [hpts] at hspec'
  rcases hspec' with ⟨-, ent, hent, -, hstat⟩
  rintro ⟨res, hres, hpath, -⟩
  -- The string ends before the name.
  simp only [ttyname, hdev, hpts, str_pts] at hres
  rcases hpath ⟨ent, List.mem_append_right _ hent, hstat⟩ with ⟨path, rfl, hright⟩
  cases hres
  exact statPath_pts (some dev) (some pts) rdev (fun ent hent => (hspec.1 ent hent).2) hright

/-- The function is right exactly if the device is in `/dev` in front of every
    entry that cannot be looked at, or if it is in neither directory and the
    function gives up in `/dev` or finds `/dev/pts`. -/
theorem ttynameRight_iff (rdev : Dev) (dev pts : Option Dir) :
    TtynameRight rdev dev pts ↔
      InReach rdev (entriesOf dev) ∨
        ((∀ ent ∈ entriesOf dev ++ entriesOf pts, ent.stRdev ≠ some rdev) ∧
          (DevStops dev ∨ pts ≠ none)) := by
  cases dev with
  | none =>
      have hstops : DevStops none := fun dir hdir => absurd hdir.symm (Option.some_ne_none dir)
      have hnotIn : ¬ InReach rdev (entriesOf none) := by
        intro hin
        rcases exists_of_inReach rdev _ hin with ⟨ent, hent, -⟩
        cases hent
      rw [right_null_iff rdev none pts rfl]
      exact ⟨fun h => .inr ⟨h, .inl hstops⟩, fun h => (h.resolve_left hnotIn).1⟩
  | some dir =>
      have hspec := scanDir_spec rdev dir.readFails dir.entries
      cases hscan : scanDir rdev dir.readFails dir.entries with
      | found dName =>
          rw [hscan] at hspec
          rcases hspec with ⟨hin, ent, hent, rfl, hstat⟩
          refine iff_of_true ⟨some (devSlash ++ ent.dName.bytes), ?_, fun _ => ?_, fun h => ?_⟩
            (.inl hin)
          · simp only [ttyname, hscan, str_dev ent.dName ent.short]
          · exact ⟨_, rfl, (statPath_dev dir pts ent hent).trans hstat⟩
          · cases h
      | failed =>
          rw [hscan] at hspec
          have hstops : DevStops (some dir) := by
            intro dir' hdir
            cases hdir
            exact hspec.2
          rw [right_null_iff rdev (some dir) pts (by simp only [ttyname, hscan])]
          exact ⟨fun h => .inr ⟨h, .inl hstops⟩, fun h => (h.resolve_left hspec.1).1⟩
      | ended =>
          rcases not_of_ended rdev dir hscan with ⟨hnotIn, hstops⟩
          cases pts with
          | none =>
              -- The null pointer is read.
              refine iff_of_false ?_ ?_
              · rintro ⟨res, hres, -⟩
                simp only [ttyname, hscan] at hres
                cases hres
              · rintro (h | ⟨-, h | h⟩)
                · exact hnotIn h
                · exact hstops h
                · exact h rfl
          | some pts =>
              have hiff : (InReach rdev (entriesOf (some dir)) ∨
                  ((∀ ent ∈ entriesOf (some dir) ++ entriesOf (some pts),
                    ent.stRdev ≠ some rdev) ∧ (DevStops (some dir) ∨ some pts ≠ none))) ↔
                  ∀ ent ∈ entriesOf (some dir) ++ entriesOf (some pts),
                    ent.stRdev ≠ some rdev :=
                ⟨fun h => (h.resolve_left hnotIn).1,
                  fun h => .inr ⟨h, .inr (Option.some_ne_none pts)⟩⟩
              rw [hiff]
              have hspec' := scanDir_spec rdev pts.readFails pts.entries
              cases hscan' : scanDir rdev pts.readFails pts.entries with
              | found dName =>
                  rw [hscan'] at hspec'
                  rcases hspec' with ⟨-, ent, hent, -, hstat⟩
                  exact iff_of_false (not_right_pts rdev dir pts dName hscan hscan')
                    (fun h => h ent (List.mem_append_right _ hent) hstat)
              | failed =>
                  exact right_null_iff rdev (some dir) (some pts)
                    (by simp only [ttyname, hscan, hscan'])
              | ended =>
                  exact right_null_iff rdev (some dir) (some pts)
                    (by simp only [ttyname, hscan, hscan'])

/-- `/dev` with the directory `pts` in it. -/
def devDir : Dir :=
  ⟨[⟨.ofBytes [112, 116, 115], some 0, by decide, by decide⟩], false, List.nodup_singleton _⟩

/-- `/dev/pts` with the terminal `0`. -/
def ptsDir : Dir :=
  ⟨[⟨.ofBytes [48], some 34816, by decide, by decide⟩], false, List.nodup_singleton _⟩

/-- A terminal of `/dev/pts` gets the path of the directory. -/
theorem pts_wrong : ¬ TtynameRight 34816 (some devDir) (some ptsDir) :=
  not_right_pts 34816 devDir ptsDir (.ofBytes [48]) rfl rfl

end Ttyname

end TlpiPractice
