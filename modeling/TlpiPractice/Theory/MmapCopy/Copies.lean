import TlpiPractice.Core.MmapCopy

/-!
# What Is Copied

What the file that is written has in it when the program ends, however it ends
and in whatever order the bytes are copied.

The file that is read stays as it is, also when it is the file that is written.
When the program returns zero the other one is a copy of it. When it is killed
in between, each byte is that of the copy or the one that was there before, and
only the length is that of the copy in any case. An empty file cannot be mapped,
so the program fails, but what it leaves is a copy all the same.

## Main definitions

* `before`: What the file that is written had in it.
* `Spared`: All other files are as they were.

## Theorems

* `openDest_spec`, `truncated_spec`: The files before the copying.
* `memcpy_spec`: The files when some bytes have been copied.
* `copies`: The files at the end.
-/

namespace TlpiPractice

namespace MmapCopy

open ByteFile

variable {ν ι : Type} [DecidableEq ν] [DecidableEq ι]

/-- What the file that is written had in it. -/
def before (s : Files ν ι) (dest : ν) : List UInt8 :=
  match s.name dest with
  | some w => s.content w
  | none => []

/-- All files are as they were but the one that is written, and that one is if it
    is the one that is read. -/
def Spared (fresh : ι) (source dest : ν) (s s' : Files ν ι) : Prop :=
  ∀ i, i ≠ fresh → (s.name dest ≠ some i ∨ s.name source = some i) → s'.content i = s.content i

/-- A byte that is written over itself. -/
theorem writeAt_byteAt (f : List UInt8) (i : Nat) (h : i < f.length) :
    writeAt f i [byteAt f i] = f := by
  have hne : [byteAt f i] ≠ [] := List.cons_ne_nil _ _
  refine ext_byteAt _ _ ?_ (fun j _ => ?_)
  · rw [length_writeAt f i _ hne]
    exact Nat.max_eq_left h
  · rw [byteAt_writeAt]
    split
    · rename_i hj
      have hji : j = i := Nat.le_antisymm (Nat.le_of_lt_succ hj.2) hj.1
      rw [hji, Nat.sub_self]
      rfl
    · rfl

theorem openDest_spec (fresh : ι) (s : Files ν ι) (dest : ν) :
    (openDest fresh s dest).2.name dest = some (openDest fresh s dest).1 ∧
      (openDest fresh s dest).2.content (openDest fresh s dest).1 = before s dest ∧
      (∀ i, i ≠ fresh → (openDest fresh s dest).2.content i = s.content i) ∧
      (s.name dest = some (openDest fresh s dest).1 ∨ (openDest fresh s dest).1 = fresh) := by
  unfold openDest before
  cases hdest : s.name dest with
  | some w => exact ⟨hdest, rfl, fun _ _ => rfl, .inl rfl⟩
  | none =>
      exact ⟨Function.update_self dest _ _, Function.update_self fresh _ _,
        fun i hi => Function.update_of_ne hi _ _, .inr rfl⟩

/-- A file that has got the length of another one. -/
theorem truncated_spec (fresh : ι) (s : Files ν ι) (source dest : ν) (r : ι)
    (hr : s.name source = some r) (hfresh : r ≠ fresh) :
    let w := (openDest fresh s dest).1
    let s' := ftruncate (openDest fresh s dest).2 w (s.content r).length
    s'.name dest = some w ∧ s'.content r = s.content r ∧
      (s'.content w).length = (s.content r).length ∧
      (∀ j, j < (s.content r).length → byteAt (s'.content w) j = byteAt (before s dest) j) ∧
      Spared fresh source dest s s' := by
  intro w s'
  rcases openDest_spec fresh s dest with ⟨hname, hbefore, hsame, hwhich⟩
  have hw : s'.content w = (before s dest).take (s.content r).length ++
      List.replicate ((s.content r).length - (before s dest).length) 0 := by
    show Function.update (openDest fresh s dest).2.content w _ w = _
    rw [Function.update_self, hbefore]
  have hother : ∀ i, i ≠ w → i ≠ fresh → s'.content i = s.content i := by
    intro i hiw hi
    show Function.update (openDest fresh s dest).2.content w _ i = _
    rw [Function.update_of_ne hiw]
    exact hsame i hi
  have hread : s'.content r = s.content r := by
    by_cases hrw : r = w
    · -- The file has that length already.
      have hold : before s dest = s.content r := by
        rw [← hbefore]
        show (openDest fresh s dest).2.content w = _
        rw [← hrw]
        exact hsame r hfresh
      rw [hrw, hw, hold, ← hrw, List.take_length, Nat.sub_self]
      exact List.append_nil _
    · exact hother r hrw hfresh
  refine ⟨hname, hread, ?_, fun j hj => ?_, fun i hi hspared => ?_⟩
  · rw [hw, List.length_append, List.length_take, List.length_replicate]
    omega
  · rw [hw, byteAt_append, List.length_take]
    split
    · exact byteAt_take _ _ _ hj
    · rw [byteAt_replicate_zero, byteAt_of_length_le _ _ (by omega)]
  · by_cases hiw : i = w
    · have hdest : s.name dest = some i := by
        rw [hiw]
        exact hwhich.resolve_right (fun hc => hi (hiw.trans hc))
      have hir : s.name source = some i := hspared.resolve_left (fun hc => hc hdest)
      rw [hr, Option.some_inj] at hir
      rw [← hir]
      exact hread
    · exact hother i hiw hi

omit [DecidableEq ν] in
/-- The files when some bytes have been copied, in any order. -/
theorem memcpy_spec (r w : ι) (places : List Nat) (s : Files ν ι)
    (hlen : (s.content w).length = (s.content r).length)
    (hplaces : ∀ i ∈ places, i < (s.content r).length) :
    (memcpy r w places s).name = s.name ∧
      (∀ i, i ≠ w → (memcpy r w places s).content i = s.content i) ∧
      (memcpy r w places s).content r = s.content r ∧
      ((memcpy r w places s).content w).length = (s.content r).length ∧
      ∀ j, byteAt ((memcpy r w places s).content w) j =
        if j ∈ places then byteAt (s.content r) j else byteAt (s.content w) j := by
  induction places generalizing s with
  | nil => exact ⟨rfl, fun _ _ => rfl, rfl, hlen, fun j => (if_neg List.not_mem_nil).symm⟩
  | cons i places ih =>
      have hi := hplaces i List.mem_cons_self
      have hw : (copyByte r w s i).content w =
          writeAt (s.content w) i [byteAt (s.content r) i] := Function.update_self w _ _
      have hother : ∀ k, k ≠ w → (copyByte r w s i).content k = s.content k :=
        fun k hk => Function.update_of_ne hk _ _
      -- A byte of the file that is read is at most written over itself.
      have hread : (copyByte r w s i).content r = s.content r := by
        by_cases hrw : r = w
        · subst hrw
          rw [hw]
          exact writeAt_byteAt _ i hi
        · exact hother r hrw
      have hlen' : ((copyByte r w s i).content w).length = (s.content r).length := by
        rw [hw, length_writeAt _ _ _ (List.cons_ne_nil _ _), hlen]
        exact Nat.max_eq_left hi
      rcases ih (copyByte r w s i) (by rw [hlen', hread]) (fun k hk => by
        rw [hread]
        exact hplaces k (List.mem_cons_of_mem i hk)) with ⟨hname, hrest, hread', hsize, hbyte⟩
      refine ⟨hname, fun k hk => (hrest k hk).trans (hother k hk), hread'.trans hread,
        hsize.trans (congrArg List.length hread), fun j => ?_⟩
      show byteAt ((memcpy r w places (copyByte r w s i)).content w) j = _
      rw [hbyte, hread, hw, byteAt_writeAt]
      by_cases hj : j ∈ places
      · rw [if_pos hj, if_pos (List.mem_cons_of_mem i hj)]
      · rw [if_neg hj]
        by_cases hji : j = i
        · subst hji
          rw [if_pos ⟨Nat.le_refl j, Nat.lt_succ_self j⟩, if_pos List.mem_cons_self, Nat.sub_self]
          rfl
        · rw [if_neg (fun hc => hji (Nat.le_antisymm (Nat.le_of_lt_succ hc.2) hc.1)),
            if_neg (fun hc => (List.mem_cons.mp hc).elim hji hj)]

/-- The files before `memcpy`, if the program comes that far. -/
def truncated (K : Kernel ι) (dest : ν) (s : Files ν ι) (r : ι) : Files ν ι :=
  ftruncate (openDest K.fresh s dest).2 (openDest K.fresh s dest).1 (s.content r).length

/-- The places of the file that have been copied. -/
def copied (places : List Nat) (s : Files ν ι) (r : ι) : List Nat :=
  places.filter (fun i => decide (i < (s.content r).length))

/-- How the program ends. -/
theorem main_cases (K : Kernel ι) (places : List Nat) (source dest : ν) (s : Files ν ι)
    (hfresh : ∀ n, s.name n ≠ some K.fresh) :
    main K places source dest s = (.exited 1, s) ∨ ∃ r, s.name source = some r ∧
      (main K places source dest s = (.exited 1, (openDest K.fresh s dest).2) ∨
        main K places source dest s = (.exited 1, truncated K dest s r) ∨
        (s.content r ≠ [] ∧ main K places source dest s =
          (if ∀ i < (s.content r).length, i ∈ copied places s r then .exited 0 else .killed,
            memcpy r (openDest K.fresh s dest).1 (copied places s r) (truncated K dest s r)))) := by
  unfold main
  split
  · exact .inl rfl
  cases hr : s.name source with
  | none => exact .inl rfl
  | some r =>
      have hne : r ≠ K.fresh := fun hc => hfresh source (hr.trans (congrArg some hc))
      have hread := (openDest_spec K.fresh s dest).2.2.1 r hne
      dsimp only
      rw [hread]
      split
      · exact .inl rfl
      refine .inr ⟨r, rfl, ?_⟩
      split
      · exact .inl rfl
      split
      · exact .inl rfl
      refine .inr ?_
      split
      · exact .inl rfl
      rename_i hmap
      split
      · exact .inl rfl
      refine .inr ⟨fun hc => hmap (.inr (by rw [hc]; rfl)), ?_⟩
      split
      · rename_i hall
        have hall' : ∀ i < (s.content r).length, i ∈ copied places s r := hall
        rw [if_pos hall']
        rfl
      · rename_i hall
        have hall' : ¬ ∀ i < (s.content r).length, i ∈ copied places s r := hall
        rw [if_neg hall']
        rfl

/-- A program that does not end with a failure has come to `memcpy`. -/
theorem main_of_copied (K : Kernel ι) (places : List Nat) (source dest : ν) (s : Files ν ι)
    (hfresh : ∀ n, s.name n ≠ some K.fresh)
    (hend : (main K places source dest s).1 ≠ .exited 1) :
    ∃ r, s.name source = some r ∧ main K places source dest s =
      (if ∀ i < (s.content r).length, i ∈ copied places s r then .exited 0 else .killed,
        memcpy r (openDest K.fresh s dest).1 (copied places s r) (truncated K dest s r)) := by
  rcases main_cases K places source dest s hfresh with h | ⟨r, hr, h | h | ⟨-, h⟩⟩
  · exact absurd (congrArg Prod.fst h) hend
  · exact absurd (congrArg Prod.fst h) hend
  · exact absurd (congrArg Prod.fst h) hend
  · exact ⟨r, hr, h⟩

/-- The files when `memcpy` returns or the process is killed. -/
theorem copied_spec (K : Kernel ι) (places : List Nat) (source dest : ν) (s : Files ν ι) (r : ι)
    (hr : s.name source = some r) (hne : r ≠ K.fresh) :
    let w := (openDest K.fresh s dest).1
    let s' := memcpy r w (copied places s r) (truncated K dest s r)
    s'.name dest = some w ∧ (s'.content w).length = (s.content r).length ∧
      (∀ j < (s.content r).length, byteAt (s'.content w) j =
        if j ∈ copied places s r then byteAt (s.content r) j else byteAt (before s dest) j) ∧
      Spared K.fresh source dest s s' := by
  intro w s'
  rcases truncated_spec K.fresh s source dest r hr hne with
    ⟨hname, hread, hlen, hbytes, hspared⟩
  rcases memcpy_spec r w (copied places s r) (truncated K dest s r)
    (hlen.trans (congrArg List.length hread).symm)
    (fun i hi => by
      have hlt := of_decide_eq_true (List.mem_filter.mp hi).2
      rwa [truncated, hread]) with ⟨hsame, hother, hread', hlen', hbytes'⟩
  have hsource : (truncated K dest s r).content r = s.content r := hread
  refine ⟨?_, hlen'.trans (congrArg List.length hsource), fun j hj => ?_, fun i hi hi' => ?_⟩
  · show (memcpy r w (copied places s r) (truncated K dest s r)).name dest = some w
    rw [hsame]
    exact hname
  · rw [hbytes' j, hsource]
    split
    · rfl
    · exact hbytes j hj
  · by_cases hiw : i = w
    · -- Only the file that is read can be both spared and written.
      have hdest : s.name dest = some i := by
        rw [hiw]
        exact (openDest_spec K.fresh s dest).2.2.2.resolve_right (fun hc => hi (hiw.trans hc))
      have hir : s.name source = some i := hi'.resolve_left (fun hc => hc hdest)
      rw [hr, Option.some_inj] at hir
      rw [← hir]
      exact hread'.trans hsource
    · exact (hother i hiw).trans (hspared i hi hi')

/-- However the program ends, all files are as they were but the one that is
    written, and that one is, too, if it is the one that is read. If zero is
    returned it is a copy. If the process is killed each byte is that of the copy
    or the old one. An empty file gives an empty one, and a failure. -/
theorem copies (K : Kernel ι) (places : List Nat) (source dest : ν) (s : Files ν ι)
    (hfresh : ∀ n, s.name n ≠ some K.fresh) :
    Spared K.fresh source dest s (main K places source dest s).2 ∧
      ((main K places source dest s).1 = .exited 0 → ∃ r w, s.name source = some r ∧
        (main K places source dest s).2.name dest = some w ∧
        (main K places source dest s).2.content w = s.content r) ∧
      ((main K places source dest s).1 = .killed → ∃ r w, s.name source = some r ∧
        (main K places source dest s).2.name dest = some w ∧
        ((main K places source dest s).2.content w).length = (s.content r).length ∧
        ∀ j < (s.content r).length,
          byteAt ((main K places source dest s).2.content w) j = byteAt (s.content r) j ∨
            byteAt ((main K places source dest s).2.content w) j = byteAt (before s dest) j) ∧
      ∀ r, s.name source = some r → s.content r = [] → (∀ c, K.fails c = false) →
        (main K places source dest s).1 = .exited 1 ∧
          ∃ w, (main K places source dest s).2.name dest = some w ∧
            (main K places source dest s).2.content w = [] := by
  have hne : ∀ r, s.name source = some r → r ≠ K.fresh := fun r hr hc =>
    hfresh source (hr.trans (congrArg some hc))
  refine ⟨?_, fun hend => ?_, fun hend => ?_, fun r hr hempty hok => ?_⟩
  · rcases main_cases K places source dest s hfresh with h | ⟨r, hr, h | h | ⟨-, h⟩⟩
    · rw [h]
      exact fun _ _ _ => rfl
    · rw [h]
      exact fun i hi _ => (openDest_spec K.fresh s dest).2.2.1 i hi
    · rw [h]
      exact (truncated_spec K.fresh s source dest r hr (hne r hr)).2.2.2.2
    · rw [h]
      exact (copied_spec K places source dest s r hr (hne r hr)).2.2.2
  · rcases main_of_copied K places source dest s hfresh (by simp [hend]) with ⟨r, hr, h⟩
    rcases copied_spec K places source dest s r hr (hne r hr) with ⟨hname, hlen, hbytes, -⟩
    rw [h] at hend ⊢
    have hall : ∀ i < (s.content r).length, i ∈ copied places s r := by
      by_contra hnot
      rw [if_neg hnot] at hend
      cases hend
    refine ⟨r, _, hr, hname, ext_byteAt _ _ hlen (fun j hj => ?_)⟩
    have hj' := hj.trans_eq hlen
    rw [hbytes j hj', if_pos (hall j hj')]
  · rcases main_of_copied K places source dest s hfresh (by simp [hend]) with ⟨r, hr, h⟩
    rcases copied_spec K places source dest s r hr (hne r hr) with ⟨hname, hlen, hbytes, -⟩
    rw [h]
    refine ⟨r, _, hr, hname, hlen, fun j hj => ?_⟩
    have hbyte := hbytes j hj
    split at hbyte
    · exact .inl hbyte
    · exact .inr hbyte
  · rcases truncated_spec K.fresh s source dest r hr (hne r hr) with ⟨hname, -, hlen, -, -⟩
    have hread := (openDest_spec K.fresh s dest).2.2.1 r (hne r hr)
    have hmain : main K places source dest s = (.exited 1, truncated K dest s r) := by
      simp only [main, hok, hr, hread, hempty, List.length_nil, or_true, if_true,
        Bool.false_eq_true, if_false, truncated]
    rw [hmain]
    exact ⟨rfl, _, hname, List.length_eq_zero_iff.mp (hlen.trans (congrArg List.length hempty))⟩

/-- Two names, and files that have numbers. -/
def twoNames : Files Bool Nat where
  name := fun n => if n then some 0 else none
  content := fun i => if i = 0 then [104, 105] else []

/-- All calls work, and a new file gets the number 1. -/
def working : Kernel Nat := ⟨fun _ => false, 1⟩

theorem copies_twoNames :
    Spared 1 true false twoNames (main working [1, 0] true false twoNames).2 ∧
      ((main working [1, 0] true false twoNames).1 = .exited 0 → ∃ r w,
        twoNames.name true = some r ∧
        (main working [1, 0] true false twoNames).2.name false = some w ∧
        (main working [1, 0] true false twoNames).2.content w = twoNames.content r) ∧
      ((main working [1, 0] true false twoNames).1 = .killed → ∃ r w,
        twoNames.name true = some r ∧
        (main working [1, 0] true false twoNames).2.name false = some w ∧
        ((main working [1, 0] true false twoNames).2.content w).length =
          (twoNames.content r).length ∧
        ∀ j < (twoNames.content r).length,
          byteAt ((main working [1, 0] true false twoNames).2.content w) j =
              byteAt (twoNames.content r) j ∨
            byteAt ((main working [1, 0] true false twoNames).2.content w) j =
              byteAt (before twoNames false) j) ∧
      ∀ r, twoNames.name true = some r → twoNames.content r = [] →
        (∀ c, working.fails c = false) →
        (main working [1, 0] true false twoNames).1 = .exited 1 ∧
          ∃ w, (main working [1, 0] true false twoNames).2.name false = some w ∧
            (main working [1, 0] true false twoNames).2.content w = [] := by
  refine copies working [1, 0] true false twoNames (fun n hn => ?_)
  cases n with
  | true => cases hn
  | false => cases hn

end MmapCopy

end TlpiPractice
