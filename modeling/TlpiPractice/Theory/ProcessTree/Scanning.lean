import TlpiPractice.Core.ProcScan
import TlpiPractice.Theory.ShowUserProcs.Ordinary

/-!
# What the Scan Finds

That the loop over `/proc` makes the nodes that `enumerate` makes.

In a status file the line with the pid comes behind some others and in front of
the one with the parent's pid. `Pid:` is first in that line if it is in none of
the lines before, the name among them, and `PPid:` is then first in the next
one, since it has `Pid:` in it. So what the program looks for is found where it
belongs, as long as these lines are in what a single read gets.

The array of nodes has room for the pids below `MAX_PID`. A process with a
greater pid leaves the scan without a result.

## Main definitions

* `headText`: The lines up to the parent's pid.
* `StatusFile`: A status file of the kernel.
* `Entry`: An entry of `/proc` that is a process, or is to be left out.
* `procs`: The processes of a listing.

## Theorems

* `infix_lines`: A tag in some lines is in one of them.
* `found_first`: A tag is found where it is first.
* `fieldsIn_status`: A status file is read back.
* `scan_of_fits`, `scan_of_late`: The loop, with and without room for all pids.
* `scan_listing`: The two together.
-/

namespace TlpiPractice

namespace ProcessTree

open Ints ShowUserProcs

/-- The lines of a status file up to the parent's pid. -/
def headText (name : List UInt8) (before : List (List UInt8)) (pid ppid : Nat) : List UInt8 :=
  textOf ((nameTag ++ 9 :: name) :: before) ++
    (pidTag ++ 9 :: (ShowUserProcs.decimal pid ++
      10 :: (ppidTag ++ 9 :: (ShowUserProcs.decimal ppid ++ [10]))))

/-- A status file of the kernel: between the name and the pid there are some
    lines, and nothing in them looks like the tag of the pid. -/
structure StatusFile where
  name : List UInt8
  before : List (List UInt8)
  pid : Nat
  ppid : Nat
  behind : List UInt8
  clean : ∀ line ∈ name :: before, 0 ∉ line ∧ 10 ∉ line ∧ ¬ pidTag <:+: line
  pid_le : (pid : Int) ≤ intMax
  ppid_le : (ppid : Int) ≤ intMax
  fits : (headText name before pid ppid).length ≤ bufferSize

/-- The whole file. -/
def StatusFile.text (f : StatusFile) : List UInt8 :=
  headText f.name f.before f.pid f.ppid ++ f.behind

/-- What it says. -/
def StatusFile.proc (f : StatusFile) : Proc := ⟨f.pid, f.ppid, f.name⟩

/-- An entry of `/proc`, whose status file may be missing. -/
structure Entry where
  dName : List UInt8
  status : Option StatusFile

def Entry.raw (e : Entry) : DirEntry := ⟨e.dName, e.status.map StatusFile.text⟩

/-- The process of an entry, unless it is a second entry for the program
    itself. -/
def Entry.proc (e : Entry) : Option Proc :=
  if e.dName = selfName ∨ e.dName = threadSelf then none else e.status.map StatusFile.proc

/-- The processes of a listing. -/
def procs (entries : List Entry) : List Proc := entries.filterMap Entry.proc

/-- Bytes around a separator that they do not contain are on one side of it. -/
theorem infix_separator (t a b : List UInt8) (x : UInt8) (hx : x ∉ t) (h : t <:+: a ++ x :: b) :
    t <:+: a ∨ t <:+: b := by
  rcases h with ⟨p, s, h⟩
  rw [List.append_assoc] at h
  rcases List.append_eq_append_iff.mp h with ⟨w, rfl, hw⟩ | ⟨w, rfl, hw⟩
  · rcases List.append_eq_append_iff.mp hw with ⟨v, rfl, _⟩ | ⟨v, rfl, hv⟩
    · exact .inl ⟨p, v, List.append_assoc p t v⟩
    · cases v with
      | nil => exact .inl ⟨p, [], by rw [List.append_nil, List.append_nil]⟩
      | cons y v =>
          injection hv with hy _
          exact absurd (List.mem_append_right w (hy ▸ List.mem_cons_self)) hx
  · cases w with
    | nil =>
        cases t with
        | nil => exact .inl List.nil_infix
        | cons y t =>
            injection hw with hy _
            exact absurd (hy ▸ List.mem_cons_self) hx
    | cons y w =>
        injection hw with _ hw
        exact .inr ⟨w, s, by rw [List.append_assoc]; exact hw.symm⟩

/-- A tag in some lines is in one of them, or in what comes behind. -/
theorem infix_lines (t : List UInt8) (lines : List (List UInt8)) (tail : List UInt8)
    (ht : 10 ∉ t) (h : t <:+: textOf lines ++ tail) :
    (∃ line ∈ lines, t <:+: line) ∨ t <:+: tail := by
  induction lines with
  | nil => exact .inr h
  | cons line lines ih =>
      rw [textOf_cons, List.append_assoc, List.cons_append] at h
      rcases infix_separator t line _ 10 ht h with hline | hrest
      · exact .inl ⟨line, List.mem_cons_self, hline⟩
      · rcases ih hrest with ⟨l, hl, hin⟩ | htail
        · exact .inl ⟨l, List.mem_cons_of_mem line hl, hin⟩
        · exact .inr htail

/-- A tag is found where it is first. -/
theorem found_first (t p s : List UInt8) (h : ¬ t <:+: p ++ t.dropLast) (hnul : 0 ∉ p ++ t) :
    found t (p ++ (t ++ s)) = some (t ++ s) := by
  have hstr : CString.str (p ++ (t ++ s)) = p ++ (t ++ CString.str s) := by
    rw [← List.append_assoc, ← List.append_assoc]
    exact List.takeWhile_append_of_pos (fun b hb =>
      decide_eq_true (fun hzero => hnul (hzero ▸ hb)))
  have hdrop : (p ++ (t ++ CString.str s)).length - (t ++ CString.str s).length = p.length := by
    rw [List.length_append]
    omega
  rw [found, hstr, CString.strstr_first t p _ h]
  simp only [hdrop, List.drop_left]

/-- Bytes that contain a byte are not in ones that do not. -/
theorem not_infix_of_notMem (c : UInt8) (t s : List UInt8) (h : c ∉ s) : ¬ c :: t <:+: s :=
  fun hin => h (hin.subset List.mem_cons_self)

theorem not_mem_decimal (b : UInt8) (n : Nat) (h : isDigit b = false) :
    b ∉ ShowUserProcs.decimal n := by
  intro hb
  rw [isDigit_of_mem_decimal n b hb] at h
  cases h

section Fields

variable (f : StatusFile)

/-- The lines in front of the one with the pid. -/
def StatusFile.front : List (List UInt8) := (nameTag ++ 9 :: f.name) :: f.before

theorem not_infix_front (line : List UInt8) (h : line ∈ f.front) : ¬ pidTag <:+: line := by
  rcases List.mem_cons.mp h with rfl | hline
  · intro hin
    have hin' : pidTag <:+: (nameTag ++ [9]) ++ f.name := by
      rw [List.append_assoc]
      exact hin
    exact (f.clean f.name List.mem_cons_self).2.2
      ((infix_append_iff 80 _ (nameTag ++ [9]) f.name (by decide)).mp hin')
  · exact (f.clean line (List.mem_cons_of_mem _ hline)).2.2

theorem zero_not_mem_textOf (lines : List (List UInt8)) (h : ∀ line ∈ lines, 0 ∉ line) :
    0 ∉ textOf lines := by
  induction lines with
  | nil => exact List.not_mem_nil
  | cons line lines ih =>
      rw [textOf_cons, List.mem_append, List.mem_cons]
      rintro (hl | hl | hl)
      · exact h line List.mem_cons_self hl
      · exact absurd hl (by decide)
      · exact ih (fun l hl' => h l (List.mem_cons_of_mem line hl')) hl

theorem zero_not_mem_front : 0 ∉ textOf f.front := by
  refine zero_not_mem_textOf _ (List.forall_mem_cons.mpr ⟨?_, ?_⟩)
  · rw [List.mem_append, List.mem_cons]
    rintro (h | h | h)
    · exact absurd h (by decide)
    · exact absurd h (by decide)
    · exact (f.clean f.name List.mem_cons_self).1 h
  · exact fun line hline => (f.clean line (List.mem_cons_of_mem _ hline)).1

/-- The pid is in its line. -/
theorem found_pid (s : List UInt8) :
    found pidTag (textOf f.front ++ (pidTag ++ s)) = some (pidTag ++ s) := by
  refine found_first _ _ _ ?_ ?_
  · intro h
    rcases infix_lines pidTag _ _ (by decide) h with ⟨line, hline, hin⟩ | hin
    · exact not_infix_front f line hline hin
    · exact absurd hin.length_le (by decide)
  · rw [List.mem_append]
    exact fun h => h.elim (zero_not_mem_front f) (by decide)

/-- The line with the pid does not look like the next one. -/
theorem not_infix_pidLine (n : Nat) : ¬ ppidTag <:+: pidTag ++ 9 :: ShowUserProcs.decimal n := by
  have h80 : (80 : UInt8) ∉ [105, 100, 58] ++ 9 :: ShowUserProcs.decimal n := by
    intro h
    rcases List.mem_append.mp h with htag | hnum
    · exact absurd htag (by decide)
    · rcases List.mem_cons.mp hnum with htab | hdec
      · exact absurd htab (by decide)
      · exact not_mem_decimal 80 n rfl hdec
  intro h
  rcases List.infix_cons_iff.mp h with hpre | hin
  · have hsecond := (List.cons_prefix_cons.mp (List.cons_prefix_cons.mp hpre).2).1
    exact absurd hsecond (by decide)
  · exact not_infix_of_notMem 80 _ _ h80 hin

/-- The parent's pid is in the line behind. -/
theorem found_ppid (s : List UInt8) :
    found ppidTag (textOf (f.front ++ [pidTag ++ 9 :: ShowUserProcs.decimal f.pid]) ++
      (ppidTag ++ s)) = some (ppidTag ++ s) := by
  refine found_first _ _ _ ?_ ?_
  · intro h
    rcases infix_lines ppidTag _ _ (by decide) h with ⟨line, hline, hin⟩ | hin
    · rcases List.mem_append.mp hline with hfront | hpid
      · exact not_infix_front f line hfront ((List.suffix_cons 80 pidTag).isInfix.trans hin)
      · rw [List.mem_singleton.mp hpid] at hin
        exact not_infix_pidLine f.pid hin
    · exact absurd hin.length_le (by decide)
  · rw [textOf_append, textOf_cons, List.mem_append, List.mem_append, List.mem_append,
      List.mem_append, List.mem_cons, List.mem_cons]
    rintro ((h | (h | h | h) | h | h) | h)
    · exact zero_not_mem_front f h
    · exact absurd h (by decide)
    · exact absurd h (by decide)
    · exact not_mem_decimal 0 f.pid rfl h
    · exact absurd h (by decide)
    · exact absurd h List.not_mem_nil
    · exact absurd h (by decide)

/-- The name is behind the first tag, also when it has been cut off. -/
theorem nameIn_status (s : List UInt8) :
    nameIn (nameTag ++ 9 :: (f.name ++ 10 :: s)) = some f.name := by
  rcases f.clean f.name List.mem_cons_self with ⟨hnul, hnewline, _⟩
  have hfound : ∀ r, found nameTag (nameTag ++ r) = some (nameTag ++ r) :=
    fun r => found_append 78 [97, 109, 101, 58] [] r List.not_mem_nil (by decide)
  have hzeros : ∀ b ∈ f.name, decide (b ≠ 0) = true :=
    fun b hb => decide_eq_true (fun hzero => hnul (hzero ▸ hb))
  have htens : ∀ b ∈ f.name, decide (b ≠ 10) = true :=
    fun b hb => decide_eq_true (fun hten => hnewline (hten ▸ hb))
  have hstr : CString.str (f.name ++ 10 :: s) = f.name ++ 10 :: CString.str s := by
    unfold CString.str
    rw [List.takeWhile_append_of_pos hzeros]
    rfl
  have htake : (f.name ++ 10 :: CString.str s).takeWhile (fun b => decide (b ≠ 10)) = f.name := by
    rw [List.takeWhile_append_of_pos htens]
    exact List.append_nil _
  have hlen : ¬ f.name.length = (f.name ++ 10 :: CString.str s).length := by
    rw [List.length_append, List.length_cons]
    omega
  have hplace : (nameTag ++ 9 :: (f.name ++ 10 :: s)).length - (f.name ++ 10 :: s).length +
      f.name.length = (nameTag ++ 9 :: f.name).length := by
    simp only [List.length_append, List.length_cons]
    omega
  have hcut : (nameTag ++ 9 :: (f.name ++ 10 :: s)).set (nameTag ++ 9 :: f.name).length 0 =
      nameTag ++ 9 :: (f.name ++ 0 :: s) := by
    have hassoc : ∀ b, nameTag ++ 9 :: (f.name ++ b :: s) = (nameTag ++ 9 :: f.name) ++ b :: s :=
      fun b => by rw [List.append_assoc, List.cons_append]
    rw [hassoc, hassoc, List.set_append_right _ _ (Nat.le_refl _), Nat.sub_self,
      List.set_cons_zero]
  have hdrop : ∀ r, (nameTag ++ 9 :: r).drop 6 = r := fun _ => rfl
  rw [nameIn, hfound]
  simp only [hdrop, hstr, htake, if_neg hlen, hplace, hcut, hfound, Option.bind_some]
  exact stringAt_append f.name s hnul

/-- A status file is read back, whatever is behind its first lines. -/
theorem fieldsIn_status (s : List UInt8) :
    fieldsIn (headText f.name f.before f.pid f.ppid ++ s) =
      some ((f.pid : Int), (f.ppid : Int), f.name) := by
  have hpid := found_pid f (9 :: (ShowUserProcs.decimal f.pid ++
    10 :: (ppidTag ++ 9 :: (ShowUserProcs.decimal f.ppid ++ 10 :: s))))
  have hppid := found_ppid f (9 :: (ShowUserProcs.decimal f.ppid ++ 10 :: s))
  have hname := nameIn_status f (textOf f.before ++ (pidTag ++ 9 :: (ShowUserProcs.decimal f.pid ++
    10 :: (ppidTag ++ 9 :: (ShowUserProcs.decimal f.ppid ++ 10 :: s)))))
  have hfirst : headText f.name f.before f.pid f.ppid ++ s =
      textOf f.front ++ (pidTag ++ 9 :: (ShowUserProcs.decimal f.pid ++
        10 :: (ppidTag ++ 9 :: (ShowUserProcs.decimal f.ppid ++ 10 :: s)))) := by
    simp only [headText, StatusFile.front, List.append_assoc, List.cons_append, List.nil_append]
  have hsecond : headText f.name f.before f.pid f.ppid ++ s =
      textOf (f.front ++ [pidTag ++ 9 :: ShowUserProcs.decimal f.pid]) ++
        (ppidTag ++ 9 :: (ShowUserProcs.decimal f.ppid ++ 10 :: s)) := by
    rw [hfirst, textOf_append, textOf_cons]
    simp only [List.append_assoc, List.cons_append]
    rfl
  have hthird : headText f.name f.before f.pid f.ppid ++ s =
      nameTag ++ 9 :: (f.name ++ 10 :: (textOf f.before ++
        (pidTag ++ 9 :: (ShowUserProcs.decimal f.pid ++
          10 :: (ppidTag ++ 9 :: (ShowUserProcs.decimal f.ppid ++ 10 :: s)))))) := by
    rw [hfirst, StatusFile.front, textOf_cons]
    simp only [List.append_assoc, List.cons_append]
  rw [← hfirst] at hpid
  rw [← hsecond] at hppid
  rw [← hthird] at hname
  have hpidNum := atoi_decimal f.pid 10
    (ppidTag ++ 9 :: (ShowUserProcs.decimal f.ppid ++ 10 :: s)) f.pid_le rfl
  have hppidNum := atoi_decimal f.ppid 10 s f.ppid_le rfl
  have hdrop : ∀ r, (pidTag ++ 9 :: r).drop 5 = r := fun _ => rfl
  have hdrop' : ∀ r, (ppidTag ++ 9 :: r).drop 6 = r := fun _ => rfl
  rw [fieldsIn, hpid, hppid, hname]
  simp only [Option.bind_some, hdrop, hdrop', hpidNum, hppidNum]

/-- One read gets what is needed. -/
theorem readInto_status (buffer : List UInt8) :
    ∃ s, readInto buffer f.text = headText f.name f.before f.pid f.ppid ++ s := by
  refine ⟨f.behind.take (bufferSize - (headText f.name f.before f.pid f.ppid).length) ++
    buffer.drop (f.text.take bufferSize).length, ?_⟩
  rw [readInto, StatusFile.text, List.take_append, List.take_of_length_le f.fits,
    List.append_assoc]

end Fields

/-- A process with room for both pids. -/
theorem addProcess_of_fits (t : Table) (r : Proc) (hpid : r.pid < maxPid)
    (hppid : r.ppid < maxPid) :
    addProcess t r.pid r.ppid r.name = some (createNode t r.pid r.ppid r.name) := by
  rw [addProcess, if_neg (by omega), Int.toNat_natCast]
  by_cases hany : (t r.pid).any (fun n => decide (n.pid ≠ -1)) = true
  · rw [if_pos hany, createNode, if_pos hany]
  · rw [if_neg hany, if_neg (by omega), Int.toNat_natCast]

/-- What is done with an entry. -/
theorem scanEntry_raw (t : Table) (e : Entry) :
    scanEntry t e.raw =
      match e.proc with
      | none => some t
      | some r => addProcess t r.pid r.ppid r.name := by
  rw [scanEntry, Entry.proc, Entry.raw]
  by_cases hself : e.dName = selfName ∨ e.dName = threadSelf
  · rw [if_pos hself, if_pos hself]
  · rw [if_neg hself, if_neg hself]
    cases hstatus : e.status with
    | none => rfl
    | some f =>
        rcases readInto_status f (statusPath e.dName) with ⟨s, hs⟩
        simp only [Option.map_some, hs, fieldsIn_status f s]
        rfl

theorem procs_cons (e : Entry) (entries : List Entry) :
    procs (e :: entries) =
      match e.proc with
      | none => procs entries
      | some r => r :: procs entries := by
  rw [procs, List.filterMap_cons]
  cases e.proc with
  | none => rfl
  | some r => rfl

theorem scan_of_fits (entries : List Entry) (t : Table)
    (h : ∀ r ∈ procs entries, r.pid < maxPid ∧ r.ppid < maxPid) :
    (entries.map Entry.raw).foldlM scanEntry t =
      some ((procs entries).foldl (fun t r => createNode t r.pid r.ppid r.name) t) := by
  induction entries generalizing t with
  | nil => rfl
  | cons e entries ih =>
      rw [procs_cons] at h
      rw [List.map_cons, List.foldlM_cons, scanEntry_raw, procs_cons]
      cases hproc : e.proc with
      | none =>
          simp only [hproc] at h ⊢
          exact ih t h
      | some r =>
          simp only [hproc] at h ⊢
          rcases List.forall_mem_cons.mp h with ⟨hr, hrest⟩
          rw [addProcess_of_fits t r hr.1 hr.2]
          exact ih _ hrest

theorem scan_of_late (entries : List Entry) (t : Table)
    (h : ∃ r ∈ procs entries, maxPid ≤ r.pid) :
    (entries.map Entry.raw).foldlM scanEntry t = none := by
  induction entries generalizing t with
  | nil =>
      rcases h with ⟨r, hr, _⟩
      cases hr
  | cons e entries ih =>
      rw [procs_cons] at h
      rw [List.map_cons, List.foldlM_cons, scanEntry_raw]
      cases hproc : e.proc with
      | none =>
          simp only [hproc] at h ⊢
          exact ih t h
      | some r =>
          simp only [hproc] at h ⊢
          cases hadd : addProcess t r.pid r.ppid r.name with
          | none => rfl
          | some t' =>
              -- This process has room, so it is a later one that has not.
              rcases h with ⟨r', hr', hlate⟩
              rcases List.mem_cons.mp hr' with rfl | hrest
              · rw [addProcess, if_pos (.inr (by omega))] at hadd
                cases hadd
              · exact ih t' ⟨r', hrest, hlate⟩

/-- If there is room for all pids, the table after the scan is the one made for
    the processes of the listing, in their order. If there is a process whose
    pid is too great, the scan has no result. -/
theorem scan_listing (entries : List Entry) :
    ((∀ r ∈ procs entries, r.pid < maxPid ∧ r.ppid < maxPid) →
        scan (entries.map Entry.raw) = some (enumerate (procs entries))) ∧
      ((∃ r ∈ procs entries, maxPid ≤ r.pid) → scan (entries.map Entry.raw) = none) :=
  ⟨scan_of_fits entries _, scan_of_late entries _⟩

/-- The status file of the first process, with one line before its pid. -/
def initStatus : StatusFile where
  name := [97]
  before := [[83, 58, 9, 83]]
  pid := 1
  ppid := 0
  behind := [84]
  clean := by decide
  pid_le := by decide
  ppid_le := by decide
  fits := by decide

/-- Two processes, one of which cannot be looked at any longer, and the entry for
    the program itself. -/
def threeEntries : List Entry :=
  [⟨[49], some initStatus⟩, ⟨selfName, some initStatus⟩, ⟨[50], none⟩]

theorem scan_listing_three :
    scan (threeEntries.map Entry.raw) = some (enumerate [⟨1, 0, [97]⟩]) := by
  refine (scan_listing threeEntries).1 (fun r hr => ?_)
  have hone : r ∈ [(⟨1, 0, [97]⟩ : Proc)] := hr
  rw [List.mem_singleton.mp hone]
  exact ⟨by decide, by decide⟩

end ProcessTree

end TlpiPractice
