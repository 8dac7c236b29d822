import TlpiPractice.Theory.FileCreateTest.Insert

/-!
# The Directory Is Restored

What the program has done to its directory when it returns zero.

`O_EXCL` keeps two things apart with one test: a name that was there before
and a name that the program has created already are both given up. So the
names in the list are new and all different, and when they have all been
removed the directory is what it was.

## Main definitions

* `start`: The state at the beginning.
* `turns`: Some turns of the first loop.
* `Kept`: The list is right.
* `Restored`: What a run should leave.
* `FilesRight`: What the program should do.
* `Inv`: What holds between the turns.

## Theorems

* `inv_createTurn`: One turn of the first loop.
* `createLoop_eq_ok`: The first loop is some turns.
* `unlinkLoop_eq_ok`: The loop that removes the files.
* `nameOf_inj`: Different numbers have different names.
* `exists_main`: The program can return zero.
* `main_eq_ok`: What a run that returns zero has been through.
* `filesRight`: The program is right.
-/

namespace TlpiPractice

namespace FileCreateTest

open LinkedList

/-- The state before the first file is created. -/
def start (dir : CString → Option (List UInt8)) (heap : Heap) : State := ⟨dir, heap, 0, [], []⟩

/-- Some turns of the loop that creates the files. -/
def turns (fuel : Nat) : List Event → State → Except Stop State
  | [], s => .ok s
  | e :: events, s =>
      match createTurn fuel s e with
      | .error stop => .error stop
      | .ok s => turns fuel events s

/-- The list is sorted, and holds exactly the names that have been created. -/
def Kept (s : State) : Prop :=
  ∃ cells names, Linked s.heap.next (s.heap.next 0) cells ∧
    cells.map s.heap.filename = names.map some ∧ Sorted names ∧ names.Perm s.created

/-- The files are as many as were asked for, all different and none of them
    old, they have been removed in order and each once, and the directory is
    what it was. -/
def Restored (nf : Int) (dir : CString → Option (List UInt8)) (s : State) : Prop :=
  (s.created.length : Int) = nf ∧ s.created.Nodup ∧ (∀ name ∈ s.created, dir name = none) ∧
    s.unlinked.Perm s.created ∧ Sorted s.unlinked ∧ s.dir = dir

/-- The list should be right after any turns of the first loop, and a run that
    returns zero should restore the directory. -/
def FilesRight (fuel : Nat) (nf : Int) (dir : CString → Option (List UInt8)) (out : Outside) :
    Prop :=
  (∀ heap events s, init out.mem = .ok heap → turns fuel events (start dir heap) = .ok s →
    Kept s) ∧
    ∀ s, main fuel nf dir out = .ok s → Restored nf dir s

/-- What holds between the turns of the first loop. -/
structure Inv (dir : CString → Option (List UInt8)) (s : State) : Prop where
  list : ∃ names, Named s.heap names ∧ Sorted names ∧ names.Perm s.created
  nodup : s.created.Nodup
  new : ∀ name ∈ s.created, dir name = none ∧ s.dir name ≠ none
  others : ∀ name, name ∉ s.created → s.dir name = dir name
  count : s.i = s.created.length
  unlinked : s.unlinked = []

/-! ### The files are created -/

theorem inv_start (dir : CString → Option (List UInt8)) (mem : Bool) (heap : Heap)
    (h : init mem = .ok heap) : Inv dir (start dir heap) := by
  cases mem with
  | false => cases h
  | true =>
      cases h
      refine ⟨⟨[], ⟨[], rfl, rfl, fun c hc => absurd hc List.not_mem_nil, Nat.zero_lt_one⟩,
        List.Pairwise.nil, List.Perm.nil⟩, List.nodup_nil,
        fun name hname => absurd hname List.not_mem_nil, fun _ _ => rfl, rfl, rfl⟩

/-- A turn creates a new file and puts its name into the list, or does
    nothing. -/
theorem inv_createTurn (fuel : Nat) (dir : CString → Option (List UInt8)) (s s' : State)
    (e : Event) (hinv : Inv dir s) (h : createTurn fuel s e = .ok s') :
    Inv dir s' ∧ s'.i ≤ s.i + 1 := by
  unfold createTurn at h
  by_cases hopen : e.openFails = true
  · rw [if_pos hopen] at h
    cases h
  rw [if_neg hopen] at h
  by_cases hexists : s.dir (nameOf (e.rand % 1000000)) ≠ none
  · rw [if_pos hexists] at h
    -- The name is there already, so nothing is counted.
    cases h
    exact ⟨hinv, Nat.le_succ _⟩
  rw [if_neg hexists, ne_eq, not_not] at *
  cases hwrite : e.written with
  | none =>
      simp only [hwrite] at h
      cases h
  | some n =>
      simp only [hwrite] at h
      cases hinsert : insert fuel s.heap (nameOf (e.rand % 1000000)) e.mem with
      | error stop =>
          simp only [hinsert] at h
          cases h
      | ok heap =>
          simp only [hinsert] at h
          cases h
          -- The name is not among those that have been created, which are all there.
          have hnew : nameOf (e.rand % 1000000) ∉ s.created :=
            fun hin => (hinv.new _ hin).2 hexists
          rcases hinv.list with ⟨names, hnamed, hsorted, hperm⟩
          rcases named_insert fuel s.heap heap names _ e.mem hnamed hsorted
            (fun hin => hnew (hperm.mem_iff.mp hin)) hinsert with
            ⟨names', hnamed', hsorted', hperm'⟩
          refine ⟨⟨⟨names', hnamed', hsorted', ?_⟩, ?_, ?_, ?_, ?_, hinv.unlinked⟩, Nat.le_refl _⟩
          · exact hperm'.trans ((hperm.cons _).trans (List.perm_append_singleton _ _).symm)
          · exact List.nodup_append.mpr ⟨hinv.nodup, List.nodup_singleton _,
              fun a ha b hb heq => hnew (List.mem_singleton.mp hb ▸ heq ▸ ha)⟩
          · intro name hname
            simp only
            rcases List.mem_append.mp hname with hname | hname
            · have hne : name ≠ nameOf (e.rand % 1000000) := fun heq => hnew (heq ▸ hname)
              rw [Function.update_of_ne hne]
              exact hinv.new name hname
            · rw [List.mem_singleton.mp hname, Function.update_self]
              exact ⟨(hinv.others _ hnew).symm.trans hexists, Option.some_ne_none _⟩
          · intro name hname
            rw [List.mem_append, not_or, List.mem_singleton] at hname
            simp only
            rw [Function.update_of_ne hname.2]
            exact hinv.others name hname.1
          · rw [List.length_append, List.length_singleton, hinv.count]

theorem inv_turns (fuel : Nat) (dir : CString → Option (List UInt8)) (events : List Event)
    (s s' : State) (hinv : Inv dir s) (h : turns fuel events s = .ok s') : Inv dir s' := by
  induction events generalizing s with
  | nil =>
      cases h
      exact hinv
  | cons e events ih =>
      rw [turns] at h
      cases hturn : createTurn fuel s e with
      | error stop =>
          rw [hturn] at h
          cases h
      | ok t =>
          rw [hturn] at h
          exact ih t (inv_createTurn fuel dir s t e hinv hturn).1 h

/-- The first loop goes through its turns until it has counted enough. -/
theorem createLoop_eq_ok (fuel nf : Nat) (dir : CString → Option (List UInt8))
    (events : List Event) (s s' : State) (hinv : Inv dir s) (hle : s.i ≤ nf)
    (h : createLoop fuel nf events s = .ok s') : Inv dir s' ∧ s'.i = nf := by
  induction events generalizing s with
  | nil =>
      rw [createLoop] at h
      by_cases hlt : s.i < nf
      · rw [if_pos hlt] at h
        cases h
      · rw [if_neg hlt] at h
        cases h
        exact ⟨hinv, by omega⟩
  | cons e events ih =>
      rw [createLoop] at h
      by_cases hlt : s.i < nf
      · rw [if_pos hlt] at h
        cases hturn : createTurn fuel s e with
        | error stop =>
            rw [hturn] at h
            cases h
        | ok t =>
            rw [hturn] at h
            rcases inv_createTurn fuel dir s t e hinv hturn with ⟨hinv', hcount⟩
            exact ih t hinv' (by omega) h
      · rw [if_neg hlt] at h
        cases h
        exact ⟨hinv, by omega⟩

/-! ### The files are removed -/

/-- The names in the list are removed one after the other. -/
theorem unlinkLoop_eq_ok (fails : List Bool) (cells : List Nat) (names : List CString)
    (p : Option Nat) (s s' : State) (hl : Linked s.heap.next p cells)
    (hnames : cells.map s.heap.filename = names.map some)
    (h : unlinkLoop fails p s = .ok s') :
    s'.unlinked = s.unlinked ++ names ∧ s'.created = s.created ∧
      ∀ name, s'.dir name = if name ∈ names then none else s.dir name := by
  induction cells generalizing fails p names s with
  | nil =>
      rw [List.map_nil, eq_comm, List.map_eq_nil_iff] at hnames
      subst hnames
      have hp : p = none := hl
      rw [hp, unlinkLoop] at h
      cases h
      exact ⟨(List.append_nil _).symm, rfl, fun name => (if_neg List.not_mem_nil).symm⟩
  | cons c cells ih =>
      cases names with
      | nil => cases hnames
      | cons first names =>
          rw [List.map_cons, List.map_cons, List.cons.injEq] at hnames
          rcases hl with ⟨rfl, hl⟩
          cases fails with
          | nil => cases h
          | cons fail fails =>
              rw [unlinkLoop, hnames.1] at h
              simp only at h
              by_cases hfail : fail = true ∨ s.dir first = none
              · rw [if_pos hfail] at h
                cases h
              · -- The first name is removed, and the rest from the next node on.
                rw [if_neg hfail] at h
                have hrest := fun hl hnames => ih fails names (s.heap.next c) _ hl hnames h
                simp only at hrest
                rcases hrest hl hnames.2 with ⟨hunlinked, hcreated, hdir⟩
                refine ⟨?_, hcreated, fun name => ?_⟩
                · rw [hunlinked, List.append_assoc]
                  rfl
                · rw [hdir name]
                  by_cases hin : name ∈ names
                  · rw [if_pos hin, if_pos (List.mem_cons_of_mem first hin)]
                  · rw [if_neg hin]
                    by_cases heq : name = first
                    · rw [heq, Function.update_self, if_pos List.mem_cons_self]
                    · rw [Function.update_of_ne heq, if_neg (fun hcons =>
                        (List.mem_cons.mp hcons).elim heq hin)]

/-! ### A run that returns zero -/

theorem bytes_nameOf (code : Nat) :
    (nameOf code).bytes = 120 :: [100000, 10000, 1000, 100, 10, 1].map (fun d =>
      UInt8.ofNat (48 + code / d % 10)) := by
  -- No digit is a NUL.
  have hdigit : ∀ n : Nat, UInt8.ofNat (48 + n % 10) ≠ 0 := by
    intro n h
    have hnat := congrArg UInt8.toNat h
    have hzero : (0 : UInt8).toNat = 0 := rfl
    rw [UInt8.toNat_ofNat', hzero, Nat.mod_eq_of_lt (by omega)] at hnat
    omega
  rw [nameOf, CString.bytes_ofBytes, CString.str_of_noNul]
  intro b hb
  rcases List.mem_cons.mp hb with rfl | hb
  · decide
  · rcases List.mem_map.mp hb with ⟨d, -, rfl⟩
    exact hdigit (code / d)

theorem nameOf_inj (a b : Nat) (ha : a < 1000000) (hb : b < 1000000)
    (h : nameOf a = nameOf b) : a = b := by
  have hdigit : ∀ m n : Nat, UInt8.ofNat (48 + m % 10) = UInt8.ofNat (48 + n % 10) →
      m % 10 = n % 10 := by
    intro m n heq
    have hnat := congrArg UInt8.toNat heq
    have hm : 48 + m % 10 < 2 ^ 8 := by omega
    have hn : 48 + n % 10 < 2 ^ 8 := by omega
    rw [UInt8.toNat_ofNat', UInt8.toNat_ofNat', Nat.mod_eq_of_lt hm, Nat.mod_eq_of_lt hn] at hnat
    omega
  have hbytes := congrArg CString.bytes h
  rw [bytes_nameOf, bytes_nameOf] at hbytes
  simp only [List.map_cons, List.map_nil, List.cons.injEq, true_and, and_true] at hbytes
  rcases hbytes with ⟨h₁, h₂, h₃, h₄, h₅, h₆⟩
  have h₁ := hdigit _ _ h₁
  have h₂ := hdigit _ _ h₂
  have h₃ := hdigit _ _ h₃
  have h₄ := hdigit _ _ h₄
  have h₅ := hdigit _ _ h₅
  have h₆ := hdigit _ _ h₆
  omega

/-- A turn in which all calls succeed. -/
def succeeding (code : Nat) : Event := ⟨code, false, some 1, (true, true)⟩

theorem exists_createTurn (dir : CString → Option (List UInt8)) (s : State) (hinv : Inv dir s)
    (code : Nat) (hnew : s.dir (nameOf (code % 1000000)) = none) :
    ∃ s' bound, s'.i = s.i + 1 ∧
      (∀ name, name ≠ nameOf (code % 1000000) → s'.dir name = s.dir name) ∧
      ∀ fuel, bound ≤ fuel → createTurn fuel s (succeeding code) = .ok s' := by
  rcases hinv.list with ⟨names, hnamed, -⟩
  rcases exists_insert s.heap names (nameOf (code % 1000000)) hnamed with ⟨bound, heap, hinsert⟩
  refine ⟨{ dir := Function.update s.dir (nameOf (code % 1000000)) (some ([49].take 1))
            heap := heap, i := s.i + 1, created := s.created ++ [nameOf (code % 1000000)]
            unlinked := s.unlinked }, bound, rfl, fun name hname => Function.update_of_ne hname _ _,
    fun fuel hfuel => ?_⟩
  have hmore := insert_mono bound fuel s.heap heap _ (true, true) hfuel hinsert
  have hopen : ¬ (succeeding code).openFails = true := Bool.false_ne_true
  have hexists : ¬ s.dir (nameOf ((succeeding code).rand % 1000000)) ≠ none := fun h => h hnew
  rw [createTurn, if_neg hopen, if_neg hexists]
  simp only [succeeding, hmore]

/-- The first loop creates a file in each of its turns if no name comes twice. -/
theorem exists_createLoop (dir : CString → Option (List UInt8)) (nf : Nat) (codes : List Nat)
    (s : State) (hinv : Inv dir s) (hcount : s.i + codes.length = nf)
    (hdistinct : (codes.map (fun code => nameOf (code % 1000000))).Nodup)
    (hnew : ∀ code ∈ codes, s.dir (nameOf (code % 1000000)) = none) :
    ∃ s' bound, Inv dir s' ∧
      ∀ fuel, bound ≤ fuel → createLoop fuel nf (codes.map succeeding) s = .ok s' := by
  induction codes generalizing s with
  | nil =>
      refine ⟨s, 0, hinv, fun fuel _ => if_neg ?_⟩
      rw [List.length_nil] at hcount
      omega
  | cons code codes ih =>
      rw [List.map_cons, List.nodup_cons] at hdistinct
      rw [List.length_cons] at hcount
      rcases exists_createTurn dir s hinv code (hnew code List.mem_cons_self) with
        ⟨t, bound, hi, hothers, hturn⟩
      have hinv' := (inv_createTurn bound dir s t _ hinv (hturn bound (Nat.le_refl _))).1
      have hnew' : ∀ c ∈ codes, t.dir (nameOf (c % 1000000)) = none := by
        intro c hc
        have hne : nameOf (c % 1000000) ≠ nameOf (code % 1000000) := fun heq =>
          hdistinct.1 (heq ▸ List.mem_map_of_mem hc)
        rw [hothers _ hne]
        exact hnew c (List.mem_cons_of_mem code hc)
      rcases ih t hinv' (by omega) hdistinct.2 hnew' with ⟨s', bound', hs', hrest⟩
      refine ⟨s', max bound bound', hs', fun fuel hfuel => ?_⟩
      rw [List.map_cons, createLoop, if_pos (by omega), hturn fuel (by omega)]
      exact hrest fuel (by omega)

/-- The second loop removes what is in the list. -/
theorem exists_unlinkLoop (cells : List Nat) (names : List CString) (p : Option Nat) (s : State)
    (hl : Linked s.heap.next p cells) (hnames : cells.map s.heap.filename = names.map some)
    (hdistinct : names.Nodup) (hthere : ∀ name ∈ names, s.dir name ≠ none) :
    ∃ s', unlinkLoop (List.replicate cells.length false) p s = .ok s' := by
  induction cells generalizing names p s with
  | nil =>
      have hp : p = none := hl
      rw [hp]
      exact ⟨s, rfl⟩
  | cons c cells ih =>
      cases names with
      | nil => cases hnames
      | cons first names =>
          rw [List.map_cons, List.map_cons, List.cons.injEq] at hnames
          rw [List.nodup_cons] at hdistinct
          rcases hl with ⟨rfl, hl⟩
          have hfail : ¬ (false = true ∨ s.dir first = none) :=
            not_or.mpr ⟨Bool.false_ne_true, hthere first List.mem_cons_self⟩
          rw [List.length_cons, List.replicate_succ, unlinkLoop, hnames.1]
          simp only [if_neg hfail]
          refine ih names (s.heap.next c) _ hl hnames.2 hdistinct.2 (fun name hname => ?_)
          have hne : name ≠ first := fun heq => hdistinct.1 (heq ▸ hname)
          simp only
          rw [Function.update_of_ne hne]
          exact hthere name (List.mem_cons_of_mem first hname)

/-- The program returns zero when all calls succeed and `rand` gives numbers whose
    files are not there. -/
theorem exists_main (nf : Int) (hrange : 1000 ≤ nf ∧ nf ≤ 20000)
    (dir : CString → Option (List UInt8)) (hnew : ∀ code < nf.toNat, dir (nameOf code) = none) :
    ∃ fuel out s, main fuel nf dir out = .ok s := by
  have hsmall : ∀ code < nf.toNat, code % 1000000 = code := fun code h =>
    Nat.mod_eq_of_lt (by omega)
  have hdistinct : ((List.range nf.toNat).map (fun code => nameOf (code % 1000000))).Nodup := by
    refine List.Nodup.map_on (fun a ha b hb heq => ?_) List.nodup_range
    have ha := List.mem_range.mp ha
    have hb := List.mem_range.mp hb
    rw [hsmall a ha, hsmall b hb] at heq
    exact nameOf_inj a b (by omega) (by omega) heq
  have hfree : ∀ code ∈ List.range nf.toNat, dir (nameOf (code % 1000000)) = none := by
    intro code hcode
    rw [hsmall code (List.mem_range.mp hcode)]
    exact hnew code (List.mem_range.mp hcode)
  rcases exists_createLoop dir nf.toNat (List.range nf.toNat) _ (inv_start dir true _ rfl)
    ((Nat.zero_add _).trans List.length_range) hdistinct hfree with ⟨s, bound, hinv, hcreate⟩
  rcases hinv.list with ⟨names, ⟨cells, hl, hnames, -⟩, -, hperm⟩
  rcases exists_unlinkLoop cells names _ s hl hnames (hperm.nodup_iff.mpr hinv.nodup)
    (fun name hname => (hinv.new name (hperm.mem_iff.mp hname)).2) with ⟨s', hunlink⟩
  refine ⟨bound, ⟨true, true, (List.range nf.toNat).map succeeding,
    List.replicate cells.length false, true⟩, s', ?_⟩
  have hloop := hcreate bound (Nat.le_refl _)
  rw [start] at hloop
  have hin : ¬ (nf < 1000 ∨ 20000 < nf) := by omega
  rw [main, if_neg hin]
  simp only [init, if_true, Bool.true_eq_false, if_false, hloop, hunlink]

/-! ### Every run -/

/-- A run that returns zero has been through both of its loops. -/
theorem main_eq_ok (fuel : Nat) (nf : Int) (dir : CString → Option (List UInt8)) (out : Outside)
    (s' : State) (h : main fuel nf dir out = .ok s') :
    1000 ≤ nf ∧ ∃ heap s, init out.mem = .ok heap ∧
      createLoop fuel nf.toNat out.events (start dir heap) = .ok s ∧
      unlinkLoop out.unlinks (s.heap.next 0) s = .ok s' := by
  unfold main at h
  by_cases hrange : nf < 1000 ∨ 20000 < nf
  · rw [if_pos hrange] at h
    cases h
  rw [if_neg hrange] at h
  cases hinit : init out.mem with
  | error stop =>
      simp only [hinit] at h
      cases h
  | ok heap =>
      simp only [hinit] at h
      by_cases hstart : out.startTime = false
      · rw [if_pos hstart] at h
        cases h
      rw [if_neg hstart] at h
      cases hcreate : createLoop fuel nf.toNat out.events (start dir heap) with
      | error stop =>
          rw [start] at hcreate
          simp only [hcreate] at h
          cases h
      | ok s =>
          have hloop := hcreate
          rw [start] at hcreate
          simp only [hcreate] at h
          cases hunlink : unlinkLoop out.unlinks (s.heap.next 0) s with
          | error stop =>
              simp only [hunlink] at h
              cases h
          | ok t =>
              simp only [hunlink] at h
              by_cases hend : out.endTime = false
              · rw [if_pos hend] at h
                cases h
              rw [if_neg hend] at h
              cases h
              exact ⟨by omega, heap, s, rfl, hloop, hunlink⟩

/-- For every number, directory and run, the list is kept in order and a run
    that returns zero restores the directory. -/
theorem filesRight (fuel : Nat) (nf : Int) (dir : CString → Option (List UInt8))
    (out : Outside) : FilesRight fuel nf dir out := by
  constructor
  · intro heap events s hinit hturns
    rcases (inv_turns fuel dir events _ s (inv_start dir out.mem heap hinit) hturns).list with
      ⟨names, ⟨cells, hl, hnames, -⟩, hsorted, hperm⟩
    exact ⟨cells, names, hl, hnames, hsorted, hperm⟩
  · intro s' h
    rcases main_eq_ok fuel nf dir out s' h with ⟨hrange, heap, s, hinit, hcreate, hunlink⟩
    rcases createLoop_eq_ok fuel nf.toNat dir out.events _ s (inv_start dir out.mem heap hinit)
      (Nat.zero_le _) hcreate with ⟨hinv, hcount⟩
    rcases hinv.list with ⟨names, ⟨cells, hl, hnames, -⟩, hsorted, hperm⟩
    rcases unlinkLoop_eq_ok out.unlinks cells names _ s s' hl hnames hunlink with
      ⟨hunlinked, hcreated, hdir⟩
    rw [hinv.unlinked, List.nil_append] at hunlinked
    unfold Restored
    rw [hcreated, hunlinked]
    refine ⟨?_, hinv.nodup, fun name hname => (hinv.new name hname).1, hperm, hsorted,
      funext (fun name => ?_)⟩
    · rw [← hinv.count, hcount]
      omega
    · -- A name that is gone was new, and the others are as they were.
      rw [hdir name]
      by_cases hin : name ∈ names
      · rw [if_pos hin, (hinv.new name (hperm.mem_iff.mp hin)).1]
      · rw [if_neg hin]
        exact hinv.others name (fun hc => hin (hperm.mem_iff.mpr hc))

/-- A thousand files in an empty directory. -/
theorem filesRight_thousand :
    ∃ fuel out s, main fuel 1000 (fun _ => none) out = .ok s ∧
      Restored 1000 (fun _ => none) s := by
  rcases exists_main 1000 (by decide) (fun _ => none) (fun _ _ => rfl) with
    ⟨fuel, out, s, h⟩
  exact ⟨fuel, out, s, h, (filesRight fuel 1000 (fun _ => none) out).2 s h⟩

end FileCreateTest

end TlpiPractice
