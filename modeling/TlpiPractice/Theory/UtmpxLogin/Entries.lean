import TlpiPractice.Core.UtmpxLogin
import TlpiPractice.Library.Reach

/-!
# The Entries of Several Logins

Whether every login finds its own entry in `utmp`, for any number of logins at
different terminals and any order of their calls.

The identifier of an entry is four bytes of the name of the terminal, and of
`/dev/pts/123` the first of them is the slash. So three digits of the number
are left, and a login at `/dev/pts/1234` takes the entry of `/dev/pts/123`.
Where no two identifiers are the same, no login touches what another one has
written, and neither does it touch an entry of somebody else.

## Main definitions

* `Terminals`: The terminals of the logins.
* `Own`: The entry is one of this login.
* `Kept`: Every entry is found and the others are as they were.
* `LoginInv`: The invariant.

## Theorems

* `inv_enter`: Writing an entry keeps those of the others.
* `step_cases`: Every step there is.
* `inv_step`: A step keeps the invariant.
* `canReach_enter`: A login can write its entry.
* `kept_iff`: The entries are kept exactly if the identifiers differ.
* `pts_apart`: They do for pseudo-terminals with small numbers.
-/

namespace TlpiPractice

namespace UtmpxLogin

open CString Runs Utmp

variable {ι : Type*}

/-- `"/dev/"` and the rest of a name. -/
def inDev (tty : CString) : CString where
  bytes := [47, 100, 101, 118, 47] ++ tty.bytes
  noNul := fun b hb => by
    rcases List.mem_append.mp hb with hb | hb
    · have hdev : ∀ b ∈ ([47, 100, 101, 118, 47] : List UInt8), b ≠ 0 := by simp
      exact hdev b hb
    · exact tty.noNul b hb

/-- The logins are at different terminals, whose names fit into a line. -/
structure Terminals (logins : ι → Login) (tty : ι → CString) : Prop where
  named : ∀ i, (logins i).devName = some (inDev (tty i))
  long : ∀ i, 3 < (tty i).bytes.length
  fits : ∀ i, (tty i).bytes.length ≤ lineSize
  distinct : Function.Injective tty

/-- What the identifier of a terminal consists of. -/
def ident (tty : CString) : List UInt8 := (tty.bytes.drop 3).take idSize

/-- The entry is one of a login at this terminal. -/
structure Own (tty : CString) (r : Utmpx) : Prop where
  ofProcess : r.utType.ofProcess = true
  id : str r.utId = ident tty
  line : str r.utLine = tty.bytes

/-- What a login has written last is what is found, and entries with the
    identifier of no login are as they were. -/
structure Kept (tty : ι → CString) (utmp : List Utmpx) (s : State ι) : Prop where
  found : ∀ i r, s.put i = some r → getutxid s.utmp r.utId = some r
  others : ∀ id, (∀ i, str id ≠ ident (tty i)) →
    s.utmp.filter (sameId id) = utmp.filter (sameId id)

/-- The process has made its entry and has not ended. -/
def Pc.ready : Pc → Bool
  | .starting | .ended _ => false
  | _ => true

/-- From which call to which a process goes without touching a file. -/
def Pc.leadsTo : Pc → Pc → Prop
  | _, .ended status => status = 1
  | .sleeping, .leaving => True
  | .opening, .lookingUp => True
  | .lookingUp, .seeking => True
  | .seeking, .writing => True
  | _, _ => False

/-- The calls of `updwtmpx`, and what comes behind them. -/
def Pc.notes : Pc → Pc → Prop
  | .noting, .sleeping => True
  | .notingEnd, .opening => True
  | _, _ => False

structure LoginInv (tty : ι → CString) (utmp : List Utmpx) (s : State ι) : Prop where
  own : ∀ i, (s.pc i).ready = true → Own (tty i) (s.ut i)
  ownPut : ∀ i r, s.put i = some r → Own (tty i) r
  kept : Kept tty utmp s

theorem bytes_drop (tty : CString) (n : Nat) :
    (ofBytes ((inDev tty).bytes.drop (5 + n))).bytes = tty.bytes.drop n := by
  rw [bytes_ofBytes, ← List.drop_drop]
  exact str_of_noNul _ (fun b hb => tty.noNul b (List.mem_of_mem_drop hb))

theorem str_idOf (tty : CString) : str (idOf (inDev tty)) = ident tty := by
  unfold idOf
  rw [str_strncpy, bytes_drop tty 3]
  rfl

theorem str_lineOf (tty : CString) (h : tty.bytes.length ≤ lineSize) :
    str (lineOf (inDev tty)) = tty.bytes := by
  unfold lineOf
  rw [str_strncpy, bytes_drop tty 0, List.drop_zero, List.take_of_length_le h]

section Login

variable {logins : ι → Login} {userIdFromName : List UInt8 → Int} {tty : ι → CString}

theorem loginEntry_eq (h : Terminals logins tty) (i : ι) (now : Int) :
    ∃ ut, loginEntry (logins i) now = some ut ∧ Own (tty i) ut := by
  have hlong := h.long i
  have hsize : ¬ (inDev (tty i)).bytes.length ≤ 8 := by
    rw [inDev, List.length_append]
    have hdev : ([47, 100, 101, 118, 47] : List UInt8).length = 5 := rfl
    omega
  refine ⟨_, by rw [loginEntry, h.named i]; exact if_neg hsize, rfl, ?_, ?_⟩
  · exact str_idOf (tty i)
  · exact str_lineOf (tty i) (h.fits i)

theorem own_of_loginEntry (h : Terminals logins tty) (i : ι) (now : Int) (ut : Utmpx)
    (hentry : loginEntry (logins i) now = some ut) : Own (tty i) ut := by
  rcases loginEntry_eq h i now with ⟨ut', hentry', hown⟩
  rw [hentry, Option.some_inj] at hentry'
  rw [hentry']
  exact hown

theorem own_logoutEntry (i : ι) (ut : Utmpx) (now : Int) (h : Own (tty i) ut) :
    Own (tty i) (logoutEntry ut now) := ⟨rfl, h.id, h.line⟩

theorem inv_initial (utmp wtmp : List Utmpx) : LoginInv tty utmp (initial utmp wtmp) where
  own := fun _ h => absurd h Bool.false_ne_true
  ownPut := fun _ r h => absurd h (Option.some_ne_none r).symm
  kept := ⟨fun _ r h => absurd h (Option.some_ne_none r).symm, fun _ _ => rfl⟩

variable [DecidableEq ι]

/-- A process goes to another call, and `utmp` and `ut` stay. -/
theorem inv_same (utmp : List Utmpx) (s s' : State ι) (i : ι) (pc : Pc)
    (h : LoginInv tty utmp s) (hpc : s'.pc = Function.update s.pc i pc) (hut : s'.ut = s.ut)
    (hput : s'.put = s.put) (hutmp : s'.utmp = s.utmp)
    (hready : pc.ready = true → (s.pc i).ready = true) : LoginInv tty utmp s' where
  own := fun j hj => by
    rw [hut]
    rw [hpc] at hj
    by_cases hji : j = i
    · subst hji
      rw [Function.update_self] at hj
      exact h.own j (hready hj)
    · rw [Function.update_of_ne hji] at hj
      exact h.own j hj
  ownPut := by
    rw [hput]
    exact h.ownPut
  kept := by
    refine ⟨?_, ?_⟩
    · rw [hput, hutmp]
      exact h.kept.found
    · rw [hutmp]
      exact h.kept.others

/-- Writing an entry. No other login has its identifier. -/
theorem inv_enter (hids : ∀ i j, i ≠ j → ident (tty i) ≠ ident (tty j)) (utmp : List Utmpx)
    (s : State ι) (i : ι) (ut : Utmpx) (pc : Pc) (h : LoginInv tty utmp s)
    (hown : Own (tty i) ut) : LoginInv tty utmp (s.enter i ut pc) where
  own := fun j hj => by
    show Own (tty j) (Function.update s.ut i ut j)
    by_cases hji : j = i
    · subst hji
      rw [Function.update_self]
      exact hown
    · rw [Function.update_of_ne hji]
      refine h.own j ?_
      have hpc : (Function.update s.pc i pc j).ready = true := hj
      rw [Function.update_of_ne hji] at hpc
      exact hpc
  ownPut := fun j r hr => by
    have hput : Function.update s.put i (some ut) j = some r := hr
    by_cases hji : j = i
    · subst hji
      rw [Function.update_self, Option.some_inj] at hput
      rw [← hput]
      exact hown
    · rw [Function.update_of_ne hji] at hput
      exact h.ownPut j r hput
  kept := by
    refine ⟨fun j r hr => ?_, fun id hid => ?_⟩
    · have hput : Function.update s.put i (some ut) j = some r := hr
      show getutxid (pututxline ut s.utmp) r.utId = some r
      by_cases hji : j = i
      · subst hji
        rw [Function.update_self, Option.some_inj] at hput
        rw [← hput]
        exact getutxid_pututxline ut s.utmp hown.ofProcess
      · rw [Function.update_of_ne hji] at hput
        -- The entry of another login has another identifier, and stays where it is.
        have hne : str r.utId ≠ str ut.utId := by
          rw [(h.ownPut j r hput).id, hown.id]
          exact hids j i hji
        rw [← h.kept.found j r hput]
        exact getutxid_congr _ _ _ (filter_pututxline_of_ne ut s.utmp r.utId hne)
    · rw [← h.kept.others id hid]
      exact filter_pututxline_of_ne ut s.utmp id (by rw [hown.id]; exact hid i)

/-- The first call of a login makes its entry. -/
theorem inv_start (utmp : List Utmpx) (s : State ι) (i : ι) (ut : Utmpx)
    (h : LoginInv tty utmp s) (hown : Own (tty i) ut) :
    LoginInv tty utmp ({ s with ut := Function.update s.ut i ut }.move i .entering) where
  own := fun j hj => by
    show Own (tty j) (Function.update s.ut i ut j)
    by_cases hji : j = i
    · subst hji
      rw [Function.update_self]
      exact hown
    · rw [Function.update_of_ne hji]
      refine h.own j ?_
      have hpc : (Function.update s.pc i .entering j).ready = true := hj
      rw [Function.update_of_ne hji] at hpc
      exact hpc
  ownPut := h.ownPut
  kept := ⟨h.kept.found, h.kept.others⟩

/-- Every step there is, at whatever terminals the processes are. -/
theorem step_cases (s : State ι) (e : Event ι) (s' : State ι)
    (hstep : Step logins userIdFromName s e s') :
    (∃ i pc, (s.pc i).leadsTo pc ∧ s' = s.move i pc) ∨
      (∃ i pc, (s.pc i).notes pc ∧ s' = s.note i pc) ∨
      (∃ i now ut, s.pc i = .starting ∧ loginEntry (logins i) now = some ut ∧
        s' = { s with ut := Function.update s.ut i ut }.move i .entering) ∨
      (∃ i, s.pc i = .entering ∧ s' = s.enter i (s.ut i) .noting) ∨
      ∃ i now, s.pc i = .leaving ∧ s' = s.enter i (logoutEntry (s.ut i) now) .notingEnd := by
  rcases hstep with ⟨hen, rfl⟩
  cases e with
  | fails i => exact .inl ⟨i, .ended 1, rfl, rfl⟩
  | goesOn i now =>
      rw [next, call]
      cases hpc : s.pc i with
      | starting =>
          cases hentry : loginEntry (logins i) now with
          | none => exact .inl ⟨i, .ended 1, rfl, rfl⟩
          | some ut => exact .inr (.inr (.inl ⟨i, now, ut, hpc, hentry, rfl⟩))
      | entering => exact .inr (.inr (.inr (.inl ⟨i, hpc, rfl⟩)))
      | noting => exact .inr (.inl ⟨i, .sleeping, by rw [hpc]; trivial, rfl⟩)
      | sleeping =>
          simp only
          split
          · exact .inl ⟨i, .leaving, by rw [hpc]; trivial, rfl⟩
          · exact .inl ⟨i, .ended 1, rfl, rfl⟩
      | leaving => exact .inr (.inr (.inr (.inr ⟨i, now, hpc, rfl⟩)))
      | notingEnd => exact .inr (.inl ⟨i, .opening, by rw [hpc]; trivial, rfl⟩)
      | opening => exact .inl ⟨i, .lookingUp, by rw [hpc]; trivial, rfl⟩
      | lookingUp =>
          simp only
          split
          · exact .inl ⟨i, .ended 1, rfl, rfl⟩
          · exact .inl ⟨i, .seeking, by rw [hpc]; trivial, rfl⟩
      | seeking => exact .inl ⟨i, .writing, by rw [hpc]; trivial, rfl⟩
      | writing =>
          -- The file is open for reading only.
          exact .inl ⟨i, .ended 1, rfl, if_neg Bool.false_ne_true⟩
      | ended status => exact absurd hpc (hen status)

theorem ready_of_leadsTo (p q : Pc) (h : p.leadsTo q) (hq : q.ready = true) :
    p.ready = true := by
  cases q with
  | ended status => exact absurd hq Bool.false_ne_true
  | _ => cases p <;> first | rfl | exact h.elim

theorem ready_of_notes (p q : Pc) (h : p.notes q) : p.ready = true := by
  cases p <;> first | rfl | exact h.elim

theorem inv_step (hterm : Terminals logins tty)
    (hids : ∀ i j, i ≠ j → ident (tty i) ≠ ident (tty j)) (utmp : List Utmpx) (s : State ι)
    (e : Event ι) (s' : State ι) (h : LoginInv tty utmp s)
    (hstep : Step logins userIdFromName s e s') : LoginInv tty utmp s' := by
  rcases step_cases s e s' hstep with ⟨i, pc, hpc, rfl⟩ | ⟨i, pc, hpc, rfl⟩ |
    ⟨i, now, ut, -, hentry, rfl⟩ | ⟨i, hpc, rfl⟩ | ⟨i, now, hpc, rfl⟩
  · exact inv_same utmp s _ i pc h rfl rfl rfl rfl (ready_of_leadsTo _ pc hpc)
  · exact inv_same utmp s _ i pc h rfl rfl rfl rfl (fun _ => ready_of_notes _ pc hpc)
  · exact inv_start utmp s i ut h (own_of_loginEntry hterm i now ut hentry)
  · exact inv_enter hids utmp s i _ _ h (h.own i (by rw [hpc]; rfl))
  · exact inv_enter hids utmp s i _ _ h (own_logoutEntry i _ now (h.own i (by rw [hpc]; rfl)))

/-- A login that has not done anything can write its entry. -/
theorem canReach_enter (s : State ι) (i : ι) (ut : Utmpx) (hpc : s.pc i = .starting)
    (hentry : loginEntry (logins i) 0 = some ut) :
    CanReach (Step logins userIdFromName) s (fun s' =>
      s'.utmp = pututxline ut s.utmp ∧ s'.put = Function.update s.put i (some ut) ∧
        ∀ j, j ≠ i → s'.pc j = s.pc j) := by
  have hfirst : call logins userIdFromName s i 0 =
      { s with ut := Function.update s.ut i ut }.move i .entering := by
    rw [call, hpc]
    simp only [hentry]
  have hpc' : (call logins userIdFromName s i 0).pc i = .entering := by
    rw [hfirst]
    exact Function.update_self i _ _
  have hut : (call logins userIdFromName s i 0).ut i = ut := by
    rw [hfirst]
    exact Function.update_self i _ _
  have hsecond : call logins userIdFromName (call logins userIdFromName s i 0) i 0 =
      (call logins userIdFromName s i 0).enter i ut .noting := by
    rw [call, hpc', hut]
  refine canReach_step (.goesOn i 0) _ ⟨fun _ hc => ?_, rfl⟩
    (canReach_step (.goesOn i 0) _ ⟨fun _ hc => ?_, rfl⟩ (canReach_here ?_))
  · rw [hpc] at hc
    cases hc
  · rw [next, hpc'] at hc
    cases hc
  · rw [next, next, hsecond, hfirst]
    refine ⟨rfl, rfl, fun j hj => ?_⟩
    show Function.update (Function.update s.pc i .entering) i .noting j = s.pc j
    rw [Function.update_of_ne hj, Function.update_of_ne hj]

/-- Every login finds its own entry in every run exactly if the identifiers of
    their terminals differ. -/
theorem kept_iff (hterm : Terminals logins tty) :
    (∀ utmp wtmp tr, AllSteps (Step logins userIdFromName) (initial utmp wtmp) tr →
        Kept tty utmp (lastState (initial utmp wtmp) tr)) ↔
      ∀ i j, i ≠ j → ident (tty i) ≠ ident (tty j) := by
  refine ⟨fun h i j hij hid => ?_, fun hids utmp wtmp tr hrun => ?_⟩
  · rcases loginEntry_eq hterm i 0 with ⟨ut, hentry, hown⟩
    rcases loginEntry_eq hterm j 0 with ⟨ut', hentry', hown'⟩
    have hboth : CanReach (Step logins userIdFromName) (initial [] [])
        (fun s => s.put i = some ut ∧ getutxid s.utmp ut.utId = some ut') := by
      refine canReach_trans (canReach_enter (initial [] []) i ut rfl hentry) ?_
      rintro s ⟨hutmp, hput, hpc⟩
      refine canReach_mono (canReach_enter s j ut' (hpc j (Ne.symm hij)) hentry') ?_
      rintro s' ⟨hutmp', hput', -⟩
      refine ⟨?_, ?_⟩
      · rw [hput', Function.update_of_ne hij, hput, Function.update_self]
      · have hsame : sameId ut'.utId = sameId ut.utId := by
          funext r
          rw [sameId, sameId, hown.id, hown'.id, hid]
        have hfound := getutxid_pututxline ut' s.utmp hown'.ofProcess
        rw [hutmp']
        unfold getutxid at hfound ⊢
        rw [← hsame]
        exact hfound
    rcases hboth with ⟨tr, hrun, hput, hget⟩
    have hkept := (h [] [] tr hrun).found i ut hput
    rw [hget, Option.some_inj] at hkept
    refine hij (hterm.distinct (eq_of_bytes _ _ ?_))
    rw [← hown.line, ← hown'.line, hkept]
  · have hinv := always_of_allSteps (fun s e s' => inv_step hterm hids utmp s e s') _ tr
      (inv_initial utmp wtmp) hrun
    exact (always_last _ tr hinv).kept

end Login

/-- `"pts/"` and a number. -/
def pts (n : Nat) : CString where
  bytes := [112, 116, 115, 47] ++ Numerals.signed 10 n
  noNul := fun b hb => by
    rcases List.mem_append.mp hb with hb | hb
    · have hpts : ∀ b ∈ ([112, 116, 115, 47] : List UInt8), b ≠ 0 := by simp
      exact hpts b hb
    · exact Numerals.ne_zero_of_mem_signed 10 (by decide) (by decide) n b hb

theorem ident_pts (n : Nat) : ident (pts n) = 47 :: (Numerals.digitsOf 10 n).take 3 := by
  have hsigned : Numerals.signed 10 n = Numerals.digitsOf 10 n := by
    rw [Numerals.signed, if_neg (Int.not_lt.mpr (Int.natCast_nonneg n)), Int.natAbs_natCast]
  show 47 :: (Numerals.signed 10 n).take 3 = _
  rw [hsigned]

/-- Three digits tell the first thousand pseudo-terminals apart. -/
theorem pts_apart (m n : Nat) (hm : m < 1000) (hn : n < 1000) (h : m ≠ n) :
    ident (pts m) ≠ ident (pts n) := by
  have hwhole : ∀ k < 1000, (Numerals.digitsOf 10 k).take 3 = Numerals.digitsOf 10 k := by
    intro k hk
    refine List.take_of_length_le ?_
    unfold Numerals.digitsOf
    split
    · decide
    · rw [List.length_reverse, List.length_map]
      exact (Nat.digits_length_le_iff (by decide) k).mpr hk
  intro hid
  rw [ident_pts, ident_pts, List.cons_inj_right, hwhole m hm, hwhole n hn] at hid
  refine h ?_
  rw [← Numerals.value_digitsOf 10 (by decide) (by decide) m, hid,
    Numerals.value_digitsOf 10 (by decide) (by decide) n]

example : ident (pts 123) = ident (pts 1234) := by decide

/-- Two pseudo-terminals, one for each user. -/
def twoPts (i : Bool) : CString := pts (if i then 1 else 2)

def twoLogins (i : Bool) : Login where
  user := .empty
  sleepTime := none
  devName := some (inDev (twoPts i))
  pid := if i then 100 else 200

theorem twoLogins_terminals : Terminals twoLogins twoPts where
  named := fun _ => rfl
  long := by decide
  fits := by decide
  distinct := by decide

theorem kept_iff_twoPts :
    (∀ utmp wtmp tr, AllSteps (Step twoLogins (fun _ => -1)) (initial utmp wtmp) tr →
        Kept twoPts utmp (lastState (initial utmp wtmp) tr)) ↔
      ∀ i j, i ≠ j → ident (twoPts i) ≠ ident (twoPts j) :=
  kept_iff twoLogins_terminals

end UtmpxLogin

end TlpiPractice
