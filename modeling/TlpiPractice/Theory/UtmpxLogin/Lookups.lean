import TlpiPractice.Theory.UtmpxLogin.Entries

/-!
# What Becomes of the Entries

Two things that are so in every run of any number of logins.

A login leaves the front of the name of its terminal out of the line, and the
two programs that look a terminal up take the whole name. So they find nobody,
although the entry is there, and a look-up without the front finds it.

The file of last logins is opened for reading only, so a login never exits
with success. By then it has noted the login and the logout.

## Main definitions

* `MadeBy`: The entry for the login of a process.
* `Recorded`: What the files hold of a login, by where it stands.

## Theorems

* `recorded_mono`: The steps of others leave it alone.
* `recorded_step`: A step keeps it.
* `lookups_miss`: Nobody is found by the whole name.
* `logout_recorded`: No success, and both entries.
-/

namespace TlpiPractice

namespace UtmpxLogin

open CString Runs Utmp

variable {ι : Type*} [DecidableEq ι]

variable {logins : ι → Login} {userIdFromName : List UInt8 → Int} {tty : ι → CString}

/-- The line of an entry does not begin with a slash. -/
def Short (r : Utmpx) : Prop := (str r.utLine).head? ≠ some 47

/-- No line begins with a slash. -/
theorem short_step (hterm : Terminals logins tty)
    (hids : ∀ i j, i ≠ j → ident (tty i) ≠ ident (tty j))
    (hslash : ∀ i, (tty i).bytes.head? ≠ some 47) (utmp : List Utmpx) (s : State ι)
    (e : Event ι) (s' : State ι) (h : LoginInv tty utmp s ∧ ∀ r ∈ s.utmp, Short r)
    (hstep : Step logins userIdFromName s e s') :
    LoginInv tty utmp s' ∧ ∀ r ∈ s'.utmp, Short r := by
  have hown : ∀ i ut, Own (tty i) ut → ∀ r ∈ pututxline ut s.utmp, Short r := by
    intro i ut how r hr
    rcases mem_pututxline ut r s.utmp hr with rfl | hr
    · unfold Short
      rw [how.line]
      exact hslash i
    · exact h.2 r hr
  refine ⟨inv_step hterm hids utmp s e s' h.1 hstep, ?_⟩
  rcases step_cases s e s' hstep with ⟨i, pc, -, rfl⟩ | ⟨i, pc, -, rfl⟩ |
    ⟨i, now, ut, -, -, rfl⟩ | ⟨i, hpc, rfl⟩ | ⟨i, now, hpc, rfl⟩
  · exact h.2
  · exact h.2
  · exact h.2
  · exact hown i _ (h.1.own i (by rw [hpc]; rfl))
  · exact hown i _ (own_logoutEntry i _ now (h.1.own i (by rw [hpc]; rfl)))

/-- A name with a slash in front is nobody's line. -/
theorem getutxline_eq_none (utmp : List Utmpx) (name line : List UInt8)
    (hutmp : ∀ r ∈ utmp, Short r) (hline : str line = name) (hname : name.head? = some 47) :
    getutxline utmp line = none := by
  unfold getutxline
  rw [List.find?_eq_none]
  intro r hr hsame
  have heq := beq_iff_eq.mp (Bool.and_eq_true_iff.mp hsame).2
  refine hutmp r hr ?_
  rw [heq, hline]
  exact hname

/-- Whatever the logins have done, the two programs find nobody at a terminal,
    although everybody who has logged in and not out is there. -/
theorem lookups_miss (hterm : Terminals logins tty)
    (hids : ∀ i j, i ≠ j → ident (tty i) ≠ ident (tty j))
    (hslash : ∀ i, (tty i).bytes.head? ≠ some 47) (utmp wtmp : List Utmpx)
    (hutmp : ∀ r ∈ utmp, Short r) (tr : List (Event ι × State ι))
    (hrun : AllSteps (Step logins userIdFromName) (initial utmp wtmp) tr) :
    (∀ name : CString, name.bytes.head? = some 47 →
        (∀ place, name.bytes.length < lineSize →
          myGetlogin (lastState (initial utmp wtmp) tr).utmp place (some name) = .null) ∧
        myWho (lastState (initial utmp wtmp) tr).utmp (some name) = none) ∧
      ∀ i r, (lastState (initial utmp wtmp) tr).put i = some r → r.utType = .userProcess →
        (getutxline (lastState (initial utmp wtmp) tr).utmp (tty i).bytes).isSome = true := by
  have hinv := always_last _ tr (always_of_allSteps
    (fun s e s' => short_step hterm hids hslash utmp s e s') _ tr
    ⟨inv_initial utmp wtmp, hutmp⟩ hrun)
  rcases hinv with ⟨hinv, hshort⟩
  refine ⟨fun name hname => ⟨fun place hfits => ?_, ?_⟩, fun i r hput htype => ?_⟩
  · have hnone := getutxline_eq_none ((lastState (initial utmp wtmp) tr).utmp.drop place)
      name.bytes name.bytes (fun r hr => hshort r (List.mem_of_mem_drop hr))
      (str_of_noNul _ name.noNul) hname
    rw [myGetlogin, if_neg (Nat.not_le.mpr hfits), hnone]
  · refine getutxline_eq_none _ (name.bytes.take lineSize) _ hshort (str_strncpy name lineSize) ?_
    rw [List.head?_take, if_neg (by decide)]
    exact hname
  · have hmem := List.mem_of_find?_eq_some (hinv.kept.found i r hput)
    unfold getutxline
    rw [List.find?_isSome]
    refine ⟨r, hmem, ?_⟩
    have hline := (hinv.ownPut i r hput).line
    rw [sameLine, htype, hline, str_of_noNul _ (tty i).noNul, beq_self_eq_true (tty i).bytes,
      Bool.and_true]
    rfl

/-- One of the two logins writes its entry. -/
def oneEnters : List (Event Bool) := [.goesOn true 0, .goesOn true 0]

theorem lookups_miss_oneEnters :
    (∀ name : CString, name.bytes.head? = some 47 →
        (∀ place, name.bytes.length < lineSize →
          myGetlogin (lastState (initial [] []) (record (next twoLogins (fun _ => -1))
            (initial [] []) oneEnters)).utmp place (some name) = .null) ∧
        myWho (lastState (initial [] []) (record (next twoLogins (fun _ => -1))
          (initial [] []) oneEnters)).utmp (some name) = none) ∧
      ∀ i r, (lastState (initial [] []) (record (next twoLogins (fun _ => -1))
          (initial [] []) oneEnters)).put i = some r → r.utType = .userProcess →
        (getutxline (lastState (initial [] []) (record (next twoLogins (fun _ => -1))
          (initial [] []) oneEnters)).utmp (twoPts i).bytes).isSome = true := by
  refine lookups_miss twoLogins_terminals (by decide) (by decide) [] []
    (fun r hr => absurd hr List.not_mem_nil) _ (allSteps_record Enabled _ _ _ ?_)
  exact ⟨fun _ => Pc.noConfusion, fun _ => Pc.noConfusion, trivial⟩

/-- The entry is the one that a process makes at its start. -/
def MadeBy (l : Login) (ut : Utmpx) : Prop := ∃ now, loginEntry l now = some ut

/-- What the files hold of a login, by the call it makes next. -/
def Recorded (l : Login) (wtmp : List Utmpx) (put : Option Utmpx) (ut : Utmpx) : Pc → Prop
  | .starting => True
  | .entering | .noting => MadeBy l ut
  | .sleeping | .leaving => MadeBy l ut ∧ ut ∈ wtmp
  | .notingEnd => put = some ut ∧ ∃ login now, MadeBy l login ∧
      ut = logoutEntry login now ∧ login ∈ wtmp
  | .opening | .lookingUp | .seeking | .writing =>
      put = some ut ∧ ∃ login now, MadeBy l login ∧
        ut = logoutEntry login now ∧ [login, ut].Sublist wtmp
  | .ended status => status = 1

/-- The calls behind the second `updwtmpx`. -/
def Pc.behindLogout : Pc → Bool
  | .opening | .lookingUp | .seeking | .writing => true
  | _ => false

theorem recorded_mono (l : Login) (wtmp rest : List Utmpx) (put : Option Utmpx)
    (ut : Utmpx) (pc : Pc) (h : Recorded l wtmp put ut pc) :
    Recorded l (wtmp ++ rest) put ut pc := by
  have hall : ∀ {r : Utmpx}, r ∈ wtmp → r ∈ wtmp ++ rest := List.mem_append_left rest
  cases pc with
  | sleeping => exact ⟨h.1, hall h.2⟩
  | leaving => exact ⟨h.1, hall h.2⟩
  | notingEnd =>
      rcases h with ⟨hput, login, now, hmade, hut, hmem⟩
      exact ⟨hput, login, now, hmade, hut, hall hmem⟩
  | starting => exact h
  | entering => exact h
  | noting => exact h
  | ended status => exact h
  | _ =>
      rcases h with ⟨hput, login, now, hmade, hut, hsub⟩
      exact ⟨hput, login, now, hmade, hut, hsub.trans (List.sublist_append_left wtmp rest)⟩

theorem recorded_leadsTo (l : Login) (wtmp : List Utmpx) (put : Option Utmpx) (ut : Utmpx)
    (p q : Pc) (h : Recorded l wtmp put ut p) (hpq : p.leadsTo q) :
    Recorded l wtmp put ut q := by
  cases q with
  | ended status => cases p <;> exact hpq
  | _ => cases p <;> first | exact hpq.elim | exact h

/-- A login notes its entry. -/
theorem recorded_notes (l : Login) (wtmp : List Utmpx) (put : Option Utmpx) (ut : Utmpx)
    (p q : Pc) (h : Recorded l wtmp put ut p) (hpq : p.notes q) :
    Recorded l (wtmp ++ [ut]) put ut q := by
  cases p with
  | noting =>
      cases q <;> first
        | exact hpq.elim
        | exact ⟨h, List.mem_append_right _ (List.mem_singleton_self ut)⟩
  | notingEnd =>
      rcases h with ⟨hput, login, now, hmade, hut, hmem⟩
      have hsub : [login, ut].Sublist (wtmp ++ [ut]) :=
        (List.singleton_sublist.mpr hmem).append (List.Sublist.refl [ut])
      cases q <;> first
        | exact hpq.elim
        | exact ⟨hput, login, now, hmade, hut, hsub⟩
  | _ => exact hpq.elim

def RecordInv (logins : ι → Login) (s : State ι) : Prop :=
  ∀ i, Recorded (logins i) s.wtmp (s.put i) (s.ut i) (s.pc i)

theorem recorded_step (s : State ι) (e : Event ι) (s' : State ι) (h : RecordInv logins s)
    (hstep : Step logins userIdFromName s e s') : RecordInv logins s' := by
  intro j
  have hj := h j
  rcases step_cases s e s' hstep with ⟨i, pc, hpc, rfl⟩ | ⟨i, pc, hpc, rfl⟩ |
    ⟨i, now, ut, -, hentry, rfl⟩ | ⟨i, hpc, rfl⟩ | ⟨i, now, hpc, rfl⟩
  · show Recorded (logins j) s.wtmp (s.put j) (s.ut j) (Function.update s.pc i pc j)
    by_cases hji : j = i
    · subst hji
      rw [Function.update_self]
      exact recorded_leadsTo _ _ _ _ _ pc hj hpc
    · rw [Function.update_of_ne hji]
      exact hj
  · show Recorded (logins j) (s.wtmp ++ [s.ut i]) (s.put j) (s.ut j)
      (Function.update s.pc i pc j)
    by_cases hji : j = i
    · subst hji
      rw [Function.update_self]
      exact recorded_notes _ _ _ _ _ pc hj hpc
    · rw [Function.update_of_ne hji]
      exact recorded_mono _ _ _ _ _ _ hj
  · show Recorded (logins j) s.wtmp (s.put j) (Function.update s.ut i ut j)
      (Function.update s.pc i .entering j)
    by_cases hji : j = i
    · subst hji
      rw [Function.update_self, Function.update_self]
      exact ⟨now, hentry⟩
    · rw [Function.update_of_ne hji, Function.update_of_ne hji]
      exact hj
  · show Recorded (logins j) s.wtmp (Function.update s.put i (some (s.ut i)) j)
      (Function.update s.ut i (s.ut i) j) (Function.update s.pc i .noting j)
    by_cases hji : j = i
    · subst hji
      rw [hpc] at hj
      rw [Function.update_self, Function.update_self, Function.update_self]
      exact hj
    · rw [Function.update_of_ne hji, Function.update_of_ne hji, Function.update_of_ne hji]
      exact hj
  · show Recorded (logins j) s.wtmp (Function.update s.put i (some (logoutEntry (s.ut i) now)) j)
      (Function.update s.ut i (logoutEntry (s.ut i) now) j) (Function.update s.pc i .notingEnd j)
    by_cases hji : j = i
    · subst hji
      rw [hpc] at hj
      rw [Function.update_self, Function.update_self, Function.update_self]
      exact ⟨rfl, s.ut j, now, hj.1, rfl, hj.2⟩
    · rw [Function.update_of_ne hji, Function.update_of_ne hji, Function.update_of_ne hji]
      exact hj

/-- No login ever exits with success, not even one that has noted its logout,
    which every login has done before it comes to the file of last logins. The
    logins can be at any terminals, also at the same one or at none. -/
theorem logout_recorded (utmp wtmp : List Utmpx) (tr : List (Event ι × State ι))
    (hrun : AllSteps (Step logins userIdFromName) (initial utmp wtmp) tr) (i : ι) :
    (lastState (initial utmp wtmp) tr).pc i ≠ .ended 0 ∧
      (((lastState (initial utmp wtmp) tr).pc i).behindLogout = true →
        (lastState (initial utmp wtmp) tr).put i =
            some ((lastState (initial utmp wtmp) tr).ut i) ∧
          ∃ login now, MadeBy (logins i) login ∧
            (lastState (initial utmp wtmp) tr).ut i = logoutEntry login now ∧
            [login, (lastState (initial utmp wtmp) tr).ut i].Sublist
              (lastState (initial utmp wtmp) tr).wtmp) := by
  have hinv : RecordInv logins (lastState (initial utmp wtmp) tr) :=
    always_last _ tr (always_of_allSteps recorded_step _ tr (fun _ => trivial) hrun)
  have hi := hinv i
  cases hpc : (lastState (initial utmp wtmp) tr).pc i with
  | ended status =>
      rw [hpc] at hi
      refine ⟨fun hc => ?_, fun hc => absurd hc Bool.false_ne_true⟩
      have hone : status = 1 := hi
      rw [hone] at hc
      cases hc
  | opening => rw [hpc] at hi; exact ⟨Pc.noConfusion, fun _ => hi⟩
  | lookingUp => rw [hpc] at hi; exact ⟨Pc.noConfusion, fun _ => hi⟩
  | seeking => rw [hpc] at hi; exact ⟨Pc.noConfusion, fun _ => hi⟩
  | writing => rw [hpc] at hi; exact ⟨Pc.noConfusion, fun _ => hi⟩
  | _ => exact ⟨Pc.noConfusion, fun hc => absurd hc Bool.false_ne_true⟩

/-- Two logins at one terminal. -/
def samePts (i : Bool) : Login where
  user := .empty
  sleepTime := none
  devName := some (inDev (pts 1))
  pid := if i then 100 else 200

/-- Both log in, and one of them logs out. -/
def oneLeaves : List (Event Bool) :=
  List.replicate 3 (.goesOn false 0) ++ List.replicate 6 (.goesOn true 0)

theorem logout_recorded_oneLeaves :
    (lastState (initial [] []) (record (next samePts (fun _ => -1)) (initial [] [])
        oneLeaves)).pc true ≠ .ended 0 ∧
      (((lastState (initial [] []) (record (next samePts (fun _ => -1)) (initial [] [])
          oneLeaves)).pc true).behindLogout = true →
        (lastState (initial [] []) (record (next samePts (fun _ => -1)) (initial [] [])
            oneLeaves)).put true =
            some ((lastState (initial [] []) (record (next samePts (fun _ => -1))
              (initial [] []) oneLeaves)).ut true) ∧
          ∃ login now, MadeBy (samePts true) login ∧
            (lastState (initial [] []) (record (next samePts (fun _ => -1)) (initial [] [])
              oneLeaves)).ut true = logoutEntry login now ∧
            [login, (lastState (initial [] []) (record (next samePts (fun _ => -1))
              (initial [] []) oneLeaves)).ut true].Sublist
              (lastState (initial [] []) (record (next samePts (fun _ => -1)) (initial [] [])
                oneLeaves)).wtmp) := by
  refine logout_recorded [] [] _ (allSteps_record Enabled _ _ _ ?_) true
  exact ⟨fun _ => Pc.noConfusion, fun _ => Pc.noConfusion, fun _ => Pc.noConfusion,
    fun _ => Pc.noConfusion, fun _ => Pc.noConfusion, fun _ => Pc.noConfusion,
    fun _ => Pc.noConfusion, fun _ => Pc.noConfusion, fun _ => Pc.noConfusion, trivial⟩

end UtmpxLogin

end TlpiPractice
