import TlpiPractice.Core.Popen

/-!
# Streams and Their Children

Which child `pclose` waits for.

The stream is found through one node and the process identifier is read from
the one before it. For the first entry that is the dummy head with identifier
zero, and `waitpid` takes whichever child comes first; for any other entry it
is a child that was forked later. So the child awaited is the one of the
stream alone only if there is no other, that is, when the stream is the only
one open.

`Rows` keeps the three lists of the state together: entries, streams with their
children, and children, all in the order of the calls. As long as every
`pclose` has been right they have the same length. What a wrong one leaves
behind is not described, since the run has gone wrong by then.

## Main definitions

* `Row`, `Rows`: A stream, its child and the identifier of that.
* `Right`: What is to be proved of every step.
* `OnlyStream`: The steps that are right.
* `PopenInv`: The invariant.
* `oneAtATime`: A run in which a stream is closed before the next is opened.
* `olderFirst`: A run that waits for the wrong child.

## Theorems

* `search_rows`: What the search finds.
* `right_pclose_iff`: When a `pclose` waits for the child of its stream.
* `popenInv_step`: A right step keeps the invariant.
* `right_iff_onlyStream`: Every step of a run is right exactly when no stream
  is closed while another one is open, nor before there is a list.
-/

namespace TlpiPractice

namespace Popen

open Runs

variable {φ : Type}

/-- An open stream, the identifier of its child, and the child. -/
structure Row (φ : Type) where
  file : φ
  pid : Nat
  id : Nat

/-- The lists of the state, row by row. -/
structure Rows (s : State φ) (rows : List (Row φ)) : Prop where
  entries : s.pHeader.getD [] = rows.map (fun r => ⟨r.file, r.pid⟩)
  opened : s.opened = rows.map (fun r => (r.file, r.id))
  children : s.children.map (fun c => (c.id, c.pid)) = rows.map (fun r => (r.id, r.pid))
  files : (rows.map Row.file).Nodup
  pids : (rows.map Row.pid).Nodup
  ids : (rows.map Row.id).Nodup
  nonzero : ∀ r ∈ rows, r.pid ≠ 0
  forked : ∀ r ∈ rows, r.id < s.forks

structure PopenInv (s : State φ) : Prop where
  alive : s.crashed = false
  rows : ∃ rows, Rows s rows
  /-- A `pclose` that waits is that of the only stream. -/
  waits : ∀ w, s.waiting = some w → ∃ c, s.opened = [(w.file, c)] ∧ w.target = 0

/-- A step that leaves the lists alone leaves the rows. -/
theorem rows_congr (s s' : State φ) (rows : List (Row φ)) (h : Rows s rows)
    (hentries : s'.pHeader.getD [] = s.pHeader.getD []) (hopened : s'.opened = s.opened)
    (hchildren : s'.children = s.children) (hforks : s'.forks = s.forks) : Rows s' rows where
  entries := hentries.trans h.entries
  opened := hopened.trans h.opened
  children := hchildren ▸ h.children
  files := h.files
  pids := h.pids
  ids := h.ids
  nonzero := h.nonzero
  forked := hforks ▸ h.forked

/-- The process identifier in the last of some rows, or the one before them. -/
def lastPid (prev : Nat) : List (Row φ) → Nat
  | [] => prev
  | r :: rows => lastPid r.pid rows

theorem lastPid_mem (b : Row φ) (before : List (Row φ)) (prev : Nat) :
    ∃ r ∈ b :: before, r.pid = lastPid prev (b :: before) := by
  induction before generalizing b prev with
  | nil => exact ⟨b, List.mem_cons_self, rfl⟩
  | cons b' before ih =>
      rcases ih b' b.pid with ⟨r, hr, hpid⟩
      exact ⟨r, List.mem_cons_of_mem b hr, hpid⟩

/-- Every row has its child among the children. -/
theorem child_of_row (s : State φ) (rows : List (Row φ)) (h : Rows s rows) (r : Row φ)
    (hr : r ∈ rows) : ∃ c ∈ s.children, c.id = r.id ∧ c.pid = r.pid := by
  have hmem : (r.id, r.pid) ∈ s.children.map (fun c => (c.id, c.pid)) := by
    rw [h.children]
    exact List.mem_map.mpr ⟨r, hr, rfl⟩
  rcases List.mem_map.mp hmem with ⟨c, hc, heq⟩
  exact ⟨c, hc, congrArg Prod.fst heq, congrArg Prod.snd heq⟩

/-- Every child is in some row. -/
theorem row_of_child (s : State φ) (rows : List (Row φ)) (h : Rows s rows) (c : Child)
    (hc : c ∈ s.children) : ∃ r ∈ rows, r.id = c.id ∧ r.pid = c.pid := by
  have hmem : (c.id, c.pid) ∈ rows.map (fun r => (r.id, r.pid)) := by
    rw [← h.children]
    exact List.mem_map.mpr ⟨c, hc, rfl⟩
  rcases List.mem_map.mp hmem with ⟨r, hr, heq⟩
  exact ⟨r, hr, congrArg Prod.fst heq, congrArg Prod.snd heq⟩

/-- The one row there is when one stream is open. -/
theorem rows_of_opened (s : State φ) (rows : List (Row φ)) (h : Rows s rows) (f : φ) (id : Nat)
    (hone : s.opened = [(f, id)]) : ∃ pid, rows = [⟨f, pid, id⟩] := by
  have hmap := h.opened
  rw [hone] at hmap
  cases rows with
  | nil => cases hmap
  | cons r rows =>
      rcases List.cons.inj hmap with ⟨hr, hrest⟩
      rw [List.map_eq_nil_iff.mp hrest.symm]
      have hfile : r.file = f := (congrArg Prod.fst hr).symm
      have hid : r.id = id := (congrArg Prod.snd hr).symm
      refine ⟨r.pid, ?_⟩
      rw [← hfile, ← hid]

variable [DecidableEq φ]

/-- The child forked for a stream that is open. -/
def childOf (f : φ) : List (φ × Nat) → Option Nat
  | [] => none
  | o :: l => if o.1 = f then some o.2 else childOf f l

/-- A `pclose` of an open stream waits for exactly the child that was forked
    for it, and a `pclose` of any other stream returns -1 and changes nothing.
    A child that is returned is that of the stream; its status is returned,
    and of the list the entry of the stream is removed and nothing else. -/
def Right (s : State φ) (e : Event φ) (s' : State φ) : Prop :=
  match e with
  | .pclose f =>
      match childOf f s.opened with
      | some id =>
          ∃ w, s' = { s with waiting := some w } ∧ w.file = f ∧ (∃ c ∈ s.children, c.id = id) ∧
            ∀ c ∈ s.children, Awaits w c ↔ c.id = id
      | none => s' = { s with returned := some (-1) }
  | .collect c =>
      ∃ w, s.waiting = some w ∧ childOf w.file s.opened = some c.id ∧ s'.returned = c.status ∧
        s'.pHeader = s.pHeader.map (fun es => es.filter (fun e => decide (e.file ≠ w.file))) ∧
        s'.children = s.children.filter (fun d => decide (d.id ≠ c.id))
  | .waitFails => False
  | _ => True

/-- A stream that is open is closed only while it is the only one, and no
    other is closed before the list has been made. -/
def OnlyStream (s : State φ) : Event φ → Prop
  | .pclose f =>
      match childOf f s.opened with
      | some id => s.opened = [(f, id)]
      | none => s.pHeader ≠ none
  | _ => True

theorem search_none (f : φ) (rows : List (Row φ)) (prev : Nat) (h : f ∉ rows.map Row.file) :
    search prev f (rows.map (fun r => ⟨r.file, r.pid⟩)) = none := by
  induction rows generalizing prev with
  | nil => rfl
  | cons r rows ih =>
      rw [List.map_cons, List.mem_cons, not_or] at h
      rw [List.map_cons, search, if_neg (Ne.symm h.1), ih r.pid h.2]

/-- The search finds the row and returns the identifier before it. -/
theorem search_rows (before after : List (Row φ)) (r : Row φ) (prev : Nat)
    (h : r.file ∉ before.map Row.file) :
    search prev r.file ((before ++ r :: after).map (fun r => ⟨r.file, r.pid⟩)) =
      some (lastPid prev before) := by
  induction before generalizing prev with
  | nil =>
      rw [List.nil_append, List.map_cons, search, if_pos rfl]
      rfl
  | cons b before ih =>
      rw [List.map_cons, List.mem_cons, not_or] at h
      rw [List.cons_append, List.map_cons, search, if_neg (Ne.symm h.1), ih b.pid h.2]
      rfl

theorem childOf_none (f : φ) (rows : List (Row φ)) (h : f ∉ rows.map Row.file) :
    childOf f (rows.map (fun r => (r.file, r.id))) = none := by
  induction rows with
  | nil => rfl
  | cons r rows ih =>
      rw [List.map_cons, List.mem_cons, not_or] at h
      rw [List.map_cons, childOf, if_neg (Ne.symm h.1), ih h.2]

theorem childOf_rows (before after : List (Row φ)) (r : Row φ)
    (h : r.file ∉ before.map Row.file) :
    childOf r.file ((before ++ r :: after).map (fun r => (r.file, r.id))) = some r.id := by
  induction before with
  | nil => rw [List.nil_append, List.map_cons, childOf, if_pos rfl]
  | cons b before ih =>
      rw [List.map_cons, List.mem_cons, not_or] at h
      rw [List.cons_append, List.map_cons, childOf, if_neg (Ne.symm h.1), ih h.2]

omit [DecidableEq φ] in
/-- The child of the stream is awaited, and no other, exactly when there is no
    other stream. -/
theorem awaits_iff (s : State φ) (before after : List (Row φ)) (r : Row φ)
    (h : Rows s (before ++ r :: after)) :
    ((∃ c ∈ s.children, c.id = r.id) ∧
      ∀ c ∈ s.children, Awaits ⟨r.file, lastPid 0 before⟩ c ↔ c.id = r.id) ↔
      before = [] ∧ after = [] := by
  have hr : r ∈ before ++ r :: after := List.mem_append_right _ List.mem_cons_self
  constructor
  · intro hcase
    rcases hcase with ⟨_, hawaits⟩
    have hbefore : before = [] := by
      cases before with
      | nil => rfl
      | cons b before =>
          -- The process awaited is that of an earlier row.
          rcases lastPid_mem b before 0 with ⟨b', hb', hpid⟩
          rcases child_of_row s _ h r hr with ⟨c, hc, hid, hcpid⟩
          have hnonzero := h.nonzero b' (List.mem_append_left _ hb')
          have hpids := h.pids
          rw [List.map_append, List.nodup_append] at hpids
          have hne := hpids.2.2 b'.pid (List.mem_map_of_mem hb') r.pid
            (List.mem_map_of_mem List.mem_cons_self)
          rcases (hawaits c hc).mpr hid with htarget | htarget
          · exact absurd (hpid.trans htarget) hnonzero
          · exact absurd (hpid.trans (htarget.symm.trans hcpid)) hne
    subst hbefore
    refine ⟨rfl, ?_⟩
    cases after with
    | nil => rfl
    | cons a after =>
        -- Any process is awaited, that of a later row as well.
        rcases child_of_row s _ h a (List.mem_cons_of_mem r List.mem_cons_self) with
          ⟨c, hc, hid, _⟩
        have hsame := (hawaits c hc).mp (.inl rfl)
        have hids := h.ids
        rw [List.nil_append, List.map_cons, List.nodup_cons] at hids
        exact absurd (List.mem_cons.mpr (.inl (hsame.symm.trans hid))) hids.1
  · intro hcase
    rcases hcase with ⟨rfl, rfl⟩
    rcases child_of_row s _ h r hr with ⟨c, hc, hid, _⟩
    refine ⟨⟨c, hc, hid⟩, fun d hd => ⟨fun _ => ?_, fun _ => .inl rfl⟩⟩
    -- Every child has a row, and there is one row.
    rcases row_of_child s _ h d hd with ⟨r', hr', hid', _⟩
    rw [List.nil_append, List.mem_singleton] at hr'
    rw [← hid', hr']

/-- What a `pclose` does to a stream that is not open. -/
theorem right_pclose_none_iff (s : State φ) (rows : List (Row φ)) (h : Rows s rows)
    (halive : s.crashed = false) (f : φ) (hf : f ∉ rows.map Row.file) :
    Right s (.pclose f) (next s (.pclose f)) ↔ OnlyStream s (.pclose f) := by
  have hchild : childOf f s.opened = none := by
    rw [h.opened, childOf_none f rows hf]
  simp only [Right, OnlyStream, hchild, next]
  cases hhead : s.pHeader with
  | none =>
      refine ⟨fun heq => ?_, fun hne => absurd rfl hne⟩
      have hcrash : true = s.crashed := congrArg State.crashed heq
      rw [halive] at hcrash
      cases hcrash
  | some es =>
      have hes := h.entries
      rw [hhead, Option.getD_some] at hes
      simp only [hes, search_none f rows 0 hf]
      exact ⟨fun _ => Option.some_ne_none _, fun _ => trivial⟩

/-- What a `pclose` does to a stream that is open. -/
theorem next_pclose_open (s : State φ) (before after : List (Row φ)) (r : Row φ)
    (h : Rows s (before ++ r :: after)) (hr : r.file ∉ before.map Row.file) :
    next s (.pclose r.file) = { s with waiting := some ⟨r.file, lastPid 0 before⟩ } := by
  have hes := h.entries
  cases hhead : s.pHeader with
  | none =>
      rw [hhead, Option.getD_none] at hes
      exact absurd hes.symm (List.map_eq_nil_iff.not.mpr (List.append_ne_nil_of_right_ne_nil _
        (List.cons_ne_nil r after)))
  | some es =>
      rw [hhead, Option.getD_some] at hes
      simp only [next, hhead, hes, search_rows before after r 0 hr]

theorem right_pclose_iff (s : State φ) (rows : List (Row φ)) (h : Rows s rows)
    (halive : s.crashed = false) (f : φ) :
    Right s (.pclose f) (next s (.pclose f)) ↔ OnlyStream s (.pclose f) := by
  by_cases hf : f ∈ rows.map Row.file
  · -- Cut the rows at the first one with the stream.
    rcases List.mem_map.mp hf with ⟨r, hr, rfl⟩
    rcases List.append_of_mem hr with ⟨before, after, rfl⟩
    have hfiles := h.files
    rw [List.map_append, List.nodup_append] at hfiles
    have hbefore : r.file ∉ before.map Row.file := fun hc =>
      hfiles.2.2 r.file hc r.file (List.mem_map_of_mem List.mem_cons_self) rfl
    have hchild : childOf r.file s.opened = some r.id := by
      rw [h.opened, childOf_rows before after r hbefore]
    rw [next_pclose_open s before after r h hbefore]
    simp only [Right, OnlyStream, hchild]
    have hopened : s.opened = [(r.file, r.id)] ↔ before = [] ∧ after = [] := by
      rw [h.opened]
      constructor
      · intro hone
        have hlen := congrArg List.length hone
        rw [List.length_map, List.length_append, List.length_cons, List.length_singleton] at hlen
        exact ⟨List.length_eq_zero_iff.mp (by omega), List.length_eq_zero_iff.mp (by omega)⟩
      · intro hcase
        rcases hcase with ⟨rfl, rfl⟩
        rfl
    rw [hopened, ← awaits_iff s before after r h]
    constructor
    · intro hcase
      rcases hcase with ⟨w, hw, _, hsome, hall⟩
      have hwait := Option.some.inj (congrArg State.waiting hw)
      subst hwait
      exact ⟨hsome, hall⟩
    · intro hcase
      rcases hcase with ⟨hsome, hall⟩
      exact ⟨_, rfl, rfl, hsome, hall⟩
  · exact right_pclose_none_iff s rows h halive f hf

omit [DecidableEq φ] in
/-- In a state reached so far a `waitpid` has the child of the only stream to
    wait for, and this is the child it returns. -/
theorem waits_child (s : State φ) (h : PopenInv s) (w : Wait φ) (hw : s.waiting = some w) :
    ∃ pid id, Rows s [⟨w.file, pid, id⟩] ∧ w.target = 0 ∧ (∃ c ∈ s.children, c.id = id) ∧
      ∀ c ∈ s.children, c.id = id := by
  rcases h.waits w hw with ⟨id, hone, htarget⟩
  rcases h.rows with ⟨rows, hrows⟩
  rcases rows_of_opened s rows hrows w.file id hone with ⟨pid, rfl⟩
  refine ⟨pid, id, hrows, htarget, ?_, fun c hc => ?_⟩
  · rcases child_of_row s _ hrows _ List.mem_cons_self with ⟨c, hc, hid, _⟩
    exact ⟨c, hc, hid⟩
  · rcases row_of_child s _ hrows c hc with ⟨r, hr, hid, _⟩
    rw [List.mem_singleton] at hr
    rw [← hid, hr]

theorem rows_popen (s : State φ) (rows : List (Row φ)) (h : Rows s rows) (f : φ) (pid : Nat)
    (hpid : pid ≠ 0) (hfresh : ∀ c ∈ s.children, c.pid ≠ pid) (hfile : ∀ o ∈ s.opened, o.1 ≠ f) :
    Rows (next s (.popen f pid)) (⟨f, pid, s.forks⟩ :: rows) := by
  refine ⟨?_, ?_, ?_, ?_, ?_, ?_, fun r hr => ?_, fun r hr => ?_⟩
  · show ⟨f, pid⟩ :: s.pHeader.getD [] = _
    rw [h.entries]
    rfl
  · show (f, s.forks) :: s.opened = _
    rw [h.opened]
    rfl
  · show (s.forks, pid) :: s.children.map (fun c => (c.id, c.pid)) = _
    rw [h.children]
    rfl
  · refine List.nodup_cons.mpr ⟨fun hmem => ?_, h.files⟩
    rcases List.mem_map.mp hmem with ⟨r, hr, hrf⟩
    have hopened : (r.file, r.id) ∈ s.opened := by
      rw [h.opened]
      exact List.mem_map.mpr ⟨r, hr, rfl⟩
    exact hfile _ hopened hrf
  · refine List.nodup_cons.mpr ⟨fun hmem => ?_, h.pids⟩
    rcases List.mem_map.mp hmem with ⟨r, hr, hrp⟩
    rcases child_of_row s rows h r hr with ⟨c, hc, _, hcp⟩
    exact hfresh c hc (hcp.trans hrp)
  · refine List.nodup_cons.mpr ⟨fun hmem => ?_, h.ids⟩
    rcases List.mem_map.mp hmem with ⟨r, hr, hri⟩
    have hless := h.forked r hr
    simp only at hri
    omega
  · rcases List.mem_cons.mp hr with rfl | hr
    · exact hpid
    · exact h.nonzero r hr
  · show r.id < s.forks + 1
    rcases List.mem_cons.mp hr with rfl | hr
    · exact Nat.lt_succ_self _
    · exact Nat.lt_succ_of_lt (h.forked r hr)

/-- A child that ends stays in the list. -/
theorem rows_exit (s : State φ) (rows : List (Row φ)) (h : Rows s rows) (id : Nat)
    (status : Int) : Rows (next s (.exit id status)) rows := by
  refine ⟨h.entries, h.opened, ?_, h.files, h.pids, h.ids, h.nonzero, h.forked⟩
  rw [← h.children]
  simp only [next, List.map_map]
  refine List.map_congr_left (fun c _ => ?_)
  simp only [Function.comp]
  split <;> rfl

/-- The only stream is closed, and nothing is left. -/
theorem collect_only (s : State φ) (c : Child) (w : Wait φ) (hw : s.waiting = some w) (pid : Nat)
    (h : Rows s [⟨w.file, pid, c.id⟩]) (hall : ∀ d ∈ s.children, d.id = c.id) :
    Rows (next s (.collect c)) [] ∧ unlink s w.file =
      s.pHeader.map (fun es => es.filter (fun e => decide (e.file ≠ w.file))) := by
  have hgone : s.children.filter (fun d => decide (d.id ≠ c.id)) = [] := by
    refine List.filter_eq_nil_iff.mpr (fun d hd => ?_)
    rw [decide_eq_true_eq, not_not]
    exact hall d hd
  have hclose : close s.opened w.file = [] := by
    unfold close
    rw [h.opened]
    refine List.filter_eq_nil_iff.mpr (fun o ho => ?_)
    rw [List.map_singleton, List.mem_singleton] at ho
    rw [ho, decide_eq_true_eq, not_not]
  have hunlink : ∀ es, s.pHeader = some es → es = [⟨w.file, pid⟩] := by
    intro es hes
    have hentries := h.entries
    rw [hes, Option.getD_some] at hentries
    exact hentries
  have heraseP :
      ([⟨w.file, pid⟩] : List (Entry φ)).eraseP (fun e => decide (e.file = w.file)) = [] :=
    List.eraseP_cons_of_pos (decide_eq_true rfl)
  have hfilter :
      ([⟨w.file, pid⟩] : List (Entry φ)).filter (fun e => decide (e.file ≠ w.file)) = [] :=
    List.filter_cons_of_neg (by rw [decide_eq_true_eq, not_not])
  constructor
  · simp only [next, hw, hgone, hclose]
    refine ⟨?_, rfl, rfl, List.nodup_nil, List.nodup_nil, List.nodup_nil, fun r hr => ?_,
      fun r hr => ?_⟩
    · unfold unlink
      cases hhead : s.pHeader with
      | none => rfl
      | some es =>
          rw [hunlink es hhead, Option.map_some, heraseP]
          rfl
    · exact absurd hr List.not_mem_nil
    · exact absurd hr List.not_mem_nil
  · unfold unlink
    cases hhead : s.pHeader with
    | none => rfl
    | some es => rw [hunlink es hhead, Option.map_some, Option.map_some, heraseP, hfilter]

omit [DecidableEq φ] in
/-- With the only stream waited for there is always a child to wait for. -/
theorem not_waitFails (s : State φ) (h : PopenInv s) : ¬ Enabled s .waitFails := by
  intro hcase
  rcases hcase with ⟨w, hw, hnone⟩
  rcases waits_child s h w hw with ⟨pid, id, _, htarget, ⟨c, hc, _⟩, _⟩
  exact hnone c hc (.inl htarget)

theorem popenInv_step (s : State φ) (e : Event φ) (s' : State φ) (h : PopenInv s)
    (honly : OnlyStream s e) (hstep : Step s e s') : PopenInv s' := by
  rcases hstep with ⟨hen, rfl⟩
  rcases h.rows with ⟨rows, hrows⟩
  cases e with
  | popen f pid =>
      rcases hen with ⟨_, hidle, hpid, hfresh, hfile⟩
      refine ⟨h.alive, ⟨_, rows_popen s rows hrows f pid hpid hfresh hfile⟩, fun w hw => ?_⟩
      have hnone : s.waiting = some w := hw
      rw [hidle] at hnone
      cases hnone
  | popenInvalid =>
      exact ⟨h.alive, ⟨rows, rows_congr s _ rows hrows rfl rfl rfl rfl⟩, h.waits⟩
  | pclose f =>
      -- A close of what is not open changes nothing but the result.
      have hright := (right_pclose_iff s rows hrows h.alive f).mpr honly
      unfold Right at hright
      unfold OnlyStream at honly
      simp only at hright honly
      cases hchild : childOf f s.opened with
      | none =>
          simp only [hchild] at hright
          rw [hright]
          exact ⟨h.alive, ⟨rows, rows_congr s _ rows hrows rfl rfl rfl rfl⟩, h.waits⟩
      | some id =>
          simp only [hchild] at honly
          rcases rows_of_opened s rows hrows f id honly with ⟨pid, rfl⟩
          rw [next_pclose_open s [] [] ⟨f, pid, id⟩ hrows List.not_mem_nil]
          refine ⟨h.alive, ⟨[⟨f, pid, id⟩], rows_congr s _ _ hrows rfl rfl rfl rfl⟩,
            fun w hw => ?_⟩
          cases hw
          exact ⟨id, honly, rfl⟩
  | collect c =>
      rcases hen with ⟨w, hw, hc, _, _⟩
      rcases waits_child s h w hw with ⟨pid, id, hone, _, _, hall⟩
      -- The child that is collected is that of the stream.
      have hid : c.id = id := hall c hc
      subst hid
      refine ⟨?_, ⟨[], (collect_only s c w hw pid hone hall).1⟩, fun w' hw' => ?_⟩
      · simp only [next, hw]
        exact h.alive
      · simp only [next, hw] at hw'
        cases hw'
  | waitFails => exact absurd hen (not_waitFails s h)
  | exit id status => exact ⟨h.alive, ⟨rows, rows_exit s rows hrows id status⟩, h.waits⟩

theorem right_step_iff (s : State φ) (e : Event φ) (s' : State φ) (h : PopenInv s)
    (hstep : Step s e s') : Right s e s' ↔ OnlyStream s e := by
  rcases hstep with ⟨hen, rfl⟩
  rcases h.rows with ⟨rows, hrows⟩
  cases e with
  | pclose f => exact right_pclose_iff s rows hrows h.alive f
  | collect c =>
      refine ⟨fun _ => trivial, fun _ => ?_⟩
      rcases hen with ⟨w, hw, hc, _, _⟩
      rcases waits_child s h w hw with ⟨pid, id, hone, _, _, hall⟩
      have hid : c.id = id := hall c hc
      subst hid
      refine ⟨w, hw, ?_, ?_, ?_, ?_⟩
      · rw [hone.opened, List.map_singleton, childOf, if_pos rfl]
      · simp only [next, hw]
      · simp only [next, hw]
        exact (collect_only s c w hw pid hone hall).2
      · simp only [next, hw]
  | waitFails => exact absurd hen (not_waitFails s h)
  | popen f pid => exact ⟨fun _ => trivial, fun _ => trivial⟩
  | popenInvalid => exact ⟨fun _ => trivial, fun _ => trivial⟩
  | exit id status => exact ⟨fun _ => trivial, fun _ => trivial⟩

omit [DecidableEq φ] in
theorem popenInv_initial : PopenInv (initial : State φ) := by
  refine ⟨rfl, ⟨[], rfl, rfl, rfl, List.nodup_nil, List.nodup_nil, List.nodup_nil,
    fun r hr => ?_, fun r hr => ?_⟩, fun w hw => ?_⟩
  · exact absurd hr List.not_mem_nil
  · exact absurd hr List.not_mem_nil
  · cases hw

/-- Every step of a run is right exactly when every `pclose` of an open stream
    is made while no other stream is open, and no `pclose` of another stream
    before the first `popen`. -/
theorem right_iff_onlyStream (tr : List (Event φ × State φ)) (hrun : AllSteps Step initial tr) :
    AllSteps Right initial tr ↔ StepsMeet OnlyStream initial tr :=
  allSteps_iff_stepsMeet popenInv_step right_step_iff initial tr popenInv_initial hrun

/-- A stream is opened and closed, and then another, and the first one is
    closed once more. -/
def oneAtATime : List (Event Nat) :=
  [.popen 1 100, .exit 0 7, .pclose 1, .collect ⟨0, 100, some 7⟩, .popen 2 101, .pclose 1,
    .pclose 2, .exit 1 0, .collect ⟨1, 101, some 0⟩]

theorem right_iff_onlyStream_oneAtATime :
    AllSteps Right initial (record next initial oneAtATime) ↔
      StepsMeet OnlyStream initial (record next initial oneAtATime) := by
  refine right_iff_onlyStream _ (allSteps_record Enabled next _ _ ?_)
  exact ⟨⟨rfl, rfl, by decide, by decide, by decide⟩,
    ⟨⟨0, 100, none⟩, List.mem_cons_self, rfl, rfl⟩, ⟨rfl, rfl⟩,
    ⟨⟨1, 0⟩, rfl, List.mem_cons_self, by decide, .inl rfl⟩,
    ⟨rfl, rfl, by decide, by decide, by decide⟩, ⟨rfl, rfl⟩, ⟨rfl, rfl⟩,
    ⟨⟨1, 101, none⟩, List.mem_cons_self, rfl, rfl⟩,
    ⟨⟨2, 0⟩, rfl, List.mem_cons_self, by decide, .inl rfl⟩, trivial⟩

/-- Two streams are opened, and the older one is closed first. -/
def olderFirst : List (Event Nat) := [.popen 1 100, .popen 2 101, .pclose 1]

/-- The `pclose` waits for the child of the newer stream. -/
theorem olderFirst_wrong :
    ¬ ∀ tr : List (Event Nat × State Nat), AllSteps Step initial tr →
      AllSteps Right initial tr := by
  intro hall
  have h := hall (record next initial olderFirst) (allSteps_record Enabled next _ _
    ⟨⟨rfl, rfl, by decide, by decide, by decide⟩, ⟨rfl, rfl, by decide, by decide, by decide⟩,
      ⟨rfl, rfl⟩, trivial⟩)
  rcases h.2.2.1 with ⟨w, hw, _, _, hawaits⟩
  have hwait : some ⟨1, 101⟩ = some w := congrArg State.waiting hw
  cases hwait
  have hid : (1 : Nat) = 0 := (hawaits ⟨1, 101, none⟩ List.mem_cons_self).mp (.inr rfl)
  omega

end Popen

end TlpiPractice
