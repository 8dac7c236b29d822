import TlpiPractice.Core.SeqServer

/-!
# Ranges Handed Out Once

Whether two responses can have a number in common.

What has been handed out ends at the number in `server.conf`, except between
the write of a response and the write of the file: the range of that response
begins there. So a crash in between makes the next start hand out the same
range again. It is the one window in which a crash does harm. The other way to
lose the number is to fail to read it.

`Safe` excludes both, and `SeqInv` is the invariant that a safe step keeps.
`Pc.asked` is the length the server is working on, and `Pc.owed` the part of
it that has been handed out and is not in the file yet.

## Main definitions

* `Apart`: Two responses have no number in common.
* `Admissible`: Lengths are positive and the numbers do not run out.
* `Safe`: The steps that lose nothing.
* `SeqInv`: What has been handed out, in terms of the file.
* `crashAfterSave`: A run with a crash that does no harm.
* `crashAfterAnswer`: A run that hands out a number twice.

## Theorems

* `seqInv_respond`, `seqInv_close`, `seqInv_save`: A request is served.
* `seqInv_step`: A safe step keeps the invariant.
* `responses_apart`: In a run of safe steps all responses are apart.
* `crashAfterAnswer_overlap`: They need not be in others.
-/

namespace TlpiPractice

namespace SeqServer

open Ints Runs

/-- Two responses, with the lengths of their requests, have no number in
    common. -/
def Apart (r r' : Int × Int) : Prop := r.1 + r.2 ≤ r'.1 ∨ r'.1 + r'.2 ≤ r.1

instance (r r' : Int × Int) : Decidable (Apart r r') :=
  inferInstanceAs (Decidable (r.1 + r.2 ≤ r'.1 ∨ r'.1 + r'.2 ≤ r.1))

/-- The number in `server.conf`; a new file is empty and means zero. -/
def Server.stored (s : Server) : Int := s.conf.headD 0

/-- Every request asks for something, and the numbers from `base` on do not
    run out. -/
def Admissible (base : Int) (s : Server) : Event → Prop
  | .receive req => 1 ≤ req.seqLen ∧ base + s.total + req.seqLen ≤ intMax
  | _ => True

/-- A response has been written, and the file has not. -/
def Pc.unsaved : Pc → Bool
  | .answered _ sent => sent
  | .advanced _ sent => sent
  | .rewound _ sent => sent
  | _ => false

/-- The server does not go down between a response and the write of the file,
    and the read of the file does not fail when there is a number in it. -/
def Safe (s : Server) : Event → Prop
  | .crash => s.pc.unsaved = false
  | .loadFails => s.stored = 0
  | _ => True

/-- The length the server is working on. -/
def Pc.asked : Pc → Int
  | .received req => req.seqLen
  | .connected req => req.seqLen
  | .answered req _ => req.seqLen
  | .advanced req _ => req.seqLen
  | .rewound req _ => req.seqLen
  | _ => 0

/-- The length handed out and not in the file yet. -/
def Pc.owed (pc : Pc) : Int := if pc.unsaved = true then pc.asked else 0

/-- The counter, in terms of the file. -/
def Counter (s : Server) : Prop :=
  match s.pc with
  | .down => True
  | .opened => s.seqNum = 0
  | .loaded => s.seqNum = s.stored
  | .ready => s.seqNum = s.stored
  | .received _ => s.seqNum = s.stored
  | .connected _ => s.seqNum = s.stored
  | .answered _ _ => s.seqNum = s.stored
  | .advanced req _ => s.seqNum = s.stored + req.seqLen
  | .rewound req _ => s.seqNum = s.stored + req.seqLen ∧ s.offset = 0

/-- The invariant: what has been handed out ends at the number in the file,
    with what is owed. -/
structure SeqInv (base : Int) (s : Server) : Prop where
  low : intMin ≤ s.stored
  high : s.stored + s.pc.asked ≤ base + s.total
  fits : base + s.total ≤ intMax
  asked : 0 ≤ s.pc.asked
  counter : Counter s
  handed : ∀ r ∈ s.responses, r.1 + r.2 ≤ s.stored + s.pc.owed
  apart : s.responses.Pairwise Apart

theorem seqInv_initial (conf : List Int) (h : InRange (conf.headD 0)) :
    SeqInv (conf.headD 0) (initial conf) where
  low := h.1
  high := by simp only [Server.stored, initial, Pc.asked]; omega
  fits := by simp only [initial, Int.add_zero]; exact h.2
  asked := Int.le_refl 0
  counter := trivial
  handed := fun _ hr => absurd hr List.not_mem_nil
  apart := List.Pairwise.nil

theorem owed_le_asked (pc : Pc) (h : 0 ≤ pc.asked) : 0 ≤ pc.owed ∧ pc.owed ≤ pc.asked := by
  rw [Pc.owed]
  split <;> omega

/-- A write at the beginning is what the next read returns. -/
theorem headD_putInt (conf : List Int) (x d : Int) : (putInt conf 0 x).headD d = x := rfl

section Steps

variable (base : Int) (s : Server) (hi : SeqInv base s)
include hi

/-- A request adds its length to what is asked and to the total. -/
theorem seqInv_receive (req : Request) (hpc : s.pc = .ready)
    (hreq : Admissible base s (.receive req)) : SeqInv base (next s (.receive req)) := by
  rcases hi with ⟨hlow, hhigh, hfits, hasked, hcounter, hhanded, hapart⟩
  rw [hpc] at hhigh hhanded
  rw [Counter, hpc] at hcounter
  have hlen := hreq.1
  have hroom := hreq.2
  refine ⟨hlow, ?_, ?_, ?_, hcounter, hhanded, hapart⟩
  · simp only [next, Pc.asked, Server.stored] at hhigh ⊢
    omega
  · simp only [next]
    omega
  · simp only [next, Pc.asked]
    omega

/-- A response begins where everything handed out before ends. -/
theorem seqInv_respond (req : Request) (hpc : s.pc = .connected req) :
    SeqInv base (next s .respond) := by
  rcases hi with ⟨hlow, hhigh, hfits, hasked, hcounter, hhanded, hapart⟩
  rw [hpc] at hhigh hasked hhanded
  rw [Counter, hpc] at hcounter
  simp only [Pc.asked] at hhigh hasked
  -- Nothing is owed before the response.
  simp only [Pc.owed, Pc.unsaved, Bool.false_eq_true, if_false, Int.add_zero] at hhanded
  simp only [next, hpc]
  refine ⟨hlow, hhigh, hfits, hasked, hcounter, fun r hr => ?_, ?_⟩
  · simp only [Pc.owed, Pc.unsaved, if_true, Pc.asked]
    rcases List.mem_append.mp hr with hr | hr
    · have := hhanded r hr
      simp only [Server.stored] at this ⊢
      omega
    · rw [List.mem_singleton.mp hr]
      simp only [hcounter]
      exact Int.le_refl _
  · refine List.pairwise_append.mpr ⟨hapart, List.pairwise_singleton _ _, fun r hr r' hr' => ?_⟩
    rw [List.mem_singleton.mp hr']
    exact Or.inl (hcounter ▸ hhanded r hr)

/-- The counter is advanced by the length asked for. -/
theorem seqInv_close (req : Request) (sent : Bool) (hpc : s.pc = .answered req sent) :
    SeqInv base (next s .close) := by
  rcases hi with ⟨hlow, hhigh, hfits, hasked, hcounter, hhanded, hapart⟩
  rw [hpc] at hhigh hasked hhanded
  rw [Counter, hpc] at hcounter
  simp only [Pc.asked] at hhigh hasked
  simp only [next, hpc]
  refine ⟨hlow, hhigh, hfits, hasked, ?_, hhanded, hapart⟩
  -- The sum is in range, so the machine's addition is the real one.
  have hrange : InRange (s.seqNum + req.seqLen) := by
    rw [InRange, hcounter]
    exact ⟨by omega, by omega⟩
  simp only [Counter]
  rw [wrap_of_inRange _ hrange, hcounter]
  rfl

/-- The write of the file settles what is owed. -/
theorem seqInv_save (req : Request) (sent : Bool) (hpc : s.pc = .rewound req sent) :
    SeqInv base (next s .save) := by
  rcases hi with ⟨hlow, hhigh, hfits, hasked, hcounter, hhanded, hapart⟩
  rw [hpc] at hhigh hasked hhanded
  rw [Counter, hpc] at hcounter
  rcases hcounter with ⟨hseq, hoff⟩
  have howed := owed_le_asked (.rewound req sent) hasked
  simp only [Pc.asked] at hhigh hasked howed
  -- The file now ends where the range asked for ends.
  have hstored : (next s .save).stored = s.stored + req.seqLen := by
    rw [← hseq, Server.stored]
    simp only [next, hoff, headD_putInt]
  refine ⟨?_, ?_, hfits, Int.le_refl 0, ?_, fun r hr => ?_, hapart⟩
  · rw [hstored]
    omega
  · rw [hstored]
    simp only [next, Pc.asked]
    omega
  · simp only [Counter, next, Server.stored, hoff, headD_putInt]
  · have := hhanded r hr
    rw [hstored]
    simp only [next, Pc.owed, Pc.unsaved, Bool.false_eq_true, if_false]
    simp only [Pc.owed] at this howed
    omega

/-- Going down loses nothing when nothing is owed. -/
theorem seqInv_crash (hsaved : s.pc.unsaved = false) : SeqInv base (next s .crash) := by
  rcases hi with ⟨hlow, hhigh, hfits, hasked, hcounter, hhanded, hapart⟩
  refine ⟨hlow, ?_, hfits, Int.le_refl 0, trivial, fun r hr => ?_, hapart⟩
  · simp only [next, Pc.asked, Server.stored] at hhigh hasked ⊢
    omega
  · have := hhanded r hr
    rw [Pc.owed, hsaved] at this
    exact this

end Steps

/-- A safe step keeps the invariant. -/
theorem seqInv_step (base : Int) (s : Server) (e : Event) (s' : Server) (hi : SeqInv base s)
    (hg : Admissible base s e ∧ Safe s e) (hs : Step s e s') : SeqInv base s' := by
  rcases hs with ⟨hen, rfl⟩
  rcases hi with ⟨hlow, hhigh, hfits, hasked, hcounter, hhanded, hapart⟩
  have hi : SeqInv base s := ⟨hlow, hhigh, hfits, hasked, hcounter, hhanded, hapart⟩
  cases e with
  | «open» =>
      have hpc : s.pc = .down := hen
      rw [hpc] at hhigh hhanded
      exact ⟨hlow, hhigh, hfits, Int.le_refl 0, rfl, hhanded, hapart⟩
  | load =>
      have hpc : s.pc = .opened := hen
      rw [hpc] at hhigh hhanded
      rw [Counter, hpc] at hcounter
      refine ⟨hlow, hhigh, hfits, Int.le_refl 0, ?_, hhanded, hapart⟩
      simp only [Counter, next, Server.stored, hcounter]
  | loadFails =>
      -- The counter keeps its zero, which is what the file says.
      have hpc : s.pc = .opened := hen
      rw [hpc] at hhigh hhanded
      rw [Counter, hpc] at hcounter
      refine ⟨hlow, hhigh, hfits, Int.le_refl 0, ?_, hhanded, hapart⟩
      exact hcounter.trans hg.2.symm
  | listen =>
      have hpc : s.pc = .loaded := hen
      rw [hpc] at hhigh hhanded
      rw [Counter, hpc] at hcounter
      exact ⟨hlow, hhigh, hfits, Int.le_refl 0, hcounter, hhanded, hapart⟩
  | receive req => exact seqInv_receive base s hi req hen hg.1
  | discard => exact hi
  | connect =>
      rcases hen with ⟨req, hpc⟩
      rw [hpc] at hhigh hasked hhanded
      rw [Counter, hpc] at hcounter
      simp only [next, hpc]
      exact ⟨hlow, hhigh, hfits, hasked, hcounter, hhanded, hapart⟩
  | connectFails =>
      -- The numbers asked for are not handed out, and the counter stays.
      rcases hen with ⟨req, hpc⟩
      rw [hpc] at hhigh hasked hhanded
      rw [Counter, hpc] at hcounter
      refine ⟨hlow, ?_, hfits, Int.le_refl 0, hcounter, hhanded, hapart⟩
      simp only [next, Pc.asked, Server.stored] at hhigh hasked ⊢
      omega
  | respond =>
      rcases hen with ⟨req, hpc⟩
      exact seqInv_respond base s hi req hpc
  | respondFails =>
      rcases hen with ⟨req, hpc⟩
      rw [hpc] at hhigh hasked hhanded
      rw [Counter, hpc] at hcounter
      simp only [next, hpc]
      exact ⟨hlow, hhigh, hfits, hasked, hcounter, hhanded, hapart⟩
  | close =>
      rcases hen with ⟨req, sent, hpc⟩
      exact seqInv_close base s hi req sent hpc
  | rewind =>
      rcases hen with ⟨req, sent, hpc⟩
      rw [hpc] at hhigh hasked hhanded
      rw [Counter, hpc] at hcounter
      simp only [next, hpc]
      exact ⟨hlow, hhigh, hfits, hasked, ⟨hcounter, rfl⟩, hhanded, hapart⟩
  | save =>
      rcases hen with ⟨req, sent, hpc⟩
      exact seqInv_save base s hi req sent hpc
  | crash => exact seqInv_crash base s hi hg.2

/-- In a run from a file that holds an `int`, with requests that ask for
    something and do not exhaust the numbers, the responses are apart if every
    step is safe. -/
theorem responses_apart (conf : List Int) (hconf : InRange (conf.headD 0))
    (tr : List (Event × Server)) (hrun : AllSteps Step (initial conf) tr)
    (hreq : StepsMeet (Admissible (conf.headD 0)) (initial conf) tr)
    (hsafe : StepsMeet Safe (initial conf) tr) :
    Always (fun s => s.responses.Pairwise Apart) (initial conf) tr :=
  always_mono (fun _ hi => hi.apart) (initial conf) tr
    (always_of_guarded (seqInv_step (conf.headD 0)) (initial conf) tr (seqInv_initial conf hconf)
      hrun (allSteps_and (initial conf) tr hreq hsafe))

/-- Two clients are served, with a crash after the file has been written. -/
def crashAfterSave : List Event :=
  [.open, .load, .listen, .receive ⟨100, 3⟩, .connect, .respond, .close, .rewind, .save, .crash,
    .open, .load, .listen, .receive ⟨101, 1⟩, .connect, .respond]

theorem responses_apart_crashAfterSave :
    Always (fun s => s.responses.Pairwise Apart) (initial [5])
      (record next (initial [5]) crashAfterSave) := by
  refine responses_apart [5] ⟨by decide, by decide⟩ _ (allSteps_record Enabled next _ _ ?_) ?_ ?_
  · exact ⟨rfl, rfl, rfl, rfl, ⟨_, rfl⟩, ⟨_, rfl⟩, ⟨_, _, rfl⟩, ⟨_, _, rfl⟩, ⟨_, _, rfl⟩, nofun,
      rfl, rfl, rfl, rfl, ⟨_, rfl⟩, ⟨_, rfl⟩, trivial⟩
  · exact ⟨trivial, trivial, trivial, ⟨by decide, by decide⟩, trivial, trivial, trivial, trivial,
      trivial, trivial, trivial, trivial, trivial, ⟨by decide, by decide⟩, trivial, trivial,
      trivial⟩
  · exact ⟨trivial, trivial, trivial, trivial, trivial, trivial, trivial, trivial, trivial, rfl,
      trivial, trivial, trivial, trivial, trivial, trivial, trivial⟩

/-- Two clients are served, with a crash after the first response. -/
def crashAfterAnswer : List Event :=
  [.open, .load, .listen, .receive ⟨100, 1⟩, .connect, .respond, .crash,
    .open, .load, .listen, .receive ⟨101, 1⟩, .connect, .respond]

/-- This is a run from an empty file with admissible requests, and both clients
    are given the number zero. -/
theorem crashAfterAnswer_overlap :
    AllSteps Step (initial []) (record next (initial []) crashAfterAnswer) ∧
      StepsMeet (Admissible 0) (initial []) (record next (initial []) crashAfterAnswer) ∧
      ¬ Always (fun s => s.responses.Pairwise Apart) (initial [])
        (record next (initial []) crashAfterAnswer) := by
  refine ⟨allSteps_record Enabled next _ _ ?_, ?_, fun h => ?_⟩
  · exact ⟨rfl, rfl, rfl, rfl, ⟨_, rfl⟩, ⟨_, rfl⟩, nofun, rfl, rfl, rfl, rfl, ⟨_, rfl⟩, ⟨_, rfl⟩,
      trivial⟩
  · exact ⟨trivial, trivial, trivial, ⟨by decide, by decide⟩, trivial, trivial, trivial, trivial,
      trivial, trivial, ⟨by decide, by decide⟩, trivial, trivial, trivial⟩
  · have hlast : [((0 : Int), (1 : Int)), (0, 1)].Pairwise Apart := always_last _ _ h
    exact absurd hlast (by decide)

end SeqServer

end TlpiPractice
