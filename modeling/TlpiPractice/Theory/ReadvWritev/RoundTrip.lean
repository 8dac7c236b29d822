import TlpiPractice.Core.ReadvWritev

/-!
# Gather, Then Scatter

That `my_writev` writes the buffers one behind the other, that `my_readv`
fills them in the same order, and that the two fit together however the
buffers are cut.

Each loop carries an index, and what it has done is described by the index
alone: the first `cnt` bytes of the one buffer are the callers' buffers so far,
the first `ind` bytes of the other have been handed out. All lengths are below
2^31, so no conversion changes an index.

The buffers of `my_readv` must not overlap, since a later one would otherwise
be written over an earlier one. What the loop stores lies inside the buffers
it has still to fill, so those it has passed stay as they are.

## Main definitions

* `totalLen`: The length of all buffers together.
* `gathered`: Their contents, one behind the other.
* `Apart`: No two of them have a byte in common.
* `threePieces`, `otherPieces`: The same number of bytes, cut in two ways.

## Theorems

* `load_gather`: What `my_writev` has collected.
* `scatter_outside`: `my_readv` stores into its buffers only.
* `gathered_scatter`: What is in the buffers afterwards.
* `gather_scatter`: What both functions do, and that they fit together.
-/

namespace TlpiPractice

namespace ReadvWritev

open Ints Memory

/-- The length of all buffers together. -/
def totalLen : List Iovec → Nat
  | [] => 0
  | v :: iov => v.iovLen + totalLen iov

/-- The contents of all buffers, one behind the other. -/
def gathered (mem : Nat → UInt8) : List Iovec → List UInt8
  | [] => []
  | v :: iov => load mem v.iovBase v.iovLen ++ gathered mem iov

/-- The address lies in the buffer. -/
def Iovec.Covers (v : Iovec) (x : Nat) : Prop := v.iovBase ≤ x ∧ x < v.iovBase + v.iovLen

/-- No two buffers have a byte in common. -/
def Apart (iov : List Iovec) : Prop := iov.Pairwise (fun v w => ∀ x, v.Covers x → ¬ w.Covers x)

theorem length_gathered (mem : Nat → UInt8) (iov : List Iovec) :
    (gathered mem iov).length = totalLen iov := by
  induction iov with
  | nil => rfl
  | cons v iov ih =>
      unfold gathered totalLen
      rw [List.length_append, length_load, ih]

theorem gathered_congr (mem mem' : Nat → UInt8) (iov : List Iovec)
    (h : ∀ v ∈ iov, ∀ x, v.Covers x → mem' x = mem x) : gathered mem' iov = gathered mem iov := by
  induction iov with
  | nil => rfl
  | cons v iov ih =>
      unfold gathered
      rw [ih (fun w hw => h w (List.mem_cons_of_mem v hw)),
        load_congr mem mem' _ _ (fun x hx hxn => h v List.mem_cons_self x ⟨hx, hxn⟩)]

theorem totalSpace_eq (iov : List Iovec) (total : Int) (h : 0 ≤ total)
    (hsmall : total + totalLen iov < 9223372036854775808) :
    totalSpace iov total = total + totalLen iov := by
  induction iov generalizing total with
  | nil =>
      unfold totalSpace totalLen
      omega
  | cons v iov ih =>
      unfold totalLen at hsmall
      unfold totalSpace totalLen
      rw [wrapLong_of_nonneg _ (by omega) (by omega), ih _ (by omega) (by omega)]
      omega

/-- After the loop of `my_writev`, its buffer holds what it held up to `cnt`
    and the callers' buffers behind it. -/
theorem load_gather (mem : Nat → UInt8) (iov : List Iovec) (cnt : Nat) (buffer : Nat → UInt8)
    (hsmall : (cnt : Int) + totalLen iov ≤ intMax) :
    load (gather mem iov cnt buffer) 0 (cnt + totalLen iov) =
      load buffer 0 cnt ++ gathered mem iov := by
  induction iov generalizing cnt buffer with
  | nil =>
      unfold gather totalLen gathered
      rw [List.append_nil]
      rfl
  | cons v iov ih =>
      unfold totalLen at hsmall
      have hcnt : wrap ((cnt : Int) + v.iovLen) = ((cnt + v.iovLen : Nat) : Int) := by
        rw [wrap_of_nonneg _ (by omega) (by omega)]
        omega
      -- One round puts its buffer right behind what has been collected.
      have hround : load (store buffer cnt (load mem v.iovBase v.iovLen)) 0 (cnt + v.iovLen) =
          load buffer 0 cnt ++ load mem v.iovBase v.iovLen := by
        have hbehind := load_store_behind buffer 0 cnt (load mem v.iovBase v.iovLen)
        rwa [Nat.zero_add, length_load] at hbehind
      unfold gather totalLen gathered
      rw [hcnt, ← Nat.add_assoc, ih (cnt + v.iovLen) _ (by omega)]
      simp only [Int.toNat_natCast]
      rw [hround, List.append_assoc]

/-- A buffer gets what is left to hand out, but no more than its length. -/
theorem chunk_eq (total ind : Nat) (v : Iovec) (hind : ind < total)
    (htotal : (total : Int) ≤ intMax) : chunk total ind v = (min v.iovLen (total - ind) : Nat) := by
  have hint := htotal
  unfold intMax at htotal
  have hleft : wrapLong ((total : Int) - ind) = ((total - ind : Nat) : Int) := by
    rw [wrapLong_of_nonneg _ (by omega) (by omega)]
    omega
  unfold chunk
  rw [hleft, toSize_of_nonneg _ (by omega) (by omega), Int.toNat_natCast]
  by_cases hlen : v.iovLen < total - ind
  · rw [if_pos hlen, wrap_of_nonneg _ (by omega) (by omega), Nat.min_eq_left (by omega)]
  · rw [if_neg hlen, wrap_of_nonneg _ (by omega) (by omega), Nat.min_eq_right (by omega)]

/-- One round of the loop of `my_readv`. -/
theorem scatter_cons (buffer : Nat → UInt8) (total ind : Nat) (v : Iovec) (iov : List Iovec)
    (mem : Nat → UInt8) (hind : ind < total) (htotal : (total : Int) ≤ intMax) :
    scatter buffer total (v :: iov) ind mem =
      scatter buffer total iov ((ind + min v.iovLen (total - ind) : Nat) : Int)
        (store mem v.iovBase (load buffer ind (min v.iovLen (total - ind)))) := by
  have hint := htotal
  unfold intMax at hint
  have hnext : wrap ((ind : Int) + (min v.iovLen (total - ind) : Nat)) =
      ((ind + min v.iovLen (total - ind) : Nat) : Int) := by
    rw [wrap_of_nonneg _ (by omega) (by omega)]
    omega
  rw [scatter, if_pos (by omega), chunk_eq total ind v hind htotal, hnext,
    toSize_of_nonneg _ (by omega) (by omega), Int.toNat_natCast, Int.toNat_natCast]

/-- With nothing left to hand out the loop ends. -/
theorem scatter_end (buffer : Nat → UInt8) (total ind : Nat) (iov : List Iovec)
    (mem : Nat → UInt8) (hind : total ≤ ind) : scatter buffer total iov ind mem = mem := by
  cases iov with
  | nil => rfl
  | cons v iov => rw [scatter, if_neg (by omega)]

theorem scatter_outside (buffer : Nat → UInt8) (total : Nat) (iov : List Iovec) (ind : Nat)
    (mem : Nat → UInt8) (htotal : (total : Int) ≤ intMax) (x : Nat)
    (hx : ∀ v ∈ iov, ¬ v.Covers x) : scatter buffer total iov ind mem x = mem x := by
  induction iov generalizing ind mem with
  | nil => rfl
  | cons v iov ih =>
      by_cases hind : ind < total
      · have hv := hx v List.mem_cons_self
        unfold Iovec.Covers at hv
        rw [scatter_cons buffer total ind v iov mem hind htotal,
          ih _ _ (fun w hw => hx w (List.mem_cons_of_mem v hw)),
          store_of_outside _ _ _ _ (by rw [length_load]; omega)]
      · rw [scatter_end buffer total ind _ mem (by omega)]

/-- After the loop of `my_readv` the buffers hold what it had still to hand
    out, and behind that what they held before. -/
theorem gathered_scatter (buffer : Nat → UInt8) (total : Nat) (iov : List Iovec) (ind : Nat)
    (mem : Nat → UInt8) (hapart : Apart iov) (htotal : (total : Int) ≤ intMax)
    (hind : ind ≤ total) (hfits : total - ind ≤ totalLen iov) :
    gathered (scatter buffer total iov ind mem) iov =
      load buffer ind (total - ind) ++ (gathered mem iov).drop (total - ind) := by
  induction iov generalizing ind mem with
  | nil =>
      unfold totalLen at hfits
      have hdone : total - ind = 0 := by omega
      rw [hdone]
      rfl
  | cons v iov ih =>
      by_cases hmore : ind < total
      · rcases List.pairwise_cons.mp hapart with ⟨hv, hrest⟩
        have hlen := length_load buffer ind (min v.iovLen (total - ind))
        -- The later buffers are not touched by what goes into this one, nor
        -- this one by what goes into them.
        have hlater : gathered (store mem v.iovBase
            (load buffer ind (min v.iovLen (total - ind)))) iov = gathered mem iov := by
          refine gathered_congr _ _ _ (fun w hw x hx => store_of_outside _ _ _ _ ?_)
          intro hc
          exact hv w hw x ⟨hc.1, by omega⟩ hx
        have hthis : load (scatter buffer total (v :: iov) ind mem) v.iovBase v.iovLen =
            load buffer ind (min v.iovLen (total - ind)) ++
              (load mem v.iovBase v.iovLen).drop (min v.iovLen (total - ind)) := by
          rw [scatter_cons buffer total ind v iov mem hmore htotal,
            load_congr _ _ _ _ (fun x hx hxn => scatter_outside buffer total iov _ _ htotal x
              (fun w hw hc => hv w hw x ⟨hx, hxn⟩ hc)),
            load_store _ _ _ _ (by omega), hlen]
        unfold totalLen at hfits
        unfold gathered
        rw [hthis, scatter_cons buffer total ind v iov mem hmore htotal,
          ih _ _ hrest (by omega) (by omega), hlater]
        by_cases hfull : v.iovLen ≤ total - ind
        · -- The buffer is filled, and the rest goes on behind it.
          have hnone : (load mem v.iovBase v.iovLen).drop v.iovLen = [] :=
            List.drop_of_length_le (by rw [length_load])
          have hkept : (load mem v.iovBase v.iovLen ++ gathered mem iov).drop (total - ind) =
              (gathered mem iov).drop (total - (ind + v.iovLen)) := by
            rw [List.drop_append, List.drop_of_length_le (by rwa [length_load]),
              List.nil_append, length_load]
            congr 1
            omega
          have hhanded : load buffer ind (total - ind) = load buffer ind v.iovLen ++
              load buffer (ind + v.iovLen) (total - (ind + v.iovLen)) := by
            rw [← load_add]
            congr 1
            omega
          rw [Nat.min_eq_left hfull, hnone, hkept, hhanded, List.append_nil, List.append_assoc]
        · -- Everything has been handed out.
          have hdone : total - (ind + (total - ind)) = 0 := by omega
          rw [Nat.min_eq_right (by omega), hdone, load_zero, List.drop_zero, List.nil_append,
            List.append_assoc, List.drop_append_of_le_length (by rw [length_load]; omega)]
      · have hdone : total - ind = 0 := by omega
        rw [scatter_end buffer total ind _ mem (by omega), hdone]
        rfl

/-- What both functions ask `malloc` for. -/
theorem toSize_totalSpace (iov : List Iovec) (hsmall : totalLen iov < 2147483648) :
    toSize (totalSpace iov 0) = totalLen iov := by
  rw [totalSpace_eq iov 0 (Int.le_refl 0) (by omega), toSize_of_nonneg _ (by omega) (by omega)]
  omega

/-- `my_writev` makes one `write`, of its buffers one behind the other. -/
theorem myWritev_eq (mem : Nat → UInt8) (iov : List Iovec) (malloc : Nat → Option (Nat → UInt8))
    (answer : Int) (hsmall : totalLen iov < 2147483648) :
    myWritev mem iov malloc answer =
      (malloc (totalLen iov)).map (fun _ => ([gathered mem iov], answer)) := by
  have hmax : (0 : Int) + totalLen iov ≤ intMax := by
    unfold intMax
    omega
  have hload : ∀ junk, load (gather mem iov 0 junk) 0 (totalLen iov) = gathered mem iov := by
    intro junk
    have hgather := load_gather mem iov 0 junk hmax
    rw [load_zero, List.nil_append, Nat.zero_add] at hgather
    exact hgather
  unfold myWritev
  simp only [toSize_totalSpace iov hsmall, hload]

/-- `my_readv` asks for as many bytes as its buffers hold, returns the number of
    bytes read and has put them at the front of its buffers. -/
theorem myReadv_eq (mem : Nat → UInt8) (iov : List Iovec) (malloc : Nat → Option (Nat → UInt8))
    (read : Read) (data : List UInt8) (hapart : Apart iov) (hsmall : totalLen iov < 2147483648)
    (hdata : read.answer (malloc (totalLen iov)).isSome (totalLen iov) = some data) :
    (myReadv mem iov malloc read).1 = data.length ∧
      gathered (myReadv mem iov malloc read).2 iov =
        data ++ (gathered mem iov).drop data.length := by
  have hle := read.length_le _ _ _ hdata
  unfold myReadv
  simp only [toSize_totalSpace iov hsmall, hdata]
  by_cases hzero : (data.length : Int) ≤ 0
  · have hnil : data = [] := List.length_eq_zero_iff.mp (by omega)
    subst hnil
    exact ⟨rfl, rfl⟩
  · rw [if_neg hzero]
    cases hmalloc : malloc (totalLen iov) with
    | none =>
        -- Nothing can have been read.
        rw [hmalloc] at hdata
        rw [read.null _ _ hdata] at hzero
        exact absurd (Int.le_refl 0) hzero
    | some junk =>
        refine ⟨rfl, ?_⟩
        have hmax : (data.length : Int) ≤ intMax := by
          unfold intMax
          omega
        have hread : load (store junk 0 data) 0 data.length = data := by
          rw [load_store _ _ _ _ (Nat.le_refl _), List.drop_of_length_le (by rw [length_load]),
            List.append_nil]
        have hscatter := gathered_scatter (store junk 0 data) data.length iov 0 mem hapart hmax
          (Nat.zero_le _) hle
        rw [Nat.sub_zero, hread] at hscatter
        exact hscatter

/-- For buffers `a` and buffers `b` that do not overlap, both shorter than 2^31
    bytes in all: if there is memory for its own buffer, `my_writev` writes the
    contents of `a` in one piece; `my_readv`, which asks for as many bytes as `b`
    holds, puts the first `n` bytes that its read gives it at the front of `b`,
    and if it is given the contents of `a` and `b` is as long as `a`, it recovers
    them. -/
theorem gather_scatter (mem mem' : Nat → UInt8) (a b : List Iovec)
    (malloc malloc' : Nat → Option (Nat → UInt8)) (read : Read)
    (ha : totalLen a < 2147483648) (hb : totalLen b < 2147483648) (hapart : Apart b) :
    (∀ answer, myWritev mem a malloc answer =
        (malloc (totalLen a)).map (fun _ => ([gathered mem a], answer))) ∧
      (∀ (s : List UInt8) (n : Nat), 0 < n → n ≤ s.length →
        read.answer (malloc' (totalLen b)).isSome (totalLen b) = some (s.take n) →
        (myReadv mem' b malloc' read).1 = n ∧
          gathered (myReadv mem' b malloc' read).2 b = s.take n ++ (gathered mem' b).drop n) ∧
      (totalLen a = totalLen b →
        read.answer (malloc' (totalLen b)).isSome (totalLen b) = some (gathered mem a) →
        gathered (myReadv mem' b malloc' read).2 b = gathered mem a) := by
  refine ⟨fun answer => myWritev_eq mem a malloc answer ha, fun s n _ hs hdata => ?_,
    fun hab hdata => ?_⟩
  · have hlen : (s.take n).length = n := by
      rw [List.length_take, Nat.min_eq_left hs]
    have hread := myReadv_eq mem' b malloc' read (s.take n) hapart hb hdata
    rw [hlen] at hread
    exact hread
  · rw [(myReadv_eq mem' b malloc' read (gathered mem a) hapart hb hdata).2,
      List.drop_of_length_le (by rw [length_gathered, length_gathered]; omega),
      List.append_nil]

/-- Two buffers and an empty one. -/
def threePieces : List Iovec := [⟨0, 2⟩, ⟨10, 0⟩, ⟨20, 3⟩]

/-- As many bytes, cut in another way. -/
def otherPieces : List Iovec := [⟨100, 1⟩, ⟨200, 3⟩, ⟨300, 1⟩]

theorem apart_otherPieces : Apart otherPieces := by
  refine List.pairwise_cons.mpr ⟨fun w hw x hv hwx => ?_, List.pairwise_cons.mpr
    ⟨fun w hw x hv hwx => ?_, List.pairwise_singleton _ _⟩⟩
  · unfold Iovec.Covers at hv hwx
    rcases List.mem_cons.mp hw with rfl | hw
    · simp only at hv hwx
      omega
    · rw [List.mem_singleton] at hw
      subst hw
      simp only at hv hwx
      omega
  · unfold Iovec.Covers at hv hwx
    rw [List.mem_singleton] at hw
    subst hw
    simp only at hv hwx
    omega

/-- A `read` that gives as much of some bytes as there is room for. -/
def readOf (bytes : List UInt8) : Read where
  answer := fun buffer count => some (if buffer then bytes.take count else [])
  length_le := by
    intro buffer count data h
    rw [← Option.some_inj.mp h]
    split
    · exact List.length_take_le _ _
    · exact Nat.zero_le _
  null := fun _ _ h => (Option.some_inj.mp h).symm

theorem gather_scatter_recut :
    gathered (myReadv (fun _ => 0) otherPieces (fun _ => some (fun _ => 7))
        (readOf (gathered (fun x => UInt8.ofNat x) threePieces))).2 otherPieces =
      gathered (fun x => UInt8.ofNat x) threePieces :=
  (gather_scatter (fun x => UInt8.ofNat x) (fun _ => 0) threePieces otherPieces
    (fun _ => some (fun _ => 7)) (fun _ => some (fun _ => 7))
    (readOf (gathered (fun x => UInt8.ofNat x) threePieces)) (by decide) (by decide)
    apart_otherPieces).2.2 rfl rfl

end ReadvWritev

end TlpiPractice
