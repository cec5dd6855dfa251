/-
# `Jccl.Bigint.InBounds` — distances, indexes and counts of the shifts

Three numbers in the shifts are computed from the count: the distances of the
word shifts, the indexes of chunks, and the number of chunks to allocate.  A
wrong distance or index is a fault of the model, and so is a number of chunks
that is not positive.  That it is the right number is not; so the functions
are run a second time with an allocation that is told the number there should
be, and fails an assertion on any other (`countedInit`).  A run is in order if
this makes no difference, and no fault but a null pointer, the one that
`bigint_negate` writes to without memory for it, can end it.
-/
import Jccl.Bigint.Handover

namespace Jccl

open Words

/-- The run does not come to a distance, an index, an assertion or a sum that
is out of range. -/
def InBounds {α : Type} (x : Outcome α) : Prop := ∀ e, x = .error e → e = .null ∨ e = .timeout

theorem inBounds_ok {α : Type} (a : α) : InBounds (.ok a : Outcome α) := fun _ h => (by cases h)

/-- `bigint_init`, for a caller that should ask for `count` chunks. -/
def countedInit (count nchunk : Int) : AllocM (Option Bigint) := do
  assert (nchunk = count)
  bigintInit nchunk

theorem countedInit_bind {count nchunk : Int} (f : Option Bigint → AllocM (Option Bigint))
    (answers : List Bool) : (countedInit count nchunk >>= f).run answers
      = if nchunk = count then (bigintInit nchunk >>= f).run answers else .error .assertion := by
  by_cases h : nchunk = count
  · rw [if_pos h, countedInit, assert_of h]
    rfl
  · rw [if_neg h, countedInit, assert_not h]
    rfl

/-! ## The numbers of chunks -/

/-- The number of chunks that hold `a` and the bits that a shift to the left
puts below it. -/
def shiftLeftCount (a : Bigint) (count : Int) : Int :=
  a.nchunk + count / 64 + if count % 64 ≠ 0 then 1 else 0

/-- The number of chunks that a shift to the right leaves, one being left of
any number. -/
def shiftRightCount (a : Bigint) (count : Int) : Int :=
  if count / 64 ≥ a.nchunk then 1 else a.nchunk - count / 64

def countedShiftLeft (a b : Bigint) : AllocM (Option Bigint) :=
  shiftLeftWith (countedInit (shiftLeftCount a b.val)) a b

def countedShiftRight (a b : Bigint) : AllocM (Option Bigint) :=
  shiftRightWith (countedInit (shiftRightCount a b.val)) a b

/-- The run is in order, and asks for as many chunks as it should. -/
def Counted (counted plain : AllocM (Option Bigint)) (answers : List Bool) : Prop :=
  counted.run answers = plain.run answers ∧ InBounds (plain.run answers)

theorem Counted.bind {m : AllocM (Option Bigint)} {f g : Option Bigint → AllocM (Option Bigint)}
    {answers : List Bool} (herror : ∀ e, m.run answers = .error e → e = .null)
    (h : ∀ o t, m.run answers = .ok (o, t) → Counted (f o) (g o) t) :
    Counted (m >>= f) (m >>= g) answers := by
  rw [Counted, StateT.run_bind, StateT.run_bind]
  cases hrun : m.run answers with
  | error e =>
      refine ⟨rfl, fun e' he => .inl ?_⟩
      cases he
      exact herror e hrun
  | ok x => exact h x.1 x.2 hrun

/-! ## The left shift -/

section Left

variable {a b : Bigint}

/-- The counts that the left shift is in bounds with. -/
def ShiftLeftInBounds (a : Bigint) (count : Int) : Prop :=
  2 ^ 63 ≤ count ∨ count % 64 ≠ 0 ∧ a.nchunk + count / 64 + 1 ≤ INT_MAX

theorem nonChunkShift_ne_zero {count : Int} : nonChunkShift count ≠ 0 ↔ count % 64 ≠ 0 := by
  unfold nonChunkShift
  omega

theorem wholeChunks_of_le {count : Int} (h : 0 ≤ count) (hmax : count / 64 ≤ INT_MAX) :
    wholeChunks count = count / 64 := by
  unfold INT_MAX at hmax
  rw [wholeChunks, narrow_of_le (by unfold INT_MAX; omega)]
  omega

/-- The count is the right one just if its whole chunks are an `int`. -/
theorem shiftLeftNchunk_eq_iff : shiftLeftNchunk a b.val = shiftLeftCount a b.val ↔
    wholeChunks b.val = b.val / 64 := by
  have hk := @nonChunkShift_ne_zero b.val
  rw [shiftLeftNchunk, shiftLeftCount]
  by_cases h : b.val % 64 ≠ 0
  · rw [if_pos h, if_pos (hk.mpr h)]
    omega
  · rw [if_neg h, if_neg (mt hk.mp h)]
    omega

theorem countedShiftLeft_run (hb : b.Canonical) (hone : ¬ b.nchunk > 1) (answers : List Bool) :
    (countedShiftLeft a b).run answers
      = if shiftLeftNchunk a b.val ≤ INT_MAX ∧ wholeChunks b.val ≠ b.val / 64 then
          .error .assertion
        else (shiftLeftByPositive a b).run answers := by
  rw [countedShiftLeft, shiftLeftWith_run _ hb hone, shiftLeftByPositive_run hb hone]
  by_cases hmax : shiftLeftNchunk a b.val ≤ INT_MAX
  · rw [if_pos hmax, if_pos hmax, countedInit_bind]
    by_cases hwhole : wholeChunks b.val = b.val / 64
    · rw [if_pos (shiftLeftNchunk_eq_iff.mpr hwhole), if_neg fun h => h.2 hwhole]
      rfl
    · rw [if_neg (mt shiftLeftNchunk_eq_iff.mp hwhole), if_pos ⟨hmax, hwhole⟩]
  · rw [if_neg hmax, if_neg hmax, if_neg fun h => hmax h.1]

/-- Without bits to shift by, the first carry is shifted by the width. -/
theorem shiftLeftInto_shift (ha : a.Canonical) {p : Nat} {n : Int} (hn : p < n) :
    (shiftLeftInto a p (0 : Nat) n).run [] = .error .shift := by
  have hpos := List.length_pos_iff.mpr ha.ne_nil
  have hlt : p < (List.replicate n.toNat (0 : ULong)).length := by
    rw [List.length_replicate]
    omega
  have hset := @setChunk_ofNat { padChunk := 0, chunks := List.replicate n.toNat 0 } p
    (a.chunks[0] <<< 0 ||| 0) hlt
  have hcarry : shiftRight a.chunks[0] (LONG_BIT - (0 : Nat)) = .error .shift := if_neg (by decide)
  have hindex : (p : Int) + (0 : Nat) = p := by simp
  have hfirst : shiftLeftStep a p (0 : Nat) 0
      ({ padChunk := 0, chunks := List.replicate n.toNat 0 }, 0) = .error .shift := by
    simp only [shiftLeftStep, chunk_ofNat hpos, shiftLeft_ofNat _ (by decide : 0 < 64),
      Outcome.ok_bind, hindex, hset, hcarry]
    rfl
  have hone : forLoop (shiftLeftStep a p (0 : Nat)) 1
      ({ padChunk := 0, chunks := List.replicate n.toNat 0 }, 0) = .error .shift := hfirst
  have hloop := forLoop_error hone hpos
  simp only [shiftLeftInto, StateT.run_bind, bigintInit_run (by omega : 0 < n), granted_nil,
    if_true, Outcome.ok_bind, AllocM.run_lift, hloop]
  rfl

theorem countedShiftLeft_counted (ha : a.Canonical) (hb : b.Canonical) (hnonneg : 0 ≤ b.val)
    (h : ShiftLeftInBounds a b.val) (answers : List Bool) :
    Counted (countedShiftLeft a b) (shiftLeftByPositive a b) answers := by
  have hlong := nchunk_gt_one_iff hb
  by_cases hbig : 2 ^ 63 ≤ b.val
  · have hplain := @shiftLeftByPositive_big a b hb hbig answers
    have hmany : b.nchunk > 1 := hlong.mpr (by omega)
    refine ⟨?_, hplain ▸ inBounds_ok _⟩
    rw [hplain, countedShiftLeft, shiftLeftWith, if_pos hmany]
    rfl
  obtain ⟨hk, hmax⟩ := h.resolve_left hbig
  have hone : ¬ b.nchunk > 1 := by omega
  have hpos : 0 ≤ a.nchunk := Int.natCast_nonneg _
  have hwhole := wholeChunks_of_le hnonneg (by omega)
  have hk' := nonChunkShift_ne_zero.mpr hk
  obtain ⟨p, hp⟩ := Int.eq_ofNat_of_zero_le (hwhole ▸ by omega : 0 ≤ wholeChunks b.val)
  have hnchunk : shiftLeftNchunk a b.val = a.nchunk + b.val / 64 + 1 := by
    rw [shiftLeftNchunk, hwhole, if_pos hk']
  refine ⟨?_, ?_⟩
  · rw [countedShiftLeft_run hb hone, if_neg fun h => h.2 hwhole]
  · cases hg : granted answers with
    | true =>
        obtain ⟨r, hrun, -⟩ := shiftLeftByPositive_ok ha hb hone hk' hp (by omega) hg
        exact hrun ▸ inBounds_ok _
    | false =>
        rw [shiftLeftByPositive_run hb hone, if_pos (by omega), shiftLeftInto_refused (by omega) hg]
        exact inBounds_ok _

theorem shiftLeftInBounds_of_counted (ha : a.Canonical) (hb : b.Canonical) (hnonneg : 0 ≤ b.val)
    (h : Counted (countedShiftLeft a b) (shiftLeftByPositive a b) []) :
    ShiftLeftInBounds a b.val := by
  have hlong := nchunk_gt_one_iff hb
  obtain ⟨hsame, hin⟩ := h
  by_cases hbig : 2 ^ 63 ≤ b.val
  · exact .inl hbig
  have hone : ¬ b.nchunk > 1 := by omega
  rw [countedShiftLeft_run hb hone] at hsame
  have hplain := @shiftLeftByPositive_run a b [] hb hone
  by_cases hmax : shiftLeftNchunk a b.val ≤ INT_MAX
  swap
  · rw [if_neg hmax] at hplain
    exact absurd (hin _ hplain) (by decide)
  by_cases hwhole : wholeChunks b.val = b.val / 64
  swap
  · rw [if_pos ⟨hmax, hwhole⟩] at hsame
    exact absurd (hin _ hsame.symm) (by decide)
  have hk : b.val % 64 ≠ 0 := by
    intro hzero
    have hk : nonChunkShift b.val = 0 := by
      rw [nonChunkShift, hzero]
      rfl
    obtain ⟨p, hp⟩ := Int.eq_ofNat_of_zero_le (hwhole ▸ by omega : 0 ≤ wholeChunks b.val)
    have hpos := ha.nchunk_pos
    have hlt : (p : Int) < shiftLeftNchunk a b.val := by
      rw [shiftLeftNchunk, hp, hk]
      simp only [ne_eq, not_true_eq_false, if_false]
      omega
    rw [if_pos hmax, hp, hk, shiftLeftInto_shift ha hlt] at hplain
    exact absurd (hin _ hplain) (by decide)
  rw [shiftLeftNchunk, hwhole, if_pos (nonChunkShift_ne_zero.mpr hk)] at hmax
  exact .inr ⟨hk, hmax⟩

end Left

/-! ## The right shift -/

section Right

variable {a b : Bigint}

/-- The whole chunks of the count are taken for what they are, or for another
number that leaves a single chunk as well. -/
def ShiftRightCounted (a : Bigint) (count : Int) : Prop :=
  wholeChunks count = count / 64 ∨ wholeChunks count = a.nchunk - 1 ∧ a.nchunk ≤ count / 64

instance (a : Bigint) (count : Int) : Decidable (ShiftRightCounted a count) := by
  unfold ShiftRightCounted
  infer_instance

/-- The counts that the right shift is in bounds with. -/
def ShiftRightInBounds (a : Bigint) (count : Int) : Prop :=
  a.nchunk ≤ wholeChunks count ∨
    count % 64 ≠ 0 ∧ a.nchunk - wholeChunks count ≤ INT_MAX ∧ ShiftRightCounted a count

theorem wholeChunks_le (hnonneg : 0 ≤ b.val) : wholeChunks b.val ≤ b.val / 64 := by
  have hle := parts_le hnonneg
  omega

theorem shiftRightCounted_iff (hnonneg : 0 ≤ b.val) (hnear : ¬ wholeChunks b.val ≥ a.nchunk) :
    a.nchunk - wholeChunks b.val = shiftRightCount a b.val ↔ ShiftRightCounted a b.val := by
  have hle := wholeChunks_le hnonneg
  rw [shiftRightCount, ShiftRightCounted]
  split <;> omega

theorem countedShiftRight_run (hb : b.Canonical) (hnonneg : 0 ≤ b.val) (answers : List Bool) :
    (countedShiftRight a b).run answers
      = if ¬ wholeChunks b.val ≥ a.nchunk ∧ a.nchunk - wholeChunks b.val ≤ INT_MAX ∧
            ¬ ShiftRightCounted a b.val then .error .assertion
        else (shiftRightByPositive a b).run answers := by
  have hle := wholeChunks_le hnonneg
  rw [countedShiftRight, ← shiftRightWith_bigintInit, shiftRightWith_run _ hb,
    shiftRightWith_run _ hb]
  by_cases hfar : wholeChunks b.val ≥ a.nchunk
  · have hcount : (1 : Int) = shiftRightCount a b.val := by
      rw [shiftRightCount, if_pos (by omega)]
    rw [if_pos hfar, if_neg fun h => h.1 hfar, Outcome.ok_bind, Outcome.ok_bind, countedInit_bind,
      if_pos hcount]
  rw [if_neg hfar]
  by_cases hmax : a.nchunk - wholeChunks b.val ≤ INT_MAX
  · have hmin : INT_MIN ≤ 0 := by decide
    have hcount := shiftRightCounted_iff hnonneg hfar
    rw [checkInt_of ⟨by omega, hmax⟩, Outcome.ok_bind, Outcome.ok_bind, countedInit_bind]
    by_cases h : ShiftRightCounted a b.val
    · rw [if_pos (hcount.mpr h), if_neg fun h' => h'.2.2 h]
    · rw [if_neg (mt hcount.mp h), if_pos ⟨hfar, hmax, h⟩]
  · rw [checkInt_not (not_le.mp hmax), if_neg fun h => hmax h.2.1]
    rfl

theorem shiftRightByPositive_refused (hb : b.Canonical)
    (h : wholeChunks b.val ≥ a.nchunk ∨ a.nchunk - wholeChunks b.val ≤ INT_MAX)
    {answers : List Bool} (hg : granted answers = false) :
    (shiftRightByPositive a b).run answers = .ok (none, answers.tail) := by
  have hnull : ∀ {k : Int} (p d : Int), 0 < k →
      (bigintInit k >>= shiftRightFrom a p d k).run answers = .ok (none, answers.tail) := by
    intro k p d hk
    rw [StateT.run_bind, bigintInit_run hk, hg]
    rfl
  rw [← shiftRightWith_bigintInit, shiftRightWith_run _ hb]
  by_cases hfar : wholeChunks b.val ≥ a.nchunk
  · rw [if_pos hfar, Outcome.ok_bind]
    exact hnull _ _ Int.one_pos
  · have hmin : INT_MIN ≤ 0 := by decide
    rw [if_neg hfar, checkInt_of ⟨by omega, h.resolve_left hfar⟩, Outcome.ok_bind]
    exact hnull _ _ (by omega)

theorem countedShiftRight_counted (ha : a.Canonical) (hb : b.Canonical) (hnonneg : 0 ≤ b.val)
    (h : ShiftRightInBounds a b.val) (answers : List Bool) :
    Counted (countedShiftRight a b) (shiftRightByPositive a b) answers := by
  refine ⟨?_, ?_⟩
  · rw [countedShiftRight_run hb hnonneg, if_neg]
    rintro ⟨hnear, hmax, hcount⟩
    exact hcount (h.resolve_left hnear).2.2
  cases hg : granted answers with
  | false =>
      have hnull := shiftRightByPositive_refused hb (h.imp_right fun h => h.2.1) hg
      exact hnull ▸ inBounds_ok _
  | true =>
      by_cases hfar : a.nchunk ≤ wholeChunks b.val
      · obtain ⟨r, hrun, -⟩ := shiftRightByPositive_far ha hb hfar hg
        exact hrun ▸ inBounds_ok _
      · obtain ⟨hk, hmax, hcount⟩ := h.resolve_left hfar
        have hpos := ha.nchunk_pos
        have hwhole : 0 ≤ wholeChunks b.val := by
          rcases hcount with hcount | ⟨hcount, -⟩ <;> omega
        obtain ⟨p, hp⟩ := Int.eq_ofNat_of_zero_le hwhole
        obtain ⟨r, hrun, -⟩ :=
          shiftRightByPositive_near ha hb hfar (nonChunkShift_ne_zero.mpr hk) hp hmax hg
        exact hrun ▸ inBounds_ok _

theorem shiftRightInBounds_of_counted (hb : b.Canonical) (hnonneg : 0 ≤ b.val)
    (h : Counted (countedShiftRight a b) (shiftRightByPositive a b) []) :
    ShiftRightInBounds a b.val := by
  obtain ⟨hsame, hin⟩ := h
  rw [countedShiftRight_run hb hnonneg] at hsame
  by_cases hfar : wholeChunks b.val ≥ a.nchunk
  · exact .inl hfar
  have hplain := @shiftRightByPositive_run a b [] hb hfar
  by_cases hmax : a.nchunk - wholeChunks b.val ≤ INT_MAX
  swap
  · rw [checkInt_not (not_le.mp hmax)] at hplain
    exact absurd (hin _ hplain) (by decide)
  by_cases hcount : ShiftRightCounted a b.val
  swap
  · rw [if_pos ⟨hfar, hmax, hcount⟩] at hsame
    exact absurd (hin _ hsame.symm) (by decide)
  refine .inr ⟨fun hzero => ?_, hmax, hcount⟩
  -- the first carry is the padding shifted by the width
  have hmin : INT_MIN ≤ 0 := by decide
  have hk : nonChunkShift b.val = 0 := by
    rw [nonChunkShift, hzero]
    rfl
  have hshift : shiftLeft a.padChunk (LONG_BIT - (0 : Nat)) = .error .shift := if_neg (by decide)
  rw [checkInt_of ⟨by omega, hmax⟩, Outcome.ok_bind, hk, shiftRightInto, StateT.run_bind,
    bigintInit_run (by omega)] at hplain
  simp only [granted_nil, if_true, Outcome.ok_bind, StateT.run_bind, AllocM.run_lift, hshift,
    Outcome.error_bind] at hplain
  exact absurd (hin _ hplain) (by decide)

end Right

/-! ## Both of them -/

mutual

/-- The hand-over of negative counts, whatever is done with the others. -/
def handOverLeft (left right : Bigint → Bigint → AllocM (Option Bigint)) :
    Nat → Option Bigint → Option Bigint → AllocM (Option Bigint)
  | 0, _, _ => throw .timeout
  | fuel + 1, some a, some b =>
      if bigintMsb b (-1) = 1 then do
        let minusB ← bigintNegate (some b)
        handOverRight left right fuel (some a) minusB
      else
        left a b
  | _ + 1, _, _ => pure none

def handOverRight (left right : Bigint → Bigint → AllocM (Option Bigint)) :
    Nat → Option Bigint → Option Bigint → AllocM (Option Bigint)
  | 0, _, _ => throw .timeout
  | fuel + 1, some a, some b =>
      if bigintMsb b (-1) = 1 then do
        let minusB ← bigintNegate (some b)
        handOverLeft left right fuel (some a) minusB
      else
        right a b
  | _ + 1, _, _ => pure none

end

/-- The shifts are the hand-over of what they do with positive counts. -/
theorem handOver_eq (fuel : Nat) (a b : Option Bigint) :
    handOverLeft shiftLeftByPositive shiftRightByPositive fuel a b = bigintShiftLeft fuel a b ∧
      handOverRight shiftLeftByPositive shiftRightByPositive fuel a b
        = bigintShiftRight fuel a b := by
  induction fuel generalizing a b with
  | zero => exact ⟨by rw [handOverLeft, bigintShiftLeft], by rw [handOverRight, bigintShiftRight]⟩
  | succ fuel ih =>
      cases a with
      | none => simp only [handOverLeft, handOverRight, bigintShiftLeft, bigintShiftRight, and_self]
      | some a =>
        cases b with
        | none =>
            simp only [handOverLeft, handOverRight, bigintShiftLeft, bigintShiftRight, and_self]
        | some b =>
            simp only [handOverLeft, handOverRight, bigintShiftLeft, bigintShiftRight, ih, and_self]

/-- Every run of either shift is in bounds, and asks for the chunks it should,
whatever the fuel and the answers of the allocator. -/
def ShiftsInBounds (a b : Bigint) : Prop :=
  ∀ fuel answers,
    Counted (handOverLeft countedShiftLeft countedShiftRight fuel (some a) (some b))
      (bigintShiftLeft fuel (some a) (some b)) answers ∧
    Counted (handOverRight countedShiftLeft countedShiftRight fuel (some a) (some b))
      (bigintShiftRight fuel (some a) (some b)) answers

section HandOver

variable {a b : Bigint}

/-- A negation only ever fails to get memory for the complement. -/
theorem bigintNegate_error (hb : b.Canonical) {answers : List Bool} {e : Fault}
    (h : (bigintNegate (some b)).run answers = .error e) : e = .null := by
  cases hg : granted answers with
  | false =>
      rw [bigintNegate, StateT.run_bind, bigintNot_refused hb hg] at h
      cases h
      rfl
  | true =>
      obtain ⟨notB, hnot, hcan, -⟩ := bigintNot_run hb hg
      simp only [bigintNegate, StateT.run_bind, hnot, Outcome.ok_bind] at h
      cases hg' : granted answers.tail with
      | false =>
          rw [bigintAdd_refused hcan bigintOne hg'] at h
          cases h
      | true =>
          obtain ⟨r, hadd, -⟩ := bigintAdd_run hcan (by decide : bigintOne.Canonical) hg'
          rw [hadd] at h
          cases h

/-- To be out of fuel is no access out of bounds. -/
theorem counted_timeout (answers : List Bool) :
    Counted (throw .timeout) (throw .timeout) answers := by
  refine ⟨rfl, fun e he => .inr ?_⟩
  cases he
  rfl

/-- A count that could not be negated is NULL, and so is the result. -/
theorem counted_null (fuel : Nat) (a : Bigint) (answers : List Bool) :
    Counted (handOverLeft countedShiftLeft countedShiftRight fuel (some a) none)
      (bigintShiftLeft fuel (some a) none) answers ∧
    Counted (handOverRight countedShiftLeft countedShiftRight fuel (some a) none)
      (bigintShiftRight fuel (some a) none) answers := by
  cases fuel with
  | zero =>
      rw [handOverLeft, handOverRight, bigintShiftLeft, bigintShiftRight]
      exact ⟨counted_timeout answers, counted_timeout answers⟩
  | succ fuel =>
      have hnull : Counted (pure none) (pure none) answers := ⟨rfl, inBounds_ok _⟩
      simp only [handOverLeft, handOverRight, bigintShiftLeft, bigintShiftRight]
      exact ⟨hnull, hnull⟩

/-- What holds of the positive counts among some that are closed under negation
holds of the others, for any fuel. -/
theorem counted_handOver {S : Bigint → Prop}
    (hclosed : ∀ c d, S c → c.Canonical → c.val < 0 → d.Canonical →
      d.val = (if c.val = c.mostNegative then c.val else -c.val) → S d)
    (hpos : ∀ c, S c → c.Canonical → 0 ≤ c.val → ∀ answers,
      Counted (countedShiftLeft a c) (shiftLeftByPositive a c) answers ∧
        Counted (countedShiftRight a c) (shiftRightByPositive a c) answers)
    (hb : b.Canonical) (hS : S b) : ShiftsInBounds a b := by
  intro fuel
  induction fuel generalizing b with
  | zero =>
      intro answers
      rw [handOverLeft, handOverRight, bigintShiftLeft, bigintShiftRight]
      exact ⟨counted_timeout answers, counted_timeout answers⟩
  | succ fuel ih =>
      intro answers
      have hmsb := bigintMsb_padding_eq_one hb
      rw [handOverLeft, handOverRight, bigintShiftLeft, bigintShiftRight]
      by_cases hneg : b.val < 0
      · have hone := hmsb.mpr hneg
        have herror := fun e => @bigintNegate_error b hb answers e
        have hnegated : ∀ o t, (bigintNegate (some b)).run answers = .ok (o, t) →
            Counted (handOverLeft countedShiftLeft countedShiftRight fuel (some a) o)
              (bigintShiftLeft fuel (some a) o) t ∧
            Counted (handOverRight countedShiftLeft countedShiftRight fuel (some a) o)
              (bigintShiftRight fuel (some a) o) t := by
          intro o t hrun
          cases o with
          | none => exact counted_null fuel a t
          | some c =>
              obtain ⟨hc, hval, -⟩ := bigintNegate_inv hb hrun
              exact ih hc (hclosed b c hS hb hneg hc hval) t
        rw [if_pos hone, if_pos hone, if_pos hone, if_pos hone]
        exact ⟨.bind herror fun o t hrun => (hnegated o t hrun).2,
          .bind herror fun o t hrun => (hnegated o t hrun).1⟩
      · have hnonneg := not_lt.mp hneg
        rw [if_neg (mt hmsb.mp hneg), if_neg (mt hmsb.mp hneg), if_neg (mt hmsb.mp hneg),
          if_neg (mt hmsb.mp hneg)]
        exact hpos b hS hb hnonneg answers

/-- A count that is negative, and not the most negative of its length, is
handed over once. -/
theorem handOver_two (hb : b.Canonical) (hneg : b.val < 0) (hne : b.val ≠ b.mostNegative) :
    ∃ c : Bigint, c.Canonical ∧ c.val = -b.val ∧
      ∀ left right : Bigint → Bigint → AllocM (Option Bigint),
        (handOverLeft left right 2 (some a) (some b)).run [] = (right a c).run [] ∧
        (handOverRight left right 2 (some a) (some b)).run [] = (left a c).run [] := by
  obtain ⟨c, hrun, hc, hval⟩ := bigintNegate_run hb granted_nil granted_nil
  rw [if_neg hne] at hval
  have hmsb := (bigintMsb_padding_eq_one hb).mpr hneg
  have hmsb' : ¬ bigintMsb c (-1) = 1 := by
    rw [bigintMsb_padding_eq_one hc]
    omega
  refine ⟨c, hc, hval, fun left right => ⟨?_, ?_⟩⟩
  · rw [handOverLeft, if_pos hmsb, StateT.run_bind, hrun, Outcome.ok_bind, handOverRight,
      if_neg hmsb']
    rfl
  · rw [handOverRight, if_pos hmsb, StateT.run_bind, hrun, Outcome.ok_bind, handOverLeft,
      if_neg hmsb']
    rfl

end HandOver

/-- The counts are those with which both shifts, by the absolute value, are in
bounds, and the most negative ones, which are handed over for ever. -/
theorem bigintShift_inBounds_iff {a b : Bigint} (ha : a.Canonical) (hb : b.Canonical) :
    ShiftsInBounds a b ↔
      b.val = b.mostNegative ∨ ShiftLeftInBounds a |b.val| ∧ ShiftRightInBounds a |b.val| := by
  have hmost := mostNegative_neg b
  by_cases hmin : b.val = b.mostNegative
  · refine iff_of_true (counted_handOver (S := fun c => c.val = b.val) ?_ ?_ hb rfl) (.inl hmin)
    · intro c d hc hcan _ _ hd
      obtain rfl := hcan.ext hb hc
      rw [hd, if_pos hmin]
    · intro c hc _ hnonneg
      omega
  rw [or_iff_right hmin]
  constructor
  · intro h
    obtain ⟨hleft, hright⟩ := h 2 []
    rw [← (handOver_eq _ _ _).1] at hleft
    rw [← (handOver_eq _ _ _).2] at hright
    by_cases hneg : b.val < 0
    · obtain ⟨c, hc, hval, hrun⟩ := handOver_two (a := a) hb hneg hmin
      have hnonneg : 0 ≤ c.val := by omega
      rw [Counted, (hrun _ _).1, (hrun _ _).1] at hleft
      rw [Counted, (hrun _ _).2, (hrun _ _).2] at hright
      rw [abs_of_neg hneg, ← hval]
      exact ⟨shiftLeftInBounds_of_counted ha hc hnonneg hright,
        shiftRightInBounds_of_counted hc hnonneg hleft⟩
    · have hnonneg := not_lt.mp hneg
      have hmsb := mt (bigintMsb_padding_eq_one hb).mp hneg
      rw [handOverLeft, handOverLeft, if_neg hmsb, if_neg hmsb] at hleft
      rw [handOverRight, handOverRight, if_neg hmsb, if_neg hmsb] at hright
      rw [abs_of_nonneg hnonneg]
      exact ⟨shiftLeftInBounds_of_counted ha hb hnonneg hleft,
        shiftRightInBounds_of_counted hb hnonneg hright⟩
  · rintro ⟨hleft, hright⟩
    refine counted_handOver (S := fun c => c.val = b.val ∨ c.val = |b.val|) ?_ ?_ hb (.inl rfl)
    · rintro c d (hc | hc) hcan hneg _ hd
      · obtain rfl := hcan.ext hb hc
        rw [if_neg hmin] at hd
        exact .inr (by rw [hd, abs_of_neg hneg])
      · exact absurd (abs_nonneg b.val) (by omega)
    · intro c hc hcan hnonneg answers
      have habs : c.val = |b.val| := hc.elim (fun hc => by rw [← hc, abs_of_nonneg hnonneg]) id
      rw [← habs] at hleft hright
      exact ⟨countedShiftLeft_counted ha hcan hnonneg hleft answers,
        countedShiftRight_counted ha hcan hnonneg hright answers⟩

theorem bigintShift_inBounds_iff_65 : ShiftsInBounds bigintSixWords bigintMinus65 := by
  have hsix : bigintSixWords.Canonical := by decide
  have hcount : bigintMinus65.Canonical := by decide
  refine (bigintShift_inBounds_iff hsix hcount).mpr (.inr ⟨.inr ⟨by decide, by decide⟩,
    .inr ⟨by decide, by decide, .inl (by decide)⟩⟩)

/-- The shift of 1 by 64 comes to a distance of 64; and the one by `2 ^ 38 + 1`
asks for 2 chunks where there should be `2 ^ 32 + 2`. -/
theorem bigintShift_outOfBounds :
    bigintOne.Canonical ∧ ({ padChunk := 0, chunks := [64] } : Bigint).Canonical ∧
    (bigintShiftLeft 1 (some bigintOne) (some { padChunk := 0, chunks := [64] })).run []
      = .error .shift ∧
    ({ padChunk := 0, chunks := [0x4000000001] } : Bigint).Canonical ∧
    shiftLeftNchunk bigintOne ({ padChunk := 0, chunks := [0x4000000001] } : Bigint).val = 2 ∧
    shiftLeftCount bigintOne ({ padChunk := 0, chunks := [0x4000000001] } : Bigint).val
      = 2 ^ 32 + 2 ∧
    ¬ ShiftsInBounds bigintOne { padChunk := 0, chunks := [64] } := by
  have hshift : (bigintShiftLeft 1 (some bigintOne) (some { padChunk := 0, chunks := [64] })).run []
      = .error .shift := by decide
  refine ⟨by decide, by decide, hshift, by decide, by decide, by decide, fun h => ?_⟩
  exact absurd ((h 1 []).1.2 _ hshift) (by decide)

end Jccl
