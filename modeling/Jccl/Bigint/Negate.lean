/-
# `Jccl.Bigint.Negate` — complement and add one, and where it wraps

`bigint_not` complements the operand word by word and never wraps: the
integers that a number of words spells are symmetric about -1/2.  The one is
then added on as many words as the operand has, and there the most negative
integer of those words comes back unchanged.  `bigint_abs` and
`bigint_subtract` inherit this from `bigint_negate`, and the latter adds once
more, on as many words as the wider of `a` and `-b` has.
-/
import Jccl.Bigint.Compare

namespace Jccl

open Words

/-! ## The complement -/

/-- After `i` iterations the first `i` words of the result are complements. -/
def NotInv (n : Bigint) (i : Nat) (st : Option Bigint) : Prop :=
  ∃ ws, st = some { padChunk := 0, chunks := ws } ∧ ws.length = n.chunks.length ∧
    ws.take i = (n.chunks.take i).map (~~~ ·)

theorem notLoop_ok (n : Bigint) :
    ∃ st, forLoop (fun i res => do
        let res ← deref res
        let chunk ← n.chunk i
        let res ← res.setChunk i (~~~chunk)
        return some res) n.chunks.length
          (some { padChunk := 0, chunks := List.replicate n.chunks.length 0 }) = .ok st ∧
      NotInv n n.chunks.length st := by
  refine forLoop_ok ⟨_, rfl, List.length_replicate, by simp⟩ ?_
  rintro i _ hi ⟨ws, rfl, hws, htake⟩
  have hi' : i < ws.length := hws ▸ hi
  refine ⟨some { padChunk := 0, chunks := ws.set i (~~~n.chunks[i]) }, ?_, _, rfl,
    by simpa using hws, ?_⟩
  · have hset := setChunk_ofNat (n := { padChunk := 0, chunks := ws }) (v := ~~~n.chunks[i]) hi'
    simp only [deref_some, Outcome.ok_bind, chunk_ofNat hi, hset, Outcome.pure_eq]
  · rw [List.take_succ_eq_append_getElem hi,
      List.take_succ_eq_append_getElem (by simpa using hi'), List.take_set_of_le le_rfl, htake,
      List.map_append, List.getElem_set_self]
    rfl

theorem bigintNot_run {n : Bigint} (h : n.Canonical) {answers : List Bool}
    (hg : granted answers = true) :
    ∃ r, (bigintNot (some n)).run answers = .ok (some r, answers.tail) ∧
      r.Canonical ∧ r.val = -n.val - 1 := by
  have hpos := h.nchunk_pos
  obtain ⟨_, hloop, ws, rfl, hws, htake⟩ := notLoop_ok n
  rw [List.take_of_length_le hws.le, List.take_length] at htake
  subst htake
  obtain ⟨r, htrim, hcan, hval⟩ :=
    trim_ok (n := { padChunk := 0, chunks := n.chunks.map (~~~ ·) }) (by simpa using h.ne_nil)
  refine ⟨r, ?_, hcan, ?_⟩
  · have hlen : n.nchunk.toNat = n.chunks.length := rfl
    simp only [bigintNot, StateT.run_bind, bigintInit_run (by omega : 0 < n.nchunk), hg, if_true,
      Outcome.ok_bind, AllocM.run_lift, hlen, hloop, htrim]
  · rw [hval, signed_map_not word_pos h.ne_nil, h.val_eq]

/-! ## Negation -/

/-- The most negative integer that as many chunks spell. -/
def Bigint.mostNegative (n : Bigint) : Int := -2 ^ (64 * n.chunks.length - 1)

theorem Bigint.Canonical.fits {n : Bigint} (h : n.Canonical) : Fits 64 n.chunks.length n.val :=
  (h.length_le_iff (List.length_pos_iff.mpr h.ne_nil)).mp le_rfl

/-- The complement is as long as the operand. -/
theorem length_of_val_not {n r : Bigint} (hn : n.Canonical) (hr : r.Canonical)
    (hval : r.val = -n.val - 1) : r.chunks.length = n.chunks.length := by
  have hiff : ∀ m, 0 < m → (r.chunks.length ≤ m ↔ n.chunks.length ≤ m) := by
    intro m hm
    rw [hr.length_le_iff hm, hn.length_le_iff hm, hval]
    unfold Fits
    constructor <;> intro h <;> omega
  exact le_antisymm ((hiff _ (List.length_pos_iff.mpr hn.ne_nil)).mpr le_rfl)
    ((hiff _ (List.length_pos_iff.mpr hr.ne_nil)).mp le_rfl)

/-- Negation, which gives the most negative integer back. -/
theorem bigintNegate_run {n : Bigint} (h : n.Canonical) {answers : List Bool}
    (hg : granted answers = true) (hg' : granted answers.tail = true) :
    ∃ r, (bigintNegate (some n)).run answers = .ok (some r, answers.tail.tail) ∧
      r.Canonical ∧ r.val = if n.val = n.mostNegative then n.val else -n.val := by
  have hpos := List.length_pos_iff.mpr h.ne_nil
  obtain ⟨notN, hnot, hcan, hval⟩ := bigintNot_run h hg
  obtain ⟨r, hadd, hcan', hval'⟩ := bigintAdd_run hcan (by decide : bigintOne.Canonical) hg'
  have hmax : maxchunk notN bigintOne = n.chunks.length := by
    rw [maxchunk, length_of_val_not h hcan hval]
    exact max_eq_left hpos
  have hone : bigintOne.val = 1 := by decide
  have hneg : notN.val + bigintOne.val = -n.val := by omega
  refine ⟨r, ?_, hcan', ?_⟩
  · simp only [bigintNegate, StateT.run_bind, hnot, Outcome.ok_bind, hadd]
  · rw [hval', hneg, hmax]
    exact h.fits.bmod_neg word_pos hpos

theorem bigintCopy_run {n : Bigint} (h : n.Canonical) {answers : List Bool}
    (hg : granted answers = true) :
    (bigintCopy (some n)).run answers = .ok (some n, answers.tail) := by
  have hpos := h.nchunk_pos
  simp only [bigintCopy, StateT.run_bind, bigintInit_run (by omega : 0 < n.nchunk), hg, if_true,
    Outcome.ok_bind, AllocM.run_pure]

theorem bigintMsb_padding_eq_one {n : Bigint} (h : n.Canonical) :
    bigintMsb n (-1) = 1 ↔ n.val < 0 := by
  rw [bigintMsb_padding h, h.neg_iff]
  cases msb n.chunks <;> simp

theorem mostNegative_neg (n : Bigint) : n.mostNegative < 0 := by
  have hpow : (0 : Int) < 2 ^ (64 * n.chunks.length - 1) := by positivity
  unfold Bigint.mostNegative
  omega

theorem bigintAbs_run {n : Bigint} (h : n.Canonical) :
    ∃ r, (bigintAbs (some n)).run [] = .ok (some r, []) ∧
      r.Canonical ∧ r.val = if n.val = n.mostNegative then n.val else |n.val| := by
  simp only [bigintAbs, bigintMsb_padding_eq_one h]
  by_cases hneg : n.val < 0
  · obtain ⟨r, hrun, hcan, hval⟩ := bigintNegate_run h granted_nil granted_nil
    refine ⟨r, by rw [if_pos hneg]; exact hrun, hcan, ?_⟩
    rw [hval, abs_of_neg hneg]
  · refine ⟨n, by rw [if_neg hneg]; exact bigintCopy_run h granted_nil, h, ?_⟩
    have hmin := mostNegative_neg n
    rw [if_neg (by omega), abs_of_nonneg (not_lt.mp hneg)]

/-! ## Subtraction -/

/-- What the addition of the negated operand makes of it. -/
theorem bigintSubtract_run {a b : Bigint} (ha : a.Canonical) (hb : b.Canonical) :
    ∃ minusB r, (bigintSubtract (some a) (some b)).run [] = .ok (some r, []) ∧
      minusB.Canonical ∧ minusB.val = (if b.val = b.mostNegative then b.val else -b.val) ∧
      r.Canonical ∧ r.val = Int.bmod (a.val + minusB.val) (2 ^ (64 * maxchunk a minusB)) := by
  obtain ⟨minusB, hneg, hcan, hval⟩ := bigintNegate_run hb granted_nil granted_nil
  obtain ⟨r, hadd, hcan', hval'⟩ := bigintAdd_run ha hcan granted_nil
  refine ⟨minusB, r, ?_, hcan, hval, hcan', hval'⟩
  simp only [bigintSubtract, StateT.run_bind, hneg, Outcome.ok_bind, List.tail_nil, hadd]

/-- The operands that `bigint_subtract` is right for.  Where `-b` is exact the
difference has to fit where `a` and `-b` do; where it is not, `a + b` is taken
for `a - b`, and only wraps to it when `a` is negative and no longer. -/
def SubtractExact (a b : Bigint) : Prop :=
  if b.val = b.mostNegative then a.chunks.length ≤ b.chunks.length ∧ a.val < 0
  else ∀ m, 0 < m → Fits 64 m a.val → Fits 64 m (-b.val) → Fits 64 m (a.val - b.val)

theorem maxchunk_pos {a : Bigint} (ha : a.Canonical) (b : Bigint) : 0 < maxchunk a b :=
  lt_of_lt_of_le (List.length_pos_iff.mpr ha.ne_nil) (le_max_left _ _)

/-- A sum fits on the wider operand's words exactly when it fits wherever both
operands do. -/
theorem fits_maxchunk_iff {a b : Bigint} (ha : a.Canonical) (hb : b.Canonical) {v : Int} :
    Fits 64 (maxchunk a b) v ↔
      ∀ m, 0 < m → Fits 64 m a.val → Fits 64 m b.val → Fits 64 m v := by
  constructor
  · intro h m hm hfa hfb
    exact h.mono (max_le ((ha.length_le_iff hm).mpr hfa) ((hb.length_le_iff hm).mpr hfb))
  · intro h
    have hm := maxchunk_pos ha b
    exact h _ hm ((ha.length_le_iff hm).mp (le_max_left _ _))
      ((hb.length_le_iff hm).mp (le_max_right _ _))

/-- Adding the most negative integer in the place of its negation. -/
theorem bmod_add_mostNegative {a b : Bigint} (ha : a.Canonical) (hb : b.Canonical)
    (hmin : b.val = b.mostNegative) :
    Int.bmod (a.val + b.val) (2 ^ (64 * maxchunk a b)) = a.val - b.val ↔
      a.chunks.length ≤ b.chunks.length ∧ a.val < 0 := by
  have hpos := List.length_pos_iff.mpr hb.ne_nil
  have hrange : ((2 ^ (64 * b.chunks.length) : Nat) : Int) = -(2 * b.val) := by
    rw [natCast_two_pow_mul word_pos hpos, hmin, Bigint.mostNegative]
    ring
  unfold Bigint.mostNegative at hmin
  by_cases hlen : a.chunks.length ≤ b.chunks.length
  · have hfits : Fits 64 b.chunks.length a.val := (ha.length_le_iff hpos).mp hlen
    have hadd : a.val + b.val = a.val - b.val - (2 ^ (64 * b.chunks.length) : Nat) := by
      rw [hrange]
      ring
    rw [maxchunk, max_eq_right hlen, hadd, Int.sub_bmod_right, and_iff_right hlen,
      ← fits_iff_bmod word_pos hpos]
    unfold Fits at *
    omega
  · rw [maxchunk, max_eq_left (Nat.le_of_not_le hlen)]
    refine ⟨fun h => ?_, fun h => absurd h.1 hlen⟩
    -- the range of the longer operand would divide that of the shorter one
    have hdvd := Int.dvd_self_sub_bmod (x := a.val + b.val) (m := 2 ^ (64 * a.chunks.length))
    have htwice : a.val + b.val - (a.val - b.val)
        = -((2 ^ (64 * b.chunks.length) : Nat) : Int) := by
      rw [hrange]
      ring
    rw [h, htwice, Int.dvd_neg, Int.natCast_dvd_natCast] at hdvd
    have hle := (Nat.pow_dvd_pow_iff_le_right (by decide : 1 < 2)).mp hdvd
    omega

/-- The difference is exact exactly for those operands. -/
theorem bigintSubtract_exact_iff {a b : Bigint} (ha : a.Canonical) (hb : b.Canonical) :
    (∃ r, (bigintSubtract (some a) (some b)).run [] = .ok (some r, []) ∧ r.Canonical ∧
      r.val = a.val - b.val) ↔ SubtractExact a b := by
  obtain ⟨minusB, r, hrun, hcan, hneg, hcan', hval⟩ := bigintSubtract_run ha hb
  have hexact : r.val = a.val - b.val ↔ SubtractExact a b := by
    rw [hval, SubtractExact]
    split
    · rename_i hmin
      rw [if_pos hmin] at hneg
      obtain rfl := hcan.ext hb hneg
      exact bmod_add_mostNegative ha hb hmin
    · rename_i hmin
      rw [if_neg hmin] at hneg
      have hsum : a.val + minusB.val = a.val - b.val := by omega
      rw [hsum, ← hneg, ← fits_maxchunk_iff ha hcan]
      exact (fits_iff_bmod word_pos (maxchunk_pos ha minusB)).symm
  exact (returns_iff hrun hcan').trans hexact

/-- Which values come out: the negation and the absolute value of all but the
most negative integer of each length, and the differences described above. -/
theorem bigintNegate_exact_iff {a b : Bigint} (ha : a.Canonical) (hb : b.Canonical) :
    ((∃ r, (bigintNegate (some a)).run [] = .ok (some r, []) ∧ r.Canonical ∧ r.val = -a.val) ↔
      a.val ≠ a.mostNegative) ∧
    ((∃ r, (bigintAbs (some a)).run [] = .ok (some r, []) ∧ r.Canonical ∧
      r.val = |a.val| ∧ 0 ≤ r.val) ↔ a.val ≠ a.mostNegative) ∧
    ((∃ r, (bigintSubtract (some a) (some b)).run [] = .ok (some r, []) ∧ r.Canonical ∧
      r.val = a.val - b.val) ↔ SubtractExact a b) := by
  have hmin := mostNegative_neg a
  refine ⟨?_, ?_, bigintSubtract_exact_iff ha hb⟩
  · obtain ⟨r, hrun, hcan, hval⟩ := bigintNegate_run ha granted_nil granted_nil
    refine (returns_iff hrun hcan).trans ?_
    rw [hval]
    split <;> omega
  · obtain ⟨r, hrun, hcan, hval⟩ := bigintAbs_run ha
    rw [returns_iff hrun hcan, hval]
    split
    · omega
    · rename_i hne
      exact ⟨fun _ => hne, fun _ => ⟨rfl, abs_nonneg _⟩⟩

/-- `2 ^ 64 - 1` and its difference to 1, `2 ^ 64 - 2`. -/
theorem bigintNegate_exact_iff_max_one :
    (∃ r, (bigintNegate (some { padChunk := 0, chunks := [BitVec.allOnes 64, 0] })).run []
      = .ok (some r, []) ∧ r.Canonical ∧ r.val = -(2 ^ 64 - 1)) ∧
    ∃ r, (bigintSubtract (some { padChunk := 0, chunks := [BitVec.allOnes 64, 0] })
      (some bigintOne)).run [] = .ok (some r, []) ∧ r.Canonical ∧ r.val = 2 ^ 64 - 1 - 1 := by
  have hcan : ({ padChunk := 0, chunks := [BitVec.allOnes 64, 0] } : Bigint).Canonical := by decide
  have hone : bigintOne.Canonical := by decide
  obtain ⟨hneg, -, hsub⟩ := bigintNegate_exact_iff hcan hone
  have hmost : bigintOne.val ≠ bigintOne.mostNegative := by decide
  have hval : ({ padChunk := 0, chunks := [BitVec.allOnes 64, 0] } : Bigint).val = 2 ^ 64 - 1 := by
    decide
  have hval' : bigintOne.val = 1 := by decide
  refine ⟨hneg.mpr (by decide), hsub.mpr ?_⟩
  rw [SubtractExact, if_neg hmost, hval, hval']
  intro m _ ha _
  unfold Fits at *
  omega

/-- `LONG_MIN`, the most negative value of one word. -/
def bigintLongMin : Bigint :=
  { padChunk := BitVec.allOnes 64, chunks := [0x8000000000000000] }

/-- `LONG_MIN` is its own negation and its own absolute value, and taking it
from 0 leaves it. -/
theorem bigintNegate_longMin :
    bigintLongMin.Canonical ∧ bigintLongMin.val = -2 ^ 63 ∧
    (bigintNegate (some bigintLongMin)).run [] = .ok (some bigintLongMin, []) ∧
    (bigintAbs (some bigintLongMin)).run [] = .ok (some bigintLongMin, []) ∧
    (bigintSubtract (some { padChunk := 0, chunks := [0] }) (some bigintLongMin)).run []
      = .ok (some bigintLongMin, []) := by
  refine ⟨by decide, by decide, ?_, ?_, ?_⟩
  all_goals decide

end Jccl
