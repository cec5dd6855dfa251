/-
# `Jccl.Lib.Width` — integers that are kept as narrow as they can be

An integer needs a number of words (`wordsOf`).  An arithmetic that trims all
its results to that, and works on as many words as the wider operand has, is
not that of the integers, and not that of any one width either: each operation
wraps at a width of its own.  It has no more words at the end than its
operands had, it commutes, zero is neutral and subtracting a number from
itself gives zero; but negating twice is not the same as doing nothing.
-/
import Jccl.Lib.Bits

namespace Jccl.Words

variable {w m : Nat} {u v : Int}

/-! ## How many words an integer needs -/

/-- The bits of a two's complement, the sign included. -/
def bitsOf (v : Int) : Nat := (if 0 ≤ v then v.toNat else (-v - 1).toNat).size + 1

def wordsOf (w : Nat) (v : Int) : Nat := (bitsOf v + w - 1) / w

theorem bitsOf_le_iff {n : Nat} : bitsOf v ≤ n + 1 ↔ -2 ^ n ≤ v ∧ v < 2 ^ n := by
  have hpow : ((2 ^ n : Nat) : Int) = 2 ^ n := by push_cast; rfl
  have hpos : (0 : Int) < 2 ^ n := by positivity
  rw [bitsOf, Nat.add_le_add_iff_right, Nat.size_le]
  split <;> omega

theorem wordsOf_le_iff (hw : 0 < w) (hm : 0 < m) : wordsOf w v ≤ m ↔ Fits w m v := by
  have hmul := Nat.mul_pos hw hm
  have hpred : w * m = w * m - 1 + 1 := by omega
  rw [wordsOf, Fits, ← bitsOf_le_iff, ← hpred, ← Nat.lt_succ_iff, Nat.div_lt_iff_lt_mul hw,
    Nat.succ_mul, Nat.mul_comm m w]
  omega

theorem wordsOf_pos (hw : 0 < w) (v : Int) : 0 < wordsOf w v := by
  rw [wordsOf, Nat.div_pos_iff]
  refine ⟨hw, ?_⟩
  have hpos : 0 < bitsOf v := Nat.succ_pos _
  omega

theorem fits_wordsOf (hw : 0 < w) (v : Int) : Fits w (wordsOf w v) v :=
  (wordsOf_le_iff hw (wordsOf_pos hw v)).mp le_rfl

/-- The number of words is told by the ranges. -/
theorem wordsOf_eq {n : Nat} (hw : 0 < w) (hn : 0 < n)
    (h : ∀ m, 0 < m → (n ≤ m ↔ Fits w m v)) : wordsOf w v = n := by
  refine le_antisymm ((wordsOf_le_iff hw hn).mpr ((h n hn).mp le_rfl)) ?_
  exact (h _ (wordsOf_pos hw v)).mpr (fits_wordsOf hw v)

/-! ## Operations on as many words as the operands have -/

/-- The words of the wider operand. -/
def widest (w : Nat) (u v : Int) : Nat := max (wordsOf w u) (wordsOf w v)

def wrapAdd (w : Nat) (u v : Int) : Int := Int.bmod (u + v) (2 ^ (w * widest w u v))

def wrapNeg (w : Nat) (v : Int) : Int := Int.bmod (-v) (2 ^ (w * wordsOf w v))

def wrapAbs (w : Nat) (v : Int) : Int := if v < 0 then wrapNeg w v else v

def wrapSub (w : Nat) (u v : Int) : Int := wrapAdd w u (wrapNeg w v)

theorem widest_pos (hw : 0 < w) (u v : Int) : 0 < widest w u v :=
  (wordsOf_pos hw u).trans_le (le_max_left _ _)

theorem widest_comm (u v : Int) : widest w u v = widest w v u := max_comm _ _

theorem fits_widest (hw : 0 < w) (u v : Int) : Fits w (widest w u v) u ∧ Fits w (widest w u v) v :=
  ⟨(fits_wordsOf hw u).mono (le_max_left _ _), (fits_wordsOf hw v).mono (le_max_right _ _)⟩

theorem wordsOf_wrapAdd (hw : 0 < w) (u v : Int) : wordsOf w (wrapAdd w u v) ≤ widest w u v :=
  (wordsOf_le_iff hw (widest_pos hw u v)).mpr (fits_bmod hw (widest_pos hw u v) _)

theorem wordsOf_wrapNeg (hw : 0 < w) (v : Int) : wordsOf w (wrapNeg w v) ≤ wordsOf w v :=
  (wordsOf_le_iff hw (wordsOf_pos hw v)).mpr (fits_bmod hw (wordsOf_pos hw v) _)

theorem wordsOf_wrapAbs (hw : 0 < w) (v : Int) : wordsOf w (wrapAbs w v) ≤ wordsOf w v := by
  rw [wrapAbs]
  split
  · exact wordsOf_wrapNeg hw v
  · exact le_rfl

theorem wordsOf_wrapSub (hw : 0 < w) (u v : Int) : wordsOf w (wrapSub w u v) ≤ widest w u v :=
  (wordsOf_wrapAdd hw u _).trans (max_le_max le_rfl (wordsOf_wrapNeg hw v))

theorem wordsOf_not (hw : 0 < w) (v : Int) : wordsOf w (-v - 1) ≤ wordsOf w v := by
  have hfits := fits_wordsOf hw v
  rw [wordsOf_le_iff hw (wordsOf_pos hw v)]
  unfold Fits at *
  omega

/-- Words that were worked on bit by bit spell what has the bits. -/
theorem fits_of_testBit {f : Bool → Bool → Bool} {op : BitVec w → BitVec w → BitVec w} {x : Int}
    (hw : 0 < w) (hm : 0 < m) (hu : Fits w m u) (hv : Fits w m v)
    (hop : ∀ x y j, j < w → (op x y).getLsbD j = f (x.getLsbD j) (y.getLsbD j))
    (hx : ∀ i, x.testBit i = f (u.testBit i) (v.testBit i)) : Fits w m x := by
  obtain ⟨us, hus, rfl⟩ := exists_signed hw hm hu
  obtain ⟨vs, hvs, rfl⟩ := exists_signed hw hm hv
  have hlen : (List.zipWith op us vs).length = m := by
    rw [List.length_zipWith, hus, hvs, min_self]
  have hspelled : x = signed (List.zipWith op us vs) := by
    refine eq_of_testBit fun i => ?_
    rw [hx, testBit_signed_zipWith hw (hus.trans hvs.symm)
      (List.ne_nil_of_length_pos (hus.symm ▸ hm)) hop]
  rw [hspelled, ← hlen]
  exact fits_signed hw (List.ne_nil_of_length_pos (hlen.symm ▸ hm))

theorem wordsOf_land (hw : 0 < w) (u v : Int) : wordsOf w (Int.land u v) ≤ widest w u v := by
  obtain ⟨hu, hv⟩ := fits_widest hw u v
  refine (wordsOf_le_iff hw (widest_pos hw u v)).mpr (fits_of_testBit hw (widest_pos hw u v) hu hv
    (fun x y j _ => BitVec.getLsbD_and) fun i => Int.testBit_land u v i)

theorem wordsOf_lor (hw : 0 < w) (u v : Int) : wordsOf w (Int.lor u v) ≤ widest w u v := by
  obtain ⟨hu, hv⟩ := fits_widest hw u v
  refine (wordsOf_le_iff hw (widest_pos hw u v)).mpr (fits_of_testBit hw (widest_pos hw u v) hu hv
    (fun x y j _ => BitVec.getLsbD_or) fun i => Int.testBit_lor u v i)

theorem wordsOf_xor (hw : 0 < w) (u v : Int) : wordsOf w (Int.xor u v) ≤ widest w u v := by
  obtain ⟨hu, hv⟩ := fits_widest hw u v
  refine (wordsOf_le_iff hw (widest_pos hw u v)).mpr (fits_of_testBit hw (widest_pos hw u v) hu hv
    (fun x y j _ => BitVec.getLsbD_xor) fun i => Int.testBit_lxor u v i)

/-! ## Where nothing wraps -/

theorem wrapAdd_of_fits (hw : 0 < w) (h : Fits w (widest w u v) (u + v)) :
    wrapAdd w u v = u + v := (fits_iff_bmod hw (widest_pos hw u v)).mp h

theorem wrapNeg_eq (hw : 0 < w) (v : Int) :
    wrapNeg w v = if v = -2 ^ (w * wordsOf w v - 1) then v else -v :=
  (fits_wordsOf hw v).bmod_neg hw (wordsOf_pos hw v)

theorem wrapAbs_eq (hw : 0 < w) (v : Int) :
    wrapAbs w v = if v = -2 ^ (w * wordsOf w v - 1) then v else |v| := by
  rw [wrapAbs, wrapNeg_eq hw]
  rcases lt_or_ge v 0 with hlt | hge
  · rw [if_pos hlt, abs_of_neg hlt]
  · rw [if_neg (not_lt.mpr hge), abs_of_nonneg hge, ite_self]

theorem wrapNeg_of_fits (hw : 0 < w) (h : Fits w (wordsOf w v) (-v)) : wrapNeg w v = -v :=
  (fits_iff_bmod hw (wordsOf_pos hw v)).mp h

theorem wrapAbs_of_fits (hw : 0 < w) (h : Fits w (wordsOf w v) |v|) : wrapAbs w v = |v| := by
  rw [wrapAbs]
  split
  · next hneg =>
    rw [abs_of_neg hneg] at h ⊢
    exact wrapNeg_of_fits hw h
  · next hneg => exact (abs_of_nonneg (not_lt.mp hneg)).symm

/-! ## Laws -/

theorem wrapAdd_comm (u v : Int) : wrapAdd w u v = wrapAdd w v u := by
  rw [wrapAdd, wrapAdd, widest_comm, Int.add_comm]

theorem wrapAdd_zero (hw : 0 < w) (v : Int) : wrapAdd w v 0 = v := by
  have hsum := wrapAdd_of_fits (u := v) (v := 0) hw
  rw [add_zero] at hsum
  exact hsum (fits_widest hw v 0).1

/-- A lower end is its own negation, and is taken from itself all the same. -/
theorem wrapSub_self (hw : 0 < w) (v : Int) : wrapSub w v v = 0 := by
  rw [wrapSub, wrapNeg_eq hw]
  split
  · next hv =>
    have hrange := natCast_two_pow_mul hw (wordsOf_pos hw v)
    have hsum : v + v = 0 - ((2 ^ (w * widest w v v) : Nat) : Int) := by
      rw [widest, max_self, hrange]
      omega
    rw [wrapAdd, hsum, Int.sub_bmod_right, Int.zero_bmod]
  · rw [wrapAdd, add_neg_cancel, Int.zero_bmod]

theorem wrapAbs_wrapAbs (hw : 0 < w) (v : Int) : wrapAbs w (wrapAbs w v) = wrapAbs w v := by
  by_cases hend : v = -2 ^ (w * wordsOf w v - 1)
  · have hsame : wrapAbs w v = v := (wrapAbs_eq hw v).trans (if_pos hend)
    rw [hsame, hsame]
  · have habs : wrapAbs w v = |v| := (wrapAbs_eq hw v).trans (if_neg hend)
    rw [habs]
    exact if_neg (not_lt.mpr (abs_nonneg v))

/-- The lower ends are those negative numbers that are their own negation. -/
theorem lower_end_iff (hw : 0 < w) :
    v = -2 ^ (w * wordsOf w v - 1) ↔ ∃ m, 0 < m ∧ v = -2 ^ (w * m - 1) := by
  refine ⟨fun h => ⟨wordsOf w v, wordsOf_pos hw v, h⟩, ?_⟩
  rintro ⟨m, hm, hv⟩
  have hwords : wordsOf w v = m := by
    refine wordsOf_eq hw hm fun k hk => ?_
    constructor
    · intro hmk
      refine Fits.mono ?_ hmk
      have hpow : (0 : Int) < 2 ^ (w * m - 1) := by positivity
      unfold Fits
      omega
    · intro hfits
      by_contra hlt
      have hwk : w * k + w ≤ w * m := by
        rw [← Nat.mul_succ]
        exact Nat.mul_le_mul_left w (not_le.mp hlt)
      have hkpos := Nat.mul_pos hw hk
      have hpow : (2 : Int) ^ (w * k - 1) < 2 ^ (w * m - 1) :=
        pow_lt_pow_right₀ (by decide) (by omega)
      have hlo := hfits.1
      omega
  rw [hwords]
  exact hv

/-- Negating twice is harmless but for one number of each length, which wraps
to the lower end of a shorter one. -/
theorem wrapNeg_wrapNeg (hw : 0 < w) (v : Int) :
    wrapNeg w (wrapNeg w v) = v ↔ ∀ m, 0 < m → v ≠ 2 ^ (w * m - 1) := by
  by_cases hend : v = -2 ^ (w * wordsOf w v - 1)
  · have hsame : wrapNeg w v = v := (wrapNeg_eq hw v).trans (if_pos hend)
    have hpos : (0 : Int) < 2 ^ (w * wordsOf w v - 1) := by positivity
    rw [hsame, hsame]
    refine iff_of_true rfl fun m _ hm => ?_
    have hpos' : (0 : Int) < 2 ^ (w * m - 1) := by positivity
    omega
  · have hneg : wrapNeg w v = -v := (wrapNeg_eq hw v).trans (if_neg hend)
    rw [hneg, wrapNeg_eq hw]
    split
    · next hlow =>
      rw [lower_end_iff hw] at hlow
      obtain ⟨m, hm, hv⟩ := hlow
      have hpos : (0 : Int) < 2 ^ (w * m - 1) := by positivity
      exact iff_of_false (by omega) fun hall => hall m hm (by omega)
    · next hlow =>
      rw [lower_end_iff hw] at hlow
      exact iff_of_true (neg_neg v) fun m hm hv => hlow ⟨m, hm, congrArg Neg.neg hv⟩

end Jccl.Words
