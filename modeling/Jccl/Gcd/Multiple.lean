/-
# `Jccl.Gcd.Multiple` — the least common multiple of two `int`s

Of `int`s every remainder is an `int`, so `gcd` loses nothing on the way, and
the product has at most 62 bits and a sign: there is room for everything that
`lcm` does, at the ends of the range too.
-/
import Jccl.Gcd.Common

namespace Jccl

variable {a b : Int}

/-- `gcd` and `lcm` are right, and no remainder on the way is changed by its
conversion to `int`. -/
structure LcmRight (a b : Int) : Prop where
  gcd : ∃ g, gcd a b = .ok g ∧ IsGcd g a b
  kept : ∀ st, Continues gcdStep (a, b) st → longToInt (st.1.tmod st.2) = st.1.tmod st.2
  lcm : ∃ l, lcm a b = .ok l ∧ IsLeast {m : Int | 0 < m ∧ a ∣ m ∧ b ∣ m} l

theorem abs_le_of_int (h : INT_MIN ≤ a ∧ a ≤ INT_MAX) : |a| ≤ -INT_MIN := by
  unfold INT_MIN INT_MAX at *
  rw [abs_le]
  omega

/-- The state of the first iteration. -/
theorem Dividing.start (ha : |a| ≤ -INT_MIN) (hb : b ≠ 0) (hb' : |b| ≤ -INT_MIN) :
    Dividing a b (a, b) where
  dividend := abs_le_max_of_int ha
  divisor := hb
  int := hb'
  keeps _ hg := hg

theorem abs_mul_le_of_int (ha : |a| ≤ -INT_MIN) (hb : |b| ≤ -INT_MIN) : |a * b| ≤ 2 ^ 62 := by
  calc |a * b| = |a| * |b| := abs_mul a b
    _ ≤ -INT_MIN * -INT_MIN := mul_le_mul ha hb (abs_nonneg b) (by decide)
    _ = 2 ^ 62 := by decide

/-- What `lcm` does with the product and the greatest common divisor. -/
theorem lcm_of_gcd {g : Int} (ha : |a| ≤ -INT_MIN) (ha0 : a ≠ 0) (hb : |b| ≤ -INT_MIN)
    (hb0 : b ≠ 0) (hrun : gcd a b = .ok g) (hg : IsGcd g a b) :
    lcm a b = .ok (Int.lcm a b : Int) := by
  have hproduct : |a * b| ≤ LONG_MAX := (abs_mul_le_of_int ha hb).trans (by decide)
  have hmul : longMul a b = .ok (a * b) := checkLong_of (.of_abs_le hproduct)
  have hdiv := longDiv_of_abs_le hproduct hg.pos.ne'
  have hquot : |(a * b).tdiv g| ≤ LONG_MAX := (abs_tdiv_le _ _).trans hproduct
  rw [lcm, if_neg (not_or.mpr ⟨ha0, hb0⟩), hmul, Outcome.ok_bind, hrun, Outcome.ok_bind, hdiv,
    Outcome.ok_bind, ← hg.abs_tdiv]
  by_cases hneg : (a * b).tdiv g < 0
  · rw [if_pos hneg, longMul_neg_one hquot, abs_of_neg hneg]
  · rw [if_neg hneg, abs_of_nonneg (not_lt.mp hneg)]
    rfl

/-- **`lcm` is the least common multiple**, of all `int`s but zero. -/
theorem lcm_right (a b : Int) (ha : INT_MIN ≤ a ∧ a ≤ INT_MAX) (ha0 : a ≠ 0)
    (hb : INT_MIN ≤ b ∧ b ≤ INT_MAX) (hb0 : b ≠ 0) : LcmRight a b := by
  have habs := abs_le_of_int ha
  have hbabs := abs_le_of_int hb
  obtain ⟨g, hloop, hg⟩ := loopUntil_gcdStep (abs_le_max_of_int habs) hb0 hbabs
    (Nat.lt_succ_self b.natAbs)
  have hrun : gcd a b = .ok g := (if_neg (not_or.mpr ⟨ha0, hb0⟩)).trans hloop
  refine ⟨⟨g, hrun, hg⟩, fun st hst => ?_, _, lcm_of_gcd habs ha0 hbabs hb0 hrun hg,
    isLeast_lcm ha0 hb0⟩
  have hinv := hst.inv_of_step (fun _ h => Dividing.step h) (.start habs hb0 hbabs)
  exact longToInt_tmod st.1 hinv.divisor hinv.int

theorem lcm_right_min : LcmRight INT_MIN INT_MIN :=
  lcm_right INT_MIN INT_MIN (by decide) (by decide) (by decide) (by decide)

end Jccl
