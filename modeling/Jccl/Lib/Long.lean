/-
# `Jccl.Lib.Long` — the arithmetic of `long`

The values are integers, and an operation whose value is no `long` has none.
A quotient is rounded to zero, and the remainder has the sign of the
dividend; where the quotient has no value, the remainder has none either.
-/
import Jccl.Lib.Fault

namespace Jccl

def LONG_MAX : Int := 2 ^ 63 - 1

def LONG_MIN : Int := -2 ^ 63

/-- The integers that a `long` can hold. -/
def IsLong (x : Int) : Prop := LONG_MIN ≤ x ∧ x ≤ LONG_MAX

instance (x : Int) : Decidable (IsLong x) := by
  unfold IsLong
  infer_instance

/-- The value of an expression of type `long`. -/
def checkLong (x : Int) : Outcome Int :=
  if IsLong x then .ok x else .error .overflow

def longAdd (x y : Int) : Outcome Int := checkLong (x + y)

def longSub (x y : Int) : Outcome Int := checkLong (x - y)

def longMul (x y : Int) : Outcome Int := checkLong (x * y)

def longDiv (x y : Int) : Outcome Int :=
  if y = 0 then .error .division else checkLong (x.tdiv y)

def longMod (x y : Int) : Outcome Int := do
  let _ ← longDiv x y
  return x.tmod y

/-- The conversion of a `long` to `int`, modulo `2 ^ 32`. -/
def longToInt (x : Int) : Int := x.bmod (2 ^ 32)

section Check

variable {x y : Int}

theorem checkLong_of (h : IsLong x) : checkLong x = .ok x := if_pos h

theorem checkLong_eq_ok : checkLong x = .ok y ↔ x = y ∧ IsLong x := by
  by_cases h : IsLong x
  · simp [checkLong, h]
  · simp [checkLong, h]

theorem IsLong.of_abs_le (h : |x| ≤ LONG_MAX) : IsLong x := by
  have hx := abs_le.mp h
  unfold LONG_MAX at hx
  unfold IsLong LONG_MIN LONG_MAX
  omega

theorem IsLong.abs_le_max (h : IsLong x) (hne : x ≠ LONG_MIN) : |x| ≤ LONG_MAX := by
  unfold IsLong LONG_MIN LONG_MAX at h
  unfold LONG_MIN at hne
  unfold LONG_MAX
  rw [abs_le]
  omega

/-- `x * -1` overflows for `LONG_MIN` only. -/
theorem longMul_neg_one (h : |x| ≤ LONG_MAX) : longMul x (-1) = .ok (-x) := by
  have hlong : IsLong (-x) := .of_abs_le ((abs_neg x).le.trans h)
  rw [longMul, mul_neg_one, checkLong_of hlong]

theorem abs_tdiv_le (x y : Int) : |x.tdiv y| ≤ |x| := by
  rw [Int.abs_eq_natAbs, Int.abs_eq_natAbs]
  exact_mod_cast Int.natAbs_tdiv_le_natAbs x y

/-- A quotient of a `long` by a `long` overflows for `LONG_MIN / -1` only. -/
theorem longDiv_of_abs_le (hx : |x| ≤ LONG_MAX) (hy : y ≠ 0) : longDiv x y = .ok (x.tdiv y) := by
  rw [longDiv, if_neg hy, checkLong_of (.of_abs_le ((abs_tdiv_le x y).trans hx))]

/-- The quotient `LONG_MIN / -1` is the only one that is no `long`. -/
theorem IsLong.tdiv (hx : IsLong x) (hy : y ≠ 0) (h : x = LONG_MIN → y ≠ -1) :
    IsLong (x.tdiv y) := by
  by_cases hmin : x = LONG_MIN
  · by_cases hone : y = 1
    · rwa [hone, Int.tdiv_one]
    · have hneg := h hmin
      have htwo : 2 ≤ y.natAbs := by omega
      have habs : (x.tdiv y).natAbs ≤ 2 ^ 62 := by
        rw [Int.natAbs_tdiv, hmin]
        exact Nat.div_le_of_le_mul ((Nat.mul_le_mul_right (2 ^ 62) htwo).trans' (by decide))
      unfold IsLong LONG_MIN LONG_MAX
      omega
  · exact .of_abs_le ((abs_tdiv_le x y).trans (hx.abs_le_max hmin))

theorem longDiv_of_isLong (hx : IsLong x) (hy : y ≠ 0) (h : x = LONG_MIN → y ≠ -1) :
    longDiv x y = .ok (x.tdiv y) := by
  rw [longDiv, if_neg hy, checkLong_of (hx.tdiv hy h)]

theorem longMod_of_isLong (hx : IsLong x) (hy : y ≠ 0) (h : x = LONG_MIN → y ≠ -1) :
    longMod x y = .ok (x.tmod y) := by
  rw [longMod, longDiv_of_isLong hx hy h]
  rfl

theorem longMod_of_abs_le (hx : |x| ≤ LONG_MAX) (hy : y ≠ 0) : longMod x y = .ok (x.tmod y) := by
  rw [longMod, longDiv_of_abs_le hx hy]
  rfl

theorem longMod_of_pos (hx : IsLong x) (hy : 0 < y) : longMod x y = .ok (x.tmod y) :=
  longMod_of_isLong hx hy.ne' fun _ hneg => absurd hy (hneg ▸ by decide)

end Check

section Conversion

variable {x : Int}

theorem longToInt_of (h : INT_MIN ≤ x ∧ x ≤ INT_MAX) : longToInt x = x := by
  unfold INT_MIN INT_MAX at h
  exact Int.bmod_eq_of_le_mul_two (by omega) (by omega)

theorem longToInt_bounds (x : Int) : INT_MIN ≤ longToInt x ∧ longToInt x ≤ INT_MAX := by
  have hlow := Int.le_bmod (x := x) (m := 2 ^ 32) (by decide)
  have hhigh := Int.bmod_le (x := x) (m := 2 ^ 32) (by decide)
  unfold longToInt INT_MIN INT_MAX
  omega

/-- The conversion takes no value away from zero. -/
theorem abs_longToInt_le (x : Int) : |longToInt x| ≤ |x| := by
  by_cases h : INT_MIN ≤ x ∧ x ≤ INT_MAX
  · rw [longToInt_of h]
  · have hbounds := longToInt_bounds x
    unfold INT_MIN INT_MAX at h hbounds
    rw [abs_le]
    rcases le_or_gt 0 x with hx | hx
    · rw [abs_of_nonneg hx]
      omega
    · rw [abs_of_neg hx]
      omega

end Conversion

end Jccl
