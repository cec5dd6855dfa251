/-
# `Jccl.Gcd.Common` — when `gcd` is the greatest common divisor

The remainder is kept in an `int`.  After the first iteration the divisor is
an `int`, so every later remainder is one, and only the first can be changed
by the conversion: what `gcd(a, b)` returns is the greatest common divisor of
`b` and of the first remainder as an `int`.

That is the right value if and only if the conversion neither takes a divisor
that `b` has from the remainder nor gives it one (`KeepsDivisors`).
-/
import Jccl.Gcd.Defs
import Jccl.Lib.Euclid

namespace Jccl

/-! ## One iteration -/

section Step

variable {a b : Int}

theorem gcdStep_last (ha : |a| ≤ LONG_MAX) (hb : b ≠ 0) (hb' : |b| ≤ LONG_MAX)
    (h : longToInt (a.tmod b) = 0) : gcdStep (a, b) = .ok (.inl |b|) := by
  simp only [gcdStep, longMod_of_abs_le ha hb, Outcome.ok_bind, h]
  by_cases hneg : b < 0
  · simp [hneg, longMul_neg_one hb', abs_of_neg hneg]
  · simp [hneg, abs_of_nonneg (not_lt.mp hneg)]

theorem gcdStep_next (ha : |a| ≤ LONG_MAX) (hb : b ≠ 0) (h : longToInt (a.tmod b) ≠ 0) :
    gcdStep (a, b) = .ok (.inr (b, longToInt (a.tmod b))) := by
  simp [gcdStep, longMod_of_abs_le ha hb, h]

/-- A divisor that is an `int` has remainders that are. -/
theorem longToInt_tmod (a : Int) (hb : b ≠ 0) (hb' : |b| ≤ -INT_MIN) :
    longToInt (a.tmod b) = a.tmod b := by
  have hlt := abs_lt.mp ((abs_tmod_lt a hb).trans_le hb')
  apply longToInt_of
  unfold INT_MIN at *
  unfold INT_MAX
  omega

end Step

/-! ## The run -/

/-- The states after the first iteration of a run that began with `a` and
`b`, both taken as they are after it. -/
structure Dividing (a b : Int) (st : Int × Int) : Prop where
  dividend : |st.1| ≤ LONG_MAX
  divisor : st.2 ≠ 0
  int : |st.2| ≤ -INT_MIN
  keeps : ∀ g, IsGcd g st.1 st.2 → IsGcd g a b

theorem abs_le_max_of_int {b : Int} (h : |b| ≤ -INT_MIN) : |b| ≤ LONG_MAX :=
  h.trans (by decide)

theorem Dividing.step {a b : Int} {st : Int × Int} (h : Dividing a b st) :
    (∃ g, gcdStep st = .ok (.inl g) ∧ IsGcd g a b) ∨
      ∃ st', gcdStep st = .ok (.inr st') ∧ Dividing a b st' ∧ st'.2.natAbs < st.2.natAbs := by
  obtain ⟨x, y⟩ := st
  obtain ⟨hx, hy, hint, hkeeps⟩ := h
  have hconv := longToInt_tmod x hy hint
  have hlt := abs_tmod_lt x hy
  by_cases hm : x.tmod y = 0
  · refine .inl ⟨|y|, gcdStep_last hx hy (abs_le_max_of_int hint) (hconv.trans hm), ?_⟩
    exact hkeeps _ (.of_dvd hy (Int.dvd_of_tmod_eq_zero hm))
  · have hnext := gcdStep_next hx hy (hconv.symm ▸ hm)
    rw [hconv] at hnext
    refine .inr ⟨_, hnext, ⟨abs_le_max_of_int hint, hm, hlt.le.trans hint, ?_⟩,
      natAbs_lt_of_abs_lt hlt⟩
    exact fun g hg => hkeeps g ((truncated_tdiv x y).isGcd_iff.mpr hg)

theorem loopUntil_gcdStep {a b : Int} (ha : |a| ≤ LONG_MAX) (hb : b ≠ 0) (hint : |b| ≤ -INT_MIN)
    {fuel : Nat} (hfuel : b.natAbs < fuel) :
    ∃ g, loopUntil gcdStep fuel (a, b) = .ok g ∧ IsGcd g a b :=
  loopUntil_ok (I := Dividing a b) (fun _ h => h.step) ⟨ha, hb, hint, fun _ hg => hg⟩ hfuel

/-- **What `gcd` computes**: the greatest common divisor of `b` and of the
first remainder as an `int`. -/
theorem gcd_ok {a b : Int} (ha : a ≠ 0) (ha' : |a| ≤ LONG_MAX) (hb : b ≠ 0)
    (hb' : |b| ≤ LONG_MAX) :
    ∃ g, gcd a b = .ok g ∧ IsGcd g b (longToInt (a.tmod b)) := by
  rw [gcd, if_neg (not_or.mpr ⟨ha, hb⟩)]
  by_cases hm : longToInt (a.tmod b) = 0
  · rw [loopUntil_of_return (gcdStep_last ha' hb hb' hm), hm]
    exact ⟨|b|, rfl, (IsGcd.of_dvd hb (dvd_zero b)).symm⟩
  · have hlt : |longToInt (a.tmod b)| < |b| :=
      (abs_longToInt_le _).trans_lt (abs_tmod_lt a hb)
    have hint : |longToInt (a.tmod b)| ≤ -INT_MIN := by
      have hbounds := longToInt_bounds (a.tmod b)
      unfold INT_MIN INT_MAX at hbounds
      unfold INT_MIN
      rw [abs_le]
      omega
    rw [loopUntil_of_continue (gcdStep_next ha' hb hm)]
    exact loopUntil_gcdStep hb' hm hint (natAbs_lt_of_abs_lt hlt)

/-! ## When it is right -/

/-- Of the divisors of `b`, the remainder of `a` has the same ones before and
after it is converted to `int`. -/
def KeepsDivisors (a b : Int) : Prop :=
  ∀ d, d ∣ b → (d ∣ a.tmod b ↔ d ∣ longToInt (a.tmod b))

theorem keepsDivisors_of_int {a b : Int} (h : INT_MIN ≤ a.tmod b ∧ a.tmod b ≤ INT_MAX) :
    KeepsDivisors a b := by
  intro d _
  rw [longToInt_of h]

/-- `gcd` returns the greatest common divisor, and `arecoprime` is true if
and only if no prime divides both numbers. -/
structure GcdRight (a b : Int) : Prop where
  gcd : ∃ g, gcd a b = .ok g ∧ IsGcd g a b
  coprime : ∃ c, arecoprime a b = .ok c ∧
    (c ≠ 0 ↔ ∀ p : Nat, p.Prime → ¬ ((p : Int) ∣ a ∧ (p : Int) ∣ b))

theorem arecoprime_ok {a b g : Int} (h : gcd a b = .ok g) :
    arecoprime a b = .ok (if g = 1 then 1 else 0) := by
  rw [arecoprime, h]
  rfl

theorem gcdRight_of_isGcd {a b g : Int} (h : gcd a b = .ok g) (hg : IsGcd g a b) :
    GcdRight a b where
  gcd := ⟨g, h, hg⟩
  coprime := by
    refine ⟨_, arecoprime_ok h, ?_⟩
    rw [← hg.eq_one_iff]
    split <;> simp_all

/-- **When `gcd` is right**, of all numbers that have an absolute value. -/
theorem gcdRight_iff (a b : Int) (ha : IsLong a ∧ a ≠ LONG_MIN) (ha0 : a ≠ 0)
    (hb : IsLong b ∧ b ≠ LONG_MIN) (hb0 : b ≠ 0) : GcdRight a b ↔ KeepsDivisors a b := by
  obtain ⟨g, hrun, hg⟩ := gcd_ok ha0 (ha.1.abs_le_max ha.2) hb0 (hb.1.abs_le_max hb.2)
  have hrem : ∀ x, IsGcd x a b ↔ IsGcd x b (a.tmod b) := fun _ =>
    (truncated_tdiv a b).isGcd_iff
  constructor
  · intro h
    obtain ⟨g', hrun', hg'⟩ := h.gcd
    obtain rfl : g = g' := Except.ok.inj (hrun.symm.trans hrun')
    exact hg.iff_dvd.mp ((hrem g).mp hg')
  · intro h
    exact gcdRight_of_isGcd hrun ((hrem g).mpr (hg.iff_dvd.mpr h))

theorem gcdRight_iff_neg : GcdRight (-92928) 123552 :=
  (gcdRight_iff (-92928) 123552 (by decide) (by decide) (by decide) (by decide)).mpr
    (keepsDivisors_of_int (by decide))

/-- The remainder is `2 ^ 32`, of which nothing is left. -/
theorem gcdRight_lostRemainder :
    gcd (2 ^ 32) (3 * 2 ^ 32) = .ok (3 * 2 ^ 32) ∧ ¬ GcdRight (2 ^ 32) (3 * 2 ^ 32) := by
  have hrun : gcd (2 ^ 32) (3 * 2 ^ 32) = .ok (3 * 2 ^ 32) := by decide
  refine ⟨hrun, fun h => ?_⟩
  obtain ⟨g, hg, hgcd⟩ := h.gcd
  obtain rfl : 3 * 2 ^ 32 = g := Except.ok.inj (hrun.symm.trans hg)
  exact absurd hgcd.dvd_left (by decide)

end Jccl
