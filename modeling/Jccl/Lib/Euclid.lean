/-
# `Jccl.Lib.Euclid` — the algorithm of Euclid with signed remainders

A division that rounds to zero gives a remainder of the sign of the dividend
(`Truncated`).  Three things are said of the sequence of remainders:

  * a step leaves the greatest common divisor as it is (`Truncated.isGcd_iff`);
  * the coefficients by which two consecutive remainders are combinations of
    the numbers at the beginning stay coefficients (`Coefficients.step`);
  * they grow without cancellation, since they alternate in sign against the
    remainders (`Grows`).  What keeps them small is that the sum of the
    products with the remainders does not change.
-/
import Mathlib

namespace Jccl

section Ordered

variable {R : Type} [CommRing R] [LinearOrder R] [IsStrictOrderedRing R]

/-- `g` is the greatest common divisor of `a` and `b`. -/
structure IsGcd (g a b : R) : Prop where
  pos : 0 < g
  dvd_left : g ∣ a
  dvd_right : g ∣ b
  greatest : ∀ d, d ∣ a → d ∣ b → d ∣ g

/-- `q` and `m` are the quotient, rounded to zero, and the remainder of a
division of `a` by `b`. -/
structure Truncated (a b q m : R) : Prop where
  eq : b * q + m = a
  same : 0 ≤ b * q * m

/-- The coefficients `x` and `y` of two consecutive remainders `a` and `b`.
Of the two that the sequence begins with, one is zero and the other is one. -/
structure Grows (c a b x y : R) : Prop where
  growth : |x| * |b| + |y| * |a| = c
  sign : x * y * (a * b) ≤ 0
  one_of_zero : y = 0 → x = 1
  one_of_zero' : x = 0 → y = 1

/-- `a` and `b` are combinations of `a₀` and `b₀`. -/
structure Coefficients (a₀ b₀ a b s t sprev tprev : R) : Prop where
  prev : sprev * a₀ + tprev * b₀ = a
  cur : s * a₀ + t * b₀ = b
  left : Grows |b₀| a b sprev s
  right : Grows |a₀| a b tprev t

variable {a b q m g : R}

/-! ## Greatest common divisors -/

theorem IsGcd.of_dvd (hb : b ≠ 0) (h : b ∣ a) : IsGcd |b| a b where
  pos := abs_pos.mpr hb
  dvd_left := (abs_dvd b a).mpr h
  dvd_right := (abs_dvd b b).mpr dvd_rfl
  greatest _ _ hd := (dvd_abs _ b).mpr hd

omit [IsStrictOrderedRing R] in
theorem IsGcd.symm (h : IsGcd g a b) : IsGcd g b a :=
  ⟨h.pos, h.dvd_right, h.dvd_left, fun d hb ha => h.greatest d ha hb⟩

omit [IsStrictOrderedRing R] in
theorem Truncated.isGcd_iff (h : Truncated a b q m) : IsGcd g a b ↔ IsGcd g b m := by
  have hdvd : ∀ d, d ∣ b → (d ∣ a ↔ d ∣ m) := by
    intro d hd
    rw [← h.eq]
    exact dvd_add_right (hd.mul_right q)
  constructor
  · intro hg
    exact ⟨hg.pos, hg.dvd_right, (hdvd g hg.dvd_right).mp hg.dvd_left,
      fun d hb hm => hg.greatest d ((hdvd d hb).mpr hm) hb⟩
  · intro hg
    exact ⟨hg.pos, (hdvd g hg.dvd_left).mpr hg.dvd_right, hg.dvd_left,
      fun d ha hb => hg.greatest d hb ((hdvd d hb).mp ha)⟩

omit [IsStrictOrderedRing R] in
/-- Numbers have the same greatest common divisor with `b` if and only if
they have the same divisors in common with it. -/
theorem IsGcd.iff_dvd (h : IsGcd g b m) : IsGcd g b a ↔ ∀ d, d ∣ b → (d ∣ a ↔ d ∣ m) := by
  constructor
  · intro ha d hd
    exact ⟨fun hda => (ha.greatest d hd hda).trans h.dvd_right,
      fun hdm => (h.greatest d hd hdm).trans ha.dvd_right⟩
  · intro hdvd
    exact ⟨h.pos, h.dvd_left, (hdvd g h.dvd_left).mpr h.dvd_right,
      fun d hb ha => h.greatest d hb ((hdvd d hb).mp ha)⟩

/-! ## One step -/

theorem Truncated.abs_eq (h : Truncated a b q m) : |b| * |q| + |m| = |a| := by
  rw [← h.eq, ← abs_mul]
  rcases mul_nonneg_iff.mp h.same with ⟨hq, hm⟩ | ⟨hq, hm⟩
  · rw [abs_of_nonneg hq, abs_of_nonneg hm, abs_of_nonneg (add_nonneg hq hm)]
  · rw [abs_of_nonpos hq, abs_of_nonpos hm, abs_of_nonpos (add_nonpos hq hm), neg_add]

/-- The remainder has the sign of the dividend. -/
theorem Truncated.rem_sign (h : Truncated a b q m) (hm : m ≠ 0) : 0 < a * m := by
  have hsq : 0 < m * m := mul_self_pos.mpr hm
  rw [← h.eq, add_mul]
  exact add_pos_of_nonneg_of_pos h.same hsq

theorem Truncated.quot_sign (h : Truncated a b q m) (hb : b ≠ 0) (hq : q ≠ 0) :
    0 < q * (a * b) := by
  have hsq : 0 < b * q * (b * q) := mul_self_pos.mpr (mul_ne_zero hb hq)
  have hexpand : q * (a * b) = b * q * (b * q) + b * q * m := by
    rw [← h.eq]
    ring
  rw [hexpand]
  exact add_pos_of_pos_of_nonneg hsq h.same

variable {c x y : R}

/-- The new coefficient is the sum of what it is made of. -/
theorem Grows.abs_sub (h : Grows c a b x y) (hd : Truncated a b q m) (hb : b ≠ 0) :
    |x - y * q| = |x| + |y| * |q| := by
  have hopp : x * (y * q) ≤ 0 := by
    by_cases hq : q = 0
    · simp [hq]
    · have hpos := hd.quot_sign hb hq
      have hprod : x * (y * q) * (q * (a * b)) ≤ 0 := by
        have hfactor : x * (y * q) * (q * (a * b)) = q * q * (x * y * (a * b)) := by ring
        rw [hfactor]
        exact mul_nonpos_of_nonneg_of_nonpos (mul_self_nonneg q) h.sign
      exact nonpos_of_mul_nonpos_left hprod hpos
  rw [← abs_mul]
  rcases mul_nonpos_iff.mp hopp with ⟨hx, hy⟩ | ⟨hx, hy⟩
  · rw [abs_of_nonneg hx, abs_of_nonpos hy, abs_of_nonneg (sub_nonneg.mpr (hy.trans hx)),
      sub_eq_add_neg]
  · rw [abs_of_nonpos hx, abs_of_nonneg hy, abs_of_nonpos (sub_nonpos.mpr (hx.trans hy))]
    ring

/-- **Growth**: the sum of the products does not change. -/
theorem Grows.step (h : Grows c a b x y) (hd : Truncated a b q m) (hb : b ≠ 0) :
    Grows c b m y (x - y * q) where
  growth := by
    calc |y| * |m| + |x - y * q| * |b|
        = |x| * |b| + |y| * (|b| * |q| + |m|) := by rw [h.abs_sub hd hb]; ring
      _ = c := by rw [hd.abs_eq, h.growth]
  sign := by
    have hold : x * y * (b * m) ≤ 0 := by
      by_cases hm : m = 0
      · simp [hm]
      · have hprod : x * y * (b * m) * (a * m) ≤ 0 := by
          have hfactor : x * y * (b * m) * (a * m) = m * m * (x * y * (a * b)) := by ring
          rw [hfactor]
          exact mul_nonpos_of_nonneg_of_nonpos (mul_self_nonneg m) h.sign
        exact nonpos_of_mul_nonpos_left hprod (hd.rem_sign hm)
    have hnew : 0 ≤ y * y * (b * q * m) := mul_nonneg (mul_self_nonneg y) hd.same
    have hexpand : y * (x - y * q) * (b * m) = x * y * (b * m) - y * y * (b * q * m) := by ring
    rw [hexpand]
    exact sub_nonpos.mpr (hold.trans hnew)
  one_of_zero := by
    intro hzero
    have habs := h.abs_sub hd hb
    rw [hzero, abs_zero] at habs
    have hx : |x| = 0 :=
      le_antisymm (habs ▸ le_add_of_nonneg_right (by positivity)) (abs_nonneg x)
    exact h.one_of_zero' (abs_eq_zero.mp hx)
  one_of_zero' := by
    intro hy
    rw [hy, h.one_of_zero hy, zero_mul, sub_zero]

theorem Coefficients.start (a b : R) : Coefficients a b a b 0 1 1 0 where
  prev := by ring
  cur := by ring
  left := ⟨by simp, by simp, fun _ => rfl, fun h => absurd h one_ne_zero⟩
  right := ⟨by simp, by simp, fun h => absurd h one_ne_zero, fun _ => rfl⟩

variable {a₀ b₀ s t sprev tprev : R}

theorem Coefficients.step (h : Coefficients a₀ b₀ a b s t sprev tprev) (hd : Truncated a b q m)
    (hb : b ≠ 0) : Coefficients a₀ b₀ b m (sprev - s * q) (tprev - t * q) s t where
  prev := h.cur
  cur := by
    calc (sprev - s * q) * a₀ + (tprev - t * q) * b₀
        = sprev * a₀ + tprev * b₀ - (s * a₀ + t * b₀) * q := by ring
      _ = b * q + m - b * q := by rw [h.prev, h.cur, hd.eq]
      _ = m := add_sub_cancel_left _ _
  left := h.left.step hd hb
  right := h.right.step hd hb

end Ordered

/-! ## Integers -/

section Integers

variable {a b c x y g : Int}

theorem truncated_tdiv (a b : Int) : Truncated a b (a.tdiv b) (a.tmod b) where
  eq := Int.mul_tdiv_add_tmod a b
  same := by
    have hdiv := Int.mul_tdiv_add_tmod a b
    have habs : (a.tmod b).natAbs ≤ a.natAbs := by
      rw [Int.natAbs_tmod]
      exact Nat.mod_le _ _
    rcases le_total 0 a with ha | ha
    · have hm := Int.tmod_nonneg b ha
      exact mul_nonneg (by omega) hm
    · have hm := Int.tmod_nonneg b (Int.neg_nonneg_of_nonpos ha)
      rw [Int.neg_tmod] at hm
      exact mul_nonneg_of_nonpos_of_nonpos (by omega) (by omega)

theorem natAbs_lt_of_abs_lt (h : |a| < |b|) : a.natAbs < b.natAbs := by
  rw [Int.abs_eq_natAbs, Int.abs_eq_natAbs] at h
  exact_mod_cast h

theorem abs_tmod_lt (a : Int) (hb : b ≠ 0) : |a.tmod b| < |b| := by
  rw [Int.abs_eq_natAbs, Int.abs_eq_natAbs, Int.natAbs_tmod]
  exact_mod_cast Nat.mod_lt _ (Int.natAbs_pos.mpr hb)

/-- The products with the other remainder stay within the bound. -/
theorem Grows.abs_mul_le (h : Grows c a b x y) : |y| * |a| ≤ c := by
  rw [← h.growth]
  exact le_add_of_nonneg_left (by positivity)

theorem Grows.abs_le (h : Grows c a b x y) (ha : a ≠ 0) : |y| ≤ c :=
  (le_mul_of_one_le_right (abs_nonneg y) (Int.one_le_abs ha)).trans h.abs_mul_le

/-- A divisor that leaves a remainder halves the bound, of the coefficients
and of their products with the quotient. -/
theorem Grows.two_mul_abs_le (h : Grows c a b x y) (ha : 2 ≤ |a|) : 2 * |y| ≤ c := by
  calc 2 * |y| ≤ |a| * |y| := mul_le_mul_of_nonneg_right ha (abs_nonneg y)
    _ = |y| * |a| := mul_comm _ _
    _ ≤ c := h.abs_mul_le

theorem Grows.two_mul_abs_quotient_le (h : Grows c a b x y) (hb : 2 ≤ |b|) :
    2 * |y * a.tdiv b| ≤ c := by
  have habs := (truncated_tdiv a b).abs_eq
  have hle : |b| * |a.tdiv b| ≤ |a| := by
    rw [← habs]
    exact le_add_of_nonneg_right (abs_nonneg _)
  calc 2 * |y * a.tdiv b| ≤ |b| * |y * a.tdiv b| :=
        mul_le_mul_of_nonneg_right hb (abs_nonneg _)
    _ = |y| * (|b| * |a.tdiv b|) := by rw [abs_mul]; ring
    _ ≤ |y| * |a| := mul_le_mul_of_nonneg_left hle (abs_nonneg y)
    _ ≤ c := h.abs_mul_le

theorem two_le_abs_of_tmod (hb : b ≠ 0) (hm : a.tmod b ≠ 0) : 2 ≤ |b| := by
  have hlt := abs_tmod_lt a hb
  have hpos := abs_pos.mpr hm
  omega

/-- Of the numbers that leave the same remainder when they are divided by `n`,
`y` is the one nearest to zero. -/
def Centered (n y : Int) : Prop := -n < 2 * y ∧ 2 * y ≤ n

theorem Grows.centered (h : Grows c a b x y) (ha : 2 ≤ |a|) (hb : b ≠ 0) (hc : 0 < c) :
    Centered c y := by
  have htwo : |y| * 2 ≤ |y| * |a| := mul_le_mul_of_nonneg_left ha (abs_nonneg y)
  have hle := htwo.trans h.abs_mul_le
  refine ⟨lt_of_le_of_ne ?_ ?_, ?_⟩
  · have hneg := neg_le_abs y
    omega
  · -- then nothing is left for the other coefficient
    intro heq
    have hy : |y| * 2 = c := by
      rw [abs_of_neg (by omega)]
      omega
    have hx : |x| * |b| = 0 := by
      have hgrowth := h.growth
      have hnonneg : 0 ≤ |x| * |b| := by positivity
      omega
    have hzero := (mul_eq_zero.mp hx).resolve_right (abs_ne_zero.mpr hb)
    have hone := h.one_of_zero' (abs_eq_zero.mp hzero)
    omega
  · have hself := le_abs_self y
    omega

/-- A number is one if and only if no prime divides the two it is the
greatest common divisor of. -/
theorem IsGcd.eq_one_iff (h : IsGcd g a b) :
    g = 1 ↔ ∀ p : Nat, p.Prime → ¬ ((p : Int) ∣ a ∧ (p : Int) ∣ b) := by
  constructor
  · rintro rfl p hp ⟨ha, hb⟩
    have hone : (p : Int) ∣ 1 := h.greatest p ha hb
    exact hp.one_lt.ne' (Nat.dvd_one.mp (by exact_mod_cast hone))
  · intro hprime
    by_contra hne
    have habs : g.natAbs ≠ 1 := by
      have hpos := h.pos
      omega
    obtain ⟨p, hp, hdvd⟩ := Nat.exists_prime_and_dvd habs
    have hg : (p : Int) ∣ g := Int.natCast_dvd.mpr hdvd
    exact hprime p hp ⟨hg.trans h.dvd_left, hg.trans h.dvd_right⟩

theorem IsGcd.eq_gcd (h : IsGcd g a b) : g = Int.gcd a b := by
  refine Int.dvd_antisymm h.pos.le (Int.natCast_nonneg _) ?_ ?_
  · exact Int.dvd_coe_gcd h.dvd_left h.dvd_right
  · exact h.greatest _ (Int.gcd_dvd_left ..) (Int.gcd_dvd_right ..)

/-- The product divided by the greatest common divisor is a multiple of both
numbers, and none is closer to zero. -/
theorem IsGcd.abs_tdiv (h : IsGcd g a b) : |(a * b).tdiv g| = Int.lcm a b := by
  have hmul : g.natAbs * Int.lcm a b = (a * b).natAbs := by
    rw [h.eq_gcd, Int.natAbs_natCast, Int.gcd_mul_lcm, Int.natAbs_mul]
  rw [Int.abs_eq_natAbs, Int.natAbs_tdiv, ← hmul]
  exact congrArg Int.ofNat (Nat.mul_div_cancel_left _ (Int.natAbs_pos.mpr h.pos.ne'))

theorem isLeast_lcm (ha : a ≠ 0) (hb : b ≠ 0) :
    IsLeast {m : Int | 0 < m ∧ a ∣ m ∧ b ∣ m} (Int.lcm a b) := by
  refine ⟨⟨?_, Int.dvd_lcm_left a b, Int.dvd_lcm_right a b⟩, ?_⟩
  · exact Int.natCast_pos.mpr (Int.lcm_pos ha hb)
  · rintro m ⟨hpos, hma, hmb⟩
    exact Int.le_of_dvd hpos (Int.coe_lcm_dvd hma hmb)

theorem IsGcd.eq_one_of_isCoprime (h : IsGcd g a b) (hab : IsCoprime a b) : g = 1 := by
  have hdvd : g ∣ 1 := by
    obtain ⟨u, v, huv⟩ := hab
    rw [← huv]
    exact dvd_add (h.dvd_left.mul_left u) (h.dvd_right.mul_left v)
  exact Int.eq_one_of_dvd_one h.pos.le hdvd

end Integers

end Jccl
