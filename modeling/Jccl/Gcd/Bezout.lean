/-
# `Jccl.Gcd.Bezout` — the coefficients that `extended_gcd` computes

The products of the coefficients with the remainders add up to the number
that the run began with (`Grows`), so no coefficient, and no product of one
with a quotient, is further from zero than that number.  `LONG_MIN` apart,
the run therefore has a value, and the coefficients are bounded in the end as
they are on the way.
-/
import Jccl.Gcd.Defs
import Jccl.Lib.Euclid

namespace Jccl

/-! ## One iteration -/

section Step

variable {a b c x y : Int}

/-- A coefficient is multiplied by the quotient. -/
theorem longMul_quotient (h : Grows c a b x y) (hc : c ≤ LONG_MAX) :
    longMul y (a.tdiv b) = .ok (y * a.tdiv b) := by
  have hle : |y * a.tdiv b| ≤ c := by
    calc |y * a.tdiv b| = |y| * |a.tdiv b| := abs_mul y _
      _ ≤ |y| * |a| := mul_le_mul_of_nonneg_left (abs_tdiv_le a b) (abs_nonneg y)
      _ ≤ c := h.abs_mul_le
  exact checkLong_of (.of_abs_le (hle.trans hc))

/-- The product is taken off the coefficient before it. -/
theorem longSub_quotient (h : Grows c a b x y) (hb : b ≠ 0) (hc : c ≤ LONG_MAX) :
    longSub x (y * a.tdiv b) = .ok (x - y * a.tdiv b) :=
  checkLong_of (.of_abs_le (((h.step (truncated_tdiv a b) hb).abs_le hb).trans hc))

end Step

/-- The states of a run that began with `a` and `b`.  The signs of the
numbers, and how they compare, are kept for the place of the coefficients. -/
structure Extending (a b : Int) (st : EuclidState) : Prop where
  coefficients : Coefficients a b st.a st.b st.s st.t st.sprev st.tprev
  dividend : st.a ≠ 0
  dividend_le : |st.a| ≤ LONG_MAX
  divisor : st.b ≠ 0
  divisor_le : |st.b| ≤ LONG_MAX
  keeps : ∀ g, IsGcd g st.a st.b → IsGcd g a b
  smaller : st.s = 0 ∨ |st.b| < |st.a|
  pos : 0 < a → 0 < b → 0 < st.a ∧ 0 < st.b

/-- What is returned for `a` and `b`, with the coefficients. -/
structure Bezout (a b g s t : Int) : Prop where
  isGcd : IsGcd g a b
  combination : s * a + t * b = g
  abs_left : |s| ≤ |b|
  abs_right : |t| ≤ |a|

section Run

variable {a b : Int} {st : EuclidState}

theorem Extending.start (ha : a ≠ 0) (ha' : |a| ≤ LONG_MAX) (hb : b ≠ 0) (hb' : |b| ≤ LONG_MAX) :
    Extending a b { a := a, b := b, s := 0, t := 1, sprev := 1, tprev := 0 } where
  coefficients := .start a b
  dividend := ha
  dividend_le := ha'
  divisor := hb
  divisor_le := hb'
  keeps _ hg := hg
  smaller := .inl rfl
  pos ha hb := ⟨ha, hb⟩

theorem Extending.isGcd (h : Extending a b st) (hm : st.a.tmod st.b = 0) :
    IsGcd |st.b| a b :=
  h.keeps _ (.of_dvd h.divisor (Int.dvd_of_tmod_eq_zero hm))

/-- With the last divisor made positive the coefficients are those of the
greatest common divisor. -/
theorem Extending.bezout (h : Extending a b st) (hm : st.a.tmod st.b = 0) :
    if st.b < 0 then Bezout a b (-st.b) (-st.s) (-st.t) else Bezout a b st.b st.s st.t := by
  have hgcd := h.isGcd hm
  have hcur := h.coefficients.cur
  have hs := h.coefficients.left.abs_le h.dividend
  have ht := h.coefficients.right.abs_le h.dividend
  split
  · next hneg =>
    rw [abs_of_neg hneg] at hgcd
    refine ⟨hgcd, ?_, (abs_neg st.s).trans_le hs, (abs_neg st.t).trans_le ht⟩
    rw [← hcur]
    ring
  · next hpos =>
    rw [abs_of_nonneg (not_lt.mp hpos)] at hgcd
    exact ⟨hgcd, hcur, hs, ht⟩

theorem Extending.centered (h : Extending a b st) (hb : 0 < b) : Centered b st.s := by
  have hleft := h.coefficients.left
  rw [abs_of_pos hb] at hleft
  rcases h.smaller with hs | hlt
  · rw [Centered, hs]
    omega
  · have hpos := abs_pos.mpr h.divisor
    have htwo : 2 ≤ |st.a| := by omega
    exact hleft.centered htwo h.divisor hb

/-- The last iteration. -/
theorem Extending.finish (h : Extending a b st) (ha : |a| ≤ LONG_MAX) (hb : |b| ≤ LONG_MAX)
    (hm : st.a.tmod st.b = 0) :
    ∃ r, extendedGcdStep st = .ok (.inl r) ∧ Bezout a b r.1 r.2.1 r.2.2 ∧
      (0 < a → 0 < b → Centered b r.2.1) := by
  have hresult := h.bezout hm
  have hmod := longMod_of_abs_le h.dividend_le h.divisor
  by_cases hneg : st.b < 0
  · rw [if_pos hneg] at hresult
    have hs := longMul_neg_one ((h.coefficients.left.abs_le h.dividend).trans hb)
    have ht := longMul_neg_one ((h.coefficients.right.abs_le h.dividend).trans ha)
    refine ⟨(-st.b, -st.s, -st.t), ?_, hresult, fun ha hb => ?_⟩
    · simp [extendedGcdStep, hmod, hm, hneg, longMul_neg_one h.divisor_le, hs, ht]
    · exact absurd (h.pos ha hb).2 hneg.not_gt
  · rw [if_neg hneg] at hresult
    refine ⟨(st.b, st.s, st.t), ?_, hresult, fun _ hb => h.centered hb⟩
    simp [extendedGcdStep, hmod, hm, hneg]

/-- Any other one. -/
theorem Extending.next (h : Extending a b st) (ha : |a| ≤ LONG_MAX) (hb : |b| ≤ LONG_MAX)
    (hm : st.a.tmod st.b ≠ 0) :
    ∃ st', extendedGcdStep st = .ok (.inr st') ∧ Extending a b st' ∧
      st'.b.natAbs < st.b.natAbs := by
  have hmod := longMod_of_abs_le h.dividend_le h.divisor
  have hdiv := longDiv_of_abs_le h.dividend_le h.divisor
  have htrunc := truncated_tdiv st.a st.b
  have hlt := abs_tmod_lt st.a h.divisor
  have hsq := longMul_quotient (b := st.b) h.coefficients.left hb
  have hs := longSub_quotient h.coefficients.left h.divisor hb
  have htq := longMul_quotient (b := st.b) h.coefficients.right ha
  have ht := longSub_quotient h.coefficients.right h.divisor ha
  refine ⟨{ a := st.b, b := st.a.tmod st.b, s := st.sprev - st.s * st.a.tdiv st.b,
            t := st.tprev - st.t * st.a.tdiv st.b, sprev := st.s, tprev := st.t },
    ?_, ?_, natAbs_lt_of_abs_lt hlt⟩
  · simp [extendedGcdStep, hmod, hm, hdiv, hsq, hs, htq, ht]
  · refine ⟨h.coefficients.step htrunc h.divisor, h.divisor, h.divisor_le, hm,
      hlt.le.trans h.divisor_le, fun g hg => h.keeps g (htrunc.isGcd_iff.mpr hg), .inr hlt, ?_⟩
    intro ha hb
    obtain ⟨hapos, hbpos⟩ := h.pos ha hb
    exact ⟨hbpos, lt_of_le_of_ne (Int.tmod_nonneg _ hapos.le) (Ne.symm hm)⟩

theorem Extending.step (h : Extending a b st) (ha : |a| ≤ LONG_MAX) (hb : |b| ≤ LONG_MAX) :
    (∃ r, extendedGcdStep st = .ok (.inl r) ∧ Bezout a b r.1 r.2.1 r.2.2 ∧
        (0 < a → 0 < b → Centered b r.2.1)) ∨
      ∃ st', extendedGcdStep st = .ok (.inr st') ∧ Extending a b st' ∧
        st'.b.natAbs < st.b.natAbs := by
  by_cases hm : st.a.tmod st.b = 0
  · exact .inl (h.finish ha hb hm)
  · exact .inr (h.next ha hb hm)

end Run

theorem extendedGcd_ok {a b : Int} (ha : a ≠ 0) (ha' : |a| ≤ LONG_MAX) (hb : b ≠ 0)
    (hb' : |b| ≤ LONG_MAX) :
    ∃ g s t, extendedGcd a b = .ok (g, s, t) ∧ Bezout a b g s t ∧
      (0 < a → 0 < b → Centered b s) := by
  rw [extendedGcd, if_neg (not_or.mpr ⟨ha, hb⟩)]
  obtain ⟨⟨g, s, t⟩, hrun, hr⟩ := loopUntil_ok (I := Extending a b)
    (fun _ h => h.step ha' hb') (.start ha ha' hb hb') (Nat.lt_succ_self b.natAbs)
  exact ⟨g, s, t, hrun, hr⟩

/-- **`extended_gcd` keeps its promise**, and no operation on the way leaves
the range of `long`. -/
theorem extendedGcd_bezout (a b : Int) (ha : IsLong a ∧ a ≠ LONG_MIN) (ha0 : a ≠ 0)
    (hb : IsLong b ∧ b ≠ LONG_MIN) (hb0 : b ≠ 0) :
    ∃ g s t, extendedGcd a b = .ok (g, s, t) ∧ Bezout a b g s t := by
  obtain ⟨g, s, t, hrun, hr, -⟩ :=
    extendedGcd_ok ha0 (ha.1.abs_le_max ha.2) hb0 (hb.1.abs_le_max hb.2)
  exact ⟨g, s, t, hrun, hr⟩

theorem extendedGcd_bezout_neg :
    ∃ g s t, extendedGcd (-92928) 123552 = .ok (g, s, t) ∧ Bezout (-92928) 123552 g s t :=
  extendedGcd_bezout (-92928) 123552 (by decide) (by decide) (by decide) (by decide)

example : extendedGcd (-92928) 123552 = .ok (1056, -4, -3) := by decide

end Jccl
