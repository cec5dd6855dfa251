/-
# `Jccl.Gcd.Defined` — when `gcd` and `extended_gcd` have a value

The division `LONG_MIN / -1` and the negation of `LONG_MIN` are the two things
that have none.  A remainder is closer to zero than the divisor, so after one
iteration the divisor is never `LONG_MIN`, and after two the dividend is not:
only the first two iterations can go wrong (`Untrapped`).

The coefficients are in the way of nothing.  A divisor that leaves a remainder
is not one of the numbers `1` and `-1`, and so it halves the bound on what
they grow to.
-/
import Jccl.Gcd.Common

namespace Jccl

/-! ## The first two iterations -/

/-- Neither an iteration that begins with `a` and `b` nor the next one goes
wrong; `convert` is what is done to the remainder. -/
structure Untrapped (convert : Int → Int) (a b : Int) : Prop where
  dividend : IsLong a
  divisor : IsLong b
  nonzero : b ≠ 0
  quotient : a = LONG_MIN → b ≠ -1
  negation : b = LONG_MIN → convert (a.tmod b) ≠ 0
  next : b = LONG_MIN → convert (a.tmod b) ≠ -1

section Untrapped

variable {convert : Int → Int} {a b c x y : Int}

theorem IsLong.abs_le_succ_max (h : IsLong x) : |x| ≤ LONG_MAX + 1 := by
  unfold IsLong LONG_MIN LONG_MAX at h
  unfold LONG_MAX
  rw [abs_le]
  omega

theorem untrapped_iff (ha : IsLong a) (hb : IsLong b) (hb0 : b ≠ 0) :
    Untrapped convert a b ↔ ¬ (a = LONG_MIN ∧ b = -1) ∧
      ¬ (b = LONG_MIN ∧ (convert (a.tmod b) = 0 ∨ convert (a.tmod b) = -1)) := by
  constructor
  · rintro ⟨-, -, -, hquot, hneg, hnext⟩
    exact ⟨fun h => hquot h.1 h.2, fun h => h.2.elim (hneg h.1) (hnext h.1)⟩
  · rintro ⟨hquot, hmin⟩
    exact ⟨ha, hb, hb0, fun h h' => hquot ⟨h, h'⟩, fun h h' => hmin ⟨h, .inl h'⟩,
      fun h h' => hmin ⟨h, .inr h'⟩⟩

theorem Untrapped.mod (h : Untrapped convert a b) : longMod a b = .ok (a.tmod b) :=
  longMod_of_isLong h.dividend h.nonzero h.quotient

theorem Untrapped.negate (h : Untrapped convert a b) (hm : convert (a.tmod b) = 0) :
    longMul b (-1) = .ok (-b) :=
  longMul_neg_one (h.divisor.abs_le_max fun hmin => h.negation hmin hm)

theorem Untrapped.step (h : Untrapped convert a b) (hconv : ∀ x, |convert x| ≤ |x|)
    (hm : convert (a.tmod b) ≠ 0) :
    Untrapped convert b (convert (a.tmod b)) ∧ (convert (a.tmod b)).natAbs < b.natAbs := by
  have hlt : |convert (a.tmod b)| < |b| := (hconv _).trans_lt (abs_tmod_lt a h.nonzero)
  have hle : |convert (a.tmod b)| ≤ LONG_MAX :=
    Int.le_of_lt_add_one (hlt.trans_le h.divisor.abs_le_succ_max)
  have hmin : convert (a.tmod b) ≠ LONG_MIN := by
    intro heq
    rw [heq] at hle
    exact absurd hle (by decide)
  exact ⟨⟨h.divisor, .of_abs_le hle, hm, h.next, fun h => absurd h hmin, fun h => absurd h hmin⟩,
    natAbs_lt_of_abs_lt hlt⟩

/-- Half of what a coefficient can grow to is a `long`, and so is its negation. -/
theorem abs_le_max_of_half (hc : IsLong c) (h : 2 * |x| ≤ |c|) : |x| ≤ LONG_MAX := by
  have hle := hc.abs_le_succ_max
  unfold LONG_MAX at hle
  unfold LONG_MAX
  omega

end Untrapped

/-! ## `gcd` -/

section Gcd

variable {a b : Int}

theorem Untrapped.gcdStep {st : Int × Int} (h : Untrapped longToInt st.1 st.2) :
    (∃ g, gcdStep st = .ok (.inl g) ∧ 0 < g) ∨
      ∃ st', gcdStep st = .ok (.inr st') ∧ Untrapped longToInt st'.1 st'.2 ∧
        st'.2.natAbs < st.2.natAbs := by
  obtain ⟨a, b⟩ := st
  by_cases hm : longToInt (a.tmod b) = 0
  · left
    by_cases hneg : b < 0
    · exact ⟨-b, by simp [Jccl.gcdStep, h.mod, hm, hneg, h.negate hm], Int.neg_pos_of_neg hneg⟩
    · have hpos : 0 < b := lt_of_le_of_ne (not_lt.mp hneg) h.nonzero.symm
      exact ⟨b, by simp [Jccl.gcdStep, h.mod, hm, hneg], hpos⟩
  · right
    obtain ⟨hnext, hlt⟩ := h.step abs_longToInt_le hm
    exact ⟨(b, longToInt (a.tmod b)), by simp [Jccl.gcdStep, h.mod, hm], hnext, hlt⟩

theorem Untrapped.gcd (h : Untrapped longToInt a b) (ha0 : a ≠ 0) : ∃ g, gcd a b = .ok g := by
  obtain ⟨g, hrun, -⟩ := loopUntil_ok (I := fun st : Int × Int => Untrapped longToInt st.1 st.2)
    (μ := fun st => st.2.natAbs) (s := (a, b)) (fun _ h => h.gcdStep) h
    (Nat.lt_succ_self b.natAbs)
  exact ⟨g, (if_neg (not_or.mpr ⟨ha0, h.nonzero⟩)).trans hrun⟩

/-- Any other run comes to a state where it goes wrong. -/
theorem gcdStep_trapped (ha : IsLong a) (hb : IsLong b) (hb0 : b ≠ 0)
    (h : ¬ Untrapped longToInt a b) :
    ∃ st, Continues gcdStep (a, b) st ∧ gcdStep st = .error .overflow := by
  rw [untrapped_iff ha hb hb0, not_and_or, not_not, not_not] at h
  rcases h with ⟨rfl, rfl⟩ | ⟨rfl, hm⟩
  · exact ⟨_, .refl, by decide⟩
  · have hmod : longMod a LONG_MIN = .ok (a.tmod LONG_MIN) :=
      longMod_of_isLong ha hb0 fun _ => by decide
    rcases hm with hm | hm
    · have hmul : longMul LONG_MIN (-1) = .error .overflow := by decide
      have hneg : LONG_MIN < 0 := by decide
      exact ⟨_, .refl, by simp [gcdStep, hmod, hm, hmul, hneg]⟩
    · have hstep : gcdStep (a, LONG_MIN) = .ok (.inr (LONG_MIN, -1)) := by
        simp [gcdStep, hmod, hm]
      exact ⟨_, .step hstep .refl, by decide⟩

/-- The remainder of a division by `LONG_MIN` is the dividend. -/
theorem tmod_min (ha : IsLong a) (hne : a ≠ LONG_MIN) : a.tmod LONG_MIN = a := by
  have habs := abs_le.mp (ha.abs_le_max hne)
  unfold LONG_MAX at habs
  rw [LONG_MIN, Int.tmod_neg]
  rcases le_total 0 a with hpos | hneg
  · exact Int.tmod_eq_of_lt hpos (by omega)
  · have hopp : (-a).tmod (2 ^ 63) = -a := Int.tmod_eq_of_lt (by omega) (by omega)
    rwa [Int.neg_tmod, neg_inj] at hopp

theorem longToInt_tmod_min (ha : IsLong a) : longToInt (a.tmod LONG_MIN) = longToInt a := by
  by_cases hmin : a = LONG_MIN
  · rw [hmin]
    decide
  · rw [tmod_min ha hmin]

theorem gcd_defined_iff (ha : IsLong a) (ha0 : a ≠ 0) (hb : IsLong b) (hb0 : b ≠ 0) :
    (∃ g, gcd a b = .ok g) ↔ Untrapped longToInt a b := by
  refine ⟨?_, fun h => h.gcd ha0⟩
  rintro ⟨g, hg⟩
  by_contra h
  obtain ⟨st, hrun, hfault⟩ := gcdStep_trapped ha hb hb0 h
  rw [gcd, if_neg (not_or.mpr ⟨ha0, hb0⟩)] at hg
  exact hrun.fault hfault _ g hg

end Gcd

/-! ## `extended_gcd` -/

section Extended

variable {a b : Int} {st : EuclidState}

/-- The states of a run that began with `a` and `b`. -/
structure Fitting (a b : Int) (st : EuclidState) : Prop where
  pair : Untrapped id st.a st.b
  left : Grows |b| st.a st.b st.sprev st.s
  right : Grows |a| st.a st.b st.tprev st.t
  left_le : |st.s| ≤ LONG_MAX
  right_le : |st.t| ≤ LONG_MAX

/-- What is done to one of the two coefficients: the product with the quotient
is a `long`, and so is the new coefficient. -/
theorem Grows.fits {c x y : Int} (h : Grows |c| a b x y) (hc : IsLong c) (hb : b ≠ 0)
    (hm : a.tmod b ≠ 0) :
    longMul y (a.tdiv b) = .ok (y * a.tdiv b) ∧
      longSub x (y * a.tdiv b) = .ok (x - y * a.tdiv b) ∧
      |x - y * a.tdiv b| ≤ LONG_MAX := by
  have htwo := two_le_abs_of_tmod hb hm
  have hproduct := abs_le_max_of_half hc (h.two_mul_abs_quotient_le htwo)
  have hnew := abs_le_max_of_half hc ((h.step (truncated_tdiv a b) hb).two_mul_abs_le htwo)
  exact ⟨checkLong_of (.of_abs_le hproduct), checkLong_of (.of_abs_le hnew), hnew⟩

theorem Fitting.step (h : Fitting a b st) (ha : IsLong a) (hb : IsLong b) :
    (∃ r, extendedGcdStep st = .ok (.inl r) ∧ 0 < r.1) ∨
      ∃ st', extendedGcdStep st = .ok (.inr st') ∧ Fitting a b st' ∧
        st'.b.natAbs < st.b.natAbs := by
  have hne := h.pair.nonzero
  by_cases hm : st.a.tmod st.b = 0
  · left
    by_cases hneg : st.b < 0
    · refine ⟨(-st.b, -st.s, -st.t), ?_, Int.neg_pos_of_neg hneg⟩
      simp [extendedGcdStep, h.pair.mod, hm, hneg, h.pair.negate hm, longMul_neg_one h.left_le,
        longMul_neg_one h.right_le]
    · refine ⟨(st.b, st.s, st.t), ?_, lt_of_le_of_ne (not_lt.mp hneg) hne.symm⟩
      simp [extendedGcdStep, h.pair.mod, hm, hneg]
  · right
    obtain ⟨hnext, hlt⟩ := h.pair.step (fun _ => le_rfl) hm
    obtain ⟨hsq, hs, hs'⟩ := h.left.fits hb hne hm
    obtain ⟨htq, ht, ht'⟩ := h.right.fits ha hne hm
    have hdiv := longDiv_of_isLong h.pair.dividend hne h.pair.quotient
    have htrunc := truncated_tdiv st.a st.b
    refine ⟨{ a := st.b, b := st.a.tmod st.b, s := st.sprev - st.s * st.a.tdiv st.b,
              t := st.tprev - st.t * st.a.tdiv st.b, sprev := st.s, tprev := st.t }, ?_, ?_, hlt⟩
    · simp [extendedGcdStep, h.pair.mod, hm, hdiv, hsq, hs, htq, ht]
    · exact ⟨hnext, h.left.step htrunc hne, h.right.step htrunc hne, hs', ht'⟩

theorem Untrapped.extendedGcd (h : Untrapped id a b) (ha0 : a ≠ 0) :
    ∃ r, extendedGcd a b = .ok r := by
  have hstart : Fitting a b { a := a, b := b, s := 0, t := 1, sprev := 1, tprev := 0 } :=
    ⟨h, (Coefficients.start a b).left, (Coefficients.start a b).right,
      (abs_zero.trans_le (by decide) : |(0 : Int)| ≤ LONG_MAX),
      (abs_one.trans_le (by decide) : |(1 : Int)| ≤ LONG_MAX)⟩
  obtain ⟨r, hrun, -⟩ := loopUntil_ok (μ := fun st : EuclidState => st.b.natAbs)
    (fun _ hst => Fitting.step hst h.dividend h.divisor) hstart (Nat.lt_succ_self b.natAbs)
  exact ⟨r, (if_neg (not_or.mpr ⟨ha0, h.nonzero⟩)).trans hrun⟩

theorem extendedGcdStep_trapped (ha : IsLong a) (hb : IsLong b) (hb0 : b ≠ 0)
    (h : ¬ Untrapped id a b) :
    ∃ st, Continues extendedGcdStep
        { a := a, b := b, s := 0, t := 1, sprev := 1, tprev := 0 } st ∧
      extendedGcdStep st = .error .overflow := by
  rw [untrapped_iff ha hb hb0, not_and_or, not_not, not_not, id_eq] at h
  rcases h with ⟨rfl, rfl⟩ | ⟨rfl, hm⟩
  · exact ⟨_, .refl, by decide⟩
  · have hmod : longMod a LONG_MIN = .ok (a.tmod LONG_MIN) :=
      longMod_of_isLong ha hb0 fun _ => by decide
    rcases hm with hm | hm
    · have hmul : longMul LONG_MIN (-1) = .error .overflow := by decide
      have hneg : LONG_MIN < 0 := by decide
      exact ⟨_, .refl, by simp [extendedGcdStep, hmod, hm, hmul, hneg]⟩
    · -- the dividend is `-1`, and its turn comes as a divisor
      have hne : a ≠ LONG_MIN := by
        rintro rfl
        exact absurd hm (by decide)
      obtain rfl : a = -1 := (tmod_min ha hne).symm.trans hm
      have hstep : extendedGcdStep
          { a := -1, b := LONG_MIN, s := 0, t := 1, sprev := 1, tprev := 0 }
          = .ok (.inr { a := LONG_MIN, b := -1, s := 1, t := 0, sprev := 0, tprev := 1 }) := by
        decide
      exact ⟨_, .step hstep .refl, by decide⟩

theorem extendedGcd_defined_iff (ha : IsLong a) (ha0 : a ≠ 0) (hb : IsLong b) (hb0 : b ≠ 0) :
    (∃ r, extendedGcd a b = .ok r) ↔ Untrapped id a b := by
  refine ⟨?_, fun h => h.extendedGcd ha0⟩
  rintro ⟨r, hr⟩
  by_contra h
  obtain ⟨st, hrun, hfault⟩ := extendedGcdStep_trapped ha hb hb0 h
  rw [extendedGcd, if_neg (not_or.mpr ⟨ha0, hb0⟩)] at hr
  exact hrun.fault hfault _ r hr

end Extended

/-! ## The numbers that go wrong -/

section Inputs

variable {a b : Int}

theorem untrapped_longToInt_iff (ha : IsLong a) (hb : IsLong b) (hb0 : b ≠ 0) :
    Untrapped longToInt a b ↔ ¬ (a = LONG_MIN ∧ b = -1) ∧
      ¬ (b = LONG_MIN ∧ (longToInt a = 0 ∨ longToInt a = -1)) := by
  rw [untrapped_iff ha hb hb0]
  refine and_congr_right fun _ => not_congr (and_congr_right fun hmin => ?_)
  rw [hmin, longToInt_tmod_min ha]

theorem untrapped_id_iff (ha : IsLong a) (ha0 : a ≠ 0) (hb : IsLong b) (hb0 : b ≠ 0) :
    Untrapped id a b ↔ ¬ (a = LONG_MIN ∧ b = -1) ∧
      ¬ (b = LONG_MIN ∧ (a = LONG_MIN ∨ a = -1)) := by
  rw [untrapped_iff ha hb hb0]
  refine and_congr_right fun _ => not_congr (and_congr_right fun hmin => ?_)
  rw [hmin, id_eq]
  by_cases hne : a = LONG_MIN
  · rw [hne]
    decide
  · rw [tmod_min ha hne]
    exact or_congr ⟨fun h => absurd h ha0, fun h => absurd h hne⟩ Iff.rfl

end Inputs

/-- **When `gcd` and `extended_gcd` have a value**, of all numbers that pass
the check for zero. -/
theorem euclid_defined_iff (a b : Int) (ha : IsLong a) (ha0 : a ≠ 0) (hb : IsLong b)
    (hb0 : b ≠ 0) :
    ((∃ g, gcd a b = .ok g) ↔ ¬ (a = LONG_MIN ∧ b = -1) ∧
      ¬ (b = LONG_MIN ∧ (longToInt a = 0 ∨ longToInt a = -1))) ∧
    ((∃ r, extendedGcd a b = .ok r) ↔ ¬ (a = LONG_MIN ∧ b = -1) ∧
      ¬ (b = LONG_MIN ∧ (a = LONG_MIN ∨ a = -1))) :=
  ⟨(gcd_defined_iff ha ha0 hb hb0).trans (untrapped_longToInt_iff ha hb hb0),
    (extendedGcd_defined_iff ha ha0 hb hb0).trans (untrapped_id_iff ha ha0 hb hb0)⟩

theorem euclid_defined_iff_min_two :
    ((∃ g, gcd LONG_MIN 2 = .ok g) ↔ ¬ (LONG_MIN = LONG_MIN ∧ (2 : Int) = -1) ∧
      ¬ (2 = LONG_MIN ∧ (longToInt LONG_MIN = 0 ∨ longToInt LONG_MIN = -1))) ∧
    ((∃ r, extendedGcd LONG_MIN 2 = .ok r) ↔ ¬ (LONG_MIN = LONG_MIN ∧ (2 : Int) = -1) ∧
      ¬ (2 = LONG_MIN ∧ (LONG_MIN = LONG_MIN ∨ LONG_MIN = -1))) :=
  euclid_defined_iff LONG_MIN 2 (by decide) (by decide) (by decide) (by decide)

/-- `LONG_MIN % -1`. -/
theorem gcd_min_neg_one : IsLong LONG_MIN ∧ IsLong (-1) ∧
    gcd LONG_MIN (-1) = .error .overflow ∧ extendedGcd LONG_MIN (-1) = .error .overflow := by
  decide

end Jccl
