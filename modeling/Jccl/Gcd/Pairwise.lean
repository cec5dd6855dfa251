/-
# `Jccl.Gcd.Pairwise` — the moduli that `chinese_remainder` rejects

What `arecoprime_pairwise` answers is not looked at.  A system is rejected in
the loop that computes the inverses, where the product of all the other moduli
has to have the greatest common divisor one with each of them.  That comes to
the same: a number that a modulus shares with the product of the others it
shares with one of them.
-/
import Jccl.Gcd.Chinese

namespace Jccl

open Finset

/-- A system whose moduli are positive, with a product that a `long` can hold. -/
structure IsPositiveSystem (n : Nat) (a m : Nat → Int) : Prop where
  nonempty : 0 < n
  count : n ≤ INT_MAX
  residue : ∀ i < n, a i ≠ 0 ∧ IsLong (a i)
  modulus : ∀ i < n, 0 < m i
  product : ∏ i ∈ range n, m i ≤ LONG_MAX

/-- The moduli at two positions have a factor in common. -/
def ShareFactor (n : Nat) (m : Nat → Int) : Prop :=
  ∃ i < n, ∃ j < n, i ≠ j ∧ ∃ d > 1, d ∣ m i ∧ d ∣ m j

/-- The loop that computes the inverses ends in `cells`; in nothing, if it is
left for the label `error`. -/
def ComputesInverses (n : Nat) (m : Nat → Int) (cells : Option (List Int)) : Prop :=
  ∃ sm M, moduliProduct (arrayOf n m) n = .ok sm ∧ cofactors (arrayOf n m) sm n = .ok M ∧
    inverses (arrayOf n m) M n = .ok cells

section Moduli

variable {n : Nat} {a m : Nat → Int}

theorem IsPositiveSystem.modulus_le (h : IsPositiveSystem n a m) :
    ∀ i < n, m i ≤ LONG_MAX := fun _ hi =>
  le_trans (Int.le_of_dvd (prod_range_pos h.modulus) (dvd_prod_of_mem m (mem_range.mpr hi)))
    h.product

theorem not_isCoprime_iff_dvd {x y : Int} (hx : 0 < x) :
    ¬ IsCoprime x y ↔ ∃ d > 1, d ∣ x ∧ d ∣ y := by
  constructor
  · intro h
    rw [Int.isCoprime_iff_gcd_eq_one] at h
    have hpos : 0 < Int.gcd x y := Int.gcd_pos_of_ne_zero_left y hx.ne'
    exact ⟨Int.gcd x y, by omega, Int.gcd_dvd_left .., Int.gcd_dvd_right ..⟩
  · rintro ⟨d, hd, hdx, hdy⟩ hcoprime
    have hone := Int.isUnit_iff.mp (hcoprime.isUnit_of_dvd' hdx hdy)
    omega

theorem shareFactor_iff (hm : ∀ i < n, 0 < m i) :
    ShareFactor n m ↔ ∃ i < n, ¬ IsCoprime (cofactor (range n) m i) (m i) := by
  have hpairs := exists_not_isCoprime_cofactor_iff (s := range n) (m := m)
  simp only [mem_range] at hpairs
  rw [hpairs]
  constructor
  · rintro ⟨i, hi, j, hj, hne, hdvd⟩
    exact ⟨i, hi, j, hj, hne, (not_isCoprime_iff_dvd (hm i hi)).mpr hdvd⟩
  · rintro ⟨i, hi, j, hj, hne, hij⟩
    exact ⟨i, hi, j, hj, hne, (not_isCoprime_iff_dvd (hm i hi)).mp hij⟩

/-- What the check of one modulus finds. -/
theorem extendedGcd_cofactor_eq_one (hm : ∀ i < n, 0 < m i)
    (hmax : ∏ i ∈ range n, m i ≤ LONG_MAX) {k : Nat} (hk : k < n) :
    ∃ g s t, extendedGcd (cofactor (range n) m k) (m k) = .ok (g, s, t) ∧
      (g = 1 ↔ IsCoprime (cofactor (range n) m k) (m k)) := by
  obtain ⟨g, s, t, hrun, hbezout, -⟩ := extendedGcd_cofactor hm hmax hk
  refine ⟨g, s, t, hrun, ?_, hbezout.isGcd.eq_one_of_isCoprime⟩
  rintro rfl
  exact ⟨s, t, hbezout.combination⟩

/-- The loop is left at the first modulus that fails the check. -/
theorem inverses_eq_none_iff (hm : ∀ i < n, 0 < m i) (hmax : ∏ i ∈ range n, m i ≤ LONG_MAX) :
    ∃ cells, inverses (arrayOf n m) (arrayOf n (cofactor (range n) m)) n = .ok cells ∧
      (cells = none ↔ ∃ i < n, ¬ IsCoprime (cofactor (range n) m i) (m i)) := by
  refine forLoop_ok (I := fun k cells =>
    cells = none ↔ ∃ i < k, ¬ IsCoprime (cofactor (range n) m i) (m i)) (by simp) ?_
  intro k cells hk hcells
  cases cells with
  | none =>
      obtain ⟨i, hi, hfail⟩ := hcells.mp rfl
      exact ⟨none, rfl, fun _ => ⟨i, hi.trans (Nat.lt_succ_self k), hfail⟩, fun _ => rfl⟩
  | some y =>
      have hbefore : ∀ i < k, IsCoprime (cofactor (range n) m i) (m i) := by
        simpa using hcells
      obtain ⟨g, s, t, hrun, hg⟩ := extendedGcd_cofactor_eq_one hm hmax hk
      refine ⟨if g ≠ 1 then none else some (y ++ [s]), ?_, ?_⟩
      · simp only [readAt_arrayOf hk, Outcome.ok_bind, hrun]
        rfl
      · by_cases hone : g = 1
        · have hall := Nat.forall_lt_succ_right.mpr ⟨hbefore, hg.mp hone⟩
          simpa [hone] using hall
        · simp only [hone, ne_eq, not_false_eq_true, if_true, true_iff]
          exact ⟨k, Nat.lt_succ_self k, fun h => hone (hg.mpr h)⟩

theorem IsPositiveSystem.computesInverses (h : IsPositiveSystem n a m) :
    ∃ cells, ComputesInverses n m cells ∧ (cells = none ↔ ShareFactor n m) := by
  obtain ⟨cells, hrun, hcells⟩ := inverses_eq_none_iff h.modulus h.product
  rw [← shareFactor_iff h.modulus] at hcells
  exact ⟨cells, ⟨_, _, (moduliProduct_eq_ok h.modulus).mpr ⟨rfl, h.product⟩,
    cofactors_ok h.modulus h.product, hrun⟩, hcells⟩

theorem ComputesInverses.unique {c c' : Option (List Int)} (h : ComputesInverses n m c)
    (h' : ComputesInverses n m c') : c = c' := by
  obtain ⟨sm, M, hsm, hM, hc⟩ := h
  obtain ⟨sm', M', hsm', hM', hc'⟩ := h'
  cases hsm.symm.trans hsm'
  cases hM.symm.trans hM'
  exact Except.ok.inj (hc.symm.trans hc')

/-- The product of the moduli, which comes before the inverses. -/
theorem IsPositiveSystem.moduliProduct_ok (h : IsPositiveSystem n a m) :
    moduliProduct (arrayOf n m) n = .ok (∏ i ∈ range n, m i) :=
  (moduliProduct_eq_ok h.modulus).mpr ⟨rfl, h.product⟩

theorem IsPositiveSystem.isSystem (h : IsPositiveSystem n a m) (hno : ¬ ShareFactor n m) :
    IsSystem n a m where
  nonempty := h.nonempty
  count := h.count
  residue := h.residue
  modulus i hi := ⟨h.modulus i hi, .of_pos (h.modulus i hi) (h.modulus_le i hi)⟩
  coprime i hi j hj hne := by
    by_contra hcoprime
    exact hno ⟨i, hi, j, hj, hne, (not_isCoprime_iff_dvd (h.modulus i hi)).mp hcoprime⟩

/-- A shared factor makes the loop of the inverses return the error. -/
theorem IsPositiveSystem.solveCongruences_edom (h : IsPositiveSystem n a m)
    (hshare : ShareFactor n m) : solveCongruences (arrayOf n a) (arrayOf n m) n = .ok (-EDOM) := by
  obtain ⟨cells, hrun, hcells⟩ := inverses_eq_none_iff h.modulus h.product
  obtain rfl := hcells.mpr ((shareFactor_iff h.modulus).mp hshare)
  rw [solveCongruences, h.moduliProduct_ok, Outcome.ok_bind, cofactors_ok h.modulus h.product,
    Outcome.ok_bind, hrun]
  rfl

/-- Without one the call goes on to the sum. -/
theorem IsPositiveSystem.solveCongruences_sum (h : IsPositiveSystem n a m)
    (hno : ¬ ShareFactor n m) :
    solveCongruences (arrayOf n a) (arrayOf n m) n =
      sumOfTerms (arrayOf n a) (arrayOf n (cofactor (range n) m))
        (arrayOf n fun i => centeredInverse (cofactor (range n) m i) (m i)) n >>= fun sum => do
          let res ← longMod sum (∏ i ∈ range n, m i)
          if res < 0 then longAdd res (∏ i ∈ range n, m i) else return res := by
  rw [solveCongruences, h.moduliProduct_ok, Outcome.ok_bind, cofactors_ok h.modulus h.product,
    Outcome.ok_bind, inverses_ok (h.isSystem hno).coprimeModuli h.product, Outcome.ok_bind]

theorem IsPositiveSystem.run_eq (h : IsPositiveSystem n a m) :
    (chineseRemainder (some (arrayOf n a)) (some (arrayOf n m)) n).run []
      = solveCongruences (arrayOf n a) (arrayOf n m) n >>= fun x => .ok (longToInt x, []) :=
  chineseRemainder_run h.nonempty (fun i hi => (h.residue i hi).1) fun i hi =>
    ⟨(h.modulus i hi).ne', (abs_of_pos (h.modulus i hi)).trans_le (h.modulus_le i hi)⟩

end Moduli

/-- **What the check decides**: the call leaves with `-EDOM` if and only if
the moduli at two positions have a factor in common, which is when
`extended_gcd` does not find one for a modulus and the product of the others.
Otherwise the call goes on to the sum over all the inverses. -/
theorem chineseRemainder_edom_iff (n : Nat) (a m : Nat → Int) (h : IsPositiveSystem n a m) :
    (solveCongruences (arrayOf n a) (arrayOf n m) n = .ok (-EDOM) ↔ ShareFactor n m) ∧
    (ShareFactor n m ↔
      ∃ i < n, ∃ g s t, extendedGcd (cofactor (range n) m i) (m i) = .ok (g, s, t) ∧ g ≠ 1) ∧
    (ShareFactor n m → Returns n a m (-EDOM)) ∧
    (¬ ShareFactor n m →
      (chineseRemainder (some (arrayOf n a)) (some (arrayOf n m)) n).run [] = (do
        let sum ← sumOfTerms (arrayOf n a) (arrayOf n (cofactor (range n) m))
          (arrayOf n fun i => centeredInverse (cofactor (range n) m i) (m i)) n
        let res ← longMod sum (∏ i ∈ range n, m i)
        if res < 0 then longAdd res (∏ i ∈ range n, m i) else return res) >>= fun res =>
          .ok (longToInt res, [])) := by
  refine ⟨⟨fun hedom => ?_, h.solveCongruences_edom⟩, ?_, fun hshare => ?_, fun hno => ?_⟩
  · -- without a shared factor the result is not negative
    by_contra hno
    obtain ⟨-, hvalue⟩ := (solveCongruences_eq_ok (h.isSystem hno)).mp hedom
    have hnonneg := Int.emod_nonneg (∑ i ∈ range n, term n a m i) (prod_range_pos h.modulus).ne'
    rw [← hvalue] at hnonneg
    exact absurd hnonneg (by decide)
  · rw [shareFactor_iff h.modulus]
    constructor
    · rintro ⟨i, hi, hfail⟩
      obtain ⟨g, s, t, hgcd, hg⟩ := extendedGcd_cofactor_eq_one h.modulus h.product hi
      exact ⟨i, hi, g, s, t, hgcd, fun hone => hfail (hg.mp hone)⟩
    · rintro ⟨i, hi, g, s, t, hgcd, hne⟩
      obtain ⟨g', s', t', hgcd', hg⟩ := extendedGcd_cofactor_eq_one h.modulus h.product hi
      cases hgcd.symm.trans hgcd'
      exact ⟨i, hi, fun hcoprime => hne (hg.mpr hcoprime)⟩
  · rw [Returns, h.run_eq, h.solveCongruences_edom hshare]
    rfl
  · rw [h.run_eq, h.solveCongruences_sum hno]

/-- A modulus of one is never the reason, and the two fours are. -/
theorem isPositiveSystem_repeated :
    IsPositiveSystem 4 (fun i => i + 1) (fun i => [1, 4, 1, 4].getD i 0) where
  nonempty := by decide
  count := by decide
  residue := by decide
  modulus := by decide
  product := by decide

theorem chineseRemainder_edom_iff_repeated :
    Returns 4 (fun i => i + 1) (fun i => [1, 4, 1, 4].getD i 0) (-EDOM) := by
  have h := chineseRemainder_edom_iff 4 (fun i => i + 1) (fun i => [1, 4, 1, 4].getD i 0)
    isPositiveSystem_repeated
  exact h.2.2.1 ⟨1, by decide, 3, by decide, by decide, 4, by decide, by decide⟩

example : Returns 3 (fun i => i + 1) (fun i => [1, 4, 1].getD i 0) 2 := by
  unfold Returns
  decide

end Jccl
