/-
# `Jccl.Gcd.Coprime` — the answer that `chinese_remainder` does not look at

`arecoprime_pairwise` goes through the pairs of positions and rejects a pair
of equal numbers before it asks for their greatest common divisor.  So the
only pair it rejects that has no factor in common is a one and a one; a zero
is coprime to nothing, since `gcd` has no value for it.

The header has `chinese_remainder` reject a system when that answer is zero.
The code does not look at it, and rejects the systems whose moduli share a
factor in its loop over the inverses: these are the same ones, up to the ones.
-/
import Jccl.Gcd.Pairwise

namespace Jccl

section Pairs

/-- The values that `gcd` has an absolute value of, and for the pair of which
it is right. -/
structure DividesWell (x y : Int) : Prop where
  left : |x| ≤ LONG_MAX
  right : |y| ≤ LONG_MAX
  keeps : y ≠ 0 → KeepsDivisors x y

/-- A pair that is accepted. -/
def CoprimePair (x y : Int) : Prop := x ≠ y ∧ x ≠ 0 ∧ y ≠ 0 ∧ IsCoprime x y

variable {x y : Int} {l : List Int}

theorem arecoprime_answers (h : DividesWell x y) :
    ∃ c, arecoprime x y = .ok c ∧ (c = 1 ∨ c = 0) ∧
      (c = 1 ↔ x ≠ 0 ∧ y ≠ 0 ∧ IsCoprime x y) := by
  by_cases hzero : x = 0 ∨ y = 0
  · have hgcd : gcd x y = .ok (-EDOM) := if_pos hzero
    refine ⟨0, arecoprime_ok hgcd, Or.inr rfl, ?_⟩
    refine iff_of_false (by decide) ?_
    rintro ⟨hx, hy, -⟩
    exact hzero.elim hx hy
  · obtain ⟨hx, hy⟩ := not_or.mp hzero
    obtain ⟨g, hgcd, hg⟩ := gcd_ok hx h.left hy h.right
    have hright : IsGcd g x y :=
      (truncated_tdiv x y).isGcd_iff.mpr (hg.iff_dvd.mpr (h.keeps hy))
    refine ⟨_, arecoprime_ok hgcd, ite_eq_or_eq _ _ _, ?_⟩
    have hone : g = 1 ↔ IsCoprime x y := by
      constructor
      · intro hg1
        rw [Int.isCoprime_iff_gcd_eq_one]
        exact_mod_cast hright.eq_gcd.symm.trans hg1
      · exact hright.eq_one_of_isCoprime
    rw [← hone]
    by_cases hg1 : g = 1
    · rw [if_pos hg1]
      exact iff_of_true rfl ⟨hx, hy, hg1⟩
    · rw [if_neg hg1]
      exact iff_of_false (by decide) fun h => hg1 h.2.2

/-- The loop over `p` returns at the first pair that is not accepted. -/
theorem sharesFactor_answers (h : ∀ p ∈ l, DividesWell x p) :
    ∃ c, sharesFactor x l = .ok c ∧ (c = false ↔ ∀ p ∈ l, CoprimePair x p) := by
  induction l with
  | nil => exact ⟨false, rfl, iff_of_true rfl fun _ hp => absurd hp List.not_mem_nil⟩
  | cons p rest ih =>
      obtain ⟨hp, hrest⟩ := List.forall_mem_cons.mp h
      rw [sharesFactor]
      by_cases heq : x = p
      · rw [if_pos heq]
        refine ⟨true, rfl, iff_of_false (by decide) ?_⟩
        intro hall
        exact (hall p List.mem_cons_self).1 heq
      · obtain ⟨c, hc, hbit, hanswer⟩ := arecoprime_answers hp
        rw [if_neg heq, hc, Outcome.ok_bind]
        rcases hbit with rfl | rfl
        · obtain ⟨shares, hrun, hshares⟩ := ih hrest
          refine ⟨shares, hrun, hshares.trans ?_⟩
          rw [List.forall_mem_cons]
          exact (and_iff_right ⟨heq, hanswer.mp rfl⟩).symm
        · refine ⟨true, rfl, iff_of_false (by decide) ?_⟩
          intro hall
          exact absurd (hanswer.mpr (hall p List.mem_cons_self).2) (by decide)

theorem arecoprimePairwise_answers (h : l.Pairwise DividesWell) :
    ∃ c, arecoprimePairwise l = .ok c ∧ (c = 1 ∨ c = 0) ∧ (c = 1 ↔ l.Pairwise CoprimePair) := by
  induction l with
  | nil => exact ⟨1, rfl, Or.inl rfl, iff_of_true rfl .nil⟩
  | cons x rest ih =>
      obtain ⟨hx, hrest⟩ := List.pairwise_cons.mp h
      obtain ⟨shares, hshares, hbit⟩ := sharesFactor_answers hx
      rw [arecoprimePairwise, hshares, Outcome.ok_bind, List.pairwise_cons, ← hbit]
      cases shares with
      | true => exact ⟨0, rfl, Or.inr rfl, iff_of_false (by decide) fun h => by cases h.1⟩
      | false =>
          obtain ⟨c, hc, hcbit, hcoprime⟩ := ih hrest
          exact ⟨c, hc, hcbit, hcoprime.trans (and_iff_right rfl).symm⟩

end Pairs

/-! ## The moduli of a system -/

section Moduli

variable {n : Nat} {a m : Nat → Int}

theorem pairwise_arrayOf {R : Int → Int → Prop} :
    (arrayOf n m).Pairwise R ↔ ∀ i j, i < j → j < n → R (m i) (m j) := by
  rw [arrayOf, List.pairwise_map, List.pairwise_iff_getElem]
  simp only [List.getElem_range, List.length_range]
  exact ⟨fun h i j hij hj => h i j (hij.trans hj) hj hij, fun h i j _ hj hij => h i j hij hj⟩

/-- Two positive numbers that are not an accepted pair have a factor in
common or are ones. -/
theorem not_coprimePair_iff {x y : Int} (hx : 0 < x) (hy : 0 < y) :
    ¬ CoprimePair x y ↔ (∃ d > 1, d ∣ x ∧ d ∣ y) ∨ x = 1 ∧ y = 1 := by
  rw [← not_isCoprime_iff_dvd hx]
  constructor
  · intro hnot
    by_cases hcoprime : IsCoprime x y
    · right
      have heq : x = y := not_not.mp fun hne => hnot ⟨hne, hx.ne', hy.ne', hcoprime⟩
      subst heq
      have hone := Int.isUnit_iff.mp (isCoprime_self.mp hcoprime)
      omega
    · exact Or.inl hcoprime
  · rintro (hnot | ⟨rfl, rfl⟩) hpair
    · exact hnot hpair.2.2.2
    · exact hpair.1 rfl

end Moduli

/-- **What the answer would have been**: for a system with positive moduli,
`arecoprime_pairwise` answers zero if and only if `chinese_remainder` finds
itself that two moduli share a factor, or two of them are one. -/
theorem arecoprimePairwise_ignored (n : Nat) (a m : Nat → Int) (h : IsPositiveSystem n a m)
    (hkeeps : ∀ i j, i < j → j < n → KeepsDivisors (m i) (m j)) :
    ∃ c, arecoprimePairwise (arrayOf n m) = .ok c ∧ (c = 1 ∨ c = 0) ∧
      (c = 0 ↔ ComputesInverses n m none ∨ ∃ i j, i < j ∧ j < n ∧ m i = 1 ∧ m j = 1) := by
  have hle : ∀ i < n, |m i| ≤ LONG_MAX := by
    intro i hi
    rw [abs_of_pos (h.modulus i hi)]
    exact le_trans (Int.le_of_dvd (prod_range_pos h.modulus)
      (Finset.dvd_prod_of_mem m (Finset.mem_range.mpr hi))) h.product
  have hwell : (arrayOf n m).Pairwise DividesWell := pairwise_arrayOf.mpr fun i j hij hj =>
    ⟨hle i (hij.trans hj), hle j hj, fun _ => hkeeps i j hij hj⟩
  obtain ⟨c, hrun, hbit, hanswer⟩ := arecoprimePairwise_answers hwell
  obtain ⟨cells, hcells, hshare⟩ := h.computesInverses
  have hnone : ComputesInverses n m none ↔ ShareFactor n m := by
    rw [← hshare]
    constructor
    · exact fun hnone => hcells.unique hnone
    · rintro rfl
      exact hcells
  have hpairs : ¬ (arrayOf n m).Pairwise CoprimePair ↔
      ShareFactor n m ∨ ∃ i j, i < j ∧ j < n ∧ m i = 1 ∧ m j = 1 := by
    rw [pairwise_arrayOf]
    push Not
    constructor
    · rintro ⟨i, j, hij, hj, hpair⟩
      have hi := hij.trans hj
      rcases (not_coprimePair_iff (h.modulus i hi) (h.modulus j hj)).mp hpair with hd | hones
      · exact Or.inl ⟨i, hi, j, hj, hij.ne, hd⟩
      · exact Or.inr ⟨i, j, hij, hj, hones⟩
    · rintro (⟨i, hi, j, hj, hne, d, hd, hdi, hdj⟩ | ⟨i, j, hij, hj, hones⟩)
      · -- the positions come in either order
        rcases Nat.lt_or_gt_of_ne hne with hij | hji
        · exact ⟨i, j, hij, hj, (not_coprimePair_iff (h.modulus i hi) (h.modulus j hj)).mpr
            (Or.inl ⟨d, hd, hdi, hdj⟩)⟩
        · exact ⟨j, i, hji, hi, (not_coprimePair_iff (h.modulus j hj) (h.modulus i hi)).mpr
            (Or.inl ⟨d, hd, hdj, hdi⟩)⟩
      · exact ⟨i, j, hij, hj, (not_coprimePair_iff (h.modulus i (hij.trans hj))
          (h.modulus j hj)).mpr (Or.inr hones)⟩
  refine ⟨c, hrun, hbit, ?_⟩
  rw [hnone, ← hpairs, ← hanswer]
  omega

/-- The system with the two fours, and one with two ones. -/
theorem arecoprimePairwise_ignored_repeated :
    ∃ c, arecoprimePairwise (arrayOf 4 fun i => [1, 4, 1, 4].getD i 0) = .ok c ∧
      (c = 1 ∨ c = 0) ∧
      (c = 0 ↔ ComputesInverses 4 (fun i => [1, 4, 1, 4].getD i 0) none ∨
        ∃ i j, i < j ∧ j < 4 ∧ [1, 4, 1, 4].getD i (0 : Int) = 1 ∧
          [1, 4, 1, 4].getD j (0 : Int) = 1) :=
  arecoprimePairwise_ignored 4 (fun i => i + 1) (fun i => [1, 4, 1, 4].getD i 0)
    isPositiveSystem_repeated (fun i j hij hj => by
      have hint : ∀ i < 4, ∀ j < 4, INT_MIN ≤ ([1, 4, 1, 4].getD i (0 : Int)).tmod
          ([1, 4, 1, 4].getD j 0) ∧ ([1, 4, 1, 4].getD i (0 : Int)).tmod
          ([1, 4, 1, 4].getD j 0) ≤ INT_MAX := by decide
      exact keepsDivisors_of_int (hint i (hij.trans hj) j hj))

end Jccl
