/-
# `Jccl.Lib.Congruences` — systems of congruences with coprime moduli

The product of all the other moduli (`cofactor`) is zero modulo each of them
and has an inverse modulo the one that is left out.  So the sum of the
residues, each multiplied by a cofactor and an inverse of it, leaves the right
remainder everywhere, and the remainder it leaves when it is divided by the
product of all the moduli is the one solution below that product.
-/
import Jccl.Lib.Euclid

namespace Jccl

section System

variable {ι : Type} (s : Finset ι) (a m : ι → Int)

/-- `x` is the least solution of the system that is not negative. -/
structure Solves (x : Int) : Prop where
  nonneg : 0 ≤ x
  lt : x < ∏ i ∈ s, m i
  congr : ∀ i ∈ s, x ≡ a i [ZMOD m i]

/-- The moduli are positive, and no two of them have a factor in common. -/
structure CoprimeModuli : Prop where
  pos : ∀ i ∈ s, 0 < m i
  coprime : ∀ i ∈ s, ∀ j ∈ s, i ≠ j → IsCoprime (m i) (m j)

variable {s a m}

theorem CoprimeModuli.prod_pos (h : CoprimeModuli s m) : 0 < ∏ i ∈ s, m i :=
  Finset.prod_pos h.pos

/-- Numbers that are congruent modulo every modulus are congruent modulo the
product. -/
theorem CoprimeModuli.modEq (h : CoprimeModuli s m) {x y : Int}
    (hxy : ∀ i ∈ s, x ≡ y [ZMOD m i]) : x ≡ y [ZMOD ∏ i ∈ s, m i] := by
  refine Int.modEq_iff_dvd.mpr (Finset.prod_dvd_of_coprime ?_ fun i hi => (hxy i hi).dvd)
  exact fun i hi j hj hne => h.coprime i hi j hj hne

theorem Solves.unique {x y : Int} (h : CoprimeModuli s m) (hx : Solves s a m x)
    (hy : Solves s a m y) : x = y := by
  have hxy := h.modEq fun i hi => (hx.congr i hi).trans (hy.congr i hi).symm
  rw [Int.ModEq, Int.emod_eq_of_lt hx.nonneg hx.lt, Int.emod_eq_of_lt hy.nonneg hy.lt] at hxy
  exact hxy

variable [DecidableEq ι]

variable (s m) in
/-- The product of the moduli except one. -/
def cofactor (i : ι) : Int := ∏ j ∈ s.erase i, m j

variable {i : ι}

theorem mul_cofactor (hi : i ∈ s) : m i * cofactor s m i = ∏ j ∈ s, m j :=
  Finset.mul_prod_erase s m hi

theorem cofactor_pos (h : ∀ i ∈ s, 0 < m i) (i : ι) : 0 < cofactor s m i :=
  Finset.prod_pos fun j hj => h j (Finset.mem_of_mem_erase hj)

/-- A cofactor has a factor in common with the modulus that it leaves out if
and only if one of the others has. -/
theorem isCoprime_cofactor_iff :
    IsCoprime (cofactor s m i) (m i) ↔ ∀ j ∈ s, j ≠ i → IsCoprime (m j) (m i) := by
  rw [cofactor, IsCoprime.prod_left_iff]
  constructor
  · exact fun h j hj hne => h j (Finset.mem_erase.mpr ⟨hne, hj⟩)
  · intro h j hj
    obtain ⟨hne, hj⟩ := Finset.mem_erase.mp hj
    exact h j hj hne

theorem CoprimeModuli.isCoprime_cofactor (h : CoprimeModuli s m) (hi : i ∈ s) :
    IsCoprime (cofactor s m i) (m i) :=
  isCoprime_cofactor_iff.mpr fun j hj hne => h.coprime j hj i hi hne

/-- Two of the moduli have a factor in common if and only if one of them has
one with its cofactor. -/
theorem exists_not_isCoprime_cofactor_iff :
    (∃ i ∈ s, ¬ IsCoprime (cofactor s m i) (m i)) ↔
      ∃ i ∈ s, ∃ j ∈ s, i ≠ j ∧ ¬ IsCoprime (m i) (m j) := by
  constructor
  · rintro ⟨i, hi, hcofactor⟩
    rw [isCoprime_cofactor_iff] at hcofactor
    push Not at hcofactor
    obtain ⟨j, hj, hne, hij⟩ := hcofactor
    exact ⟨j, hj, i, hi, hne, hij⟩
  · rintro ⟨i, hi, j, hj, hne, hij⟩
    exact ⟨j, hj, fun h => hij (isCoprime_cofactor_iff.mp h i hi hne)⟩

/-- Modulo one of the moduli only its own term of the sum is left. -/
theorem sum_cofactor_modEq {y : ι → Int} (hi : i ∈ s)
    (hy : cofactor s m i * y i ≡ 1 [ZMOD m i]) :
    ∑ j ∈ s, cofactor s m j * a j * y j ≡ a i [ZMOD m i] := by
  have hothers : ∑ j ∈ s.erase i, cofactor s m j * a j * y j ≡ 0 [ZMOD m i] := by
    refine Int.modEq_zero_iff_dvd.mpr (Finset.dvd_sum fun j hj => ?_)
    have hmem : i ∈ s.erase j := Finset.mem_erase.mpr ⟨(Finset.ne_of_mem_erase hj).symm, hi⟩
    rw [mul_assoc]
    exact (Finset.dvd_prod_of_mem m hmem).mul_right _
  have hown : cofactor s m i * a i * y i ≡ a i [ZMOD m i] := by
    calc cofactor s m i * a i * y i = cofactor s m i * y i * a i := by ring
      _ ≡ 1 * a i [ZMOD m i] := hy.mul_right _
      _ = a i := one_mul _
  rw [← Finset.add_sum_erase s _ hi]
  simpa using hown.add hothers

/-- **The construction**: the remainder of the sum solves the system. -/
theorem CoprimeModuli.solves (h : CoprimeModuli s m) {y : ι → Int}
    (hy : ∀ i ∈ s, cofactor s m i * y i ≡ 1 [ZMOD m i]) :
    Solves s a m ((∑ j ∈ s, cofactor s m j * a j * y j) % ∏ j ∈ s, m j) where
  nonneg := Int.emod_nonneg _ h.prod_pos.ne'
  lt := Int.emod_lt_of_pos _ h.prod_pos
  congr := by
    intro i hi
    have hdvd : m i ∣ ∏ j ∈ s, m j := Finset.dvd_prod_of_mem m hi
    exact ((Int.mod_modEq _ _).of_dvd hdvd).trans (sum_cofactor_modEq hi (hy i hi))

end System

/-! ## Inverses -/

section Inverse

variable {x n y y' : Int}

/-- The inverse of `x` modulo `n` that is nearest to zero. -/
def centeredInverse (x n : Int) : Int :=
  let r := Int.gcdA x n % n
  if 2 * r ≤ n then r else r - n

theorem Centered.unique (hy : Centered n y) (hy' : Centered n y') (h : y ≡ y' [ZMOD n]) :
    y = y' := by
  obtain ⟨k, hk⟩ := h.dvd
  unfold Centered at hy hy'
  have hlow : -n < n * k := by omega
  have hhigh : n * k < n := by omega
  have hn : 0 < n := by omega
  have hk0 : k = 0 := by
    have hlt : k < 1 := lt_of_mul_lt_mul_left (by omega : n * k < n * 1) hn.le
    have hgt : -1 < k := lt_of_mul_lt_mul_left (by omega : n * -1 < n * k) hn.le
    omega
  rw [hk0, mul_zero] at hk
  omega

theorem centered_centeredInverse (x : Int) (hn : 0 < n) : Centered n (centeredInverse x n) := by
  have hnonneg := Int.emod_nonneg (Int.gcdA x n) hn.ne'
  have hlt := Int.emod_lt_of_pos (Int.gcdA x n) hn
  unfold Centered centeredInverse
  dsimp only
  split <;> omega

theorem mul_centeredInverse (h : IsCoprime x n) : x * centeredInverse x n ≡ 1 [ZMOD n] := by
  have hgcd : (1 : Int) = x * Int.gcdA x n + n * Int.gcdB x n := by
    rw [← Int.gcd_eq_gcd_ab, Int.isCoprime_iff_gcd_eq_one.mp h]
    rfl
  have hmod : centeredInverse x n ≡ Int.gcdA x n [ZMOD n] := by
    unfold centeredInverse
    dsimp only
    split
    · exact Int.mod_modEq _ _
    · simp [Int.ModEq]
  calc x * centeredInverse x n ≡ x * Int.gcdA x n [ZMOD n] := hmod.mul_left x
    _ ≡ x * Int.gcdA x n + n * Int.gcdB x n [ZMOD n] := by simp [Int.ModEq]
    _ = 1 := hgcd.symm

theorem eq_centeredInverse (h : IsCoprime x n) (hy : Centered n y) (hxy : x * y ≡ 1 [ZMOD n]) :
    y = centeredInverse x n := by
  have hn : 0 < n := by
    unfold Centered at hy
    omega
  refine hy.unique (centered_centeredInverse x hn) ?_
  have hinv := mul_centeredInverse h
  calc y = 1 * y := (one_mul y).symm
    _ ≡ x * centeredInverse x n * y [ZMOD n] := hinv.symm.mul_right y
    _ = x * y * centeredInverse x n := by ring
    _ ≡ 1 * centeredInverse x n [ZMOD n] := hxy.mul_right _
    _ = centeredInverse x n := one_mul _

end Inverse

end Jccl
