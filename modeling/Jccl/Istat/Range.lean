/-
# `Jccl.Istat.Range` — the extremes of the samples beside their moments

`istat_min` and `istat_max` keep the least and the largest of the values they
were given, the starting value among them: a starting value that is no bound
of the samples is what comes out in the end.  With any starting values, what
`istat_add` has gathered from the same samples lies between the two.
-/
import Jccl.Istat.Moments

namespace Jccl

open Moments

theorem istatMin_eq : istatMin = min := by
  funext m x
  rw [istatMin, min_comm, min_def_lt]

theorem istatMax_eq : istatMax = max := by
  funext m x
  exact (max_def_lt m x).symm

section Samples

variable {xs : List Rat}

theorem istatMin_le (lo : Rat) : ∀ x ∈ xs, xs.foldl istatMin lo ≤ x := by
  intro x hx
  rw [istatMin_eq]
  exact (isLeast_foldl_min lo xs).2 (.inr hx)

theorem le_istatMax (hi : Rat) : ∀ x ∈ xs, x ≤ xs.foldl istatMax hi := by
  intro x hx
  rw [istatMax_eq]
  exact (isGreatest_foldl_max hi xs).2 (.inr hx)

/-- The divisor without a correction is the number of samples. -/
theorem istatVariance_uncorrected (hne : xs ≠ []) (hlen : xs.length < 2 ^ 64) :
    istatVariance (istatOf xs) .UNCORRECTED = .ok (squaredDeviations xs / xs.length) := by
  have hpos : 0 < xs.length := List.length_pos_iff.mpr hne
  exact istatVariance_istatOf hne hlen .UNCORRECTED hpos.ne'

end Samples

/-- **The range of the samples**, gathered along with them from any two
starting values: it holds the mean, and bounds the variance by the product of
the distances of the mean from its ends. -/
theorem istatRun_range (xs : List Rat) (lo hi : Rat) (hne : xs ≠ []) (hlen : xs.length < 2 ^ 64) :
    ∃ istat variance, istatRun ISTAT_STATIC_INIT xs = .ok istat ∧
      istatVariance istat .UNCORRECTED = .ok variance ∧
      IsLeast (insert lo {x | x ∈ xs}) (xs.foldl istatMin lo) ∧
      IsGreatest (insert hi {x | x ∈ xs}) (xs.foldl istatMax hi) ∧
      xs.foldl istatMin lo ≤ istat.mean ∧ istat.mean ≤ xs.foldl istatMax hi ∧
      0 ≤ variance ∧ (variance = 0 ↔ ∀ x ∈ xs, x = istat.mean) ∧
      variance ≤ (xs.foldl istatMax hi - istat.mean) * (istat.mean - xs.foldl istatMin lo) := by
  have hpos : (0 : Rat) < xs.length := Nat.cast_pos.mpr (List.length_pos_iff.mpr hne)
  have hle : squaredDeviations xs ≤ _ :=
    squaredDeviations_le fun x hx => ⟨istatMin_le lo x hx, le_istatMax hi x hx⟩
  refine ⟨istatOf xs, _, istatRun_eq xs hlen, istatVariance_uncorrected hne hlen, ?_, ?_,
    le_mean hne (istatMin_le lo), mean_le hne (le_istatMax hi),
    div_nonneg (deviations_nonneg _ xs) hpos.le, ?_, ?_⟩
  · rw [istatMin_eq]
    exact isLeast_foldl_min lo xs
  · rw [istatMax_eq]
    exact isGreatest_foldl_max hi xs
  · rw [div_eq_zero_iff, or_iff_left hpos.ne']
    exact deviations_eq_zero
  · rw [div_le_iff₀ hpos, mul_comm]
    exact hle

/-- All the samples are below the second starting value, so it stays. -/
theorem istatRun_range_two :
    ∃ istat variance, istatRun ISTAT_STATIC_INIT [-1, -4] = .ok istat ∧
      istatVariance istat .UNCORRECTED = .ok variance ∧
      IsLeast (insert 9 {x | x ∈ ([-1, -4] : List Rat)}) ([-1, -4].foldl istatMin 9) ∧
      IsGreatest (insert 0 {x | x ∈ ([-1, -4] : List Rat)}) ([-1, -4].foldl istatMax 0) ∧
      [-1, -4].foldl istatMin 9 ≤ istat.mean ∧ istat.mean ≤ [-1, -4].foldl istatMax 0 ∧
      0 ≤ variance ∧ (variance = 0 ↔ ∀ x ∈ ([-1, -4] : List Rat), x = istat.mean) ∧
      variance ≤ ([-1, -4].foldl istatMax 0 - istat.mean) *
        (istat.mean - [-1, -4].foldl istatMin 9) :=
  istatRun_range [-1, -4] 9 0 (List.cons_ne_nil _ _) (by decide)

end Jccl
