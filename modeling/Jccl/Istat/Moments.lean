/-
# `Jccl.Istat.Moments` — what `istat_add` has gathered

The state after the samples `xs` is a function of `xs` alone (`istatOf`), and
one that forgets the order: the number, the sum, the mean and the squared
deviations from it.  So long as the counter does not pass its largest value,
`istatAdd` takes `istatOf xs` to `istatOf (xs ++ [x])`; a sample more than
`2 ^ 64 - 1`, and the counter is zero when the difference is divided by it.
-/
import Jccl.Istat.Defs
import Jccl.Lib.Moments

namespace Jccl

open Moments

/-- The state that belongs to the samples. -/
def istatOf (xs : List Rat) : Istat :=
  { n := UInt64.ofNat xs.length, mean := mean xs, sumSquareDeltaMean := squaredDeviations xs,
    sum := xs.sum }

section Counter

variable {xs : List Rat}

theorem toNat_n_istatOf (hlen : xs.length < 2 ^ 64) : (istatOf xs).n.toNat = xs.length :=
  UInt64.toNat_ofNat_of_lt' hlen

/-- The order of the samples is lost. -/
theorem istatOf_perm {ys : List Rat} (h : ys.Perm xs) : istatOf ys = istatOf xs := by
  rw [istatOf, istatOf, h.length_eq, mean_perm h, squaredDeviations_perm h, h.sum_eq]

theorem n_add_one (xs : List Rat) (x : Rat) :
    (istatOf xs).n + 1 = UInt64.ofNat (xs ++ [x]).length := by
  rw [List.length_append, List.length_singleton]
  exact (UInt64.ofNat_add _ _).symm

end Counter

/-- **One sample**: the old mean and the new one in the product make up for
the move of all the earlier deviations. -/
theorem istatAdd_istatOf {xs : List Rat} (x : Rat) (hlen : (xs ++ [x]).length < 2 ^ 64) :
    istatAdd (istatOf xs) x = .ok (UInt64.ofNat (xs ++ [x]).length, istatOf (xs ++ [x])) := by
  have hn : ((UInt64.ofNat (xs ++ [x]).length).toNat : Rat) = xs.length + 1 := by
    rw [UInt64.toNat_ofNat_of_lt' hlen, List.length_append, List.length_singleton]
    push_cast
    rfl
  have hne : (xs.length : Rat) + 1 ≠ 0 := Nat.cast_add_one_ne_zero xs.length
  have hmean : (istatOf xs).mean + (x - (istatOf xs).mean) / (xs.length + 1)
      = mean (xs ++ [x]) := (mean_concat xs x).symm
  have hsum : (istatOf xs).sum + x = (xs ++ [x]).sum := by
    rw [List.sum_append, List.sum_singleton]
    rfl
  have hdev : (istatOf xs).sumSquareDeltaMean
      + (x - (istatOf xs).mean) * (x - mean (xs ++ [x])) = squaredDeviations (xs ++ [x]) :=
    (squaredDeviations_concat xs x).symm
  simp only [istatAdd, n_add_one xs x, hn, doubleDiv, if_neg hne, Outcome.ok_bind, hmean, hsum,
    hdev, Outcome.pure_eq]
  rfl

/-- The sample that the counter has no room for. -/
theorem istatAdd_wraps {xs : List Rat} (x : Rat) (hlen : (xs ++ [x]).length = 2 ^ 64) :
    istatAdd (istatOf xs) x = .error .division := by
  have hn : ((UInt64.ofNat (xs ++ [x]).length).toNat : Rat) = 0 := by
    rw [hlen]
    decide
  simp only [istatAdd, n_add_one xs x, hn, doubleDiv, if_pos, Outcome.error_bind]

theorem istatRun_concat (istat : Istat) (xs : List Rat) (x : Rat) :
    istatRun istat (xs ++ [x])
      = istatRun istat xs >>= fun istat => istatAdd istat x >>= fun r => .ok r.2 := by
  induction xs generalizing istat with
  | nil => rfl
  | cons y xs ih =>
      rw [List.cons_append, istatRun, istatRun, bind_assoc]
      exact bind_congr fun r => ih r.2

/-- The run, by induction on the last sample. -/
theorem istatRun_eq (xs : List Rat) (hlen : xs.length < 2 ^ 64) :
    istatRun ISTAT_STATIC_INIT xs = .ok (istatOf xs) := by
  induction xs using List.reverseRecOn with
  | nil => simp [istatRun, istatOf, ISTAT_STATIC_INIT, mean, squaredDeviations, deviations]
  | append_singleton xs x ih =>
      have hlen' : xs.length < 2 ^ 64 := by
        rw [List.length_append] at hlen
        omega
      rw [istatRun_concat, ih hlen', Outcome.ok_bind, istatAdd_istatOf x hlen, Outcome.ok_bind]

/-- The divisor, of any samples at all. -/
theorem istatVariance_istatOf {xs : List Rat} (hne : xs ≠ []) (hlen : xs.length < 2 ^ 64)
    (correction : IstatBiasCorrection) (hdiv : xs.length ≠ correction.value.toNat) :
    istatVariance (istatOf xs) correction = .ok ((istatOf xs).sumSquareDeltaMean /
      ((xs.length - correction.value.toNat : Nat) : Rat)) := by
  have hpos : 0 < xs.length := List.length_pos_iff.mpr hne
  have hle : correction.value.toNat ≤ xs.length := by
    cases correction with
    | UNCORRECTED => exact Nat.zero_le _
    | BESSELS_CORRECTED => exact hpos
  have hsub : ((istatOf xs).n - correction.value).toNat
      = xs.length - correction.value.toNat := by
    have hle' : correction.value ≤ (istatOf xs).n := by
      rw [UInt64.le_iff_toNat_le, toNat_n_istatOf hlen]
      exact hle
    rw [UInt64.toNat_sub_of_le _ _ hle', toNat_n_istatOf hlen]
  have hne0 : ((xs.length - correction.value.toNat : Nat) : Rat) ≠ 0 :=
    Nat.cast_ne_zero.mpr (Nat.sub_ne_zero_of_lt (lt_of_le_of_ne hle hdiv.symm))
  rw [istatVariance, hsub, doubleDiv, if_neg hne0]

/-- **What `istat_add` leaves**, of any samples that the counter can count. -/
theorem istatRun_moments (xs : List Rat) (hne : xs ≠ []) (hlen : xs.length < 2 ^ 64) :
    ∃ istat, istatRun ISTAT_STATIC_INIT xs = .ok istat ∧
      istat.n.toNat = xs.length ∧
      istat.sum = xs.sum ∧
      istat.mean = istat.sum / istat.n.toNat ∧
      istat.sumSquareDeltaMean = (xs.map fun x => (x - istat.mean) ^ 2).sum ∧
      (∀ ys : List Rat, ys.Perm xs → istatRun ISTAT_STATIC_INIT ys = .ok istat) ∧
      ∀ correction : IstatBiasCorrection, xs.length ≠ correction.value.toNat →
        istatVariance istat correction = .ok (istat.sumSquareDeltaMean /
          ((xs.length - correction.value.toNat : Nat) : Rat)) := by
  refine ⟨istatOf xs, istatRun_eq xs hlen, toNat_n_istatOf hlen, rfl, ?_, rfl, ?_,
    istatVariance_istatOf hne hlen⟩
  · rw [toNat_n_istatOf hlen]
    rfl
  · intro ys h
    rw [istatRun_eq ys (h.length_eq.trans_lt hlen), istatOf_perm h]

theorem istatRun_moments_two :
    ∃ istat, istatRun ISTAT_STATIC_INIT [1, 4] = .ok istat ∧
      istat.n.toNat = 2 ∧
      istat.sum = ([1, 4] : List Rat).sum ∧
      istat.mean = istat.sum / istat.n.toNat ∧
      istat.sumSquareDeltaMean = (([1, 4] : List Rat).map fun x => (x - istat.mean) ^ 2).sum ∧
      (∀ ys : List Rat, ys.Perm [1, 4] → istatRun ISTAT_STATIC_INIT ys = .ok istat) ∧
      ∀ correction : IstatBiasCorrection, 2 ≠ correction.value.toNat →
        istatVariance istat correction = .ok (istat.sumSquareDeltaMean /
          ((2 - correction.value.toNat : Nat) : Rat)) :=
  istatRun_moments [1, 4] (List.cons_ne_nil _ _) (by decide)

theorem istatRun_wraps {xs : List Rat} {x : Rat} (hlen : (xs ++ [x]).length = 2 ^ 64) :
    istatRun ISTAT_STATIC_INIT (xs ++ [x]) = .error .division := by
  have hlen' : xs.length < 2 ^ 64 := by
    rw [List.length_append, List.length_singleton] at hlen
    omega
  rw [istatRun_concat, istatRun_eq xs hlen', Outcome.ok_bind, istatAdd_wraps x hlen,
    Outcome.error_bind]

/-- `2 ^ 64` samples are one too many. -/
theorem istatRun_full :
    istatRun ISTAT_STATIC_INIT (List.replicate (2 ^ 64) 0) = .error .division := by
  have hsplit : List.replicate (2 ^ 64) (0 : Rat) = List.replicate (2 ^ 64 - 1) 0 ++ [0] :=
    List.replicate_succ'
  rw [hsplit]
  refine istatRun_wraps ?_
  rw [List.length_append, List.length_replicate, List.length_singleton]
  rfl

end Jccl
