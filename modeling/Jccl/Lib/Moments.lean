/-
# `Jccl.Lib.Moments` — mean and squared deviations, one number at a time

The mean of a list with one more number is the old mean and a share of the
difference (`mean_concat`).  The sum of the squared deviations is taken about
the mean, which moves; about any other point it is larger by the square of the
distance, for each number once (`deviations_eq`), and that is what makes up
for the move (`squaredDeviations_concat`).

In a range the deviations are bounded by the distances of the mean from its
two ends (`squaredDeviations_le`), and the narrowest range is found one number
at a time as well.

Of no numbers at all the mean and the deviations are zero.
-/
import Mathlib

namespace Jccl.Moments

variable {K : Type} [Field K]

def mean (xs : List K) : K := xs.sum / xs.length

/-- The sum of the squared deviations from `c`. -/
def deviations (c : K) (xs : List K) : K := (xs.map fun x => (x - c) ^ 2).sum

/-- The sum of the squared deviations from the mean. -/
def squaredDeviations (xs : List K) : K := deviations (mean xs) xs

variable {xs ys : List K}

theorem sum_map_sub (c : K) (xs : List K) :
    (xs.map fun x => x - c).sum = xs.sum - xs.length * c := by
  induction xs with
  | nil => simp
  | cons x xs ih =>
      rw [List.map_cons, List.sum_cons, List.sum_cons, ih, List.length_cons]
      push_cast
      ring

theorem mean_perm (h : ys.Perm xs) : mean ys = mean xs := by
  rw [mean, mean, h.sum_eq, h.length_eq]

theorem squaredDeviations_perm (h : ys.Perm xs) :
    squaredDeviations ys = squaredDeviations xs := by
  rw [squaredDeviations, squaredDeviations, mean_perm h]
  exact (h.map _).sum_eq

/-- What another point of reference adds. -/
theorem deviations_move (c d : K) (xs : List K) : deviations c xs =
    deviations d xs + 2 * (d - c) * (xs.map fun x => x - d).sum + xs.length * (d - c) ^ 2 := by
  induction xs with
  | nil => simp [deviations]
  | cons x xs ih =>
      rw [deviations] at ih
      rw [deviations, List.map_cons, List.sum_cons, ih, deviations, deviations, List.map_cons,
        List.sum_cons, List.map_cons, List.sum_cons, List.length_cons]
      push_cast
      ring

section CharZero

variable [CharZero K]

theorem length_mul_mean (xs : List K) : xs.length * mean xs = xs.sum := by
  rcases xs.eq_nil_or_concat' with rfl | ⟨xs, x, rfl⟩
  · simp [mean]
  · have hne : ((xs ++ [x]).length : K) ≠ 0 := by
      rw [List.length_append, List.length_singleton]
      exact Nat.cast_ne_zero.mpr xs.length.succ_ne_zero
    rw [mean, mul_div_cancel₀ _ hne]

/-- The deviations from the mean cancel. -/
theorem sum_map_sub_mean (xs : List K) : (xs.map fun x => x - mean xs).sum = 0 := by
  rw [sum_map_sub, length_mul_mean, sub_self]

theorem deviations_eq (c : K) (xs : List K) :
    deviations c xs = squaredDeviations xs + xs.length * (mean xs - c) ^ 2 := by
  rw [deviations_move c (mean xs), sum_map_sub_mean, mul_zero, add_zero, squaredDeviations]

theorem mean_concat (xs : List K) (x : K) :
    mean (xs ++ [x]) = mean xs + (x - mean xs) / (xs.length + 1) := by
  have hne : (xs.length : K) + 1 ≠ 0 := Nat.cast_add_one_ne_zero xs.length
  rw [mean, List.sum_append, List.sum_singleton, List.length_append, List.length_singleton,
    ← length_mul_mean xs]
  push_cast
  field_simp
  ring

/-- **One more number**: the old mean and the new one are both in the product. -/
theorem squaredDeviations_concat (xs : List K) (x : K) :
    squaredDeviations (xs ++ [x])
      = squaredDeviations xs + (x - mean xs) * (x - mean (xs ++ [x])) := by
  have hne : (xs.length : K) + 1 ≠ 0 := Nat.cast_add_one_ne_zero xs.length
  have hsplit : squaredDeviations (xs ++ [x])
      = deviations (mean (xs ++ [x])) xs + (x - mean (xs ++ [x])) ^ 2 := by
    rw [squaredDeviations, deviations, List.map_append, List.sum_append, List.map_singleton,
      List.sum_singleton, deviations]
  rw [hsplit, deviations_eq, mean_concat]
  field_simp
  ring

end CharZero

/-! ## The range of the numbers -/

/-- The distances from two bounds, about any point. -/
theorem sum_map_sub_mul_sub (lo hi c : K) (xs : List K) :
    (xs.map fun x => (hi - x) * (x - lo)).sum = xs.length * ((hi - c) * (c - lo))
      + (hi + lo - 2 * c) * (xs.map fun x => x - c).sum - deviations c xs := by
  induction xs with
  | nil => simp [deviations]
  | cons x xs ih =>
      rw [deviations] at ih
      rw [List.map_cons, List.sum_cons, ih, deviations, List.map_cons, List.sum_cons,
        List.map_cons, List.sum_cons, List.length_cons]
      push_cast
      ring

section Range

variable [LinearOrder K] [IsStrictOrderedRing K] {lo hi : K}

theorem le_mean (hne : xs ≠ []) (h : ∀ x ∈ xs, lo ≤ x) : lo ≤ mean xs := by
  have hpos : (0 : K) < xs.length := Nat.cast_pos.mpr (List.length_pos_iff.mpr hne)
  rw [mean, le_div_iff₀ hpos, mul_comm, ← nsmul_eq_mul]
  exact List.card_nsmul_le_sum xs lo h

theorem mean_le (hne : xs ≠ []) (h : ∀ x ∈ xs, x ≤ hi) : mean xs ≤ hi := by
  have hpos : (0 : K) < xs.length := Nat.cast_pos.mpr (List.length_pos_iff.mpr hne)
  rw [mean, div_le_iff₀ hpos, mul_comm, ← nsmul_eq_mul]
  exact List.sum_le_card_nsmul xs hi h

theorem deviations_nonneg (c : K) (xs : List K) : 0 ≤ deviations c xs := by
  refine List.sum_nonneg fun y hy => ?_
  obtain ⟨x, -, rfl⟩ := List.mem_map.mp hy
  exact sq_nonneg _

theorem deviations_eq_zero {c : K} : deviations c xs = 0 ↔ ∀ x ∈ xs, x = c := by
  induction xs with
  | nil => simp [deviations]
  | cons x xs ih =>
      have hsplit : deviations c (x :: xs) = (x - c) ^ 2 + deviations c xs := by
        rw [deviations, List.map_cons, List.sum_cons, deviations]
      rw [hsplit, add_eq_zero_iff_of_nonneg (sq_nonneg _) (deviations_nonneg c xs), ih,
        sq_eq_zero_iff, sub_eq_zero, List.forall_mem_cons]

/-- **Numbers in a range**: none of them has a negative product of the distances. -/
theorem squaredDeviations_le (h : ∀ x ∈ xs, lo ≤ x ∧ x ≤ hi) :
    squaredDeviations xs ≤ xs.length * ((hi - mean xs) * (mean xs - lo)) := by
  have hsum : 0 ≤ (xs.map fun x => (hi - x) * (x - lo)).sum := by
    refine List.sum_nonneg fun y hy => ?_
    obtain ⟨x, hx, rfl⟩ := List.mem_map.mp hy
    exact mul_nonneg (sub_nonneg.mpr (h x hx).2) (sub_nonneg.mpr (h x hx).1)
  rw [sum_map_sub_mul_sub lo hi (mean xs), sum_map_sub_mean, mul_zero, add_zero] at hsum
  exact sub_nonneg.mp hsum

end Range

section Extremes

variable {α : Type} [LinearOrder α]

theorem isLeast_foldl_min (a : α) (xs : List α) :
    IsLeast (insert a {x | x ∈ xs}) (xs.foldl min a) := by
  induction xs generalizing a with
  | nil => simp
  | cons x xs ih =>
      obtain ⟨hmem, hle⟩ := ih (min a x)
      refine ⟨?_, ?_⟩
      · rcases hmem with hmem | hmem
        · rcases min_choice a x with h | h
          · exact .inl (hmem.trans h)
          · exact .inr (List.mem_cons.mpr (.inl (hmem.trans h)))
        · exact .inr (List.mem_cons_of_mem x hmem)
      · intro y hy
        have hmin : xs.foldl min (min a x) ≤ min a x := hle (.inl rfl)
        rcases hy with rfl | hy
        · exact hmin.trans (min_le_left _ _)
        · rcases List.mem_cons.mp hy with rfl | hy
          · exact hmin.trans (min_le_right _ _)
          · exact hle (.inr hy)

theorem isGreatest_foldl_max (a : α) (xs : List α) :
    IsGreatest (insert a {x | x ∈ xs}) (xs.foldl max a) :=
  isLeast_foldl_min (α := αᵒᵈ) a xs

end Extremes

end Jccl.Moments
