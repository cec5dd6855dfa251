/-
# `Jccl.Happy.Bases` — the branches of `is_happy` for the bases 2 and 10

A number with three digits or more is above the sum of their squares, so every
orbit comes down to the numbers with two digits, and those are looked at one
by one: in base 2 they come to `1`, in base 10 to `1` or to `4`.  The orbit
of `4` in base 10 is a cycle of eight numbers without `1`.
-/
import Jccl.Happy.Cycle

namespace Jccl

theorem digitSquares_pos {b n : Nat} (hb : 1 < b) (hn : 1 ≤ n) : 1 ≤ digitSquares b n := by
  rw [Nat.one_le_iff_ne_zero, Ne, digitSquares_eq_zero hb]
  exact Nat.one_le_iff_ne_zero.mp hn

/-! ## Base 2 -/

theorem exists_iterate_two {n : Nat} (hn : 1 ≤ n) : ∃ k, (digitSquares 2)^[k] n = 1 := by
  have hsmall : ∀ n < 2 ^ 2, 1 ≤ n → ∃ k < 3, (digitSquares 2)^[k] n = 1 := by decide
  obtain ⟨k, -, hk⟩ := exists_iterate_of_descent (P := (· = 1))
    (fun _ => digitSquares_pos one_lt_two) hsmall (fun _ => digitSquares_lt_self one_lt_two) hn
  exact ⟨k, hk⟩

theorem isHappy_generic_two {n : UInt64} (hn : 1 ≤ n) : isHappy genericMacros 2 n = .ok 1 := by
  have hn' : 1 ≤ n.toNat := UInt64.le_iff_toNat_le.mp hn
  obtain ⟨hr, -⟩ | ⟨-, hno⟩ := isHappy_generic_cases (le_refl (2 : Int)) hn (by decide)
  · exact hr
  · exact absurd (exists_iterate_two hn') hno

/-! ## Base 10 -/

/-- Whether one of the first iterates is `1` or `4`. -/
def settles : Nat → Nat → Bool
  | 0, _ => false
  | c + 1, n => n = 1 || n = 4 || settles c (digitSquares 10 n)

theorem exists_iterate_of_settles {c n : Nat} (h : settles c n = true) :
    ∃ k < c, (digitSquares 10)^[k] n = 1 ∨ (digitSquares 10)^[k] n = 4 := by
  induction c generalizing n with
  | zero => cases h
  | succ c ih =>
      rw [settles, Bool.or_eq_true, Bool.or_eq_true, decide_eq_true_iff, decide_eq_true_iff] at h
      rcases h with h | h
      · exact ⟨0, Nat.succ_pos c, h⟩
      · obtain ⟨k, hk, hs⟩ := ih h
        exact ⟨k + 1, Nat.succ_lt_succ hk, hs⟩

theorem exists_iterate_ten {n : Nat} (hn : 1 ≤ n) :
    ∃ k < n + 16, (digitSquares 10)^[k] n = 1 ∨ (digitSquares 10)^[k] n = 4 := by
  have hall : ∀ n < 10 ^ 2, 1 ≤ n → settles 16 n = true := by decide +kernel
  exact exists_iterate_of_descent (P := fun x => x = 1 ∨ x = 4)
    (fun _ => digitSquares_pos (by decide)) (fun n hlt hn => exists_iterate_of_settles (hall n hlt hn))
    (fun _ => digitSquares_lt_self (by decide)) hn

/-- The cycle 4, 16, 37, 58, 89, 145, 42, 20. -/
theorem iterate_four_ne_one (k : Nat) : (digitSquares 10)^[k] 4 ≠ 1 := by
  have hcycle : (digitSquares 10)^[8] 4 = (digitSquares 10)^[0] 4 := by decide
  have hnone : ∀ l < 8, (digitSquares 10)^[l] 4 ≠ 1 := by decide
  obtain ⟨l, hl, hkl⟩ := iterate_eq_lt (by decide) hcycle k
  rw [hkl]
  exact hnone l hl

section Ten

variable (n : UInt64)

/-- Whether the loop for base 10 is left at iterate `k`. -/
def Settled (k : Nat) : Prop :=
  (squaredDigits 10)^[k] n = 1 ∨ (squaredDigits 10)^[k] n = 4

instance : DecidablePred (Settled n) := fun _ => inferInstanceAs (Decidable (_ ∨ _))

theorem toNat_iterate_ten (k : Nat) :
    ((squaredDigits 10)^[k] n).toNat = (digitSquares 10)^[k] n.toNat :=
  toNat_iterate (by decide) (by decide) n k

theorem exists_settled (hn : 1 ≤ n) : ∃ k < 2 ^ 66, Settled n k := by
  obtain ⟨k, hk, hsettled⟩ := exists_iterate_ten (UInt64.le_iff_toNat_le.mp hn)
  have hlt := n.toNat_lt
  refine ⟨k, hk.trans (by omega), ?_⟩
  rw [← toNat_iterate_ten] at hsettled
  exact hsettled.imp (fun h => UInt64.toNat_inj.mp h) (fun h => UInt64.toNat_inj.mp h)

theorem isHappyTenStep_next {k : Nat} (h : ¬ Settled n k) :
    isHappyTenStep 10 ((squaredDigits 10)^[k] n) =
      .ok (.inr ((squaredDigits 10)^[k + 1] n)) := by
  obtain ⟨hone, hfour⟩ := not_or.mp h
  rw [isHappyTenStep, if_neg hone, if_neg hfour,
    sumOfSquaredDigits_eq (by decide) (by decide), Function.iterate_succ_apply']
  rfl

theorem isHappyTenStep_one {x : UInt64} (h : x = 1) : isHappyTenStep 10 x = .ok (.inl 1) :=
  if_pos h

theorem isHappyTenStep_four {x : UInt64} (hone : x ≠ 1) (h : x = 4) :
    isHappyTenStep 10 x = .ok (.inl 0) := by
  rw [isHappyTenStep, if_neg hone, if_pos h]
  rfl

/-- From the first iterate that is `1` or `4`, the other one does not come. -/
theorem no_iterate_of_four {k : Nat} (hfirst : ∀ i < k, ¬ Settled n i)
    (hfour : (squaredDigits 10)^[k] n = 4) : ¬ ∃ i, (squaredDigits 10)^[i] n = 1 := by
  intro ⟨i, hi⟩
  rcases Nat.lt_or_ge i k with hlt | hge
  · exact hfirst i hlt (.inl hi)
  · rw [← Nat.sub_add_cancel hge, Function.iterate_add_apply, hfour] at hi
    refine iterate_four_ne_one (i - k) ?_
    rw [← UInt64.toNat_inj, toNat_iterate_ten] at hi
    exact hi

theorem loopUntil_isHappyTenStep (hn : 1 ≤ n) :
    (loopUntil (isHappyTenStep 10) (2 ^ 66) n = .ok 1 ∧ ∃ k, (squaredDigits 10)^[k] n = 1) ∨
    (loopUntil (isHappyTenStep 10) (2 ^ 66) n = .ok 0 ∧
      ¬ ∃ k, (squaredDigits 10)^[k] n = 1) := by
  obtain ⟨k, hk, hk'⟩ := exists_settled n hn
  have hsettled : ∃ k, Settled n k := ⟨k, hk'⟩
  have hfuel : Nat.find hsettled < 2 ^ 66 := (Nat.find_min' hsettled hk').trans_lt hk
  have hrun : ∀ i < Nat.find hsettled,
      isHappyTenStep 10 ((squaredDigits 10)^[i] n) =
        .ok (.inr ((squaredDigits 10)^[i + 1] n)) :=
    fun i hi => isHappyTenStep_next n (Nat.find_min hsettled hi)
  by_cases hone : (squaredDigits 10)^[Nat.find hsettled] n = 1
  · left
    exact ⟨loopUntil_of_trace (g := fun i => (squaredDigits 10)^[i] n) hrun
      (isHappyTenStep_one hone) hfuel, _, hone⟩
  · right
    have hfour := (Nat.find_spec hsettled).resolve_left hone
    exact ⟨loopUntil_of_trace (g := fun i => (squaredDigits 10)^[i] n) hrun
      (isHappyTenStep_four hone hfour) hfuel,
      no_iterate_of_four n (fun _ hi => Nat.find_min hsettled hi) hfour⟩

theorem isHappy_generic_ten (hn : 1 ≤ n) :
    isHappy genericMacros 10 n = loopUntil (isHappyTenStep 10) (2 ^ 66) n := by
  rw [isHappy_generic (by decide) hn]
  rcases @loopUntil_isHappyStep 10 (by decide) (by decide) n with ⟨h, hk⟩ | ⟨h, hk⟩
  · rcases loopUntil_isHappyTenStep n hn with ⟨h', -⟩ | ⟨-, hno⟩
    · exact h.trans h'.symm
    · exact absurd hk hno
  · rcases loopUntil_isHappyTenStep n hn with ⟨-, hyes⟩ | ⟨h', -⟩
    · exact absurd hyes hk
    · exact h.trans h'.symm

end Ten

/-! ## Whatever macros there are -/

/-- **The optimised branches agree with the generic one.**  They return, and
in every base the result does not depend on the macros. -/
theorem isHappy_optimized (n : UInt64) (hn : 1 ≤ n) :
    isHappy genericMacros 2 n = .ok 1 ∧
    (∃ r, loopUntil (isHappyTenStep 10) (2 ^ 66) n = .ok r ∧ isHappy genericMacros 10 n = .ok r) ∧
    ∀ macros base, isHappy macros base n = isHappy genericMacros base n := by
  refine ⟨isHappy_generic_two hn, ?_, ?_⟩
  · rw [isHappy_generic_ten n hn]
    rcases loopUntil_isHappyTenStep n hn with ⟨h, -⟩ | ⟨h, -⟩
    · exact ⟨1, h, h⟩
    · exact ⟨0, h, h⟩
  · intro macros base
    by_cases hargs : base < 2 ∨ n < 1
    · rw [isHappy, isHappy, if_pos hargs, if_pos hargs]
    · have hb : 2 ≤ base := not_lt.mp (not_or.mp hargs).1
      rw [isHappy, if_neg hargs]
      by_cases h2 : macros.base2 ∧ base = 2
      · rw [if_pos h2, h2.2, isHappy_generic_two hn]
      · rw [if_neg h2]
        by_cases h10 : macros.base10 ∧ base = 10
        · rw [if_pos h10, h10.2, isHappy_generic_ten n hn]
        · rw [if_neg h10, isHappy_generic hb hn]

theorem isHappy_optimized_nineteen :
    isHappy genericMacros 2 19 = .ok 1 ∧
    (∃ r, loopUntil (isHappyTenStep 10) (2 ^ 66) 19 = .ok r ∧
      isHappy genericMacros 10 19 = .ok r) ∧
    ∀ macros base, isHappy macros base 19 = isHappy genericMacros base 19 :=
  isHappy_optimized 19 (by decide)

end Jccl
