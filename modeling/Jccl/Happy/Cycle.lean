/-
# `Jccl.Happy.Cycle` — `is_happy` looks for a cycle, and does not miss one

Before iteration `k` the loop has `n` at the iterate `k` and `halfway` at the
iterate `k / 2`.  It is left in the first iteration where either the iterate
`k` is `1`, or the iterates `k + 1` and `(k + 1) / 2` are the same.  In the
second case the iterates up to `k` are all there are, and none of them is `1`.

That there is such an iteration: the sums are below `2 ^ 64` whatever the base
is, so the iterates are, and two pointers of which one is twice as fast meet.
-/
import Jccl.Happy.Defs
import Jccl.Lib.Cycle

namespace Jccl

/-! ## The sum of the squares -/

/-- Of the iteration that begins with `sum` and `n`: neither the square nor the
sum is reduced modulo `2 ^ 64`. -/
def SumFits (base : Int) (sum n : UInt64) : Prop :=
  sum.toNat + (n % UInt64.ofInt base).toNat * (n % UInt64.ofInt base).toNat < 2 ^ 64

/-- The squares that are still to be added, and their sum so far. -/
def Summing (b : Nat) (total : Nat) (st : UInt64 × UInt64) : Prop :=
  st.1.toNat + digitSquares b st.2.toNat = total

section Sum

variable {base : Int} {total : Nat} (hb : 2 ≤ base) (hmax : base ≤ INT_MAX)
  (htotal : total < 2 ^ 64)

include hb hmax htotal

theorem Summing.fits {sum n : UInt64} (h : Summing base.toNat total (sum, n)) (hn : 0 < n) :
    SumFits base sum n := by
  have hpos : 0 < n.toNat := UInt64.lt_iff_toNat_lt.mp hn
  have hsum : sum.toNat + digitSquares base.toNat n.toNat = total := h
  rw [digitSquares_of_pos (one_lt_toNat hb) hpos, pow_two] at hsum
  rw [SumFits, toNat_mod_base hb (Int.lt_of_le_sub_one hmax)]
  omega

theorem Summing.step {st : UInt64 × UInt64} (h : Summing base.toNat total st) :
    (∃ r, sumOfSquaredDigitsStep base st = .ok (.inl r) ∧ r.toNat = total) ∨
      ∃ st', sumOfSquaredDigitsStep base st = .ok (.inr st') ∧ Summing base.toNat total st' ∧
        st'.2.toNat < st.2.toNat := by
  obtain ⟨sum, n⟩ := st
  have hlt : base < 2 ^ 31 := Int.lt_of_le_sub_one hmax
  by_cases hn : 0 < n
  · right
    have hpos : 0 < n.toNat := UInt64.lt_iff_toNat_lt.mp hn
    have hfits := h.fits hb hmax htotal hn
    rw [SumFits] at hfits
    refine ⟨_, if_pos hn, ?_, ?_⟩
    · have hsum : sum.toNat + digitSquares base.toNat n.toNat = total := h
      show (sum + n % UInt64.ofInt base * (n % UInt64.ofInt base)).toNat +
        digitSquares base.toNat (n / UInt64.ofInt base).toNat = total
      rw [UInt64.toNat_add, UInt64.toNat_mul, Nat.add_mod_mod, Nat.mod_eq_of_lt hfits,
        toNat_mod_base hb hlt, toNat_div_base hb hlt, ← hsum,
        digitSquares_of_pos (one_lt_toNat hb) hpos, pow_two, Nat.add_assoc]
    · show (n / UInt64.ofInt base).toNat < n.toNat
      rw [toNat_div_base hb hlt]
      exact Nat.div_lt_self hpos (one_lt_toNat hb)
  · left
    have hzero : n.toNat = 0 := Nat.eq_zero_of_not_pos fun h => hn (UInt64.lt_iff_toNat_lt.mpr h)
    refine ⟨sum, if_neg hn, ?_⟩
    rw [Summing, hzero, digitSquares_zero] at h
    exact h

end Sum

/-- The map whose iterates `is_happy` goes through. -/
def squaredDigits (base : Int) (n : UInt64) : UInt64 :=
  UInt64.ofNat (digitSquares base.toNat n.toNat)

section Base

variable {base : Int} (hb : 2 ≤ base) (hmax : base ≤ INT_MAX)

include hb hmax

theorem digitSquares_lt (n : UInt64) : digitSquares base.toNat n.toNat < 2 ^ 64 := by
  unfold INT_MAX at hmax
  exact digitSquares_lt_word (one_lt_toNat hb) (by omega) n.toNat_lt

theorem toNat_squaredDigits (n : UInt64) :
    (squaredDigits base n).toNat = digitSquares base.toNat n.toNat := by
  rw [squaredDigits, UInt64.toNat_ofNat', Nat.mod_eq_of_lt (digitSquares_lt hb hmax n)]

theorem sumOfSquaredDigits_eq (n : UInt64) :
    sumOfSquaredDigits base n = .ok (squaredDigits base n) := by
  have hlt := digitSquares_lt hb hmax n
  have hstart : Summing base.toNat (digitSquares base.toNat n.toNat) (0, n) := Nat.zero_add _
  obtain ⟨r, hr, hvalue⟩ :=
    loopUntil_ok (fun st h => Summing.step hb hmax hlt h) hstart (Nat.lt_succ_self n.toNat)
  rw [sumOfSquaredDigits, hr, ← UInt64.toNat_inj.mp (hvalue.trans (toNat_squaredDigits hb hmax n).symm)]

/-- In no iteration is anything reduced modulo `2 ^ 64`. -/
theorem sumFits_of_continues {n : UInt64} {st : UInt64 × UInt64}
    (h : Continues (sumOfSquaredDigitsStep base) (0, n) st) (hn : 0 < st.2) :
    SumFits base st.1 st.2 := by
  have hlt := digitSquares_lt hb hmax n
  have hstart : Summing base.toNat (digitSquares base.toNat n.toNat) (0, n) := Nat.zero_add _
  exact (h.inv_of_step (fun st h => Summing.step hb hmax hlt h) hstart).fits hb hmax hlt hn

theorem toNat_iterate (n : UInt64) (k : Nat) :
    ((squaredDigits base)^[k] n).toNat = (digitSquares base.toNat)^[k] n.toNat := by
  induction k with
  | zero => rfl
  | succ k ih =>
      rw [Function.iterate_succ_apply', Function.iterate_succ_apply',
        toNat_squaredDigits hb hmax, ih]

end Base

/-! ## The loop -/

/-- The state before iteration `k`. -/
def happyState (base : Int) (n : UInt64) (k : Nat) : HappyState where
  i := UInt64.ofNat k
  n := (squaredDigits base)^[k] n
  halfway := (squaredDigits base)^[k / 2] n

/-- Whether iteration `k` is the last one. -/
def Stops (base : Int) (n : UInt64) (k : Nat) : Prop :=
  (squaredDigits base)^[k] n = 1 ∨
    (squaredDigits base)^[k + 1] n = (squaredDigits base)^[(k + 1) / 2] n

instance (base : Int) (n : UInt64) : DecidablePred (Stops base n) :=
  fun _ => inferInstanceAs (Decidable (_ ∨ _))

/-- The parity of the counter is not lost when it wraps around. -/
theorem odd_ofNat (k : Nat) : UInt64.ofNat k % 2 = 1 ↔ k % 2 = 1 := by
  rw [← UInt64.toNat_inj, UInt64.toNat_mod, UInt64.toNat_ofNat']
  show k % 2 ^ 64 % 2 = 1 ↔ _
  rw [Nat.mod_mod_of_dvd k (by norm_num)]

section Loop

variable {base : Int} (hb : 2 ≤ base) (hmax : base ≤ INT_MAX) (n : UInt64)

theorem isHappyStep_one {k : Nat} (h : (squaredDigits base)^[k] n = 1) :
    isHappyStep base (happyState base n k) = .ok (.inl 1) := if_pos h

include hb hmax

/-- The slow pointer moves in every second iteration. -/
theorem moveHalfway_eq (k : Nat) :
    moveHalfway base (UInt64.ofNat k) ((squaredDigits base)^[k / 2] n) =
      .ok ((squaredDigits base)^[(k + 1) / 2] n) := by
  by_cases hodd : k % 2 = 1
  · have hhalf : (k + 1) / 2 = k / 2 + 1 := by omega
    rw [moveHalfway, if_pos ((odd_ofNat k).mpr hodd), sumOfSquaredDigits_eq hb hmax, hhalf,
      Function.iterate_succ_apply']
  · have hhalf : (k + 1) / 2 = k / 2 := by omega
    rw [moveHalfway, if_neg ((odd_ofNat k).not.mpr hodd), hhalf]

theorem isHappyStep_of_ne {k : Nat} (h : (squaredDigits base)^[k] n ≠ 1) :
    isHappyStep base (happyState base n k) =
      if (squaredDigits base)^[k + 1] n = (squaredDigits base)^[(k + 1) / 2] n then .ok (.inl 0)
      else .ok (.inr (happyState base n (k + 1))) := by
  have hfast : sumOfSquaredDigits base ((squaredDigits base)^[k] n) =
      .ok ((squaredDigits base)^[k + 1] n) := by
    rw [sumOfSquaredDigits_eq hb hmax, Function.iterate_succ_apply']
  have hcount : UInt64.ofNat k + 1 = UInt64.ofNat (k + 1) := (UInt64.ofNat_add k 1).symm
  simp only [isHappyStep, happyState, if_neg h, hfast, moveHalfway_eq hb hmax, Outcome.ok_bind,
    hcount, Outcome.pure_eq]

theorem isHappyStep_next {k : Nat} (h : ¬ Stops base n k) :
    isHappyStep base (happyState base n k) = .ok (.inr (happyState base n (k + 1))) := by
  obtain ⟨hone, hmeet⟩ := not_or.mp h
  rw [isHappyStep_of_ne hb hmax n hone, if_neg hmeet]

/-- The pointers meet, at the latest, after `2 ^ 65` iterations. -/
theorem exists_stops : ∃ k < 2 ^ 66, Stops base n k := by
  have hbounded : ∀ k, (digitSquares base.toNat)^[k] n.toNat < 2 ^ 64 := by
    intro k
    rw [← toNat_iterate hb hmax]
    exact UInt64.toNat_lt _
  obtain ⟨m, hm0, hm, hmeet⟩ := exists_meet hbounded
  refine ⟨2 * m - 1, by omega, .inr (UInt64.toNat_inj.mp ?_)⟩
  have htwice : 2 * m - 1 + 1 = 2 * m := by omega
  rw [htwice, Nat.mul_div_cancel_left m two_pos, toNat_iterate hb hmax, toNat_iterate hb hmax,
    hmeet]

/-- What the loop returns, when it is left. -/
theorem loopUntil_isHappyStep :
    (loopUntil (isHappyStep base) (2 ^ 66) { i := 0, n := n, halfway := n } = .ok 1 ∧
      ∃ k, (squaredDigits base)^[k] n = 1) ∨
    (loopUntil (isHappyStep base) (2 ^ 66) { i := 0, n := n, halfway := n } = .ok 0 ∧
      ¬ ∃ k, (squaredDigits base)^[k] n = 1) := by
  have hstops : ∃ k, Stops base n k := (exists_stops hb hmax n).imp fun _ h => h.2
  obtain ⟨k, hk, hk'⟩ := exists_stops hb hmax n
  have hfuel : Nat.find hstops < 2 ^ 66 := (Nat.find_min' hstops hk').trans_lt hk
  have hrun : ∀ i < Nat.find hstops,
      isHappyStep base (happyState base n i) = .ok (.inr (happyState base n (i + 1))) :=
    fun i hi => isHappyStep_next hb hmax n (Nat.find_min hstops hi)
  by_cases hone : (squaredDigits base)^[Nat.find hstops] n = 1
  · left
    exact ⟨loopUntil_of_trace hrun (isHappyStep_one n hone) hfuel, _, hone⟩
  · right
    have hmeet := (Nat.find_spec hstops).resolve_left hone
    have hlast := isHappyStep_of_ne hb hmax n hone
    rw [if_pos hmeet] at hlast
    refine ⟨loopUntil_of_trace hrun hlast hfuel, ?_⟩
    intro ⟨i, hi⟩
    -- an iterate that is `1` would be one of those that were tested
    obtain ⟨l, hl, hil⟩ := iterate_eq_lt (by omega) hmeet i
    rcases Nat.lt_succ_iff_lt_or_eq.mp hl with hlt | rfl
    · exact Nat.find_min hstops hlt (.inl (hil.symm.trans hi))
    · exact hone (hil.symm.trans hi)

end Loop

/-! ## The whole function -/

/-- `is_happy` as it is compiled without the macros. -/
def genericMacros : HappyMacros where
  base2 := false
  base10 := false

section Call

variable {base : Int} (hb : 2 ≤ base) {n : UInt64} (hn : 1 ≤ n)

include hb hn

theorem isHappy_generic :
    isHappy genericMacros base n =
      loopUntil (isHappyStep base) (2 ^ 66) { i := 0, n := n, halfway := n } := by
  have hargs : ¬ (base < 2 ∨ n < 1) := not_or.mpr ⟨not_lt.mpr hb, UInt64.not_lt.mpr hn⟩
  rw [isHappy, if_neg hargs, if_neg (fun h => Bool.noConfusion h.1),
    if_neg (fun h => Bool.noConfusion h.1)]

theorem isHappy_generic_cases (hmax : base ≤ INT_MAX) :
    (isHappy genericMacros base n = .ok 1 ∧ ∃ k, (digitSquares base.toNat)^[k] n.toNat = 1) ∨
    (isHappy genericMacros base n = .ok 0 ∧
      ¬ ∃ k, (digitSquares base.toNat)^[k] n.toNat = 1) := by
  have hone : ∀ k, (squaredDigits base)^[k] n = 1 ↔
      (digitSquares base.toNat)^[k] n.toNat = 1 := by
    intro k
    rw [← toNat_iterate hb hmax, ← UInt64.toNat_inj]
    rfl
  rw [isHappy_generic hb hn]
  rcases loopUntil_isHappyStep hb hmax n with ⟨h, hk⟩ | ⟨h, hk⟩
  · exact .inl ⟨h, (exists_congr hone).mp hk⟩
  · exact .inr ⟨h, (exists_congr hone).not.mp hk⟩

end Call

/-- **What `is_happy` returns**: whether an iterate of the map is `1`; and the
map is computed without a sum or a square that wraps around. -/
theorem isHappy_eq_one_iff (base : Int) (hb : 2 ≤ base) (hmax : base ≤ INT_MAX) :
    (∀ n : UInt64, 1 ≤ n → ∃ r, isHappy genericMacros base n = .ok r ∧
      ((r = 1 ∧ ∃ k, (digitSquares base.toNat)^[k] n.toNat = 1) ∨
        (r = 0 ∧ ¬ ∃ k, (digitSquares base.toNat)^[k] n.toNat = 1))) ∧
    ∀ n : UInt64, (∃ r, sumOfSquaredDigits base n = .ok r ∧
        r.toNat = digitSquares base.toNat n.toNat) ∧
      ∀ sum rest, Continues (sumOfSquaredDigitsStep base) (0, n) (sum, rest) → 0 < rest →
        SumFits base sum rest := by
  refine ⟨fun n hn => ?_, fun n => ⟨?_, fun sum rest h => sumFits_of_continues hb hmax h⟩⟩
  · rcases isHappy_generic_cases hb hn hmax with ⟨h, hk⟩ | ⟨h, hk⟩
    · exact ⟨1, h, .inl ⟨rfl, hk⟩⟩
    · exact ⟨0, h, .inr ⟨rfl, hk⟩⟩
  · exact ⟨_, sumOfSquaredDigits_eq hb hmax n, toNat_squaredDigits hb hmax n⟩

theorem isHappy_eq_one_iff_nineteen :
    (∃ r, isHappy genericMacros 10 19 = .ok r ∧
      ((r = 1 ∧ ∃ k, (digitSquares 10)^[k] 19 = 1) ∨
        (r = 0 ∧ ¬ ∃ k, (digitSquares 10)^[k] 19 = 1))) ∧
    ∃ r, sumOfSquaredDigits 10 19 = .ok r ∧ r.toNat = digitSquares 10 19 :=
  ⟨(isHappy_eq_one_iff 10 (by decide) (by decide)).1 19 (by decide),
    ((isHappy_eq_one_iff 10 (by decide) (by decide)).2 19).1⟩

end Jccl
