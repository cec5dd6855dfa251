/-
# `Jccl.Power.Perfect` — `is_power_of` and `is_power_of_2` know the powers

The loop of `is_power_of` keeps whether `n` is a power of the base with an
exponent that is not zero; that is why `1` is a case of its own, and why the
loop may take `1` for no power when it comes to it.  The loop of
`is_power_of_2` keeps whether `n` is a power of two, and is left at an odd
number, of which only `1` is one.
-/
import Jccl.Lib.Power
import Jccl.Power.Defs

namespace Jccl

/-- The value of a C function that tells whether `p`. -/
def Answers (r : Int) (p : Prop) : Prop := r = 1 ∧ p ∨ r = 0 ∧ ¬ p

section Answers

variable {r r' : Int} {p q : Prop}

theorem Answers.eq_one_iff (h : Answers r p) : r = 1 ↔ p := by
  rcases h with ⟨rfl, hp⟩ | ⟨rfl, hp⟩
  · exact ⟨fun _ => hp, fun _ => rfl⟩
  · exact ⟨fun h => absurd h (by decide), fun h => absurd h hp⟩

theorem Answers.congr (h : Answers r p) (hpq : p ↔ q) : Answers r q :=
  h.imp (fun h => ⟨h.1, hpq.mp h.2⟩) (fun h => ⟨h.1, hpq.not.mp h.2⟩)

theorem Answers.unique (h : Answers r p) (h' : Answers r' p) : r = r' := by
  rcases h with ⟨rfl, hp⟩ | ⟨rfl, hp⟩
  · exact (h'.eq_one_iff.mpr hp).symm
  · rcases h' with ⟨-, hp'⟩ | ⟨rfl, -⟩
    · exact absurd hp' hp
    · rfl

end Answers

/-! ## Any base -/

section Base

variable {base : UInt32} {n : UInt64} {p : Prop}

/-- What an iteration of `is_power_of` keeps. -/
structure Stripping (base : UInt32) (p : Prop) (n : UInt64) : Prop where
  pos : 0 < n.toNat
  same : IsPositivePower base.toNat n.toNat ↔ p

theorem Stripping.step (hb : 2 ≤ base.toNat) (h : Stripping base p n) :
    (∃ r, isPowerOfStep base n = .ok (.inl r) ∧ Answers r p) ∨
      ∃ m, isPowerOfStep base n = .ok (.inr m) ∧ Stripping base p m ∧ m.toNat < n.toNat := by
  have hgo : 0 < n := UInt64.lt_iff_toNat_lt.mpr h.pos
  rw [isPowerOfStep, if_pos hgo]
  by_cases hbase : n = base.toUInt64
  · left
    rw [if_pos hbase]
    have hself : n.toNat = base.toNat := by rw [hbase, UInt32.toNat_toUInt64]
    exact ⟨1, rfl, .inl ⟨rfl, h.same.mp (hself ▸ isPositivePower_self _)⟩⟩
  · rw [if_neg hbase]
    have hne : n.toNat ≠ base.toNat := fun heq =>
      hbase (UInt64.toNat_inj.mp (heq.trans (UInt32.toNat_toUInt64 base).symm))
    by_cases hmod : n % base.toUInt64 ≠ 0
    · left
      rw [if_pos hmod]
      refine ⟨0, rfl, .inr ⟨rfl, fun hp => hmod ?_⟩⟩
      have hdvd := (h.same.mpr hp).dvd
      rw [← UInt64.toNat_inj, UInt64.toNat_mod, UInt32.toNat_toUInt64]
      exact Nat.mod_eq_zero_of_dvd hdvd
    · right
      rw [if_neg hmod]
      have hdvd : base.toNat ∣ n.toNat := by
        rw [not_not, ← UInt64.toNat_inj, UInt64.toNat_mod, UInt32.toNat_toUInt64] at hmod
        exact Nat.dvd_of_mod_eq_zero hmod
      have hdiv : (n / base.toUInt64).toNat = n.toNat / base.toNat := by
        rw [UInt64.toNat_div, UInt32.toNat_toUInt64]
      refine ⟨_, rfl, ⟨?_, ?_⟩, ?_⟩
      · rw [hdiv]
        exact Nat.div_pos (Nat.le_of_dvd h.pos hdvd) (Nat.zero_lt_of_lt hb)
      · rw [hdiv, isPositivePower_div (Nat.zero_lt_of_lt hb) hdvd hne]
        exact h.same
      · rw [hdiv]
        exact Nat.div_lt_self h.pos hb

theorem isPowerOf_answers (base : UInt32) (n : UInt64) : ∃ r, isPowerOf base n = .ok r ∧
    Answers r (2 ≤ base.toNat ∧ ∃ k, n.toNat = base.toNat ^ k) := by
  rw [isPowerOf]
  by_cases hb : base < 2
  · rw [if_pos hb]
    exact ⟨0, rfl, .inr ⟨rfl, fun h => absurd (UInt32.lt_iff_toNat_lt.mp hb) (not_lt.mpr h.1)⟩⟩
  have hb' : 2 ≤ base.toNat := not_lt.mp fun hlt => hb (UInt32.lt_iff_toNat_lt.mpr hlt)
  rw [if_neg hb]
  by_cases hzero : n = 0
  · rw [if_pos hzero]
    refine ⟨0, rfl, .inr ⟨rfl, fun ⟨_, k, hk⟩ => ?_⟩⟩
    rw [hzero] at hk
    exact absurd hk.symm (Nat.pow_pos (Nat.zero_lt_of_lt hb')).ne'
  rw [if_neg hzero]
  by_cases hone : n = 1
  · rw [if_pos hone]
    exact ⟨1, rfl, .inl ⟨rfl, hb', 0, by rw [hone, pow_zero]; rfl⟩⟩
  · have hpos : 0 < n.toNat := Nat.pos_of_ne_zero fun h0 => hzero (UInt64.toNat_inj.mp h0)
    have hne : n.toNat ≠ 1 := fun h1 => hone (UInt64.toNat_inj.mp h1)
    obtain ⟨r, hrun, hr⟩ := loopUntil_ok (fun _ h => Stripping.step hb' h) ⟨hpos, Iff.rfl⟩
      (Nat.lt_succ_self n.toNat)
    rw [if_neg hone]
    exact ⟨r, hrun, hr.congr ((isPositivePower_iff hne).trans (and_iff_right hb').symm)⟩

end Base

/-! ## Base 2 -/

section Two

variable {n : UInt64} {p : Prop}

/-- What an iteration of `is_power_of_2` keeps. -/
structure Halving (p : Prop) (n : UInt64) : Prop where
  pos : 0 < n.toNat
  same : (∃ k, n.toNat = 2 ^ k) ↔ p

theorem even_iff (n : UInt64) : n &&& 1 = 0 ↔ 2 ∣ n.toNat := by
  rw [← UInt64.toNat_inj, UInt64.toNat_and, UInt64.toNat_one, Nat.and_one_is_mod,
    UInt64.toNat_zero, Nat.dvd_iff_mod_eq_zero]

theorem Halving.step (h : Halving p n) :
    (∃ r, isPowerOf2Step n = .ok (.inl r) ∧ Answers r p) ∨
      ∃ m, isPowerOf2Step n = .ok (.inr m) ∧ Halving p m ∧ m.toNat < n.toNat := by
  rw [isPowerOf2Step]
  by_cases heven : n &&& 1 = 0
  · right
    have hdvd := (even_iff n).mp heven
    have hhalf : (n >>> 1).toNat = n.toNat / 2 := by
      rw [UInt64.toNat_shiftRight]
      exact Nat.shiftRight_eq_div_pow _ 1
    rw [if_pos heven]
    refine ⟨_, rfl, ⟨?_, ?_⟩, ?_⟩
    · rw [hhalf]
      exact Nat.div_pos (Nat.le_of_dvd h.pos hdvd) Nat.two_pos
    · rw [hhalf, exists_two_pow_half hdvd]
      exact h.same
    · rw [hhalf]
      exact Nat.div_lt_self h.pos Nat.one_lt_two
  · left
    have hone := exists_two_pow_of_odd (mt (even_iff n).mpr heven)
    rw [if_neg heven]
    refine ⟨_, rfl, ?_⟩
    by_cases hn : n = 1
    · rw [if_pos hn]
      exact .inl ⟨rfl, h.same.mp (hone.mpr (by rw [hn]; rfl))⟩
    · rw [if_neg hn]
      exact .inr ⟨rfl, fun hp => hn (UInt64.toNat_inj.mp (hone.mp (h.same.mpr hp)))⟩

theorem isPowerOf2_answers (n : UInt64) : ∃ r, isPowerOf2 n = .ok r ∧
    Answers r (∃ k, n.toNat = 2 ^ k) := by
  rw [isPowerOf2]
  by_cases hzero : n = 0
  · rw [if_pos hzero]
    refine ⟨0, rfl, .inr ⟨rfl, fun ⟨k, hk⟩ => ?_⟩⟩
    rw [hzero] at hk
    exact absurd hk.symm (Nat.two_pow_pos k).ne'
  · have hpos : 0 < n.toNat := Nat.pos_of_ne_zero fun h0 => hzero (UInt64.toNat_inj.mp h0)
    rw [if_neg hzero]
    exact loopUntil_ok (fun _ h => Halving.step h) ⟨hpos, Iff.rfl⟩ (Nat.lt_succ_self n.toNat)

end Two

/-- **The powers are known**, of every base, and of base 2 by either function. -/
theorem isPowerOf_eq_one_iff (base : UInt32) (n : UInt64) :
    (∃ r, isPowerOf base n = .ok r ∧ (r = 0 ∨ r = 1) ∧
      (r = 1 ↔ 2 ≤ base.toNat ∧ ∃ k, n.toNat = base.toNat ^ k)) ∧
    ∃ r, isPowerOf2 n = .ok r ∧ isPowerOf 2 n = .ok r := by
  constructor
  · obtain ⟨r, hrun, hr⟩ := isPowerOf_answers base n
    exact ⟨r, hrun, hr.elim (fun h => .inr h.1) (fun h => .inl h.1), hr.eq_one_iff⟩
  · obtain ⟨r, hrun, hr⟩ := isPowerOf2_answers n
    obtain ⟨r', hrun', hr'⟩ := isPowerOf_answers 2 n
    have hsame : r = r' := hr.unique (hr'.congr (and_iff_right (le_refl 2)))
    exact ⟨r, hrun, hsame ▸ hrun'⟩

example : isPowerOf 7 343 = .ok 1 ∧ isPowerOf 7 344 = .ok 0 := by decide

end Jccl
