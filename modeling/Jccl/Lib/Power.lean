/-
# `Jccl.Lib.Power` — powers by repeated squaring

The bits of the exponent are taken from the lowest one on.  After `i` of them
the square at hand is `b ^ 2 ^ i`, and the product is `b` to the bits seen so
far.  Modulo `m` the squares are kept as residues (`residue`); the product of
those that are used is not reduced (`residueProduct`), and what it is
congruent to is `residueProduct_modEq`.

Whether a number is a power is found out by dividing.  A quotient is a power
with an exponent that is not zero just if the number is one and is not the
base itself (`IsPositivePower`).
-/
import Mathlib.Algebra.Group.Nat.Even
import Mathlib.Data.Nat.ModEq
import Mathlib.Data.Nat.Size

namespace Jccl

/-- The bit `i` of the exponent, in any monoid. -/
theorem pow_mod_two_pow_succ {M : Type} [Monoid M] (b : M) (e i : Nat) :
    b ^ (e % 2 ^ (i + 1)) = b ^ (e % 2 ^ i) * if e.testBit i then b ^ 2 ^ i else 1 := by
  have hbit : e / 2 ^ i % 2 = (e.testBit i).toNat := (Nat.toNat_testBit e i).symm
  rw [pow_succ, Nat.mod_mul, pow_add, hbit]
  cases e.testBit i with
  | false => simp
  | true => simp

theorem mod_two_pow_size (e : Nat) : e % 2 ^ e.size = e := Nat.mod_eq_of_lt (Nat.lt_size_self e)

section Residue

variable (b e m : Nat)

/-- What is left of `b` after `i` squarings modulo `m`. -/
def residue (i : Nat) : Nat := b ^ 2 ^ i % m

/-- The product of those residues that belong to the lowest `i` bits of `e`. -/
def residueProduct : Nat → Nat
  | 0 => 1
  | i + 1 => if e.testBit i then residueProduct i * residue b m i else residueProduct i

theorem residue_zero : residue b m 0 = b % m := by
  rw [residue, pow_zero, pow_one]

theorem residue_succ (i : Nat) : residue b m (i + 1) = residue b m i * residue b m i % m := by
  rw [residue, residue, pow_succ, pow_mul, pow_two, Nat.mul_mod]

theorem residueProduct_modEq (i : Nat) : residueProduct b e m i ≡ b ^ (e % 2 ^ i) [MOD m] := by
  induction i with
  | zero =>
      show 1 ≡ _ [MOD m]
      rw [pow_zero, Nat.mod_one, pow_zero]
  | succ i ih =>
      rw [pow_mod_two_pow_succ, residueProduct]
      by_cases hbit : e.testBit i
      · rw [if_pos hbit, if_pos hbit]
        exact ih.mul (Nat.mod_modEq _ _)
      · rw [if_neg hbit, if_neg hbit, mul_one]
        exact ih

/-- Once every bit was seen, the product is the power. -/
theorem residueProduct_size : residueProduct b e m e.size % m = b ^ e % m := by
  have h := residueProduct_modEq b e m e.size
  rwa [mod_two_pow_size] at h

end Residue

/-! ## Dividing by the base -/

/-- A power with an exponent that is not zero. -/
def IsPositivePower (b n : Nat) : Prop := ∃ k, n = b ^ (k + 1)

section Division

variable {b n : Nat}

theorem isPositivePower_self (b : Nat) : IsPositivePower b b := ⟨0, (pow_one b).symm⟩

theorem IsPositivePower.dvd (h : IsPositivePower b n) : b ∣ n := by
  obtain ⟨k, rfl⟩ := h
  exact dvd_pow_self b k.succ_ne_zero

theorem isPositivePower_div (hb : 0 < b) (hdvd : b ∣ n) (hne : n ≠ b) :
    IsPositivePower b (n / b) ↔ IsPositivePower b n := by
  obtain ⟨m, rfl⟩ := hdvd
  rw [Nat.mul_div_cancel_left m hb]
  constructor
  · rintro ⟨k, rfl⟩
    exact ⟨k + 1, (pow_succ' b (k + 1)).symm⟩
  · rintro ⟨k, hk⟩
    rw [pow_succ'] at hk
    have hm : m = b ^ k := Nat.eq_of_mul_eq_mul_left hb hk
    cases k with
    | zero => exact absurd (by rw [hm, pow_zero, mul_one]) hne
    | succ k => exact ⟨k, hm⟩

theorem isPositivePower_iff (hn : n ≠ 1) : IsPositivePower b n ↔ ∃ k, n = b ^ k := by
  constructor
  · rintro ⟨k, hk⟩
    exact ⟨k + 1, hk⟩
  · rintro ⟨k, hk⟩
    cases k with
    | zero => exact absurd (hk.trans (pow_zero b)) hn
    | succ k => exact ⟨k, hk⟩

/-- An even number is a power of two just if its half is. -/
theorem exists_two_pow_half (heven : 2 ∣ n) : (∃ k, n / 2 = 2 ^ k) ↔ ∃ k, n = 2 ^ k := by
  obtain ⟨m, rfl⟩ := heven
  rw [Nat.mul_div_cancel_left m Nat.two_pos]
  constructor
  · rintro ⟨k, rfl⟩
    exact ⟨k + 1, (pow_succ' 2 k).symm⟩
  · rintro ⟨k, hk⟩
    cases k with
    | zero => omega
    | succ k => exact ⟨k, Nat.eq_of_mul_eq_mul_left Nat.two_pos (hk.trans (pow_succ' 2 k))⟩

theorem exists_two_pow_of_odd (hodd : ¬ 2 ∣ n) : (∃ k, n = 2 ^ k) ↔ n = 1 := by
  constructor
  · rintro ⟨k, rfl⟩
    cases k with
    | zero => rfl
    | succ k => exact absurd (dvd_pow_self 2 k.succ_ne_zero) hodd
  · exact fun h => ⟨0, h⟩

end Division

end Jccl
