/-
# `Jccl.Lib.Digits` — positional notation

The digits of a number are `Nat.digits`, the lowest one first.  A number that
is written down has its highest digit first, and is read by Horner's rule
(`positional`).

C takes the lowest digit off by `n % base` and `n / base`, where `n` is an
`unsigned long` and the `int` that is the base is converted to one.
-/
import Mathlib

namespace Jccl

/-- The value of a list of digits, the highest one first. -/
def positional (base : Int) (ds : List Int) : Int := ds.foldl (fun v d => v * base + d) 0

theorem positional_reverse (b : Nat) (ds : List Nat) :
    positional b (ds.reverse.map Nat.cast) = Nat.ofDigits b ds := by
  have hflip : (fun (v : Int) (d : Nat) => v * b + d) = fun (v : Int) (d : Nat) => d + b * v := by
    funext v d
    rw [mul_comm, add_comm]
  rw [positional, List.foldl_map, hflip, Nat.coe_ofDigits, Nat.ofDigits_eq_foldr,
    ← List.foldr_reverse, List.reverse_reverse]

section Unsigned

variable {base : Int} (hb : 2 ≤ base) (hmax : base < 2 ^ 31) (n : UInt64)

include hb

theorem one_lt_toNat : 1 < base.toNat := by omega

include hmax

theorem toNat_ofBase : (UInt64.ofInt base).toNat = base.toNat := by
  have hmod : base % 2 ^ 64 = base := Int.emod_eq_of_lt (by omega) (by omega)
  have hlt : base.toNat < 2 ^ 64 := by omega
  show (UInt64.ofNat (base % 2 ^ 64).toNat).toNat = _
  rw [hmod, UInt64.toNat_ofNat', Nat.mod_eq_of_lt hlt]

theorem toNat_mod_base : (n % UInt64.ofInt base).toNat = n.toNat % base.toNat := by
  rw [UInt64.toNat_mod, toNat_ofBase hb hmax]

theorem toNat_div_base : (n / UInt64.ofInt base).toNat = n.toNat / base.toNat := by
  rw [UInt64.toNat_div, toNat_ofBase hb hmax]

end Unsigned

section Squares

/-- The sum of the squares of the digits of `n`. -/
def digitSquares (b n : Nat) : Nat := ((b.digits n).map (· ^ 2)).sum

variable {b n : Nat}

theorem digitSquares_zero (b : Nat) : digitSquares b 0 = 0 := by
  rw [digitSquares, Nat.digits_zero]
  rfl

theorem digitSquares_of_pos (hb : 1 < b) (hn : 0 < n) :
    digitSquares b n = (n % b) ^ 2 + digitSquares b (n / b) := by
  rw [digitSquares, Nat.digits_def' hb hn, List.map_cons, List.sum_cons, digitSquares]

theorem digitSquares_eq_zero (hb : 1 < b) : digitSquares b n = 0 ↔ n = 0 := by
  constructor
  · intro h
    induction n using Nat.strong_induction_on with
    | _ n ih =>
        rcases Nat.eq_zero_or_pos n with hn | hn
        · exact hn
        · rw [digitSquares_of_pos hb hn, Nat.add_eq_zero_iff] at h
          have hmod : n % b = 0 := pow_eq_zero_iff two_ne_zero |>.mp h.1
          have hdiv : n / b = 0 := ih _ (Nat.div_lt_self hn hb) h.2
          rw [← Nat.div_add_mod n b, hmod, hdiv, Nat.mul_zero]
  · intro h
    rw [h, digitSquares_zero]

theorem digitSquares_le (hb : 1 < b) : digitSquares b n ≤ (b.digits n).length * b ^ 2 := by
  have hle : ∀ x ∈ (b.digits n).map (· ^ 2), x ≤ b ^ 2 := by
    intro x hx
    obtain ⟨d, hd, rfl⟩ := List.mem_map.mp hx
    exact Nat.pow_le_pow_left (Nat.digits_lt_base hb hd).le 2
  have hsum := List.sum_le_card_nsmul _ _ hle
  rwa [List.length_map, smul_eq_mul] at hsum

/-- Three digits are few, and for a number with more of them the base is small. -/
theorem digitSquares_lt_word (hb : 1 < b) (hb31 : b < 2 ^ 31) (hn : n < 2 ^ 64) :
    digitSquares b n < 2 ^ 64 := by
  refine (digitSquares_le hb).trans_lt ?_
  by_cases hfew : (b.digits n).length ≤ 3
  · calc (b.digits n).length * b ^ 2 ≤ 3 * (2 ^ 31) ^ 2 :=
          Nat.mul_le_mul hfew (Nat.pow_le_pow_left hb31.le 2)
      _ < 2 ^ 64 := by norm_num
  · have hcube : b ^ 3 ≤ n := by
      by_contra hlt
      exact hfew ((Nat.digits_length_le_iff hb n).mpr (not_le.mp hlt))
    have hb22 : b < 2 ^ 22 := by
      by_contra hge
      have hpow := Nat.pow_le_pow_left (not_lt.mp hge) 3
      omega
    have hlen : (b.digits n).length ≤ 64 :=
      (Nat.digits_length_le_iff hb n).mpr (hn.trans_le (Nat.pow_le_pow_left hb 64))
    calc (b.digits n).length * b ^ 2 ≤ 64 * (2 ^ 22) ^ 2 :=
          Nat.mul_le_mul hlen (Nat.pow_le_pow_left hb22.le 2)
      _ < 2 ^ 64 := by norm_num

/-- Of the digits `t`, `u` and `r` of a number in the base `c + 1`. -/
theorem three_squares_lt {c t u r : Nat} (ht : 1 ≤ t) (htc : t ≤ c) (huc : u ≤ c) (hrc : r ≤ c) :
    r ^ 2 + (u ^ 2 + t ^ 2) < (c + 1) * ((c + 1) * t + u) + r := by
  have hr : r * r ≤ c * c := Nat.mul_le_mul hrc hrc
  have hu : u * u ≤ c * u := Nat.mul_le_mul_right u huc
  have hsquare : t * t ≤ c * t := Nat.mul_le_mul_right t htc
  have hcc : c * c * 1 ≤ c * c * t := Nat.mul_le_mul_left (c * c) ht
  nlinarith only [hr, hu, hsquare, hcc, ht]

/-- The sum is below a number with three digits or more. -/
theorem digitSquares_lt_self (hb : 1 < b) (hn : b ^ 2 ≤ n) : digitSquares b n < n := by
  have hb0 : 0 < b := Nat.zero_lt_of_lt hb
  induction n using Nat.strong_induction_on with
  | _ n ih =>
      have hpos : 0 < n := (pow_pos hb0 2).trans_le hn
      have hq : b ≤ n / b := by
        rw [Nat.le_div_iff_mul_le hb0, ← pow_two]
        exact hn
      have hr : n % b < b := Nat.mod_lt _ hb0
      have hsplit : b * (n / b) + n % b = n := Nat.div_add_mod n b
      rw [digitSquares_of_pos hb hpos]
      by_cases hlarge : b ^ 2 ≤ n / b
      · have hlt := ih _ (Nat.div_lt_self hpos hb) hlarge
        have hsquare : (n % b) ^ 2 < b ^ 2 := Nat.pow_lt_pow_left hr two_ne_zero
        have htwice : 2 * (n / b) ≤ b * (n / b) := Nat.mul_le_mul_right _ hb
        omega
      · have hq1 : n / b / b < b := by
          rw [Nat.div_lt_iff_lt_mul hb0, ← pow_two]
          exact not_le.mp hlarge
        have htop : 1 ≤ n / b / b := Nat.div_pos hq hb0
        have hu : n / b % b < b := Nat.mod_lt _ hb0
        have hqsplit : b * (n / b / b) + n / b % b = n / b := Nat.div_add_mod _ b
        rw [digitSquares_of_pos hb (hb0.trans_le hq), digitSquares_of_pos hb htop,
          Nat.div_eq_of_lt hq1, Nat.mod_eq_of_lt hq1, digitSquares_zero, Nat.add_zero]
        obtain ⟨c, rfl⟩ := Nat.exists_eq_succ_of_ne_zero hb0.ne'
        calc _ < (c + 1) * ((c + 1) * (n / (c + 1) / (c + 1)) + n / (c + 1) % (c + 1))
              + n % (c + 1) :=
              three_squares_lt htop (Nat.le_of_lt_succ hq1) (Nat.le_of_lt_succ hu)
                (Nat.le_of_lt_succ hr)
          _ = n := by rw [hqsplit, hsplit]

end Squares

theorem digits_length_le {b : Nat} (hb : 1 < b) (n : UInt64) :
    (b.digits n.toNat).length ≤ 64 := by
  rw [Nat.digits_length_le_iff hb]
  exact n.toNat_lt.trans_le (Nat.pow_le_pow_left hb 64)

end Jccl
