/-
# `Jccl.Lib.WordShift` — words shifted by bits, with a carry between them

A shift of a list of words by less than a word hands the bits that leave one
word over to the next: up the list when it shifts left, down when it shifts
right.  Each of the two steps is one equation between numbers here, so that a
loop over the words is a sum of such equations.

A loop that runs down from the top has only the upper words of its result so
far, whose own top bit says nothing before the first of them is written;
`extended` reads words below a sign that is told from outside.
-/
import Jccl.Lib.Words

namespace Jccl.Words

variable {w : Nat}

/-! ## One word and its carry -/

section Step

variable {x c : BitVec w} {k : Nat}

/-- Leftwards: the carry comes in below and the top bits go out. -/
theorem shiftLeft_or_carry (hk : k ≤ w) (hc : c.toNat < 2 ^ k) :
    (x <<< k ||| c).toNat + 2 ^ w * (x >>> (w - k)).toNat = x.toNat * 2 ^ k + c.toNat := by
  have hpow : 2 ^ w = 2 ^ k * 2 ^ (w - k) := by rw [← pow_add, Nat.add_sub_cancel' hk]
  have hx : x.toNat * 2 ^ k % 2 ^ w = 2 ^ k * (x.toNat % 2 ^ (w - k)) := by
    rw [hpow, Nat.mul_comm, Nat.mul_mod_mul_left]
  have hsplit := Nat.div_add_mod x.toNat (2 ^ (w - k))
  rw [BitVec.toNat_or, BitVec.toNat_shiftLeft, Nat.shiftLeft_eq, hx,
    ← Nat.two_pow_add_eq_or_of_lt hc, BitVec.toNat_ushiftRight, Nat.shiftRight_eq_div_pow, hpow]
  calc 2 ^ k * (x.toNat % 2 ^ (w - k)) + c.toNat
        + 2 ^ k * 2 ^ (w - k) * (x.toNat / 2 ^ (w - k))
      = 2 ^ k * (2 ^ (w - k) * (x.toNat / 2 ^ (w - k)) + x.toNat % 2 ^ (w - k)) + c.toNat := by ring
    _ = x.toNat * 2 ^ k + c.toNat := by rw [hsplit, Nat.mul_comm]

theorem toNat_shiftRight_lt (hk : k ≤ w) : (x >>> (w - k)).toNat < 2 ^ k := by
  have hx := x.isLt
  rw [BitVec.toNat_ushiftRight, Nat.shiftRight_eq_div_pow]
  apply Nat.div_lt_of_lt_mul
  rwa [← pow_add, Nat.sub_add_cancel hk]

/-- Rightwards: the carry comes in above, as the low bits of the word there. -/
theorem shiftRight_or_carry (hk : k ≤ w) {r : Nat} (hc : c.toNat = r * 2 ^ (w - k)) :
    (x >>> k ||| c).toNat = x.toNat / 2 ^ k + r * 2 ^ (w - k) := by
  have hx := x.isLt
  have hlt : x.toNat / 2 ^ k < 2 ^ (w - k) := by
    apply Nat.div_lt_of_lt_mul
    rwa [← pow_add, Nat.add_sub_cancel' hk]
  rw [BitVec.toNat_or, BitVec.toNat_ushiftRight, Nat.shiftRight_eq_div_pow, hc, Nat.or_comm,
    Nat.mul_comm r, ← Nat.two_pow_add_eq_or_of_lt hlt, Nat.add_comm]

theorem toNat_shiftLeft_low (hk : k ≤ w) :
    (x <<< (w - k)).toNat = x.toNat % 2 ^ k * 2 ^ (w - k) := by
  have hpow : 2 ^ w = 2 ^ k * 2 ^ (w - k) := by rw [← pow_add, Nat.add_sub_cancel' hk]
  rw [BitVec.toNat_shiftLeft, Nat.shiftLeft_eq, hpow, Nat.mul_mod_mul_right]

end Step

/-! ## Words below a given sign -/

/-- The reading of words above which every bit is `b`. -/
def extended (b : Bool) (ws : List (BitVec w)) : Int :=
  unsigned ws - if b then 2 ^ (w * ws.length) else 0

theorem extended_cons (b : Bool) (x : BitVec w) (ws : List (BitVec w)) :
    extended b (x :: ws) = x.toNat + 2 ^ w * extended b ws := by
  rw [extended, extended, unsigned_cons, List.length_cons, Nat.mul_succ, pow_add]
  split <;> push_cast <;> ring

theorem extended_nil (b : Bool) : extended b ([] : List (BitVec w)) = if b then -1 else 0 := by
  cases b <;> simp [extended]

/-- Above the words there is the sign, which a quotient keeps. -/
theorem extended_nil_mul {b : Bool} {k : Nat} (hk : k ≤ w) :
    extended b ([] : List (BitVec w)) * 2 ^ k + ((fill b : BitVec w).toNat % 2 ^ k : Nat)
      = extended b ([] : List (BitVec w)) := by
  cases b
  · simp [extended_nil]
  · have hpow : 2 ^ w = 2 ^ k * 2 ^ (w - k) := by rw [← pow_add, Nat.add_sub_cancel' hk]
    have hmod : (2 ^ w - 1) % 2 ^ k = 2 ^ k - 1 := by
      obtain ⟨d, hd⟩ : ∃ d, 2 ^ (w - k) = d + 1 := ⟨2 ^ (w - k) - 1, by
        have : 0 < 2 ^ (w - k) := by positivity
        omega⟩
      have hk0 : 0 < 2 ^ k := by positivity
      rw [hpow, hd, Nat.mul_succ, Nat.add_sub_assoc hk0, Nat.mul_add_mod,
        Nat.mod_eq_of_lt (by omega)]
    have hone : 1 ≤ 2 ^ k := Nat.one_le_two_pow
    rw [extended_nil, if_pos rfl, fill_true, BitVec.toNat_allOnes, hmod, Nat.cast_sub hone]
    push_cast
    ring

theorem signed_eq_extended (ws : List (BitVec w)) : signed ws = extended (msb ws) ws := rfl

/-- In the range of the words, the sign is the one their top bit shows. -/
theorem signed_of_fits (hw : 0 < w) {b : Bool} {ws : List (BitVec w)} (h : ws ≠ [])
    (hfits : Fits w ws.length (extended b ws)) : signed ws = extended b ws := by
  have hbmod := (fits_iff_bmod hw (List.length_pos_iff.mpr h)).mp hfits
  rw [signed_eq_bmod hw, ← hbmod, extended]
  have hcast : (2 : Int) ^ (w * ws.length) = ((2 ^ (w * ws.length) : Nat) : Int) := by
    push_cast
    rfl
  cases b
  · simp
  · rw [if_pos rfl, hcast, Int.sub_bmod_right]

theorem Fits.ediv {m : Nat} {v : Int} (h : Fits w m v) (k : Nat) : Fits w m (v / 2 ^ k) := by
  have hk : (0 : Int) < 2 ^ k := by positivity
  have hone : (1 : Int) ≤ 2 ^ k := hk
  have hm : (0 : Int) < 2 ^ (w * m - 1) := by positivity
  obtain ⟨hlo, hhi⟩ := h
  constructor
  · exact (Int.le_ediv_iff_mul_le hk).mpr (by nlinarith)
  · exact (Int.ediv_lt_iff_lt_mul hk).mpr (by nlinarith)

/-- Words that are the quotient of a number by a power of two. -/
theorem signed_eq_ediv (hw : 0 < w) {b : Bool} {ws : List (BitVec w)} (h : ws ≠ []) {v : Int}
    {k r : Nat} (hr : r < 2 ^ k) (hv : extended b ws * 2 ^ k + r = v)
    (hfits : Fits w ws.length v) : signed ws = v / 2 ^ k := by
  have hquot : v / 2 ^ k = extended b ws := by
    have hlt : (r : Int) < 2 ^ k := by exact_mod_cast hr
    rw [← hv, Int.mul_comm, Int.mul_add_ediv_left _ _ (by positivity),
      Int.ediv_eq_zero_of_lt (Int.natCast_nonneg r) hlt, Int.add_zero]
  rw [hquot]
  exact signed_of_fits hw h (hquot ▸ hfits.ediv k)

/-! ## Whole words -/

theorem signed_append {us vs : List (BitVec w)} (h : vs ≠ []) :
    signed (us ++ vs) = unsigned us + 2 ^ (w * us.length) * signed vs := by
  rw [signed, signed, msb_append h, unsigned_append, List.length_append, Nat.mul_add, pow_add]
  split <;> push_cast <;> ring

theorem msb_drop {ws : List (BitVec w)} {p : Nat} (hp : p < ws.length) :
    msb (ws.drop p) = msb ws := by
  have hne : ws.drop p ≠ [] := List.ne_nil_of_length_pos (by rw [List.length_drop]; omega)
  have happ : msb (ws.take p ++ ws.drop p) = msb (ws.drop p) := msb_append hne
  rw [List.take_append_drop] at happ
  exact happ.symm

/-- The words above a place are the quotient there. -/
theorem signed_drop {ws : List (BitVec w)} {p : Nat} (hp : p < ws.length) :
    signed (ws.drop p) = signed ws / 2 ^ (w * p) := by
  have hne : ws.drop p ≠ [] := List.ne_nil_of_length_pos (by rw [List.length_drop]; omega)
  have hlt := unsigned_lt (ws.take p)
  have hlen : (ws.take p).length = p := List.length_take_of_le hp.le
  rw [hlen] at hlt
  have happ : signed (ws.take p ++ ws.drop p)
      = unsigned (ws.take p) + 2 ^ (w * (ws.take p).length) * signed (ws.drop p) :=
    signed_append hne
  rw [List.take_append_drop, hlen] at happ
  have hcast : (unsigned (ws.take p) : Int) < 2 ^ (w * p) := by exact_mod_cast hlt
  rw [happ, Int.add_mul_ediv_left _ _ (by positivity),
    Int.ediv_eq_zero_of_lt (Int.natCast_nonneg _) hcast, Int.zero_add]

/-- A last word that holds the outgoing carry below a shifted sign. -/
theorem signed_append_carry (init : List (BitVec w)) {c : BitVec w} {k : Nat} (hk : k < w)
    (hc : c.toNat < 2 ^ k) (b : Bool) :
    signed (init ++ [c ||| fill b <<< k])
      = unsigned init + 2 ^ (w * init.length) * (c.toNat - if b then 2 ^ k else 0 : Int) := by
  cases b
  · have hle : 2 ^ k ≤ 2 ^ (w - 1) := Nat.pow_le_pow_right (by decide) (by omega)
    have hmsb : c.msb = false := by
      rw [BitVec.msb_eq_decide, decide_eq_false_iff_not]
      omega
    rw [fill_false, BitVec.zero_shiftLeft, BitVec.or_zero, signed, msb_append_singleton, hmsb,
      unsigned_append]
    simp
  · rw [fill_true, signed_append_or_allOnes init c hk, Nat.mod_eq_of_lt hc, unsigned_append]
    simp
    ring

/-! ## Quotients by powers of two -/

theorem ediv_eq_self_iff {q d : Int} (hd : 2 ≤ d) : q / d = q ↔ q = 0 ∨ q = -1 := by
  constructor
  · intro h
    have hlo := Int.ediv_mul_le q (by omega : d ≠ 0)
    have hhi := Int.lt_ediv_add_one_mul_self q (by omega : 0 < d)
    rw [h] at hlo hhi
    have hle : q ≤ 0 := by nlinarith
    have hge : -1 ≤ q := by nlinarith
    omega
  · rintro (rfl | rfl)
    · exact Int.zero_ediv d
    · rw [Int.neg_one_ediv, Int.sign_eq_one_of_pos (by omega)]

theorem ediv_two_pow_eq_sign_iff {v : Int} {s : Nat} :
    (v / 2 ^ s = 0 ∨ v / 2 ^ s = -1) ↔ -2 ^ s ≤ v ∧ v < 2 ^ s := by
  have hs : (0 : Int) < 2 ^ s := by positivity
  have hlo : -1 ≤ v / 2 ^ s ↔ -2 ^ s ≤ v := by
    rw [Int.le_ediv_iff_mul_le hs, neg_one_mul]
  have hhi : v / 2 ^ s < 1 ↔ v < 2 ^ s := by
    rw [Int.ediv_lt_iff_lt_mul hs, one_mul]
  omega

theorem ediv_two_pow_of_range {v : Int} {s : Nat} (h : -2 ^ s ≤ v ∧ v < 2 ^ s) :
    v / 2 ^ s = if v < 0 then -1 else 0 := by
  have hs : (0 : Int) < 2 ^ s := by positivity
  have hsign := ediv_two_pow_eq_sign_iff.mpr h
  split
  · rename_i hneg
    have := Int.ediv_neg_of_neg_of_pos hneg hs
    omega
  · rename_i hneg
    have := Int.ediv_nonneg (not_lt.mp hneg) hs.le
    omega

/-- Two powers give the same quotient only where it is the sign. -/
theorem ediv_two_pow_eq_iff {v : Int} {s t : Nat} (hst : s < t) :
    v / 2 ^ s = v / 2 ^ t ↔ -2 ^ s ≤ v ∧ v < 2 ^ s := by
  obtain ⟨d, rfl⟩ : ∃ d, t = s + (d + 1) := ⟨t - s - 1, by omega⟩
  have hd : (2 : Int) ≤ 2 ^ (d + 1) := le_self_pow₀ (by decide) (Nat.succ_ne_zero d)
  rw [← ediv_two_pow_eq_sign_iff, ← ediv_eq_self_iff hd, pow_add,
    ← Int.ediv_ediv_of_nonneg (by positivity)]
  exact eq_comm

end Jccl.Words
