/-
# `Jccl.Lib.Bits` — the bits of the integers that words spell

An integer has infinitely many bits, those of its two's complement; they are
Mathlib's `Int.testBit`, and they determine it.  Of an integer that is spelled
by words, each bit is that of a word, or beyond the words the sign
(`testBit_signed`).  So an operation that goes through two lists of words
position by position does the same to all bits (`testBit_signed_zipWith`).
-/
import Jccl.Lib.Words

namespace Jccl.Words

/-! ## The bits of an integer -/

theorem testBit_eq_decide (v : Int) (i : Nat) : v.testBit i = decide (v / 2 ^ i % 2 = 1) := by
  have hpos : (0 : Int) < 2 ^ i := by positivity
  cases v with
  | ofNat n =>
      have hcast : Int.ofNat n / 2 ^ i % 2 = ((n / 2 ^ i % 2 : Nat) : Int) := by
        push_cast
        rfl
      rw [hcast]
      refine Nat.testBit_eq_decide_div_mod_eq.trans (decide_eq_decide.mpr ?_)
      omega
  | negSucc n =>
      -- the bits of `-n - 1` are those of `n`, complemented
      have hdiv : Int.negSucc n / 2 ^ i = -((n / 2 ^ i : Nat) : Int) - 1 := by
        rw [Int.negSucc_ediv n hpos, neg_add]
        push_cast
        rfl
      have hbit : n.testBit i = decide (n / 2 ^ i % 2 = 1) := Nat.testBit_eq_decide_div_mod_eq
      rw [Int.testBit, hdiv, hbit, ← decide_not]
      exact decide_eq_decide.mpr (by omega)

theorem eq_of_testBit {u v : Int} (h : ∀ i, u.testBit i = v.testBit i) : u = v := by
  -- above both, the bits of two integers of different sign differ
  have hsign : ∀ m n : Nat, ∃ i, m.testBit i = false ∧ n.testBit i = false := by
    intro m n
    refine ⟨max m n, ?_, ?_⟩
    · exact Nat.testBit_lt_two_pow (Nat.lt_of_le_of_lt (le_max_left m n) Nat.lt_two_pow_self)
    · exact Nat.testBit_lt_two_pow (Nat.lt_of_le_of_lt (le_max_right m n) Nat.lt_two_pow_self)
  cases u with
  | ofNat m =>
      cases v with
      | ofNat n => exact congrArg Int.ofNat (Nat.eq_of_testBit_eq h)
      | negSucc n =>
          obtain ⟨i, hm, hn⟩ := hsign m n
          have hi := h i
          rw [Int.testBit, Int.testBit, hm, hn] at hi
          cases hi
  | negSucc m =>
      cases v with
      | ofNat n =>
          obtain ⟨i, hm, hn⟩ := hsign m n
          have hi := h i
          rw [Int.testBit, Int.testBit, hm, hn] at hi
          cases hi
      | negSucc n =>
          exact congrArg Int.negSucc (Nat.eq_of_testBit_eq fun i => Bool.not_inj (h i))

theorem testBit_neg_sub_one (v : Int) (i : Nat) : (-v - 1).testBit i = !v.testBit i := by
  have hpos : (0 : Int) < 2 ^ i := by positivity
  have hdiv : (-v - 1) / 2 ^ i = -(v / 2 ^ i) - 1 := by
    have hlt := Int.emod_lt_of_pos v hpos
    have hge := Int.emod_nonneg v hpos.ne'
    have hsum := Int.mul_ediv_add_emod v (2 ^ i)
    refine Int.ediv_eq_iff_of_pos hpos |>.mpr ⟨?_, ?_⟩ <;> nlinarith
  rw [testBit_eq_decide, testBit_eq_decide, hdiv, ← decide_not]
  exact decide_eq_decide.mpr (by omega)

/-! ## The bits of words -/

variable {w : Nat}

theorem getLsbD_fill (b : Bool) {j : Nat} (hj : j < w) : (fill b : BitVec w).getLsbD j = b := by
  cases b
  · exact BitVec.getLsbD_zero
  · rw [fill_true, BitVec.getLsbD_allOnes, decide_eq_true hj]

theorem testBit_unsigned (hw : 0 < w) {ws : List (BitVec w)} {i : Nat} (hi : i / w < ws.length) :
    (unsigned ws).testBit i = ws[i / w].getLsbD (i % w) := by
  rw [← BitVec.testBit_toNat, toNat_getElem hi, Nat.testBit_mod_two_pow, Nat.testBit_div_two_pow,
    decide_eq_true (Nat.mod_lt i hw), Bool.true_and, Nat.mod_add_div]

/-- Each bit is that of a word, or the sign. -/
theorem testBit_signed (hw : 0 < w) {ws : List (BitVec w)} (h : ws ≠ []) (i : Nat) :
    (signed ws).testBit i = (ws.getD (i / w) (fill (msb ws))).getLsbD (i % w) := by
  by_cases hi : i / w < ws.length
  · have hlt : i < w * ws.length := Nat.mul_comm _ w ▸ (Nat.div_lt_iff_lt_mul hw).mp hi
    -- the weight of the sign is even at the place of the bit
    obtain ⟨k, hk⟩ : ∃ k : Int, signed ws = unsigned ws + 2 ^ i * (2 * k) := by
      refine ⟨-if msb ws then 2 ^ (w * ws.length - i - 1) else 0, ?_⟩
      have hpow : (2 : Int) ^ (w * ws.length) = 2 ^ i * (2 * 2 ^ (w * ws.length - i - 1)) := by
        rw [← pow_succ', ← pow_add]
        congr 1
        omega
      rw [signed, hpow]
      split <;> ring
    rw [List.getD_eq_getElem _ _ hi, ← testBit_unsigned hw hi, hk, testBit_eq_decide,
      Int.add_mul_ediv_left _ _ (by positivity), Int.add_mul_emod_self_left, ← testBit_eq_decide]
    rfl
  · have hle : w * ws.length ≤ i := by
      rw [Nat.mul_comm]
      exact (Nat.le_div_iff_mul_le hw).mp (not_lt.mp hi)
    have hrange := signed_range hw h
    have hpow : (2 : Int) ^ (w * ws.length) ≤ 2 ^ i := pow_le_pow_right₀ (by decide) hle
    have hpos : (0 : Int) < 2 ^ i := by positivity
    rw [List.getD_eq_default _ _ (not_lt.mp hi), getLsbD_fill _ (Nat.mod_lt i hw),
      testBit_eq_decide]
    cases hb : msb ws with
    | true =>
        have hneg := signed_neg_iff.mpr hb
        have hdiv : signed ws / 2 ^ i = -1 :=
          Int.ediv_eq_iff_of_pos hpos |>.mpr ⟨by omega, by omega⟩
        rw [hdiv]
        rfl
    | false =>
        have hneg := (not_congr signed_neg_iff).mpr (Bool.eq_false_iff.mp hb)
        rw [Int.ediv_eq_zero_of_lt (not_lt.mp hneg) (by omega)]
        rfl

/-- An operation on the bits of words is the operation on the bits of the
integers, the sign included. -/
theorem testBit_signed_zipWith (hw : 0 < w) {us vs : List (BitVec w)} (hl : us.length = vs.length)
    (h : us ≠ []) {op : BitVec w → BitVec w → BitVec w} {f : Bool → Bool → Bool}
    (hop : ∀ x y j, j < w → (op x y).getLsbD j = f (x.getLsbD j) (y.getLsbD j)) (i : Nat) :
    (signed (List.zipWith op us vs)).testBit i
      = f ((signed us).testBit i) ((signed vs).testBit i) := by
  obtain ⟨us', x, rfl⟩ := us.eq_nil_or_concat'.resolve_left h
  obtain ⟨vs', y, rfl⟩ := vs.eq_nil_or_concat'.resolve_left
    (List.ne_nil_of_length_pos (hl ▸ List.length_pos_iff.mpr h))
  have hl' : us'.length = vs'.length := by
    rw [List.length_append, List.length_append] at hl
    exact Nat.add_right_cancel hl
  have hzip : List.zipWith op (us' ++ [x]) (vs' ++ [y]) = List.zipWith op us' vs' ++ [op x y] :=
    List.zipWith_append hl'
  have hne : List.zipWith op (us' ++ [x]) (vs' ++ [y]) ≠ [] := by
    rw [hzip]
    exact List.append_ne_nil_of_right_ne_nil _ (List.cons_ne_nil _ _)
  have hvs : vs' ++ [y] ≠ [] := List.append_ne_nil_of_right_ne_nil _ (List.cons_ne_nil _ _)
  have hlen : (List.zipWith op (us' ++ [x]) (vs' ++ [y])).length = (us' ++ [x]).length := by
    rw [List.length_zipWith, ← hl, min_self]
  have hj := Nat.mod_lt i hw
  rw [testBit_signed hw hne, testBit_signed hw h, testBit_signed hw hvs]
  by_cases hi : i / w < (us' ++ [x]).length
  · rw [List.getD_eq_getElem _ _ (hlen ▸ hi), List.getD_eq_getElem _ _ hi,
      List.getD_eq_getElem _ _ (hl ▸ hi), List.getElem_zipWith, hop _ _ _ hj]
  · -- the sign is the top bit of the last words
    have hmsb : (op x y).msb = f x.msb y.msb := by
      rw [BitVec.msb_eq_getLsbD_last, BitVec.msb_eq_getLsbD_last, BitVec.msb_eq_getLsbD_last,
        hop _ _ _ (Nat.sub_lt hw Nat.one_pos)]
    have hge := not_lt.mp hi
    rw [List.getD_eq_default _ _ (hlen ▸ hge), List.getD_eq_default _ _ hge,
      List.getD_eq_default _ _ (hl ▸ hge), hzip, msb_append_singleton, msb_append_singleton,
      msb_append_singleton, getLsbD_fill _ hj, getLsbD_fill _ hj, getLsbD_fill _ hj, hmsb]

end Jccl.Words
