/-
# `Jccl.Base.String` — what `basestring_from_long` writes

`dmath_ilogb` counts the digits of `n` and is one less than their number: the
logarithm, rounded down.  So the string of the digits ends at the position
that the second loop begins with, and that loop, which takes one digit off
`n` for each position, comes to position `0` with the last of them.
-/
import Jccl.Base.Defs

namespace Jccl

/-! ## The logarithms -/

section Logarithm

variable {b : Nat} {next : UInt64 → UInt64}

/-- The states of a loop that began with `n₀`: the digits that are left, and
those that `i` has counted. -/
structure Counting (b : Nat) (n₀ : UInt64) (st : Int × UInt64) : Prop where
  low : -1 ≤ st.1
  count : st.1 + (b.digits st.2.toNat).length = (b.digits n₀.toNat).length - 1

theorem Counting.step (hb : 1 < b) (hnext : ∀ n, (next n).toNat = n.toNat / b) {n₀ : UInt64}
    {st : Int × UInt64} (h : Counting b n₀ st) :
    (∃ i, ilogStep next st = .ok (.inl i) ∧ i = (b.digits n₀.toNat).length - 1) ∨
      ∃ st', ilogStep next st = .ok (.inr st') ∧ Counting b n₀ st' ∧
        st'.2.toNat < st.2.toNat := by
  obtain ⟨i, n⟩ := st
  obtain ⟨hlow, hcount⟩ := h
  by_cases hn : 0 < n
  · right
    have hpos : 0 < n.toNat := UInt64.lt_iff_toNat_lt.mp hn
    have hdigits : (b.digits n.toNat).length = (b.digits (next n).toNat).length + 1 := by
      rw [hnext, Nat.digits_def' hb hpos]
      rfl
    have hrange : INT_MIN ≤ i + 1 ∧ i + 1 ≤ INT_MAX := by
      have hmost := digits_length_le hb n₀
      simp only [INT_MIN, INT_MAX] at hlow hcount ⊢
      omega
    refine ⟨(i + 1, next n), ?_, ⟨?_, ?_⟩, ?_⟩
    · simp [ilogStep, hn, checkInt_of hrange]
    · show -1 ≤ i + 1
      exact hlow.trans (Int.le_of_lt (Int.lt_succ i))
    · show i + 1 + ((b.digits (next n).toNat).length : Int) = _
      rw [← hcount, hdigits]
      push_cast
      ring
    · show (next n).toNat < n.toNat
      rw [hnext]
      exact Nat.div_lt_self hpos hb
  · left
    have hzero : n.toNat = 0 := Nat.eq_zero_of_not_pos fun h => hn (UInt64.lt_iff_toNat_lt.mpr h)
    refine ⟨i, by simp [ilogStep, hn], ?_⟩
    simpa [hzero] using hcount

theorem loopUntil_ilogStep (hb : 1 < b) (hnext : ∀ n, (next n).toNat = n.toNat / b)
    {n : UInt64} (hn : n ≠ 0) :
    loopUntil (ilogStep next) (n.toNat + 1) (-1, n) = .ok (Nat.log b n.toNat) := by
  have hstart : Counting b n (-1, n) := ⟨le_refl _, neg_add_eq_sub 1 _⟩
  obtain ⟨i, hi, hvalue⟩ :=
    loopUntil_ok (fun st h => Counting.step hb hnext h) hstart (Nat.lt_succ_self n.toNat)
  have hn0 : n.toNat ≠ 0 := fun h => hn (UInt64.toNat_inj.mp h)
  rw [hi, hvalue, Nat.length_digits b n.toNat hb hn0]
  push_cast
  rw [add_sub_cancel_right]

end Logarithm

section Base

variable {base : Int} {n : UInt64}

theorem dmathIlogb_eq (hb : 2 ≤ base) (hmax : base ≤ INT_MAX) (hn : n ≠ 0) :
    dmathIlogb base n = .ok (Nat.log base.toNat n.toNat) := by
  have hlt : base < 2 ^ 31 := Int.lt_of_le_sub_one hmax
  rw [dmathIlogb, if_neg (not_lt.mpr hb), if_neg hn]
  exact loopUntil_ilogStep (one_lt_toNat hb) (toNat_div_base hb hlt) hn

/-- The quotient by `2` is a shift by one bit. -/
theorem dmathIlog2_eq (n : UInt64) : dmathIlog2 n = dmathIlogb 2 n := by
  by_cases hn : n = 0
  · subst hn
    rfl
  · have hhalf : ∀ n : UInt64, (n >>> 1).toNat = n.toNat / 2 := by
      intro n
      rw [UInt64.toNat_shiftRight]
      exact Nat.shiftRight_eq_div_pow _ 1
    rw [dmathIlog2, if_neg hn, loopUntil_ilogStep Nat.one_lt_two hhalf hn,
      dmathIlogb_eq (le_refl 2) (by decide) hn]
    rfl

end Base

/-! ## One character for one digit -/

def digitChar (d : Nat) : UInt8 := basestringAlphabet.getD d 0

theorem readAt_alphabet {d : Nat} (h : d < 36) :
    readAt basestringAlphabet d = .ok (digitChar d) := by
  have hlt : d < basestringAlphabet.length := h
  rw [readAt_of_lt hlt, digitChar, List.getD_eq_getElem _ _ hlt]

theorem basestringCharToInt_digitChar {d : Nat} (h : d < 36) :
    basestringCharToInt (digitChar d) = d := by
  have hall : ∀ d < 36, basestringCharToInt (digitChar d) = (d : Int) := by decide
  exact hall d h

/-- Neither NUL nor, unless the digit is `0`, the character `0`. -/
theorem digitChar_ne {d : Nat} (h : d < 36) :
    digitChar d ≠ 0 ∧ (digitChar d = '0'.toUInt8 → d = 0) := by
  have hall : ∀ d < 36, digitChar d ≠ 0 ∧ (digitChar d = '0'.toUInt8 → d = 0) := by decide
  exact hall d h

/-- The digits of `n`, the highest one first. -/
def basestringOf (b n : Nat) : List UInt8 := ((b.digits n).map digitChar).reverse

theorem basestringOf_length (b n : Nat) : (basestringOf b n).length = (b.digits n).length := by
  rw [basestringOf, List.length_reverse, List.length_map]

theorem basestringOf_pos {b n : Nat} (hb : 1 < b) (hn : 0 < n) :
    basestringOf b n = basestringOf b (n / b) ++ [digitChar (n % b)] := by
  rw [basestringOf, Nat.digits_def' hb hn, List.map_cons, List.reverse_cons, basestringOf]

section Digits

variable {b n : Nat} (hb : 1 < b) (hb36 : b ≤ 36)

include hb hb36

theorem mem_basestringOf {c : UInt8} (hc : c ∈ basestringOf b n) :
    ∃ d < b, d < 36 ∧ c = digitChar d := by
  rw [basestringOf, List.mem_reverse, List.mem_map] at hc
  obtain ⟨d, hd, rfl⟩ := hc
  have hlt := Nat.digits_lt_base hb hd
  exact ⟨d, hlt, hlt.trans_le hb36, rfl⟩

theorem positional_basestringOf :
    positional b ((basestringOf b n).map basestringCharToInt) = n := by
  have hmap : (b.digits n).map (basestringCharToInt ∘ digitChar) = (b.digits n).map Nat.cast := by
    apply List.map_congr_left
    intro d hd
    exact basestringCharToInt_digitChar ((Nat.digits_lt_base hb hd).trans_le hb36)
  rw [basestringOf, List.map_reverse, List.map_map, hmap, ← List.map_reverse, positional_reverse,
    Nat.ofDigits_digits]

theorem head_basestringOf (hn : n ≠ 0) : (basestringOf b n).head? ≠ some '0'.toUInt8 := by
  have hne : b.digits n ≠ [] := Nat.digits_ne_nil_iff_ne_zero.mpr hn
  rw [basestringOf, List.head?_reverse, List.getLast?_map, List.getLast?_eq_getLast_of_ne_nil hne]
  intro h
  have hlt : (b.digits n).getLast hne < 36 :=
    (Nat.digits_lt_base hb (List.getLast_mem hne)).trans_le hb36
  exact Nat.getLast_digit_ne_zero b hn ((digitChar_ne hlt).2 (Option.some.inj h))

end Digits

/-! ## The loop that writes them -/

/-- The positions of `l` are free, the lowest digits of the number were written
behind them as `w`, and the other digits are those of `n`. -/
def filling (l : List UInt8) (n : UInt64) (w rest : List UInt8) : BasestringState where
  i := (l.length : Int) - 1
  n := n
  basestring :=
    { cells := l ++ (w ++ rest), positions := List.range' l.length w.length }

section Loop

variable {base : Int} (hb : 2 ≤ base) (hb36 : base ≤ 36) (rest : List UInt8)

theorem basestringStep_last (n : UInt64) (w : List UInt8) :
    basestringStep base (filling [] n w rest) = .ok (.inl (filling [] n w rest).basestring) := by
  have hend : ¬ (0 : Int) ≤ (filling [] n w rest).i := by
    show ¬ (0 : Int) ≤ 0 - 1
    decide
  rw [basestringStep, if_neg hend]
  rfl

include hb hb36

theorem basestringStep_next (l : List UInt8) (x : UInt8) (n : UInt64) (w : List UInt8) :
    basestringStep base (filling (l ++ [x]) n w rest) =
      .ok (.inr (filling l (n / UInt64.ofInt base)
        (digitChar (n.toNat % base.toNat) :: w) rest)) := by
  have hlt : base < 2 ^ 31 := hb36.trans_lt (by decide)
  have hdigit : n.toNat % base.toNat < 36 := (Nat.mod_lt _ (by omega)).trans_le (by omega)
  have hi : (filling (l ++ [x]) n w rest).i = l.length := by
    show ((l ++ [x]).length : Int) - 1 = _
    rw [List.length_append, List.length_singleton]
    push_cast
    ring
  have hpositions : List.range' l.length (w.length + 1) =
      l.length :: List.range' (l ++ [x]).length w.length := by
    rw [List.range'_succ, List.length_append, List.length_singleton]
  simp only [basestringStep, hi, Int.natCast_nonneg, if_true, Int.toNat_natCast]
  simp only [filling, toNat_mod_base hb hlt, readAt_alphabet hdigit, Outcome.ok_bind,
    List.append_assoc, List.cons_append, List.nil_append, List.length_cons, hpositions,
    Written.write_append rfl, Outcome.pure_eq]

theorem loopUntil_basestringStep {l : List UInt8} {n : UInt64} {w : List UInt8}
    (hl : l.length = (basestringOf base.toNat n.toNat).length) {fuel : Nat}
    (hfuel : l.length < fuel) :
    loopUntil (basestringStep base) fuel (filling l n w rest) =
      .ok { cells := basestringOf base.toNat n.toNat ++ (w ++ rest),
            positions := List.range (l.length + w.length) } := by
  have hb1 := one_lt_toNat hb
  induction l using List.reverseRecOn generalizing n w fuel with
  | nil =>
      obtain ⟨fuel, rfl⟩ := Nat.exists_eq_succ_of_ne_zero hfuel.ne'
      rw [loopUntil_of_return (basestringStep_last rest n w),
        List.eq_nil_of_length_eq_zero hl.symm, List.length_nil, Nat.zero_add,
        List.range_eq_range']
      rfl
  | append_singleton l x ih =>
      obtain ⟨fuel, rfl⟩ := Nat.exists_eq_succ_of_ne_zero (Nat.ne_zero_of_lt hfuel)
      have hn : 0 < n.toNat := by
        rcases Nat.eq_zero_or_pos n.toNat with hzero | hpos
        · rw [hzero, basestringOf_length, Nat.digits_zero, List.length_append] at hl
          cases hl
        · exact hpos
      have hsplit := basestringOf_pos hb1 hn
      have hdiv := toNat_div_base hb (hb36.trans_lt (by decide)) n
      rw [hsplit, List.length_append, List.length_append, List.length_singleton,
        List.length_singleton, Nat.add_right_cancel_iff, ← hdiv] at hl
      rw [List.length_append, List.length_singleton, Nat.succ_lt_succ_iff] at hfuel
      rw [loopUntil_of_continue (basestringStep_next hb hb36 rest l x n w), ih hl hfuel, hsplit,
        hdiv, List.append_assoc, List.singleton_append, List.cons_append, List.length_append,
        List.length_singleton, List.length_cons, Nat.add_right_comm l.length 1]
      rfl

end Loop

/-! ## The whole function -/

/-- What a call leaves that returned `len`: the string `s` with its NUL at the
beginning of an object that held `before`, each of its positions written once
and nothing behind the NUL. -/
structure SpelledAs (base : Int) (n : UInt64) (before : List UInt8) (len : Int)
    (after : Written UInt8) (s : List UInt8) : Prop where
  length : len = s.length
  cells : after.cells = s ++ 0 :: before.drop (s.length + 1)
  nonul : 0 ∉ s
  digits : ∀ c ∈ s, 0 ≤ basestringCharToInt c ∧ basestringCharToInt c < base
  leading : n ≠ 0 → s.head? ≠ some '0'.toUInt8
  value : positional base (s.map basestringCharToInt) = n.toNat
  logarithm : n ≠ 0 → dmathIlogb base n = .ok (len - 1)
  once : ∀ p < s.length, after.positions.count p = 1
  within : ∀ p ∈ after.positions, p ≤ s.length

theorem count_positions {p L : Nat} (h : p < L) : (L :: List.range L).count p = 1 := by
  rw [List.count_cons_of_ne h.ne', List.count_eq_one_of_mem List.nodup_range (List.mem_range.mpr h)]

theorem mem_positions {p L : Nat} (h : p ∈ L :: List.range L) : p ≤ L := by
  rcases List.mem_cons.mp h with rfl | h
  · exact le_refl _
  · exact (List.mem_range.mp h).le

theorem length_basestringOf_log {base : Int} (hb : 2 ≤ base) {n : UInt64} (hn : n ≠ 0) :
    ((basestringOf base.toNat n.toNat).length : Int) = Nat.log base.toNat n.toNat + 1 := by
  have hn0 : n.toNat ≠ 0 := fun h => hn (UInt64.toNat_inj.mp h)
  rw [basestringOf_length, Nat.length_digits _ _ (one_lt_toNat hb) hn0]
  push_cast
  ring

section Call

variable {base : Int} (hb : 2 ≤ base) (hb36 : base ≤ 36) {n : UInt64} {before : List UInt8}

include hb hb36

theorem basestringFromLong_zero (hroom : 1 < before.length) :
    ∃ after, basestringFromLong { cells := before, positions := [] } base 0 = .ok (1, after) ∧
      SpelledAs base 0 before 1 after ['0'.toUInt8] := by
  have hbase : ¬ (base < 2 ∨ base > 36) := not_or.mpr ⟨not_lt.mpr hb, not_lt.mpr hb36⟩
  match before, hroom with
  | x :: y :: rest, _ =>
      refine ⟨{ cells := '0'.toUInt8 :: 0 :: rest, positions := [1, 0] }, ?_, ?_⟩
      · rw [basestringFromLong, if_neg hbase, if_pos rfl]
        rfl
      · refine ⟨rfl, rfl, by decide, ?_, absurd rfl, ?_, absurd rfl, ?_, ?_⟩
        · intro c hc
          rw [List.mem_singleton.mp hc]
          exact ⟨le_refl 0, zero_lt_two.trans_le hb⟩
        · show (0 : Int) * base + 0 = 0
          rw [zero_mul, add_zero]
        · exact fun p hp => count_positions hp
        · exact fun p hp => mem_positions hp

/-- The object has a position for each digit, one for the NUL, and the rest. -/
theorem basestringFromLong_run (hn : n ≠ 0) {l rest : List UInt8} {x : UInt8}
    (hl : l.length = (basestringOf base.toNat n.toNat).length) :
    basestringFromLong { cells := l ++ x :: rest, positions := [] } base n =
      .ok (l.length, { cells := basestringOf base.toNat n.toNat ++ 0 :: rest,
                       positions := l.length :: List.range l.length }) := by
  have hbase : ¬ (base < 2 ∨ base > 36) := not_or.mpr ⟨not_lt.mpr hb, not_lt.mpr hb36⟩
  have hlog : dmathIlogb base n = .ok (l.length - 1 : Int) := by
    rw [dmathIlogb_eq hb (hb36.trans (by decide)) hn, hl, length_basestringOf_log hb hn,
      add_sub_cancel_right]
  have hlast : (l.length : Int) - 1 + 1 = l.length := sub_add_cancel _ _
  have hrange : INT_MIN ≤ (l.length : Int) ∧ (l.length : Int) ≤ INT_MAX := by
    have hmost := digits_length_le (one_lt_toNat hb) n
    rw [← basestringOf_length, ← hl] at hmost
    unfold INT_MIN INT_MAX
    omega
  have hloop : loopUntil (basestringStep base) (((l.length : Int) - 1).toNat + 2)
      (filling l n [] (x :: rest)) = _ :=
    loopUntil_basestringStep hb hb36 (x :: rest) hl (by omega)
  simp only [filling, List.nil_append, List.length_nil, List.range'_zero] at hloop
  rw [basestringFromLong, if_neg hbase, if_neg hn, hlog, Outcome.ok_bind, hloop, Outcome.ok_bind,
    hlast, checkInt_of hrange, Outcome.ok_bind, Int.toNat_natCast, Written.write_append hl]
  rfl

theorem basestringFromLong_pos (hn : n ≠ 0)
    (hroom : Nat.log base.toNat n.toNat + 1 < before.length) :
    ∃ len after, basestringFromLong { cells := before, positions := [] } base n = .ok (len, after) ∧
      SpelledAs base n before len after (basestringOf base.toNat n.toNat) := by
  have hb1 := one_lt_toNat hb
  have hb36' : base.toNat ≤ 36 := by omega
  have hn0 : n.toNat ≠ 0 := fun h => hn (UInt64.toNat_inj.mp h)
  have hlen := length_basestringOf_log hb hn
  obtain ⟨l, x, rest, hbefore, hl⟩ : ∃ l x rest, before = l ++ x :: rest ∧
      l.length = (basestringOf base.toNat n.toNat).length :=
    ⟨_, _, _, (List.take_append_drop _ before).symm.trans
      (congrArg _ (List.drop_eq_getElem_cons (by omega))), List.length_take_of_le (by omega)⟩
  have hrun := @basestringFromLong_run _ hb hb36 _ hn _ rest x hl
  rw [← hbefore] at hrun
  refine ⟨_, _, hrun, ⟨congrArg Nat.cast hl, ?_, ?_, ?_, ?_, ?_, ?_, ?_, ?_⟩⟩
  · rw [← hl, hbefore, List.drop_length_add_append, List.drop_one, List.tail_cons]
  · intro h0
    obtain ⟨d, -, hd, hc⟩ := mem_basestringOf hb1 hb36' h0
    exact (digitChar_ne hd).1 hc.symm
  · intro c hc
    obtain ⟨d, hdb, hd, rfl⟩ := mem_basestringOf hb1 hb36' hc
    rw [basestringCharToInt_digitChar hd]
    omega
  · exact fun _ => head_basestringOf hb1 hb36' hn0
  · have hvalue := positional_basestringOf hb1 hb36' (n := n.toNat)
    rwa [Int.toNat_of_nonneg (zero_le_two.trans hb)] at hvalue
  · intro _
    rw [dmathIlogb_eq hb (hb36.trans (by decide)) hn, hl, hlen, add_sub_cancel_right]
  · intro p hp
    exact count_positions (hl.symm ▸ hp)
  · intro p hp
    exact hl ▸ mem_positions hp

end Call

/-- **What `basestring_from_long` writes**, in an object that is large enough,
and what the logarithms are that its length comes from. -/
theorem basestringFromLong_spells :
    (∀ (base : Int) (n : UInt64) (before : List UInt8), 2 ≤ base → base ≤ 36 →
      Nat.log base.toNat n.toNat + 1 < before.length →
      ∃ len after s, basestringFromLong { cells := before, positions := [] } base n =
        .ok (len, after) ∧ SpelledAs base n before len after s) ∧
    (∀ (base : Int) (n : UInt64), 2 ≤ base → base ≤ INT_MAX → 1 ≤ n →
      ∃ r : Nat, dmathIlogb base n = .ok r ∧ base ^ r ≤ n.toNat ∧ n.toNat < base ^ (r + 1)) ∧
    (∀ n, dmathIlog2 n = dmathIlogb 2 n) := by
  refine ⟨?_, ?_, dmathIlog2_eq⟩
  · intro base n before hb hb36 hroom
    by_cases hn : n = 0
    · subst hn
      rw [UInt64.toNat_zero, Nat.log_zero_right] at hroom
      obtain ⟨after, h, hs⟩ := basestringFromLong_zero hb hb36 hroom
      exact ⟨_, after, _, h, hs⟩
    · obtain ⟨len, after, h, hs⟩ := basestringFromLong_pos hb hb36 hn hroom
      exact ⟨len, after, _, h, hs⟩
  · intro base n hb hmax hn
    have hn0 : n.toNat ≠ 0 := Nat.one_le_iff_ne_zero.mp (UInt64.le_iff_toNat_le.mp hn)
    have hne : n ≠ 0 := fun h => hn0 (UInt64.toNat_inj.mpr h)
    obtain ⟨hle, hlt⟩ := (Nat.log_eq_iff (.inr ⟨one_lt_toNat hb, hn0⟩)).mp rfl
    have hcast : ((base.toNat : Nat) : Int) = base := Int.toNat_of_nonneg (zero_le_two.trans hb)
    refine ⟨_, dmathIlogb_eq hb hmax hne, ?_, ?_⟩
    · rw [← hcast]
      exact_mod_cast hle
    · rw [← hcast]
      exact_mod_cast hlt

theorem basestringFromLong_spells_sixteen :
    (∃ len after s, basestringFromLong { cells := [7, 7, 7, 7], positions := [] } 3 16 =
      .ok (len, after) ∧ SpelledAs 3 16 [7, 7, 7, 7] len after s) ∧
    ∃ r : Nat, dmathIlogb 3 16 = .ok r ∧ (3 : Int) ^ r ≤ (16 : UInt64).toNat ∧
      (16 : UInt64).toNat < (3 : Int) ^ (r + 1) :=
  ⟨basestringFromLong_spells.1 3 16 [7, 7, 7, 7] (by decide) (by decide)
      (by show Nat.log 3 16 + 1 < 4; norm_num),
    basestringFromLong_spells.2.1 3 16 (by decide) (by decide) (by decide)⟩

end Jccl
