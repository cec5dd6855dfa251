/-
# `Jccl.Bigint.Add` — the carry chain of `bigint_add`, and when the sum wraps

The loop adds the operands word by word, each read with its padding, over as
many words as the wider one has; the carry out of the last word is dropped.
So the result is the exact sum modulo `2 ^ (64 * maxchunk)`, read in two's
complement, and it is the sum itself exactly when the sum is in the range of
that many words: there is no further word for a sum that needs one.
-/
import Jccl.Bigint.Trim

namespace Jccl

open Words

/-! ## Construction -/

theorem bigintInit_run {k : Int} (h : 0 < k) (answers : List Bool) :
    (bigintInit k).run answers = .ok
      (if granted answers then some { padChunk := 0, chunks := List.replicate k.toNat 0 }
        else none, answers.tail) := by
  have hk : k > 0 := h
  simp only [bigintInit, StateT.run_bind, AllocM.run_lift, assert_of hk, Outcome.ok_bind,
    allocates_run]
  cases granted answers <;> rfl

/-- The `assert` of an initialisation that ends held. -/
theorem bigintInit_pos {k : Int} {answers : List Bool} {r : Option Bigint × List Bool}
    (h : (bigintInit k).run answers = .ok r) : 0 < k := by
  by_contra hk
  have hk' : ¬ k > 0 := hk
  simp [bigintInit, assert_not hk'] at h

/-- A bigint that was initialised has as many zero chunks as were asked for. -/
theorem bigintInit_inv {k : Int} {answers answers' : List Bool} {n : Bigint}
    (h : (bigintInit k).run answers = .ok (some n, answers')) :
    0 < k ∧ n = { padChunk := 0, chunks := List.replicate k.toNat 0 } := by
  have hk := bigintInit_pos h
  rw [bigintInit_run hk] at h
  refine ⟨hk, ?_⟩
  cases hg : granted answers with
  | true =>
      simp only [hg, if_true, Except.ok.injEq, Prod.mk.injEq, Option.some.injEq] at h
      exact h.1.symm
  | false => simp [hg] at h

/-- What a run returns is told by one run of it. -/
theorem returns_iff {m : AllocM (Option Bigint)} {s t : List Bool} {r : Bigint}
    (hrun : m.run s = .ok (some r, t)) (hcan : r.Canonical) {P : Bigint → Prop} :
    (∃ r', m.run s = .ok (some r', t) ∧ r'.Canonical ∧ P r') ↔ P r := by
  constructor
  · rintro ⟨r', hrun', -, h⟩
    rw [hrun] at hrun'
    cases hrun'
    exact h
  · exact fun h => ⟨r, hrun, hcan, h⟩

/-! ## Reading with padding -/

/-- The first `m` words of a bigint, read with its padding. -/
def padded (n : Bigint) (m : Nat) : List ULong :=
  (List.range m).map fun i : Nat => bigintIndexWithPadding n i

@[simp] theorem padded_length (n : Bigint) (m : Nat) : (padded n m).length = m := by
  simp [padded]

theorem padded_succ (n : Bigint) (m : Nat) :
    padded n (m + 1) = padded n m ++ [bigintIndexWithPadding n m] := by
  simp [padded, List.range_succ]

theorem padded_eq {n : Bigint} {m : Nat} (h : n.chunks.length ≤ m) :
    padded n m = n.chunks ++ List.replicate (m - n.chunks.length) n.padChunk := by
  apply List.ext_getElem (by simp; omega)
  intro i hi _
  by_cases hlt : i < n.chunks.length
  · simp [padded, List.getElem_append_left hlt, indexWithPadding_of_lt hlt]
  · rw [List.getElem_append_right (by omega)]
    simp [padded, indexWithPadding_of_le (not_lt.mp hlt)]

/-- Enough words of a canonical bigint read as its value, up to one multiple
of their range for a negative one. -/
theorem unsigned_padded {n : Bigint} (hn : n.Canonical) {m : Nat} (h : n.chunks.length ≤ m) :
    (unsigned (padded n m) : Int) = n.val + if msb n.chunks then 2 ^ (64 * m) else 0 := by
  rw [padded_eq h, hn.pad, unsigned_append_fill, Nat.add_sub_cancel' h, hn.val_eq, signed]

theorem bmod_unsigned_padded {n : Bigint} (hn : n.Canonical) {m : Nat}
    (h : n.chunks.length ≤ m) :
    Int.bmod (unsigned (padded n m)) (2 ^ (64 * m)) = Int.bmod n.val (2 ^ (64 * m)) := by
  rw [unsigned_padded hn h]
  split
  · have hcast : (2 : Int) ^ (64 * m) = ((2 ^ (64 * m) : Nat) : Int) := by push_cast; rfl
    rw [hcast, Int.add_bmod_right]
  · rw [Int.add_zero]

/-! ## One word -/

theorem toNat_and_not_msbMask (x : ULong) : (x &&& ~~~LONG_MSB_MASK).toNat = x.toNat % 2 ^ 63 := by
  have hmask : (~~~LONG_MSB_MASK).toNat = 2 ^ 63 - 1 := by decide
  rw [BitVec.toNat_and, hmask, Nat.and_two_pow_sub_one_eq_mod]

theorem toNat_eq_msb_add (x : ULong) : x.toNat = x.toNat % 2 ^ 63 + 2 ^ 63 * x.msb.toNat := by
  rw [← toNat_shiftRight_msb, BitVec.toNat_ushiftRight, Nat.shiftRight_eq_div_pow]
  exact (Nat.mod_add_div _ _).symm

/-- The sum of one place: the words without their top bits and the carry do
not wrap, and the result with the outgoing carry is the exact sum. -/
theorem addWord_eq (x y : ULong) {c : Nat} (hc : c ≤ 1) {s m : ULong}
    (hs : s = (x &&& ~~~LONG_MSB_MASK) + (y &&& ~~~LONG_MSB_MASK) + BitVec.ofInt 64 c)
    (hm : m = BitVec.ofNat 64 (x.msb.toNat + y.msb.toNat) + (s >>> LONG_MSB)) :
    s.toNat = x.toNat % 2 ^ 63 + y.toNat % 2 ^ 63 + c ∧
    narrow (m >>> 1).toNat = (m.toNat / 2 : Nat) ∧ m.toNat / 2 ≤ 1 ∧
    ((s &&& ~~~LONG_MSB_MASK) ||| m <<< LONG_MSB).toNat + 2 ^ 64 * (m.toNat / 2)
      = x.toNat + y.toNat + c := by
  have hx := toNat_eq_msb_add x
  have hy := toNat_eq_msb_add y
  have hxb := Bool.toNat_le x.msb
  have hyb := Bool.toNat_le y.msb
  have hs' : s.toNat = x.toNat % 2 ^ 63 + y.toNat % 2 ^ 63 + c := by
    rw [hs, BitVec.toNat_add, BitVec.toNat_add, toNat_and_not_msbMask, toNat_and_not_msbMask,
      BitVec.ofInt_natCast, BitVec.toNat_ofNat]
    omega
  have hm' : m.toNat = x.msb.toNat + y.msb.toNat + s.toNat / 2 ^ 63 := by
    rw [hm, BitVec.toNat_add, BitVec.toNat_ofNat, BitVec.toNat_ushiftRight,
      Nat.shiftRight_eq_div_pow]
    simp only [LONG_MSB, LONG_BIT, Nat.add_one_sub_one]
    omega
  have hle : m.toNat / 2 ≤ 1 := by omega
  refine ⟨hs', ?_, hle, ?_⟩
  · rw [BitVec.toNat_ushiftRight, Nat.shiftRight_eq_div_pow, pow_one]
    exact narrow_of_le (by unfold INT_MAX; omega)
  · -- the two halves occupy different bits, so `|` adds them
    have hshift : (m <<< LONG_MSB).toNat = 2 ^ 63 * (m.toNat % 2) := by
      rw [BitVec.toNat_shiftLeft, Nat.shiftLeft_eq]
      simp only [LONG_MSB, LONG_BIT, Nat.add_one_sub_one]
      omega
    rw [BitVec.toNat_or, toNat_and_not_msbMask, hshift, Nat.or_comm,
      ← Nat.two_pow_add_eq_or_of_lt (Nat.mod_lt _ (by decide))]
    omega

theorem bigintMsb_eq (n : Bigint) (i : Int) :
    bigintMsb n i = (bigintIndexWithPadding n i).msb.toNat := by
  rw [bigintMsb, toNat_shiftRight_msb]

/-- One iteration writes one word and keeps the carry a bit. -/
theorem addStep_ok (a b res : Bigint) {i c : Nat} (hc : c ≤ 1) (hi : i < res.chunks.length) :
    ∃ v c', addStep a b i (res, c) = .ok ({ res with chunks := res.chunks.set i v }, (c' : Nat)) ∧
      c' ≤ 1 ∧ v.toNat + 2 ^ 64 * c'
        = (bigintIndexWithPadding a i).toNat + (bigintIndexWithPadding b i).toNat + c := by
  obtain ⟨-, hcarry, hle, hsum⟩ :=
    addWord_eq (bigintIndexWithPadding a i) (bigintIndexWithPadding b i) hc rfl rfl
  refine ⟨_, _, ?_, hle, hsum⟩
  simp only [addStep, bigintMsb_eq, setChunk_ofNat hi, Outcome.ok_bind, hcarry, Outcome.pure_eq]

/-! ## The loop -/

/-- After `i` iterations the first `i` words of the result, with the carry at
the next place, are the sum of the first `i` words of the operands. -/
structure AddInv (a b : Bigint) (m i : Nat) (st : Bigint × Int) : Prop where
  length : st.1.chunks.length = m
  carry : ∃ c : Nat, st.2 = c ∧ c ≤ 1 ∧
    unsigned (st.1.chunks.take i) + c * 2 ^ (64 * i)
      = unsigned (padded a i) + unsigned (padded b i)

theorem addStep_inv {a b : Bigint} {m i : Nat} {st : Bigint × Int} (hi : i < m)
    (h : AddInv a b m i st) :
    ∃ st', addStep a b i st = .ok st' ∧ AddInv a b m (i + 1) st' := by
  obtain ⟨res, carry⟩ := st
  obtain ⟨hlen, c, rfl, hc, hsum⟩ := h
  simp only at hlen hsum
  obtain ⟨v, c', hstep, hc', hword⟩ := addStep_ok a b res hc (by omega : i < res.chunks.length)
  refine ⟨_, hstep, by simpa using hlen, c', rfl, hc', ?_⟩
  have hi' : i < (res.chunks.set i v).length := by simpa using by omega
  have hpow : 2 ^ (64 * (i + 1)) = 2 ^ (64 * i) * 2 ^ 64 := by rw [Nat.mul_succ, pow_add]
  simp only [List.take_succ_eq_append_getElem hi', padded_succ, unsigned_append, padded_length,
    List.take_set_of_le (le_refl i), List.getElem_set_self, unsigned_cons, unsigned_nil,
    Nat.mul_zero, Nat.add_zero, List.length_take, Nat.min_eq_left (by omega : i ≤ res.chunks.length)]
  rw [hpow]
  linear_combination hsum + 2 ^ (64 * i) * hword

theorem addLoop_ok (a b res : Bigint) {m : Nat} (hlen : res.chunks.length = m)
    {i : Nat} (hi : i ≤ m) :
    ∃ st, forLoop (addStep a b) i (res, 0) = .ok st ∧ AddInv a b m i st :=
  forLoop_ok ⟨hlen, 0, rfl, by omega, by simp [padded]⟩
    (fun _ _ hj hInv => addStep_inv (by omega) hInv)

/-! ## The sum -/

/-- The number of words the result is given. -/
def maxchunk (a b : Bigint) : Nat := max a.chunks.length b.chunks.length

theorem maxchunk_eq (a b : Bigint) :
    (if a.nchunk > b.nchunk then a.nchunk else b.nchunk) = maxchunk a b := by
  unfold Bigint.nchunk maxchunk
  split <;> omega

/-- The whole array of an addition, the carry out of it being dropped. -/
theorem bigintAdd_run {a b : Bigint} (ha : a.Canonical) (hb : b.Canonical)
    {answers : List Bool} (hg : granted answers = true) :
    ∃ r, (bigintAdd (some a) (some b)).run answers = .ok (some r, answers.tail) ∧
      r.Canonical ∧ r.val = Int.bmod (a.val + b.val) (2 ^ (64 * maxchunk a b)) := by
  obtain ⟨m, hm⟩ : ∃ m, m = maxchunk a b := ⟨_, rfl⟩
  have hla : a.chunks.length ≤ m := hm ▸ le_max_left _ _
  have hlb : b.chunks.length ≤ m := hm ▸ le_max_right _ _
  have hpos : 0 < m := lt_of_lt_of_le (List.length_pos_iff.mpr ha.ne_nil) hla
  obtain ⟨⟨res, carry⟩, hloop, hlen, c, -, -, hsum⟩ := addLoop_ok a b
    { padChunk := 0, chunks := List.replicate m 0 } (List.length_replicate) le_rfl
  simp only at hlen hsum
  rw [List.take_of_length_le hlen.le] at hsum
  obtain ⟨r, htrim, hcan, hval⟩ :=
    trim_ok (List.ne_nil_of_length_pos (by omega : 0 < res.chunks.length))
  rw [← hm]
  refine ⟨r, ?_, hcan, ?_⟩
  · simp only [bigintAdd, maxchunk_eq, ← hm, StateT.run_bind,
      bigintInit_run (by omega : (0 : Int) < m), hg, if_true, Outcome.ok_bind, AllocM.run_lift,
      Int.toNat_natCast, hloop, htrim]
  · have hcast : (unsigned res.chunks : Int) + c * ((2 ^ (64 * m) : Nat) : Int)
        = unsigned (padded a m) + unsigned (padded b m) := by exact_mod_cast hsum
    calc r.val = Int.bmod (unsigned res.chunks) (2 ^ (64 * m)) := by
          rw [hval, signed_eq_bmod word_pos, hlen]
      _ = Int.bmod (unsigned (padded a m) + unsigned (padded b m)) (2 ^ (64 * m)) := by
          rw [← hcast, Int.add_mul_bmod_self_right]
      _ = Int.bmod (a.val + b.val) (2 ^ (64 * m)) := by
          rw [Int.add_bmod, bmod_unsigned_padded ha hla, bmod_unsigned_padded hb hlb,
            ← Int.add_bmod]

/-- The exact sum is returned exactly when it fits in as many words as the
wider operand has. -/
theorem bigintAdd_val_iff (a b : Bigint) (ha : a.Canonical) (hb : b.Canonical) :
    (∃ r, (bigintAdd (some a) (some b)).run [] = .ok (some r, []) ∧
      r.Canonical ∧ r.val = a.val + b.val) ↔
    -2 ^ (64 * maxchunk a b - 1) ≤ a.val + b.val ∧
      a.val + b.val < 2 ^ (64 * maxchunk a b - 1) := by
  obtain ⟨r, hrun, hcan, hval⟩ := bigintAdd_run ha hb granted_nil
  have hpos : 0 < maxchunk a b :=
    lt_of_lt_of_le (List.length_pos_iff.mpr ha.ne_nil) (le_max_left _ _)
  refine (returns_iff hrun hcan).trans ?_
  rw [hval]
  exact (fits_iff_bmod word_pos hpos).symm

/-- `6 * 2 ^ 64 - 1`, of two words. -/
def bigintSixWords : Bigint := { padChunk := 0, chunks := [BitVec.allOnes 64, 5] }

/-- The carry of the lower words goes into the sum of the upper ones. -/
theorem bigintAdd_val_iff_carry :
    ∃ r, (bigintAdd (some bigintSixWords) (some bigintOne)).run [] = .ok (some r, []) ∧
      r.Canonical ∧ r.val = bigintSixWords.val + bigintOne.val :=
  have hsix : bigintSixWords.Canonical := by decide
  have hone : bigintOne.Canonical := by decide
  (bigintAdd_val_iff _ _ hsix hone).mpr (by decide)

/-- `LONG_MAX`, the largest value of one word. -/
def bigintLongMax : Bigint := { padChunk := 0, chunks := [0x7fffffffffffffff] }

/-- `LONG_MAX + 1` is `LONG_MIN`. -/
theorem bigintAdd_longMax_one :
    bigintLongMax.Canonical ∧ bigintOne.Canonical ∧
    bigintLongMax.val + bigintOne.val = 2 ^ 63 ∧
    ∃ r, (bigintAdd (some bigintLongMax) (some bigintOne)).run [] = .ok (some r, []) ∧
      r.val = -2 ^ 63 := by
  refine ⟨by decide, by decide, by decide,
    { padChunk := BitVec.allOnes 64, chunks := [0x8000000000000000] }, ?_, by decide⟩
  decide

end Jccl
