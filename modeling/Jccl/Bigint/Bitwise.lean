/-
# `Jccl.Bigint.Bitwise` — the bits of a bigint, to infinity

A bit beyond the chunks is read from the padding word, so a bigint has a bit
at every position; in a canonical one they are those of the two's complement
of the integer that it denotes.  Each bitwise operator goes through as many
words as the wider operand has, and reads the other one with its padding.
What is trimmed away afterwards, or was never written, is told by the sign of
the topmost word: the operator has worked on that bit, too.
-/
import Jccl.Bigint.Negate
import Jccl.Lib.Bits

namespace Jccl

open Words

/-- The bit at a position, read with the padding. -/
def Bigint.bit (n : Bigint) (i : Nat) : Bool :=
  (bigintIndexWithPadding n (i / 64 : Nat)).getLsbD (i % 64)

theorem Bigint.Canonical.bit_eq {n : Bigint} (h : n.Canonical) (i : Nat) :
    n.bit i = n.val.testBit i := by
  rw [h.val_eq, testBit_signed word_pos h.ne_nil, ← h.pad, Bigint.bit]
  by_cases hi : i / 64 < n.chunks.length
  · rw [indexWithPadding_of_lt hi, List.getD_eq_getElem _ _ hi]
  · rw [indexWithPadding_of_le (not_lt.mp hi), List.getD_eq_default _ _ (not_lt.mp hi)]

theorem signed_padded {n : Bigint} (h : n.Canonical) {m : Nat} (hm : n.chunks.length ≤ m) :
    signed (padded n m) = n.val := by
  rw [padded_eq hm, h.pad, signed_append_fill word_pos, h.val_eq]

/-! ## The operators of two operands -/

section Binop

variable {op : ULong → ULong → ULong} {a b : Bigint}

/-- After `i` iterations the first `i` words of the result are written. -/
def BinopInv (op : ULong → ULong → ULong) (a b : Bigint) (m i : Nat) (res : Bigint) : Prop :=
  res.chunks.length = m ∧ res.chunks.take i = List.zipWith op (padded a i) (padded b i)

theorem binopLoop_ok (op : ULong → ULong → ULong) (a b : Bigint) (m : Nat) :
    ∃ res, forLoop (fun i res =>
        res.setChunk i (op (bigintIndexWithPadding a i) (bigintIndexWithPadding b i)))
          m { padChunk := 0, chunks := List.replicate m 0 } = .ok res ∧
      BinopInv op a b m m res := by
  refine forLoop_ok ⟨List.length_replicate, rfl⟩ ?_
  rintro i res hi ⟨hlen, htake⟩
  have hi' : i < res.chunks.length := hlen.symm ▸ hi
  refine ⟨_, setChunk_ofNat hi', (List.length_set ..).trans hlen, ?_⟩
  have hset : i < (res.chunks.set i
      (op (bigintIndexWithPadding a i) (bigintIndexWithPadding b i))).length :=
    (List.length_set ..).symm ▸ hi'
  have hpad : (padded a i).length = (padded b i).length := by
    rw [padded_length, padded_length]
  rw [List.take_succ_eq_append_getElem hset, List.take_set_of_le le_rfl, htake,
    List.getElem_set_self, padded_succ, padded_succ, List.zipWith_append hpad]
  rfl

/-- What an operator on words does to each bit of them, it does to each bit of
the integers. -/
theorem bigintBinop_run {f : Bool → Bool → Bool}
    (hop : ∀ x y j, j < 64 → (op x y).getLsbD j = f (x.getLsbD j) (y.getLsbD j))
    (ha : a.Canonical) (hb : b.Canonical) {answers : List Bool} (hg : granted answers = true) :
    ∃ r, (bigintBinop op (some a) (some b)).run answers = .ok (some r, answers.tail) ∧
      r.Canonical ∧ ∀ i, r.val.testBit i = f (a.val.testBit i) (b.val.testBit i) := by
  obtain ⟨m, hm⟩ : ∃ m, m = maxchunk a b := ⟨_, rfl⟩
  have hla : a.chunks.length ≤ m := hm ▸ le_max_left _ _
  have hlb : b.chunks.length ≤ m := hm ▸ le_max_right _ _
  have hpos : 0 < m := hm ▸ maxchunk_pos ha b
  obtain ⟨res, hloop, hlen, htake⟩ := binopLoop_ok op a b m
  rw [List.take_of_length_le hlen.le] at htake
  obtain ⟨r, htrim, hcan, hval⟩ := trim_ok (List.ne_nil_of_length_pos (hlen.symm ▸ hpos))
  refine ⟨r, ?_, hcan, fun i => ?_⟩
  · simp only [bigintBinop, maxchunk_eq, ← hm, StateT.run_bind,
      bigintInit_run (by omega : (0 : Int) < m), hg, if_true, Outcome.ok_bind, AllocM.run_lift,
      Int.toNat_natCast, hloop, htrim]
  · have hpad : (padded a m).length = (padded b m).length := by
      rw [padded_length, padded_length]
    have hne : padded a m ≠ [] := List.ne_nil_of_length_pos ((padded_length a m).symm ▸ hpos)
    rw [hval, htake, testBit_signed_zipWith word_pos hpad hne hop, signed_padded ha hla,
      signed_padded hb hlb]

theorem bigintAnd_run (ha : a.Canonical) (hb : b.Canonical) {answers : List Bool}
    (hg : granted answers = true) :
    ∃ r, (bigintAnd (some a) (some b)).run answers = .ok (some r, answers.tail) ∧
      r.Canonical ∧ r.val = Int.land a.val b.val := by
  obtain ⟨r, hrun, hcan, hbits⟩ := bigintBinop_run (f := and)
    (fun x y j _ => BitVec.getLsbD_and) ha hb hg
  exact ⟨r, hrun, hcan, eq_of_testBit fun i => by rw [hbits, Int.testBit_land]⟩

theorem bigintOr_run (ha : a.Canonical) (hb : b.Canonical) {answers : List Bool}
    (hg : granted answers = true) :
    ∃ r, (bigintOr (some a) (some b)).run answers = .ok (some r, answers.tail) ∧
      r.Canonical ∧ r.val = Int.lor a.val b.val := by
  obtain ⟨r, hrun, hcan, hbits⟩ := bigintBinop_run (f := or)
    (fun x y j _ => BitVec.getLsbD_or) ha hb hg
  exact ⟨r, hrun, hcan, eq_of_testBit fun i => by rw [hbits, Int.testBit_lor]⟩

theorem bigintXor_run (ha : a.Canonical) (hb : b.Canonical) {answers : List Bool}
    (hg : granted answers = true) :
    ∃ r, (bigintXor (some a) (some b)).run answers = .ok (some r, answers.tail) ∧
      r.Canonical ∧ r.val = Int.xor a.val b.val := by
  obtain ⟨r, hrun, hcan, hbits⟩ := bigintBinop_run (f := xor)
    (fun x y j _ => BitVec.getLsbD_xor) ha hb hg
  exact ⟨r, hrun, hcan, eq_of_testBit fun i => by rw [hbits, Int.testBit_lxor]⟩

end Binop

/-! ## Bit by bit -/

/-- The run returns the canonical bigint that has those bits. -/
def ReturnsBits (m : AllocM (Option Bigint)) (bits : Nat → Bool) : Prop :=
  ∃ r, m.run [] = .ok (some r, []) ∧ r.Canonical ∧ ∀ i, r.bit i = bits i

section ReturnsBits

variable {m : AllocM (Option Bigint)} {bits : Nat → Bool} {a b : Bigint}

theorem ReturnsBits.run_eq (h : ReturnsBits m bits) {n : Bigint} (hn : n.Canonical)
    (hbits : ∀ i, n.bit i = bits i) : m.run [] = .ok (some n, []) := by
  obtain ⟨r, hrun, hcan, hbits'⟩ := h
  have hval : r.val = n.val := eq_of_testBit fun i => by
    rw [← hcan.bit_eq, ← hn.bit_eq, hbits, hbits']
  rw [hrun, hcan.ext hn hval]

theorem ReturnsBits.congr {bits' : Nat → Bool} (h : ReturnsBits m bits)
    (heq : ∀ i, bits i = bits' i) : ReturnsBits m bits' :=
  funext heq ▸ h

/-- The operators on the bigint that a run returns. -/
theorem ReturnsBits.bind (h : ReturnsBits m bits) {f : Option Bigint → AllocM (Option Bigint)}
    {bits' : Nat → Bool}
    (hf : ∀ n : Bigint, n.Canonical → (∀ i, n.bit i = bits i) → ReturnsBits (f (some n)) bits') :
    ReturnsBits (m >>= f) bits' := by
  obtain ⟨n, hrun, hcan, hbits⟩ := h
  obtain ⟨r, hrun', hcan', hbits'⟩ := hf n hcan hbits
  exact ⟨r, by rw [StateT.run_bind, hrun]; exact hrun', hcan', hbits'⟩

theorem bigintNot_bits (ha : a.Canonical) :
    ReturnsBits (bigintNot (some a)) fun i => !a.bit i := by
  obtain ⟨r, hrun, hcan, hval⟩ := bigintNot_run ha granted_nil
  refine ⟨r, hrun, hcan, fun i => ?_⟩
  show r.bit i = (!a.bit i)
  rw [hcan.bit_eq, ha.bit_eq, hval, testBit_neg_sub_one]

theorem bigintAnd_bits (ha : a.Canonical) (hb : b.Canonical) :
    ReturnsBits (bigintAnd (some a) (some b)) fun i => a.bit i && b.bit i := by
  obtain ⟨r, hrun, hcan, hval⟩ := bigintAnd_run ha hb granted_nil
  refine ⟨r, hrun, hcan, fun i => ?_⟩
  show r.bit i = (a.bit i && b.bit i)
  rw [hcan.bit_eq, ha.bit_eq, hb.bit_eq, hval, Int.testBit_land]

theorem bigintOr_bits (ha : a.Canonical) (hb : b.Canonical) :
    ReturnsBits (bigintOr (some a) (some b)) fun i => a.bit i || b.bit i := by
  obtain ⟨r, hrun, hcan, hval⟩ := bigintOr_run ha hb granted_nil
  refine ⟨r, hrun, hcan, fun i => ?_⟩
  show r.bit i = (a.bit i || b.bit i)
  rw [hcan.bit_eq, ha.bit_eq, hb.bit_eq, hval, Int.testBit_lor]

theorem bigintXor_bits (ha : a.Canonical) (hb : b.Canonical) :
    ReturnsBits (bigintXor (some a) (some b)) fun i => xor (a.bit i) (b.bit i) := by
  obtain ⟨r, hrun, hcan, hval⟩ := bigintXor_run ha hb granted_nil
  refine ⟨r, hrun, hcan, fun i => ?_⟩
  show r.bit i = xor (a.bit i) (b.bit i)
  rw [hcan.bit_eq, ha.bit_eq, hb.bit_eq, hval, Int.testBit_lxor]

/-- An operator on the complements. -/
theorem nots_bits (ha : a.Canonical) (hb : b.Canonical)
    {f : Option Bigint → Option Bigint → AllocM (Option Bigint)} {op : Bool → Bool → Bool}
    (hf : ∀ {c d : Bigint}, c.Canonical → d.Canonical →
      ReturnsBits (f (some c) (some d)) fun i => op (c.bit i) (d.bit i)) :
    ReturnsBits (bigintNot (some a) >>= fun notA => bigintNot (some b) >>= fun notB =>
      f notA notB) fun i => op (!a.bit i) (!b.bit i) := by
  refine (bigintNot_bits ha).bind fun c hc hbits => (bigintNot_bits hb).bind fun d hd hbits' => ?_
  exact (hf hc hd).congr fun i => by rw [hbits, hbits']

end ReturnsBits

/-- The four operators work on the bits of infinite two's complements, and so
obey the laws of the connectives, as equations between what is returned. -/
theorem bigint_bitwise {a b : Bigint} (ha : a.Canonical) (hb : b.Canonical) :
    (∀ i, a.bit i = a.val.testBit i) ∧
    ReturnsBits (bigintNot (some a)) (fun i => !a.bit i) ∧
    ReturnsBits (bigintAnd (some a) (some b)) (fun i => a.bit i && b.bit i) ∧
    ReturnsBits (bigintOr (some a) (some b)) (fun i => a.bit i || b.bit i) ∧
    ReturnsBits (bigintXor (some a) (some b)) (fun i => xor (a.bit i) (b.bit i)) ∧
    (∃ r, (bigintNot (some a)).run [] = .ok (some r, []) ∧ r.val = -a.val - 1) ∧
    (∃ r : Bigint, r.Canonical ∧
      (bigintAnd (some a) (some b) >>= bigintNot).run [] = .ok (some r, []) ∧
      (bigintNot (some a) >>= fun notA => bigintNot (some b) >>= fun notB =>
        bigintOr notA notB).run [] = .ok (some r, [])) ∧
    (∃ r : Bigint, r.Canonical ∧
      (bigintOr (some a) (some b) >>= bigintNot).run [] = .ok (some r, []) ∧
      (bigintNot (some a) >>= fun notA => bigintNot (some b) >>= fun notB =>
        bigintAnd notA notB).run [] = .ok (some r, [])) ∧
    (bigintXor (some a) (some b) >>= fun c => bigintXor c (some b)).run [] = .ok (some a, []) := by
  obtain ⟨n, hnot, -, hval⟩ := bigintNot_run ha granted_nil
  have hand := bigintAnd_bits ha hb
  have hor := bigintOr_bits ha hb
  have hxor := bigintXor_bits ha hb
  refine ⟨ha.bit_eq, bigintNot_bits ha, hand, hor, hxor, ⟨n, hnot, hval⟩, ?_, ?_, ?_⟩
  · obtain ⟨r, hrun, hcan, hbits⟩ := hand.bind
      fun c hc hbits => (bigintNot_bits hc).congr fun i => by rw [hbits]
    exact ⟨r, hcan, hrun, (nots_bits ha hb bigintOr_bits).run_eq hcan fun i =>
      (hbits i).trans (Bool.not_and ..)⟩
  · obtain ⟨r, hrun, hcan, hbits⟩ := hor.bind
      fun c hc hbits => (bigintNot_bits hc).congr fun i => by rw [hbits]
    exact ⟨r, hcan, hrun, (nots_bits ha hb bigintAnd_bits).run_eq hcan fun i =>
      (hbits i).trans (Bool.not_or ..)⟩
  · have htwice : ReturnsBits (bigintXor (some a) (some b) >>= fun c => bigintXor c (some b)) a.bit :=
      hxor.bind fun c hc hbits => (bigintXor_bits hc hb).congr fun i => by
        rw [hbits, Bool.xor_assoc, Bool.xor_self, Bool.xor_false]
    exact htwice.run_eq ha fun _ => rfl

theorem bigint_bitwise_one_longMin :
    ReturnsBits (bigintXor (some bigintOne) (some bigintLongMin))
      (fun i => xor (bigintOne.bit i) (bigintLongMin.bit i)) ∧
    (bigintXor (some bigintOne) (some bigintLongMin) >>= fun c =>
      bigintXor c (some bigintLongMin)).run [] = .ok (some bigintOne, []) :=
  have h := bigint_bitwise (by decide : bigintOne.Canonical) (by decide : bigintLongMin.Canonical)
  ⟨h.2.2.2.2.1, h.2.2.2.2.2.2.2.2⟩

end Jccl
