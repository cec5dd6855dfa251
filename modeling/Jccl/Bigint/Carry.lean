/-
# `Jccl.Bigint.Carry` — what the loop of `bigint_add` has written so far

After any number of iterations the words of the result, with the carry at the
next place, are the sum of the words of the operands, place by place.  The
operands need not be canonical: a place beyond the chunks of one of them is
read as its padding word.
-/
import Jccl.Bigint.Add

namespace Jccl

open Words

/-- The place-value reading of a list, as a sum over its places. -/
theorem unsigned_map_range {w : Nat} (f : Nat → BitVec w) (i : Nat) :
    unsigned ((List.range i).map f) = ∑ j ∈ Finset.range i, (f j).toNat * 2 ^ (w * j) := by
  induction i with
  | zero => rfl
  | succ i ih =>
      rw [List.range_succ, List.map_append, unsigned_append, ih, Finset.sum_range_succ,
        List.length_map, List.length_range, List.map_singleton, unsigned_cons, unsigned_nil,
        Nat.mul_zero, Nat.add_zero, Nat.mul_comm (2 ^ (w * i))]

theorem unsigned_take {w : Nat} {ws : List (BitVec w)} {i : Nat} (hi : i ≤ ws.length) :
    unsigned (ws.take i) = ∑ j ∈ Finset.range i, (ws.getD j 0).toNat * 2 ^ (w * j) := by
  rw [← unsigned_map_range]
  refine congrArg unsigned (List.ext_getElem ?_ ?_)
  · rw [List.length_take, Nat.min_eq_left hi, List.length_map, List.length_range]
  · intro j hj _
    have hlt : j < ws.length := (List.length_take_le' i ws).trans_lt' hj
    rw [List.getElem_take, List.getElem_map, List.getElem_range, List.getD_eq_getElem _ _ hlt]

/-- The state of the loop after `i` iterations; in the iteration to come the
words without their top bits, and the carry, add up without being reduced. -/
structure CarryChain (a b : Bigint) (i : Nat) (res : Bigint) (carry : Nat) : Prop where
  written : i ≤ res.chunks.length
  sum : ∑ j ∈ Finset.range i, (res.chunks.getD j 0).toNat * 2 ^ (64 * j) + carry * 2 ^ (64 * i)
    = ∑ j ∈ Finset.range i, ((bigintIndexWithPadding a j).toNat
        + (bigintIndexWithPadding b j).toNat) * 2 ^ (64 * j)
  bit : carry = 0 ∨ carry = 1
  fits : ((bigintIndexWithPadding a i &&& ~~~LONG_MSB_MASK)
      + (bigintIndexWithPadding b i &&& ~~~LONG_MSB_MASK) + BitVec.ofInt 64 carry).toNat
    = (bigintIndexWithPadding a i &&& ~~~LONG_MSB_MASK).toNat
      + (bigintIndexWithPadding b i &&& ~~~LONG_MSB_MASK).toNat + carry

theorem AddInv.carryChain {a b : Bigint} {m i : Nat} {st : Bigint × Int} (h : AddInv a b m i st)
    (hi : i ≤ m) : ∃ carry : Nat, st.2 = carry ∧ CarryChain a b i st.1 carry := by
  obtain ⟨carry, hcarry, hle, hsum⟩ := h.carry
  have hlen : i ≤ st.1.chunks.length := h.length.symm ▸ hi
  refine ⟨carry, hcarry, hlen, ?_, Nat.le_one_iff_eq_zero_or_eq_one.mp hle, ?_⟩
  · rw [unsigned_take hlen, padded, padded, unsigned_map_range, unsigned_map_range,
      ← Finset.sum_add_distrib] at hsum
    rw [hsum]
    exact Finset.sum_congr rfl fun j _ => (Nat.add_mul _ _ _).symm
  · rw [toNat_and_not_msbMask, toNat_and_not_msbMask]
    exact (addWord_eq _ _ hle rfl rfl).1

/-- **The carry chain**, after any number of iterations. -/
theorem bigintAdd_carryChain (a b : Bigint) (i : Nat) (hi : i ≤ maxchunk a b) :
    ∃ (res : Bigint) (carry : Nat), forLoop (addStep a b) i
        ({ padChunk := 0, chunks := List.replicate (maxchunk a b) 0 }, 0)
          = .ok (res, (carry : Int)) ∧
      CarryChain a b i res carry := by
  obtain ⟨⟨res, c⟩, hrun, h⟩ := addLoop_ok a b
    { padChunk := 0, chunks := List.replicate (maxchunk a b) 0 } List.length_replicate hi
  obtain ⟨carry, rfl, hchain⟩ := h.carryChain hi
  exact ⟨res, carry, hrun, hchain⟩

theorem bigintAdd_carryChain_longMax : ∃ (res : Bigint) (carry : Nat),
    forLoop (addStep bigintLongMax bigintOne) 1 ({ padChunk := 0, chunks := [0] }, 0)
        = .ok (res, (carry : Int)) ∧
      CarryChain bigintLongMax bigintOne 1 res carry :=
  bigintAdd_carryChain bigintLongMax bigintOne 1 (by decide)

end Jccl
