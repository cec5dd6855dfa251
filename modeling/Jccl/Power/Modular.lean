/-
# `Jccl.Power.Modular` — when `modular_exponentiation` is the power modulo `m`

The loop goes through the bits of `e` from the lowest one on.  As long as no
product was reduced modulo a power of two, its state before bit `i` is known:
`b` is congruent to `b ^ 2 ^ i`, and `result` is the product of the residues
of the squares that were used, never reduced modulo `m` (`Squared`).

So whether a product leaves its type is a matter of those residues alone
(`ResiduesFit`): every one of them needs a square below `2 ^ 32`, and their
products must stay below `2 ^ 64`.  A modulus above `2 ^ 16` and an exponent
with many bits break the one and the other.
-/
import Jccl.Lib.Power
import Jccl.Power.Defs

namespace Jccl

/-- No product of the iteration that begins in state `st` is reduced modulo a
power of two. -/
structure ProductsFit (m : UInt32) (st : PowerState) : Prop where
  result : st.e &&& 1 ≠ 0 → st.result.toNat * (st.b % m).toNat < 2 ^ 64
  square : (st.b % m).toNat * (st.b % m).toNat < 2 ^ 32

/-- The call returns the power, and in every state its run goes through no
product of the iteration to come is reduced modulo a power of two. -/
structure ExactPower (b e m : UInt32) : Prop where
  value : ∃ r, modularExponentiation b e m = .ok r ∧ r.toNat = b.toNat ^ e.toNat % m.toNat
  products : ∀ st, Continues (modularExponentiationStep m) { b := b, e := e, result := 1 } st →
    0 < st.e → ProductsFit m st

/-- Of the residue for bit `i` of the exponent: its square, and the product it
is a factor of. -/
structure ResidueFits (b e m i : Nat) : Prop where
  result : e.testBit i → residueProduct b e m (i + 1) < 2 ^ 64
  square : residue b m i * residue b m i < 2 ^ 32

/-- The residues for all the bits of the exponent. -/
def ResiduesFit (b e m : Nat) : Prop := ∀ i < e.size, ResidueFits b e m i

/-! ## The state before bit `i` -/

structure Squared (b e m : UInt32) (i : Nat) (st : PowerState) : Prop where
  exponent : st.e.toNat = e.toNat / 2 ^ i
  residue : (st.b % m).toNat = residue b.toNat m.toNat i
  result : st.result.toNat = residueProduct b.toNat e.toNat m.toNat i

section Step

variable {b e m : UInt32} {i : Nat} {st : PowerState}

theorem squared_zero (b e m : UInt32) : Squared b e m 0 { b := b, e := e, result := 1 } := by
  refine ⟨?_, ?_, rfl⟩
  · show e.toNat = _
    rw [pow_zero, Nat.div_one]
  · show (b % m).toNat = _
    rw [UInt32.toNat_mod, residue_zero]

theorem lowBit_iff (e : UInt32) : e &&& 1 ≠ 0 ↔ e.toNat % 2 = 1 := by
  rw [Ne, ← UInt32.toNat_inj, UInt32.toNat_and, UInt32.toNat_one, Nat.and_one_is_mod,
    UInt32.toNat_zero]
  exact Nat.mod_two_ne_zero

theorem Squared.bit (h : Squared b e m i st) : st.e &&& 1 ≠ 0 ↔ e.toNat.testBit i := by
  rw [lowBit_iff, h.exponent, Nat.testBit_eq_decide_div_mod_eq, decide_eq_true_iff]

theorem Squared.goes (h : Squared b e m i st) : 0 < st.e ↔ i < e.toNat.size := by
  rw [UInt32.lt_iff_toNat_lt, h.exponent, Nat.lt_size]
  show 0 < _ ↔ _
  rw [Nat.div_pos_iff]
  exact ⟨fun hd => hd.2, fun hle => ⟨Nat.two_pow_pos i, hle⟩⟩

theorem Squared.fit (h : Squared b e m i st) :
    ProductsFit m st ↔ ResidueFits b.toNat e.toNat m.toNat i := by
  have hproduct : e.toNat.testBit i → residueProduct b.toNat e.toNat m.toNat (i + 1) =
      st.result.toNat * (st.b % m).toNat := by
    intro hbit
    rw [residueProduct, if_pos hbit, h.result, h.residue]
  constructor
  · rintro ⟨hresult, hsquare⟩
    refine ⟨fun hbit => ?_, h.residue ▸ hsquare⟩
    rw [hproduct hbit]
    exact hresult (h.bit.mpr hbit)
  · rintro ⟨hresult, hsquare⟩
    refine ⟨fun hbit => ?_, h.residue.symm ▸ hsquare⟩
    rw [← hproduct (h.bit.mp hbit)]
    exact hresult (h.bit.mp hbit)

theorem Squared.next (h : Squared b e m i st) (hgo : 0 < st.e) (hfit : ProductsFit m st) :
    ∃ st', modularExponentiationStep m st = .ok (.inr st') ∧ Squared b e m (i + 1) st' ∧
      st'.e.toNat < st.e.toNat := by
  have hhalf : (st.e >>> 1).toNat = st.e.toNat / 2 := by
    rw [UInt32.toNat_shiftRight]
    exact Nat.shiftRight_eq_div_pow _ 1
  have hpos : 0 < st.e.toNat := UInt32.lt_iff_toNat_lt.mp hgo
  refine ⟨_, if_pos hgo, ⟨?_, ?_, ?_⟩, ?_⟩
  · show (st.e >>> 1).toNat = _
    rw [hhalf, h.exponent, pow_succ, Nat.div_div_eq_div_mul]
  · show ((st.b % m) * (st.b % m) % m).toNat = _
    rw [UInt32.toNat_mod, UInt32.toNat_mul, Nat.mod_eq_of_lt hfit.square, h.residue, residue_succ]
  · show (if st.e &&& 1 ≠ 0 then st.result * (st.b % m).toUInt64 else st.result).toNat = _
    rw [residueProduct]
    by_cases hbit : e.toNat.testBit i
    · rw [if_pos (h.bit.mpr hbit), if_pos hbit, UInt64.toNat_mul, UInt32.toNat_toUInt64,
        Nat.mod_eq_of_lt (hfit.result (h.bit.mpr hbit)), h.result, h.residue]
    · rw [if_neg (h.bit.not.mpr hbit), if_neg hbit, h.result]
  · show (st.e >>> 1).toNat < _
    rw [hhalf]
    exact Nat.div_lt_self hpos Nat.one_lt_two

theorem Squared.last (h : Squared b e m i st) (hm : 0 < m) (hi : i = e.toNat.size) :
    ∃ r, modularExponentiationStep m st = .ok (.inl r) ∧
      r.toNat = b.toNat ^ e.toNat % m.toNat := by
  have hstop : ¬ 0 < st.e := h.goes.not.mpr (hi ▸ lt_irrefl _)
  have hlt : st.result.toNat % m.toNat < 2 ^ 32 :=
    (Nat.mod_lt _ (UInt32.lt_iff_toNat_lt.mp hm)).trans m.toNat_lt
  refine ⟨_, if_neg hstop, ?_⟩
  rw [UInt64.toNat_toUInt32, UInt64.toNat_mod, UInt32.toNat_toUInt64, Nat.mod_eq_of_lt hlt,
    h.result, hi, residueProduct_size]

end Step

/-! ## The run -/

section Run

variable {b e m : UInt32}

/-- While the products fit, the run comes to the state before every bit. -/
theorem continues_squared
    (hfit : ∀ st, Continues (modularExponentiationStep m) { b := b, e := e, result := 1 } st →
      0 < st.e → ProductsFit m st) {i : Nat} (hi : i ≤ e.toNat.size) :
    ∃ st, Continues (modularExponentiationStep m) { b := b, e := e, result := 1 } st ∧
      Squared b e m i st := by
  induction i with
  | zero => exact ⟨_, .refl, squared_zero b e m⟩
  | succ i ih =>
      obtain ⟨st, hrun, h⟩ := ih (Nat.le_of_succ_le hi)
      have hgo := h.goes.mpr hi
      obtain ⟨st', hstep, h', -⟩ := h.next hgo (hfit st hrun hgo)
      exact ⟨st', hrun.trans (.step hstep .refl), h'⟩

/-- The invariant of a run of which the residues fit. -/
def Powering (b e m : UInt32) (st : PowerState) : Prop :=
  ∃ i ≤ e.toNat.size, Squared b e m i st

theorem Powering.fit {st : PowerState} (h : Powering b e m st)
    (hfit : ResiduesFit b.toNat e.toNat m.toNat) (hgo : 0 < st.e) : ProductsFit m st := by
  obtain ⟨i, -, h⟩ := h
  exact h.fit.mpr (hfit i (h.goes.mp hgo))

theorem Powering.step {st : PowerState} (h : Powering b e m st) (hm : 0 < m)
    (hfit : ResiduesFit b.toNat e.toNat m.toNat) :
    (∃ r, modularExponentiationStep m st = .ok (.inl r) ∧
      r.toNat = b.toNat ^ e.toNat % m.toNat) ∨
    ∃ st', modularExponentiationStep m st = .ok (.inr st') ∧ Powering b e m st' ∧
      st'.e.toNat < st.e.toNat := by
  obtain ⟨i, hi, hs⟩ := id h
  by_cases hgo : 0 < st.e
  · obtain ⟨st', hstep, hs', hlt⟩ := hs.next hgo (h.fit hfit hgo)
    exact .inr ⟨st', hstep, ⟨i + 1, hs.goes.mp hgo, hs'⟩, hlt⟩
  · exact .inl (hs.last hm (hi.antisymm (not_lt.mp (hs.goes.not.mp hgo))))

end Run

/-- **When `modular_exponentiation` is right**, with no product spoilt on the
way: if and only if the residues fit. -/
theorem modularExponentiation_exact_iff (b e m : UInt32) (hm : 0 < m) :
    ExactPower b e m ↔ ResiduesFit b.toNat e.toNat m.toNat := by
  constructor
  · intro h i hi
    obtain ⟨st, hrun, hs⟩ := continues_squared h.products hi.le
    exact hs.fit.mp (h.products st hrun (hs.goes.mpr hi))
  · intro hfit
    have hstart : Powering b e m { b := b, e := e, result := 1 } :=
      ⟨0, Nat.zero_le _, squared_zero b e m⟩
    have hstep : ∀ st, Powering b e m st → _ := fun st h => h.step hm hfit
    have hm1 : ¬ m < 1 := by
      intro hlt
      have hlt' := UInt32.lt_iff_toNat_lt.mp hlt
      exact absurd hlt' (not_lt.mpr (UInt32.lt_iff_toNat_lt.mp hm))
    refine ⟨?_, ?_⟩
    · rw [modularExponentiation, if_neg hm1]
      exact loopUntil_ok hstep hstart (Nat.lt_succ_self _)
    · intro st hrun
      exact (hrun.inv_of_step hstep hstart).fit hfit

theorem modularExponentiation_exact_iff_three :
    ExactPower 3 644 645 ↔ ResiduesFit 3 644 645 :=
  modularExponentiation_exact_iff 3 644 645 (by decide)

/-- `65536 * 65536` is `0` as an `unsigned int`, and `1` modulo `65537`. -/
theorem modularExponentiation_square_wraps :
    modularExponentiation 65536 2 65537 = .ok 0 ∧ ¬ ExactPower 65536 2 65537 := by
  have h0 : modularExponentiation 65536 2 65537 = .ok 0 := by decide
  refine ⟨h0, fun ⟨⟨r, hr, hvalue⟩, _⟩ => ?_⟩
  cases h0.symm.trans hr
  exact absurd hvalue (by decide)

end Jccl
