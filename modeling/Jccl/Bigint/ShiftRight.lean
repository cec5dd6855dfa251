/-
# `Jccl.Bigint.ShiftRight` — when `bigint_shift_right` divides by a power of two

The loop runs down from the top chunk, and the bits that leave a chunk below
are the high bits of the next one; the first carry is the shifted padding.  So
before and after every iteration the chunks written so far, read below the
operand's sign, are a quotient of the chunks that were read, and the carry is
the remainder.  A count of at least as many whole chunks as the operand has
leaves the sign alone.

Only the first chunk of the count is read, and its whole chunks are converted
to `int`; what that makes of a large count is a smaller one, or a negative
one, for which the loop runs off the bottom of the operand.  As for the left
shift there have to be bits to shift by.
-/
import Jccl.Bigint.ShiftLeft

namespace Jccl

open Words

/-! ## The loop -/

/-- After `j` iterations the upper chunks of the operand are the chunks written
so far times the power, and the remainder is in the high bits of the carry. -/
def ShiftRightInv (a : Bigint) (p k j : Nat) (st : Bigint × ULong) : Prop :=
  ∃ ws r, st.1.chunks = List.replicate (a.chunks.length - p - j) 0 ++ ws ∧ ws.length = j ∧
    r < 2 ^ k ∧ st.2.toNat = r * 2 ^ (64 - k) ∧
    extended (msb a.chunks) ws * 2 ^ k + r
      = extended (msb a.chunks) (a.chunks.drop (a.chunks.length - j))

section Loop

variable {a : Bigint} {p k : Nat}

theorem shiftRightStep_ok (hk : k ≠ 0) (hk' : k < 64) {j : Nat} (hj : j < a.chunks.length - p)
    {st : Bigint × ULong} (h : ShiftRightInv a p k j st) :
    ∃ st', shiftRightStep a p k j st = .ok st' ∧ ShiftRightInv a p k (j + 1) st' := by
  obtain ⟨res, carry⟩ := st
  obtain ⟨ws, r, hws, hlen, hr, hcarry, hval⟩ := h
  simp only at hws hcarry
  obtain ⟨i, hi⟩ : ∃ i, a.chunks.length = i + j + 1 := ⟨a.chunks.length - j - 1, by omega⟩
  obtain ⟨d, rfl⟩ : ∃ d, i = p + d := ⟨i - p, by omega⟩
  have hlt : p + d < a.chunks.length := by omega
  have hidx : a.nchunk - 1 - j = (p + d : Nat) := by rw [Bigint.nchunk]; omega
  have hleft : a.chunks.length - p - j = d + 1 := by omega
  have hleft' : a.chunks.length - p - (j + 1) = d := by omega
  have hplace : a.chunks.length - j = p + d + 1 := by omega
  have hplace' : a.chunks.length - (j + 1) = p + d := by omega
  rw [hleft, List.replicate_succ', List.append_assoc, List.singleton_append] at hws
  obtain ⟨v, hv⟩ : ∃ v, v = a.chunks[p + d] >>> k ||| carry := ⟨_, rfl⟩
  have hset := setChunk_append hws (i := ((p + d : Nat) : Int) - p) (by simp) v
  have hword := shiftRight_or_carry (x := a.chunks[p + d]) hk'.le hcarry
  have hlow := toNat_shiftLeft_low (x := a.chunks[p + d]) hk'.le
  rw [← hv] at hword
  refine ⟨({ res with chunks := List.replicate d 0 ++ v :: ws }, a.chunks[p + d] <<< (64 - k)), ?_,
    v :: ws, a.chunks[p + d].toNat % 2 ^ k, by rw [hleft'], by simp [hlen],
    Nat.mod_lt _ (by positivity), hlow, ?_⟩
  · simp only [shiftRightStep, hidx, chunk_ofNat hlt, shiftRight_ofNat _ hk', Outcome.ok_bind,
      ← hv, hset, compl_ofNat hk', shiftLeft_ofNat _ (by omega : 64 - k < 64), Outcome.pure_eq]
  · have hpow : (2 : Int) ^ (64 - k) * 2 ^ k = 2 ^ 64 := by
      rw [← pow_add, Nat.sub_add_cancel hk'.le]
    have hsplit : (2 : Int) ^ k * (a.chunks[p + d].toNat / 2 ^ k : Nat)
        + (a.chunks[p + d].toNat % 2 ^ k : Nat) = a.chunks[p + d].toNat := by
      exact_mod_cast Nat.div_add_mod _ _
    rw [hplace] at hval
    rw [hplace', List.drop_eq_getElem_cons hlt, extended_cons, extended_cons, hword]
    push_cast at hsplit ⊢
    linear_combination 2 ^ 64 * hval + hsplit + (r : Int) * hpow

theorem shiftRightLoop_ok (ha : a.Canonical) (hk : k ≠ 0) (hk' : k < 64) (pad : ULong) :
    ∃ st, forLoop (shiftRightStep a p k) (a.chunks.length - p)
        ({ padChunk := pad, chunks := List.replicate (a.chunks.length - p) 0 },
          a.padChunk <<< (64 - k)) = .ok st ∧
      ShiftRightInv a p k (a.chunks.length - p) st := by
  refine forLoop_ok ⟨[], a.padChunk.toNat % 2 ^ k, by simp, rfl, Nat.mod_lt _ (by positivity),
    toNat_shiftLeft_low hk'.le, ?_⟩ (fun _ _ hj hInv => shiftRightStep_ok hk hk' hj hInv)
  rw [Nat.sub_zero, List.drop_length]
  exact ha.pad ▸ extended_nil_mul hk'.le

/-- The array that is trimmed. -/
theorem signed_shiftedRight (ha : a.Canonical) (hp : p < a.chunks.length) {ws : List ULong}
    {r : Nat} (hlen : ws.length = a.chunks.length - p) (hr : r < 2 ^ k)
    (hval : extended (msb a.chunks) ws * 2 ^ k + r = extended (msb a.chunks) (a.chunks.drop p)) :
    signed ws = a.val / 2 ^ (64 * p + k) := by
  have hne : ws ≠ [] := List.ne_nil_of_length_pos (by omega)
  have hdrop : a.chunks.drop p ≠ [] := List.ne_nil_of_length_pos (by simpa using hp)
  have hsigned : extended (msb a.chunks) (a.chunks.drop p) = signed (a.chunks.drop p) := by
    rw [signed_eq_extended, msb_drop hp]
  have hfits := fits_signed word_pos hdrop
  rw [List.length_drop, ← hlen, ← hsigned] at hfits
  rw [signed_eq_ediv word_pos hne hr hval hfits, hsigned, signed_drop hp, ha.val_eq, pow_add,
    Int.ediv_ediv_of_nonneg (by positivity)]

end Loop

/-! ## The whole function -/

/-- The function behind the test whether anything is left of the operand. -/
def shiftRightInto (a : Bigint) (removedChunks nonChunkShift nchunk : Int) :
    AllocM (Option Bigint) := do
  let some res ← bigintInit nchunk | return none
  let carry ← shiftLeft a.padChunk (LONG_BIT - nonChunkShift)
  let (res, _) ← forLoop (shiftRightStep a removedChunks nonChunkShift) nchunk.toNat (res, carry)
  bigintIdentifyPadChunkAndTrim (some res)

/-- The function behind the allocation of the result. -/
def shiftRightFrom (a : Bigint) (removedChunks nonChunkShift nchunk : Int)
    (res : Option Bigint) : AllocM (Option Bigint) := do
  let some res := res | return none
  if removedChunks ≥ a.nchunk then
    let res ← res.setChunk 0 a.padChunk
    bigintIdentifyPadChunkAndTrim (some res)
  else
    let carry ← shiftLeft a.padChunk (LONG_BIT - nonChunkShift)
    let (res, _) ← forLoop (shiftRightStep a removedChunks nonChunkShift) nchunk.toNat (res, carry)
    bigintIdentifyPadChunkAndTrim (some res)

/-- `shiftRightByPositive`, with that allocation left open. -/
def shiftRightWith (init : Int → AllocM (Option Bigint)) (a b : Bigint) :
    AllocM (Option Bigint) := do
  let count ← b.chunk 0
  let removedChunks := narrow (count.toNat / LONG_BIT)
  let nonChunkShift := narrow (count.toNat % LONG_BIT)
  let nchunk ← if removedChunks ≥ a.nchunk then pure 1 else checkInt (a.nchunk - removedChunks)
  let res ← init nchunk
  shiftRightFrom a removedChunks nonChunkShift nchunk res

section Positive

variable {a b : Bigint} {answers : List Bool}

theorem shiftRightWith_run (init : Int → AllocM (Option Bigint)) (hb : b.Canonical) :
    (shiftRightWith init a b).run answers =
      (if wholeChunks b.val ≥ a.nchunk then .ok 1 else checkInt (a.nchunk - wholeChunks b.val))
        >>= fun n => (init n >>=
          shiftRightFrom a (wholeChunks b.val) (nonChunkShift b.val) n).run answers := by
  obtain ⟨count, hcount, hwhole, hbits⟩ := count_ok hb
  rw [shiftRightWith, AllocM.run_lift_bind, hcount, Outcome.ok_bind, hwhole, hbits]
  dsimp only
  split
  · rfl
  · rw [AllocM.run_lift_bind]

theorem shiftRightWith_bigintInit : shiftRightWith bigintInit a b = shiftRightByPositive a b := rfl

theorem shiftRightByPositive_run (hb : b.Canonical) (h : ¬ wholeChunks b.val ≥ a.nchunk) :
    (shiftRightByPositive a b).run answers =
      checkInt (a.nchunk - wholeChunks b.val) >>= fun n =>
        (shiftRightInto a (wholeChunks b.val) (nonChunkShift b.val) n).run answers := by
  obtain ⟨count, hcount, hwhole, hbits⟩ := count_ok hb
  rw [shiftRightByPositive, AllocM.run_lift_bind, hcount, Outcome.ok_bind, hwhole, hbits]
  simp only [if_neg h]
  rw [AllocM.run_lift_bind]
  rfl

/-- A count of at least as many chunks leaves a chunk of padding. -/
theorem shiftRightByPositive_far (ha : a.Canonical) (hb : b.Canonical)
    (h : wholeChunks b.val ≥ a.nchunk) (hg : granted answers = true) :
    ∃ r, (shiftRightByPositive a b).run answers = .ok (some r, answers.tail) ∧ r.Canonical ∧
      r.val = if a.val < 0 then -1 else 0 := by
  obtain ⟨count, hcount, hwhole, hbits⟩ := count_ok hb
  obtain ⟨r, htrim, hcan, hr⟩ := trim_ok
    (n := { padChunk := 0, chunks := [a.padChunk] }) (by simp)
  refine ⟨r, ?_, hcan, ?_⟩
  · have hset : ({ padChunk := 0, chunks := List.replicate (1 : Int).toNat 0 } : Bigint).setChunk 0
        a.padChunk = .ok { padChunk := 0, chunks := [a.padChunk] } := rfl
    rw [shiftRightByPositive, AllocM.run_lift_bind, hcount, Outcome.ok_bind, hwhole, hbits]
    simp only [if_pos h, pure_bind, StateT.run_bind, bigintInit_run (by decide : (0 : Int) < 1), hg,
      if_true, Outcome.ok_bind, AllocM.run_lift, hset, htrim]
  · have hneg := ha.neg_iff
    rw [hr, ha.pad, signed_singleton]
    cases hm : msb a.chunks
    · rw [if_neg (by simp [hneg, hm])]
      rfl
    · rw [if_pos (hneg.mpr hm)]
      decide

theorem shiftRightInto_ok (ha : a.Canonical) {p k : Nat} (hp : p < a.chunks.length) (hk : k ≠ 0)
    (hk' : k < 64) (hg : granted answers = true) :
    ∃ r, (shiftRightInto a p k (a.nchunk - p)).run answers = .ok (some r, answers.tail) ∧
      r.Canonical ∧ r.val = a.val / 2 ^ (64 * p + k) := by
  obtain ⟨⟨res, carry⟩, hloop, ws, r, hws, hlen, hr, -, hval⟩ :=
    shiftRightLoop_ok (p := p) ha hk hk' 0
  have hplace : a.chunks.length - (a.chunks.length - p) = p := by omega
  simp only [Nat.sub_self, List.replicate_zero, List.nil_append] at hws
  rw [hplace] at hval
  have hne : ws ≠ [] := List.ne_nil_of_length_pos (by omega)
  obtain ⟨m, htrim, hcan, hm⟩ := trim_ok (n := res) (hws ▸ hne)
  refine ⟨m, ?_, hcan, ?_⟩
  · have hn : a.nchunk - p = (a.chunks.length - p : Nat) := by rw [Bigint.nchunk]; omega
    have hpos : (0 : Int) < (a.chunks.length - p : Nat) := by omega
    simp only [shiftRightInto, hn, StateT.run_bind, bigintInit_run hpos, hg, if_true,
      Outcome.ok_bind, AllocM.run_lift, Int.toNat_natCast, compl_ofNat hk',
      shiftLeft_ofNat _ (by omega : 64 - k < 64), hloop, htrim]
  · rw [hm, hws]
    exact signed_shiftedRight ha hp hlen hr hval

/-- A run that ends shows that there were bits to shift by, and that the loop
did not come to the chunk below the first. -/
theorem shiftRightInto_inv {p : Int} {k : Nat} {o : Option Bigint}
    {answers' : List Bool} (hg : granted answers = true)
    (h : (shiftRightInto a p k (a.nchunk - p)).run answers = .ok (o, answers')) :
    k ≠ 0 ∧ 0 ≤ p := by
  obtain ⟨res, t, hinit, h⟩ := AllocM.bind_eq_ok.mp h
  rw [bigintInit_run (bigintInit_pos hinit), hg] at hinit
  cases hinit
  obtain ⟨carry, hcarry, h⟩ := AllocM.lift_bind_eq_ok.mp h
  obtain ⟨st, hloop, -⟩ := AllocM.lift_bind_eq_ok.mp h
  constructor
  · rintro rfl
    rw [shiftLeft, if_neg (by simp)] at hcarry
    cases hcarry
  · by_contra hp
    have hlt : a.chunks.length < (a.nchunk - p).toNat := by rw [Bigint.nchunk]; omega
    obtain ⟨_, _, -, hstep⟩ := forLoop_step hloop hlt
    obtain ⟨chunk, hchunk, -⟩ := Outcome.bind_eq_ok.mp hstep
    rw [Bigint.chunk, if_neg (by unfold Bigint.nchunk; omega)] at hchunk
    cases hchunk

end Positive

/-! ## The quotient -/

/-- A count that is not negative does not go to `bigint_shift_left`. -/
theorem bigintShiftRight_of_nonneg {b : Bigint} (hb : b.Canonical) (h : 0 ≤ b.val) (a : Bigint)
    (fuel : Nat) : bigintShiftRight (fuel + 1) (some a) (some b) = shiftRightByPositive a b := by
  rw [bigintShiftRight, if_neg (by rw [bigintMsb_padding_eq_one hb]; omega)]

/-- A run in which something of the operand is left went through the loop. -/
theorem shiftRightByPositive_inv {a b : Bigint} (hb : b.Canonical)
    (hnear : ¬ a.nchunk ≤ wholeChunks b.val) {answers answers' : List Bool} {o : Option Bigint}
    (hg : granted answers = true)
    (h : (shiftRightByPositive a b).run answers = .ok (o, answers')) :
    nonChunkShift b.val ≠ 0 ∧ 0 ≤ wholeChunks b.val ∧
      a.nchunk - wholeChunks b.val ≤ INT_MAX := by
  rw [shiftRightByPositive_run hb hnear] at h
  obtain ⟨n, hn, hrun⟩ := Outcome.bind_eq_ok.mp h
  obtain ⟨rfl, -, hmax⟩ := checkInt_eq_ok.mp hn
  obtain ⟨hk, hwhole⟩ := shiftRightInto_inv hg hrun
  exact ⟨hk, hwhole, hmax⟩

theorem shiftRightByPositive_near {a b : Bigint} (ha : a.Canonical) (hb : b.Canonical)
    (hnear : ¬ a.nchunk ≤ wholeChunks b.val) (hk : nonChunkShift b.val ≠ 0) {p : Nat}
    (hp : wholeChunks b.val = p) (hmax : a.nchunk - wholeChunks b.val ≤ INT_MAX)
    {answers : List Bool} (hg : granted answers = true) :
    ∃ r, (shiftRightByPositive a b).run answers = .ok (some r, answers.tail) ∧ r.Canonical ∧
      r.val = a.val / 2 ^ (64 * p + nonChunkShift b.val) := by
  have hlt : p < a.chunks.length := by unfold Bigint.nchunk at hnear; omega
  have hmin : INT_MIN ≤ 0 := by decide
  rw [shiftRightByPositive_run hb hnear, checkInt_of ⟨by omega, hmax⟩, Outcome.ok_bind, hp]
  exact shiftRightInto_ok ha hlt hk (nonChunkShift_lt _) hg

/-- The counts with which the function comes to an end. -/
def ShiftRightRuns (a : Bigint) (count : Int) : Prop :=
  a.nchunk ≤ wholeChunks count ∨
    nonChunkShift count ≠ 0 ∧ 0 ≤ wholeChunks count ∧ a.nchunk - wholeChunks count ≤ INT_MAX

theorem shiftRightByPositive_runs_iff {a b : Bigint} (ha : a.Canonical) (hb : b.Canonical) :
    (∃ o, (shiftRightByPositive a b).run [] = .ok (o, [])) ↔ ShiftRightRuns a b.val := by
  by_cases hfar : a.nchunk ≤ wholeChunks b.val
  · obtain ⟨r, hrun, -⟩ := shiftRightByPositive_far ha hb hfar granted_nil
    exact iff_of_true ⟨some r, hrun⟩ (.inl hfar)
  rw [ShiftRightRuns, or_iff_right hfar]
  constructor
  · rintro ⟨o, hrun⟩
    exact shiftRightByPositive_inv hb hfar granted_nil hrun
  · rintro ⟨hk, hwhole, hmax⟩
    obtain ⟨p, hp⟩ := Int.eq_ofNat_of_zero_le hwhole
    obtain ⟨r, hrun, -⟩ := shiftRightByPositive_near ha hb hfar hk hp hmax granted_nil
    exact ⟨some r, hrun⟩

/-- The counts that are carried out as they should be: those that leave nothing
of the operand, and those with bits to shift by that are taken for what they
are, or for smaller ones that leave only the sign as well. -/
def ShiftRightExact (a b : Bigint) : Prop :=
  a.nchunk ≤ wholeChunks b.val ∨
    nonChunkShift b.val ≠ 0 ∧ 0 ≤ wholeChunks b.val ∧ a.nchunk - wholeChunks b.val ≤ INT_MAX ∧
      (64 * wholeChunks b.val + nonChunkShift b.val = b.val ∨
        -2 ^ (64 * (wholeChunks b.val).toNat + nonChunkShift b.val) ≤ a.val ∧
          a.val < 2 ^ (64 * (wholeChunks b.val).toNat + nonChunkShift b.val))

/-- The two parts of a count never make up a larger one. -/
theorem parts_le {b : Bigint} (h : 0 ≤ b.val) :
    64 * wholeChunks b.val + nonChunkShift b.val ≤ b.val := by
  have hle := narrow_le ((b.val % 2 ^ 64).toNat / 64)
  unfold wholeChunks nonChunkShift
  omega

theorem ediv_parts_eq_iff {a b : Bigint} (h : 0 ≤ b.val) {p : Nat} (hp : wholeChunks b.val = p) :
    a.val / 2 ^ (64 * p + nonChunkShift b.val) = a.val / 2 ^ b.val.toNat ↔
      (64 * wholeChunks b.val + nonChunkShift b.val = b.val ∨
        -2 ^ (64 * p + nonChunkShift b.val) ≤ a.val ∧
          a.val < 2 ^ (64 * p + nonChunkShift b.val)) := by
  have hle := parts_le h
  rw [hp] at hle ⊢
  rcases Nat.lt_or_eq_of_le (by omega : 64 * p + nonChunkShift b.val ≤ b.val.toNat) with hlt | heq
  · rw [ediv_two_pow_eq_iff hlt, or_iff_right (by omega)]
  · exact iff_of_true (by rw [heq]) (.inl (by omega))

/-- With memory for the result the function returns the quotient, exactly for
those counts. -/
theorem bigintShiftRight_exact_iff {a b : Bigint} (ha : a.Canonical) (hb : b.Canonical)
    (hnonneg : 0 ≤ b.val) (fuel : Nat) {answers : List Bool} (hg : granted answers = true) :
    (∃ r, (bigintShiftRight (fuel + 1) (some a) (some b)).run answers
        = .ok (some r, answers.tail) ∧ r.Canonical ∧ r.val = a.val / 2 ^ b.val.toNat) ↔
    ShiftRightExact a b := by
  rw [bigintShiftRight_of_nonneg hb hnonneg, ShiftRightExact]
  by_cases hfar : a.nchunk ≤ wholeChunks b.val
  · obtain ⟨r, hrun, hcan, hr⟩ := shiftRightByPositive_far ha hb hfar hg
    have hle := parts_le hnonneg
    have hrange : -2 ^ b.val.toNat ≤ a.val ∧ a.val < 2 ^ b.val.toNat := by
      have hpow : (2 : Int) ^ (64 * a.chunks.length - 1) ≤ 2 ^ b.val.toNat :=
        pow_le_pow_right₀ (by decide) (by unfold Bigint.nchunk at hfar; omega)
      have hfits := ha.fits
      unfold Fits at hfits
      omega
    refine iff_of_true ((returns_iff hrun hcan).mpr ?_) (.inl hfar)
    rw [hr, ediv_two_pow_of_range hrange]
  rw [or_iff_right hfar]
  constructor
  · rintro ⟨r, hrun, -, hr⟩
    obtain ⟨hk, hwhole, hmax⟩ := shiftRightByPositive_inv hb hfar hg hrun
    obtain ⟨p, hp⟩ := Int.eq_ofNat_of_zero_le hwhole
    obtain ⟨m, hrun', -, hm⟩ := shiftRightByPositive_near ha hb hfar hk hp hmax hg
    rw [hrun'] at hrun
    cases hrun
    refine ⟨hk, hwhole, hmax, ?_⟩
    rw [hp, Int.toNat_natCast]
    exact hp ▸ (ediv_parts_eq_iff hnonneg hp).mp (hm ▸ hr)
  · rintro ⟨hk, hwhole, hmax, hparts⟩
    obtain ⟨p, hp⟩ := Int.eq_ofNat_of_zero_le hwhole
    obtain ⟨m, hrun, hcan, hm⟩ := shiftRightByPositive_near ha hb hfar hk hp hmax hg
    refine ⟨m, hrun, hcan, hm.trans ?_⟩
    have htoNat : (wholeChunks b.val).toNat = p := by rw [hp, Int.toNat_natCast]
    rw [htoNat] at hparts
    exact (ediv_parts_eq_iff hnonneg hp).mpr hparts

/-- `3 >> 1`. -/
theorem bigintShiftRight_exact_iff_three_one :
    ∃ r, (bigintShiftRight 1 (some { padChunk := 0, chunks := [3] }) (some bigintOne)).run []
      = .ok (some r, []) ∧ r.Canonical ∧ r.val = 3 / 2 ^ 1 := by
  have hthree : ({ padChunk := 0, chunks := [3] } : Bigint).Canonical := by decide
  have hone : bigintOne.Canonical := by decide
  exact (bigintShiftRight_exact_iff hthree hone (by decide) 0 granted_nil).mpr
    (.inr ⟨by decide, by decide, by decide, .inl (by decide)⟩)

/-- Shifting 1 by 0 shifts by the width of a chunk; and of `2 ^ 64 + 1`, a count
of two chunks, only the 1 is seen, so that 3 shifted by it is 1. -/
theorem bigintShiftRight_one_zero :
    bigintOne.Canonical ∧
    ({ padChunk := 0, chunks := [0] } : Bigint).Canonical ∧
    ({ padChunk := 0, chunks := [0] } : Bigint).val = 0 ∧
    (bigintShiftRight 1 (some bigintOne) (some { padChunk := 0, chunks := [0] })).run []
      = .error .shift ∧
    ({ padChunk := 0, chunks := [3] } : Bigint).Canonical ∧
    ({ padChunk := 0, chunks := [1, 1] } : Bigint).Canonical ∧
    ({ padChunk := 0, chunks := [1, 1] } : Bigint).val = 2 ^ 64 + 1 ∧
    (bigintShiftRight 1 (some { padChunk := 0, chunks := [3] })
      (some { padChunk := 0, chunks := [1, 1] })).run [] = .ok (some bigintOne, []) := by
  refine ⟨by decide, by decide, by decide, ?_, by decide, by decide, by decide, ?_⟩
  all_goals decide

end Jccl
