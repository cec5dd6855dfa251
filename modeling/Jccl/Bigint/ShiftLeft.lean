/-
# `Jccl.Bigint.ShiftLeft` — when `bigint_shift_left` multiplies by a power of two

The count is split into whole chunks and bits.  With bits to shift by and
whole chunks that an `int` holds, the loop hands the bits that leave a chunk
over to the next one, and the last chunk takes what leaves the top together
with the shifted padding: the array reads as the product.

Three things can go wrong, and there is a condition on each:

  * no bits: the complementary shift is then by the width, and the chunk for
    the outgoing carry, which is written all the same, was not asked for;
  * more whole chunks than an `int` holds: they are converted modulo
    `2 ^ 32`, so the product is of another power, or the index negative;
  * a chunk count that leaves the range of `int`, or is not positive.
-/
import Jccl.Lib.WordShift
import Jccl.Bigint.Negate

namespace Jccl

open Words

/-! ## The two parts of a count -/

/-- `npre_chunks` and `removed_chunks`: the whole chunks in a count, of which
both functions read the first chunk. -/
def wholeChunks (count : Int) : Int := narrow ((count % 2 ^ 64).toNat / 64)

/-- `non_chunk_shift`. -/
def nonChunkShift (count : Int) : Nat := (count % 64).toNat

theorem nonChunkShift_lt (count : Int) : nonChunkShift count < 64 := by
  unfold nonChunkShift
  omega

theorem count_ok {b : Bigint} (hb : b.Canonical) :
    ∃ count, b.chunk 0 = .ok count ∧ narrow (count.toNat / LONG_BIT) = wholeChunks b.val ∧
      narrow (count.toNat % LONG_BIT) = nonChunkShift b.val := by
  have hcount : (BitVec.ofInt 64 b.val).toNat = (b.val % 2 ^ 64).toNat := BitVec.toNat_ofInt _
  refine ⟨_, hb.chunk_zero, by rw [hcount]; rfl, ?_⟩
  have hmod : (b.val % 2 ^ 64).toNat % LONG_BIT = nonChunkShift b.val := by
    simp only [nonChunkShift, LONG_BIT]
    omega
  have hlt := nonChunkShift_lt b.val
  rw [hcount, hmod]
  exact narrow_of_le (by unfold INT_MAX; omega)

/-! ## Machine steps -/

theorem shiftLeft_ofNat (x : ULong) {k : Nat} (hk : k < 64) : shiftLeft x k = .ok (x <<< k) :=
  if_pos ⟨Int.natCast_nonneg k, Int.ofNat_lt.mpr hk⟩

theorem shiftRight_ofNat (x : ULong) {k : Nat} (hk : k < 64) : shiftRight x k = .ok (x >>> k) :=
  if_pos ⟨Int.natCast_nonneg k, Int.ofNat_lt.mpr hk⟩

theorem compl_ofNat {k : Nat} (hk : k < 64) : (LONG_BIT : Int) - k = (64 - k : Nat) := by
  unfold LONG_BIT
  omega

/-- A write behind the chunks that are known. -/
theorem setChunk_append {n : Bigint} {us vs : List ULong} {x : ULong} {i : Int}
    (h : n.chunks = us ++ x :: vs) (hi : i = us.length) (v : ULong) :
    n.setChunk i v = .ok { n with chunks := us ++ v :: vs } := by
  subst hi
  rw [setChunk_ofNat (by rw [h]; simp), h]
  simp

/-! ## The loop -/

/-- After `i` iterations as many chunks are written, and they read, with the
carry above them, as the first chunks of the operand times the power. -/
def ShiftLeftInv (a : Bigint) (p k i : Nat) (st : Bigint × ULong) : Prop :=
  ∃ ws, st.1.chunks = List.replicate p 0 ++ ws ++ List.replicate (a.chunks.length - i + 1) 0 ∧
    ws.length = i ∧ st.2.toNat < 2 ^ k ∧
    unsigned ws + 2 ^ (64 * i) * st.2.toNat = unsigned (a.chunks.take i) * 2 ^ k

section Loop

variable {a : Bigint} {p k : Nat}

theorem shiftLeftStep_ok (hk : k ≠ 0) (hk' : k < 64) {i : Nat} (hi : i < a.chunks.length)
    {st : Bigint × ULong} (h : ShiftLeftInv a p k i st) :
    ∃ st', shiftLeftStep a p k i st = .ok st' ∧ ShiftLeftInv a p k (i + 1) st' := by
  obtain ⟨res, carry⟩ := st
  obtain ⟨ws, hws, hlen, hcarry, hval⟩ := h
  simp only at hws hcarry hval
  obtain ⟨d, hd⟩ : ∃ d, a.chunks.length - i = d + 1 := ⟨a.chunks.length - i - 1, by omega⟩
  have hrest : a.chunks.length - (i + 1) + 1 = d + 1 := by omega
  rw [hd, List.replicate_succ] at hws
  obtain ⟨v, hv⟩ : ∃ v, v = a.chunks[i] <<< k ||| carry := ⟨_, rfl⟩
  have hset := setChunk_append hws (i := (p : Int) + i) (by simp [hlen]) v
  have hword := shiftLeft_or_carry (x := a.chunks[i]) hk'.le hcarry
  rw [← hv] at hword
  refine ⟨({ res with chunks := List.replicate p 0 ++ ws ++ v :: List.replicate (d + 1) 0 },
    a.chunks[i] >>> (64 - k)), ?_, ws ++ [v], ?_, by simp [hlen], toNat_shiftRight_lt hk'.le, ?_⟩
  · simp only [shiftLeftStep, chunk_ofNat hi, shiftLeft_ofNat _ hk', Outcome.ok_bind, ← hv, hset,
      compl_ofNat hk', shiftRight_ofNat _ (by omega : 64 - k < 64), Outcome.pure_eq]
  · rw [hrest]
    simp
  · have hpow : 2 ^ (64 * (i + 1)) = 2 ^ (64 * i) * 2 ^ 64 := by rw [Nat.mul_succ, pow_add]
    rw [List.take_succ_eq_append_getElem hi, unsigned_append, unsigned_append, hlen,
      List.length_take_of_le hi.le, hpow]
    simp only [unsigned_cons, unsigned_nil, Nat.mul_zero, Nat.add_zero]
    linear_combination hval + 2 ^ (64 * i) * hword

theorem shiftLeftLoop_ok (hk : k ≠ 0) (hk' : k < 64) (pad : ULong) :
    ∃ st, forLoop (shiftLeftStep a p k) a.chunks.length
        ({ padChunk := pad, chunks := List.replicate (p + a.chunks.length + 1) 0 }, 0) = .ok st ∧
      ShiftLeftInv a p k a.chunks.length st := by
  have hsplit : List.replicate (p + a.chunks.length + 1) (0 : ULong)
      = List.replicate p 0 ++ [] ++ List.replicate (a.chunks.length - 0 + 1) 0 := by
    rw [List.append_nil, Nat.sub_zero, List.replicate_append_replicate, Nat.add_assoc]
  exact forLoop_ok ⟨[], hsplit, rfl, by simp, by simp⟩
    (fun _ _ hi hInv => shiftLeftStep_ok hk hk' hi hInv)

/-- The array with the last chunk in it. -/
theorem signed_shiftedLeft (ha : a.Canonical) (hk' : k < 64) {ws : List ULong} {carry : ULong}
    (hlen : ws.length = a.chunks.length) (hcarry : carry.toNat < 2 ^ k)
    (hval : unsigned ws + 2 ^ (64 * a.chunks.length) * carry.toNat = unsigned a.chunks * 2 ^ k) :
    signed (List.replicate p 0 ++ ws ++ [carry ||| a.padChunk <<< k])
      = a.val * 2 ^ (64 * p + k) := by
  have hcast : (unsigned ws : Int) + 2 ^ (64 * a.chunks.length) * carry.toNat
      = unsigned a.chunks * 2 ^ k := by exact_mod_cast hval
  have hzero : unsigned (List.replicate p (0 : ULong)) = 0 := unsigned_replicate_zero p
  rw [ha.pad, signed_append_carry _ hk' hcarry, unsigned_append, hzero, ha.val_eq, signed,
    List.length_append, List.length_replicate, hlen, Nat.mul_add, pow_add, pow_add]
  push_cast
  split <;> linear_combination 2 ^ (64 * p) * hcast

end Loop

/-! ## The whole function -/

/-- The number of chunks that is asked for. -/
def shiftLeftNchunk (a : Bigint) (count : Int) : Int :=
  a.nchunk + wholeChunks count + if nonChunkShift count ≠ 0 then 1 else 0

/-- The function behind the computation of that number. -/
def shiftLeftInto (a : Bigint) (npreChunks nonChunkShift nchunk : Int) :
    AllocM (Option Bigint) := do
  let some res ← bigintInit nchunk | return none
  let (res, carry) ← forLoop (shiftLeftStep a npreChunks nonChunkShift) a.chunks.length (res, 0)
  let top ← shiftLeft a.padChunk nonChunkShift
  let res ← res.setChunk (npreChunks + a.nchunk) (carry ||| top)
  bigintIdentifyPadChunkAndTrim (some res)

/-- The function behind the allocation of the result. -/
def shiftLeftFrom (a : Bigint) (npreChunks nonChunkShift : Int) (res : Option Bigint) :
    AllocM (Option Bigint) := do
  let some res := res | return none
  let (res, carry) ← forLoop (shiftLeftStep a npreChunks nonChunkShift) a.chunks.length (res, 0)
  let top ← shiftLeft a.padChunk nonChunkShift
  let res ← res.setChunk (npreChunks + a.nchunk) (carry ||| top)
  bigintIdentifyPadChunkAndTrim (some res)

/-- `shiftLeftByPositive`, with that allocation left open. -/
def shiftLeftWith (init : Int → AllocM (Option Bigint)) (a b : Bigint) :
    AllocM (Option Bigint) := do
  if b.nchunk > 1 then return none
  let count ← b.chunk 0
  let npreChunks := narrow (count.toNat / LONG_BIT)
  let nonChunkShift := narrow (count.toNat % LONG_BIT)
  let nchunk ← checkInt (a.nchunk + npreChunks)
  let nchunk ← checkInt (nchunk + if nonChunkShift ≠ 0 then 1 else 0)
  let res ← init nchunk
  shiftLeftFrom a npreChunks nonChunkShift res

section Positive

variable {a b : Bigint} {answers : List Bool}

/-- Either the number of chunks is an `int`, or one of its two sums overflows. -/
theorem shiftLeftWith_run (init : Int → AllocM (Option Bigint)) (hb : b.Canonical)
    (hone : ¬ b.nchunk > 1) :
    (shiftLeftWith init a b).run answers =
      if shiftLeftNchunk a b.val ≤ INT_MAX then
        (init (shiftLeftNchunk a b.val) >>=
          shiftLeftFrom a (wholeChunks b.val) (nonChunkShift b.val)).run answers
      else .error .overflow := by
  obtain ⟨count, hcount, hwhole, hbits⟩ := count_ok hb
  have hmin : INT_MIN ≤ wholeChunks b.val := min_le_narrow _
  have hpos : 0 ≤ a.nchunk := Int.natCast_nonneg _
  have hbit : (if (nonChunkShift b.val : Int) ≠ 0 then 1 else 0 : Int)
      = if nonChunkShift b.val ≠ 0 then 1 else 0 := by
    simp only [ne_eq, Int.natCast_eq_zero]
  have hle : a.nchunk + wholeChunks b.val ≤ shiftLeftNchunk a b.val := by
    unfold shiftLeftNchunk
    split <;> omega
  rw [shiftLeftWith, if_neg hone, AllocM.run_lift_bind, hcount, Outcome.ok_bind, hwhole, hbits]
  dsimp only
  rw [AllocM.run_lift_bind]
  by_cases hsum : a.nchunk + wholeChunks b.val ≤ INT_MAX
  · rw [checkInt_of ⟨by omega, hsum⟩, Outcome.ok_bind, AllocM.run_lift_bind, hbit]
    change (checkInt (shiftLeftNchunk a b.val) >>= _) = _
    by_cases hmax : shiftLeftNchunk a b.val ≤ INT_MAX
    · rw [if_pos hmax, checkInt_of ⟨by omega, hmax⟩, Outcome.ok_bind]
    · rw [if_neg hmax, checkInt_not (not_le.mp hmax), Outcome.error_bind]
  · have hmax : ¬ shiftLeftNchunk a b.val ≤ INT_MAX := by omega
    rw [if_neg hmax, checkInt_not (not_le.mp hsum), Outcome.error_bind]

theorem shiftLeftByPositive_run (hb : b.Canonical) (hone : ¬ b.nchunk > 1) :
    (shiftLeftByPositive a b).run answers =
      if shiftLeftNchunk a b.val ≤ INT_MAX then
        (shiftLeftInto a (wholeChunks b.val) (nonChunkShift b.val)
          (shiftLeftNchunk a b.val)).run answers
      else .error .overflow :=
  shiftLeftWith_run bigintInit hb hone

/-- The result is the product with the power that the two parts make up. -/
theorem shiftLeftInto_ok (ha : a.Canonical) {p k : Nat} (hk : k ≠ 0) (hk' : k < 64)
    (hg : granted answers = true) :
    ∃ r, (shiftLeftInto a p k (p + a.chunks.length + 1 : Nat)).run answers
        = .ok (some r, answers.tail) ∧
      r.Canonical ∧ r.val = a.val * 2 ^ (64 * p + k) := by
  obtain ⟨⟨res, carry⟩, hloop, ws, hws, hlen, hcarry, hval⟩ :=
    shiftLeftLoop_ok (a := a) (p := p) hk hk' 0
  simp only [Nat.sub_self, List.take_length] at hws hcarry hval
  have hlast : res.chunks = List.replicate p 0 ++ ws ++ 0 :: [] := hws
  have hset := setChunk_append hlast (i := (p : Int) + a.nchunk)
    (by simp [hlen, Bigint.nchunk]) (carry ||| a.padChunk <<< k)
  obtain ⟨r, htrim, hcan, hr⟩ := trim_ok
    (n := { res with chunks := List.replicate p 0 ++ ws ++ [carry ||| a.padChunk <<< k] }) (by simp)
  refine ⟨r, ?_, hcan, hr.trans (signed_shiftedLeft ha hk' hlen hcarry hval)⟩
  have hpos : (0 : Int) < (p + a.chunks.length + 1 : Nat) := by omega
  simp only [shiftLeftInto, StateT.run_bind, bigintInit_run hpos, hg, if_true, Outcome.ok_bind,
    AllocM.run_lift, Int.toNat_natCast, hloop, shiftLeft_ofNat _ hk', hset, htrim]

theorem shiftLeftInto_refused {p k n : Int} (hn : 0 < n) (hg : granted answers = false) :
    (shiftLeftInto a p k n).run answers = .ok (none, answers.tail) := by
  rw [shiftLeftInto, StateT.run_bind, bigintInit_run hn, hg]
  rfl

/-- A run that ends shows that the first iteration could be run. -/
theorem shiftLeftInto_inv (ha : a.Canonical) {p : Int} {k : Nat} {n : Int} {o : Option Bigint}
    {answers' : List Bool} (h : (shiftLeftInto a p k n).run answers = .ok (o, answers')) :
    0 < n ∧ (granted answers = true → 0 ≤ p ∧ k ≠ 0) := by
  obtain ⟨res, t, hinit, h⟩ := AllocM.bind_eq_ok.mp h
  have hn := bigintInit_pos hinit
  refine ⟨hn, fun hg => ?_⟩
  rw [bigintInit_run hn, hg] at hinit
  cases hinit
  obtain ⟨st, hloop, -⟩ := AllocM.lift_bind_eq_ok.mp h
  obtain ⟨_, _, hstart, hstep⟩ := forLoop_step hloop (List.length_pos_iff.mpr ha.ne_nil)
  cases hstart
  obtain ⟨chunk, -, hstep⟩ := Outcome.bind_eq_ok.mp hstep
  obtain ⟨_, -, hstep⟩ := Outcome.bind_eq_ok.mp hstep
  obtain ⟨_, hset, hstep⟩ := Outcome.bind_eq_ok.mp hstep
  obtain ⟨_, hcarry, -⟩ := Outcome.bind_eq_ok.mp hstep
  constructor
  · by_contra hp
    rw [Bigint.setChunk, if_neg (by omega)] at hset
    cases hset
  · rintro rfl
    rw [shiftRight, if_neg (by simp)] at hcarry
    cases hcarry

end Positive

/-! ## The product -/

/-- A count that is not negative does not go to `bigint_shift_right`. -/
theorem bigintShiftLeft_of_nonneg {b : Bigint} (hb : b.Canonical) (h : 0 ≤ b.val) (a : Bigint)
    (fuel : Nat) : bigintShiftLeft (fuel + 1) (some a) (some b) = shiftLeftByPositive a b := by
  rw [bigintShiftLeft, if_neg (by rw [bigintMsb_padding_eq_one hb]; omega)]

/-- The counts that are carried out or refused as they should be, `allocated`
telling whether there is memory for the result. -/
def ShiftLeftExact (a b : Bigint) (allocated : Bool) : Prop :=
  2 ^ 63 ≤ b.val ∨
    0 < shiftLeftNchunk a b.val ∧ shiftLeftNchunk a b.val ≤ INT_MAX ∧
      (allocated = true → nonChunkShift b.val ≠ 0 ∧ 0 ≤ wholeChunks b.val ∧
        (wholeChunks b.val = b.val / 64 ∨ a.val = 0))

theorem shiftLeftNchunk_eq {a : Bigint} {count : Int} {p : Nat} (hp : wholeChunks count = p)
    (hk : nonChunkShift count ≠ 0) :
    shiftLeftNchunk a count = (p + a.chunks.length + 1 : Nat) := by
  rw [shiftLeftNchunk, hp, if_pos hk, Bigint.nchunk]
  omega

/-- A count of more than one chunk is refused. -/
theorem shiftLeftByPositive_big {a b : Bigint} (hb : b.Canonical) (h : 2 ^ 63 ≤ b.val)
    (answers : List Bool) : (shiftLeftByPositive a b).run answers = .ok (none, answers) := by
  have hlong := nchunk_gt_one_iff hb
  rw [shiftLeftByPositive, if_pos (hlong.mpr (by omega))]
  rfl

/-- A run of a count that is not refused. -/
theorem shiftLeftByPositive_inv {a b : Bigint} (ha : a.Canonical) (hb : b.Canonical)
    (hone : ¬ b.nchunk > 1) {answers answers' : List Bool} {o : Option Bigint}
    (h : (shiftLeftByPositive a b).run answers = .ok (o, answers')) :
    0 < shiftLeftNchunk a b.val ∧ shiftLeftNchunk a b.val ≤ INT_MAX ∧
      (granted answers = true → 0 ≤ wholeChunks b.val ∧ nonChunkShift b.val ≠ 0) := by
  rw [shiftLeftByPositive_run hb hone] at h
  split at h
  · rename_i hmax
    obtain ⟨hpos, hparts⟩ := shiftLeftInto_inv ha h
    exact ⟨hpos, hmax, hparts⟩
  · cases h

theorem shiftLeftByPositive_ok {a b : Bigint} (ha : a.Canonical) (hb : b.Canonical)
    (hone : ¬ b.nchunk > 1) (hk : nonChunkShift b.val ≠ 0) {p : Nat}
    (hp : wholeChunks b.val = p) (hmax : shiftLeftNchunk a b.val ≤ INT_MAX)
    {answers : List Bool} (hg : granted answers = true) :
    ∃ r, (shiftLeftByPositive a b).run answers = .ok (some r, answers.tail) ∧ r.Canonical ∧
      r.val = a.val * 2 ^ (64 * p + nonChunkShift b.val) := by
  rw [shiftLeftByPositive_run hb hone, if_pos hmax, hp, shiftLeftNchunk_eq hp hk]
  exact shiftLeftInto_ok ha hk (nonChunkShift_lt _) hg

/-- The counts with which the function comes to an end. -/
def ShiftLeftRuns (a : Bigint) (count : Int) : Prop :=
  2 ^ 63 ≤ count ∨
    shiftLeftNchunk a count ≤ INT_MAX ∧ nonChunkShift count ≠ 0 ∧ 0 ≤ wholeChunks count

theorem shiftLeftByPositive_runs_iff {a b : Bigint} (ha : a.Canonical) (hb : b.Canonical)
    (hnonneg : 0 ≤ b.val) :
    (∃ o, (shiftLeftByPositive a b).run [] = .ok (o, [])) ↔ ShiftLeftRuns a b.val := by
  have hlong := nchunk_gt_one_iff hb
  by_cases hbig : 2 ^ 63 ≤ b.val
  · exact iff_of_true ⟨none, shiftLeftByPositive_big hb hbig []⟩ (.inl hbig)
  have hone : ¬ b.nchunk > 1 := by omega
  rw [ShiftLeftRuns, or_iff_right hbig]
  constructor
  · rintro ⟨o, hrun⟩
    obtain ⟨-, hmax, hparts⟩ := shiftLeftByPositive_inv ha hb hone hrun
    obtain ⟨hwhole, hk⟩ := hparts granted_nil
    exact ⟨hmax, hk, hwhole⟩
  · rintro ⟨hmax, hk, hwhole⟩
    obtain ⟨p, hp⟩ := Int.eq_ofNat_of_zero_le hwhole
    obtain ⟨r, hrun, -⟩ := shiftLeftByPositive_ok ha hb hone hk hp hmax granted_nil
    exact ⟨some r, hrun⟩

/-- The two parts of a count make it up again, unless the first was converted
to another `int`. -/
theorem mul_two_pow_eq_iff {a b : Bigint} (hnonneg : 0 ≤ b.val) {p : Nat}
    (hp : wholeChunks b.val = p) :
    a.val * 2 ^ (64 * p + nonChunkShift b.val) = a.val * 2 ^ b.val.toNat ↔
      wholeChunks b.val = b.val / 64 ∨ a.val = 0 := by
  have hparts : b.val.toNat = 64 * (b.val / 64).toNat + nonChunkShift b.val := by
    unfold nonChunkShift
    omega
  rw [mul_eq_mul_left_iff, pow_right_inj₀ two_pos (by decide), hp, hparts]
  omega

/-- The function returns NULL or the product, exactly for those counts. -/
theorem bigintShiftLeft_exact_iff {a b : Bigint} (ha : a.Canonical) (hb : b.Canonical)
    (hnonneg : 0 ≤ b.val) (fuel : Nat) (answers : List Bool) :
    (∃ o answers', (bigintShiftLeft (fuel + 1) (some a) (some b)).run answers = .ok (o, answers') ∧
      ∀ r, o = some r → r.Canonical ∧ r.val = a.val * 2 ^ b.val.toNat) ↔
    ShiftLeftExact a b (granted answers) := by
  have hlong := nchunk_gt_one_iff hb
  rw [bigintShiftLeft_of_nonneg hb hnonneg]
  by_cases hbig : 2 ^ 63 ≤ b.val
  · exact iff_of_true ⟨none, answers, shiftLeftByPositive_big hb hbig answers,
      fun r hr => (by cases hr)⟩ (.inl hbig)
  have hone : ¬ b.nchunk > 1 := by omega
  rw [ShiftLeftExact, or_iff_right hbig]
  constructor
  · rintro ⟨o, answers', hrun, hval⟩
    obtain ⟨hpos, hmax, hparts⟩ := shiftLeftByPositive_inv ha hb hone hrun
    refine ⟨hpos, hmax, fun hg => ?_⟩
    obtain ⟨hwhole, hk⟩ := hparts hg
    obtain ⟨p, hp⟩ := Int.eq_ofNat_of_zero_le hwhole
    obtain ⟨r, hrun', -, hr⟩ := shiftLeftByPositive_ok ha hb hone hk hp hmax hg
    rw [hrun'] at hrun
    cases hrun
    exact ⟨hk, hwhole, (mul_two_pow_eq_iff hnonneg hp).mp (hr ▸ (hval r rfl).2)⟩
  · rintro ⟨hpos, hmax, hparts⟩
    cases hg : granted answers with
    | false =>
        refine ⟨none, answers.tail, ?_, fun r hr => (by cases hr)⟩
        rw [shiftLeftByPositive_run hb hone, if_pos hmax]
        exact shiftLeftInto_refused hpos hg
    | true =>
        obtain ⟨hk, hwhole, heq⟩ := hparts hg
        obtain ⟨p, hp⟩ := Int.eq_ofNat_of_zero_le hwhole
        obtain ⟨r, hrun, hcan, hr⟩ := shiftLeftByPositive_ok ha hb hone hk hp hmax hg
        refine ⟨some r, _, hrun, ?_⟩
        rintro _ ⟨⟩
        exact ⟨hcan, hr.trans ((mul_two_pow_eq_iff hnonneg hp).mpr heq)⟩

/-- A shift by a whole chunk and a bit. -/
theorem bigintShiftLeft_exact_iff_65 :
    ∃ o answers', (bigintShiftLeft 1 (some bigintSixWords)
        (some { padChunk := 0, chunks := [65] })).run [] = .ok (o, answers') ∧
      ∀ r, o = some r → r.Canonical ∧ r.val = (6 * 2 ^ 64 - 1) * 2 ^ 65 := by
  have hsix : bigintSixWords.Canonical := by decide
  have hcount : ({ padChunk := 0, chunks := [65] } : Bigint).Canonical := by decide
  exact (bigintShiftLeft_exact_iff hsix hcount (by decide) 0 []).mpr
    (.inr ⟨by decide, by decide, fun _ => ⟨by decide, by decide, .inl (by decide)⟩⟩)

/-- Shifting 1 by 64 shifts by the width of a chunk; and where there is a part
of a chunk to shift by, `2 ^ 32` whole ones are not seen, so that 1 shifted by
`2 ^ 38 + 1` is 2. -/
theorem bigintShiftLeft_one_64 :
    bigintOne.Canonical ∧
    ({ padChunk := 0, chunks := [64] } : Bigint).Canonical ∧
    ({ padChunk := 0, chunks := [64] } : Bigint).val = 64 ∧
    (bigintShiftLeft 1 (some bigintOne) (some { padChunk := 0, chunks := [64] })).run []
      = .error .shift ∧
    ({ padChunk := 0, chunks := [0x4000000001] } : Bigint).Canonical ∧
    ({ padChunk := 0, chunks := [0x4000000001] } : Bigint).val = 2 ^ 38 + 1 ∧
    (bigintShiftLeft 1 (some bigintOne) (some { padChunk := 0, chunks := [0x4000000001] })).run []
      = .ok (some { padChunk := 0, chunks := [2] }, []) := by
  refine ⟨by decide, by decide, by decide, ?_, by decide, by decide, ?_⟩
  all_goals decide

end Jccl
