/-
# `Jccl.Bigint.Trim` — the integer a bigint denotes, and its canonical form

`Bigint.val` reads the chunks by place value and lets the padding word weigh
at the place above them, so it is defined for every bigint, canonical or not.
Every operator of the file ends in `bigint_identify_pad_chunk_and_trim`, and
`trim_ok` is all that the rest of the development knows about it: on any
non-empty array it has a result, the result is canonical, and its value is
the two's-complement reading of the array.
-/
import Jccl.Bigint.Defs

namespace Jccl

open Words

/-- The integer denoted by the chunks, sign-extended by the padding word. -/
def Bigint.val (n : Bigint) : Int :=
  unsigned n.chunks + n.padChunk.toInt * 2 ^ (64 * n.chunks.length)

/-- The representation invariant. -/
structure Bigint.Canonical (n : Bigint) : Prop where
  nchunk_pos : 1 ≤ n.nchunk
  pad : n.padChunk = fill (msb n.chunks)
  minimal : Minimal n.chunks

theorem Bigint.Canonical.ne_nil {n : Bigint} (h : n.Canonical) : n.chunks ≠ [] := by
  intro hnil
  simpa [Bigint.nchunk, hnil] using h.nchunk_pos

theorem word_pos : 0 < 64 := by decide

instance (n : Bigint) : Decidable n.Canonical :=
  decidable_of_iff
    (1 ≤ n.nchunk ∧ n.padChunk = fill (msb n.chunks) ∧ ¬ Redundant n.chunks)
    ⟨fun h => ⟨h.1, h.2.1, (minimal_iff word_pos).mpr h.2.2⟩,
     fun h => ⟨h.nchunk_pos, h.pad, (minimal_iff word_pos).mp h.minimal⟩⟩

/-- A bigint padded by the sign of its array denotes what the array reads. -/
theorem val_eq_signed {n : Bigint} (h : n.padChunk = fill (msb n.chunks)) :
    n.val = signed n.chunks := by
  unfold Bigint.val signed
  rw [h]
  cases msb n.chunks
  · simp
  · simp; ring

theorem Bigint.Canonical.val_eq {n : Bigint} (h : n.Canonical) : n.val = signed n.chunks :=
  val_eq_signed h.pad

/-- Canonical bigints are determined by the integer they denote. -/
theorem Bigint.Canonical.ext {m n : Bigint} (hm : m.Canonical) (hn : n.Canonical)
    (h : m.val = n.val) : m = n := by
  rw [hm.val_eq, hn.val_eq] at h
  have hl : m.chunks.length = n.chunks.length :=
    le_antisymm (hm.minimal _ hn.ne_nil h.symm) (hn.minimal _ hm.ne_nil h)
  have hc := signed_inj word_pos hl h
  have hp : m.padChunk = n.padChunk := by rw [hm.pad, hn.pad, hc]
  cases m; cases n; simp_all

/-! ## Reading chunks -/

theorem chunk_ofNat {n : Bigint} {i : Nat} (h : i < n.chunks.length) :
    n.chunk i = .ok n.chunks[i] := by
  rw [Bigint.chunk, if_pos ⟨by omega, by unfold Bigint.nchunk; omega⟩]
  simp [h]

theorem setChunk_ofNat {n : Bigint} {i : Nat} {v : ULong} (h : i < n.chunks.length) :
    n.setChunk i v = .ok { n with chunks := n.chunks.set i v } := by
  rw [Bigint.setChunk, if_pos ⟨by omega, by unfold Bigint.nchunk; omega⟩]
  simp

theorem setChunk_length {n n' : Bigint} {i : Int} {v : ULong} (h : n.setChunk i v = .ok n') :
    n'.chunks.length = n.chunks.length := by
  unfold Bigint.setChunk at h
  split at h
  · cases h; simp
  · cases h

theorem indexWithPadding_of_lt {n : Bigint} {i : Nat} (h : i < n.chunks.length) :
    bigintIndexWithPadding n i = n.chunks[i] := by
  rw [bigintIndexWithPadding, if_pos ⟨by omega, by unfold Bigint.nchunk; omega⟩]
  simp [h]

theorem indexWithPadding_of_le {n : Bigint} {i : Nat} (h : n.chunks.length ≤ i) :
    bigintIndexWithPadding n i = n.padChunk := by
  rw [bigintIndexWithPadding, if_neg (by unfold Bigint.nchunk; omega)]

theorem toNat_shiftRight_msb (x : ULong) : (x >>> LONG_MSB).toNat = x.msb.toNat := by
  have hx := x.isLt
  have hdiv : x.toNat / 2 ^ 63 = 0 ∨ x.toNat / 2 ^ 63 = 1 := by omega
  rw [BitVec.msb_eq_decide, BitVec.toNat_ushiftRight, Nat.shiftRight_eq_div_pow]
  simp only [LONG_MSB, LONG_BIT, Nat.add_one_sub_one]
  by_cases hle : 2 ^ 63 ≤ x.toNat
  · simp only [hle, decide_true, Bool.toNat_true]; omega
  · simp only [hle, decide_false, Bool.toNat_false]; omega

theorem bigintMsb_of_getElem? {n : Bigint} {i : Nat} {x : ULong} (h : n.chunks[i]? = some x) :
    bigintMsb n i = x.msb.toNat := by
  obtain ⟨hi, rfl⟩ := List.getElem?_eq_some_iff.mp h
  rw [bigintMsb, indexWithPadding_of_lt hi, toNat_shiftRight_msb]

theorem padChunks_toNat (b : Bool) : padChunks b.toNat = fill b := by
  cases b <;> rfl

/-! ## Trimming -/

/-- The loop stops at the last chunk that differs from the padding word, or
at the bottom. -/
theorem trimLoop_spec (n : Bigint) : ∀ k, k < n.chunks.length →
    ∃ us x m, n.chunks.take (k + 1) = us ++ [x] ++ List.replicate m n.padChunk ∧
      trimLoop n k = .ok us.length ∧ (us = [] ∨ x ≠ n.padChunk)
  | 0, hk => ⟨[], n.chunks[0], 0, by rw [List.take_succ_eq_append_getElem hk]; simp, rfl, .inl rfl⟩
  | k + 1, hk => by
      have hread := chunk_ofNat hk
      push_cast at hread
      by_cases hc : n.chunks[k + 1] = n.padChunk
      · obtain ⟨us, x, m, htake, hi, hstop⟩ := trimLoop_spec n k (by omega)
        refine ⟨us, x, m + 1, ?_, by simp [trimLoop, hread, hc, hi], hstop⟩
        rw [List.take_succ_eq_append_getElem hk, hc, htake, List.append_assoc,
          List.replicate_succ']
      · refine ⟨n.chunks.take (k + 1), n.chunks[k + 1], 0, ?_, ?_, .inr hc⟩
        · rw [List.take_succ_eq_append_getElem hk]; simp
        · simp [trimLoop, hread, hc]; omega

/-- What the code after the loop makes of its result. -/
theorem trim_eq {n : Bigint} {us : List ULong} {x : ULong} {m : Nat}
    (hsplit : n.chunks = us ++ [x] ++ List.replicate m (fill (msb n.chunks)))
    (hloop : trimLoop { n with padChunk := fill (msb n.chunks) } (n.chunks.length - 1)
      = .ok us.length) :
    bigintIdentifyPadChunkAndTrim (some n) = .ok (some
      { padChunk := fill (msb n.chunks), chunks := trimmed us x (msb n.chunks) }) := by
  have hn : n.nchunk = us.length + 1 + m := by
    have := congrArg List.length hsplit
    simp only [Bigint.nchunk, List.length_append, List.length_singleton,
      List.length_replicate] at this ⊢
    omega
  have htop : bigintMsb n (n.nchunk - 1) = (msb n.chunks).toNat := by
    obtain hnil | ⟨init, top, hsnoc⟩ := n.chunks.eq_nil_or_concat'
    · simp [hnil] at hsplit
    · have hidx : n.nchunk - 1 = (init.length : Int) := by simp [Bigint.nchunk, hsnoc]
      rw [hidx, bigintMsb_of_getElem? (x := top) (by simp [hsnoc]), hsnoc, msb_append_singleton]
  have hm : x.msb ≠ msb n.chunks → 0 < m := by
    intro hx
    by_contra hm
    obtain rfl : m = 0 := by omega
    have := congrArg msb hsplit
    simp only [List.replicate_zero, List.append_nil, msb_append_singleton] at this
    exact hx this.symm
  generalize msb n.chunks = b at *
  have hmsb : bigintMsb { n with padChunk := fill b } us.length = x.msb.toNat :=
    bigintMsb_of_getElem? (by simp only; rw [hsplit]; simp)
  have hne : x.msb.toNat ≠ b.toNat ↔ x.msb ≠ b := by
    cases x.msb <;> cases b <;> simp
  have hnk : ({ n with padChunk := fill b } : Bigint).nchunk = n.nchunk := rfl
  have hk : (n.nchunk - 1).toNat = n.chunks.length - 1 := by unfold Bigint.nchunk; omega
  simp only [bigintIdentifyPadChunkAndTrim, htop, padChunks_toNat, hnk, hk, hloop,
    Outcome.ok_bind, hmsb, hne]
  have htake := take_eq_trimmed us hm
  rw [← hsplit] at htake
  have hle : (((if x.msb ≠ b then us.length + 1 else us.length) + 1 : Nat) : Int) ≤ n.nchunk := by
    rw [hn]
    split
    · rename_i hx; have := hm hx; omega
    · omega
  by_cases heq : (((if x.msb ≠ b then us.length + 1 else us.length) + 1 : Nat) : Int) = n.nchunk
  · rw [List.take_of_length_le (by unfold Bigint.nchunk at heq; omega)] at htake
    rw [if_neg (not_not.mpr heq), htake, Outcome.pure_eq]
  · rw [if_pos heq, assert_of (lt_of_le_of_ne hle heq), htake]
    rfl

/-- Trimming a non-empty array has a result, which is canonical and keeps the
two's-complement reading of the array. -/
theorem trim_ok {n : Bigint} (h : n.chunks ≠ []) :
    ∃ m, bigintIdentifyPadChunkAndTrim (some n) = .ok (some m) ∧ m.Canonical ∧
      m.val = signed n.chunks := by
  have hpos := List.length_pos_iff.mpr h
  obtain ⟨us, x, m, htake, hloop, hstop⟩ :=
    trimLoop_spec { n with padChunk := fill (msb n.chunks) } (n.chunks.length - 1)
      (by simp only; omega)
  simp only [Nat.sub_add_cancel hpos, List.take_length] at htake hstop
  have hcan : ({ padChunk := fill (msb n.chunks), chunks := trimmed us x (msb n.chunks) } :
      Bigint).Canonical :=
    { nchunk_pos := by
        have := List.length_pos_iff.mpr (trimmed_ne_nil us x (msb n.chunks))
        simp only [Bigint.nchunk]; omega
      pad := congrArg fill (msb_trimmed word_pos).symm
      minimal := minimal_trimmed word_pos hstop }
  refine ⟨_, trim_eq htake hloop, hcan, ?_⟩
  calc _ = signed (trimmed us x (msb n.chunks)) := hcan.val_eq
    _ = _ := signed_trimmed word_pos (by rw [← htake])
    _ = signed n.chunks := by rw [← htake]

end Jccl
