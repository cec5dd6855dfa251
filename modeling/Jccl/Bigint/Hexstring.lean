/-
# `Jccl.Bigint.Hexstring` — what `bigint_from_msb_first_hexstring` makes of a string

The digits of a string are words of four bits, so the integer it spells is
`signed` at width 4, least significant digit first, just as the integer of a
chunk array is `signed` at width 64.  Three steps lead from one to the other:

  * `hexLoop_ok`: the loop scatters the digits over the chunks so that both
    read the same without a sign;
  * `signExtend_eq`: what the code stores in the top chunk for a negative
    string.  It shifts the padding word by the number of digits in that chunk
    where their bits are four times as many, so it overwrites all but the
    lowest `r` bits of the `r` digits it keeps there;
  * `fromHexstring_faults`: a string of more chunks than an `int` can count
    never gets as far as a bigint.
-/
import Jccl.Bigint.Add

namespace Jccl

open Words

/-- The digit a character of the charset stands for. -/
def hexDigit (c : UInt8) : BitVec 4 := BitVec.ofNat 4 (bigintHexCharset.idxOf c)

/-- The digits of a string, least significant first. -/
def hexDigits (s : List UInt8) : List (BitVec 4) := (s.map hexDigit).reverse

@[simp] theorem hexDigits_length (s : List UInt8) : (hexDigits s).length = s.length := by
  simp [hexDigits]

theorem nibble_pos : 0 < 4 := by decide

theorem idxOf_charset_lt {c : UInt8} (h : c ∈ bigintHexCharset) :
    bigintHexCharset.idxOf c < 16 :=
  lt_of_lt_of_eq (List.idxOf_lt_length_iff.mpr h) (by decide)

theorem hexDigit_toNat {c : UInt8} (h : c ∈ bigintHexCharset) :
    (hexDigit c).toNat = bigintHexCharset.idxOf c := by
  have := idxOf_charset_lt h
  rw [hexDigit, BitVec.toNat_ofNat]
  omega

/-- A digit is stored where the chunk still has zeros. -/
theorem or_shiftLeft_nibble {chunk : ULong} {d r : Nat} (hr : r < 16) (hd : d < 16)
    (hchunk : chunk.toNat < 2 ^ (4 * r)) :
    (chunk ||| (BitVec.ofNat 64 d) <<< (4 * r)).toNat = chunk.toNat + d * 2 ^ (4 * r) := by
  have hpow : 2 ^ (4 * r) * 16 ≤ 2 ^ 64 := by
    have h16 : 2 ^ (4 * r) * 16 = 2 ^ (4 * r + 4) := by rw [pow_add]; norm_num
    rw [h16]
    exact Nat.pow_le_pow_right (by decide) (by omega)
  have hlt : d * 2 ^ (4 * r) < 2 ^ 64 := by nlinarith
  have hsmall : (BitVec.ofNat 64 d).toNat = d := by
    rw [BitVec.toNat_ofNat]; omega
  rw [BitVec.toNat_or, BitVec.toNat_shiftLeft, Nat.shiftLeft_eq, hsmall, Nat.mod_eq_of_lt hlt,
    Nat.or_comm, Nat.mul_comm d, ← Nat.two_pow_add_eq_or_of_lt hchunk, Nat.add_comm]

section Loop

variable {s : List UInt8} (rest : List UInt8) (hs : ∀ c ∈ s, c ∈ bigintHexCharset)
include hs

/-- The character read by iteration `i` is the `i`-th digit from the right. -/
theorem hexstring_getElem? {i : Nat} (hi : i < s.length) :
    ∃ c, (s ++ rest)[s.length - 1 - i]? = some c ∧ c ∈ bigintHexCharset ∧
      (hexDigits s)[i]? = some (hexDigit c) := by
  have hlt : s.length - 1 - i < s.length := by omega
  refine ⟨s[s.length - 1 - i], ?_, hs _ (List.getElem_mem hlt), ?_⟩
  · rw [List.getElem?_append_left hlt, List.getElem?_eq_getElem hlt]
  · rw [hexDigits, List.getElem?_reverse (by simpa using hi)]
    simp [hlt]

/-- An iteration that runs writes inside the array and keeps its size. -/
theorem hexstringStep_inv {i : Nat} (hi : i < s.length) {n : Bigint} {nibble : ULong}
    {st : Option (Bigint × ULong)}
    (h : hexstringStep (s ++ rest) s.length i (some (n, nibble)) = .ok st) :
    i / NNIBBLE_IN_LONG < n.chunks.length ∧
      ∃ n' nibble', st = some (n', nibble') ∧ n'.chunks.length = n.chunks.length := by
  obtain ⟨c, hread, hc, -⟩ := hexstring_getElem? rest hs hi
  simp only [hexstringStep, hread, strchr_of_mem hc] at h
  obtain ⟨chunk, hchunk, h⟩ := Outcome.bind_eq_ok.mp h
  obtain ⟨n', hset, h⟩ := Outcome.bind_eq_ok.mp h
  cases h
  refine ⟨?_, n', _, rfl, setChunk_length hset⟩
  unfold Bigint.chunk Bigint.nchunk at hchunk
  split at hchunk
  · omega
  · cases hchunk

/-- After `i` iterations the chunks read as the last `i` digits, and the
variable `nibble` holds the one that was stored last. -/
def HexInv (s : List UInt8) (m i : Nat) (st : Option (Bigint × ULong)) : Prop :=
  ∃ n nibble, st = some (n, nibble) ∧ n.chunks.length = m ∧
    unsigned n.chunks = unsigned ((hexDigits s).take i) ∧
    ∀ k, i = k + 1 → (hexDigits s)[k]?.map BitVec.toNat = some nibble.toNat

theorem hexstringStep_ok {m i : Nat} (hi : i < s.length) (hm : i / NNIBBLE_IN_LONG < m)
    {st : Option (Bigint × ULong)} (h : HexInv s m i st) :
    ∃ st', hexstringStep (s ++ rest) s.length i st = .ok st' ∧ HexInv s m (i + 1) st' := by
  obtain ⟨n, nibble, rfl, hlen, hval, -⟩ := h
  obtain ⟨c, hread, hc, hdigit⟩ := hexstring_getElem? rest hs hi
  have hj : i / NNIBBLE_IN_LONG < n.chunks.length := by omega
  have hd := idxOf_charset_lt hc
  have hr : i % 16 < 16 := Nat.mod_lt _ (by decide)
  have h16 : NNIBBLE_IN_LONG = 16 := rfl
  have hplace : 4 * i = 4 * (i % 16) + 64 * (i / 16) := by omega
  -- the chunk to be written holds only the digits that came before
  have hchunk : n.chunks[i / NNIBBLE_IN_LONG].toNat < 2 ^ (4 * (i % 16)) := by
    have hlt := unsigned_lt ((hexDigits s).take i)
    rw [List.length_take, hexDigits_length, Nat.min_eq_left hi.le, ← hval, hplace, pow_add] at hlt
    rw [toNat_getElem hj, h16]
    exact lt_of_le_of_lt (Nat.mod_le _ _) (Nat.div_lt_of_lt_mul (by rwa [Nat.mul_comm] at hlt))
  have hor := or_shiftLeft_nibble hr hd hchunk
  set v := n.chunks[i / NNIBBLE_IN_LONG]
    ||| BitVec.ofNat 64 (bigintHexCharset.idxOf c) <<< (4 * (i % 16)) with hv
  refine ⟨some ({ n with chunks := n.chunks.set (i / NNIBBLE_IN_LONG) v },
    BitVec.ofNat 64 (bigintHexCharset.idxOf c)), ?_, _, _, rfl, by simpa using hlen, ?_, ?_⟩
  · simp only [hexstringStep, hread, strchr_of_mem hc, chunk_ofNat hj, setChunk_ofNat hj,
      Outcome.ok_bind, Outcome.pure_eq]
    rfl
  · obtain ⟨hi', hget⟩ := List.getElem?_eq_some_iff.mp hdigit
    rw [unsigned_set hj hor, hval, List.take_succ_eq_append_getElem hi', hget, unsigned_append,
      unsigned_cons, unsigned_nil, hexDigit_toNat hc, List.length_take, hexDigits_length,
      Nat.min_eq_left hi.le, hplace, pow_add, h16]
    ring
  · intro k hk
    obtain rfl : k = i := by omega
    rw [hdigit, Option.map_some, hexDigit_toNat hc, BitVec.toNat_ofNat,
      Nat.mod_eq_of_lt (by omega)]

theorem hexLoop_ok {n : Bigint} {m : Nat} (hlen : n.chunks.length = m)
    (hzero : unsigned n.chunks = 0) (hm : s.length ≤ 16 * m) :
    ∃ st, forLoop (hexstringStep (s ++ rest) s.length) s.length (some (n, 0)) = .ok st ∧
      HexInv s m s.length st :=
  forLoop_ok ⟨n, 0, rfl, hlen, by simpa using hzero, fun k hk => by omega⟩
    (fun i _ hi hInv => hexstringStep_ok rest hs hi (by
      have : NNIBBLE_IN_LONG = 16 := rfl
      rw [this]; omega) hInv)

end Loop

/-! ## The sign of a partly filled top chunk -/

/-- The digits that the top chunk gets when it is not filled. -/
def topDigits (s : List UInt8) : List (BitVec 4) := hexDigits (s.take (s.length % 16))

theorem hexDigits_append (s t : List UInt8) :
    hexDigits (s ++ t) = hexDigits t ++ hexDigits s := by
  simp [hexDigits]

theorem hexDigits_eq_append_topDigits (s : List UInt8) :
    hexDigits s = hexDigits (s.drop (s.length % 16)) ++ topDigits s := by
  rw [topDigits, ← hexDigits_append, List.take_append_drop]

theorem topDigits_length (s : List UInt8) : (topDigits s).length = s.length % 16 := by
  have := Nat.mod_le s.length 16
  simp [topDigits, this]

/-- With the chunks reading as the digits, the top chunk reads as its own. -/
theorem toNat_top_eq {s : List UInt8} {init : List ULong} {top : ULong}
    (hlen : s.length = 16 * init.length + s.length % 16)
    (hval : unsigned (init ++ [top]) = unsigned (hexDigits s)) :
    top.toNat = unsigned (topDigits s) := by
  have hlow : (hexDigits (s.drop (s.length % 16))).length = 16 * init.length := by
    simp; omega
  have h1 := unsigned_lt init
  have h2 := unsigned_lt (hexDigits (s.drop (s.length % 16)))
  rw [hlow, show 4 * (16 * init.length) = 64 * init.length by ring] at h2
  rw [hexDigits_eq_append_topDigits s, unsigned_append, unsigned_append, hlow,
    show 4 * (16 * init.length) = 64 * init.length by ring, unsigned_cons, unsigned_nil,
    Nat.mul_zero, Nat.add_zero] at hval
  have hdiv := congrArg (· / 2 ^ (64 * init.length)) hval
  simpa [Nat.add_mul_div_left, Nat.div_eq_of_lt h1, Nat.div_eq_of_lt h2] using hdiv

/-- All bits from `2 ^ r` up to `2 ^ (4 * r)` are ones, said in two ways. -/
theorem mod_sub_eq_iff {x r : Nat} (hlt : x < 2 ^ (4 * r)) :
    ((x % 2 ^ r : Nat) : Int) - x - 2 ^ r = -2 ^ (4 * r) ↔ 2 ^ (4 * r) ≤ x + 2 ^ r := by
  have hsplit := Nat.div_add_mod x (2 ^ r)
  have hmod := Nat.mod_lt x (show 0 < 2 ^ r by positivity)
  have h4 : 2 ^ (4 * r) = 2 ^ r * 2 ^ (3 * r) := by
    rw [← pow_add]
    congr 1
    omega
  have hcast4 : ((2 ^ (4 * r) : Nat) : Int) = 2 ^ (4 * r) := by push_cast; rfl
  have hcast1 : ((2 ^ r : Nat) : Int) = 2 ^ r := by push_cast; rfl
  rw [← hcast4, ← hcast1]
  constructor
  · intro heq
    omega
  · intro hle
    -- the quotient is the largest one
    have hquot : 2 ^ (3 * r) ≤ x / 2 ^ r + 1 := by
      have hprod : 2 ^ r * 2 ^ (3 * r) < 2 ^ r * (x / 2 ^ r + 2) := by
        rw [Nat.mul_add]
        omega
      exact Nat.le_of_lt_succ (Nat.lt_of_mul_lt_mul_left hprod)
    have hdiv : x / 2 ^ r + 1 ≤ 2 ^ (3 * r) := Nat.div_lt_of_lt_mul (h4 ▸ hlt)
    have hones : 2 ^ r * (x / 2 ^ r + 1) = 2 ^ (4 * r) := by
      rw [h4, Nat.le_antisymm hdiv hquot]
    rw [Nat.mul_succ] at hones
    omega

/-- The sign-extended array reads as the digits exactly when their top part
was not below `-2 ^ r`. -/
theorem signExtend_iff {s : List UInt8} {init : List ULong} {top : ULong}
    (hr : s.length % 16 ≠ 0) (hlen : s.length = 16 * init.length + s.length % 16)
    (hval : unsigned (init ++ [top]) = unsigned (hexDigits s))
    (hneg : msb (hexDigits s) = true) :
    signed (init ++ [top ||| BitVec.allOnes 64 <<< (s.length % 16)]) = signed (hexDigits s) ↔
      -2 ^ (s.length % 16) ≤ signed (topDigits s) := by
  have htop := toNat_top_eq hlen hval
  have hne : topDigits s ≠ [] := List.ne_nil_of_length_pos (by rw [topDigits_length]; omega)
  have hmsb : msb (topDigits s) = true := by
    rw [hexDigits_eq_append_topDigits s, msb_append hne] at hneg
    exact hneg
  have hlt := unsigned_lt (topDigits s)
  rw [topDigits_length] at hlt
  rw [signed_append_or_allOnes init top (by omega : s.length % 16 < 64), hval]
  generalize hR : s.length % 16 = r at *
  have hpow : (2 : Int) ^ (4 * s.length) = 2 ^ (4 * r) * 2 ^ (64 * init.length) := by
    rw [hlen, ← pow_add]
    congr 1
    omega
  rw [signed, signed, hneg, hmsb, topDigits_length, hR, hexDigits_length, if_pos rfl, if_pos rfl,
    hpow, ← htop]
  rw [← htop] at hlt
  have hbits := mod_sub_eq_iff hlt
  constructor
  · intro h
    have hz : ((top.toNat % 2 ^ r : Nat) : Int) - top.toNat - 2 ^ r = -2 ^ (4 * r) := by
      have hq : (2 : Int) ^ (64 * init.length) ≠ 0 := by positivity
      apply mul_right_cancel₀ hq
      linarith
    have hle := hbits.mp hz
    zify at hle
    linarith
  · intro h
    have hle : 2 ^ (4 * r) ≤ top.toNat + 2 ^ r := by zify; linarith
    rw [hbits.mpr hle]
    ring

/-! ## The whole function -/

/-- The integer a string spells. -/
def hexValue (s : List UInt8) : Int := signed (hexDigits s)

/-- The strings the function reads as they are spelled: their chunks can be
counted by an `int`, and what they put into a top chunk that they do not fill
is not negative beyond as many bits as it has digits. -/
def HexReadable (s : List UInt8) : Prop :=
  (((s.length + 15) / 16 : Nat) : Int) ≤ INT_MAX ∧
    (s.length % 16 = 0 ∨ -2 ^ (s.length % 16) ≤ signed (topDigits s))

instance (s : List UInt8) : Decidable (HexReadable s) := by unfold HexReadable; infer_instance

theorem hexstringNchunk_ok {ns : Nat} (h : (((ns + 15) / 16 : Nat) : Int) ≤ INT_MAX) :
    hexstringNchunk ns = .ok (((ns + 15) / 16 : Nat) : Int) := by
  have h16 : NNIBBLE_IN_LONG = 16 := rfl
  have hn : narrow (ns / 16) = (ns / 16 : Nat) := narrow_of_le (by omega)
  have hmin : INT_MIN ≤ 0 := by decide
  simp only [hexstringNchunk, h16, hn]
  split
  · rw [checkInt_of ⟨by omega, by omega⟩]
    exact congrArg Except.ok (by omega)
  · exact congrArg Except.ok (by omega)

/-- The nibble stored last is the sign of the string. -/
theorem nibble_msb {s : List UInt8} (hne : s ≠ []) {nibble : ULong}
    (h : ∀ k, s.length = k + 1 → (hexDigits s)[k]?.map BitVec.toNat = some nibble.toNat) :
    nibble >>> NIBBLE_MSB = 1 ↔ msb (hexDigits s) = true := by
  have hpos := List.length_pos_iff.mpr hne
  obtain ⟨init, top, hsnoc⟩ := (hexDigits s).eq_nil_or_concat'.resolve_left
    (List.ne_nil_of_length_pos (by simpa using hpos))
  have hlen : s.length = init.length + 1 := by rw [← hexDigits_length s, hsnoc]; simp
  have htop : nibble.toNat = top.toNat := by
    have := h _ hlen
    rw [hsnoc, List.getElem?_append_right le_rfl] at this
    simpa using this.symm
  have hlt := top.isLt
  rw [hsnoc, msb_append_singleton, BitVec.msb_eq_decide, decide_eq_true_eq, BitVec.toNat_eq,
    BitVec.toNat_ushiftRight, Nat.shiftRight_eq_div_pow, htop]
  have h3 : NIBBLE_MSB = 3 := rfl
  rw [h3]
  simp only [BitVec.toNat_ofNat, BitVec.ofNat_eq_ofNat]
  omega

/-- Unless a negative string leaves room in the top chunk, the chunks read as
the digits do. -/
theorem signed_chunks_eq {s : List UInt8} {ws : List ULong} (hlen : ws.length = (s.length + 15) / 16)
    (hval : unsigned ws = unsigned (hexDigits s))
    (h : ¬ (s.length % 16 ≠ 0 ∧ msb (hexDigits s) = true)) : signed ws = hexValue s := by
  by_cases hr : s.length % 16 = 0
  · have hbits : 64 * ws.length = 4 * (hexDigits s).length := by rw [hexDigits_length]; omega
    rw [hexValue, signed_eq_bmod word_pos, signed_eq_bmod nibble_pos, hval, hbits]
  · have hmsb : ¬ msb (hexDigits s) = true := fun hm => h ⟨hr, hm⟩
    have hlt := unsigned_lt (hexDigits s)
    have hpow : 2 * 2 ^ (4 * (hexDigits s).length) ≤ 2 ^ (64 * ws.length) := by
      rw [← pow_succ', hexDigits_length]
      exact Nat.pow_le_pow_right (by decide) (by omega)
    have hcast : ((2 ^ (64 * ws.length) : Nat) : Int) = 2 ^ (64 * ws.length) := by push_cast; rfl
    rw [hexValue, signed_eq_bmod word_pos, signed, if_neg hmsb, hval,
      Int.bmod_eq_of_le_mul_two (by omega) (by omega), Int.sub_zero]

/-- The array that is trimmed: what it reads as when the loop is done. -/
theorem hexstringExtend_ok {s : List UInt8} (hne : s ≠ []) {n : Bigint} {nibble : ULong}
    (hlen : n.chunks.length = (s.length + 15) / 16)
    (hval : unsigned n.chunks = unsigned (hexDigits s))
    (hnib : nibble >>> NIBBLE_MSB = 1 ↔ msb (hexDigits s) = true) :
    ∃ n', hexstringExtend s.length n nibble = .ok n' ∧ n'.chunks ≠ [] ∧
      (signed n'.chunks = hexValue s ↔
        (s.length % 16 = 0 ∨ -2 ^ (s.length % 16) ≤ signed (topDigits s))) := by
  have hpos := List.length_pos_iff.mpr hne
  have h16 : NNIBBLE_IN_LONG = 16 := rfl
  obtain ⟨init, top, hsnoc⟩ := n.chunks.eq_nil_or_concat'.resolve_left
    (List.ne_nil_of_length_pos (by omega))
  by_cases h : s.length % 16 ≠ 0 ∧ msb (hexDigits s) = true
  · have hinit : init.length + 1 = (s.length + 15) / 16 := by rw [← hlen, hsnoc]; simp
    have hidx : n.nchunk - 1 = (init.length : Int) := by simp [Bigint.nchunk, hsnoc]
    have hin : init.length < n.chunks.length := by simp [hsnoc]
    refine ⟨{ n with chunks := init ++ [top ||| BitVec.allOnes 64 <<< (s.length % 16)] }, ?_,
      by simp, ?_⟩
    · rw [hexstringExtend, if_pos ⟨h.1, hnib.mpr h.2⟩, hidx, chunk_ofNat hin, Outcome.ok_bind,
        setChunk_ofNat hin]
      simp [hsnoc, h16, padChunks, PAD_CHUNK_NEGATIVE]
    · rw [hexValue, signExtend_iff h.1 (by omega) (hsnoc ▸ hval) h.2]
      exact ⟨.inr, fun h' => h'.resolve_left h.1⟩
  · refine ⟨n, ?_, by simp [hsnoc], ?_⟩
    · rw [hexstringExtend, if_neg (by rw [hnib]; exact h)]
    · refine ⟨fun _ => ?_, fun _ => signed_chunks_eq hlen hval h⟩
      by_cases hr : s.length % 16 = 0
      · exact .inl hr
      · -- the top digits are not negative then
        have hmsb : ¬ msb (hexDigits s) = true := fun hm => h ⟨hr, hm⟩
        rw [hexDigits_eq_append_topDigits s,
          msb_append (List.ne_nil_of_length_pos (by rw [topDigits_length]; omega))] at hmsb
        have hpow : (0 : Int) ≤ 2 ^ (s.length % 16) := by positivity
        rw [signed, if_neg hmsb]
        exact .inr (by omega)

/-- With room for the chunk count in an `int`, the function returns a bigint. -/
theorem fromHexstring_run {s : List UInt8} (rest : List UInt8) (hne : s ≠ [])
    (hs : ∀ c ∈ s, c ∈ bigintHexCharset)
    (hcount : (((s.length + 15) / 16 : Nat) : Int) ≤ INT_MAX)
    {answers : List Bool} (hg : granted answers = true) :
    ∃ n, (bigintFromMsbFirstHexstring (some (s ++ rest)) s.length).run answers
        = .ok (some n, answers.tail) ∧ n.Canonical ∧
      (n.val = hexValue s ↔
        (s.length % 16 = 0 ∨ -2 ^ (s.length % 16) ≤ signed (topDigits s))) := by
  have hpos := List.length_pos_iff.mpr hne
  obtain ⟨m, hm⟩ : ∃ m, m = (s.length + 15) / 16 := ⟨_, rfl⟩
  obtain ⟨st, hloop, n, nibble, rfl, hlen, hval, hnib⟩ := hexLoop_ok rest hs (m := m)
    (n := { padChunk := 0, chunks := List.replicate m 0 }) (by simp)
    (unsigned_replicate_zero m) (by omega)
  rw [List.take_of_length_le (by simp)] at hval
  obtain ⟨n', hextend, hne', hiff⟩ := hexstringExtend_ok hne (by omega) hval (nibble_msb hne hnib)
  obtain ⟨r, htrim, hcan, hr⟩ := trim_ok hne'
  refine ⟨r, ?_, hcan, by rw [hr, hiff]⟩
  simp only [bigintFromMsbFirstHexstring, StateT.run_bind, if_neg hpos.ne',
    hexstringNchunk_ok hcount, ← hm, bigintInit_run (by omega : (0 : Int) < m), hg, if_true,
    Outcome.ok_bind, AllocM.run_lift, AllocM.run_pure, Int.toNat_natCast, hloop, hextend, htrim]

theorem hexstringNchunk_le {ns : Nat} {k : Int} (h : hexstringNchunk ns = .ok k) :
    k ≤ INT_MAX := by
  simp only [hexstringNchunk] at h
  split at h
  · obtain ⟨rfl, -, hle⟩ := checkInt_eq_ok.mp h
    exact hle
  · exact Except.ok.inj h ▸ narrow_le_max _

/-- The chunk count of a string that is too long is at most `INT_MAX`, and the
loop comes to a digit that belongs into a chunk after those. -/
theorem fromHexstring_faults {s : List UInt8} (rest : List UInt8) (hs : ∀ c ∈ s, c ∈ bigintHexCharset)
    (hcount : INT_MAX < (((s.length + 15) / 16 : Nat) : Int)) (n : Bigint)
    (answers answers' : List Bool) :
    (bigintFromMsbFirstHexstring (some (s ++ rest)) s.length).run answers
      ≠ .ok (some n, answers') := by
  intro h
  have hmax : (0 : Int) ≤ INT_MAX := by decide
  have hpos : s.length ≠ 0 := by omega
  simp only [bigintFromMsbFirstHexstring, if_neg hpos, pure_bind] at h
  obtain ⟨k, hk, h⟩ := AllocM.lift_bind_eq_ok.mp h
  obtain ⟨o, _, hinit, h⟩ := AllocM.bind_eq_ok.mp h
  cases o with
  | none => cases h
  | some n₀ =>
      obtain ⟨hkpos, rfl⟩ := bigintInit_inv hinit
      have hkle := hexstringNchunk_le hk
      obtain ⟨st, hloop, -⟩ := AllocM.lift_bind_eq_ok.mp h
      -- the iteration that would write behind the last chunk
      have hi : 16 * k.toNat < s.length := by omega
      obtain ⟨t, t', ht, hstep⟩ := forLoop_step hloop hi
      obtain ⟨m, nibble, rfl, hlen⟩ := forLoop_inv
        (I := fun _ st => ∃ m nibble, st = some (m, nibble) ∧ m.chunks.length = k.toNat)
        ht ⟨_, _, rfl, by simp⟩ (by
          rintro i _ s' hi' ⟨m, nibble, rfl, hlen⟩ hs'
          obtain ⟨-, m', nibble', rfl, hlen'⟩ := hexstringStep_inv rest hs (by omega) hs'
          exact ⟨m', nibble', rfl, hlen'.trans hlen⟩)
      obtain ⟨hbound, -⟩ := hexstringStep_inv rest hs hi hstep
      have h16 : NNIBBLE_IN_LONG = 16 := rfl
      rw [h16, hlen] at hbound
      omega

/-- A string is read as the integer it spells exactly when it is readable. -/
theorem fromHexstring_val_iff (s rest : List UInt8) (hne : s ≠ [])
    (hs : ∀ c ∈ s, c ∈ bigintHexCharset) :
    (∃ n, (bigintFromMsbFirstHexstring (some (s ++ rest)) s.length).run [] = .ok (some n, []) ∧
      n.Canonical ∧ n.val = hexValue s) ↔ HexReadable s := by
  by_cases hcount : (((s.length + 15) / 16 : Nat) : Int) ≤ INT_MAX
  · obtain ⟨r, hrun, hcan, hval⟩ := fromHexstring_run rest hne hs hcount granted_nil
    rw [HexReadable, and_iff_right hcount, ← hval]
    exact returns_iff hrun hcan
  · refine ⟨fun ⟨n, hrun, _⟩ => ?_, fun h => absurd h.1 hcount⟩
    exact absurd hrun (fromHexstring_faults rest hs (not_le.mp hcount) n _ _)

theorem fromHexstring_val_iff_7f :
    ∃ n, (bigintFromMsbFirstHexstring (some (['7', 'f'].map Char.toUInt8 ++ [0])) 2).run []
      = .ok (some n, []) ∧ n.Canonical ∧ n.val = 127 := by
  have hval : hexValue (['7', 'f'].map Char.toUInt8) = 127 := by decide
  rw [← hval]
  exact (fromHexstring_val_iff (['7', 'f'].map Char.toUInt8) [0] (by decide)
    (by decide +kernel)).mpr ⟨by decide, .inr (by decide)⟩

/-- The one digit `8` spells -8 and is read as -2. -/
theorem fromHexstring_8 :
    hexValue (['8'].map Char.toUInt8) = -8 ∧
    ∃ n, (bigintFromMsbFirstHexstring (some (['8'].map Char.toUInt8 ++ [0])) 1).run []
      = .ok (some n, []) ∧ n.val = -2 :=
  ⟨by decide, { padChunk := BitVec.allOnes 64, chunks := [0xfffffffffffffffe] },
    by decide, by decide⟩

end Jccl
