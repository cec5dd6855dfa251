/-
# `Jccl.Bigint.Writer` — `bigint_to_msb_first_hexstring`, and reading back what it wrote

The writer goes through the chunks from the top and through the digits of each
from the bottom, so it fills the buffer from the left in pieces that it fills
from the right.  What is in the buffer then is `hexString`, whose digits are
those of the chunks one after the other: the string spells, at four bits a
digit, what the chunks spell at sixty-four.  With sixteen digits to a chunk
the reader never has to extend a sign, and returns the bigint that was written.

The lengths on the way are of type `int`.  The number of digits of a bigint of
`2 ^ 27` chunks is no longer one, while the reader, which is given the length
as a `size_t`, builds such a bigint.
-/
import Jccl.Bigint.Canonical

namespace Jccl

open Words

/-! ## The string -/

/-- The character for a digit. -/
def hexChar (d : BitVec 4) : UInt8 := bigintHexCharset.getD d.toNat 0

/-- The digits of a chunk, least significant first. -/
def nibbles (x : ULong) : List (BitVec 4) := spell 4 16 x.toNat

/-- The characters of digits that are given least significant first. -/
def hexChars (ds : List (BitVec 4)) : List UInt8 := (ds.map hexChar).reverse

/-- The string of a chunk array. -/
def chunksString (ws : List ULong) : List UInt8 := hexChars (ws.flatMap nibbles)

/-- The string that the writer makes of a bigint. -/
def hexString (n : Bigint) : List UInt8 := chunksString n.chunks

theorem hexChar_mem (d : BitVec 4) : hexChar d ∈ bigintHexCharset ∧ hexDigit (hexChar d) = d := by
  revert d
  decide

theorem hexChars_mem {ds : List (BitVec 4)} {c : UInt8} (h : c ∈ hexChars ds) :
    c ∈ bigintHexCharset := by
  rw [hexChars, List.mem_reverse, List.mem_map] at h
  obtain ⟨d, -, rfl⟩ := h
  exact (hexChar_mem d).1

theorem hexDigits_hexChars (ds : List (BitVec 4)) : hexDigits (hexChars ds) = ds := by
  have hid : hexDigit ∘ hexChar = id := funext fun d => (hexChar_mem d).2
  rw [hexDigits, hexChars, List.map_reverse, List.reverse_reverse, List.map_map, hid, List.map_id]

@[simp] theorem hexChars_length (ds : List (BitVec 4)) : (hexChars ds).length = ds.length := by
  simp [hexChars]

theorem hexChars_append (ds es : List (BitVec 4)) :
    hexChars (ds ++ es) = hexChars es ++ hexChars ds := by
  simp [hexChars]

@[simp] theorem nibbles_length (x : ULong) : (nibbles x).length = 16 := spell_length _ _ _

theorem flatMap_nibbles_length (ws : List ULong) :
    (ws.flatMap nibbles).length = 16 * ws.length := by
  induction ws with
  | nil => rfl
  | cons x ws ih =>
      rw [List.flatMap_cons, List.length_append, nibbles_length, ih, List.length_cons]
      omega

@[simp] theorem chunksString_length (ws : List ULong) :
    (chunksString ws).length = 16 * ws.length := by
  rw [chunksString, hexChars_length, flatMap_nibbles_length]

theorem chunksString_cons (x : ULong) (ws : List ULong) :
    chunksString (x :: ws) = chunksString ws ++ hexChars (nibbles x) := by
  rw [chunksString, List.flatMap_cons, hexChars_append, chunksString]

theorem unsigned_flatMap_nibbles (ws : List ULong) :
    unsigned (ws.flatMap nibbles) = unsigned ws := by
  induction ws with
  | nil => rfl
  | cons x ws ih =>
      rw [List.flatMap_cons, unsigned_append, ih, nibbles_length, nibbles, unsigned_spell,
        unsigned_cons, Nat.mod_eq_of_lt x.isLt]

/-- The string spells the integer. -/
theorem hexValue_hexString {n : Bigint} (h : n.Canonical) : hexValue (hexString n) = n.val := by
  have hbits : 4 * (16 * n.chunks.length) = 64 * n.chunks.length := by ring
  rw [hexValue, hexString, chunksString, hexDigits_hexChars, signed_eq_bmod nibble_pos,
    unsigned_flatMap_nibbles, flatMap_nibbles_length, hbits, h.val_eq, signed_eq_bmod word_pos]

theorem hexString_injective {m n : Bigint} (hm : m.Canonical) (hn : n.Canonical)
    (h : hexString m = hexString n) : m = n :=
  hm.ext hn (by rw [← hexValue_hexString hm, ← hexValue_hexString hn, h])

/-! ## The loops -/

/-- After `k` iterations the last `k` characters of the chunk's piece are there,
and the chunk is left with the digits that are not. -/
def NibbleInv (l mid r : List UInt8) (x : ULong) (k : Nat) (st : List UInt8 × ULong) : Prop :=
  st.1 = l ++ mid.take (16 - k) ++ hexChars (spell 4 k x.toNat) ++ r ∧
    st.2.toNat = x.toNat / 2 ^ (4 * k)

theorem readCharset_ok {x chunk : ULong} {k : Nat} (h : chunk.toNat = x.toNat / 2 ^ (4 * k)) :
    readAt bigintHexCharset (chunk &&& NIBBLE_MASK).toNat
      = .ok (hexChar (BitVec.ofNat 4 (x.toNat / 2 ^ (4 * k)))) := by
  have hmask : NIBBLE_MASK.toNat = 2 ^ 4 - 1 := by decide
  have hlen : bigintHexCharset.length = 2 ^ 4 := by decide
  have hlt : chunk.toNat % 2 ^ 4 < bigintHexCharset.length := by rw [hlen]; omega
  rw [BitVec.toNat_and, hmask, Nat.and_two_pow_sub_one_eq_mod, readAt_of_lt hlt, hexChar,
    BitVec.toNat_ofNat, ← h, List.getD_eq_getElem _ _ hlt]

theorem nibbleStep_ok {l mid r : List UInt8} (hmid : mid.length = 16) {x : ULong} {k : Nat}
    (hk : k < 16) {st : List UInt8 × ULong} (h : NibbleInv l mid r x k st) :
    ∃ st', nibbleStep l.length k st = .ok st' ∧ NibbleInv l mid r x (k + 1) st' := by
  obtain ⟨s, chunk⟩ := st
  obtain ⟨hs, hchunk⟩ := h
  simp only at hs hchunk
  obtain ⟨d, hd⟩ : ∃ d, 16 - k = d + 1 := ⟨15 - k, by omega⟩
  have hd' : 16 - (k + 1) = d := by omega
  have hlt : d < mid.length := by omega
  rw [hd, List.take_succ_eq_append_getElem hlt] at hs
  have hsplit : s = (l ++ mid.take d) ++ mid[d] :: (hexChars (spell 4 k x.toNat) ++ r) := by
    rw [hs]
    simp only [List.append_assoc, List.cons_append, List.nil_append]
  have hpos : l.length + NNIBBLE_IN_LONG - 1 - k = (l ++ mid.take d).length := by
    have h16 : NNIBBLE_IN_LONG = 16 := rfl
    rw [List.length_append, List.length_take_of_le hlt.le, h16]
    omega
  refine ⟨(l ++ mid.take d ++ hexChar (BitVec.ofNat 4 (x.toNat / 2 ^ (4 * k)))
    :: (hexChars (spell 4 k x.toNat) ++ r), chunk >>> NIBBLE_BIT), ?_, ?_, ?_⟩
  · simp only [nibbleStep, readCharset_ok hchunk, Outcome.ok_bind, hsplit, writeAt_append hpos,
      Outcome.pure_eq]
  · rw [hd', spell_succ, hexChars_append]
    simp [hexChars]
  · have hbit : NIBBLE_BIT = 4 := rfl
    rw [BitVec.toNat_ushiftRight, hchunk, Nat.shiftRight_eq_div_pow, Nat.div_div_eq_div_mul,
      ← pow_add, hbit, Nat.mul_succ]

/-- A chunk's piece of the buffer is overwritten, whatever was in it. -/
theorem nibbleLoop_ok {l mid r : List UInt8} (hmid : mid.length = 16) (x : ULong) :
    ∃ chunk, forLoop (nibbleStep l.length) NNIBBLE_IN_LONG (l ++ mid ++ r, x)
      = .ok (l ++ hexChars (nibbles x) ++ r, chunk) := by
  obtain ⟨⟨s, chunk⟩, hloop, hs, -⟩ := forLoop_ok (f := nibbleStep l.length) (n := 16)
    (s := (l ++ mid ++ r, x)) (I := NibbleInv l mid r x)
    ⟨by simp [hexChars, spell, hmid], by simp⟩
    (fun _ _ hk hInv => nibbleStep_ok hmid hk hInv)
  refine ⟨chunk, hloop.trans ?_⟩
  simp only at hs
  rw [hs, Nat.sub_self, List.take_zero, List.append_nil]
  rfl

/-- After `j` iterations the string of the upper `j` chunks is in the buffer, and
behind it what was there. -/
def WriterInv (n : Bigint) (room : List UInt8) (j : Nat) (st : List UInt8 × Nat) : Prop :=
  st.1 = chunksString (n.chunks.drop (n.chunks.length - j)) ++ room.drop (16 * j) ∧ st.2 = 16 * j

theorem toHexstringStep_ok {n : Bigint} {room : List UInt8} {j : Nat} (hj : j < n.chunks.length)
    (hroom : 16 * n.chunks.length < room.length) {st : List UInt8 × Nat}
    (h : WriterInv n room j st) :
    ∃ st', toHexstringStep n j st = .ok st' ∧ WriterInv n room (j + 1) st' := by
  obtain ⟨s, start⟩ := st
  obtain ⟨hs, hstart⟩ := h
  simp only at hs hstart
  obtain ⟨i, hi⟩ : ∃ i, n.chunks.length = i + j + 1 := ⟨n.chunks.length - j - 1, by omega⟩
  have hlt : i < n.chunks.length := by omega
  have hidx : n.nchunk - 1 - j = (i : Nat) := by rw [Bigint.nchunk]; omega
  have hplace : n.chunks.length - j = i + 1 := by omega
  have hplace' : n.chunks.length - (j + 1) = i := by omega
  rw [hplace] at hs
  obtain ⟨l, hl⟩ : ∃ l, l = chunksString (n.chunks.drop (i + 1)) := ⟨_, rfl⟩
  have hlen : l.length = start := by
    rw [hl, chunksString_length, List.length_drop, hstart]
    omega
  have hsplit : s = l ++ (room.drop (16 * j)).take 16 ++ room.drop (16 * (j + 1)) := by
    have hdrop : room.drop (16 * (j + 1)) = (room.drop (16 * j)).drop 16 := by
      rw [List.drop_drop, Nat.mul_succ]
    rw [hs, hl, hdrop, List.append_assoc, List.take_append_drop]
  have hmid : ((room.drop (16 * j)).take 16).length = 16 := by
    rw [List.length_take, List.length_drop]
    omega
  obtain ⟨chunk, hloop⟩ := nibbleLoop_ok (l := l) (r := room.drop (16 * (j + 1))) hmid n.chunks[i]
  rw [hlen, ← hsplit] at hloop
  refine ⟨(l ++ hexChars (nibbles n.chunks[i]) ++ room.drop (16 * (j + 1)),
    start + NNIBBLE_IN_LONG), ?_, ?_, ?_⟩
  · simp only [toHexstringStep, hidx, chunk_ofNat hlt, Outcome.ok_bind, hloop, Outcome.pure_eq]
  · rw [hplace', List.drop_eq_getElem_cons hlt, chunksString_cons, ← hl]
  · have h16 : NNIBBLE_IN_LONG = 16 := rfl
    rw [hstart, h16, Nat.mul_succ]

/-- With room for the string and its terminator the writer returns the length,
as far as it is an `int`, and leaves what is behind as it was. -/
theorem toHexstring_ok (n : Bigint) {room : List UInt8}
    (hroom : 16 * n.chunks.length < room.length) :
    bigintToMsbFirstHexstring (some n) (some room) = .ok
      (narrow (16 * n.chunks.length),
        some (hexString n ++ 0 :: room.drop (16 * n.chunks.length + 1))) := by
  obtain ⟨⟨s, start⟩, hloop, hs, hstart⟩ := forLoop_ok (f := toHexstringStep n)
    (n := n.chunks.length) (s := (room, 0)) (I := WriterInv n room)
    ⟨by simp [chunksString, hexChars], by simp⟩
    (fun _ _ hj hInv => toHexstringStep_ok hj hroom hInv)
  simp only [Nat.sub_self, List.drop_zero] at hs hstart
  rw [List.drop_eq_getElem_cons hroom] at hs
  have hwrite := writeAt_append (l := chunksString n.chunks) (x := room[16 * n.chunks.length])
    (r := room.drop (16 * n.chunks.length + 1)) (chunksString_length n.chunks).symm 0
  rw [← hs] at hwrite
  subst hstart
  simp only [bigintToMsbFirstHexstring, hloop, Outcome.ok_bind, hwrite, Outcome.pure_eq, hexString]

/-! ## Reading back -/

theorem nul_not_mem_hexString (n : Bigint) : 0 ∉ hexString n := by
  intro h
  exact absurd (hexChars_mem h) (by decide)

/-- A length of 0 is taken from the terminator. -/
theorem fromHexstring_zero {s : List UInt8} (h : 0 ∉ s) (hne : s.length ≠ 0) (rest : List UInt8) :
    bigintFromMsbFirstHexstring (some (s ++ 0 :: rest)) 0
      = bigintFromMsbFirstHexstring (some (s ++ 0 :: rest)) s.length := by
  unfold bigintFromMsbFirstHexstring
  simp only [strlen_append h, if_true, if_neg hne]
  rfl

theorem fromHexstring_hexString {n : Bigint} (h : n.Canonical) (hmax : n.nchunk ≤ INT_MAX)
    (rest : List UInt8) {answers : List Bool} (hg : granted answers = true) :
    (bigintFromMsbFirstHexstring (some (hexString n ++ rest)) (16 * n.chunks.length)).run answers
      = .ok (some n, answers.tail) := by
  have hpos := List.length_pos_iff.mpr h.ne_nil
  have hlen : (hexString n).length = 16 * n.chunks.length := chunksString_length n.chunks
  have hcount : ((((hexString n).length + 15) / 16 : Nat) : Int) ≤ INT_MAX := by
    unfold Bigint.nchunk at hmax
    rw [hlen]
    omega
  obtain ⟨r, hrun, hcan, hval⟩ := fromHexstring_run (s := hexString n) rest
    (List.ne_nil_of_length_pos (by omega)) (fun c hc => hexChars_mem hc) hcount hg
  have hexact : r.val = n.val := by
    rw [← hexValue_hexString h]
    exact hval.mpr (.inl (by omega))
  rw [← hlen, hrun, hcan.ext h hexact]

/-- The reader is given the length, or takes it from the terminator. -/
theorem fromHexstring_written {n : Bigint} (h : n.Canonical) (hmax : n.nchunk ≤ INT_MAX) {ns : Nat}
    (hns : ns = 0 ∨ ns = 16 * n.chunks.length) (rest : List UInt8) {answers : List Bool}
    (hg : granted answers = true) :
    (bigintFromMsbFirstHexstring (some (hexString n ++ 0 :: rest)) ns).run answers
      = .ok (some n, answers.tail) := by
  have hread := fromHexstring_hexString h hmax (0 :: rest) hg
  rcases hns with rfl | rfl
  · have hlen : (hexString n).length = 16 * n.chunks.length := chunksString_length n.chunks
    have hpos := List.length_pos_iff.mpr h.ne_nil
    rw [fromHexstring_zero (nul_not_mem_hexString n) (by omega), hlen]
    exact hread
  · exact hread

/-- A buffer with the string of a bigint was written from that one. -/
theorem toHexstring_unique {m n : Bigint} (hm : m.Canonical) (hn : n.Canonical)
    {room rest : List UInt8} (hroom : 16 * m.chunks.length < room.length) {len : Int}
    (hwrite : bigintToMsbFirstHexstring (some m) (some room)
      = .ok (len, some (hexString n ++ 0 :: rest))) : m = n := by
  rw [toHexstring_ok m hroom] at hwrite
  have hbuffer := Option.some.inj (Prod.mk.inj (Except.ok.inj hwrite)).2
  -- the terminator is at one place
  have hstrlen := strlen_append (nul_not_mem_hexString m) (room.drop (16 * m.chunks.length + 1))
  rw [hbuffer, strlen_append (nul_not_mem_hexString n)] at hstrlen
  exact hexString_injective hm hn (List.append_inj hbuffer (Except.ok.inj hstrlen).symm).1

/-- Writing a bigint and reading it back: the writer fills the buffer with as
many digits as `bigint_nnibble` says, and a terminator, and returns their
number; the reader makes the same bigint of them, whether it is given the
length or not; and no other canonical bigint is written like that. -/
def HexRoundTrips (n : Bigint) : Prop :=
  ∃ len : Nat, bigintNnibble (some n) = .ok len ∧
    ∀ room : List UInt8, len < room.length →
      ∃ s, s.length = len ∧ (∀ c ∈ s, c ∈ bigintHexCharset) ∧
        bigintToMsbFirstHexstring (some n) (some room)
          = .ok (len, some (s ++ 0 :: room.drop (len + 1))) ∧
        (∀ ns answers, ns = 0 ∨ ns = len → granted answers = true →
          (bigintFromMsbFirstHexstring (some (s ++ 0 :: room.drop (len + 1))) ns).run answers
            = .ok (some n, answers.tail)) ∧
        ∀ (m : Bigint) room' len' rest', m.Canonical → 16 * m.chunks.length < room'.length →
          bigintToMsbFirstHexstring (some m) (some room') = .ok (len', some (s ++ 0 :: rest')) →
          m = n

/-- It all holds of exactly the bigints whose number of digits is an `int`. -/
theorem hexRoundTrips_iff {n : Bigint} (h : n.Canonical) :
    HexRoundTrips n ↔ 16 * n.nchunk ≤ INT_MAX := by
  have h16 : (NNIBBLE_IN_LONG : Int) = 16 := rfl
  constructor
  · rintro ⟨len, hlen, -⟩
    obtain ⟨-, -, hmax⟩ := checkInt_eq_ok.mp hlen
    rw [h16] at hmax
    omega
  · intro hmax
    have hmin : INT_MIN ≤ 0 := by decide
    have hnchunk : n.nchunk = n.chunks.length := rfl
    have hnarrow : narrow (16 * n.chunks.length) = (16 * n.chunks.length : Nat) :=
      narrow_of_le (by omega)
    refine ⟨16 * n.chunks.length, ?_, fun room hroom => ⟨hexString n, chunksString_length n.chunks,
      fun c hc => hexChars_mem hc, ?_, ?_, ?_⟩⟩
    · rw [bigintNnibble, h16, checkInt_of ⟨by omega, by omega⟩, hnchunk]
      exact congrArg Except.ok (by omega)
    · rw [toHexstring_ok n hroom, hnarrow]
    · intro ns answers hns hg
      exact fromHexstring_written h (by omega) hns _ hg
    · intro m room' len' rest' hm hroom' hwrite
      exact toHexstring_unique hm h hroom' hwrite

theorem hexRoundTrips_iff_one : HexRoundTrips bigintOne :=
  (hexRoundTrips_iff (by decide : bigintOne.Canonical)).mpr (by decide)

/-- `2 ^ (64 * (2 ^ 27 - 1))`, of `2 ^ 27` chunks. -/
def bigintHuge : Bigint := { padChunk := 0, chunks := List.replicate (2 ^ 27 - 1) 0 ++ [1] }

theorem bigintHuge_length : bigintHuge.chunks.length = 2 ^ 27 := by
  rw [bigintHuge, List.length_append, List.length_replicate, List.length_singleton]
  norm_num

/-- Its digits are more than an `int` counts: their number overflows, and the
writer returns a negative length. -/
theorem bigintNnibble_huge :
    bigintHuge.Canonical ∧ bigintNnibble (some bigintHuge) = .error .overflow ∧
    ∀ room : List UInt8, 2 ^ 31 < room.length →
      ∃ s, bigintToMsbFirstHexstring (some bigintHuge) (some room) = .ok (-2 ^ 31, some s) := by
  have hlen := bigintHuge_length
  refine ⟨⟨?_, ?_, ?_⟩, ?_, fun room hroom => ?_⟩
  · rw [Bigint.nchunk, hlen]
    decide
  · rw [bigintHuge, msb_append_singleton]
    decide
  · refine (minimal_append_singleton word_pos _ _).mpr (.inr ?_)
    cases msb (List.replicate (2 ^ 27 - 1) (0 : ULong)) <;> decide
  · rw [bigintNnibble, Bigint.nchunk, hlen]
    decide
  · have hwrite := toHexstring_ok bigintHuge (by rw [hlen]; omega : _ < room.length)
    have hnarrow : narrow (16 * 2 ^ 27) = -2 ^ 31 := by decide
    rw [hlen, hnarrow] at hwrite
    exact ⟨_, hwrite⟩

end Jccl
