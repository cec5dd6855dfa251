/-
# `Jccl.Bigint.Grammar` — which strings the hexadecimal reader accepts

The reader should accept the non-empty strings over its charset, refuse all
others, and always come to an end.  Two things are in the way: it allocates
before it looks, so the empty string fails the assertion of `bigint_init`,
and `strchr` finds the terminator of the charset, too, so a NUL among the
bytes counts as a digit.  A length whose chunks an `int` cannot count is
wrapped, and then the loop leaves the array unless a byte stops it.
-/
import Jccl.Bigint.Hexstring

namespace Jccl

open Words

/-- The length that is meant by an argument `ns`. -/
def EffectiveLength (s : List UInt8) (ns n : Nat) : Prop :=
  if ns = 0 then strlen s = .ok n else n = ns ∧ ns ≤ s.length

instance (s : List UInt8) (ns n : Nat) : Decidable (EffectiveLength s ns n) := by
  unfold EffectiveLength
  infer_instance

/-- The bytes of the string, in the order in which the loop comes to them. -/
def hexBytes (s : List UInt8) (n : Nat) : List UInt8 := (s.take n).reverse

/-- The number of chunks, as it is counted. -/
def hexCount (n : Nat) : Int := narrow (n / 16) + if n % 16 = 0 then 0 else 1

theorem hexstringNchunk_eq (n : Nat) : hexstringNchunk n = checkInt (hexCount n) := by
  have h16 : NNIBBLE_IN_LONG = 16 := rfl
  rw [hexstringNchunk, hexCount, h16]
  by_cases hr : n % 16 = 0
  · rw [if_neg (not_not.mpr hr), if_pos hr, Int.add_zero]
    exact (checkInt_of ⟨min_le_narrow _, narrow_le_max _⟩).symm
  · rw [if_pos hr, if_neg hr]

/-! ## The loop -/

section Loop

variable {s : List UInt8} {n : Nat}

theorem hexBytes_length (hn : n ≤ s.length) : (hexBytes s n).length = n := by
  rw [hexBytes, List.length_reverse, List.length_take_of_le hn]

theorem hexBytes_getElem? (hn : n ≤ s.length) {i : Nat} (hi : i < n) :
    s[n - 1 - i]? = (hexBytes s n)[i]? := by
  have hlen := List.length_take_of_le hn
  rw [hexBytes, List.getElem?_reverse (hlen.symm ▸ hi), hlen, List.getElem?_take,
    if_pos (by omega)]

variable {c : UInt8} {i : Nat} {b : Bigint} {nibble : ULong}

theorem hexstringStep_bad (hread : s[n - 1 - i]? = some c) (hbad : strchr bigintHexCharset c = none) :
    hexstringStep s n i (some (b, nibble)) = .ok none := by
  simp only [hexstringStep, hread, hbad]

/-- A byte that is found is stored, if there is a chunk for it. -/
theorem hexstringStep_good (hread : s[n - 1 - i]? = some c)
    (hgood : strchr bigintHexCharset c ≠ none) (hi : i < 16 * b.chunks.length) :
    ∃ b' nibble', hexstringStep s n i (some (b, nibble)) = .ok (some (b', nibble')) ∧
      b'.chunks.length = b.chunks.length := by
  obtain ⟨k, hk⟩ := Option.ne_none_iff_exists'.mp hgood
  have hj : i / NNIBBLE_IN_LONG < b.chunks.length := by
    have h16 : NNIBBLE_IN_LONG = 16 := rfl
    rw [h16]
    omega
  simp only [hexstringStep, hread, hk, chunk_ofNat hj, setChunk_ofNat hj, Outcome.ok_bind]
  exact ⟨_, _, rfl, List.length_set ..⟩

theorem hexstringStep_full (hread : s[n - 1 - i]? = some c)
    (hgood : strchr bigintHexCharset c ≠ none) (hi : 16 * b.chunks.length ≤ i) :
    hexstringStep s n i (some (b, nibble)) = .error .bounds := by
  obtain ⟨k, hk⟩ := Option.ne_none_iff_exists'.mp hgood
  have hj : ¬ (((i / NNIBBLE_IN_LONG : Nat) : Int) < b.nchunk) := by
    have h16 : NNIBBLE_IN_LONG = 16 := rfl
    rw [h16, Bigint.nchunk]
    omega
  simp only [hexstringStep, hread, hk, Bigint.chunk, if_neg fun h => hj (And.right h)]
  rfl

theorem hexLoop_none {st : Option (Bigint × ULong)} {k : Nat}
    (h : forLoop (hexstringStep s n) i st = .ok none) (hk : i ≤ k) :
    forLoop (hexstringStep s n) k st = .ok none := by
  induction k, hk using Nat.le_induction with
  | base => exact h
  | succ k hk ih => rw [forLoop, ih]; rfl

theorem mem_hexBytes_take (hn : n ≤ s.length) {k : Nat} (hi : i < k) (hin : i < n) :
    ∃ c, s[n - 1 - i]? = some c ∧ c ∈ (hexBytes s n).take k := by
  have hlt : i < (hexBytes s n).length := (hexBytes_length hn).symm ▸ hin
  refine ⟨(hexBytes s n)[i], ?_, List.mem_take_iff_getElem.mpr ⟨i, by omega, rfl⟩⟩
  rw [hexBytes_getElem? hn hin, List.getElem?_eq_getElem hlt]

/-- While the bytes are found and there is room, the loop goes on. -/
theorem hexLoop_good (hn : n ≤ s.length) (hi : i ≤ n) (hroom : i ≤ 16 * b.chunks.length)
    (hgood : ∀ c ∈ (hexBytes s n).take i, strchr bigintHexCharset c ≠ none) :
    ∃ st, forLoop (hexstringStep s n) i (some (b, nibble)) = .ok st ∧
      ∃ b' nibble', st = some (b', nibble') ∧ b'.chunks.length = b.chunks.length := by
  refine forLoop_ok (I := fun _ st => ∃ b' nibble', st = some (b', nibble') ∧
    b'.chunks.length = b.chunks.length) ⟨b, nibble, rfl, rfl⟩ ?_
  rintro j _ hj ⟨b', nibble', rfl, hlen⟩
  obtain ⟨c, hread, hmem⟩ := mem_hexBytes_take hn hj (hj.trans_le hi)
  obtain ⟨b'', nibble'', hstep, hlen'⟩ := hexstringStep_good hread (hgood c hmem)
    (hlen.symm ▸ hj.trans_le hroom)
  exact ⟨_, hstep, b'', nibble'', rfl, hlen'.trans hlen⟩

/-- The first byte that is not found ends the loop. -/
theorem hexLoop_bad (hn : n ≤ s.length)
    (hbad : ∃ c ∈ (hexBytes s n).take (16 * b.chunks.length + 1), strchr bigintHexCharset c = none) :
    forLoop (hexstringStep s n) n (some (b, nibble)) = .ok none := by
  have hex : ∃ i : Nat, ∃ c, (hexBytes s n)[i]? = some c ∧ strchr bigintHexCharset c = none := by
    obtain ⟨c, hmem, hc⟩ := hbad
    obtain ⟨i, hi⟩ := List.mem_iff_getElem?.mp (List.mem_of_mem_take hmem)
    exact ⟨i, c, hi, hc⟩
  obtain ⟨c, hread, hc⟩ := Nat.find_spec hex
  have hlt := (List.getElem?_eq_some_iff.mp hread).1
  rw [hexBytes_length hn] at hlt
  have hroom : Nat.find hex ≤ 16 * b.chunks.length := by
    obtain ⟨c, hmem, hc⟩ := hbad
    obtain ⟨i, hi, rfl⟩ := List.mem_take_iff_getElem.mp hmem
    have hle := Nat.find_min' hex ⟨_, List.getElem?_eq_getElem (by omega), hc⟩
    omega
  obtain ⟨_, hloop, b', nibble', rfl, -⟩ := @hexLoop_good _ _ _ b nibble hn hlt.le hroom
    fun c hmem hc => by
      obtain ⟨i, hi, rfl⟩ := List.mem_take_iff_getElem.mp hmem
      exact Nat.find_min hex (by omega) ⟨_, List.getElem?_eq_getElem (by omega), hc⟩
  refine hexLoop_none (i := Nat.find hex + 1) ?_ hlt
  rw [forLoop, hloop, Outcome.ok_bind]
  exact hexstringStep_bad (hexBytes_getElem? hn hlt ▸ hread) hc

theorem hexLoop_full (hn : n ≤ s.length) (hfull : 16 * b.chunks.length < n)
    (hgood : ∀ c ∈ (hexBytes s n).take (16 * b.chunks.length + 1), strchr bigintHexCharset c ≠ none)
    {st : Option (Bigint × ULong)} : forLoop (hexstringStep s n) n (some (b, nibble)) ≠ .ok st := by
  intro hloop
  -- the iteration that would write behind the last chunk
  obtain ⟨t, t', ht, hstep⟩ := forLoop_step hloop hfull
  obtain ⟨_, ht', b', nibble', rfl, hlen⟩ := @hexLoop_good _ _ _ b nibble hn
    hfull.le le_rfl fun c hc => hgood c (List.take_subset_take_left _ (Nat.le_succ _) hc)
  cases ht.symm.trans ht'
  obtain ⟨c, hread, hmem⟩ := mem_hexBytes_take hn (Nat.lt_succ_self _) hfull
  rw [hexstringStep_full hread (hgood c hmem) (by rw [hlen])] at hstep
  cases hstep

end Loop

/-! ## The whole function -/

section Run

variable {s : List UInt8} {ns n : Nat} {answers : List Bool}

theorem EffectiveLength.le (h : EffectiveLength s ns n) : n ≤ s.length := by
  rw [EffectiveLength] at h
  split at h
  · exact (strlen_lt h).le
  · exact h.1 ▸ h.2

/-- With a length of 0 the function takes that of the string. -/
theorem fromHexstring_length (h : EffectiveLength s ns n) (hpos : n ≠ 0) (answers : List Bool) :
    (bigintFromMsbFirstHexstring (some s) ns).run answers
      = (bigintFromMsbFirstHexstring (some s) n).run answers := by
  rw [EffectiveLength] at h
  split at h
  · rename_i hns
    subst hns
    simp only [bigintFromMsbFirstHexstring, if_true, h, if_neg hpos]
    rfl
  · rw [h.1]

theorem hexstringExtend_runs {b : Bigint} (hne : b.chunks ≠ []) (nibble : ULong) :
    ∃ b', hexstringExtend n b nibble = .ok b' ∧ b'.chunks ≠ [] := by
  have hpos := List.length_pos_iff.mpr hne
  have htop : b.chunks.length - 1 < b.chunks.length := Nat.sub_lt hpos Nat.one_pos
  have hidx : b.nchunk - 1 = ((b.chunks.length - 1 : Nat) : Int) := by
    unfold Bigint.nchunk
    omega
  rw [hexstringExtend, hidx, chunk_ofNat htop, Outcome.ok_bind, setChunk_ofNat htop]
  split
  · exact ⟨_, rfl, List.ne_nil_of_length_pos ((List.length_set ..).symm ▸ hpos)⟩
  · exact ⟨_, rfl, hne⟩

/-- The run, when the number of chunks is positive: it is told by the loop. -/
theorem fromHexstring_eq (h : EffectiveLength s ns n) (hpos : n ≠ 0) (hg : granted answers = true)
    {k : Nat} (hk : hexstringNchunk n = .ok k) (hkpos : 0 < k) :
    (bigintFromMsbFirstHexstring (some s) ns).run answers
      = (forLoop (hexstringStep s n) n
          (some ({ padChunk := 0, chunks := List.replicate k 0 }, 0)) >>= fun st =>
        (st.elim (pure none) fun p => do
          let b ← hexstringExtend n p.1 p.2
          bigintIdentifyPadChunkAndTrim (some b)) >>= fun r => .ok (r, answers.tail)) := by
  rw [fromHexstring_length h hpos]
  simp only [bigintFromMsbFirstHexstring, StateT.run_bind, if_neg hpos, hk,
    bigintInit_run (by omega : (0 : Int) < k), hg, if_true, Outcome.ok_bind, AllocM.run_lift,
    AllocM.run_pure, Int.toNat_natCast]
  cases forLoop (hexstringStep s n) n
      (some ({ padChunk := 0, chunks := List.replicate k 0 }, 0)) with
  | error e => rfl
  | ok st =>
      cases st with
      | none => rfl
      | some p =>
          simp only [Outcome.ok_bind, Option.elim, AllocM.run_lift, StateT.run_bind]
          cases hexstringExtend n p.1 p.2 <;> rfl

theorem fromHexstring_pos (h : EffectiveLength s ns n) {x : Option Bigint × List Bool}
    (hrun : (bigintFromMsbFirstHexstring (some s) ns).run answers = .ok x) :
    0 < hexCount n ∧ hexCount n ≤ INT_MAX := by
  -- the count is checked, and then the assertion
  have hcount : ∀ {f : Int → Option Bigint → AllocM (Option Bigint)},
      ((liftM (hexstringNchunk n) : AllocM Int) >>= fun k => bigintInit k >>= f k).run answers
        = .ok x → 0 < hexCount n ∧ hexCount n ≤ INT_MAX := by
    intro f hrun
    obtain ⟨k, hk, hrun⟩ := AllocM.lift_bind_eq_ok.mp hrun
    obtain ⟨o, _, hinit, -⟩ := AllocM.bind_eq_ok.mp hrun
    rw [hexstringNchunk_eq] at hk
    obtain ⟨rfl, -, hle⟩ := checkInt_eq_ok.mp hk
    exact ⟨bigintInit_pos hinit, hle⟩
  by_cases hpos : n = 0
  · subst hpos
    have hns : ns = 0 := by
      by_contra hne
      rw [EffectiveLength, if_neg hne] at h
      exact hne h.1.symm
    subst hns
    rw [EffectiveLength, if_pos rfl] at h
    simp only [bigintFromMsbFirstHexstring, if_true, h] at hrun
    obtain ⟨_, h0, hrun⟩ := AllocM.lift_bind_eq_ok.mp hrun
    cases h0
    exact hcount hrun
  · rw [fromHexstring_length h hpos] at hrun
    simp only [bigintFromMsbFirstHexstring, if_neg hpos, pure_bind] at hrun
    exact hcount hrun

theorem ne_zero_of_hexCount (hcount : 0 < hexCount n) : n ≠ 0 := by
  rintro rfl
  exact absurd hcount (by decide)

/-- The run, when an `int` can count the chunks. -/
theorem fromHexstring_counted (h : EffectiveLength s ns n) (hg : granted answers = true)
    (hcount : 0 < hexCount n ∧ hexCount n ≤ INT_MAX) :
    ∃ b : Bigint, b.chunks.length = (hexCount n).toNat ∧
      (bigintFromMsbFirstHexstring (some s) ns).run answers
        = (forLoop (hexstringStep s n) n (some (b, 0)) >>= fun st =>
          (st.elim (pure none) fun p => do
            let b ← hexstringExtend n p.1 p.2
            bigintIdentifyPadChunkAndTrim (some b)) >>= fun r => .ok (r, answers.tail)) := by
  have hmin : INT_MIN ≤ 0 := by decide
  have hnchunk : hexstringNchunk n = .ok ((hexCount n).toNat : Int) := by
    rw [hexstringNchunk_eq, checkInt_of ⟨by omega, hcount.2⟩, Int.toNat_of_nonneg hcount.1.le]
  exact ⟨_, List.length_replicate,
    fromHexstring_eq h (ne_zero_of_hexCount hcount.1) hg hnchunk (by omega)⟩

theorem fromHexstring_bad (h : EffectiveLength s ns n) (hg : granted answers = true)
    (hcount : 0 < hexCount n ∧ hexCount n ≤ INT_MAX)
    (hbad : ∃ c ∈ (hexBytes s n).take (16 * (hexCount n).toNat + 1),
      strchr bigintHexCharset c = none) :
    (bigintFromMsbFirstHexstring (some s) ns).run answers = .ok (none, answers.tail) := by
  obtain ⟨b, hlen, hrun⟩ := fromHexstring_counted h hg hcount
  rw [hrun, hexLoop_bad h.le (hlen.symm ▸ hbad)]
  rfl

theorem fromHexstring_full (h : EffectiveLength s ns n) (hg : granted answers = true)
    (hcount : 0 < hexCount n ∧ hexCount n ≤ INT_MAX) (hfull : 16 * (hexCount n).toNat < n)
    (hgood : ∀ c ∈ (hexBytes s n).take (16 * (hexCount n).toNat + 1),
      strchr bigintHexCharset c ≠ none) (x : Option Bigint × List Bool) :
    (bigintFromMsbFirstHexstring (some s) ns).run answers ≠ .ok x := by
  intro hx
  obtain ⟨b, hlen, hrun⟩ := fromHexstring_counted h hg hcount
  obtain ⟨st, hloop, -⟩ := Outcome.bind_eq_ok.mp (hrun.symm.trans hx)
  exact hexLoop_full h.le (hlen.symm ▸ hfull) (hlen.symm ▸ hgood) hloop

theorem fromHexstring_good (h : EffectiveLength s ns n) (hg : granted answers = true)
    (hcount : 0 < hexCount n ∧ hexCount n ≤ INT_MAX) (hroom : n ≤ 16 * (hexCount n).toNat)
    (hgood : ∀ c ∈ hexBytes s n, strchr bigintHexCharset c ≠ none) :
    ∃ r, (bigintFromMsbFirstHexstring (some s) ns).run answers = .ok (some r, answers.tail) := by
  obtain ⟨b, hlen, hrun⟩ := fromHexstring_counted h hg hcount
  obtain ⟨_, hloop, b', nibble, rfl, hlen'⟩ := @hexLoop_good s n n b 0 h.le le_rfl (by omega)
    fun c hc => hgood c (List.mem_of_mem_take hc)
  obtain ⟨b'', hextend, hne⟩ := @hexstringExtend_runs n b'
    (List.ne_nil_of_length_pos (by omega)) nibble
  obtain ⟨r, htrim, -⟩ := trim_ok hne
  refine ⟨r, ?_⟩
  rw [hrun, hloop, Outcome.ok_bind]
  simp only [Option.elim, hextend, Outcome.ok_bind, htrim]

end Run

/-- What the reader is right on, of the bytes in the order in which it comes to
them: it can count the chunks, and either one of the bytes that it has chunks
for, or the next one, is neither of the charset nor NUL, or there are chunks
for all bytes and none is NUL. -/
def HexChecked (s : List UInt8) (n : Nat) : Prop :=
  0 < hexCount n ∧ hexCount n ≤ INT_MAX ∧
    ((∃ c ∈ (hexBytes s n).take (16 * (hexCount n).toNat + 1), c ∉ bigintHexCharset ∧ c ≠ 0) ∨
      (n ≤ 16 * (hexCount n).toNat ∧ 0 ∉ hexBytes s n))

/-- With a length of which an `int` can count the chunks, that is: a string
that is not empty, and holds a NUL only beside another byte to be refused. -/
theorem hexChecked_iff {s : List UInt8} {n : Nat} (hn : (n : Int) ≤ 16 * INT_MAX) :
    HexChecked s n ↔
      1 ≤ n ∧ ((∃ c ∈ s.take n, c ∉ bigintHexCharset ∧ c ≠ 0) ∨ 0 ∉ s.take n) := by
  have hcount : hexCount n = (((n + 15) / 16 : Nat) : Int) := by
    rw [hexCount, narrow_of_le (by omega)]
    split <;> omega
  have hmem : ∀ c, c ∈ hexBytes s n ↔ c ∈ s.take n := fun c => List.mem_reverse
  have htake : (hexBytes s n).take (16 * (hexCount n).toNat + 1) = hexBytes s n := by
    refine List.take_of_length_le ?_
    rw [hexBytes, List.length_reverse, List.length_take, hcount]
    omega
  have hroom : n ≤ 16 * (hexCount n).toNat := by omega
  rw [HexChecked, htake, and_iff_right hroom]
  simp only [hmem]
  exact ⟨fun ⟨_, _, h⟩ => ⟨by omega, h⟩, fun ⟨_, h⟩ => ⟨by omega, by omega, h⟩⟩

/-- The reader comes to an end and accepts exactly the non-empty strings over
its charset, just for those. -/
theorem fromHexstring_accepts_iff {s : List UInt8} {ns n : Nat} (h : EffectiveLength s ns n)
    {answers : List Bool} (hg : granted answers = true) :
    (∃ r answers', (bigintFromMsbFirstHexstring (some s) ns).run answers = .ok (r, answers') ∧
      (r.isSome ↔ 1 ≤ n ∧ ∀ c ∈ s.take n, c ∈ bigintHexCharset)) ↔ HexChecked s n := by
  by_cases hcount : 0 < hexCount n ∧ hexCount n ≤ INT_MAX
  swap
  · refine iff_of_false ?_ fun hc => hcount ⟨hc.1, hc.2.1⟩
    rintro ⟨r, answers', hrun, -⟩
    exact hcount (fromHexstring_pos h hrun)
  have hmem : ∀ c, c ∈ s.take n ↔ c ∈ hexBytes s n := fun c => List.mem_reverse.symm
  rw [HexChecked, and_iff_right hcount.1, and_iff_right hcount.2]
  by_cases hbad : ∃ c ∈ (hexBytes s n).take (16 * (hexCount n).toNat + 1),
      strchr bigintHexCharset c = none
  · have hrun := fromHexstring_bad h hg hcount hbad
    obtain ⟨c, hc, hnone⟩ := hbad
    refine iff_of_true ⟨none, _, hrun, ?_⟩ (.inl ⟨c, hc, strchr_eq_none.mp hnone⟩)
    refine iff_of_false (by decide) fun hall => ?_
    exact (strchr_eq_none.mp hnone).1 (hall.2 c ((hmem c).mpr (List.mem_of_mem_take hc)))
  have hgood : ∀ c ∈ (hexBytes s n).take (16 * (hexCount n).toNat + 1),
      strchr bigintHexCharset c ≠ none := fun c hc hnone => hbad ⟨c, hc, hnone⟩
  have hnobad : ¬ ∃ c ∈ (hexBytes s n).take (16 * (hexCount n).toNat + 1),
      c ∉ bigintHexCharset ∧ c ≠ 0 :=
    fun ⟨c, hc, hnone⟩ => hgood c hc (strchr_eq_none.mpr hnone)
  by_cases hfull : 16 * (hexCount n).toNat < n
  · refine iff_of_false ?_ fun hc => hc.elim hnobad fun hroom => absurd hroom.1 (not_le.mpr hfull)
    rintro ⟨r, answers', hrun, -⟩
    exact fromHexstring_full h hg hcount hfull hgood _ hrun
  · have hroom := not_lt.mp hfull
    have htake : (hexBytes s n).take (16 * (hexCount n).toNat + 1) = hexBytes s n :=
      List.take_of_length_le (by rw [hexBytes_length h.le]; omega)
    rw [htake] at hgood hnobad
    obtain ⟨r, hrun⟩ := fromHexstring_good h hg hcount hroom hgood
    rw [hrun, htake, or_iff_right hnobad, and_iff_right hroom]
    constructor
    · rintro ⟨r', answers', hrun, hiff⟩ hzero
      cases hrun
      exact absurd ((hiff.mp rfl).2 0 ((hmem 0).mpr hzero)) (by decide +kernel)
    · intro hzero
      refine ⟨some r, answers.tail, rfl,
        iff_of_true rfl ⟨Nat.pos_of_ne_zero (ne_zero_of_hexCount hcount.1), fun c hc => ?_⟩⟩
      by_contra hnot
      exact hgood c ((hmem c).mp hc)
        (strchr_eq_none.mpr ⟨hnot, fun h0 => hzero (h0 ▸ (hmem c).mp hc)⟩)

/-- A hexadecimal number followed by other text. -/
theorem fromHexstring_accepts_iff_7g :
    ∃ r answers', (bigintFromMsbFirstHexstring (some (['7', 'g'].map Char.toUInt8 ++ [0])) 0).run []
      = .ok (r, answers') ∧
      (r.isSome ↔ 1 ≤ 2 ∧ ∀ c ∈ ['7', 'g'].map Char.toUInt8, c ∈ bigintHexCharset) := by
  have h : EffectiveLength (['7', 'g'].map Char.toUInt8 ++ [0]) 0 2 := by decide +kernel
  exact (fromHexstring_accepts_iff h granted_nil).mpr ⟨by decide, by decide, .inl (by decide +kernel)⟩

/-- The empty string fails an assertion, and `1` followed by a NUL is taken
for a number of two digits. -/
theorem fromHexstring_empty :
    EffectiveLength [0] 0 0 ∧
    (bigintFromMsbFirstHexstring (some [0]) 0).run [] = .error .assertion ∧
    EffectiveLength (['1'].map Char.toUInt8 ++ [0]) 2 2 ∧ (0 : UInt8) ∉ bigintHexCharset ∧
    ∃ n, (bigintFromMsbFirstHexstring (some (['1'].map Char.toUInt8 ++ [0])) 2).run []
      = .ok (some n, []) :=
  ⟨by decide, by decide, by decide, by decide +kernel, { padChunk := 0, chunks := [0x10] },
    by decide +kernel⟩

end Jccl
