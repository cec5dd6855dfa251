/-
# `Jccl.Bigint.Compare` — the order that `bigint_compare` decides

The function looks at three things in turn, and each is enough only because
of what canonical bigints are:

  * the padding words, which show the signs;
  * the numbers of chunks: of two canonical bigints of one sign the longer is
    further from zero, since a shorter array could not spell it;
  * the chunks from the top, as unsigned words even of negative numbers, whose
    two's-complement reading is the unsigned one less a constant.

The three answers are those of `threeWay` at the integers, so the order is the
one of the integers, with NULL put below them all.
-/
import Jccl.Bigint.Canonical

namespace Jccl

open Words

/-! ## Three answers -/

section ThreeWay

variable {α β : Type} [LinearOrder α] [LinearOrder β]

/-- The comparison of two elements of a linear order, as C functions report it. -/
def threeWay (x y : α) : Int := if x < y then -1 else if y < x then 1 else 0

theorem threeWay_lt {x y : α} (h : x < y) : threeWay x y = -1 := if_pos h

theorem threeWay_gt {x y : α} (h : y < x) : threeWay x y = 1 := by
  rw [threeWay, if_neg h.asymm, if_pos h]

theorem threeWay_self (x : α) : threeWay x x = 0 := by simp [threeWay]

theorem threeWay_congr {x y : α} {u v : β} (hlt : x < y ↔ u < v) (hgt : y < x ↔ v < u) :
    threeWay x y = threeWay u v := by
  simp only [threeWay, hlt, hgt]

theorem threeWay_nonpos {x y : α} : threeWay x y ≤ 0 ↔ x ≤ y := by
  rcases lt_trichotomy x y with h | rfl | h
  · simp [threeWay_lt h, h.le]
  · simp [threeWay_self]
  · simp [threeWay_gt h, h]

theorem threeWay_eq_zero {x y : α} : threeWay x y = 0 ↔ x = y := by
  rcases lt_trichotomy x y with h | rfl | h
  · simp [threeWay_lt h, h.ne]
  · simp [threeWay_self]
  · simp [threeWay_gt h, h.ne']

end ThreeWay

/-! ## The three stages -/

theorem bigintMsb_padding {n : Bigint} (h : n.Canonical) :
    bigintMsb n (-1) = (msb n.chunks).toNat := by
  rw [bigintMsb_eq, bigintIndexWithPadding, if_neg (by omega), h.pad, msb_fill word_pos]

theorem Bigint.Canonical.neg_iff {n : Bigint} (h : n.Canonical) :
    n.val < 0 ↔ msb n.chunks = true := by
  rw [h.val_eq]
  exact signed_neg_iff

/-- The number of chunks tells the range of the integer. -/
theorem Bigint.Canonical.length_le_iff {n : Bigint} (h : n.Canonical) {m : Nat} (hm : 0 < m) :
    n.chunks.length ≤ m ↔ Fits 64 m n.val := by
  rw [h.val_eq]
  exact h.minimal.length_le_iff word_pos h.ne_nil hm

/-- Of two canonical bigints of one sign the longer one is further from zero. -/
theorem lt_of_length_lt {a b : Bigint} (ha : a.Canonical) (hb : b.Canonical)
    (hlt : a.chunks.length < b.chunks.length) :
    if b.val < 0 then b.val < a.val else a.val < b.val := by
  have hpos := List.length_pos_iff.mpr ha.ne_nil
  have hfits := (ha.length_le_iff hpos).mp le_rfl
  have hnot : ¬ Fits 64 a.chunks.length b.val :=
    fun h => absurd ((hb.length_le_iff hpos).mpr h) (not_le.mpr hlt)
  unfold Fits at hfits hnot
  split <;> omega

/-- From the top, the first chunks that differ decide between the readings. -/
theorem compareLoop_ok (a b : Bigint) : ∀ i, i ≤ a.chunks.length → i ≤ b.chunks.length →
    compareLoop a b i = .ok (threeWay (unsigned (a.chunks.take i)) (unsigned (b.chunks.take i)))
  | 0, _, _ => by simp [compareLoop, threeWay_self]
  | i + 1, hia, hib => by
      have hlen : (a.chunks.take i).length = (b.chunks.take i).length := by
        rw [List.length_take, List.length_take]
        omega
      rw [List.take_succ_eq_append_getElem hia, List.take_succ_eq_append_getElem hib]
      simp only [compareLoop, chunk_ofNat hia, chunk_ofNat hib, Outcome.ok_bind]
      by_cases heq : a.chunks[i] = b.chunks[i]
      · rw [if_neg (not_not.mpr heq), compareLoop_ok a b i (by omega) (by omega)]
        -- equal last words add the same to both readings
        refine congrArg Except.ok (threeWay_congr ?_ ?_) <;>
        · rw [heq, unsigned_append, unsigned_append, hlen, Nat.add_lt_add_iff_right]
      · rw [if_pos heq]
        by_cases hgt : a.chunks[i] > b.chunks[i]
        · rw [if_pos hgt, threeWay_gt (unsigned_lt_of_last hlen.symm hgt)]
          rfl
        · have hlt : a.chunks[i] < b.chunks[i] :=
            BitVec.lt_of_le_ne (BitVec.not_lt.mp hgt) heq
          rw [if_neg hgt, threeWay_lt (unsigned_lt_of_last hlen hlt)]
          rfl

theorem bigintCompare_ok {a b : Bigint} (ha : a.Canonical) (hb : b.Canonical) :
    bigintCompare (some a) (some b) = .ok (threeWay a.val b.val) := by
  have hna := ha.neg_iff
  have hnb := hb.neg_iff
  simp only [bigintCompare, bigintMsb_padding ha, bigintMsb_padding hb]
  by_cases hsign : msb a.chunks = msb b.chunks
  · rw [if_neg (not_not.mpr (congrArg Bool.toNat hsign))]
    rcases lt_trichotomy a.chunks.length b.chunks.length with hlen | hlen | hlen
    · have hfar := lt_of_length_lt ha hb hlen
      have hlt : a.nchunk < b.nchunk := Int.ofNat_lt.mpr hlen
      rw [if_pos hlt.ne, if_neg hlt.asymm, hsign]
      cases hm : msb b.chunks with
      | true =>
          rw [if_pos (hnb.mpr hm)] at hfar
          simp [threeWay_gt hfar]
      | false =>
          rw [if_neg (by simp [hnb, hm])] at hfar
          simp [threeWay_lt hfar]
    · have heq : a.nchunk = b.nchunk := congrArg Nat.cast hlen
      rw [if_neg (not_not.mpr heq), compareLoop_ok a b _ le_rfl hlen.le, List.take_length, hlen,
        List.take_length, ha.val_eq, hb.val_eq]
      refine congrArg Except.ok (threeWay_congr ?_ ?_) <;>
      · rw [signed, signed, hsign, hlen]
        omega
    · have hfar := lt_of_length_lt hb ha hlen
      have hlt : b.nchunk < a.nchunk := Int.ofNat_lt.mpr hlen
      rw [if_pos hlt.ne', if_pos hlt]
      cases hm : msb a.chunks with
      | true =>
          rw [if_pos (hna.mpr hm)] at hfar
          simp [threeWay_lt hfar]
      | false =>
          rw [if_neg (by simp [hna, hm])] at hfar
          simp [threeWay_gt hfar]
  · cases hma : msb a.chunks <;> cases hmb : msb b.chunks
    · simp [hma, hmb] at hsign
    · have hlt : b.val < a.val := by
        have := hnb.mpr hmb
        have : ¬ a.val < 0 := by simp [hna, hma]
        omega
      simp [threeWay_gt hlt]
    · have hlt : a.val < b.val := by
        have := hna.mpr hma
        have : ¬ b.val < 0 := by simp [hnb, hmb]
        omega
      simp [threeWay_lt hlt]
    · simp [hma, hmb] at hsign

/-! ## The order -/

/-- A bigint with the invariant of its representation. -/
abbrev CanonicalBigint := { n : Bigint // n.Canonical }

/-- The argument that stands for a bigint or for NULL. -/
def argument (n : Option CanonicalBigint) : Option Bigint := n.map Subtype.val

/-- Where an argument stands in the order, NULL being minus infinity. -/
def rank (n : Option CanonicalBigint) : WithBot Int := n.map fun m => m.val.val

/-- `bigint_compare` says that `a` is not above `b`. -/
def AtMost (a b : Option CanonicalBigint) : Prop :=
  ∃ c, bigintCompare (argument a) (argument b) = .ok c ∧ c ≤ 0

theorem bigintCompare_eq_threeWay (a b : Option CanonicalBigint) :
    bigintCompare (argument a) (argument b) = .ok (threeWay (rank a) (rank b)) := by
  match a, b with
  | none, none => rfl
  | none, some b => exact congrArg Except.ok (threeWay_lt (WithBot.bot_lt_coe b.val.val)).symm
  | some a, none => exact congrArg Except.ok (threeWay_gt (WithBot.bot_lt_coe a.val.val)).symm
  | some a, some b =>
      refine (bigintCompare_ok a.property b.property).trans (congrArg Except.ok ?_)
      exact threeWay_congr WithBot.coe_lt_coe.symm WithBot.coe_lt_coe.symm

theorem rank_injective : Function.Injective rank :=
  Option.map_injective fun a b h => Subtype.ext (a.property.ext b.property h)

theorem atMost_iff {a b : Option CanonicalBigint} : AtMost a b ↔ rank a ≤ rank b := by
  unfold AtMost
  rw [bigintCompare_eq_threeWay]
  constructor
  · rintro ⟨_, ⟨⟩, hc⟩
    exact threeWay_nonpos.mp hc
  · exact fun h => ⟨_, rfl, threeWay_nonpos.mpr h⟩

/-- `bigint_compare` decides the order of the integers with NULL below them
all, and no two bigints stand on one place in it. -/
theorem bigintCompare_order :
    (∀ a b : CanonicalBigint,
      bigintCompare (some a.val) (some b.val) = .ok
        (if b.val.val < a.val.val then 1 else if a.val.val = b.val.val then 0 else -1) ∧
      (bigintCompare (some a.val) (some b.val) = .ok 0 ↔ a.val.chunks = b.val.chunks)) ∧
    bigintCompare none none = .ok 0 ∧
    (∀ a : CanonicalBigint, bigintCompare none (some a.val) = .ok (-1) ∧
      bigintCompare (some a.val) none = .ok 1) ∧
    (∀ a, AtMost a a) ∧
    (∀ a b, AtMost a b → AtMost b a → a = b) ∧
    (∀ a b c, AtMost a b → AtMost b c → AtMost a c) ∧
    (∀ a b, AtMost a b ∨ AtMost b a) := by
  refine ⟨fun a b => ⟨?_, ?_⟩, rfl, fun a => ⟨rfl, rfl⟩, fun a => atMost_iff.mpr le_rfl,
    fun a b hab hba => ?_, fun a b c hab hbc => ?_, fun a b => ?_⟩
  · rw [bigintCompare_ok a.property b.property]
    rcases lt_trichotomy a.val.val b.val.val with h | h | h
    · rw [threeWay_lt h, if_neg h.asymm, if_neg h.ne]
    · rw [h, threeWay_self, if_neg (lt_irrefl _), if_pos rfl]
    · rw [threeWay_gt h, if_pos h]
  · rw [bigintCompare_ok a.property b.property, Except.ok.injEq, threeWay_eq_zero]
    constructor
    · intro h
      rw [a.property.ext b.property h]
    · intro h
      rw [a.property.val_eq, b.property.val_eq, h]
  · exact rank_injective (le_antisymm (atMost_iff.mp hab) (atMost_iff.mp hba))
  · exact atMost_iff.mpr (le_trans (atMost_iff.mp hab) (atMost_iff.mp hbc))
  · exact (le_total (rank a) (rank b)).imp atMost_iff.mpr atMost_iff.mpr

theorem bigintCompare_order_one_longMax :
    bigintCompare (some bigintOne) (some bigintLongMax) = .ok (-1) ∧
    AtMost none (some ⟨bigintLongMax, by decide⟩) ∧
    (some bigintOne = some bigintLongMax ↔ AtMost (some ⟨bigintLongMax, by decide⟩)
      (some ⟨bigintOne, by decide⟩)) := by
  obtain ⟨hval, -, hnull, -, hantisymm, htrans, -⟩ := bigintCompare_order
  have hlt := (hval ⟨bigintOne, by decide⟩ ⟨bigintLongMax, by decide⟩).1
  rw [if_neg (by decide), if_neg (by decide)] at hlt
  have hle : AtMost (some ⟨bigintOne, by decide⟩) (some ⟨bigintLongMax, by decide⟩) :=
    ⟨_, hlt, by decide⟩
  have hbot : AtMost none (some ⟨bigintOne, by decide⟩) :=
    ⟨-1, (hnull ⟨bigintOne, by decide⟩).1, by decide⟩
  refine ⟨hlt, htrans _ _ _ hbot hle, ?_⟩
  constructor
  · intro h
    exact absurd h (by decide)
  · intro hge
    exact congrArg argument (hantisymm _ _ hle hge)

end Jccl
