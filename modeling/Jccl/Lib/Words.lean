/-
# `Jccl.Lib.Words` — integers spelled by words of any width

A list of `w`-bit words, least significant word first, is read in two ways:
`unsigned ws` is the place-value reading and `signed ws` the two's-complement
one, where the most significant bit of the last word weighs negatively.  The
library is generic in `w`: a development about multi-word integers reads its
words with it at one width and the digits of their printed form at another.

What the proofs that use it need is collected here:

  * splitting, writing one word, and the range of either reading;
  * `signed_inj`: words of one length are determined by their reading;
  * `signed_append_fill`: a word that repeats the sign changes nothing;
  * `minimal_iff`: no shorter list has the same reading exactly when the top
    word is not such a repetition;
  * `Minimal.length_le_iff`: how many words a minimal list has is told by the
    range its reading is in.
-/
import Mathlib

namespace Jccl.Words

variable {w : Nat}

/-- The place-value reading, least significant word first. -/
def unsigned (ws : List (BitVec w)) : Nat :=
  Nat.ofDigits (2 ^ w) (ws.map BitVec.toNat)

/-- The most significant bit of the last word. -/
def msb (ws : List (BitVec w)) : Bool :=
  match ws.getLast? with
  | some top => top.msb
  | none => false

/-- The two's-complement reading. -/
def signed (ws : List (BitVec w)) : Int :=
  unsigned ws - if msb ws then 2 ^ (w * ws.length) else 0

/-- The word every bit of which is `b`. -/
def fill (b : Bool) : BitVec w := if b then BitVec.allOnes w else 0#w

/-! ## The place-value reading -/

@[simp] theorem unsigned_nil : unsigned ([] : List (BitVec w)) = 0 := rfl

@[simp] theorem unsigned_cons (x : BitVec w) (ws : List (BitVec w)) :
    unsigned (x :: ws) = x.toNat + 2 ^ w * unsigned ws := by
  simp [unsigned, Nat.ofDigits_cons]

theorem unsigned_append (us vs : List (BitVec w)) :
    unsigned (us ++ vs) = unsigned us + 2 ^ (w * us.length) * unsigned vs := by
  simp [unsigned, Nat.ofDigits_append, pow_mul]

theorem unsigned_lt (ws : List (BitVec w)) : unsigned ws < 2 ^ (w * ws.length) := by
  induction ws with
  | nil => simp
  | cons x ws ih =>
      have hx := x.isLt
      rw [unsigned_cons, List.length_cons, Nat.mul_succ, Nat.add_comm (w * _), pow_add]
      calc x.toNat + 2 ^ w * unsigned ws
          < 2 ^ w * (unsigned ws + 1) := by rw [Nat.mul_succ]; omega
        _ ≤ 2 ^ w * 2 ^ (w * ws.length) := Nat.mul_le_mul_left _ ih

theorem unsigned_replicate_zero (k : Nat) :
    unsigned (List.replicate k 0#w) = 0 := by
  induction k with
  | zero => rfl
  | succ k ih => simp [List.replicate_succ, ih]

theorem unsigned_replicate_allOnes (k : Nat) :
    unsigned (List.replicate k (BitVec.allOnes w)) + 1 = 2 ^ (w * k) := by
  induction k with
  | zero => simp
  | succ k ih =>
      have hw : 0 < 2 ^ w := by positivity
      rw [List.replicate_succ, unsigned_cons, BitVec.toNat_allOnes, Nat.mul_succ,
        Nat.add_comm (w * k), pow_add, ← ih, Nat.mul_succ]
      omega

/-- Adding to one word adds at its place. -/
theorem unsigned_set {ws : List (BitVec w)} {j d : Nat} {v : BitVec w} (hj : j < ws.length)
    (hv : v.toNat = ws[j].toNat + d) :
    unsigned (ws.set j v) = unsigned ws + d * 2 ^ (w * j) := by
  induction ws generalizing j with
  | nil => simp at hj
  | cons x ws ih =>
      cases j with
      | zero => simp_all; omega
      | succ j =>
          simp only [List.set_cons_succ, unsigned_cons, Nat.mul_succ]
          rw [ih (by simpa using hj) (by simpa using hv), Nat.mul_add, pow_add]
          ring

/-- A word is a digit of the reading. -/
theorem toNat_getElem {ws : List (BitVec w)} {j : Nat} (hj : j < ws.length) :
    ws[j].toNat = unsigned ws / 2 ^ (w * j) % 2 ^ w := by
  induction ws generalizing j with
  | nil => simp at hj
  | cons x ws ih =>
      have hw : 0 < 2 ^ w := by positivity
      have hx := x.isLt
      cases j with
      | zero => simp [Nat.add_mul_mod_self_left, Nat.mod_eq_of_lt hx]
      | succ j =>
          rw [List.getElem_cons_succ, ih (by simpa using hj), unsigned_cons, Nat.mul_succ,
            Nat.add_comm (w * j), pow_add, ← Nat.div_div_eq_div_mul,
            Nat.add_mul_div_left _ _ hw, Nat.div_eq_of_lt hx, Nat.zero_add]

/-- Of lists that are as long as each other, the one with the larger last word
reads larger. -/
theorem unsigned_lt_of_last {us vs : List (BitVec w)} {x y : BitVec w}
    (hl : us.length = vs.length) (h : x < y) : unsigned (us ++ [x]) < unsigned (vs ++ [y]) := by
  have hu := unsigned_lt us
  have hmul := Nat.mul_le_mul_left (2 ^ (w * us.length)) (Nat.succ_le_of_lt (BitVec.lt_def.mp h))
  rw [Nat.mul_succ] at hmul
  rw [unsigned_append, unsigned_append, unsigned_cons, unsigned_cons, unsigned_nil, Nat.mul_zero,
    Nat.add_zero, Nat.add_zero, ← hl]
  omega

theorem unsigned_inj {us vs : List (BitVec w)} (hl : us.length = vs.length)
    (h : unsigned us = unsigned vs) : us = vs :=
  List.ext_getElem hl fun j hu hv =>
    BitVec.eq_of_toNat_eq (by rw [toNat_getElem hu, toNat_getElem hv, h])

/-! ## The two's-complement reading -/

@[simp] theorem msb_append_singleton (ws : List (BitVec w)) (x : BitVec w) :
    msb (ws ++ [x]) = x.msb := by
  simp [msb]

theorem msb_append {us vs : List (BitVec w)} (h : vs ≠ []) : msb (us ++ vs) = msb vs := by
  obtain ⟨init, top, rfl⟩ := vs.eq_nil_or_concat'.resolve_left h
  rw [← List.append_assoc, msb_append_singleton, msb_append_singleton]

@[simp] theorem fill_false : (fill false : BitVec w) = 0#w := rfl

@[simp] theorem fill_true : (fill true : BitVec w) = BitVec.allOnes w := rfl

theorem msb_fill (hw : 0 < w) (b : Bool) : (fill b : BitVec w).msb = b := by
  cases b
  · simp
  · simp [BitVec.msb_allOnes hw]

theorem two_pow_pred (hw : 0 < w) : 2 * 2 ^ (w - 1) = 2 ^ w := by
  rw [← pow_succ', Nat.sub_add_cancel hw]

/-- The top bit is set exactly in the upper half of the range. -/
theorem msb_iff (hw : 0 < w) (ws : List (BitVec w)) (h : ws ≠ []) :
    msb ws = true ↔ 2 ^ (w * ws.length) ≤ 2 * unsigned ws := by
  obtain rfl | ⟨init, top, rfl⟩ := ws.eq_nil_or_concat
  · exact absurd rfl h
  · have hi := unsigned_lt init
    have ht := two_pow_pred hw
    rw [List.concat_eq_append, msb_append_singleton, unsigned_append, BitVec.msb_eq_decide,
      decide_eq_true_eq, List.length_append, List.length_singleton, Nat.mul_succ, pow_add,
      unsigned_cons, unsigned_nil, Nat.mul_zero, Nat.add_zero, ← ht]
    constructor
    · intro hle
      nlinarith [Nat.mul_le_mul_left (2 ^ (w * init.length)) hle]
    · intro hle
      by_contra hlt
      have := Nat.mul_le_mul_left (2 ^ (w * init.length)) (Nat.succ_le_of_lt (not_le.mp hlt))
      rw [Nat.mul_succ] at this
      nlinarith

/-- The two readings agree up to a multiple of the range. -/
theorem signed_eq_bmod (hw : 0 < w) (ws : List (BitVec w)) :
    signed ws = Int.bmod (unsigned ws) (2 ^ (w * ws.length)) := by
  by_cases h : ws = []
  · subst h; simp [signed, msb]
  · have hlt := unsigned_lt ws
    have hm := msb_iff hw ws h
    have hcast : ((2 ^ (w * ws.length) : Nat) : Int) = 2 ^ (w * ws.length) := by push_cast; rfl
    unfold signed
    split
    · rename_i hb
      have hle := hm.mp hb
      rw [← hcast, ← Int.sub_bmod_right, Int.bmod_eq_of_le_mul_two (by omega) (by omega)]
    · rename_i hb
      have hle : ¬ _ ≤ _ := fun h' => hb (hm.mpr h')
      rw [Int.bmod_eq_of_le_mul_two (by omega) (by omega), Int.sub_zero]

theorem signed_range (hw : 0 < w) {ws : List (BitVec w)} (h : ws ≠ []) :
    -2 ^ (w * ws.length) ≤ signed ws * 2 ∧ signed ws * 2 < 2 ^ (w * ws.length) := by
  have hlt := unsigned_lt ws
  have hm := msb_iff hw ws h
  have hcast : ((2 ^ (w * ws.length) : Nat) : Int) = 2 ^ (w * ws.length) := by push_cast; rfl
  unfold signed
  rw [← hcast]
  by_cases hb : msb ws = true
  · have hle := hm.mp hb
    rw [if_pos hb]
    omega
  · have hle : ¬ _ ≤ _ := fun h' => hb (hm.mpr h')
    rw [if_neg hb]
    omega

theorem signed_neg_iff {ws : List (BitVec w)} : signed ws < 0 ↔ msb ws = true := by
  have hlt := unsigned_lt ws
  have hcast : ((2 ^ (w * ws.length) : Nat) : Int) = 2 ^ (w * ws.length) := by push_cast; rfl
  rw [signed]
  cases msb ws
  · simp
  · simp only [if_true, iff_true]
    omega

theorem signed_inj (hw : 0 < w) {us vs : List (BitVec w)} (hl : us.length = vs.length)
    (h : signed us = signed vs) : us = vs := by
  apply unsigned_inj hl
  have hu := unsigned_lt us
  have hv := unsigned_lt vs
  rw [signed_eq_bmod hw, signed_eq_bmod hw, hl] at h
  have h' := congrArg (· % ((2 ^ (w * vs.length) : Nat) : Int)) h
  simp only [Int.bmod_emod] at h'
  rw [Int.emod_eq_of_lt (by omega) (by rw [← hl]; exact_mod_cast hu),
    Int.emod_eq_of_lt (by omega) (by exact_mod_cast hv)] at h'
  exact_mod_cast h'

@[simp] theorem signed_singleton (x : BitVec w) : signed [x] = x.toInt := by
  simp [signed, msb, BitVec.toInt_eq_msb_cond]
  split <;> simp

/-- The first word is the reading modulo the range of a word. -/
theorem ofInt_signed_cons (x : BitVec w) (ws : List (BitVec w)) :
    BitVec.ofInt w (signed (x :: ws)) = x := by
  have hx := x.isLt
  obtain ⟨k, hk⟩ : ∃ k : Int, signed (x :: ws) = x.toNat + (2 ^ w : Nat) * k := by
    refine ⟨unsigned ws - if msb (x :: ws) then 2 ^ (w * ws.length) else 0, ?_⟩
    unfold signed
    rw [unsigned_cons, List.length_cons, Nat.mul_succ, Nat.add_comm (w * _), pow_add]
    split <;> push_cast <;> ring
  apply BitVec.eq_of_toNat_eq
  rw [BitVec.toNat_ofInt, hk, Int.add_mul_emod_self_left, Int.emod_eq_of_lt (by omega) (by omega),
    Int.toNat_natCast]

/-! ## Complementing every word -/

theorem unsigned_map_not (ws : List (BitVec w)) :
    unsigned (ws.map (~~~ ·)) + unsigned ws + 1 = 2 ^ (w * ws.length) := by
  induction ws with
  | nil => simp
  | cons x ws ih =>
      have hx := x.isLt
      rw [List.map_cons, unsigned_cons, unsigned_cons, BitVec.toNat_not, List.length_cons,
        Nat.mul_succ, Nat.add_comm (w * _), pow_add, ← ih, Nat.mul_add, Nat.mul_add]
      omega

theorem msb_map_not (hw : 0 < w) {ws : List (BitVec w)} (h : ws ≠ []) :
    msb (ws.map (~~~ ·)) = !msb ws := by
  obtain ⟨init, top, rfl⟩ := ws.eq_nil_or_concat'.resolve_left h
  rw [List.map_append, List.map_singleton, msb_append_singleton, msb_append_singleton,
    BitVec.msb_not]
  simp [hw]

theorem signed_map_not (hw : 0 < w) {ws : List (BitVec w)} (h : ws ≠ []) :
    signed (ws.map (~~~ ·)) = -signed ws - 1 := by
  have hsum : (unsigned (ws.map (~~~ ·)) : Int) + unsigned ws + 1 = 2 ^ (w * ws.length) := by
    exact_mod_cast unsigned_map_not ws
  rw [signed, signed, msb_map_not hw h, List.length_map]
  cases msb ws <;> simp <;> omega

/-! ## Repeating the sign -/

/-- Or-ing ones from bit `r` on keeps the lowest `r` bits only. -/
theorem toNat_or_allOnes_shiftLeft (x : BitVec w) {r : Nat} (hr : r ≤ w) :
    (x ||| BitVec.allOnes w <<< r).toNat = 2 ^ w - 2 ^ r + x.toNat % 2 ^ r := by
  have hsplit : 2 ^ w - 2 ^ r = 2 ^ r * (2 ^ (w - r) - 1) := by
    rw [Nat.mul_sub, ← pow_add, Nat.add_sub_cancel' hr, Nat.mul_one]
  rw [hsplit, Nat.two_pow_add_eq_or_of_lt (Nat.mod_lt _ (by positivity))]
  apply Nat.eq_of_testBit_eq
  intro i
  rw [BitVec.testBit_toNat, Nat.testBit_or, Nat.testBit_two_pow_mul, Nat.testBit_mod_two_pow,
    Nat.testBit_two_pow_sub_one, BitVec.testBit_toNat, BitVec.getLsbD_or,
    BitVec.getLsbD_shiftLeft, BitVec.getLsbD_allOnes]
  by_cases hi : i < r
  · simp [hi]
  · by_cases hw : i < w
    · have hlt : i - r < w - r := by omega
      have hlt' : i - r < w := by omega
      simp [hi, hw, hlt, hlt', not_lt.mp hi]
    · have hge : ¬ i - r < w - r := by omega
      simp [hi, hw, hge, BitVec.getLsbD_of_ge x i (not_lt.mp hw)]

/-- The reading of a list whose top word had ones or-ed to it from bit `r` on. -/
theorem signed_append_or_allOnes (init : List (BitVec w)) (x : BitVec w) {r : Nat} (hr : r < w) :
    signed (init ++ [x ||| BitVec.allOnes w <<< r])
      = unsigned (init ++ [x])
        + ((x.toNat % 2 ^ r : Nat) - x.toNat - 2 ^ r : Int) * 2 ^ (w * init.length) := by
  have hor := toNat_or_allOnes_shiftLeft x hr.le
  have hle : 2 ^ r ≤ 2 ^ (w - 1) := Nat.pow_le_pow_right (by decide) (by omega)
  have hw := two_pow_pred (w := w) (by omega)
  have hmsb : (x ||| BitVec.allOnes w <<< r).msb = true := by
    rw [BitVec.msb_eq_decide, hor, decide_eq_true_eq]
    omega
  have hcast : (2 ^ w - 2 ^ r : Nat) = (2 ^ w : Int) - 2 ^ r := by
    rw [Nat.cast_sub (by omega)]
    push_cast
    rfl
  unfold signed
  rw [msb_append_singleton, hmsb, if_pos rfl, unsigned_append, unsigned_append]
  simp only [unsigned_cons, unsigned_nil, Nat.mul_zero, Nat.add_zero, hor, List.length_append,
    List.length_singleton, Nat.mul_succ, pow_add]
  rw [Nat.cast_add, Nat.cast_add, Nat.cast_mul, Nat.cast_mul, Nat.cast_add, hcast]
  push_cast
  ring

theorem unsigned_append_fill (ws : List (BitVec w)) (b : Bool) (k : Nat) :
    (unsigned (ws ++ List.replicate k (fill b)) : Int)
      = unsigned ws - (if b then 2 ^ (w * ws.length) else 0)
        + (if b then 2 ^ (w * (ws.length + k)) else 0) := by
  rw [unsigned_append]
  cases b
  · simp [unsigned_replicate_zero]
  · have h := unsigned_replicate_allOnes (w := w) k
    have hz : (unsigned (List.replicate k (BitVec.allOnes w)) : Int) = 2 ^ (w * k) - 1 := by
      have := congrArg (Nat.cast : Nat → Int) h
      push_cast at this
      linarith
    push_cast
    simp only [fill_true, hz, if_true, Nat.mul_add, pow_add]
    ring

/-- Words that repeat the sign do not change the reading. -/
theorem signed_append_fill (hw : 0 < w) (ws : List (BitVec w)) (k : Nat) :
    signed (ws ++ List.replicate k (fill (msb ws))) = signed ws := by
  have hmsb : msb (ws ++ List.replicate k (fill (msb ws))) = msb ws := by
    cases k with
    | zero => simp
    | succ k =>
        rw [List.replicate_succ', ← List.append_assoc, msb_append_singleton, msb_fill hw]
  unfold signed
  rw [hmsb, unsigned_append_fill]
  cases msb ws <;> simp

/-! ## Minimality -/

/-- No shorter non-empty list of words has the same reading. -/
def Minimal (ws : List (BitVec w)) : Prop :=
  ∀ vs : List (BitVec w), vs ≠ [] → signed vs = signed ws → ws.length ≤ vs.length

/-- The last word repeats the sign of those before it. -/
def Redundant (ws : List (BitVec w)) : Prop :=
  ∃ init : List (BitVec w), init ≠ [] ∧ ws = init ++ [fill (msb init)]

theorem minimal_iff (hw : 0 < w) {ws : List (BitVec w)} :
    Minimal ws ↔ ¬ Redundant ws := by
  constructor
  · rintro hmin ⟨init, hne, heq⟩
    have hval : signed init = signed ws := by
      rw [heq]
      exact (signed_append_fill hw _ 1).symm
    have := hmin init hne hval
    simp [heq] at this
  · intro hred vs hvs hval
    by_contra hlt
    rw [not_le] at hlt
    -- extend the shorter list by its sign to one word less than `ws`
    obtain ⟨k, hk⟩ : ∃ k, ws.length = vs.length + (k + 1) := ⟨ws.length - vs.length - 1, by omega⟩
    set ext := vs ++ List.replicate k (fill (msb vs)) with hext
    have hne : ext ≠ [] := by simp [hext, hvs]
    have hsig : signed ext = signed vs := signed_append_fill hw _ k
    refine hred ⟨ext, hne, (signed_inj hw ?_ ?_).symm⟩
    · simp [hext]; omega
    · rw [← hval, ← hsig]
      exact signed_append_fill hw _ 1

theorem minimal_append_singleton (hw : 0 < w) (init : List (BitVec w)) (x : BitVec w) :
    Minimal (init ++ [x]) ↔ (init = [] ∨ x ≠ fill (msb init)) := by
  rw [minimal_iff hw]
  constructor
  · intro h
    by_contra hc
    push Not at hc
    exact h ⟨init, hc.1, by rw [hc.2]⟩
  · rintro h ⟨init', hne, heq⟩
    obtain ⟨rfl, hx⟩ := List.append_inj' heq rfl
    rcases h with h | h
    · exact hne h
    · exact h (List.singleton_injective hx)

/-! ## What a number of words can spell -/

/-- The integers that `m` words of width `w` spell. -/
def Fits (w m : Nat) (v : Int) : Prop := -2 ^ (w * m - 1) ≤ v ∧ v < 2 ^ (w * m - 1)

instance (w m : Nat) (v : Int) : Decidable (Fits w m v) := by unfold Fits; infer_instance

section Fits

variable {m k : Nat} {v : Int}

theorem two_pow_mul_pred (hw : 0 < w) (hm : 0 < m) :
    (2 : Int) ^ (w * m) = 2 * 2 ^ (w * m - 1) := by
  rw [← pow_succ', Nat.sub_add_cancel (Nat.mul_pos hw hm)]

theorem natCast_two_pow_mul (hw : 0 < w) (hm : 0 < m) :
    ((2 ^ (w * m) : Nat) : Int) = 2 * 2 ^ (w * m - 1) := by
  rw [← two_pow_mul_pred hw hm]
  push_cast
  rfl

theorem fits_bmod (hw : 0 < w) (hm : 0 < m) (v : Int) :
    Fits w m (Int.bmod v (2 ^ (w * m))) := by
  have hpow := natCast_two_pow_mul hw hm
  have hlo := Int.le_bmod (x := v) (m := 2 ^ (w * m)) (by positivity)
  have hhi := Int.bmod_lt (x := v) (m := 2 ^ (w * m)) (by positivity)
  rw [hpow] at hlo hhi
  exact ⟨by omega, by omega⟩

theorem fits_iff_bmod (hw : 0 < w) (hm : 0 < m) :
    Fits w m v ↔ Int.bmod v (2 ^ (w * m)) = v := by
  have hpow := natCast_two_pow_mul hw hm
  constructor
  · intro ⟨hlo, hhi⟩
    exact Int.bmod_eq_of_le_mul_two (by omega) (by omega)
  · intro h
    exact h ▸ fits_bmod hw hm v

theorem fits_signed (hw : 0 < w) {ws : List (BitVec w)} (h : ws ≠ []) :
    Fits w ws.length (signed ws) := by
  have hrange := signed_range hw h
  rw [two_pow_mul_pred hw (List.length_pos_iff.mpr h)] at hrange
  exact ⟨by omega, by omega⟩

theorem Fits.mono (h : Fits w m v) (hmk : m ≤ k) : Fits w k v := by
  have hpow : (2 : Int) ^ (w * m - 1) ≤ 2 ^ (w * k - 1) :=
    pow_le_pow_right₀ (by decide) (Nat.sub_le_sub_right (Nat.mul_le_mul_left w hmk) 1)
  exact ⟨by have := h.1; omega, by have := h.2; omega⟩

/-- The range is closed under negation but for its lower end. -/
theorem Fits.neg_iff (h : Fits w m v) : Fits w m (-v) ↔ v ≠ -2 ^ (w * m - 1) := by
  unfold Fits at *
  omega

/-- The lower end is its own negation modulo the range. -/
theorem Fits.bmod_neg (hw : 0 < w) (hm : 0 < m) (h : Fits w m v) :
    Int.bmod (-v) (2 ^ (w * m)) = if v = -2 ^ (w * m - 1) then v else -v := by
  split
  · rename_i hv
    have hself : -v = v + ((2 ^ (w * m) : Nat) : Int) := by
      rw [natCast_two_pow_mul hw hm, hv]
      ring
    rw [hself, Int.add_bmod_right]
    exact (fits_iff_bmod hw hm).mp h
  · rename_i hv
    exact (fits_iff_bmod hw hm).mp (h.neg_iff.mpr hv)

/-- The lowest `m` words of a number. -/
def spell (w m u : Nat) : List (BitVec w) :=
  (List.range m).map fun i => BitVec.ofNat w (u / 2 ^ (w * i))

@[simp] theorem spell_length (w m u : Nat) : (spell w m u).length = m := by simp [spell]

theorem spell_succ (w m u : Nat) :
    spell w (m + 1) u = spell w m u ++ [BitVec.ofNat w (u / 2 ^ (w * m))] := by
  simp [spell, List.range_succ]

theorem unsigned_spell (w m u : Nat) : unsigned (spell w m u) = u % 2 ^ (w * m) := by
  induction m with
  | zero => simp [spell, Nat.mod_one]
  | succ m ih =>
      rw [spell_succ, unsigned_append, ih, spell_length, unsigned_cons, unsigned_nil,
        BitVec.toNat_ofNat, Nat.mul_zero, Nat.add_zero, Nat.mul_succ, pow_add, Nat.mod_mul]

theorem exists_signed (hw : 0 < w) (hm : 0 < m) (h : Fits w m v) :
    ∃ ws : List (BitVec w), ws.length = m ∧ signed ws = v := by
  have hpos : (0 : Int) < (2 ^ (w * m) : Nat) := by positivity
  have hlt := Int.emod_lt_of_pos v hpos
  refine ⟨spell w m (v % (2 ^ (w * m) : Nat)).toNat, spell_length _ _ _, ?_⟩
  rw [signed_eq_bmod hw, unsigned_spell, spell_length, Nat.mod_eq_of_lt (by omega),
    Int.toNat_of_nonneg (Int.emod_nonneg v hpos.ne'), Int.emod_bmod]
  exact (fits_iff_bmod hw hm).mp h

/-- Minimal words are as many as their reading needs. -/
theorem Minimal.length_le_iff (hw : 0 < w) {ws : List (BitVec w)} (h : Minimal ws)
    (hne : ws ≠ []) (hm : 0 < m) : ws.length ≤ m ↔ Fits w m (signed ws) := by
  constructor
  · exact (fits_signed hw hne).mono
  · intro hfits
    obtain ⟨vs, hlen, hval⟩ := exists_signed hw hm hfits
    exact hlen ▸ h vs (List.ne_nil_of_length_pos (hlen ▸ hm)) hval

end Fits

/-- What is left of `us ++ x :: …` when the repetitions of the sign `b`
behind `x` are dropped, but for one where `x` itself shows the other sign. -/
def trimmed (us : List (BitVec w)) (x : BitVec w) (b : Bool) : List (BitVec w) :=
  if x.msb = b then us ++ [x] else us ++ [x] ++ [fill b]

section Trimmed

variable {us : List (BitVec w)} {x : BitVec w} {b : Bool}

theorem msb_trimmed (hw : 0 < w) : msb (trimmed us x b) = b := by
  unfold trimmed
  split
  · rename_i hx; rw [msb_append_singleton, hx]
  · rw [msb_append_singleton, msb_fill hw]

theorem trimmed_ne_nil (us : List (BitVec w)) (x : BitVec w) (b : Bool) :
    trimmed us x b ≠ [] := by
  unfold trimmed; split <;> simp

theorem minimal_trimmed (hw : 0 < w) (h : us = [] ∨ x ≠ fill b) :
    Minimal (trimmed us x b) := by
  unfold trimmed
  split
  · rename_i hx
    refine (minimal_append_singleton hw _ _).mpr (h.imp id fun hne heq => hne ?_)
    -- a repetition of the sign of `us` has that sign, so it repeats `b`
    have hus : msb us = b := by rw [← hx, heq, msb_fill hw]
    rw [heq, hus]
  · rename_i hx
    refine (minimal_append_singleton hw _ _).mpr (.inr fun heq => hx ?_)
    have hb := congrArg BitVec.msb heq
    rw [msb_fill hw, msb_fill hw, msb_append_singleton] at hb
    exact hb.symm

theorem signed_trimmed (hw : 0 < w) {k : Nat}
    (hb : msb (us ++ [x] ++ List.replicate k (fill b)) = b) :
    signed (trimmed us x b) = signed (us ++ [x] ++ List.replicate k (fill b)) := by
  unfold trimmed
  split
  · rename_i hx
    have h := signed_append_fill hw (us ++ [x]) k
    rw [msb_append_singleton, hx] at h
    exact h.symm
  · rename_i hx
    cases k with
    | zero =>
        rw [List.replicate_zero, List.append_nil, msb_append_singleton] at hb
        exact absurd hb hx
    | succ k =>
        have h := signed_append_fill hw (us ++ [x] ++ [fill b]) k
        rw [msb_append_singleton, msb_fill hw] at h
        have hcons : us ++ [x] ++ List.replicate (k + 1) (fill b)
            = us ++ [x] ++ [fill b] ++ List.replicate k (fill b) := by
          simp [List.replicate_succ]
        rw [hcons]
        exact h.symm

theorem take_eq_trimmed (us : List (BitVec w)) {k : Nat} (h : x.msb ≠ b → 0 < k) :
    (us ++ [x] ++ List.replicate k (fill b)).take
      ((if x.msb ≠ b then us.length + 1 else us.length) + 1) = trimmed us x b := by
  unfold trimmed
  by_cases hx : x.msb = b
  · rw [if_neg (not_not.mpr hx), if_pos hx]
    exact List.take_left' (by simp)
  · obtain ⟨k, rfl⟩ : ∃ j, k = j + 1 := ⟨k - 1, by have := h hx; omega⟩
    have hcons : us ++ [x] ++ List.replicate (k + 1) (fill b)
        = us ++ [x] ++ [fill b] ++ List.replicate k (fill b) := by
      simp [List.replicate_succ]
    rw [if_pos hx, if_neg hx, hcons]
    exact List.take_left' (by simp)

end Trimmed

instance (ws : List (BitVec w)) : Decidable (Redundant ws) :=
  decidable_of_iff (ws.dropLast ≠ [] ∧ ws = ws.dropLast ++ [fill (msb ws.dropLast)])
    ⟨fun h => ⟨_, h⟩, fun ⟨init, hne, heq⟩ => by rw [heq]; simpa using hne⟩

end Jccl.Words
