/-
# `Jccl.Bigint.Handover` — the shifts by a negative count

Each of the two shifts hands a negative count over to the other, negated.  The
negation of a negative count is not negative, and one hand-over is enough,
but for the most negative integer of each length: `bigint_negate` gives that
one back, and the two functions call each other for ever.

Whether one shift by `b` is the other by `-b` is then a matter of what the two
functions make of `|b|`.  A count of `2 ^ (64 * m - 1)` is none of the most
negative integers, but its negation is, so it can only be shifted by directly.

A run that does not end runs out of any fuel, so what is shown of the positive
counts first is that no fault of theirs is the end of the fuel.
-/
import Jccl.Bigint.ShiftRight

namespace Jccl

open Words

/-! ## Runs that do not use up fuel -/

/-- The run does not need more fuel than it was given. -/
def Ends {α : Type} (x : Outcome α) : Prop := x ≠ .error .timeout

section Avoids

variable {e : Fault} (he : e = .null ∨ e = .timeout)

include he

/-- The operations on words and arrays have other faults than these two. -/
theorem avoids_checked {α : Type} {p : Prop} [Decidable p] {a : α} {e' : Fault}
    (he' : e' ≠ .null ∧ e' ≠ .timeout) :
    Avoids e (if p then .ok a else .error e' : Outcome α) := by
  rcases he with rfl | rfl
  · exact avoids_ite (avoids_ok a) (avoids_error he'.1)
  · exact avoids_ite (avoids_ok a) (avoids_error he'.2)

theorem avoids_assert (p : Prop) [Decidable p] : Avoids e (assert p) :=
  avoids_checked he (by decide)

theorem avoids_checkInt (x : Int) : Avoids e (checkInt x) := avoids_checked he (by decide)

theorem avoids_chunk (n : Bigint) (i : Int) : Avoids e (n.chunk i) :=
  avoids_checked he (by decide)

theorem avoids_setChunk (n : Bigint) (i : Int) (v : ULong) : Avoids e (n.setChunk i v) :=
  avoids_checked he (by decide)

theorem avoids_shiftLeft (x : ULong) (d : Int) : Avoids e (shiftLeft x d) :=
  avoids_checked he (by decide)

theorem avoids_shiftRight (x : ULong) (d : Int) : Avoids e (shiftRight x d) :=
  avoids_checked he (by decide)

theorem avoids_trimLoop (n : Bigint) : ∀ i, Avoids e (trimLoop n i)
  | 0 => avoids_ok 0
  | i + 1 => (avoids_chunk he n _).bind fun _ => avoids_ite (avoids_ok _) (avoids_trimLoop n i)

theorem avoids_trim (n : Option Bigint) : Avoids e (bigintIdentifyPadChunkAndTrim n) := by
  cases n with
  | none => exact avoids_ok none
  | some n =>
      exact (avoids_trimLoop he _ _).bind fun _ =>
        avoids_ite ((avoids_assert he _).bind fun _ => avoids_ok _) (avoids_ok _)

theorem avoids_addStep (a b : Bigint) (i : Nat) (st : Bigint × Int) :
    Avoids e (addStep a b i st) :=
  (avoids_setChunk he _ _ _).bind fun _ => avoids_ok _

theorem avoids_shiftLeftStep (a : Bigint) (p d : Int) (i : Nat) (st : Bigint × ULong) :
    Avoids e (shiftLeftStep a p d i st) :=
  (avoids_chunk he _ _).bind fun _ => (avoids_shiftLeft he _ _).bind fun _ =>
    (avoids_setChunk he _ _ _).bind fun _ => (avoids_shiftRight he _ _).bind fun _ => avoids_ok _

theorem avoids_shiftRightStep (a : Bigint) (p d : Int) (i : Nat) (st : Bigint × ULong) :
    Avoids e (shiftRightStep a p d i st) :=
  (avoids_chunk he _ _).bind fun _ => (avoids_shiftRight he _ _).bind fun _ =>
    (avoids_setChunk he _ _ _).bind fun _ => (avoids_shiftLeft he _ _).bind fun _ => avoids_ok _

end Avoids

section Ends

variable {α β : Type}

/-- The same of a run that asks for memory, whatever the answers are. -/
def AllocEnds (m : AllocM α) : Prop := ∀ answers, Ends (m.run answers)

theorem allocEnds_pure (a : α) : AllocEnds (pure a) := fun _ => avoids_ok _

theorem AllocEnds.bind {m : AllocM α} {f : α → AllocM β} (hm : AllocEnds m)
    (hf : ∀ a, AllocEnds (f a)) : AllocEnds (m >>= f) :=
  fun answers => Avoids.bind (hm answers) fun p => hf p.1 p.2

theorem allocEnds_lift {x : Outcome α} (hx : Ends x) : AllocEnds (liftM x : AllocM α) :=
  fun _ => Avoids.bind hx fun _ => avoids_ok _

theorem allocEnds_ite {p : Prop} [Decidable p] {x y : AllocM α} (hx : AllocEnds x)
    (hy : AllocEnds y) : AllocEnds (if p then x else y) := by
  split
  · exact hx
  · exact hy

theorem allocEnds_init {k : Int} {f : Option Bigint → AllocM β} (hf : ∀ o, AllocEnds (f o)) :
    AllocEnds (bigintInit k >>= f) := by
  refine AllocEnds.bind ?_ hf
  refine (allocEnds_lift (avoids_assert (.inr rfl) _)).bind fun _ =>
    AllocEnds.bind (fun _ => avoids_ok _) fun _ => ?_
  exact allocEnds_ite (allocEnds_pure _) (allocEnds_pure _)

end Ends

theorem bigintNot_ends (n : Option Bigint) : AllocEnds (bigintNot n) := by
  cases n with
  | none => exact allocEnds_pure none
  | some n =>
      refine allocEnds_init fun _ => (allocEnds_lift (avoids_forLoop (fun i res => ?_) _ _)).bind
        fun _ => allocEnds_lift (avoids_trim (.inr rfl) _)
      refine Avoids.bind ?_ fun _ => (avoids_chunk (.inr rfl) n i).bind fun _ =>
        (avoids_setChunk (.inr rfl) _ _ _).bind fun _ => avoids_ok _
      cases res with
      | none => exact avoids_error (by decide)
      | some res => exact avoids_ok res

theorem bigintAdd_ends (a b : Option Bigint) : AllocEnds (bigintAdd a b) := by
  cases a with
  | none => exact allocEnds_pure none
  | some a =>
    cases b with
    | none => exact allocEnds_pure none
    | some b =>
        refine allocEnds_init fun o => ?_
        cases o with
        | none => exact allocEnds_pure none
        | some res =>
            exact (allocEnds_lift (avoids_forLoop (avoids_addStep (.inr rfl) a b) _ _)).bind
              fun _ => allocEnds_lift (avoids_trim (.inr rfl) _)

theorem bigintNegate_ends (n : Option Bigint) : AllocEnds (bigintNegate n) := by
  cases n with
  | none => exact allocEnds_pure none
  | some n =>
      refine (bigintNot_ends _).bind fun o => ?_
      cases o with
      | none => exact allocEnds_pure none
      | some notN => exact bigintAdd_ends _ _

theorem shiftLeftByPositive_ends (a b : Bigint) : AllocEnds (shiftLeftByPositive a b) := by
  refine allocEnds_ite (allocEnds_pure none) ?_
  refine (allocEnds_lift (avoids_chunk (.inr rfl) _ _)).bind fun _ =>
    (allocEnds_lift (avoids_checkInt (.inr rfl) _)).bind fun _ =>
    (allocEnds_lift (avoids_checkInt (.inr rfl) _)).bind fun _ => allocEnds_init fun o => ?_
  cases o with
  | none => exact allocEnds_pure none
  | some res =>
      exact (allocEnds_lift (avoids_forLoop (avoids_shiftLeftStep (.inr rfl) a _ _) _ _)).bind
        fun _ => (allocEnds_lift (avoids_shiftLeft (.inr rfl) _ _)).bind fun _ =>
        (allocEnds_lift (avoids_setChunk (.inr rfl) _ _ _)).bind fun _ =>
        allocEnds_lift (avoids_trim (.inr rfl) _)

theorem shiftRightByPositive_ends (a b : Bigint) : AllocEnds (shiftRightByPositive a b) := by
  refine (allocEnds_lift (avoids_chunk (.inr rfl) _ _)).bind fun _ => ?_
  apply allocEnds_ite <;> refine AllocEnds.bind ?_ fun _ => allocEnds_init fun o => ?_
  pick_goal 3
  · exact allocEnds_lift (avoids_checkInt (.inr rfl) _)
  · exact allocEnds_pure _
  all_goals
    cases o with
    | none => exact allocEnds_pure none
    | some res =>
        refine allocEnds_ite ?_ ?_
        · exact (allocEnds_lift (avoids_setChunk (.inr rfl) _ _ _)).bind fun _ =>
            allocEnds_lift (avoids_trim (.inr rfl) _)
        · exact (allocEnds_lift (avoids_shiftLeft (.inr rfl) _ _)).bind fun _ =>
            (allocEnds_lift (avoids_forLoop (avoids_shiftRightStep (.inr rfl) a _ _) _ _)).bind
            fun _ => allocEnds_lift (avoids_trim (.inr rfl) _)

/-! ## Negated counts -/

theorem bigintAdd_refused {a : Bigint} (ha : a.Canonical) (b : Bigint) {answers : List Bool}
    (hg : granted answers = false) :
    (bigintAdd (some a) (some b)).run answers = .ok (none, answers.tail) := by
  have hpos := maxchunk_pos ha b
  simp only [bigintAdd, maxchunk_eq, StateT.run_bind,
    bigintInit_run (by omega : (0 : Int) < maxchunk a b), hg]
  rfl

/-- Without memory the complement is written through the null pointer. -/
theorem bigintNot_refused {b : Bigint} (hb : b.Canonical) {answers : List Bool}
    (hg : granted answers = false) : (bigintNot (some b)).run answers = .error .null := by
  have hpos := List.length_pos_iff.mpr hb.ne_nil
  have hlen : 0 < b.nchunk := by
    unfold Bigint.nchunk
    omega
  have hloop : forLoop (fun i (res : Option Bigint) => do
      let res ← deref res
      let chunk ← b.chunk i
      let res ← res.setChunk i (~~~chunk)
      return some res) b.chunks.length none = .error .null :=
    @forLoop_error _ _ _ 1 _ _ rfl hpos
  simp only [bigintNot, StateT.run_bind, bigintInit_run hlen, hg, Outcome.ok_bind,
    AllocM.run_lift, hloop, if_false, Bool.false_eq_true]
  rfl

/-- What a negation returns, whatever the answers of the allocator. -/
theorem bigintNegate_inv {b c : Bigint} (hb : b.Canonical) {answers answers' : List Bool}
    (h : (bigintNegate (some b)).run answers = .ok (some c, answers')) :
    c.Canonical ∧ c.val = (if b.val = b.mostNegative then b.val else -b.val) ∧
      granted answers.tail = true ∧ answers' = answers.tail.tail := by
  obtain ⟨notB, _, hnot, hadd⟩ := AllocM.bind_eq_ok.mp h
  cases hg : granted answers with
  | false =>
      rw [bigintNot_refused hb hg] at hnot
      cases hnot
  | true =>
      cases hg' : granted answers.tail with
      | false =>
          obtain ⟨m, hrun, hcan, -⟩ := bigintNot_run hb hg
          rw [hrun] at hnot
          cases hnot
          have hnull := bigintAdd_refused hcan bigintOne hg'
          rw [hnull] at hadd
          cases hadd
      | true =>
          obtain ⟨r, hrun, hcan, hval⟩ := bigintNegate_run hb hg hg'
          rw [hrun] at h
          cases h
          exact ⟨hcan, hval, rfl, rfl⟩

theorem mostNegative_iff {n : Bigint} (h : n.Canonical) :
    n.val = n.mostNegative ↔ ∃ m, 0 < m ∧ n.val = -2 ^ (64 * m - 1) := by
  have hpos := List.length_pos_iff.mpr h.ne_nil
  constructor
  · exact fun hv => ⟨_, hpos, hv⟩
  · rintro ⟨m, hm, hv⟩
    have hle : n.chunks.length ≤ m := by
      rw [h.length_le_iff hm, hv]
      have hpow : (0 : Int) < 2 ^ (64 * m - 1) := by positivity
      exact ⟨le_rfl, by omega⟩
    have hge : m ≤ n.chunks.length := by
      by_contra hlt
      have hfits := h.fits.1
      have hpow : (2 : Int) ^ (64 * n.chunks.length - 1) < 2 ^ (64 * m - 1) :=
        pow_lt_pow_right₀ (by decide) (by omega)
      omega
    rw [hv, Bigint.mostNegative, le_antisymm hle hge]

/-! ## The hand-over -/

/-- What the right shift does with a negated count that is not negative. -/
def shiftRightOrNull (a : Bigint) : Option Bigint → AllocM (Option Bigint)
  | none => pure none
  | some c => shiftRightByPositive a c

/-- What the left shift does with one. -/
def shiftLeftOrNull (a : Bigint) : Option Bigint → AllocM (Option Bigint)
  | none => pure none
  | some c => shiftLeftByPositive a c

section HandOver

variable {a b : Bigint}

theorem bigintShift_handOver (hb : b.Canonical) (hneg : b.val < 0) (hne : b.val ≠ b.mostNegative)
    (fuel : Nat) (answers : List Bool) :
    (bigintShiftLeft (fuel + 2) (some a) (some b)).run answers
        = (bigintNegate (some b) >>= shiftRightOrNull a).run answers ∧
      (bigintShiftRight (fuel + 2) (some a) (some b)).run answers
        = (bigintNegate (some b) >>= shiftLeftOrNull a).run answers := by
  have hmsb := (bigintMsb_padding_eq_one hb).mpr hneg
  rw [bigintShiftLeft, bigintShiftRight, if_pos hmsb, if_pos hmsb]
  simp only [StateT.run_bind]
  cases hrun : (bigintNegate (some b)).run answers with
  | error e => exact ⟨rfl, rfl⟩
  | ok p =>
      obtain ⟨o, t⟩ := p
      simp only [Outcome.ok_bind]
      cases o with
      | none => constructor <;> simp [bigintShiftLeft, bigintShiftRight, shiftLeftOrNull,
          shiftRightOrNull]
      | some c =>
          obtain ⟨hcan, hval, -⟩ := bigintNegate_inv hb hrun
          rw [if_neg hne] at hval
          have hnonneg : 0 ≤ c.val := by omega
          rw [bigintShiftLeft_of_nonneg hcan hnonneg, bigintShiftRight_of_nonneg hcan hnonneg]
          exact ⟨rfl, rfl⟩

/-- The most negative count of its length is handed over for ever. -/
theorem bigintShift_endless (hb : b.Canonical) (h : b.val = b.mostNegative) (fuel : Nat) :
    (bigintShiftLeft fuel (some a) (some b)).run [] = .error .timeout ∧
      (bigintShiftRight fuel (some a) (some b)).run [] = .error .timeout := by
  have hneg := mostNegative_neg b
  have hmsb := (bigintMsb_padding_eq_one hb).mpr (by omega)
  obtain ⟨r, hrun, hcan, hval⟩ := bigintNegate_run hb granted_nil granted_nil
  rw [if_pos h] at hval
  obtain rfl := hcan.ext hb hval
  induction fuel with
  | zero =>
      rw [bigintShiftLeft, bigintShiftRight]
      exact ⟨rfl, rfl⟩
  | succ fuel ih =>
      rw [bigintShiftLeft, bigintShiftRight, if_pos hmsb, if_pos hmsb, StateT.run_bind,
        StateT.run_bind, hrun]
      exact ⟨ih.2, ih.1⟩

/-- Two calls are enough: the fuel for them does not run out, and more of it
changes nothing. -/
def HandsOverOnce (shift : Nat → Option Bigint → Option Bigint → AllocM (Option Bigint))
    (a b : Bigint) : Prop :=
  ∀ fuel answers, Ends ((shift (fuel + 2) (some a) (some b)).run answers) ∧
    (shift (fuel + 2) (some a) (some b)).run answers = (shift 2 (some a) (some b)).run answers

theorem shiftOrNull_ends (a : Bigint) (o : Option Bigint) :
    AllocEnds (shiftLeftOrNull a o) ∧ AllocEnds (shiftRightOrNull a o) := by
  cases o with
  | none => exact ⟨allocEnds_pure none, allocEnds_pure none⟩
  | some c => exact ⟨shiftLeftByPositive_ends a c, shiftRightByPositive_ends a c⟩

theorem handsOverOnce_iff (hb : b.Canonical) :
    (HandsOverOnce bigintShiftLeft a b ∧ HandsOverOnce bigintShiftRight a b) ↔
      b.val ≠ b.mostNegative := by
  constructor
  · rintro ⟨hleft, -⟩ hmin
    exact (hleft 0 []).1 (bigintShift_endless hb hmin 2).1
  · intro hne
    by_cases hneg : b.val < 0
    · have hrun := bigintShift_handOver (a := a) hb hneg hne
      constructor <;> intro fuel answers
      · rw [(hrun fuel answers).1, (hrun 0 answers).1]
        exact ⟨((bigintNegate_ends _).bind fun o => (shiftOrNull_ends a o).2) answers, rfl⟩
      · rw [(hrun fuel answers).2, (hrun 0 answers).2]
        exact ⟨((bigintNegate_ends _).bind fun o => (shiftOrNull_ends a o).1) answers, rfl⟩
    · have hnonneg := not_lt.mp hneg
      constructor <;> intro fuel answers
      · rw [bigintShiftLeft_of_nonneg hb hnonneg, bigintShiftLeft_of_nonneg hb hnonneg]
        exact ⟨shiftLeftByPositive_ends a b answers, rfl⟩
      · rw [bigintShiftRight_of_nonneg hb hnonneg, bigintShiftRight_of_nonneg hb hnonneg]
        exact ⟨shiftRightByPositive_ends a b answers, rfl⟩

/-- Either shift by `b` is the other one by its negation: both return, and what
they return is the same bigint or both times NULL. -/
def SameResults (a b : Bigint) : Prop :=
  (∃ o, ∀ fuel, (bigintShiftLeft (fuel + 2) (some a) (some b)).run [] = .ok (o, []) ∧
    (bigintNegate (some b) >>= bigintShiftRight (fuel + 2) (some a)).run [] = .ok (o, [])) ∧
  (∃ o, ∀ fuel, (bigintShiftRight (fuel + 2) (some a) (some b)).run [] = .ok (o, []) ∧
    (bigintNegate (some b) >>= bigintShiftLeft (fuel + 2) (some a)).run [] = .ok (o, []))

/-- The counts that neither are the most negative integer of a length nor have
it for their negation. -/
def Negatable (count : Int) : Prop := ∀ m, 0 < m → |count| ≠ 2 ^ (64 * m - 1)

theorem Negatable.ne_mostNegative (hb : b.Canonical) (h : Negatable b.val) :
    b.val ≠ b.mostNegative := by
  intro hmin
  obtain ⟨m, hm, hv⟩ := (mostNegative_iff hb).mp hmin
  exact h m hm (by rw [hv, abs_neg, abs_of_nonneg (by positivity)])

theorem Negatable.negate (hb : b.Canonical) (h : Negatable b.val) :
    ∃ c, (bigintNegate (some b)).run [] = .ok (some c, []) ∧ c.Canonical ∧ c.val = -b.val ∧
      Negatable c.val := by
  obtain ⟨c, hrun, hcan, hval⟩ := bigintNegate_run hb granted_nil granted_nil
  rw [if_neg (h.ne_mostNegative hb)] at hval
  refine ⟨c, hrun, hcan, hval, ?_⟩
  rw [hval, Negatable, abs_neg]
  exact h

/-- With memory for everything, each shift by a count is one of the two shifts
by its absolute value. -/
theorem Negatable.run (hb : b.Canonical) (h : Negatable b.val) {c : Bigint} (hc : c.Canonical)
    (hval : c.val = |b.val|) (fuel : Nat) :
    (bigintShiftLeft (fuel + 2) (some a) (some b)).run []
        = (if b.val < 0 then shiftRightByPositive a c else shiftLeftByPositive a c).run [] ∧
      (bigintShiftRight (fuel + 2) (some a) (some b)).run []
        = (if b.val < 0 then shiftLeftByPositive a c else shiftRightByPositive a c).run [] := by
  by_cases hneg : b.val < 0
  · obtain ⟨c', hrun, hcan, hval', -⟩ := h.negate hb
    obtain rfl : c' = c := hcan.ext hc (by rw [hval, hval', abs_of_neg hneg])
    have hover := bigintShift_handOver (a := a) hb hneg (h.ne_mostNegative hb) fuel []
    rw [if_pos hneg, if_pos hneg, hover.1, hover.2, StateT.run_bind, StateT.run_bind, hrun]
    exact ⟨rfl, rfl⟩
  · have hnonneg := not_lt.mp hneg
    obtain rfl : c = b := hc.ext hb (by rw [hval, abs_of_nonneg hnonneg])
    rw [if_neg hneg, if_neg hneg, bigintShiftLeft_of_nonneg hb hnonneg,
      bigintShiftRight_of_nonneg hb hnonneg]
    exact ⟨rfl, rfl⟩

theorem not_shiftLeftRuns_zero (a : Bigint) : ¬ ShiftLeftRuns a 0 := by
  rintro (h | ⟨-, h, -⟩)
  · exact absurd h (by decide)
  · exact h rfl

/-- A result for the count and for its negation excludes the endless counts. -/
theorem SameResults.negatable (hb : b.Canonical) (h : SameResults a b) : Negatable b.val := by
  obtain ⟨⟨o, hleft⟩, -⟩ := h
  obtain ⟨hrun, hrun'⟩ := hleft 0
  intro m hm habs
  by_cases hneg : b.val < 0
  · rw [abs_of_neg hneg] at habs
    have hmin := (mostNegative_iff hb).mpr ⟨m, hm, by omega⟩
    rw [(bigintShift_endless hb hmin 2).1] at hrun
    cases hrun
  · rw [abs_of_nonneg (not_lt.mp hneg)] at habs
    obtain ⟨c, hnegate, hcan, hval⟩ := bigintNegate_run hb granted_nil granted_nil
    have hmost := mostNegative_neg b
    rw [if_neg (by omega)] at hval
    have hmin := (mostNegative_iff hcan).mpr ⟨m, hm, by omega⟩
    rw [StateT.run_bind, hnegate] at hrun'
    have hend := (bigintShift_endless (a := a) hcan hmin 2).2
    simp only [Outcome.ok_bind, List.tail_nil, hend] at hrun'
    cases hrun'

theorem Negatable.exists_abs (hb : b.Canonical) (h : Negatable b.val) :
    ∃ c : Bigint, c.Canonical ∧ c.val = |b.val| := by
  by_cases hneg : b.val < 0
  · obtain ⟨c, -, hcan, hval, -⟩ := h.negate hb
    exact ⟨c, hcan, by rw [hval, abs_of_neg hneg]⟩
  · exact ⟨b, hb, (abs_of_nonneg (not_lt.mp hneg)).symm⟩

theorem sameResults_iff (ha : a.Canonical) (hb : b.Canonical) :
    SameResults a b ↔
      Negatable b.val ∧ ShiftLeftRuns a |b.val| ∧ ShiftRightRuns a |b.val| := by
  constructor
  · intro hsame
    have h := hsame.negatable hb
    obtain ⟨c, hc, hval⟩ := h.exists_abs hb
    obtain ⟨⟨o, hleft⟩, ⟨o', hright⟩⟩ := hsame
    obtain ⟨hrunLeft, hrunRight⟩ := h.run (a := a) hb hc hval 0
    rw [(hleft 0).1] at hrunLeft
    rw [(hright 0).1] at hrunRight
    rw [← hval, ← shiftLeftByPositive_runs_iff ha hc (hval ▸ abs_nonneg _),
      ← shiftRightByPositive_runs_iff ha hc]
    by_cases hneg : b.val < 0
    · rw [if_pos hneg] at hrunLeft hrunRight
      exact ⟨h, ⟨o', hrunRight.symm⟩, ⟨o, hrunLeft.symm⟩⟩
    · rw [if_neg hneg] at hrunLeft hrunRight
      exact ⟨h, ⟨o, hrunLeft.symm⟩, ⟨o', hrunRight.symm⟩⟩
  · rintro ⟨h, hruns, hruns'⟩
    have hzero : b.val ≠ 0 := by
      intro hz
      rw [hz, abs_zero] at hruns
      exact not_shiftLeftRuns_zero a hruns
    obtain ⟨c, hc, hval⟩ := h.exists_abs hb
    rw [← hval, ← shiftLeftByPositive_runs_iff ha hc (hval ▸ abs_nonneg _)] at hruns
    rw [← hval, ← shiftRightByPositive_runs_iff ha hc] at hruns'
    obtain ⟨o, hleft⟩ := hruns
    obtain ⟨o', hright⟩ := hruns'
    obtain ⟨d, hnegate, hd, hdval, hd'⟩ := h.negate hb
    have hrun := h.run (a := a) hb hc hval
    have hrun' := hd'.run (a := a) hd hc (by rw [hval, hdval, abs_neg])
    simp only [SameResults, StateT.run_bind, hnegate, Outcome.ok_bind]
    -- one of the two counts is negative, and its shift is the other one's
    by_cases hneg : b.val < 0
    · have hpos : ¬ d.val < 0 := by omega
      simp only [hrun, hrun', if_pos hneg, if_neg hpos]
      exact ⟨⟨o', fun _ => ⟨hright, hright⟩⟩, ⟨o, fun _ => ⟨hleft, hleft⟩⟩⟩
    · have hpos : d.val < 0 := by omega
      simp only [hrun, hrun', if_neg hneg, if_pos hpos]
      exact ⟨⟨o, fun _ => ⟨hleft, hleft⟩⟩, ⟨o', fun _ => ⟨hright, hright⟩⟩⟩

end HandOver

/-- One hand-over is enough for all but the most negative count of each length,
and the shifts by a count and by its negation are each other exactly when
neither is that one and both shifts come to an end with its absolute value. -/
theorem bigintShift_handOver_iff {a b : Bigint} (ha : a.Canonical) (hb : b.Canonical) :
    (HandsOverOnce bigintShiftLeft a b ∧ HandsOverOnce bigintShiftRight a b ↔
      b.val ≠ b.mostNegative) ∧
    (HandsOverOnce bigintShiftLeft a b ∧ HandsOverOnce bigintShiftRight a b ∧ SameResults a b ↔
      Negatable b.val ∧ ShiftLeftRuns a |b.val| ∧ ShiftRightRuns a |b.val|) := by
  refine ⟨handsOverOnce_iff hb, ?_⟩
  constructor
  · rintro ⟨-, -, hsame⟩
    exact (sameResults_iff ha hb).mp hsame
  · intro h
    obtain ⟨hleft, hright⟩ := (handsOverOnce_iff (a := a) hb).mpr (h.1.ne_mostNegative hb)
    exact ⟨hleft, hright, (sameResults_iff ha hb).mpr h⟩

/-- The negation of a chunk and a bit. -/
def bigintMinus65 : Bigint := { padChunk := BitVec.allOnes 64, chunks := [-65] }

theorem bigintShift_handOver_iff_65 :
    HandsOverOnce bigintShiftLeft bigintSixWords bigintMinus65 ∧
      HandsOverOnce bigintShiftRight bigintSixWords bigintMinus65 ∧
      SameResults bigintSixWords bigintMinus65 := by
  have hsix : bigintSixWords.Canonical := by decide
  have hcount : bigintMinus65.Canonical := by decide
  have hval : |bigintMinus65.val| = 65 := by decide
  refine (bigintShift_handOver_iff hsix hcount).2.mpr ⟨?_, ?_, ?_⟩
  · intro m hm h
    rw [hval] at h
    -- the power is even
    have hpow : (2 : Int) ^ (64 * m - 1) = 2 * 2 ^ (64 * m - 2) := by
      rw [← pow_succ']
      congr 1
      omega
    omega
  · exact .inr ⟨by decide, by decide, by decide⟩
  · exact .inr ⟨by decide, by decide, by decide⟩

/-- A shift by `LONG_MIN` uses up any fuel, in either direction. -/
theorem bigintShift_longMin :
    bigintOne.Canonical ∧ bigintLongMin.Canonical ∧ bigintLongMin.val = -2 ^ 63 ∧
    ∀ fuel, (bigintShiftLeft fuel (some bigintOne) (some bigintLongMin)).run []
        = .error .timeout ∧
      (bigintShiftRight fuel (some bigintOne) (some bigintLongMin)).run [] = .error .timeout := by
  have hcan : bigintLongMin.Canonical := by decide
  exact ⟨by decide, hcan, by decide, bigintShift_endless hcan (by decide)⟩

end Jccl
