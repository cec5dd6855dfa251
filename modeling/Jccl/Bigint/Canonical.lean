/-
# `Jccl.Bigint.Canonical` — the representation invariant over whole runs

Every bigint a program can get hold of came out of one of the constructors
and operators of `bigint.h`, applied to bigints that did, or to NULL:
`Built` is that closure, over every pattern of allocation failures and every
recursion depth of the shifts.  An application that ends in a fault builds
nothing.

That all that was built is canonical needs no arithmetic.  Each operator ends
in a trim of an array that `bigint_init` made non-empty and whose length no
loop changed, or in the copy of something built before.
-/
import Jccl.Bigint.Hexstring

namespace Jccl

open Words

/-! ## Loops keep the length of the array -/

theorem trim_canonical {n r : Bigint} (h : 0 < n.chunks.length)
    (hrun : bigintIdentifyPadChunkAndTrim (some n) = .ok (some r)) : r.Canonical := by
  obtain ⟨m, hm, hcan, -⟩ := trim_ok (List.ne_nil_of_length_pos h)
  rw [hrun] at hm
  cases hm
  exact hcan

/-- A loop over any state that carries a bigint. -/
theorem forLoop_length {σ : Type} {f : Nat → σ → Outcome σ} (get : σ → Bigint)
    (hf : ∀ i s s', f i s = .ok s' → (get s').chunks.length = (get s).chunks.length)
    {n : Nat} {s s' : σ} (h : forLoop f n s = .ok s') :
    (get s').chunks.length = (get s).chunks.length :=
  forLoop_inv (I := fun _ t => (get t).chunks.length = (get s).chunks.length) h rfl
    (fun i t t' _ ht hs => (hf i t t' hs).trans ht)

theorem addStep_length {a b : Bigint} {i : Nat} {st st' : Bigint × Int}
    (h : addStep a b i st = .ok st') : st'.1.chunks.length = st.1.chunks.length := by
  obtain ⟨res, hset, h⟩ := Outcome.bind_eq_ok.mp h
  cases h
  exact setChunk_length hset

theorem shiftLeftStep_length {a : Bigint} {p d : Int} {i : Nat} {st st' : Bigint × ULong}
    (h : shiftLeftStep a p d i st = .ok st') : st'.1.chunks.length = st.1.chunks.length := by
  obtain ⟨_, -, h⟩ := Outcome.bind_eq_ok.mp h
  obtain ⟨_, -, h⟩ := Outcome.bind_eq_ok.mp h
  obtain ⟨res, hset, h⟩ := Outcome.bind_eq_ok.mp h
  obtain ⟨_, -, h⟩ := Outcome.bind_eq_ok.mp h
  cases h
  exact setChunk_length hset

theorem shiftRightStep_length {a : Bigint} {p d : Int} {i : Nat} {st st' : Bigint × ULong}
    (h : shiftRightStep a p d i st = .ok st') : st'.1.chunks.length = st.1.chunks.length := by
  obtain ⟨_, -, h⟩ := Outcome.bind_eq_ok.mp h
  obtain ⟨_, -, h⟩ := Outcome.bind_eq_ok.mp h
  obtain ⟨res, hset, h⟩ := Outcome.bind_eq_ok.mp h
  obtain ⟨_, -, h⟩ := Outcome.bind_eq_ok.mp h
  cases h
  exact setChunk_length hset

/-- The reader either has jumped to `error`, or still holds all its chunks. -/
theorem hexstringStep_length {s : List UInt8} {ns i k : Nat} {st st' : Option (Bigint × ULong)}
    (hst : ∀ p, st = some p → p.1.chunks.length = k) (h : hexstringStep s ns i st = .ok st') :
    ∀ p, st' = some p → p.1.chunks.length = k := by
  cases st with
  | none => cases h; exact hst
  | some p =>
      obtain ⟨n, nibble⟩ := p
      simp only [hexstringStep] at h
      split at h
      · cases h
      · split at h
        · cases h; exact fun _ hp => (by cases hp)
        · obtain ⟨chunk, -, h⟩ := Outcome.bind_eq_ok.mp h
          obtain ⟨n', hset, h⟩ := Outcome.bind_eq_ok.mp h
          cases h
          rintro p hp
          cases hp
          exact (setChunk_length hset).trans (hst _ rfl)

theorem hexstringExtend_length {ns : Nat} {n n' : Bigint} {nibble : ULong}
    (h : hexstringExtend ns n nibble = .ok n') : n'.chunks.length = n.chunks.length := by
  unfold hexstringExtend at h
  split at h
  · obtain ⟨top, -, h⟩ := Outcome.bind_eq_ok.mp h
    exact setChunk_length h
  · cases h; rfl

/-! ## What each operator returns is canonical -/

/-- Whatever bigint a run returns is canonical. -/
def ReturnsCanonical (m : AllocM (Option Bigint)) : Prop :=
  ∀ answers r answers', m.run answers = .ok (some r, answers') → r.Canonical

theorem returnsCanonical_null : ReturnsCanonical (pure none) := fun _ _ _ h => (by cases h)

/-- An operation that is given two numbers, and gives nothing if one is missing. -/
theorem returnsCanonical_pair {f : Option Bigint → Option Bigint → AllocM (Option Bigint)}
    (hleft : ∀ b, f none b = pure none) (hright : ∀ a, f (some a) none = pure none)
    (hf : ∀ a b, ReturnsCanonical (f (some a) (some b))) (a b : Option Bigint) :
    ReturnsCanonical (f a b) := by
  cases a with
  | none => exact hleft b ▸ returnsCanonical_null
  | some a =>
      cases b with
      | none => exact hright a ▸ returnsCanonical_null
      | some b => exact hf a b

/-- An allocation: what follows is told by the block, or by NULL. -/
theorem returnsCanonical_init {k : Int} {f : Option Bigint → AllocM (Option Bigint)}
    (hnull : ReturnsCanonical (f none))
    (hf : ∀ n, 0 < n.chunks.length → ReturnsCanonical (f (some n))) :
    ReturnsCanonical (bigintInit k >>= f) := by
  intro answers r answers' h
  obtain ⟨o, _, hinit, h⟩ := AllocM.bind_eq_ok.mp h
  cases o with
  | none => exact hnull _ _ _ h
  | some n =>
      obtain ⟨hk, rfl⟩ := bigintInit_inv hinit
      exact hf _ (by simp; omega) _ _ _ h

theorem returnsCanonical_lift {α : Type} {x : Outcome α} {f : α → AllocM (Option Bigint)}
    (hf : ∀ a, x = .ok a → ReturnsCanonical (f a)) : ReturnsCanonical (liftM x >>= f) := by
  intro answers r answers' h
  obtain ⟨a, ha, h⟩ := AllocM.lift_bind_eq_ok.mp h
  exact hf a ha _ _ _ h

theorem returnsCanonical_bind {α : Type} {x : AllocM α} {f : α → AllocM (Option Bigint)}
    (hf : ∀ a, ReturnsCanonical (f a)) : ReturnsCanonical (x >>= f) := by
  intro answers r answers' h
  obtain ⟨a, _, -, h⟩ := AllocM.bind_eq_ok.mp h
  exact hf a _ _ _ h

theorem returnsCanonical_ite {p : Prop} [Decidable p] {x y : AllocM (Option Bigint)}
    (hx : ReturnsCanonical x) (hy : ReturnsCanonical y) :
    ReturnsCanonical (if p then x else y) := by
  split
  · exact hx
  · exact hy

theorem returnsCanonical_trim {n : Bigint} (h : 0 < n.chunks.length) :
    ReturnsCanonical (bigintIdentifyPadChunkAndTrim (some n)) := by
  intro answers r answers' hrun
  obtain ⟨o, htrim, heq⟩ := Outcome.bind_eq_ok.mp hrun
  cases heq
  exact trim_canonical h htrim

theorem bigintFromLong_canonical (x : ULong) : ReturnsCanonical (bigintFromLong x) :=
  returnsCanonical_init returnsCanonical_null fun _ hn => returnsCanonical_lift fun _ hset =>
    returnsCanonical_trim ((setChunk_length hset).symm ▸ hn)

theorem bigintFromMsbFirstHexstring_canonical (s : Option (List UInt8)) (ns : Nat) :
    ReturnsCanonical (bigintFromMsbFirstHexstring s ns) := by
  cases s with
  | none => exact returnsCanonical_null
  | some s =>
      unfold bigintFromMsbFirstHexstring
      -- the two branches differ in where the length comes from
      apply returnsCanonical_ite <;>
      · refine returnsCanonical_bind fun ns => returnsCanonical_lift fun k _ =>
          returnsCanonical_init returnsCanonical_null fun n hn =>
          returnsCanonical_lift fun st hloop => ?_
        have hlen := forLoop_inv
          (I := fun _ st => ∀ p, st = some p → p.1.chunks.length = n.chunks.length)
          hloop (fun _ hp => by cases hp; rfl)
          (fun _ _ _ _ hst hstep => hexstringStep_length hst hstep)
        cases st with
        | none => exact returnsCanonical_null
        | some p =>
            refine returnsCanonical_lift fun n' hext => returnsCanonical_trim ?_
            rw [hexstringExtend_length hext, hlen p rfl]
            exact hn

theorem bigintCopy_canonical {n : Option Bigint} (h : ∀ m, n = some m → m.Canonical) :
    ReturnsCanonical (bigintCopy n) := by
  cases n with
  | none => exact returnsCanonical_null
  | some n =>
      refine returnsCanonical_init returnsCanonical_null fun _ _ _ _ _ hrun => ?_
      cases hrun
      exact h n rfl

theorem bigintNot_canonical (n : Option Bigint) : ReturnsCanonical (bigintNot n) := by
  cases n with
  | none => exact returnsCanonical_null
  | some n =>
      intro answers r answers' h
      obtain ⟨o, _, hinit, h⟩ := AllocM.bind_eq_ok.mp h
      obtain ⟨res, hloop, h⟩ := AllocM.lift_bind_eq_ok.mp h
      have hlen := forLoop_inv (I := fun _ res => ∀ m, res = some m → 0 < m.chunks.length) hloop
        (by
          rintro m rfl
          obtain ⟨hk, rfl⟩ := bigintInit_inv hinit
          simp; omega)
        (by
          intro i res res' _ hres hstep
          obtain ⟨m, hm, hstep⟩ := Outcome.bind_eq_ok.mp hstep
          obtain ⟨chunk, -, hstep⟩ := Outcome.bind_eq_ok.mp hstep
          obtain ⟨m', hset, hstep⟩ := Outcome.bind_eq_ok.mp hstep
          cases hstep
          rintro _ ⟨⟩
          cases res with
          | none => cases hm
          | some m => cases hm; exact (setChunk_length hset).symm ▸ hres m rfl)
      cases res with
      | none => cases h
      | some m => exact returnsCanonical_trim (hlen m rfl) _ _ _ h

theorem bigintBinop_canonical (op : ULong → ULong → ULong) (a b : Option Bigint) :
    ReturnsCanonical (bigintBinop op a b) := by
  refine returnsCanonical_pair (fun _ => rfl) (fun _ => rfl) (fun a b => ?_) a b
  refine returnsCanonical_init returnsCanonical_null fun n hn =>
    returnsCanonical_lift fun res hloop => returnsCanonical_trim ?_
  have hlen := forLoop_length id (fun _ _ _ h => setChunk_length h) hloop
  exact lt_of_lt_of_eq hn hlen.symm

theorem bigintAdd_canonical (a b : Option Bigint) : ReturnsCanonical (bigintAdd a b) := by
  refine returnsCanonical_pair (fun _ => rfl) (fun _ => rfl) (fun a b => ?_) a b
  refine returnsCanonical_init returnsCanonical_null fun n hn =>
    returnsCanonical_lift fun st hloop => returnsCanonical_trim ?_
  rw [forLoop_length Prod.fst (fun _ _ _ h => addStep_length h) hloop]
  exact hn

theorem bigintNegate_canonical (n : Option Bigint) : ReturnsCanonical (bigintNegate n) := by
  cases n with
  | none => exact returnsCanonical_null
  | some n =>
      refine returnsCanonical_bind fun o => ?_
      cases o with
      | none => exact returnsCanonical_null
      | some notN => exact bigintAdd_canonical _ _

theorem bigintAbs_canonical {n : Option Bigint} (h : ∀ m, n = some m → m.Canonical) :
    ReturnsCanonical (bigintAbs n) := by
  cases n with
  | none => exact returnsCanonical_null
  | some n =>
      unfold bigintAbs
      dsimp only
      split
      · exact bigintNegate_canonical _
      · exact bigintCopy_canonical h

theorem bigintSubtract_canonical (a b : Option Bigint) : ReturnsCanonical (bigintSubtract a b) := by
  refine returnsCanonical_pair (fun _ => rfl) (fun _ => rfl) (fun a b => ?_) a b
  refine returnsCanonical_bind fun o => ?_
  cases o with
  | none => exact returnsCanonical_null
  | some minusB => exact bigintAdd_canonical _ _

theorem shiftLeftByPositive_canonical (a b : Bigint) : ReturnsCanonical (shiftLeftByPositive a b) := by
  unfold shiftLeftByPositive
  split
  · exact returnsCanonical_null
  · refine returnsCanonical_lift fun count _ => returnsCanonical_lift fun _ _ =>
      returnsCanonical_lift fun _ _ => returnsCanonical_init returnsCanonical_null fun n hn =>
      returnsCanonical_lift fun st hloop => returnsCanonical_lift fun top _ =>
      returnsCanonical_lift fun res hset => returnsCanonical_trim ?_
    rw [setChunk_length hset, forLoop_length Prod.fst (fun _ _ _ h => shiftLeftStep_length h) hloop]
    exact hn

theorem shiftRightByPositive_canonical (a b : Bigint) :
    ReturnsCanonical (shiftRightByPositive a b) := by
  unfold shiftRightByPositive
  refine returnsCanonical_lift fun count _ => ?_
  apply returnsCanonical_ite <;>
  · refine returnsCanonical_bind fun k => returnsCanonical_init returnsCanonical_null fun n hn =>
      returnsCanonical_ite (returnsCanonical_lift fun res hset => ?_)
        (returnsCanonical_lift fun carry _ => returnsCanonical_lift fun st hloop => ?_)
    · refine returnsCanonical_trim ?_
      rw [setChunk_length hset]
      exact hn
    · refine returnsCanonical_trim ?_
      rw [forLoop_length Prod.fst (fun _ _ _ h => shiftRightStep_length h) hloop]
      exact hn

/-- The shifts hand a negative count over to each other, so one induction on
the depth is for both. -/
theorem bigintShift_canonical (fuel : Nat) (a b : Option Bigint) :
    ReturnsCanonical (bigintShiftLeft fuel a b) ∧ ReturnsCanonical (bigintShiftRight fuel a b) := by
  induction fuel generalizing b with
  | zero =>
      constructor <;>
      · intro _ _ _ h
        simp only [bigintShiftLeft, bigintShiftRight] at h
        cases h
  | succ fuel ih =>
      cases a with
      | none => exact ⟨returnsCanonical_null, returnsCanonical_null⟩
      | some a =>
        cases b with
        | none => exact ⟨returnsCanonical_null, returnsCanonical_null⟩
        | some b =>
            rw [bigintShiftLeft, bigintShiftRight]
            split
            · exact ⟨returnsCanonical_bind fun o => (ih o).2, returnsCanonical_bind fun o => (ih o).1⟩
            · exact ⟨shiftLeftByPositive_canonical a b, shiftRightByPositive_canonical a b⟩

/-! ## Whole runs -/

/-- What the public constructors and operators can be composed to. -/
inductive Built : Option Bigint → Prop
  | null : Built none
  | fromLong {x answers r answers'} :
      (bigintFromLong x).run answers = .ok (r, answers') → Built r
  | fromHexstring {s ns answers r answers'} :
      (bigintFromMsbFirstHexstring s ns).run answers = .ok (r, answers') → Built r
  | copy {n answers r answers'} : Built n →
      (bigintCopy n).run answers = .ok (r, answers') → Built r
  | not {n answers r answers'} : Built n →
      (bigintNot n).run answers = .ok (r, answers') → Built r
  | and {a b answers r answers'} : Built a → Built b →
      (bigintAnd a b).run answers = .ok (r, answers') → Built r
  | or {a b answers r answers'} : Built a → Built b →
      (bigintOr a b).run answers = .ok (r, answers') → Built r
  | xor {a b answers r answers'} : Built a → Built b →
      (bigintXor a b).run answers = .ok (r, answers') → Built r
  | shiftLeft {fuel a b answers r answers'} : Built a → Built b →
      (bigintShiftLeft fuel a b).run answers = .ok (r, answers') → Built r
  | shiftRight {fuel a b answers r answers'} : Built a → Built b →
      (bigintShiftRight fuel a b).run answers = .ok (r, answers') → Built r
  | negate {n answers r answers'} : Built n →
      (bigintNegate n).run answers = .ok (r, answers') → Built r
  | abs {n answers r answers'} : Built n →
      (bigintAbs n).run answers = .ok (r, answers') → Built r
  | add {a b answers r answers'} : Built a → Built b →
      (bigintAdd a b).run answers = .ok (r, answers') → Built r
  | subtract {a b answers r answers'} : Built a → Built b →
      (bigintSubtract a b).run answers = .ok (r, answers') → Built r

theorem canonical_of_built {o : Option Bigint} (h : Built o) : ∀ r, o = some r → r.Canonical := by
  induction h with
  | null => exact fun _ h => (by cases h)
  | fromLong h => rintro r rfl; exact bigintFromLong_canonical _ _ _ _ h
  | fromHexstring h => rintro r rfl; exact bigintFromMsbFirstHexstring_canonical _ _ _ _ _ h
  | copy _ h ih => rintro r rfl; exact bigintCopy_canonical ih _ _ _ h
  | not _ h => rintro r rfl; exact bigintNot_canonical _ _ _ _ h
  | and _ _ h => rintro r rfl; exact bigintBinop_canonical _ _ _ _ _ _ h
  | or _ _ h => rintro r rfl; exact bigintBinop_canonical _ _ _ _ _ _ h
  | xor _ _ h => rintro r rfl; exact bigintBinop_canonical _ _ _ _ _ _ h
  | shiftLeft _ _ h => rintro r rfl; exact (bigintShift_canonical _ _ _).1 _ _ _ h
  | shiftRight _ _ h => rintro r rfl; exact (bigintShift_canonical _ _ _).2 _ _ _ h
  | negate _ h => rintro r rfl; exact bigintNegate_canonical _ _ _ _ h
  | abs _ h ih => rintro r rfl; exact bigintAbs_canonical ih _ _ _ h
  | add _ _ h => rintro r rfl; exact bigintAdd_canonical _ _ _ _ _ h
  | subtract _ _ h => rintro r rfl; exact bigintSubtract_canonical _ _ _ _ _ h

/-! ## What canonical bigints are good for -/

/-- One chunk is enough exactly for the integers a `long` can hold. -/
theorem nchunk_gt_one_iff {n : Bigint} (h : n.Canonical) :
    n.nchunk > 1 ↔ ¬ (-2 ^ 63 ≤ n.val ∧ n.val < 2 ^ 63) := by
  have hpos := h.nchunk_pos
  rw [h.val_eq]
  constructor
  · intro hn hrange
    -- a single word would have the same reading
    have hone := h.minimal [BitVec.ofInt 64 (signed n.chunks)] (by simp) (by
      rw [signed_singleton, BitVec.toInt_ofInt]
      exact Int.bmod_eq_of_le_mul_two (by omega) (by omega))
    unfold Bigint.nchunk at hn
    rw [List.length_singleton] at hone
    omega
  · intro hrange
    by_contra hn
    unfold Bigint.nchunk at hpos hn
    have hlen : n.chunks.length = 1 := by omega
    have hsigned := signed_range word_pos h.ne_nil
    rw [hlen] at hsigned
    omega

/-- The first chunk is the integer modulo the range of a word. -/
theorem Bigint.Canonical.chunk_zero {n : Bigint} (h : n.Canonical) :
    n.chunk 0 = .ok (BitVec.ofInt 64 n.val) := by
  have hpos := List.length_pos_iff.mpr h.ne_nil
  have hread := chunk_ofNat hpos
  have hlow : n.chunks[0] = BitVec.ofInt 64 n.val := by
    rw [h.val_eq]
    obtain ⟨x, ws, hcons⟩ := List.exists_cons_of_ne_nil h.ne_nil
    simp only [hcons, List.getElem_cons_zero, ofInt_signed_cons]
  rwa [Nat.cast_zero, hlow] at hread

theorem bigintToLong_eq {n : Bigint} (h : n.Canonical) (cell : ULong) :
    bigintToLong (some n) (some cell) = .ok
      (if -2 ^ 63 ≤ n.val ∧ n.val < 2 ^ 63 then 0 else ERANGE, some (BitVec.ofInt 64 n.val)) := by
  simp only [bigintToLong, h.chunk_zero, Outcome.ok_bind, nchunk_gt_one_iff h, ite_not,
    Outcome.pure_eq]

/-- All that was built is canonical; trimming always gets there, with the
value it found; and a canonical bigint is converted to a `long` exactly when
it denotes one. -/
theorem bigint_canonical :
    (∀ r, Built (some r) → r.Canonical) ∧
    (∀ n : Bigint, n.chunks ≠ [] →
      ∃ m, bigintIdentifyPadChunkAndTrim (some n) = .ok (some m) ∧ m.Canonical ∧
        m.val = signed n.chunks) ∧
    (∀ (n : Bigint) (cell : ULong), n.Canonical →
      bigintToLong (some n) (some cell) = .ok
        (if -2 ^ 63 ≤ n.val ∧ n.val < 2 ^ 63 then 0 else ERANGE,
          some (BitVec.ofInt 64 n.val))) :=
  ⟨fun r h => canonical_of_built h r rfl, fun _ h => trim_ok h, fun _ cell h => bigintToLong_eq h cell⟩

/-- -1, its negation 1, and 2 ^ 64 - 1, which keeps a word of padding. -/
theorem bigint_canonical_minusOne :
    ({ padChunk := 0, chunks := [1] } : Bigint).Canonical ∧
    (∃ m, bigintIdentifyPadChunkAndTrim
        (some { padChunk := 0, chunks := [BitVec.allOnes 64, 0] }) = .ok (some m) ∧
      m.Canonical ∧ m.val = signed [BitVec.allOnes 64, 0]) ∧
    bigintToLong (some { padChunk := BitVec.allOnes 64, chunks := [BitVec.allOnes 64] }) (some 0)
      = .ok (0, some (BitVec.allOnes 64)) := by
  have hrun : (bigintFromLong (BitVec.allOnes 64)).run []
      = .ok (some { padChunk := BitVec.allOnes 64, chunks := [BitVec.allOnes 64] }, []) := by
    decide
  have hneg :
      (bigintNegate (some { padChunk := BitVec.allOnes 64, chunks := [BitVec.allOnes 64] })).run
      [] = .ok (some { padChunk := 0, chunks := [1] }, []) := by
    decide
  refine ⟨bigint_canonical.1 _ (.negate (.fromLong hrun) hneg),
    bigint_canonical.2.1 _ (by simp), ?_⟩
  rw [bigint_canonical.2.2 _ 0 (bigint_canonical.1 _ (.fromLong hrun))]
  decide

end Jccl
