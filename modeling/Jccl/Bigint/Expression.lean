/-
# `Jccl.Bigint.Expression` — expressions over the operators of `bigint.h`

A caller composes the operators to expressions.  Without shifts their meaning
is that of `Jccl.Lib.Width`: every operator works on as many chunks as its
wider operand has, and trims the result to what the integer needs.  So chunks
are only ever lost on the way, and a sum that needs one more than its operands
wraps, whatever the width that the expression as a whole would need.  On
longs all of it is the arithmetic of the machine, the carry included.
-/
import Jccl.Bigint.Bitwise
import Jccl.Lib.Width

namespace Jccl

open Words

/-! ## Expressions -/

/-- `bigint_copy`, `bigint_not`, `bigint_negate` and `bigint_abs`. -/
inductive UnaryOp where
  | copy
  | not
  | negate
  | abs
deriving DecidableEq, Repr

/-- `bigint_and`, `bigint_or`, `bigint_xor`, `bigint_add` and `bigint_subtract`. -/
inductive BinaryOp where
  | and
  | or
  | xor
  | add
  | subtract
deriving DecidableEq, Repr

/-- The leaves are bigints at hand, or NULL, and longs that are converted. -/
inductive BigintExpr where
  | value (n : Option Bigint)
  | fromLong (x : ULong)
  | unary (op : UnaryOp) (a : BigintExpr)
  | binary (op : BinaryOp) (a b : BigintExpr)

def UnaryOp.call : UnaryOp → Option Bigint → AllocM (Option Bigint)
  | copy => bigintCopy
  | not => bigintNot
  | negate => bigintNegate
  | abs => bigintAbs

def BinaryOp.call : BinaryOp → Option Bigint → Option Bigint → AllocM (Option Bigint)
  | and => bigintAnd
  | or => bigintOr
  | xor => bigintXor
  | add => bigintAdd
  | subtract => bigintSubtract

/-- The calls, the operands of each before it and the left one first. -/
def BigintExpr.run : BigintExpr → AllocM (Option Bigint)
  | value n => pure n
  | fromLong x => bigintFromLong x
  | unary op a => a.run >>= op.call
  | binary op a b => a.run >>= fun x => b.run >>= op.call x

/-! ## What they mean -/

/-- On the integers, with the width of the operand. -/
def UnaryOp.wrapped : UnaryOp → Int → Int
  | copy => id
  | not => fun v => -v - 1
  | negate => wrapNeg 64
  | abs => wrapAbs 64

def BinaryOp.wrapped : BinaryOp → Int → Int → Int
  | and => Int.land
  | or => Int.lor
  | xor => Int.xor
  | add => wrapAdd 64
  | subtract => wrapSub 64

/-- On the integers. -/
def UnaryOp.exact : UnaryOp → Int → Int
  | copy => id
  | not => fun v => -v - 1
  | negate => fun v => -v
  | abs => fun v => |v|

def BinaryOp.exact : BinaryOp → Int → Int → Int
  | and => Int.land
  | or => Int.lor
  | xor => Int.xor
  | add => fun u v => u + v
  | subtract => fun u v => u - v

/-- On the words of the machine. -/
def UnaryOp.word : UnaryOp → ULong → ULong
  | copy => id
  | not => fun x => ~~~x
  | negate => fun x => -x
  | abs => fun x => if x.msb then -x else x

def BinaryOp.word : BinaryOp → ULong → ULong → ULong
  | and => fun x y => x &&& y
  | or => fun x y => x ||| y
  | xor => fun x y => x ^^^ y
  | add => fun x y => x + y
  | subtract => fun x y => x - y

/-- The result does not need more chunks than the operands have. -/
def UnaryOp.Fits : UnaryOp → Int → Prop
  | copy, _ => True
  | not, _ => True
  | negate, v => Words.Fits 64 (wordsOf 64 v) (-v)
  | abs, v => Words.Fits 64 (wordsOf 64 v) |v|

def BinaryOp.Fits : BinaryOp → Int → Int → Prop
  | and, _, _ => True
  | or, _, _ => True
  | xor, _, _ => True
  | add, u, v => Words.Fits 64 (widest 64 u v) (u + v)
  | subtract, u, v =>
      Words.Fits 64 (wordsOf 64 v) (-v) ∧ Words.Fits 64 (widest 64 u (-v)) (u - v)

namespace BigintExpr

/-- The integer that the calls compute, or nothing if an operand is NULL. -/
def wrapped : BigintExpr → Option Int
  | value n => n.map Bigint.val
  | fromLong x => some x.toInt
  | unary op a => a.wrapped.map op.wrapped
  | binary op a b => Option.map₂ op.wrapped a.wrapped b.wrapped

def exact : BigintExpr → Option Int
  | value n => n.map Bigint.val
  | fromLong x => some x.toInt
  | unary op a => a.exact.map op.exact
  | binary op a b => Option.map₂ op.exact a.exact b.exact

/-- No operator of the expression comes to an integer that is too wide. -/
def Exact : BigintExpr → Prop
  | value _ => True
  | fromLong _ => True
  | unary op a => a.Exact ∧ ∀ v ∈ a.exact, op.Fits v
  | binary op a b => a.Exact ∧ b.Exact ∧ ∀ u ∈ a.exact, ∀ v ∈ b.exact, op.Fits u v

/-- The chunks of the widest leaf. -/
def widest : BigintExpr → Nat
  | value none => 0
  | value (some n) => n.chunks.length
  | fromLong _ => 1
  | unary _ a => a.widest
  | binary _ a b => max a.widest b.widest

/-- The bigints at hand. -/
def operands : BigintExpr → List Bigint
  | value n => n.toList
  | fromLong _ => []
  | unary _ a => a.operands
  | binary _ a b => a.operands ++ b.operands

/-- Every leaf is a long. -/
def IsLong : BigintExpr → Prop
  | value n => ∃ x, n = some { padChunk := fill x.msb, chunks := [x] }
  | fromLong _ => True
  | unary _ a => a.IsLong
  | binary _ a b => a.IsLong ∧ b.IsLong

/-- The word that the machine would compute from them. -/
def word : BigintExpr → ULong
  | value none => 0
  | value (some n) => n.chunks.headD 0
  | fromLong x => x
  | unary op a => op.word a.word
  | binary op a b => op.word a.word b.word

end BigintExpr

/-! ## One call -/

section Call

variable {a b : Bigint} {v : Int} {x y : ULong}

theorem Bigint.Canonical.wordsOf_val (ha : a.Canonical) : wordsOf 64 a.val = a.chunks.length :=
  wordsOf_eq word_pos (List.length_pos_iff.mpr ha.ne_nil) fun _ hm => ha.length_le_iff hm

theorem Bigint.Canonical.maxchunk_eq (ha : a.Canonical) (hb : b.Canonical) :
    maxchunk a b = Words.widest 64 a.val b.val := by
  rw [maxchunk, Words.widest, ha.wordsOf_val, hb.wordsOf_val]

theorem Bigint.Canonical.mostNegative_eq (ha : a.Canonical) :
    a.mostNegative = -2 ^ (64 * wordsOf 64 a.val - 1) := by
  rw [Bigint.mostNegative, ha.wordsOf_val]

/-- The run returns the canonical bigint of an integer. -/
def ReturnsVal (m : AllocM (Option Bigint)) (v : Int) : Prop :=
  ∃ r, m.run [] = .ok (some r, []) ∧ r.Canonical ∧ r.val = v

theorem bigintFromLong_val (x : ULong) : ReturnsVal (bigintFromLong x) x.toInt := by
  obtain ⟨r, htrim, hcan, hval⟩ :=
    trim_ok (n := { padChunk := 0, chunks := [x] }) (List.cons_ne_nil x [])
  refine ⟨r, ?_, hcan, hval.trans (signed_singleton x)⟩
  have hset : ({ padChunk := 0, chunks := [0] } : Bigint).setChunk 0 x
      = .ok { padChunk := 0, chunks := [x] } := rfl
  have hone : (0 : Int) < 1 := Int.one_pos
  simp only [bigintFromLong, StateT.run_bind, bigintInit_run hone, granted_nil, if_true,
    Outcome.ok_bind, Int.toNat_one, List.replicate_one, AllocM.run_lift, hset, htrim]
  rfl

theorem UnaryOp.call_val (op : UnaryOp) (ha : a.Canonical) :
    ReturnsVal (op.call (some a)) (op.wrapped a.val) := by
  cases op with
  | copy => exact ⟨a, bigintCopy_run ha granted_nil, ha, rfl⟩
  | not => exact bigintNot_run ha granted_nil
  | negate =>
      obtain ⟨r, hrun, hcan, hval⟩ := bigintNegate_run ha granted_nil granted_nil
      refine ⟨r, hrun, hcan, hval.trans ?_⟩
      rw [ha.mostNegative_eq]
      exact (wrapNeg_eq word_pos a.val).symm
  | abs =>
      obtain ⟨r, hrun, hcan, hval⟩ := bigintAbs_run ha
      refine ⟨r, hrun, hcan, hval.trans ?_⟩
      rw [ha.mostNegative_eq]
      exact (wrapAbs_eq word_pos a.val).symm

theorem BinaryOp.call_val (op : BinaryOp) (ha : a.Canonical) (hb : b.Canonical) :
    ReturnsVal (op.call (some a) (some b)) (op.wrapped a.val b.val) := by
  cases op with
  | and => exact bigintAnd_run ha hb granted_nil
  | or => exact bigintOr_run ha hb granted_nil
  | xor => exact bigintXor_run ha hb granted_nil
  | add =>
      obtain ⟨r, hrun, hcan, hval⟩ := bigintAdd_run ha hb granted_nil
      refine ⟨r, hrun, hcan, hval.trans ?_⟩
      rw [ha.maxchunk_eq hb]
      rfl
  | subtract =>
      obtain ⟨minusB, r, hrun, hneg, hval, hcan, hval'⟩ := bigintSubtract_run ha hb
      have hminus : minusB.val = wrapNeg 64 b.val := by
        rw [hval, hb.mostNegative_eq, wrapNeg_eq word_pos]
      refine ⟨r, hrun, hcan, hval'.trans ?_⟩
      rw [ha.maxchunk_eq hneg, hminus]
      rfl

/-- No operator adds a chunk. -/
theorem UnaryOp.wordsOf_le (op : UnaryOp) (v : Int) : wordsOf 64 (op.wrapped v) ≤ wordsOf 64 v := by
  cases op with
  | copy => exact le_rfl
  | not => exact wordsOf_not word_pos v
  | negate => exact wordsOf_wrapNeg word_pos v
  | abs => exact wordsOf_wrapAbs word_pos v

theorem BinaryOp.wordsOf_le (op : BinaryOp) (u v : Int) :
    wordsOf 64 (op.wrapped u v) ≤ Words.widest 64 u v := by
  cases op with
  | and => exact wordsOf_land word_pos u v
  | or => exact wordsOf_lor word_pos u v
  | xor => exact wordsOf_xor word_pos u v
  | add => exact wordsOf_wrapAdd word_pos u v
  | subtract => exact wordsOf_wrapSub word_pos u v

theorem UnaryOp.wrapped_eq (op : UnaryOp) (h : op.Fits v) : op.wrapped v = op.exact v := by
  cases op with
  | copy => rfl
  | not => rfl
  | negate => exact wrapNeg_of_fits word_pos h
  | abs => exact wrapAbs_of_fits word_pos h

theorem BinaryOp.wrapped_eq (op : BinaryOp) {u : Int} (h : op.Fits u v) :
    op.wrapped u v = op.exact u v := by
  cases op with
  | and => rfl
  | or => rfl
  | xor => rfl
  | add => exact wrapAdd_of_fits word_pos h
  | subtract =>
      have hneg : wrapNeg 64 v = -v := wrapNeg_of_fits word_pos h.1
      show wrapAdd 64 u (wrapNeg 64 v) = u - v
      rw [hneg]
      exact wrapAdd_of_fits word_pos h.2

theorem UnaryOp.call_null (op : UnaryOp) : (op.call none).run [] = .ok (none, []) := by
  cases op <;> rfl

theorem BinaryOp.call_null (op : BinaryOp) (o o' : Option Bigint) (h : o = none ∨ o' = none) :
    (op.call o o').run [] = .ok (none, []) := by
  rcases h with rfl | rfl
  · cases op <;> rfl
  · cases op <;> cases o <;> rfl

end Call

/-! ## Whole expressions -/

namespace BigintExpr

/-- What is returned: the bigint of the integer, canonical and not wider than
the leaves, or NULL. -/
def Returned (e : BigintExpr) (o : Option Bigint) : Prop :=
  o.map Bigint.val = e.wrapped ∧ ∀ r, o = some r → r.Canonical ∧ r.chunks.length ≤ e.widest

theorem returned_null {e : BigintExpr} (h : e.wrapped = none) : e.Returned none :=
  ⟨h.symm, nofun⟩

theorem run_ok (e : BigintExpr) (h : ∀ n ∈ e.operands, n.Canonical) :
    ∃ o, e.run.run [] = .ok (o, []) ∧ e.Returned o := by
  induction e with
  | value n =>
      refine ⟨n, rfl, rfl, ?_⟩
      rintro r rfl
      exact ⟨h r (List.mem_singleton.mpr rfl), le_rfl⟩
  | fromLong x =>
      obtain ⟨r, hrun, hcan, hval⟩ := bigintFromLong_val x
      refine ⟨some r, hrun, congrArg some hval, ?_⟩
      rintro _ ⟨⟩
      refine ⟨hcan, ?_⟩
      rw [← hcan.wordsOf_val, hval]
      refine (wordsOf_le_iff word_pos Nat.one_pos).mpr ?_
      have hfits := fits_signed word_pos (List.cons_ne_nil x [])
      rwa [signed_singleton] at hfits
  | unary op a ih =>
      obtain ⟨o, hrun, hval, hret⟩ := ih h
      have hcall : (unary op a).run.run [] = (op.call o).run [] := by
        rw [run, StateT.run_bind, hrun, Outcome.ok_bind]
      rw [hcall]
      cases o with
      | none =>
          refine ⟨none, op.call_null, returned_null ?_⟩
          rw [wrapped, ← hval]
          rfl
      | some n =>
          obtain ⟨hcan, hle⟩ := hret n rfl
          obtain ⟨r, hrun', hcan', hval'⟩ := op.call_val hcan
          refine ⟨some r, hrun', ?_, ?_⟩
          · rw [wrapped, ← hval]
            exact congrArg some hval'
          · rintro _ ⟨⟩
            refine ⟨hcan', le_trans ?_ hle⟩
            rw [← hcan.wordsOf_val, ← hcan'.wordsOf_val, hval']
            exact op.wordsOf_le n.val
  | binary op a b iha ihb =>
      obtain ⟨o, hrun, hval, hret⟩ := iha fun n hn => h n (List.mem_append_left _ hn)
      obtain ⟨o', hrun', hval', hret'⟩ := ihb fun n hn => h n (List.mem_append_right _ hn)
      have hcall : (binary op a b).run.run [] = (op.call o o').run [] := by
        rw [run, StateT.run_bind, hrun, Outcome.ok_bind, StateT.run_bind, hrun', Outcome.ok_bind]
      rw [hcall]
      cases o with
      | none =>
          refine ⟨none, op.call_null none o' (.inl rfl), returned_null ?_⟩
          rw [wrapped, ← hval]
          rfl
      | some n =>
          cases o' with
          | none =>
              refine ⟨none, op.call_null (some n) none (.inr rfl), returned_null ?_⟩
              rw [wrapped, ← hval']
              exact Option.map₂_none_right ..
          | some m =>
              obtain ⟨hcan, hle⟩ := hret n rfl
              obtain ⟨hcan', hle'⟩ := hret' m rfl
              obtain ⟨r, hcalled, hcanr, hvalr⟩ := op.call_val hcan hcan'
              refine ⟨some r, hcalled, ?_, ?_⟩
              · rw [wrapped, ← hval, ← hval']
                exact congrArg some hvalr
              · rintro _ ⟨⟩
                refine ⟨hcanr, le_trans ?_ (max_le_max hle hle')⟩
                rw [← hcan.wordsOf_val, ← hcan'.wordsOf_val, ← hcanr.wordsOf_val, hvalr]
                exact op.wordsOf_le n.val m.val

theorem wrapped_eq_exact (e : BigintExpr) (h : e.Exact) : e.wrapped = e.exact := by
  induction e with
  | value n => rfl
  | fromLong x => rfl
  | unary op a ih =>
      rw [wrapped, exact, ih h.1]
      exact Option.map_congr fun v hv => op.wrapped_eq (h.2 v hv)
  | binary op a b iha ihb =>
      rw [wrapped, exact, iha h.1, ihb h.2.1]
      cases ha : a.exact with
      | none => rfl
      | some u =>
          cases hb : b.exact with
          | none => rfl
          | some v => exact congrArg some (op.wrapped_eq (h.2.2 u ha v hb))

/-- The result of an expression is determined by the integer that it means. -/
theorem run_eq_iff (e e' : BigintExpr) (h : ∀ n ∈ e.operands, n.Canonical)
    (h' : ∀ n ∈ e'.operands, n.Canonical) :
    e.run.run [] = e'.run.run [] ↔ e.wrapped = e'.wrapped := by
  obtain ⟨o, hrun, hval, hret⟩ := e.run_ok h
  obtain ⟨o', hrun', hval', hret'⟩ := e'.run_ok h'
  rw [hrun, hrun', ← hval, ← hval']
  constructor
  · intro heq
    cases heq
    rfl
  · intro heq
    cases o with
    | none =>
        cases o' with
        | none => rfl
        | some m => cases heq
    | some n =>
        cases o' with
        | none => cases heq
        | some m =>
            obtain rfl := (hret n rfl).1.ext (hret' m rfl).1 (Option.some.inj heq)
            rfl

end BigintExpr

/-- An expression without shifts computes the integer of the arithmetic on as
many chunks as each pair of operands has, never needs more of them than its
widest leaf, and is exact where no operator comes to an integer that is too
wide for its operands.  Two expressions return the same just if they mean the
same in that arithmetic. -/
theorem bigintExpr_run (e e' : BigintExpr) (h : ∀ n ∈ e.operands, n.Canonical)
    (h' : ∀ n ∈ e'.operands, n.Canonical) :
    (∃ o, e.run.run [] = .ok (o, []) ∧ e.Returned o ∧ (e.Exact → o.map Bigint.val = e.exact)) ∧
      (e.run.run [] = e'.run.run [] ↔ e.wrapped = e'.wrapped) := by
  obtain ⟨o, hrun, hret⟩ := e.run_ok h
  exact ⟨⟨o, hrun, hret, fun hexact => hret.1.trans (e.wrapped_eq_exact hexact)⟩,
    e.run_eq_iff e' h h'⟩

/-- `LONG_MAX + 1` is not exact, and the same as `LONG_MIN`. -/
theorem bigintExpr_run_longMax_one :
    (BigintExpr.binary .add (.value (some bigintLongMax)) (.fromLong 1)).run.run []
      = (BigintExpr.value (some bigintLongMin)).run.run [] := by
  refine (bigintExpr_run _ _ ?_ ?_).2.mpr (by decide)
  · intro n hn
    rw [List.mem_singleton.mp hn]
    decide
  · intro n hn
    rw [List.mem_singleton.mp hn]
    decide

/-! ## Longs -/

section Long

variable {x y : ULong}

theorem wordsOf_toInt (x : ULong) : wordsOf 64 x.toInt = 1 := by
  refine le_antisymm ((wordsOf_le_iff word_pos Nat.one_pos).mpr ?_) (wordsOf_pos word_pos _)
  have hfits := fits_signed word_pos (List.cons_ne_nil x [])
  rwa [signed_singleton] at hfits

theorem widest_toInt (x y : ULong) : Words.widest 64 x.toInt y.toInt = 1 := by
  rw [Words.widest, wordsOf_toInt, wordsOf_toInt, max_self]

theorem toInt_op {f : Bool → Bool → Bool} {op : ULong → ULong → ULong} {v : Int}
    (hop : ∀ x y j, j < 64 → (op x y).getLsbD j = f (x.getLsbD j) (y.getLsbD j))
    (hv : ∀ i, v.testBit i = f (x.toInt.testBit i) (y.toInt.testBit i)) : v = (op x y).toInt := by
  refine eq_of_testBit fun i => ?_
  have hlen : [x].length = [y].length := rfl
  have hzip := testBit_signed_zipWith word_pos hlen (List.cons_ne_nil x []) hop i
  rw [signed_singleton x, signed_singleton y] at hzip
  rw [hv, ← hzip]
  exact congrArg (Int.testBit · i) (signed_singleton (op x y))

theorem wrapNeg_toInt (x : ULong) : wrapNeg 64 x.toInt = (-x).toInt := by
  rw [wrapNeg, wordsOf_toInt, BitVec.toInt_neg]

theorem wrapAdd_toInt (x y : ULong) : wrapAdd 64 x.toInt y.toInt = (x + y).toInt := by
  rw [wrapAdd, widest_toInt, BitVec.toInt_add]

theorem UnaryOp.wrapped_toInt (op : UnaryOp) (x : ULong) :
    op.wrapped x.toInt = (op.word x).toInt := by
  cases op with
  | copy => rfl
  | not =>
      have hnot := signed_map_not word_pos (List.cons_ne_nil x [])
      rw [List.map_cons, List.map_nil, signed_singleton, signed_singleton] at hnot
      exact hnot.symm
  | negate => exact wrapNeg_toInt x
  | abs =>
      show wrapAbs 64 x.toInt = (if x.msb then -x else x).toInt
      have hmsb : x.toInt < 0 ↔ x.msb = true := by
        have hneg := @signed_neg_iff _ [x]
        rwa [signed_singleton] at hneg
      rw [wrapAbs]
      by_cases hlt : x.toInt < 0
      · rw [if_pos hlt, if_pos (hmsb.mp hlt), wrapNeg_toInt]
      · rw [if_neg hlt, if_neg fun hneg => hlt (hmsb.mpr hneg)]

theorem BinaryOp.wrapped_toInt (op : BinaryOp) (x y : ULong) :
    op.wrapped x.toInt y.toInt = (op.word x y).toInt := by
  cases op with
  | and => exact toInt_op (fun _ _ _ _ => BitVec.getLsbD_and) fun i => Int.testBit_land _ _ i
  | or => exact toInt_op (fun _ _ _ _ => BitVec.getLsbD_or) fun i => Int.testBit_lor _ _ i
  | xor => exact toInt_op (fun _ _ _ _ => BitVec.getLsbD_xor) fun i => Int.testBit_lxor _ _ i
  | add => exact wrapAdd_toInt x y
  | subtract =>
      show wrapAdd 64 x.toInt (wrapNeg 64 y.toInt) = (x - y).toInt
      rw [wrapNeg_toInt, wrapAdd_toInt, BitVec.sub_eq_add_neg]

theorem BigintExpr.wrapped_word (e : BigintExpr) (h : e.IsLong) :
    e.wrapped = some e.word.toInt ∧ ∀ n ∈ e.operands, n.Canonical := by
  induction e with
  | value n =>
      obtain ⟨x, rfl⟩ := h
      have hcan : ({ padChunk := fill x.msb, chunks := [x] } : Bigint).Canonical :=
        ⟨le_rfl, rfl, fun us hus _ => List.length_pos_iff.mpr hus⟩
      refine ⟨congrArg some (hcan.val_eq.trans (signed_singleton x)), fun n hn => ?_⟩
      rw [List.mem_singleton.mp hn]
      exact hcan
  | fromLong x => exact ⟨rfl, fun n hn => absurd hn List.not_mem_nil⟩
  | unary op a ih =>
      obtain ⟨hval, hcan⟩ := ih h
      refine ⟨?_, hcan⟩
      rw [wrapped, hval]
      exact congrArg some (op.wrapped_toInt a.word)
  | binary op a b iha ihb =>
      obtain ⟨hval, hcan⟩ := iha h.1
      obtain ⟨hval', hcan'⟩ := ihb h.2
      refine ⟨?_, fun n hn => (List.mem_append.mp hn).elim (hcan n) (hcan' n)⟩
      rw [wrapped, hval, hval']
      exact congrArg some (op.wrapped_toInt a.word b.word)

/-- Of longs every expression is the long that the machine computes. -/
theorem bigintExpr_long (e : BigintExpr) (h : e.IsLong) :
    e.run.run [] = (bigintFromLong e.word).run [] := by
  obtain ⟨hval, hcan⟩ := e.wrapped_word h
  exact (e.run_eq_iff (.fromLong e.word) hcan fun n hn => absurd hn List.not_mem_nil).mpr hval

/-- `|LONG_MIN|` and one more. -/
theorem bigintExpr_long_longMin :
    (BigintExpr.binary .add (.unary .abs (.value (some bigintLongMin))) (.fromLong 1)).run.run []
      = (bigintFromLong 0x8000000000000001).run [] :=
  bigintExpr_long _ ⟨⟨0x8000000000000000, rfl⟩, trivial⟩

end Long

/-! ## Laws -/

/-- Of the laws of integers these hold in spite of all wrapping: addition
commutes, zero is neutral, a number taken from itself or added to its negation
is zero, an absolute value is its own.  A number is the negation of its
negation but for one of each length. -/
theorem bigintExpr_laws {a b : Bigint} (ha : a.Canonical) (hb : b.Canonical) :
    (bigintAdd (some a) (some b)).run [] = (bigintAdd (some b) (some a)).run [] ∧
    (bigintFromLong 0 >>= bigintAdd (some a)).run [] = .ok (some a, []) ∧
    (bigintSubtract (some a) (some a)).run [] = (bigintFromLong 0).run [] ∧
    (bigintNegate (some a) >>= bigintAdd (some a)).run [] = (bigintFromLong 0).run [] ∧
    (bigintAbs (some a) >>= bigintAbs).run [] = (bigintAbs (some a)).run [] ∧
    ((bigintNegate (some a) >>= bigintNegate).run [] = .ok (some a, []) ↔
      ∀ m, 0 < m → a.val ≠ 2 ^ (64 * m - 1)) := by
  have hvalue : ∀ n : Bigint, n.Canonical →
      ∀ m ∈ (BigintExpr.value (some n)).operands, m.Canonical := by
    intro n hn m hm
    rwa [List.mem_singleton.mp hm]
  have hzero : ∀ m ∈ (BigintExpr.fromLong 0).operands, m.Canonical := nofun
  have hpair : ∀ {e e' : BigintExpr}, (∀ m ∈ e.operands, m.Canonical) →
      (∀ m ∈ e'.operands, m.Canonical) → ∀ m ∈ e.operands ++ e'.operands, m.Canonical :=
    fun h h' m hm => (List.mem_append.mp hm).elim (h m) (h' m)
  have hA := hvalue a ha
  have hB := hvalue b hb
  refine ⟨?_, ?_, ?_, ?_, ?_, ?_⟩
  · refine (BigintExpr.run_eq_iff (.binary .add (.value (some a)) (.value (some b)))
      (.binary .add (.value (some b)) (.value (some a))) (hpair hA hB) (hpair hB hA)).mpr ?_
    exact congrArg some (wrapAdd_comm a.val b.val)
  · refine (BigintExpr.run_eq_iff (.binary .add (.value (some a)) (.fromLong 0))
      (.value (some a)) (hpair hA hzero) hA).mpr ?_
    exact congrArg some (wrapAdd_zero word_pos a.val)
  · refine (BigintExpr.run_eq_iff (.binary .subtract (.value (some a)) (.value (some a)))
      (.fromLong 0) (hpair hA hA) hzero).mpr ?_
    exact congrArg some (wrapSub_self word_pos a.val)
  · refine (BigintExpr.run_eq_iff
      (.binary .add (.value (some a)) (.unary .negate (.value (some a))))
      (.fromLong 0) (hpair hA hA) hzero).mpr ?_
    exact congrArg some (wrapSub_self word_pos a.val)
  · refine (BigintExpr.run_eq_iff (.unary .abs (.unary .abs (.value (some a))))
      (.unary .abs (.value (some a))) hA hA).mpr ?_
    exact congrArg some (wrapAbs_wrapAbs word_pos a.val)
  · refine (BigintExpr.run_eq_iff (.unary .negate (.unary .negate (.value (some a))))
      (.value (some a)) hA hA).trans ?_
    exact Option.some_inj.trans (wrapNeg_wrapNeg word_pos a.val)

/-- `-(-2 ^ 63)`, with two chunks at first. -/
theorem bigintExpr_laws_wrap :
    (bigintNegate (some { padChunk := 0, chunks := [0x8000000000000000, 0] })
      >>= bigintNegate).run []
        ≠ .ok (some { padChunk := 0, chunks := [0x8000000000000000, 0] }, []) := by
  have hcan : ({ padChunk := 0, chunks := [0x8000000000000000, 0] } : Bigint).Canonical := by decide
  have hlaw := (bigintExpr_laws hcan hcan).2.2.2.2.2
  intro heq
  exact hlaw.mp heq 1 Nat.one_pos (by decide)

end Jccl
