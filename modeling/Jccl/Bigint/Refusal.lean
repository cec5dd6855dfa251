/-
# `Jccl.Bigint.Refusal` — operators without memory

Each function of `bigint.h` that builds a bigint asks for memory, once for
itself and once for each function it calls on the way.  All of them look at
what they got but for `bigint_not`, which writes to the chunks of its result
through a null pointer.  What is wrong with one request is wrong with those
of `bigint_negate`, which begins with a complement, and with all that negate.

The most negative counts are handed over from one shift to the other for
ever, and complemented each time; so of these every other request is one that
must not be refused before another is.
-/
import Jccl.Bigint.Handover
import Jccl.Lib.Refusal

namespace Jccl

/-! ## Runs that handle every refusal -/

/-- Whatever the answers of the allocator are. -/
def AlwaysHandles {α : Type} (m : AllocM (Option α)) : Prop := ∀ answers, HandlesRefusal m answers

section Always

variable {α β : Type}

theorem alwaysHandles_pure (o : Option α) : AlwaysHandles (pure o) := fun _ => handles_pure o

theorem alwaysHandles_ite {p : Prop} [Decidable p] {m m' : AllocM (Option α)}
    (hm : AlwaysHandles m) (hm' : AlwaysHandles m') : AlwaysHandles (if p then m else m') :=
  fun answers => handles_ite (hm answers) (hm' answers)

theorem alwaysHandles_lift {x : Outcome β} {f : β → AllocM (Option α)} (hx : Avoids .null x)
    (hf : ∀ b, AlwaysHandles (f b)) : AlwaysHandles ((liftM x : AllocM β) >>= f) :=
  fun answers => handles_lift_bind hx fun b _ => hf b answers

theorem alwaysHandles_trim (n : Option Bigint) :
    AlwaysHandles (liftM (bigintIdentifyPadChunkAndTrim n) : AllocM (Option Bigint)) :=
  fun _ => handles_lift (avoids_trim (.inl rfl) n)

/-- A request, and what is done with the block. -/
theorem alwaysHandles_init {k : Int} {f : Option Bigint → AllocM (Option Bigint)}
    (hnull : f none = pure none) (hf : ∀ n, AlwaysHandles (f (some n))) :
    AlwaysHandles (bigintInit k >>= f) := by
  intro answers
  refine HandlesRefusal.bind ?_ (fun _ _ => hnull) fun o j _ => ?_
  · exact handles_lift_bind (avoids_assert (.inl rfl) _) fun _ _ =>
      handles_allocates _ (handles_pure _)
  · cases o with
    | none =>
        rw [hnull]
        exact handles_pure none
    | some n => exact hf n _

end Always

/-! ## The functions that look at what they got -/

theorem bigintFromLong_handles (x : ULong) : AlwaysHandles (bigintFromLong x) :=
  alwaysHandles_init rfl fun _ => alwaysHandles_lift (avoids_setChunk (.inl rfl) _ _ _) fun _ =>
    alwaysHandles_trim _

theorem hexstringStep_avoids (s : List UInt8) (ns i : Nat) (st : Option (Bigint × ULong)) :
    Avoids .null (hexstringStep s ns i st) := by
  cases st with
  | none => exact avoids_ok none
  | some p =>
      rw [hexstringStep]
      split
      · exact avoids_error (by decide)
      · split
        · exact avoids_ok none
        · exact (avoids_chunk (.inl rfl) _ _).bind fun _ =>
            (avoids_setChunk (.inl rfl) _ _ _).bind fun _ => avoids_ok _

theorem hexstringExtend_avoids (ns : Nat) (n : Bigint) (nibble : ULong) :
    Avoids .null (hexstringExtend ns n nibble) :=
  avoids_ite ((avoids_chunk (.inl rfl) _ _).bind fun _ => avoids_setChunk (.inl rfl) _ _ _)
    (avoids_ok n)

theorem strlen_avoids (s : List UInt8) : Avoids .null (strlen s) := by
  rw [strlen]
  split
  · exact avoids_ok _
  · exact avoids_error (by decide)

theorem bigintFromMsbFirstHexstring_handles (s : Option (List UInt8)) (ns : Nat) :
    AlwaysHandles (bigintFromMsbFirstHexstring s ns) := by
  cases s with
  | none => exact alwaysHandles_pure none
  | some s =>
      -- the length is given, or found out first
      have hlength : ∀ f : Nat → AllocM (Option Bigint), (∀ ns, AlwaysHandles (f ns)) →
          AlwaysHandles (if ns = 0 then liftM (strlen s) >>= f else pure ns >>= f) :=
        fun f hf => alwaysHandles_ite (alwaysHandles_lift (strlen_avoids s) hf) (hf ns)
      refine hlength _ fun ns => ?_
      have hcount : Avoids .null (hexstringNchunk ns) :=
        avoids_ite (avoids_checkInt (.inl rfl) _) (avoids_ok _)
      refine alwaysHandles_lift hcount fun k => alwaysHandles_init rfl fun n =>
        alwaysHandles_lift (avoids_forLoop (hexstringStep_avoids s ns) _ _) fun st => ?_
      cases st with
      | none => exact alwaysHandles_pure none
      | some p =>
          exact alwaysHandles_lift (hexstringExtend_avoids _ _ _) fun _ => alwaysHandles_trim _

theorem bigintCopy_handles (n : Bigint) : AlwaysHandles (bigintCopy (some n)) :=
  alwaysHandles_init rfl fun _ => alwaysHandles_pure _

theorem bigintBinop_handles (op : ULong → ULong → ULong) (a b : Bigint) :
    AlwaysHandles (bigintBinop op (some a) (some b)) :=
  alwaysHandles_init rfl fun _ =>
    alwaysHandles_lift (avoids_forLoop (fun _ _ => avoids_setChunk (.inl rfl) _ _ _) _ _) fun _ =>
    alwaysHandles_trim _

theorem bigintAdd_handles (a b : Bigint) : AlwaysHandles (bigintAdd (some a) (some b)) :=
  alwaysHandles_init rfl fun _ =>
    alwaysHandles_lift (avoids_forLoop (avoids_addStep (.inl rfl) a b) _ _) fun _ =>
    alwaysHandles_trim _

theorem shiftLeftByPositive_handles (a b : Bigint) : AlwaysHandles (shiftLeftByPositive a b) := by
  refine alwaysHandles_ite (alwaysHandles_pure none) ?_
  refine alwaysHandles_lift (avoids_chunk (.inl rfl) _ _) fun _ =>
    alwaysHandles_lift (avoids_checkInt (.inl rfl) _) fun _ =>
    alwaysHandles_lift (avoids_checkInt (.inl rfl) _) fun _ => alwaysHandles_init rfl fun _ => ?_
  exact alwaysHandles_lift (avoids_forLoop (avoids_shiftLeftStep (.inl rfl) a _ _) _ _) fun _ =>
    alwaysHandles_lift (avoids_shiftLeft (.inl rfl) _ _) fun _ =>
    alwaysHandles_lift (avoids_setChunk (.inl rfl) _ _ _) fun _ => alwaysHandles_trim _

theorem shiftRightFrom_handles (a n : Bigint) (p d k : Int) :
    AlwaysHandles (shiftRightFrom a p d k (some n)) := by
  refine alwaysHandles_ite ?_ ?_
  · exact alwaysHandles_lift (avoids_setChunk (.inl rfl) _ _ _) fun _ => alwaysHandles_trim _
  · exact alwaysHandles_lift (avoids_shiftLeft (.inl rfl) _ _) fun _ =>
      alwaysHandles_lift (avoids_forLoop (avoids_shiftRightStep (.inl rfl) a _ _) _ _) fun _ =>
      alwaysHandles_trim _

theorem shiftRightByPositive_handles (a b : Bigint) :
    AlwaysHandles (shiftRightByPositive a b) := by
  rw [← shiftRightWith_bigintInit]
  unfold shiftRightWith
  refine alwaysHandles_lift (avoids_chunk (.inl rfl) _ _) fun count => ?_
  -- with the number of chunks, wherever it comes from
  have hinto : ∀ p d k, AlwaysHandles (bigintInit k >>= shiftRightFrom a p d k) :=
    fun p d k => alwaysHandles_init rfl fun n => shiftRightFrom_handles a n p d k
  refine alwaysHandles_ite ?_ ?_
  · exact hinto _ _ 1
  · exact alwaysHandles_lift (avoids_checkInt (.inl rfl) _) (hinto _ _)

/-! ## The complement, and what begins with one -/

section Complement

variable {a b : Bigint} {answers : List Bool}

theorem bigintNot_handles (hb : b.Canonical) (hg : granted answers = true) :
    HandlesRefusal (bigintNot (some b)) answers := by
  obtain ⟨r, -, hcan, hval⟩ := bigintNot_run hb granted_nil
  have hasks : Asks (bigintNot (some b)) answers 1 (.ok (some r)) := by
    intro l hl
    have hl' : granted l = true := (hl 0 Nat.one_pos).trans hg
    obtain ⟨r', hrun, hcan', hval'⟩ := bigintNot_run hb hl'
    obtain rfl := hcan'.ext hcan (hval'.trans hval.symm)
    rw [hrun, List.drop_one]
    rfl
  exact hasks.handles (avoids_ok _) fun h => absurd h (not_refused_one hg)

theorem bigintNegate_handles (hb : b.Canonical) (hg : granted answers = true) :
    HandlesRefusal (bigintNegate (some b)) answers := by
  refine (bigintNot_handles hb hg).bind (fun _ _ => rfl) fun o k _ => ?_
  cases o with
  | none => exact handles_pure none
  | some notB => exact bigintAdd_handles notB bigintOne _

theorem bigintNegate_refused (hb : b.Canonical) (hg : granted answers = false) :
    (bigintNegate (some b)).run answers = .error .null := by
  rw [bigintNegate, StateT.run_bind, bigintNot_refused hb hg]
  rfl

theorem bigintSubtract_handles (hb : b.Canonical) (hg : granted answers = true) (a : Bigint) :
    HandlesRefusal (bigintSubtract (some a) (some b)) answers := by
  refine (bigintNegate_handles hb hg).bind (fun _ _ => rfl) fun o k _ => ?_
  cases o with
  | none => exact handles_pure none
  | some minusB => exact bigintAdd_handles a minusB _

theorem bigintSubtract_refused (hb : b.Canonical) (hg : granted answers = false) (a : Bigint) :
    (bigintSubtract (some a) (some b)).run answers = .error .null := by
  rw [bigintSubtract, StateT.run_bind, bigintNegate_refused hb hg]
  rfl

end Complement

/-! ## The shifts by a negative count -/

/-- Whether a shift by `b` comes to complement a count `j` times and once more. -/
def NegatesCount (b : Bigint) (j : Nat) : Prop :=
  bigintMsb b (-1) = 1 ∧ (j = 0 ∨ b.val = b.mostNegative)

section Shifts

variable {b : Bigint}

/-- A count that is NULL. -/
theorem bigintShift_null_handles (a : Bigint) (depth : Nat) (answers : List Bool) :
    HandlesRefusal (bigintShiftLeft depth (some a) none) answers ∧
      HandlesRefusal (bigintShiftRight depth (some a) none) answers := by
  cases depth with
  | zero =>
      rw [bigintShiftLeft, bigintShiftRight]
      exact ⟨handles_throw (by decide), handles_throw (by decide)⟩
  | succ depth =>
      simp only [bigintShiftLeft, bigintShiftRight]
      exact ⟨handles_pure none, handles_pure none⟩

/-- Only the most negative count is handed over again, and then the same is
wanted of the answers that are left. -/
theorem negatesCount_handOver {c : Bigint} (hb : b.Canonical) (hc : c.Canonical)
    (hmsb : bigintMsb b (-1) = 1)
    (hval : c.val = if b.val = b.mostNegative then b.val else -b.val) {answers : List Bool}
    (hg : granted answers = true) (hg' : granted answers.tail = true)
    (hgranted : ∀ j, NegatesCount b j → (∀ i < 2 * j, answerAt answers i = true) →
      answerAt answers (2 * j) = true) :
    ∀ j, NegatesCount c j → (∀ i < 2 * j, answerAt (answers.drop 2) i = true) →
      answerAt (answers.drop 2) (2 * j) = true := by
  intro j hj hbefore
  have hneg := (bigintMsb_padding_eq_one hb).mp hmsb
  have hneg' := (bigintMsb_padding_eq_one hc).mp hj.1
  have hmin : b.val = b.mostNegative := by
    by_contra hne
    rw [if_neg hne] at hval
    omega
  have hall : ∀ i < 2 * (j + 1), answerAt answers i = true := by
    intro i hi
    rcases i with _ | _ | i
    · exact hg
    · rwa [answerAt, List.drop_one]
    · rw [Nat.add_assoc, Nat.add_comm i, ← answerAt_drop]
      exact hbefore i (by omega)
  have hnext := hgranted (j + 1) ⟨hmsb, .inr hmin⟩ hall
  rwa [answerAt_drop, Nat.add_comm 2]

/-- With a depth that is enough for the requests that are refused. -/
theorem bigintShift_handles (a : Bigint) (hb : b.Canonical) {depth : Nat} {answers : List Bool}
    (hdepth : ∀ i, answerAt answers i = false → i / 2 + 2 ≤ depth)
    (hgranted : ∀ j, NegatesCount b j → (∀ i < 2 * j, answerAt answers i = true) →
      answerAt answers (2 * j) = true) :
    HandlesRefusal (bigintShiftLeft depth (some a) (some b)) answers ∧
      HandlesRefusal (bigintShiftRight depth (some a) (some b)) answers := by
  induction depth generalizing b answers with
  | zero =>
      rw [bigintShiftLeft, bigintShiftRight]
      exact ⟨handles_throw (by decide), handles_throw (by decide)⟩
  | succ depth ih =>
      by_cases hmsb : bigintMsb b (-1) = 1
      swap
      · rw [bigintShiftLeft, bigintShiftRight, if_neg hmsb, if_neg hmsb]
        exact ⟨shiftLeftByPositive_handles a b answers, shiftRightByPositive_handles a b answers⟩
      have hg : granted answers = true :=
        hgranted 0 ⟨hmsb, .inl rfl⟩ fun i hi => absurd hi (Nat.not_lt_zero i)
      have hnegate := bigintNegate_handles hb hg
      -- where a request is refused, there is depth left for the NULL that comes of it
      have hnull : ∀ k, Refused answers k → bigintShiftLeft depth (some a) none = pure none ∧
          bigintShiftRight depth (some a) none = pure none := by
        rintro k ⟨i, -, hi⟩
        obtain ⟨depth, rfl⟩ : ∃ d, depth = d + 1 :=
          Nat.exists_eq_succ_of_ne_zero (by have := hdepth i hi; omega)
        simp only [bigintShiftLeft, bigintShiftRight, and_self]
      have hrest : ∀ o k, Asks (bigintNegate (some b)) answers k (.ok o) →
          HandlesRefusal (bigintShiftLeft depth (some a) o) (answers.drop k) ∧
          HandlesRefusal (bigintShiftRight depth (some a) o) (answers.drop k) := by
        intro o k hasks
        cases o with
        | none => exact bigintShift_null_handles a depth _
        | some c =>
            obtain ⟨hc, hval, hg', htail⟩ := bigintNegate_inv hb hasks.run
            rw [htail, ← List.drop_one, ← List.drop_one, List.drop_drop]
            refine ih hc (fun i hi => ?_) (negatesCount_handOver hb hc hmsb hval hg hg' hgranted)
            rw [answerAt_drop] at hi
            have hle := hdepth _ hi
            omega
      rw [bigintShiftLeft, bigintShiftRight, if_pos hmsb, if_pos hmsb]
      exact ⟨hnegate.bind (fun k hk => (hnull k hk).2) fun o k ho => (hrest o k ho).2,
        hnegate.bind (fun k hk => (hnull k hk).1) fun o k ho => (hrest o k ho).1⟩

/-- A complement that gets no memory ends the shift. -/
theorem bigintShift_refused (a : Bigint) (hb : b.Canonical) {j : Nat} (hj : NegatesCount b j)
    {depth : Nat} (hdepth : j < depth) {answers : List Bool}
    (hbefore : ∀ i < 2 * j, answerAt answers i = true)
    (hrefused : answerAt answers (2 * j) = false) :
    (bigintShiftLeft depth (some a) (some b)).run answers = .error .null ∧
      (bigintShiftRight depth (some a) (some b)).run answers = .error .null := by
  obtain ⟨hmsb, hmin⟩ := hj
  induction j generalizing depth answers with
  | zero =>
      obtain ⟨depth, rfl⟩ := Nat.exists_eq_succ_of_ne_zero (Nat.ne_zero_of_lt hdepth)
      have hg : granted answers = false := hrefused
      rw [bigintShiftLeft, bigintShiftRight, if_pos hmsb, if_pos hmsb, StateT.run_bind,
        StateT.run_bind, bigintNegate_refused hb hg]
      exact ⟨rfl, rfl⟩
  | succ j ih =>
      have hmin' : b.val = b.mostNegative := hmin.resolve_left (Nat.succ_ne_zero j)
      have hg : granted answers = true := hbefore 0 (by omega)
      have hg' : granted answers.tail = true := by
        rw [← List.drop_one]
        exact hbefore 1 (by omega)
      obtain ⟨r, hrun, hcan, hval⟩ := bigintNegate_run hb hg hg'
      rw [if_pos hmin'] at hval
      obtain rfl := hcan.ext hb hval
      obtain ⟨depth, rfl⟩ := Nat.exists_eq_succ_of_ne_zero (Nat.ne_zero_of_lt hdepth)
      rw [bigintShiftLeft, bigintShiftRight, if_pos hmsb, if_pos hmsb, StateT.run_bind,
        StateT.run_bind, hrun, ← List.drop_one, ← List.drop_one, List.drop_drop]
      refine And.symm (ih (by omega) (fun i hi => ?_) ?_ (.inr hmin'))
      · rw [answerAt_drop]
        exact hbefore _ (by omega)
      · rw [answerAt_drop, Nat.add_comm]
        exact hrefused

end Shifts

/-! ## Every operation -/

/-- The operations of `bigint.h` that build a bigint, with their operands. -/
inductive BigintOp where
  | fromLong (x : ULong)
  | fromMsbFirstHexstring (s : Option (List UInt8)) (ns : Nat)
  | copy (n : Bigint)
  | not (n : Bigint)
  | and (a b : Bigint)
  | or (a b : Bigint)
  | xor (a b : Bigint)
  | shiftLeft (a b : Bigint)
  | shiftRight (a b : Bigint)
  | negate (n : Bigint)
  | abs (n : Bigint)
  | add (a b : Bigint)
  | subtract (a b : Bigint)

namespace BigintOp

def operands : BigintOp → List Bigint
  | fromLong _ | fromMsbFirstHexstring _ _ => []
  | copy n | not n | negate n | abs n => [n]
  | and a b | or a b | xor a b | shiftLeft a b | shiftRight a b | add a b | subtract a b => [a, b]

/-- The call; the depth is that of the recursion of the shifts. -/
def run (depth : Nat) : BigintOp → AllocM (Option Bigint)
  | fromLong x => bigintFromLong x
  | fromMsbFirstHexstring s ns => bigintFromMsbFirstHexstring s ns
  | copy n => bigintCopy (some n)
  | not n => bigintNot (some n)
  | and a b => bigintAnd (some a) (some b)
  | or a b => bigintOr (some a) (some b)
  | xor a b => bigintXor (some a) (some b)
  | shiftLeft a b => bigintShiftLeft depth (some a) (some b)
  | shiftRight a b => bigintShiftRight depth (some a) (some b)
  | negate n => bigintNegate (some n)
  | abs n => bigintAbs (some n)
  | add a b => bigintAdd (some a) (some b)
  | subtract a b => bigintSubtract (some a) (some b)

/-- Whether the call can come to `bigint_not` after it came there `j` times. -/
def Complements : BigintOp → Nat → Prop
  | not _, j | negate _, j | subtract _ _, j => j = 0
  | abs n, j => bigintMsb n (-1) = 1 ∧ j = 0
  | shiftLeft _ b, j | shiftRight _ b, j => NegatesCount b j
  | _, _ => False

/-- Every refusal is handled, with a recursion that is deep enough to come to
the requests that are refused. -/
def Handles (op : BigintOp) (answers : List Bool) : Prop :=
  ∀ depth, answers.length + 2 ≤ depth → HandlesRefusal (op.run depth) answers

/-- A call of `bigint_not` makes one request, and what follows it another one
before the next: when the call comes to a complement, there is memory for it. -/
def ComplementsGranted (op : BigintOp) (answers : List Bool) : Prop :=
  ∀ j, op.Complements j → (∀ i < 2 * j, answerAt answers i = true) →
    answerAt answers (2 * j) = true

variable {op : BigintOp} {answers : List Bool}

theorem ComplementsGranted.first (h : op.ComplementsGranted answers) (hop : op.Complements 0) :
    granted answers = true := h 0 hop fun i hi => absurd hi (Nat.not_lt_zero i)

theorem ComplementsGranted.handles (hop : ∀ n ∈ op.operands, n.Canonical)
    (h : op.ComplementsGranted answers) : op.Handles answers := by
  intro depth hdepth
  have henough : ∀ i, answerAt answers i = false → i / 2 + 2 ≤ depth := by
    intro i hi
    have hlt := lt_of_answerAt hi
    omega
  cases op with
  | fromLong x => exact bigintFromLong_handles x answers
  | fromMsbFirstHexstring s ns => exact bigintFromMsbFirstHexstring_handles s ns answers
  | copy n => exact bigintCopy_handles n answers
  | not n => exact bigintNot_handles (hop n (by simp [operands])) (h.first rfl)
  | and a b => exact bigintBinop_handles _ a b answers
  | or a b => exact bigintBinop_handles _ a b answers
  | xor a b => exact bigintBinop_handles _ a b answers
  | shiftLeft a b => exact (bigintShift_handles a (hop b (by simp [operands])) henough h).1
  | shiftRight a b => exact (bigintShift_handles a (hop b (by simp [operands])) henough h).2
  | negate n => exact bigintNegate_handles (hop n (by simp [operands])) (h.first rfl)
  | abs n =>
      by_cases hneg : bigintMsb n (-1) = 1
      · have hnegate := bigintNegate_handles (hop n (by simp [operands])) (h.first ⟨hneg, rfl⟩)
        simpa only [run, bigintAbs, if_pos hneg] using hnegate
      · simpa only [run, bigintAbs, if_neg hneg] using bigintCopy_handles n answers
  | add a b => exact bigintAdd_handles a b answers
  | subtract a b => exact bigintSubtract_handles (hop b (by simp [operands])) (h.first rfl) a

/-- A complement that gets no memory ends the call. -/
theorem run_refused (hop : ∀ n ∈ op.operands, n.Canonical) {j : Nat} (hj : op.Complements j)
    {depth : Nat} (hdepth : j < depth) (hbefore : ∀ i < 2 * j, answerAt answers i = true)
    (hrefused : answerAt answers (2 * j) = false) : (op.run depth).run answers = .error .null := by
  cases op with
  | fromLong x => exact hj.elim
  | fromMsbFirstHexstring s ns => exact hj.elim
  | copy n => exact hj.elim
  | not n =>
      obtain rfl : j = 0 := hj
      exact bigintNot_refused (hop n (by simp [operands])) hrefused
  | and a b => exact hj.elim
  | or a b => exact hj.elim
  | xor a b => exact hj.elim
  | shiftLeft a b =>
      exact (bigintShift_refused a (hop b (by simp [operands])) hj hdepth hbefore hrefused).1
  | shiftRight a b =>
      exact (bigintShift_refused a (hop b (by simp [operands])) hj hdepth hbefore hrefused).2
  | negate n =>
      obtain rfl : j = 0 := hj
      exact bigintNegate_refused (hop n (by simp [operands])) hrefused
  | abs n =>
      obtain ⟨hneg, rfl⟩ : bigintMsb n (-1) = 1 ∧ j = 0 := hj
      simp only [run, bigintAbs, if_pos hneg]
      exact bigintNegate_refused (hop n (by simp [operands])) hrefused
  | add a b => exact hj.elim
  | subtract a b =>
      obtain rfl : j = 0 := hj
      exact bigintSubtract_refused (hop b (by simp [operands])) hrefused a

end BigintOp

/-- **When refusals are handled**: when there is memory for each complement
that the call comes to. -/
theorem bigintOp_handles_iff (op : BigintOp) (h : ∀ n ∈ op.operands, n.Canonical)
    (answers : List Bool) : op.Handles answers ↔ op.ComplementsGranted answers := by
  refine ⟨fun hhandles j hj hbefore => ?_, fun hgranted => hgranted.handles h⟩
  by_contra hrefused
  rw [Bool.not_eq_true] at hrefused
  have hlt := lt_of_answerAt hrefused
  refine (hhandles (answers.length + 2) le_rfl).run_ne_null ?_
  exact BigintOp.run_refused h hj (by omega) hbefore hrefused

/-- A difference, with memory for the complement and for nothing else. -/
theorem bigintOp_handles_iff_subtract :
    (BigintOp.subtract bigintOne bigintOne).Handles [true, false] := by
  refine (bigintOp_handles_iff (.subtract bigintOne bigintOne) (by decide) _).mpr ?_
  rintro j rfl -
  rfl

/-- The complement of 1, and the difference of 1 and 1, without memory. -/
theorem bigintNot_null :
    bigintOne.Canonical ∧ (bigintNot (some bigintOne)).run [false] = .error .null ∧
    (bigintSubtract (some bigintOne) (some bigintOne)).run [false] = .error .null ∧
    ¬ (BigintOp.not bigintOne).Handles [false] := by
  have hrun : (bigintNot (some bigintOne)).run [false] = .error .null := by decide
  refine ⟨by decide, hrun, by decide, fun h => ?_⟩
  exact (h 3 le_rfl).run_ne_null hrun

end Jccl
