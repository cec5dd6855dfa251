/-
# `Jccl.Bigint.Blocks` — the operators of `bigint.c` with their blocks

The functions of `Bigint.Defs` once more, over memory: an operand is a pointer,
each bigint that is built is a block, and what a function needs on the way it
destroys.  An iteration of a loop reads the operands and writes the result
where they are; what it computes is what it computes in `Bigint.Defs`.

The constant `bigint_one` is a block that nobody allocates or frees.
-/
import Jccl.Bigint.Defs
import Jccl.Lib.Refines

namespace Jccl

open BlockM

/-- `&bigint_one`. -/
def bigintOneAddr : Addr := 0

def bigintInitAt (nchunk : Int) : BlockM Bigint (Option Addr) := do
  assert (nchunk > 0)
  malloc { padChunk := 0, chunks := List.replicate nchunk.toNat 0 }

def bigintDestroyAt (n : Option Addr) : BlockM Bigint Unit := do
  if n ≠ none then free n

def bigintCopyAt (n : Option Addr) : BlockM Bigint (Option Addr) := do
  if n = none then return none
  let value ← load n
  let res ← bigintInitAt value.nchunk
  if res = none then return none
  let value ← load n
  store res { padChunk := value.padChunk, chunks := value.chunks }
  return res

/-- The block is to be made smaller in its place, which the allocator need not do. -/
def bigintIdentifyPadChunkAndTrimAt (n : Option Addr) : BlockM Bigint Unit := do
  if n = none then return
  let value ← load n
  let msb := bigintMsb value (value.nchunk - 1)
  store n { value with padChunk := padChunks msb }
  let value ← load n
  let i ← trimLoop value (value.nchunk - 1).toNat
  let i := if bigintMsb value i ≠ msb then i + 1 else i
  let newNchunk := i + 1
  if (newNchunk : Int) ≠ value.nchunk then
    assert ((newNchunk : Int) < value.nchunk)
    let newN ← shrink n { value with chunks := value.chunks.take newNchunk }
    assert (newN = n)

def bigintFromLongAt (x : ULong) : BlockM Bigint (Option Addr) := do
  let bigint ← bigintInitAt 1
  if bigint = none then return none
  update bigint fun value => do return (← value.setChunk 0 x, ())
  bigintIdentifyPadChunkAndTrimAt bigint
  return bigint

/-! ## Hexadecimal strings -/

/-- The state is `none` once the loop has jumped to `error`, otherwise the last nibble. -/
def hexstringStepAt (s : List UInt8) (ns : Nat) (n : Option Addr) (i : Nat) :
    Option ULong → BlockM Bigint (Option ULong)
  | none => return none
  | some nibble => do
      let value ← load n
      match ← hexstringStep s ns i (some (value, nibble)) with
      | none => return none
      | some (value, nibble) =>
          store n value
          return some nibble

def bigintFromMsbFirstHexstringAt (s : Option (List UInt8)) (ns : Nat) :
    BlockM Bigint (Option Addr) := do
  let some s := s | return none
  let ns ← if ns = 0 then strlen s else pure ns
  let nchunk ← hexstringNchunk ns
  let n ← bigintInitAt nchunk
  if n = none then
    bigintDestroyAt n
    return none
  match ← loop (hexstringStepAt s ns n) ns (some 0) with
  | none =>
      bigintDestroyAt n
      return none
  | some nibble =>
      update n fun value => do return (← hexstringExtend ns value nibble, ())
      bigintIdentifyPadChunkAndTrimAt n
      return n

/-! ## Bitwise operators and addition -/

/-- The result is written to without a test for NULL. -/
def bigintNotAt (n : Option Addr) : BlockM Bigint (Option Addr) := do
  if n = none then return none
  let value ← load n
  let res ← bigintInitAt value.nchunk
  loop (fun i _ => do
    let value ← load n
    update res fun r => do
      let chunk ← value.chunk i
      return (← r.setChunk i (~~~chunk), ())) value.chunks.length ()
  bigintIdentifyPadChunkAndTrimAt res
  return res

/-- The macro `BIGINT_BINOP(a, b, op)`. -/
def bigintBinopAt (op : ULong → ULong → ULong) (a b : Option Addr) :
    BlockM Bigint (Option Addr) := do
  if a = none ∨ b = none then return none
  let x ← load a
  let y ← load b
  let maxchunks := if x.nchunk > y.nchunk then x.nchunk else y.nchunk
  let res ← bigintInitAt maxchunks
  if res = none then return none
  loop (fun i _ => do
    let x ← load a
    let y ← load b
    update res fun r => do
      return (← r.setChunk i (op (bigintIndexWithPadding x i) (bigintIndexWithPadding y i)), ()))
    maxchunks.toNat ()
  bigintIdentifyPadChunkAndTrimAt res
  return res

def bigintAddAt (a b : Option Addr) : BlockM Bigint (Option Addr) := do
  if a = none ∨ b = none then return none
  let x ← load a
  let y ← load b
  let maxchunk := if x.nchunk > y.nchunk then x.nchunk else y.nchunk
  let res ← bigintInitAt maxchunk
  if res = none then return none
  let _ ← loop (fun i carry => do
    let x ← load a
    let y ← load b
    update res fun r => addStep x y i (r, carry)) maxchunk.toNat 0
  bigintIdentifyPadChunkAndTrimAt res
  return res

/-! ## What calls other operators -/

def bigintNegateAt (n : Option Addr) : BlockM Bigint (Option Addr) := do
  if n = none then return none
  let notN ← bigintNotAt n
  if notN = none then
    bigintDestroyAt notN
    return none
  let minusN ← bigintAddAt notN (some bigintOneAddr)
  bigintDestroyAt notN
  return minusN

def bigintAbsAt (n : Option Addr) : BlockM Bigint (Option Addr) := do
  if n = none then return none
  let value ← load n
  if bigintMsb value (-1) = 1 then bigintNegateAt n else bigintCopyAt n

def bigintSubtractAt (a b : Option Addr) : BlockM Bigint (Option Addr) := do
  if a = none ∨ b = none then return none
  let minusB ← bigintNegateAt b
  if minusB = none then return none
  let aMinusB ← bigintAddAt a minusB
  bigintDestroyAt minusB
  return aMinusB

/-! ## Shifts -/

def shiftLeftByPositiveAt (a b : Option Addr) : BlockM Bigint (Option Addr) := do
  let y ← load b
  if y.nchunk > 1 then return none
  let count ← y.chunk 0
  let npreChunks := narrow (count.toNat / LONG_BIT)
  let nonChunkShift := narrow (count.toNat % LONG_BIT)
  let x ← load a
  let nchunk ← checkInt (x.nchunk + npreChunks)
  let nchunk ← checkInt (nchunk + if nonChunkShift ≠ 0 then 1 else 0)
  let res ← bigintInitAt nchunk
  if res = none then return none
  let carry ← loop (fun i carry => do
    let x ← load a
    update res fun r => shiftLeftStep x npreChunks nonChunkShift i (r, carry)) x.chunks.length 0
  let x ← load a
  let top ← shiftLeft x.padChunk nonChunkShift
  update res fun r => do return (← r.setChunk (npreChunks + x.nchunk) (carry ||| top), ())
  bigintIdentifyPadChunkAndTrimAt res
  return res

def shiftRightByPositiveAt (a b : Option Addr) : BlockM Bigint (Option Addr) := do
  let y ← load b
  let count ← y.chunk 0
  let removedChunks := narrow (count.toNat / LONG_BIT)
  let nonChunkShift := narrow (count.toNat % LONG_BIT)
  let x ← load a
  let shiftMoreThanA := removedChunks ≥ x.nchunk
  let nchunk ← if shiftMoreThanA then pure 1 else checkInt (x.nchunk - removedChunks)
  let res ← bigintInitAt nchunk
  if res = none then return none
  let x ← load a
  if shiftMoreThanA then
    update res fun r => do return (← r.setChunk 0 x.padChunk, ())
  else
    let carry ← shiftLeft x.padChunk (LONG_BIT - nonChunkShift)
    let _ ← loop (fun k carry => do
      let x ← load a
      update res fun r => shiftRightStep x removedChunks nonChunkShift k (r, carry)) nchunk.toNat carry
  bigintIdentifyPadChunkAndTrimAt res
  return res

mutual

def bigintShiftLeftAt : Nat → Option Addr → Option Addr → BlockM Bigint (Option Addr)
  | 0, _, _ => throw .timeout
  | fuel + 1, a, b => do
      if a = none ∨ b = none then return none
      let y ← load b
      if bigintMsb y (-1) = 1 then
        let minusB ← bigintNegateAt b
        let rightShiftedA ← bigintShiftRightAt fuel a minusB
        bigintDestroyAt minusB
        return rightShiftedA
      else
        shiftLeftByPositiveAt a b

def bigintShiftRightAt : Nat → Option Addr → Option Addr → BlockM Bigint (Option Addr)
  | 0, _, _ => throw .timeout
  | fuel + 1, a, b => do
      if a = none ∨ b = none then return none
      let y ← load b
      if bigintMsb y (-1) = 1 then
        let minusB ← bigintNegateAt b
        let leftShiftedA ← bigintShiftLeftAt fuel a minusB
        bigintDestroyAt minusB
        return leftShiftedA
      else
        shiftRightByPositiveAt a b

end

/-! ## The calls on values -/

section Refines

variable {h h' : Heap Bigint} {p q : Option Addr} {x y : Option Bigint}

theorem bigintDestroyAt_eq (n : Option Addr) : bigintDestroyAt n = free n := by
  cases n <;> rfl

theorem bigintInitAt_refines (nchunk : Int) :
    Refines (Returned h) h (bigintInitAt nchunk) (bigintInit nchunk) :=
  refines_lift_bind fun _ _ => refines_malloc _

theorem trimAt_refines (hr : Returned h p x h') :
    Refines (fun _ => Returned h p) h' (bigintIdentifyPadChunkAndTrimAt p)
      (liftM (bigintIdentifyPadChunkAndTrim x)) := by
  cases hr with
  | null => exact refines_pure .null
  | @block a n ha =>
      rw [bigintIdentifyPadChunkAndTrimAt, bigintIdentifyPadChunkAndTrim, AllocM.lift_bind]
      refine refines_load (Function.update_self ..) ?_
      refine refines_store (Function.update_self ..) ?_
      refine refines_load (Function.update_self ..) ?_
      rw [Function.update_idem]
      refine refines_lift_bind fun i _ => ?_
      dsimp only
      generalize (if bigintMsb _ (i : Int) ≠ bigintMsb n (n.nchunk - 1) then i + 1 else i) + 1 = k
      by_cases hk : (k : Int) ≠ Bigint.nchunk { n with padChunk := padChunks (bigintMsb n (n.nchunk - 1)) }
      · rw [if_pos hk, if_pos hk, AllocM.lift_bind]
        refine refines_lift_bind fun _ _ => ?_
        refine refines_shrink (Function.update_self ..) ?_
        rw [Function.update_idem]
        exact .block ha
      · rw [if_neg hk, if_neg hk]
        exact refines_pure (.block ha)

/-- The end of every operator. -/
theorem trimAt_return_refines (hr : Returned h p x h') :
    Refines (Returned h) h' (do bigintIdentifyPadChunkAndTrimAt p; return p)
      (liftM (bigintIdentifyPadChunkAndTrim x)) :=
  (trimAt_refines hr).andThen fun _ _ _ hr' => refines_pure hr'

theorem bigintCopyAt_refines (hp : PointsTo h p x) :
    Refines (Returned h) h (bigintCopyAt p) (bigintCopy x) := by
  cases hp with
  | null => exact refines_pure .null
  | @block a n ha =>
      refine refines_load ha ?_
      refine (bigintInitAt_refines n.nchunk).bind fun res r h₁ hr => ?_
      cases hr with
      | null => exact refines_pure .null
      | @block b m hb =>
          refine refines_load (Heap.live_update _ ha hb) ?_
          refine refines_store (Function.update_self ..) (refines_pure ?_)
          rw [Function.update_idem]
          exact .block hb

theorem bigintFromLongAt_refines (x : ULong) :
    Refines (Returned h) h (bigintFromLongAt x) (bigintFromLong x) := by
  refine (bigintInitAt_refines 1).bind fun res r h₁ hr => ?_
  cases hr with
  | null => exact refines_pure .null
  | block hb =>
      exact (refines_write (.block hb) rfl).bind fun _ y h₂ hr => trimAt_return_refines hr

/-- The states of the reader's loop: its block is not freed before the loop is left. -/
inductive Reading (h : Heap Bigint) (n : Option Addr) :
    Option ULong → Option (Bigint × ULong) → Heap Bigint → Prop
  | error {value h'} : Returned h n (some value) h' → Reading h n none none h'
  | nibble {value nibble h'} : Returned h n (some value) h' →
      Reading h n (some nibble) (some (value, nibble)) h'

theorem hexstringStepAt_refines {a : Addr} (s : List UInt8) (ns i : Nat) {o : Option ULong}
    {st : Option (Bigint × ULong)} (hst : Reading h (some a) o st h') :
    Refines (Reading h (some a)) h' (hexstringStepAt s ns (some a) i o)
      (liftM (hexstringStep s ns i st)) := by
  cases hst with
  | error hr => exact refines_pure (.error hr)
  | @nibble value nibble _ hr =>
      refine refines_load (hr.write value).1 ?_
      rw [← bind_pure (liftM (hexstringStep s ns i (some (value, nibble))) : AllocM _)]
      refine refines_lift_bind fun st' _ => ?_
      cases st' with
      | none => exact refines_pure (.error hr)
      | some st' =>
          exact refines_store (hr.write value).1 (refines_pure (.nibble (hr.write st'.1).2))

theorem bigintFromMsbFirstHexstringAt_refines (s : Option (List UInt8)) (ns : Nat) :
    Refines (Returned h) h (bigintFromMsbFirstHexstringAt s ns)
      (bigintFromMsbFirstHexstring s ns) := by
  cases s with
  | none => exact refines_pure .null
  | some s =>
      -- the length is given, or found out first
      have hlength : ∀ (g : Nat → BlockM Bigint (Option Addr)) (f : Nat → AllocM (Option Bigint)),
          (∀ ns, Refines (Returned h) h (g ns) (f ns)) →
          Refines (Returned h) h (if ns = 0 then liftM (strlen s) >>= g else pure ns >>= g)
            (if ns = 0 then liftM (strlen s) >>= f else pure ns >>= f) := by
        intro g f hgf
        split
        · exact refines_lift_bind fun len _ => hgf len
        · exact hgf ns
      refine hlength _ _ fun ns => refines_lift_bind fun nchunk _ => ?_
      refine (bigintInitAt_refines nchunk).bind fun n r h₁ hr => ?_
      cases hr with
      | null =>
          rw [if_pos rfl, bigintDestroyAt_eq]
          exact refines_pure .null
      | @block a r ha =>
          have hr : Returned h (some a) (some r) _ := .block ha
          rw [if_neg (Option.some_ne_none a)]
          refine Refines.bind (R := Reading h (some a))
            (refines_loop (fun i _ _ _ => hexstringStepAt_refines s ns i) ns (.nibble hr)) ?_
          intro o st h₂ hst
          cases hst with
          | error hr =>
              rw [bigintDestroyAt_eq]
              exact refines_drop hr
          | nibble hr =>
              exact (refines_write hr rfl).bind fun _ _ _ hr' => trimAt_return_refines hr'

theorem bigintNotAt_refines (hp : PointsTo h p x) :
    Refines (Returned h) h (bigintNotAt p) (bigintNot x) := by
  cases hp with
  | null => exact refines_pure .null
  | @block a n ha =>
      refine refines_load ha ?_
      refine (bigintInitAt_refines n.nchunk).bind fun res r h₁ hr => ?_
      refine Refines.bind (R := fun _ => Returned h res) (refines_loop ?_ _ hr) fun _ y h₂ hr₂ =>
        trimAt_return_refines hr₂
      intro i _ t h' hr'
      obtain ⟨_, hsome, ha'⟩ := ((PointsTo.block ha).returned hr').live
      cases hsome
      refine refines_load ha' ?_
      cases hr' with
      | null => exact refines_throw .null
      | @block b m hb =>
          have hstep : (do
              let res ← deref (some m)
              let chunk ← n.chunk i
              let res ← res.setChunk i (~~~chunk)
              return some res : Outcome (Option Bigint))
              = (n.chunk i >>= fun chunk => m.setChunk i (~~~chunk)) >>= fun r => pure (some r) := by
            cases n.chunk i <;> rfl
          rw [hstep, AllocM.lift_bind, ← bind_pure (update (some b) _)]
          refine (refines_write (.block hb) ?_).bind fun _ _ _ hr => refines_pure hr
          cases n.chunk i <;> rfl

theorem bigintBinopAt_refines (op : ULong → ULong → ULong) (hp : PointsTo h p x)
    (hq : PointsTo h q y) : Refines (Returned h) h (bigintBinopAt op p q) (bigintBinop op x y) := by
  cases hp with
  | null => exact refines_pure .null
  | @block a n ha =>
  cases hq with
  | null => exact refines_pure .null
  | @block b m hb =>
      refine refines_load ha (refines_load hb ?_)
      refine (bigintInitAt_refines _).bind fun res r h₁ hr => ?_
      cases hr with
      | null => exact refines_pure .null
      | @block c r hc =>
          refine Refines.bind (R := fun _ t => Returned h (some c) (some t))
            (refines_loop ?_ _ (.block hc)) fun _ y h₂ hr₂ => trimAt_return_refines hr₂
          intro i _ t h' hr'
          exact refines_load (hr'.live ha) (refines_load (hr'.live hb) (refines_write hr' rfl))

theorem bigintAddAt_refines (hp : PointsTo h p x) (hq : PointsTo h q y) :
    Refines (Returned h) h (bigintAddAt p q) (bigintAdd x y) := by
  cases hp with
  | null => exact refines_pure .null
  | @block a n ha =>
  cases hq with
  | null => exact refines_pure .null
  | @block b m hb =>
      refine refines_load ha (refines_load hb ?_)
      refine (bigintInitAt_refines _).bind fun res r h₁ hr => ?_
      cases hr with
      | null => exact refines_pure .null
      | @block c r hc =>
          refine Refines.bind (R := fun s t h' => s = t.2 ∧ Returned h (some c) (some t.1) h')
            (refines_loop ?_ _ ⟨rfl, .block hc⟩) fun _ y h₂ hr₂ => trimAt_return_refines hr₂.2
          rintro i _ ⟨t, carry⟩ h' ⟨rfl, hr'⟩
          exact refines_load (hr'.live ha) (refines_load (hr'.live hb) (refines_update hr'))

theorem bigintNegateAt_refines (hone : h bigintOneAddr = some bigintOne) (hp : PointsTo h p x) :
    Refines (Returned h) h (bigintNegateAt p) (bigintNegate x) := by
  cases hp with
  | null => exact refines_pure .null
  | @block a n ha =>
      refine (bigintNotAt_refines (.block ha)).bind fun notN y h₁ hr => ?_
      cases hr with
      | null => exact refines_pure .null
      | @block c m hc =>
          have hr : Returned h (some c) (some m) _ := .block hc
          rw [if_neg (Option.some_ne_none c), bigintDestroyAt_eq]
          exact Refines.dropping hr
            (bigintAddAt_refines hr.pointsTo (.block (hr.live hone)))

theorem bigintAbsAt_refines (hone : h bigintOneAddr = some bigintOne) (hp : PointsTo h p x) :
    Refines (Returned h) h (bigintAbsAt p) (bigintAbs x) := by
  cases hp with
  | null => exact refines_pure .null
  | @block a n ha =>
      refine refines_load ha ?_
      rw [bigintAbs]
      split
      · exact bigintNegateAt_refines hone (.block ha)
      · exact bigintCopyAt_refines (.block ha)

theorem bigintSubtractAt_refines (hone : h bigintOneAddr = some bigintOne) (hp : PointsTo h p x)
    (hq : PointsTo h q y) : Refines (Returned h) h (bigintSubtractAt p q) (bigintSubtract x y) := by
  cases hp with
  | null => exact refines_pure .null
  | @block a n ha =>
  cases hq with
  | null => exact refines_pure .null
  | @block b m hb =>
      refine (bigintNegateAt_refines hone (.block hb)).bind fun minusB y h₁ hr => ?_
      cases hr with
      | null => exact refines_pure .null
      | @block c r hc =>
          have hr : Returned h (some c) (some r) _ := .block hc
          rw [if_neg (Option.some_ne_none c), bigintDestroyAt_eq]
          exact Refines.dropping hr (bigintAddAt_refines (.block (hr.live ha)) hr.pointsTo)

/-! ## Shifts -/

theorem shiftLeftByPositiveAt_refines {a b : Addr} {n m : Bigint} (ha : h a = some n)
    (hb : h b = some m) : Refines (Returned h) h (shiftLeftByPositiveAt (some a) (some b))
      (shiftLeftByPositive n m) := by
  refine refines_load hb ?_
  rw [shiftLeftByPositive]
  split
  · exact refines_pure .null
  · refine refines_lift_bind fun count _ => ?_
    refine refines_load ha ?_
    refine refines_lift_bind fun _ _ => refines_lift_bind fun nchunk _ => ?_
    refine (bigintInitAt_refines nchunk).bind fun res r h₁ hr => ?_
    cases hr with
    | null => exact refines_pure .null
    | @block c r hc =>
        refine Refines.bind (R := fun s t h' => s = t.2 ∧ Returned h (some c) (some t.1) h')
          (refines_loop ?_ _ ⟨rfl, .block hc⟩) ?_
        · rintro i _ ⟨t, carry⟩ h' ⟨rfl, hr'⟩
          exact refines_load (hr'.live ha) (refines_update hr')
        · rintro _ ⟨t, carry⟩ h' ⟨rfl, hr'⟩
          refine refines_load (hr'.live ha) (refines_lift_bind fun top _ => ?_)
          exact (refines_write hr' rfl).bind fun _ _ _ hr'' => trimAt_return_refines hr''

theorem shiftRightByPositiveAt_refines {a b : Addr} {n m : Bigint} (ha : h a = some n)
    (hb : h b = some m) : Refines (Returned h) h (shiftRightByPositiveAt (some a) (some b))
      (shiftRightByPositive n m) := by
  refine refines_load hb ?_
  rw [shiftRightByPositive]
  refine refines_lift_bind fun count _ => refines_load (n := n) ha ?_
  by_cases hmore : narrow (count.toNat / LONG_BIT) ≥ n.nchunk
  · simp only [if_pos hmore, pure_bind]
    refine (bigintInitAt_refines 1).bind fun res r h₁ hr => ?_
    cases hr with
    | null => exact refines_pure .null
    | @block c r hc =>
        have hr : Returned h (some c) (some r) _ := .block hc
        refine refines_load (hr.live ha) ?_
        exact (refines_write hr rfl).bind fun _ _ _ hr' => trimAt_return_refines hr'
  · simp only [if_neg hmore]
    refine refines_lift_bind fun nchunk _ => ?_
    refine (bigintInitAt_refines nchunk).bind fun res r h₁ hr => ?_
    cases hr with
    | null => exact refines_pure .null
    | @block c r hc =>
        have hr : Returned h (some c) (some r) _ := .block hc
        refine refines_load (hr.live ha) (refines_lift_bind fun carry _ => ?_)
        refine Refines.bind (R := fun s t h' => s = t.2 ∧ Returned h (some c) (some t.1) h')
          (refines_loop ?_ _ ⟨rfl, hr⟩) fun _ y h₂ hr₂ => trimAt_return_refines hr₂.2
        rintro k _ ⟨t, carry⟩ h' ⟨rfl, hr'⟩
        exact refines_load (hr'.live ha) (refines_update hr')

theorem bigintShiftAt_refines (hone : h bigintOneAddr = some bigintOne) (fuel : Nat)
    (hp : PointsTo h p x) (hq : PointsTo h q y) :
    Refines (Returned h) h (bigintShiftLeftAt fuel p q) (bigintShiftLeft fuel x y) ∧
      Refines (Returned h) h (bigintShiftRightAt fuel p q) (bigintShiftRight fuel x y) := by
  induction fuel generalizing h q y with
  | zero => exact ⟨refines_throw _, refines_throw _⟩
  | succ fuel ih =>
      cases hp with
      | null => exact ⟨refines_pure .null, refines_pure .null⟩
      | @block a n ha =>
      cases hq with
      | null => exact ⟨refines_pure .null, refines_pure .null⟩
      | @block b m hb =>
          have hnegate := bigintNegateAt_refines hone (.block hb)
          -- the other shift, by the count that was negated
          have hrest : ∀ minusB y h₁, Returned h minusB y h₁ →
              Refines (Returned h₁) h₁ (bigintShiftLeftAt fuel (some a) minusB)
                (bigintShiftLeft fuel (some n) y) ∧
              Refines (Returned h₁) h₁ (bigintShiftRightAt fuel (some a) minusB)
                (bigintShiftRight fuel (some n) y) := fun minusB y h₁ hr =>
            ih (hr.live hone) ((PointsTo.block ha).returned hr)
              hr.pointsTo
          simp only [bigintShiftLeftAt, bigintShiftRightAt, bigintShiftLeft, bigintShiftRight,
            bigintDestroyAt_eq]
          constructor
          · refine refines_load hb ?_
            split
            · exact hnegate.bind fun minusB y h₁ hr => Refines.dropping hr (hrest minusB y h₁ hr).2
            · exact shiftLeftByPositiveAt_refines ha hb
          · refine refines_load hb ?_
            split
            · exact hnegate.bind fun minusB y h₁ hr => Refines.dropping hr (hrest minusB y h₁ hr).1
            · exact shiftRightByPositiveAt_refines ha hb

end Refines

end Jccl
