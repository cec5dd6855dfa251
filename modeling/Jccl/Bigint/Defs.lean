/-
# `Jccl.Bigint.Defs` — `bigint.c`, as the code computes it

An `unsigned long` is a `BitVec 64`, and every operation on one is the
machine's.  A `struct bigint` is its padding word and its flexible array;
`nchunk` is the length of the array, because the two functions that set it,
`bigint_init` and `bigint_identify_pad_chunk_and_trim`, size the block by it.

Three things can end a call without a bigint, and they are kept apart:

  * the abstract machine has no value to give (`Fault`: a failed `assert`, a
    chunk outside the array, a null bigint, a shift by the width, …);
  * the function returns NULL;
  * the allocator refuses.  A run takes a list with the answer of each
    `calloc` to come, in order; when the list is used up every further one
    succeeds, so the empty list is a run in which memory never ends.
-/
import Jccl.Lib.Alloc
import Jccl.Lib.CString
import Jccl.Lib.Words

namespace Jccl

abbrev ULong := BitVec 64

def LONG_BIT : Nat := 64
def NIBBLE_BIT : Nat := 4
def NNIBBLE_IN_LONG : Nat := LONG_BIT / NIBBLE_BIT
def LONG_MSB : Nat := LONG_BIT - 1
def LONG_MSB_MASK : ULong := 1 <<< LONG_MSB
def NIBBLE_MSB : Nat := NIBBLE_BIT - 1
def NIBBLE_MASK : ULong := (1 <<< 4) - 1

def PAD_CHUNK_POSITIVE : ULong := 0
def PAD_CHUNK_NEGATIVE : ULong := BitVec.allOnes 64

/-- `struct bigint`. -/
structure Bigint where
  padChunk : ULong
  chunks : List ULong
deriving DecidableEq, Repr

/-- `n->nchunk`. -/
def Bigint.nchunk (n : Bigint) : Int := n.chunks.length

/-- The rvalue `n->chunks[i]`. -/
def Bigint.chunk (n : Bigint) (i : Int) : Outcome ULong :=
  if 0 ≤ i ∧ i < n.nchunk then .ok (n.chunks.getD i.toNat 0) else .error .bounds

/-- The assignment `n->chunks[i] = v`. -/
def Bigint.setChunk (n : Bigint) (i : Int) (v : ULong) : Outcome Bigint :=
  if 0 ≤ i ∧ i < n.nchunk then .ok { n with chunks := n.chunks.set i.toNat v }
  else .error .bounds

/-- `x << d` and `x >> d` of an `unsigned long`. -/
def shiftLeft (x : ULong) (d : Int) : Outcome ULong :=
  if 0 ≤ d ∧ d < LONG_BIT then .ok (x <<< d.toNat) else .error .shift

def shiftRight (x : ULong) (d : Int) : Outcome ULong :=
  if 0 ≤ d ∧ d < LONG_BIT then .ok (x >>> d.toNat) else .error .shift

/-! ## Construction, padding and trimming -/

/-- `pad_chunks[msb]`. -/
def padChunks (msb : Nat) : ULong :=
  if msb = 0 then PAD_CHUNK_POSITIVE else PAD_CHUNK_NEGATIVE

def bigintOne : Bigint := { padChunk := PAD_CHUNK_POSITIVE, chunks := [1] }

def bigintInit (nchunk : Int) : AllocM (Option Bigint) := do
  assert (nchunk > 0)
  if ← allocates then
    return some { padChunk := 0, chunks := List.replicate nchunk.toNat 0 }
  else
    return none

def bigintIndexWithPadding (n : Bigint) (i : Int) : ULong :=
  if 0 ≤ i ∧ i < n.nchunk then n.chunks.getD i.toNat 0 else n.padChunk

def bigintMsb (n : Bigint) (i : Int) : Nat :=
  (bigintIndexWithPadding n i >>> LONG_MSB).toNat

def bigintCopy (n : Option Bigint) : AllocM (Option Bigint) := do
  let some n := n | return none
  let some _ ← bigintInit n.nchunk | return none
  return some { padChunk := n.padChunk, chunks := n.chunks }

/-- The loop of `bigint_identify_pad_chunk_and_trim`, from index `i` down:
where it stops. -/
def trimLoop (n : Bigint) : Nat → Outcome Nat
  | 0 => .ok 0
  | i + 1 => do
      let chunk ← n.chunk (i + 1)
      if chunk ≠ n.padChunk then return i + 1 else trimLoop n i

/-- `realloc` to a smaller size keeps the block in its place, as the second
`assert` of the function has it. -/
def bigintIdentifyPadChunkAndTrim : Option Bigint → Outcome (Option Bigint)
  | none => .ok none
  | some n => do
      let msb := bigintMsb n (n.nchunk - 1)
      let n := { n with padChunk := padChunks msb }
      let i ← trimLoop n (n.nchunk - 1).toNat
      let i := if bigintMsb n i ≠ msb then i + 1 else i
      let newNchunk := i + 1
      if (newNchunk : Int) ≠ n.nchunk then
        assert ((newNchunk : Int) < n.nchunk)
        return some { n with chunks := n.chunks.take newNchunk }
      else
        return some n

def bigintFromLong (x : ULong) : AllocM (Option Bigint) := do
  let some bigint ← bigintInit 1 | return none
  let bigint ← bigint.setChunk 0 x
  bigintIdentifyPadChunkAndTrim (some bigint)

/-- `result` is the cell the caller passes a pointer to, if any: the status
comes with what it holds afterwards. -/
def bigintToLong (n : Option Bigint) (result : Option ULong) : Outcome (Int × Option ULong) :=
  match n, result with
  | some n, some _ => do
      let chunk ← n.chunk 0
      return (if n.nchunk > 1 then ERANGE else 0, some chunk)
  | _, result => .ok (EINVAL, result)

/-! ## Hexadecimal strings -/

def bigintHexCharset : List UInt8 :=
  ['0', '1', '2', '3', '4', '5', '6', '7', '8', '9', 'a', 'b', 'c', 'd', 'e', 'f'].map
    Char.toUInt8

/-- One iteration of the reader's loop.  The state is `none` once it has
jumped to `error`; otherwise it holds the bigint and the last nibble. -/
def hexstringStep (s : List UInt8) (ns i : Nat) :
    Option (Bigint × ULong) → Outcome (Option (Bigint × ULong))
  | none => .ok none
  | some (n, _) =>
      match s[ns - 1 - i]? with
      | none => .error .bounds
      | some c =>
          match strchr bigintHexCharset c with
          | none => .ok none
          | some hexchar => do
              let nibble := BitVec.ofNat 64 hexchar
              let j : Int := (i / NNIBBLE_IN_LONG : Nat)
              let chunk ← n.chunk j
              let n ← n.setChunk j (chunk ||| nibble <<< (NIBBLE_BIT * (i % NNIBBLE_IN_LONG)))
              return some (n, nibble)

/-- The number of chunks that `ns` characters need, as an `int`. -/
def hexstringNchunk (ns : Nat) : Outcome Int :=
  let nchunk := narrow (ns / NNIBBLE_IN_LONG)
  if ns % NNIBBLE_IN_LONG ≠ 0 then checkInt (nchunk + 1) else .ok nchunk

/-- The sign extension of a top chunk with empty space. -/
def hexstringExtend (ns : Nat) (n : Bigint) (nibble : ULong) : Outcome Bigint :=
  if ns % NNIBBLE_IN_LONG ≠ 0 ∧ nibble >>> NIBBLE_MSB = 1 then do
    let top ← n.chunk (n.nchunk - 1)
    n.setChunk (n.nchunk - 1) (top ||| padChunks 1 <<< (ns % NNIBBLE_IN_LONG))
  else
    .ok n

/-- `s` is the buffer the argument points into, if it is not NULL.  The
variable `nibble` is not initialised; the loop sets it, as `ns` is positive
by the time `bigint_init` has returned. -/
def bigintFromMsbFirstHexstring (s : Option (List UInt8)) (ns : Nat) :
    AllocM (Option Bigint) := do
  let some s := s | return none
  let ns ← if ns = 0 then strlen s else pure ns
  let nchunk ← hexstringNchunk ns
  let some n ← bigintInit nchunk | return none
  let some (n, nibble) ← forLoop (hexstringStep s ns) ns (some (n, 0)) | return none
  let n ← hexstringExtend ns n nibble
  bigintIdentifyPadChunkAndTrim (some n)

def bigintNnibble : Option Bigint → Outcome Int
  | none => .ok (-EINVAL)
  | some n => checkInt (n.nchunk * NNIBBLE_IN_LONG)

/-- The iteration of the writer's inner loop that comes after `k` others: `p`
runs down from the last character of the chunk. -/
def nibbleStep (startOfChunk k : Nat) : List UInt8 × ULong → Outcome (List UInt8 × ULong)
  | (s, chunk) => do
      let p := startOfChunk + NNIBBLE_IN_LONG - 1 - k
      let c ← readAt bigintHexCharset (chunk &&& NIBBLE_MASK).toNat
      let s ← writeAt s p c
      return (s, chunk >>> NIBBLE_BIT)

/-- The iteration of the writer's outer loop that comes after `k` others. -/
def toHexstringStep (n : Bigint) (k : Nat) : List UInt8 × Nat → Outcome (List UInt8 × Nat)
  | (s, startOfChunk) => do
      let chunk ← n.chunk (n.nchunk - 1 - k)
      let (s, _) ← forLoop (nibbleStep startOfChunk) NNIBBLE_IN_LONG (s, chunk)
      return (s, startOfChunk + NNIBBLE_IN_LONG)

/-- `s` is the buffer the argument points into, if it is not NULL, and
`startOfChunk` a position in it; the buffer comes back as it was left. -/
def bigintToMsbFirstHexstring (n : Option Bigint) (s : Option (List UInt8)) :
    Outcome (Int × Option (List UInt8)) :=
  match n, s with
  | some n, some s => do
      let (s, startOfChunk) ← forLoop (toHexstringStep n) n.chunks.length (s, 0)
      let s ← writeAt s startOfChunk 0
      return (narrow startOfChunk, some s)
  | _, s => .ok (-EINVAL, s)

/-! ## Comparison -/

/-- The loop of `bigint_compare` with `i` chunks to go, from index `i - 1` down. -/
def compareLoop (a b : Bigint) : Nat → Outcome Int
  | 0 => .ok 0
  | i + 1 => do
      let x ← a.chunk i
      let y ← b.chunk i
      if x ≠ y then return if x > y then 1 else -1 else compareLoop a b i

def bigintCompare : Option Bigint → Option Bigint → Outcome Int
  | none, b => .ok (if b.isNone then 0 else -1)
  | some _, none => .ok 1
  | some a, some b =>
      let aMsb := bigintMsb a (-1)
      let bMsb := bigintMsb b (-1)
      if aMsb ≠ bMsb then
        .ok (if aMsb = 1 then -1 else 1)
      else if a.nchunk ≠ b.nchunk then
        let absRes := if a.nchunk > b.nchunk then 1 else -1
        .ok (if aMsb = 1 then -absRes else absRes)
      else
        compareLoop a b a.chunks.length

/-! ## Bitwise operators -/

def bigintNot (n : Option Bigint) : AllocM (Option Bigint) := do
  let some n := n | return none
  let res ← bigintInit n.nchunk
  -- the result is written to without a test for NULL
  let res ← forLoop (fun i res => do
      let res ← deref res
      let chunk ← n.chunk i
      let res ← res.setChunk i (~~~chunk)
      return some res) n.chunks.length res
  bigintIdentifyPadChunkAndTrim res

/-- The macro `BIGINT_BINOP(a, b, op)`. -/
def bigintBinop (op : ULong → ULong → ULong) (a b : Option Bigint) :
    AllocM (Option Bigint) := do
  let some a := a | return none
  let some b := b | return none
  let maxchunks := if a.nchunk > b.nchunk then a.nchunk else b.nchunk
  let some res ← bigintInit maxchunks | return none
  let res ← forLoop (fun i res =>
      res.setChunk i (op (bigintIndexWithPadding a i) (bigintIndexWithPadding b i)))
    maxchunks.toNat res
  bigintIdentifyPadChunkAndTrim (some res)

def bigintAnd : Option Bigint → Option Bigint → AllocM (Option Bigint) := bigintBinop (· &&& ·)

def bigintOr : Option Bigint → Option Bigint → AllocM (Option Bigint) := bigintBinop (· ||| ·)

def bigintXor : Option Bigint → Option Bigint → AllocM (Option Bigint) := bigintBinop (· ^^^ ·)

/-! ## Arithmetic -/

/-- One iteration of the loop of `bigint_add`. -/
def addStep (a b : Bigint) (i : Nat) : Bigint × Int → Outcome (Bigint × Int)
  | (res, carry) => do
      let sumOfAllButMsbs := (bigintIndexWithPadding a i &&& ~~~LONG_MSB_MASK)
        + (bigintIndexWithPadding b i &&& ~~~LONG_MSB_MASK) + BitVec.ofInt 64 carry
      let sumOfMsbs : ULong :=
        BitVec.ofNat 64 (bigintMsb a i + bigintMsb b i) + (sumOfAllButMsbs >>> LONG_MSB)
      let res ← res.setChunk i
        ((sumOfAllButMsbs &&& ~~~LONG_MSB_MASK) ||| sumOfMsbs <<< LONG_MSB)
      return (res, narrow (sumOfMsbs >>> 1).toNat)

def bigintAdd (a b : Option Bigint) : AllocM (Option Bigint) := do
  let some a := a | return none
  let some b := b | return none
  let maxchunk := if a.nchunk > b.nchunk then a.nchunk else b.nchunk
  let some res ← bigintInit maxchunk | return none
  let (res, _) ← forLoop (addStep a b) maxchunk.toNat (res, 0)
  bigintIdentifyPadChunkAndTrim (some res)

def bigintNegate (n : Option Bigint) : AllocM (Option Bigint) := do
  let some n := n | return none
  let some notN ← bigintNot (some n) | return none
  bigintAdd (some notN) (some bigintOne)

def bigintAbs (n : Option Bigint) : AllocM (Option Bigint) := do
  let some n := n | return none
  if bigintMsb n (-1) = 1 then bigintNegate (some n) else bigintCopy (some n)

def bigintSubtract (a b : Option Bigint) : AllocM (Option Bigint) := do
  let some a := a | return none
  let some b := b | return none
  let some minusB ← bigintNegate (some b) | return none
  bigintAdd (some a) (some minusB)

/-! ## Shifts -/

/-- One iteration of the loop of `bigint_shift_left`. -/
def shiftLeftStep (a : Bigint) (npreChunks nonChunkShift : Int) (i : Nat) :
    Bigint × ULong → Outcome (Bigint × ULong)
  | (res, carry) => do
      let chunk ← a.chunk i
      let high ← shiftLeft chunk nonChunkShift
      let res ← res.setChunk (npreChunks + i) (high ||| carry)
      let carry ← shiftRight chunk (LONG_BIT - nonChunkShift)
      return (res, carry)

/-- `bigint_shift_left` after the test of the count's sign. -/
def shiftLeftByPositive (a b : Bigint) : AllocM (Option Bigint) := do
  if b.nchunk > 1 then return none
  let count ← b.chunk 0
  let npreChunks := narrow (count.toNat / LONG_BIT)
  let nonChunkShift := narrow (count.toNat % LONG_BIT)
  let nchunk ← checkInt (a.nchunk + npreChunks)
  let nchunk ← checkInt (nchunk + if nonChunkShift ≠ 0 then 1 else 0)
  let some res ← bigintInit nchunk | return none
  let (res, carry) ← forLoop (shiftLeftStep a npreChunks nonChunkShift) a.chunks.length (res, 0)
  let top ← shiftLeft a.padChunk nonChunkShift
  let res ← res.setChunk (npreChunks + a.nchunk) (carry ||| top)
  bigintIdentifyPadChunkAndTrim (some res)

/-- The iteration of the loop of `bigint_shift_right` that comes after `k`
others; its index runs down from `a->nchunk - 1`. -/
def shiftRightStep (a : Bigint) (removedChunks nonChunkShift : Int) (k : Nat) :
    Bigint × ULong → Outcome (Bigint × ULong)
  | (res, carry) => do
      let i : Int := a.nchunk - 1 - k
      let chunk ← a.chunk i
      let low ← shiftRight chunk nonChunkShift
      let res ← res.setChunk (i - removedChunks) (low ||| carry)
      let carry ← shiftLeft chunk (LONG_BIT - nonChunkShift)
      return (res, carry)

/-- `bigint_shift_right` after the test of the count's sign. -/
def shiftRightByPositive (a b : Bigint) : AllocM (Option Bigint) := do
  let count ← b.chunk 0
  let removedChunks := narrow (count.toNat / LONG_BIT)
  let nonChunkShift := narrow (count.toNat % LONG_BIT)
  let shiftMoreThanA := removedChunks ≥ a.nchunk
  let nchunk ← if shiftMoreThanA then pure 1 else checkInt (a.nchunk - removedChunks)
  let some res ← bigintInit nchunk | return none
  if shiftMoreThanA then
    let res ← res.setChunk 0 a.padChunk
    bigintIdentifyPadChunkAndTrim (some res)
  else
    let carry ← shiftLeft a.padChunk (LONG_BIT - nonChunkShift)
    let (res, _) ← forLoop (shiftRightStep a removedChunks nonChunkShift) nchunk.toNat (res, carry)
    bigintIdentifyPadChunkAndTrim (some res)

mutual

/-- The two shifts hand a negative count over to each other, negated: the
first argument bounds how often. -/
def bigintShiftLeft : Nat → Option Bigint → Option Bigint → AllocM (Option Bigint)
  | 0, _, _ => throw .timeout
  | fuel + 1, some a, some b =>
      if bigintMsb b (-1) = 1 then do
        let minusB ← bigintNegate (some b)
        bigintShiftRight fuel (some a) minusB
      else
        shiftLeftByPositive a b
  | _ + 1, _, _ => pure none

def bigintShiftRight : Nat → Option Bigint → Option Bigint → AllocM (Option Bigint)
  | 0, _, _ => throw .timeout
  | fuel + 1, some a, some b =>
      if bigintMsb b (-1) = 1 then do
        let minusB ← bigintNegate (some b)
        bigintShiftLeft fuel (some a) minusB
      else
        shiftRightByPositive a b
  | _ + 1, _, _ => pure none

end

end Jccl
