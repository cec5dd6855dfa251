/-
# `Jccl.Sort.Defs` — `sort.c`, as the code computes it

The array is the list of its bytes from `base` on, and a pointer into it is
its distance from `base`; what `buckets` holds are such pointers.  The
categorizer is a function of the bytes of an element, since it is given
nothing but a pointer to one.  The loops that step a pointer by `size` are
recursions with a bound on the number of steps; `nmemb + 1` is never too few,
as they end at `base + nmemb * size`.

An `int` is four bytes, the lowest one first.  `first_even` of `sort_odd_even`
has no value until it is set.
-/
import Jccl.Lib.Loop

namespace Jccl

/-- The bytes of the array. -/
abbrev Memory := List UInt8

/-- One iteration of the loop of `swap`. -/
def swapStep (a b k : Nat) (mem : Memory) : Outcome Memory := do
  let tmp ← readAt mem (a + k)
  let byte ← readAt mem (b + k)
  let mem ← writeAt mem (a + k) byte
  writeAt mem (b + k) tmp

/-- The test `--size > 0` comes after an iteration, so a `size` of zero wraps
around. -/
def swap (mem : Memory) (a b size : Nat) : Outcome Memory :=
  forLoop (swapStep a b) (if size = 0 then 2 ^ 64 else size) mem

/-! ## `sort_odd_even` -/

/-- The bytes of an `int` in memory. -/
def intBytes (x : Int32) : Memory :=
  [0, 1, 2, 3].map fun k => UInt8.ofNat (x.toBitVec.toNat / 256 ^ k)

/-- The rvalue `*p` of a pointer to an `int`. -/
def loadInt (mem : Memory) (p : Nat) : Outcome Int32 :=
  if p + 4 ≤ mem.length then
    let bytes := (mem.drop p).take 4
    .ok (Int32.ofBitVec (BitVec.ofNat 32 (Nat.ofDigits 256 (bytes.map UInt8.toNat))))
  else
    .error .bounds

def ODD (n : Int32) : Int32 := n &&& 1

/-- One iteration of the loop that locates the first even number, which ends
with `i` and `first_even`. -/
def locateEvenStep (mem : Memory) (na : Int) (i : Nat) : Outcome (Nat × Option Nat ⊕ Nat) :=
  if i < na then do
    let x ← loadInt mem (4 * i)
    if ODD x = 0 then return .inl (i, some (4 * i)) else return .inr (i + 1)
  else
    return .inl (i, none)

structure OddEvenState where
  mem : Memory
  i : Nat
  firstEven : Option Nat
deriving DecidableEq

/-- One iteration of the loop that moves the odd numbers, which ends with the array. -/
def moveOddStep (na : Int) (st : OddEvenState) : Outcome (Memory ⊕ OddEvenState) :=
  if st.i < na then do
    let x ← loadInt st.mem (4 * st.i)
    if ODD x ≠ 0 then
      let some p := st.firstEven | throw .dangling
      let mem ← swap st.mem p (4 * st.i) 4
      return .inr { mem := mem, i := st.i + 1, firstEven := some (p + 4) }
    else
      return .inr { st with i := st.i + 1 }
  else
    return .inl st.mem

def sortOddEven (a : Memory) (na : Int) : Outcome Memory := do
  let (i, firstEven) ← loopUntil (locateEvenStep a na) (na.toNat + 1) 0
  loopUntil (moveOddStep na) (na.toNat + 1) { mem := a, i := i, firstEven := firstEven }

/-! ## `bsort_partial` -/

abbrev BsortCategorizer := List UInt8 → Nat

/-- The call `categorizer(p)`. -/
def categorize (categorizer : BsortCategorizer) (size : Nat) (mem : Memory) (p : Nat) :
    Outcome Nat :=
  if p + size ≤ mem.length then .ok (categorizer ((mem.drop p).take size)) else .error .bounds

/-- What the inner loop does to the array and to `slot`, where `first` is
`buckets[i]`. -/
def bsortMoveSlot (size : Nat) (mem : Memory) (slot first : Nat) : Outcome (Memory × Nat) :=
  if slot ≠ first then do
    let mem ← swap mem first slot size
    return (mem, first)
  else
    return (mem, slot)

/-- The inner loop, from index `i` down to above `bucket`. -/
def bsortCascade (size bucket : Nat) :
    Nat → Memory → List Nat → Nat → Outcome (Memory × List Nat)
  | 0, mem, buckets, _ => .ok (mem, buckets)
  | i + 1, mem, buckets, slot =>
      if i + 1 > bucket then do
        let first ← readAt buckets (i + 1)
        let (mem, slot) ← bsortMoveSlot size mem slot first
        let buckets ← writeAt buckets (i + 1) (first + size)
        bsortCascade size bucket i mem buckets slot
      else
        .ok (mem, buckets)

/-- The outer loop, from `p` on. -/
def bsortPartialLoop (eobase size : Nat) (categorizer : BsortCategorizer) (nbucket : Nat) :
    Nat → Nat → Memory → List Nat → Outcome (Memory × List Nat)
  | 0, _, _, _ => .error .timeout
  | fuel + 1, p, mem, buckets =>
      if p < eobase then do
        let bucket ← categorize categorizer size mem p
        assert (bucket < nbucket)
        let (mem, buckets) ← bsortCascade size bucket (nbucket - 1) mem buckets p
        bsortPartialLoop eobase size categorizer nbucket fuel (p + size) mem buckets
      else
        .ok (mem, buckets)

def bsortPartial (mem : Memory) (nmemb size : Nat) (categorizer : BsortCategorizer)
    (nbucket : Nat) (buckets : List Nat) (baseUnsorted : Nat) : Outcome (Memory × List Nat) := do
  if size = 0 then throw .division
  assert (baseUnsorted % size = 0)
  bsortPartialLoop (nmemb * size) size categorizer nbucket (nmemb + 1) baseUnsorted mem buckets

/-! ## `bsort` -/

/-- `for (size_t i = lo; i < hi; i++) buckets[i] = p;` -/
def fillBuckets (lo hi p : Nat) (buckets : List Nat) : Outcome (List Nat) :=
  forLoop (fun k buckets => writeAt buckets (lo + k) p) (hi - lo) buckets

/-- The scan for the first element that is out of order. -/
def bsortScan (eobase size : Nat) (categorizer : BsortCategorizer) (nbucket : Nat) (mem : Memory) :
    Nat → Nat → Nat → List Nat → Outcome (Nat × Nat × List Nat)
  | 0, _, _, _ => .error .timeout
  | fuel + 1, p, lastBucket, buckets =>
      if p < eobase then do
        let bucket ← categorize categorizer size mem p
        assert (bucket < nbucket)
        if bucket < lastBucket then
          -- from here on out base is unsorted
          return (p, lastBucket, buckets)
        else if bucket > lastBucket then
          let buckets ← fillBuckets (lastBucket + 1) (bucket + 1) p buckets
          bsortScan eobase size categorizer nbucket mem fuel (p + size) bucket buckets
        else
          bsortScan eobase size categorizer nbucket mem fuel (p + size) lastBucket buckets
      else
        return (p, lastBucket, buckets)

/-- The pointer that is returned, and `buckets`. -/
def bsortFirstUnsortedElement (mem : Memory) (nmemb size : Nat) (categorizer : BsortCategorizer)
    (nbucket : Nat) (buckets : List Nat) : Outcome (Nat × List Nat) := do
  let buckets ← writeAt buckets 0 0
  let (p, lastBucket, buckets) ←
    bsortScan (nmemb * size) size categorizer nbucket mem (nmemb + 1) 0 0 buckets
  let buckets ← fillBuckets (lastBucket + 1) nbucket p buckets
  return (p, buckets)

def bsort (mem : Memory) (nmemb size : Nat) (categorizer : BsortCategorizer) (nbucket : Nat)
    (buckets : List Nat) : Outcome (Memory × List Nat) := do
  let (baseUnsorted, buckets) ←
    bsortFirstUnsortedElement mem nmemb size categorizer nbucket buckets
  bsortPartial mem nmemb size categorizer nbucket buckets baseUnsorted

/-! ## `issorted` and the categorizers -/

/-- One iteration, from `p` and `max` on. -/
def issortedStep (eobase size : Nat) (categorizer : BsortCategorizer) (mem : Memory)
    (st : Nat × Nat) : Outcome (Int ⊕ Nat × Nat) :=
  let (p, max) := st
  if p < eobase then do
    let bucket ← categorize categorizer size mem p
    if bucket < max then return .inl 0 else return .inr (p + size, bucket)
  else
    return .inl 1

def issorted (mem : Memory) (nmemb size : Nat) (categorizer : BsortCategorizer) : Outcome Int :=
  loopUntil (issortedStep (nmemb * size) size categorizer mem) (nmemb + 1) (0, 0)

/-- The `int` that the bytes of an element are. -/
def intOf (bytes : List UInt8) : Int32 :=
  Int32.ofBitVec (BitVec.ofNat 32 (Nat.ofDigits 256 (bytes.map UInt8.toNat)))

def bsortCategorizeOddEven : BsortCategorizer := fun a => if ODD (intOf a) = 0 then 1 else 0

def bsortCategorizeLeastSignificantNibble : BsortCategorizer :=
  fun a => (intOf a &&& 0xf).toBitVec.toNat

end Jccl
