/-
# `Jccl.Happy.Defs` — happy numbers of `dmath.c`, as the code computes them

An `unsigned long` and a `size_t` are a `UInt64`.  Which branches of the
`switch` there are depends on two macros.

The loops of `is_happy` have no bound of their own.  They are given fuel for
four times as many iterations as there are values of `n`.
-/
import Jccl.Lib.Digits
import Jccl.Lib.Loop

namespace Jccl

/-- One iteration of `sum_of_squared_digits` with `sum` and `n`, which ends
with the returned value. -/
def sumOfSquaredDigitsStep (base : Int) : UInt64 × UInt64 → Outcome (UInt64 ⊕ UInt64 × UInt64)
  | (sum, n) =>
      if 0 < n then
        let leastSignificantDigit := n % UInt64.ofInt base
        .ok (.inr (sum + leastSignificantDigit * leastSignificantDigit, n / UInt64.ofInt base))
      else
        .ok (.inl sum)

def sumOfSquaredDigits (base : Int) (n : UInt64) : Outcome UInt64 :=
  loopUntil (sumOfSquaredDigitsStep base) (n.toNat + 1) (0, n)

structure HappyState where
  i : UInt64
  n : UInt64
  halfway : UInt64
deriving DecidableEq

/-- What `halfway` is after iteration `i`. -/
def moveHalfway (base : Int) (i halfway : UInt64) : Outcome UInt64 :=
  if i % 2 = 1 then sumOfSquaredDigits base halfway else .ok halfway

/-- One iteration of the loop that looks for a cycle, which ends with the
returned value. -/
def isHappyStep (base : Int) (st : HappyState) : Outcome (Int ⊕ HappyState) :=
  if st.n = 1 then
    return .inl 1
  else do
    let n ← sumOfSquaredDigits base st.n
    let halfway ← moveHalfway base st.i st.halfway
    if n = halfway then
      return .inl 0
    else
      return .inr { i := st.i + 1, n := n, halfway := halfway }

/-- One iteration of the loop for base 10. -/
def isHappyTenStep (base : Int) (n : UInt64) : Outcome (Int ⊕ UInt64) :=
  if n = 1 then
    return .inl 1
  else if n = 4 then
    return .inl 0
  else do
    let n ← sumOfSquaredDigits base n
    return .inr n

/-- Which of the macros `JCCL_IS_HAPPY_OPTIMIZED_BASE_2` and
`JCCL_IS_HAPPY_OPTIMIZED_BASE_10` are defined. -/
structure HappyMacros where
  base2 : Bool
  base10 : Bool
deriving DecidableEq

def isHappy (macros : HappyMacros) (base : Int) (n : UInt64) : Outcome Int :=
  if base < 2 ∨ n < 1 then
    .ok (-EDOM)
  else if macros.base2 ∧ base = 2 then
    .ok 1
  else if macros.base10 ∧ base = 10 then
    loopUntil (isHappyTenStep base) (2 ^ 66) n
  else
    loopUntil (isHappyStep base) (2 ^ 66) { i := 0, n := n, halfway := n }

end Jccl
