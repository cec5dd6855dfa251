/-
# `Jccl.Base.Defs` — logarithms and numbers in any base of `dmath.c`, as the code computes them

A `long unsigned int` is a `UInt64`, and an `int` that divides one is
converted to it.  The string is the list of the bytes of the object that
`basestring` points to, and a byte that is written must be one of them.
-/
import Jccl.Lib.Digits
import Jccl.Lib.Loop
import Jccl.Lib.Written

namespace Jccl

/-! ## Logarithms -/

/-- One iteration of the loops of `dmath_ilog2` and `dmath_ilogb`, which end
with the returned value. -/
def ilogStep (next : UInt64 → UInt64) : Int × UInt64 → Outcome (Int ⊕ Int × UInt64)
  | (i, n) =>
      if 0 < n then do
        let i ← checkInt (i + 1)
        return .inr (i, next n)
      else
        return .inl i

def dmathIlog2 (n : UInt64) : Outcome Int :=
  if n = 0 then .ok (-EDOM) else loopUntil (ilogStep (· >>> 1)) (n.toNat + 1) (-1, n)

def dmathIlogb (base : Int) (n : UInt64) : Outcome Int :=
  if base < 2 then
    .ok (-EDOM)
  else if n = 0 then
    .ok (-EDOM)
  else
    loopUntil (ilogStep (· / UInt64.ofInt base)) (n.toNat + 1) (-1, n)

/-! ## Strings -/

def basestringAlphabet : List UInt8 :=
  ['0', '1', '2', '3', '4', '5', '6', '7', '8', '9', 'a', 'b', 'c', 'd', 'e', 'f', 'g', 'h', 'i',
    'j', 'k', 'l', 'm', 'n', 'o', 'p', 'q', 'r', 's', 't', 'u', 'v', 'w', 'x', 'y', 'z'].map
    Char.toUInt8

/-- The tests of `isdigit` and `islower` are those of the C locale. -/
def basestringCharToInt (c : UInt8) : Int :=
  if '0'.toUInt8 ≤ c ∧ c ≤ '9'.toUInt8 then
    (c.toNat : Int) - '0'.toNat
  else if 'a'.toUInt8 ≤ c ∧ c ≤ 'z'.toUInt8 then
    (c.toNat : Int) - 'a'.toNat + 10
  else
    -ERANGE

structure BasestringState where
  i : Int
  n : UInt64
  basestring : Written UInt8
deriving DecidableEq

/-- One iteration of the loop that writes the digits. -/
def basestringStep (base : Int) (st : BasestringState) :
    Outcome (Written UInt8 ⊕ BasestringState) :=
  if 0 ≤ st.i then do
    let c ← readAt basestringAlphabet (st.n % UInt64.ofInt base).toNat
    let basestring ← st.basestring.write st.i.toNat c
    return .inr { i := st.i - 1, n := st.n / UInt64.ofInt base, basestring := basestring }
  else
    return .inl st.basestring

def basestringFromLong (basestring : Written UInt8) (base : Int) (n : UInt64) :
    Outcome (Int × Written UInt8) :=
  if base < 2 ∨ base > 36 then
    .ok (-ERANGE, basestring)
  else if n = 0 then do
    let c ← readAt basestringAlphabet 0
    let basestring ← basestring.write 0 c
    let basestring ← basestring.write 1 0
    return (1, basestring)
  else do
    let max ← dmathIlogb base n
    let basestring ← loopUntil (basestringStep base) (max.toNat + 2)
      { i := max, n := n, basestring := basestring }
    let len ← checkInt (max + 1)
    let basestring ← basestring.write len.toNat 0
    return (len, basestring)

end Jccl
