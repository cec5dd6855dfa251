/-
# `Jccl.Power.Defs` — powers of `dmath.c`, as the code computes them

Of `modular_exponentiation`, `b`, `e` and `m` are of the type `unsigned int`,
and so is `b * b`; `result` is of the type `unsigned long`.  The `base` of
`is_power_of` is an `unsigned int` too, and is converted to the type of `n`.
-/
import Jccl.Lib.Loop

namespace Jccl

structure PowerState where
  b : UInt32
  e : UInt32
  result : UInt64
deriving DecidableEq

/-- One iteration of `modular_exponentiation`, which ends with the returned value. -/
def modularExponentiationStep (m : UInt32) (st : PowerState) : Outcome (UInt32 ⊕ PowerState) :=
  if 0 < st.e then
    let b := st.b % m
    let result := if st.e &&& 1 ≠ 0 then st.result * b.toUInt64 else st.result
    .ok (.inr { b := b * b, e := st.e >>> 1, result := result })
  else
    .ok (.inl (st.result % m.toUInt64).toUInt32)

def modularExponentiation (b e m : UInt32) : Outcome UInt32 :=
  if m < 1 then
    .ok (UInt32.ofInt (-EDOM))
  else
    loopUntil (modularExponentiationStep m) (e.toNat + 1) { b := b, e := e, result := 1 }

/-! ## Whether a number is a power -/

/-- One iteration of `is_power_of_2`, which ends with the returned value. -/
def isPowerOf2Step (n : UInt64) : Outcome (Int ⊕ UInt64) :=
  if n &&& 1 = 0 then
    .ok (.inr (n >>> 1))
  else
    .ok (.inl (if n = 1 then 1 else 0))

def isPowerOf2 (n : UInt64) : Outcome Int :=
  if n = 0 then .ok 0 else loopUntil isPowerOf2Step (n.toNat + 1) n

/-- One iteration of `is_power_of`, which ends with the returned value. -/
def isPowerOfStep (base : UInt32) (n : UInt64) : Outcome (Int ⊕ UInt64) :=
  if 0 < n then
    if n = base.toUInt64 then
      .ok (.inl 1)
    else if n % base.toUInt64 ≠ 0 then
      .ok (.inl 0)
    else
      .ok (.inr (n / base.toUInt64))
  else
    .ok (.inl 0)

def isPowerOf (base : UInt32) (n : UInt64) : Outcome Int :=
  if base < 2 then
    .ok 0
  else if n = 0 then
    .ok 0
  else if n = 1 then
    .ok 1
  else
    loopUntil (isPowerOfStep base) (n.toNat + 1) n

end Jccl
