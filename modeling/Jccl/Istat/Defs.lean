/-
# `Jccl.Istat.Defs` — `istat.h`, as the code computes it

A `double` is a rational number, and the operations on it are exact; a
quotient by zero is no such number.  The counter is a `size_t`, a `UInt64`.
-/
import Jccl.Lib.Fault

namespace Jccl

/-- A quotient of two `double`s. -/
def doubleDiv (x y : Rat) : Outcome Rat := if y = 0 then .error .division else .ok (x / y)

def istatMin (min x : Rat) : Rat := if x < min then x else min

def istatMax (max x : Rat) : Rat := if x > max then x else max

structure Istat where
  n : UInt64
  mean : Rat
  sumSquareDeltaMean : Rat
  sum : Rat
deriving DecidableEq

def ISTAT_STATIC_INIT : Istat := { n := 0, mean := 0, sumSquareDeltaMean := 0, sum := 0 }

/-- The value that is returned, and `*istat`. -/
def istatAdd (istat : Istat) (x : Rat) : Outcome (UInt64 × Istat) := do
  let n := istat.n + 1
  let sum := istat.sum + x
  let delta := x - istat.mean
  let share ← doubleDiv delta n.toNat
  let mean := istat.mean + share
  let sumSquareDeltaMean := istat.sumSquareDeltaMean + delta * (x - mean)
  return (n, { n := n, mean := mean, sumSquareDeltaMean := sumSquareDeltaMean, sum := sum })

inductive IstatBiasCorrection where
  | UNCORRECTED
  | BESSELS_CORRECTED
deriving DecidableEq

/-- The value of the enumerator. -/
def IstatBiasCorrection.value : IstatBiasCorrection → UInt64
  | UNCORRECTED => 0
  | BESSELS_CORRECTED => 1

def istatVariance (istat : Istat) (correction : IstatBiasCorrection) : Outcome Rat :=
  doubleDiv istat.sumSquareDeltaMean (istat.n - correction.value).toNat

/-- The samples are added one after the other. -/
def istatRun (istat : Istat) : List Rat → Outcome Istat
  | [] => .ok istat
  | x :: xs => do
      let (_, istat) ← istatAdd istat x
      istatRun istat xs

end Jccl
