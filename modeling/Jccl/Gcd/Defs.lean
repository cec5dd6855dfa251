/-
# `Jccl.Gcd.Defs` — divisors and congruences of `dmath.c`, as the code computes them

A `long` is an integer, and the operations on it are those of `Jccl.Lib.Long`.
A loop of Euclid's algorithm is given fuel for as many iterations as the
divisor it begins with is far from zero; every iteration brings that down.

`M` and `y` of `chinese_remainder` are the cells that have been written so
far.  They are written in order, and a cell behind them cannot be read.
-/
import Jccl.Lib.Alloc
import Jccl.Lib.Long
import Jccl.Lib.Loop

namespace Jccl

/-- One iteration of `gcd`, which ends with the returned value. -/
def gcdStep : Int × Int → Outcome (Int ⊕ Int × Int)
  | (a, b) => do
      let r ← longMod a b
      let m := longToInt r
      if m ≠ 0 then
        return .inr (b, m)
      else if b < 0 then
        let b ← longMul b (-1)
        return .inl b
      else
        return .inl b

def gcd (a b : Int) : Outcome Int :=
  if a = 0 ∨ b = 0 then
    .ok (-EDOM)
  else
    loopUntil gcdStep (b.natAbs + 1) (a, b)

def lcm (a b : Int) : Outcome Int :=
  if a = 0 ∨ b = 0 then
    .ok (-EDOM)
  else do
    let product ← longMul a b
    let g ← gcd a b
    let res ← longDiv product g
    if res < 0 then longMul res (-1) else return res

def arecoprime (a b : Int) : Outcome Int := do
  let g ← gcd a b
  return if g = 1 then 1 else 0

/-! ## Pairs of coprime numbers -/

/-- The loop over `p`, with `a` pointing to `x`: whether it returns. -/
def sharesFactor (x : Int) : List Int → Outcome Bool
  | [] => .ok false
  | p :: rest =>
      if x = p then
        .ok true
      else do
        let coprime ← arecoprime x p
        if coprime = 0 then return true else sharesFactor x rest

/-- Of the elements `a[0 .. na)`. -/
def arecoprimePairwise : List Int → Outcome Int
  | [] => .ok 1
  | x :: rest => do
      if ← sharesFactor x rest then return 0 else arecoprimePairwise rest

/-! ## The coefficients of the greatest common divisor -/

structure EuclidState where
  a : Int
  b : Int
  s : Int
  t : Int
  sprev : Int
  tprev : Int
deriving DecidableEq

/-- One iteration of `extended_gcd`, which ends with the returned value and
with what `*s` and `*t` are then. -/
def extendedGcdStep (st : EuclidState) : Outcome (Int × Int × Int ⊕ EuclidState) := do
  let m ← longMod st.a st.b
  if m ≠ 0 then
    let q ← longDiv st.a st.b
    let sq ← longMul st.s q
    let s ← longSub st.sprev sq
    let tq ← longMul st.t q
    let t ← longSub st.tprev tq
    return .inr { a := st.b, b := m, s := s, t := t, sprev := st.s, tprev := st.t }
  else if st.b < 0 then
    let b ← longMul st.b (-1)
    let s ← longMul st.s (-1)
    let t ← longMul st.t (-1)
    return .inl (b, s, t)
  else
    return .inl (st.b, st.s, st.t)

def extendedGcd (a b : Int) : Outcome (Int × Int × Int) :=
  if a = 0 ∨ b = 0 then
    .ok (-EDOM, 0, 0)
  else
    loopUntil extendedGcdStep (b.natAbs + 1)
      { a := a, b := b, s := 0, t := 1, sprev := 1, tprev := 0 }

/-! ## Systems of congruences -/

/-- The first loop: whether it returns. -/
def anyZero (a m : List Int) : Nat → Outcome Bool
  | 0 => .ok false
  | neq + 1 => do
      if ← anyZero a m neq then
        return true
      else
        let x ← readAt a neq
        if x = 0 then return true
        let n ← readAt m neq
        return decide (n = 0)

/-- `sm`, the product of the moduli. -/
def moduliProduct (m : List Int) (neq : Nat) : Outcome Int :=
  forLoop (fun i sm => do
    let n ← readAt m i
    longMul sm n) neq 1

/-- `M[0 .. neq)`. -/
def cofactors (m : List Int) (sm : Int) (neq : Nat) : Outcome (List Int) :=
  forLoop (fun i M => do
    let n ← readAt m i
    let x ← longDiv sm n
    return M ++ [x]) neq []

/-- `y[0 .. neq)`; nothing, if the loop is left for an error. -/
def inverses (m M : List Int) (neq : Nat) : Outcome (Option (List Int)) :=
  forLoop (fun i cells => do
    let some y := cells | return none
    let x ← readAt M i
    let n ← readAt m i
    let (g, s, _) ← extendedGcd x n
    return if g ≠ 1 then none else some (y ++ [s])) neq (some [])

/-- The sum of `M[i]*a[i]*y[i]`. -/
def sumOfTerms (a M y : List Int) (neq : Nat) : Outcome Int :=
  forLoop (fun i res => do
    let x ← readAt M i
    let r ← readAt a i
    let xr ← longMul x r
    let s ← readAt y i
    let term ← longMul xr s
    longAdd res term) neq 0

/-- What `res` is at the label `error`, when there is memory. -/
def solveCongruences (a m : List Int) (neq : Nat) : Outcome Int := do
  let sm ← moduliProduct m neq
  let M ← cofactors m sm neq
  let some y ← inverses m M neq | return -EDOM
  let sum ← sumOfTerms a M y neq
  let res ← longMod sum sm
  if res < 0 then longAdd res sm else return res

def chineseRemainder (a m : Option (List Int)) (neq : Int) : AllocM Int := do
  let some a := a | return -EINVAL
  let some m := m | return -EINVAL
  if neq < 1 then return -EINVAL
  if ← anyZero a m neq.toNat then return -EDOM
  -- what it returns is not looked at
  let _ ← arecoprimePairwise (m.take neq.toNat)
  unless ← allocates do return longToInt (-ENOMEM)
  unless ← allocates do return longToInt (-ENOMEM)
  let res ← solveCongruences a m neq.toNat
  return longToInt res

end Jccl
