/-
# `Jccl.Prime.Defs` — the primality tests of `dmath.c`, as the code computes them

The state is `primes[0 .. nprime)`, the part of the static array that is in
use, and it is passed from call to call.  The cast of `sqrt(n)` to an
unsigned integer is the integer square root.  An `unsigned int` is below
`2 ^ 32`, so the counters, which stay below `2 ^ 17`, never wrap around.
-/
import Jccl.Lib.Fault

namespace Jccl

/-- The expression `n % d` of an unsigned type. -/
def modulo (n d : Nat) : Outcome Nat := if d = 0 then .error .division else .ok (n % d)

/-! ## Without the cache -/

def isprimeLoop (n sqrtn : Nat) : Nat → Nat → Outcome Int
  | 0, _ => .error .timeout
  | fuel + 1, i =>
      if i ≤ sqrtn then do
        let r ← modulo n i
        if r = 0 then return 0 else isprimeLoop n sqrtn fuel (i + 1)
      else
        return 1

def isprime (n : Nat) : Outcome Int :=
  if n < 2 then .ok 0 else isprimeLoop n n.sqrt (n.sqrt + 1) 2

/-! ## With the cache -/

def MAXN : Nat := 4294967295

/-- The number of primes up to `sqrt(2 ^ 32)`. -/
def NPRIME : Nat := 6542

/-- The loop over the cached primes: the one that it returns at. -/
def cachedFactor (n sqrtn : Nat) : List Nat → Outcome (Option Nat)
  | [] => .ok none
  | p :: primes =>
      if p ≤ sqrtn then do
        let r ← modulo n p
        if r = 0 then return some p else cachedFactor n sqrtn primes
      else
        return none

/-- The loop over the numbers from the last cached prime on, each of which is
tested by the call that is made for it: whether it returns, and the cache. -/
def factorLoop (test : Nat → List Nat → Outcome (Int × List Nat)) (n sqrtn : Nat) :
    Nat → Nat → List Nat → Outcome (Bool × List Nat)
  | 0, _, _ => .error .timeout
  | fuel + 1, i, primes =>
      if i ≤ sqrtn then do
        let (answer, primes) ← test i primes
        if answer ≠ 0 then
          let r ← modulo n i
          if r = 0 then return (true, primes) else factorLoop test n sqrtn fuel (i + 1) primes
        else
          factorLoop test n sqrtn fuel (i + 1) primes
      else
        return (false, primes)

/-- The cache, with a first prime in it. -/
def seeded (primes : List Nat) : List Nat := if primes.length = 0 then [2] else primes

def isprimeCached : Nat → Nat → List Nat → Outcome (Int × List Nat)
  | 0, _, _ => .error .timeout
  | fuel + 1, n, primes => do
      if n < 2 ∨ n > MAXN then return (0, primes)
      let primes := seeded primes
      let sqrtn := n.sqrt + 1
      let factor ← cachedFactor n sqrtn primes
      match factor with
      | some p => return (if n = p then 1 else 0, primes)
      | none =>
          let last ← readAt primes (primes.length - 1)
          let (divided, primes) ←
            factorLoop (isprimeCached fuel) n sqrtn (sqrtn + 1) last primes
          if divided then return (0, primes)
          let last ← readAt primes (primes.length - 1)
          -- only cache unique primes
          if primes.length < NPRIME ∧ n > last then return (1, primes ++ [n])
          return (1, primes)

end Jccl
