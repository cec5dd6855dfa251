/-
# `Jccl.Fibonacci` — `fibonacci` of `dmath.c`

The sequence is computed in `unsigned long`, where a sum that is too large
wraps around and an error code, which is negative, becomes a very large
number.  The argument is bounded so that neither happens: up to there every
number of the sequence is in the lower half of the type.
-/
import Jccl.Lib.Long
import Jccl.Lib.Loop

namespace Jccl

/-! ## As the code computes it -/

/-- The recursion variables; `xN` has no value before the first iteration. -/
structure FibonacciState where
  xN : Option UInt64
  xN1 : UInt64
  xN2 : UInt64
deriving DecidableEq

/-- One iteration of the loop. -/
def fibonacciStep (_i : Nat) (st : FibonacciState) : Outcome FibonacciState :=
  let xN := st.xN1 + st.xN2
  return { xN := some xN, xN1 := xN, xN2 := st.xN1 }

/-- An error code is converted to `unsigned long`. -/
def fibonacci (n : Int) : Outcome UInt64 :=
  if n < 0 then
    .ok (UInt64.ofInt (-EDOM))
  else if n > 92 then
    .ok (UInt64.ofInt (-ERANGE))
  else if n = 0 then
    .ok 0
  else if n = 1 then
    .ok 1
  else do
    -- `i` runs from one to `n`
    let st ← forLoop fibonacciStep (n - 1).toNat { xN := none, xN1 := 1, xN2 := 0 }
    let some x := st.xN | throw .dangling
    return x

/-! ## What it computes -/

theorem fib_le_max {k : Nat} (hk : k ≤ 92) : (Nat.fib k : Int) ≤ LONG_MAX := by
  have hmono : Nat.fib k ≤ Nat.fib 92 := Nat.fib_mono hk
  have htop : Nat.fib 92 = 7540113804746346429 := by norm_num
  unfold LONG_MAX
  omega

/-- Before the iteration with index `k + 1`. -/
structure Recurring (k : Nat) (st : FibonacciState) : Prop where
  last : st.xN1.toNat = Nat.fib (k + 1)
  before : st.xN2.toNat = Nat.fib k
  value : 0 < k → st.xN = some st.xN1

/-- The sum does not wrap around as long as it is in range. -/
theorem Recurring.step {k : Nat} {st : FibonacciState} (h : Recurring k st) (hk : k + 2 ≤ 92) :
    ∃ st', fibonacciStep k st = .ok st' ∧ Recurring (k + 1) st' := by
  refine ⟨_, rfl, ?_, h.last, fun _ => rfl⟩
  show (st.xN1 + st.xN2).toNat = Nat.fib (k + 2)
  have hmax := fib_le_max hk
  unfold LONG_MAX at hmax
  have hsum : Nat.fib (k + 2) = Nat.fib k + Nat.fib (k + 1) := Nat.fib_add_two
  rw [UInt64.toNat_add, h.last, h.before, hsum]
  omega

theorem fibonacci_fib {n : Nat} (hn : n ≤ 92) :
    ∃ x, fibonacci n = .ok x ∧ x.toNat = Nat.fib n := by
  rw [fibonacci, if_neg (by omega), if_neg (by omega)]
  by_cases hzero : n = 0
  · subst hzero
    exact ⟨0, rfl, rfl⟩
  by_cases hone : n = 1
  · subst hone
    exact ⟨1, rfl, rfl⟩
  have hcount : ((n : Int) - 1).toNat = n - 1 := by omega
  rw [if_neg (by omega), if_neg (by omega), hcount]
  have hstart : Recurring 0 { xN := none, xN1 := 1, xN2 := 0 } :=
    ⟨rfl, rfl, fun h => absurd h (Nat.lt_irrefl 0)⟩
  obtain ⟨st, hrun, hst⟩ : ∃ st, forLoop fibonacciStep (n - 1)
      { xN := none, xN1 := 1, xN2 := 0 } = .ok st ∧ Recurring (n - 1) st :=
    forLoop_ok hstart fun k st hk h => h.step (by omega)
  have hlast : n - 1 + 1 = n := by omega
  rw [hrun, Outcome.ok_bind, hst.value (by omega)]
  refine ⟨_, rfl, ?_⟩
  rw [hst.last, hlast]

/-- **`fibonacci` is exact**: an argument in range has its Fibonacci number,
any other has the error code.  The range is as large as it can be: it ends
where the numbers leave the half of the type that no error code is in, so the
two can always be told apart. -/
theorem fibonacci_exact (n : Int) :
    ∃ x, fibonacci n = .ok x ∧
      (0 ≤ n → n ≤ 92 → x.toNat = Nat.fib n.toNat) ∧
      (n < 0 → x = UInt64.ofInt (-EDOM)) ∧
      (92 < n → x = UInt64.ofInt (-ERANGE)) ∧
      ((x.toNat : Int) ≤ LONG_MAX ↔ 0 ≤ n ∧ (Nat.fib n.toNat : Int) ≤ LONG_MAX) := by
  by_cases hneg : n < 0
  · refine ⟨_, if_pos hneg, by omega, fun _ => rfl, by omega, ?_⟩
    exact iff_of_false (by decide) fun h => absurd h.1 (not_le.mpr hneg)
  by_cases hlarge : n > 92
  · have hrun : fibonacci n = .ok (UInt64.ofInt (-ERANGE)) := by
      rw [fibonacci, if_neg hneg, if_pos hlarge]
    refine ⟨_, hrun, by omega, by omega, fun _ => rfl, ?_⟩
    refine iff_of_false (by decide) ?_
    rintro ⟨-, hle⟩
    have hmono : Nat.fib 93 ≤ Nat.fib n.toNat := Nat.fib_mono (by omega)
    have hfirst : Nat.fib 93 = 12200160415121876738 := by norm_num
    unfold LONG_MAX at hle
    omega
  · obtain ⟨k, rfl⟩ := Int.eq_ofNat_of_zero_le (not_lt.mp hneg)
    have hk : k ≤ 92 := by omega
    obtain ⟨x, hrun, hx⟩ := fibonacci_fib hk
    have hmax := fib_le_max hk
    refine ⟨x, hrun, fun _ _ => hx, by omega, by omega, ?_⟩
    refine iff_of_true ?_ ⟨Int.natCast_nonneg k, hmax⟩
    rw [hx]
    exact hmax

example : fibonacci 12 = .ok 144 := by decide

end Jccl
