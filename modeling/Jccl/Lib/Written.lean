/-
# `Jccl.Lib.Written` — an array that knows where it was written

The positions of the assignments are kept beside the cells, so that it can be
said of a run which cells it wrote, and how often.
-/
import Jccl.Lib.Fault

namespace Jccl

structure Written (α : Type) where
  cells : List α
  /-- The position of every assignment, the last one first. -/
  positions : List Nat
deriving DecidableEq

variable {α : Type}

/-- The assignment `a[i] = x`. -/
def Written.write (a : Written α) (i : Nat) (x : α) : Outcome (Written α) := do
  let cells ← writeAt a.cells i x
  return { cells := cells, positions := i :: a.positions }

theorem Written.write_append {l r : List α} {x : α} {i : Nat} (h : i = l.length) (y : α)
    (positions : List Nat) :
    Written.write { cells := l ++ x :: r, positions := positions } i y =
      .ok { cells := l ++ y :: r, positions := i :: positions } := by
  rw [Written.write, writeAt_append h]
  rfl

end Jccl
