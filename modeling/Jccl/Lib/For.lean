/-
# `Jccl.Lib.For` — the `for` statement

The three clauses and the body work on a state of any type.  The condition is
an expression with side effects, and they happen when it is false as well.  A
body that comes to its end, or to a `continue`, hands over to the clause that
increments; one that leaves the loop does not.
-/
import Jccl.Lib.Loop

namespace Jccl

/-- How the body of a loop ends. -/
inductive Control where
  | normal
  | continues
  | breaks
deriving DecidableEq

section For

variable {σ : Type}

/-- One evaluation of the condition, and what it is followed by. -/
def forStep (condition : σ → Outcome (Bool × σ)) (increment : σ → Outcome σ)
    (body : σ → Outcome (Control × σ)) (s : σ) : Outcome (σ ⊕ σ) := do
  let (goes, s) ← condition s
  if goes then
    let (control, s) ← body s
    if control = .breaks then
      return .inl s
    else
      let s ← increment s
      return .inr s
  else
    return .inl s

def forStatement (condition : σ → Outcome (Bool × σ)) (increment : σ → Outcome σ)
    (body : σ → Outcome (Control × σ)) (fuel : Nat) (s : σ) : Outcome σ :=
  loopUntil (forStep condition increment body) fuel s

variable {condition : σ → Outcome (Bool × σ)} {increment : σ → Outcome σ}
  {body : σ → Outcome (Control × σ)} {s t u v : σ}

theorem forStep_ends (h : condition s = .ok (false, t)) :
    forStep condition increment body s = .ok (.inl t) := by
  rw [forStep, h]
  rfl

theorem forStep_breaks (h : condition s = .ok (true, t)) (hbody : body t = .ok (.breaks, u)) :
    forStep condition increment body s = .ok (.inl u) := by
  rw [forStep, h, Outcome.ok_bind]
  show (body t >>= _) = _
  rw [hbody]
  rfl

theorem forStep_passes (h : condition s = .ok (true, t)) {control : Control}
    (hbody : body t = .ok (control, u)) (hcontrol : control ≠ .breaks)
    (hincrement : increment u = .ok v) : forStep condition increment body s = .ok (.inr v) := by
  rw [forStep, h, Outcome.ok_bind]
  show (body t >>= _) = _
  rw [hbody, Outcome.ok_bind]
  show (if control = .breaks then _ else _) = _
  rw [if_neg hcontrol, hincrement]
  rfl

end For

end Jccl
