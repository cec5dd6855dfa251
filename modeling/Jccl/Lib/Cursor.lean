/-
# `Jccl.Lib.Cursor` — a cursor over the gaps of a list

A list of `n` elements has `n + 1` gaps, before, between and behind them, and
a cursor is at one of them.  A move goes over the element on its side, if
there is one.  A cursor that was not moved yet is at both ends: it is at the
first gap for a move forward, and at the last one for a move backward.
-/
import Mathlib

namespace Jccl

inductive Move where
  | next
  | previous
deriving DecidableEq

inductive Cursor (n : Nat) where
  | fresh
  | gap (g : Nat) (h : g ≤ n)

namespace Cursor

variable {n : Nat}

/-- The gap from which `next` goes on. -/
def ahead : Cursor n → Nat
  | fresh => 0
  | gap g _ => g

/-- The gap from which `previous` goes back. -/
def behind : Cursor n → Nat
  | fresh => n
  | gap g _ => g

theorem behind_le (c : Cursor n) : c.behind ≤ n := by
  cases c with
  | fresh => exact le_refl n
  | gap g h => exact h

end Cursor

section Moves

variable {α : Type} (xs : List α)

/-- The element that a move goes over, and where it leaves the cursor. -/
def cursorStep (move : Move) (c : Cursor xs.length) : Option α × Cursor xs.length :=
  match move with
  | .next =>
      if h : c.ahead < xs.length then (xs[c.ahead]?, .gap (c.ahead + 1) h) else (none, c)
  | .previous =>
      if 0 < c.behind then
        (xs[c.behind - 1]?, .gap (c.behind - 1) ((Nat.sub_le _ 1).trans c.behind_le))
      else
        (none, c)

/-- The elements that a sequence of moves goes over. -/
def cursorRun : List Move → Cursor xs.length → List (Option α)
  | [], _ => []
  | move :: moves, c => (cursorStep xs move c).1 :: cursorRun moves (cursorStep xs move c).2

/-- A move that goes over the first element of what is ahead of it, repeated:
it goes over all of that, in order, and then over nothing. -/
theorem cursorRun_replicate {move : Move} {A : Cursor xs.length → List α}
    (hstep : ∀ c, (cursorStep xs move c).1 = (A c).head? ∧
      A (cursorStep xs move c).2 = (A c).tail) (k : Nat) (c : Cursor xs.length) :
    cursorRun xs (List.replicate k move) c = (List.range k).map fun i => (A c)[i]? := by
  induction k generalizing c with
  | zero => rfl
  | succ k ih =>
      obtain ⟨hhead, htail⟩ := hstep c
      rw [List.replicate_succ, cursorRun, ih, htail, hhead, List.range_succ_eq_map, List.map_cons,
        List.map_map, List.head?_eq_getElem?]
      refine congrArg _ (List.map_congr_left fun i _ => ?_)
      exact List.getElem?_tail

theorem cursorStep_next (c : Cursor xs.length) :
    (cursorStep xs .next c).1 = (xs.drop c.ahead).head? ∧
      xs.drop (cursorStep xs .next c).2.ahead = (xs.drop c.ahead).tail := by
  rw [List.head?_drop, List.tail_drop]
  by_cases h : c.ahead < xs.length
  · rw [cursorStep, dif_pos h]
    exact ⟨rfl, rfl⟩
  · rw [cursorStep, dif_neg h]
    have hnone := not_lt.mp h
    refine ⟨(List.getElem?_eq_none hnone).symm, ?_⟩
    rw [List.drop_eq_nil_of_le hnone, List.drop_eq_nil_of_le (hnone.trans (Nat.le_succ _))]

theorem cursorStep_previous (c : Cursor xs.length) :
    (cursorStep xs .previous c).1 = (xs.take c.behind).reverse.head? ∧
      (xs.take (cursorStep xs .previous c).2.behind).reverse =
        (xs.take c.behind).reverse.tail := by
  by_cases h : 0 < c.behind
  · have hlt : c.behind - 1 < xs.length := (Nat.sub_one_lt h.ne').trans_le c.behind_le
    have hsplit : xs.take c.behind = xs.take (c.behind - 1) ++ [xs[c.behind - 1]] := by
      rw [← List.take_succ_eq_append_getElem hlt, Nat.sub_add_cancel h]
    rw [cursorStep, if_pos h, hsplit, List.reverse_append]
    exact ⟨List.getElem?_eq_getElem hlt, rfl⟩
  · rw [cursorStep, if_neg h, Nat.eq_zero_of_not_pos h]
    exact ⟨rfl, rfl⟩

/-- What `next` went over, `previous` goes back over. -/
theorem cursorStep_back {c : Cursor xs.length} {x : α} (h : (cursorStep xs .next c).1 = some x) :
    (cursorStep xs .previous (cursorStep xs .next c).2).1 = some x := by
  by_cases hlt : c.ahead < xs.length
  · rw [cursorStep, dif_pos hlt] at h ⊢
    have hpos : 0 < (Cursor.gap (c.ahead + 1) hlt).behind := Nat.succ_pos _
    rw [cursorStep, if_pos hpos]
    exact h
  · rw [cursorStep, dif_neg hlt] at h
    cases h

end Moves

end Jccl
