/-
# `Jccl.Lib.Doubled` — texts in which a quote is written twice

The scan of such a text from left to right takes a quote together with the
next symbol: two quotes stand for one, and a quote that is not followed by
another one ends the text (`firstUnpaired`).  `AllDoubled` says of a text
that the scan goes through it to its end.
-/
import Mathlib

namespace Jccl

variable {α : Type} {q : α}

section Scan

variable [DecidableEq α]

/-- The place of the first quote that is not followed by another one, when
the doubled ones before it are taken in pairs. -/
def firstUnpaired (q : α) : List α → Option Nat
  | [] => none
  | [x] => if x = q then some 0 else none
  | x :: y :: w =>
      if x = q then
        if y = q then (firstUnpaired q w).map (· + 2) else some 0
      else
        (firstUnpaired q (y :: w)).map (· + 1)

@[simp] theorem firstUnpaired_single : firstUnpaired q [q] = some 0 := by
  simp [firstUnpaired]

@[simp] theorem firstUnpaired_pair (w : List α) :
    firstUnpaired q (q :: q :: w) = (firstUnpaired q w).map (· + 2) := by
  simp [firstUnpaired]

theorem firstUnpaired_ends {x : α} (h : x ≠ q) (w : List α) :
    firstUnpaired q (q :: x :: w) = some 0 := by
  simp [firstUnpaired, h]

theorem firstUnpaired_other {x : α} (h : x ≠ q) (w : List α) :
    firstUnpaired q (x :: w) = (firstUnpaired q w).map (· + 1) := by
  cases w with
  | nil => simp [firstUnpaired, h]
  | cons y w => simp [firstUnpaired, h]

theorem firstUnpaired_append {v : List α} (h : q ∉ v) (w : List α) :
    firstUnpaired q (v ++ w) = (firstUnpaired q w).map (· + v.length) := by
  induction v with
  | nil => simp
  | cons x v ih =>
      obtain ⟨hx, hv⟩ := List.ne_and_not_mem_of_not_mem_cons h
      rw [List.cons_append, firstUnpaired_other hx.symm, ih hv, Option.map_map]
      rfl

theorem firstUnpaired_of_notMem {w : List α} (h : q ∉ w) : firstUnpaired q w = none := by
  have hw := firstUnpaired_append h []
  simpa [firstUnpaired] using hw

end Scan

/-- Every quote is one of a pair. -/
inductive AllDoubled (q : α) : List α → Prop
  | nil : AllDoubled q []
  | other {x : α} {w : List α} : x ≠ q → AllDoubled q w → AllDoubled q (x :: w)
  | pair {w : List α} : AllDoubled q w → AllDoubled q (q :: q :: w)

theorem AllDoubled.append_left {v w : List α} (h : q ∉ v) (hw : AllDoubled q w) :
    AllDoubled q (v ++ w) := by
  induction v with
  | nil => exact hw
  | cons x v ih =>
      obtain ⟨hx, hv⟩ := List.ne_and_not_mem_of_not_mem_cons h
      exact .other hx.symm (ih hv)

theorem AllDoubled.of_notMem {v : List α} (h : q ∉ v) : AllDoubled q v :=
  List.append_nil v ▸ AllDoubled.append_left h .nil

/-- The scan is through with all but the last quote, and what stands before
that one is no quote. -/
def OpenEnded (q : α) (w : List α) : Prop :=
  ∃ v x, w = v ++ [x, q] ∧ x ≠ q ∧ AllDoubled q v

theorem OpenEnded.of_notMem {v : List α} (h : q ∉ v) (hv : v ≠ []) :
    OpenEnded q (v ++ [q]) := by
  obtain ⟨u, x, rfl⟩ := List.eq_nil_or_concat v |>.resolve_left hv
  have hx : x ≠ q := fun hx => h (by simp [hx])
  have hu : q ∉ u := fun hu => h (by simp [hu])
  exact ⟨u, x, by simp, hx, .of_notMem hu⟩

theorem OpenEnded.append_pair {v w : List α} (h : q ∉ v) (hw : OpenEnded q w) :
    OpenEnded q (v ++ q :: q :: w) := by
  obtain ⟨u, x, rfl, hx, hu⟩ := hw
  exact ⟨v ++ q :: q :: u, x, by simp, hx, .append_left h hu.pair⟩

end Jccl
