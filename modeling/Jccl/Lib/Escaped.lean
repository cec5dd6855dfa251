/-
# `Jccl.Lib.Escaped` — texts in which another symbol escapes the quote

The scan of such a text from left to right takes an escape together with the
symbol after it, whatever that is; a quote it comes upon in any other way
ends the text (`firstUnescaped`).

What is left to the scan after a symbol that is no escape does not depend on
how it came there.  So of the symbols before a quote only the escapes count
that stand directly before it, and of these only whether they are even in
number (`firstUnescaped_run`).
-/
import Mathlib

namespace Jccl

variable {α : Type} [DecidableEq α] {q e : α}

/-- The place of the first quote that no escape makes literal. -/
def firstUnescaped (q e : α) : List α → Option Nat
  | [] => none
  | [x] => if x = q then some 0 else none
  | x :: y :: w =>
      if x = e then
        (firstUnescaped q e w).map (· + 2)
      else if x = q then
        some 0
      else
        (firstUnescaped q e (y :: w)).map (· + 1)

@[simp] theorem firstUnescaped_escape (x : α) (w : List α) :
    firstUnescaped q e (e :: x :: w) = (firstUnescaped q e w).map (· + 2) := by
  simp [firstUnescaped]

theorem firstUnescaped_quote (h : q ≠ e) (w : List α) :
    firstUnescaped q e (q :: w) = some 0 := by
  cases w with
  | nil => simp [firstUnescaped]
  | cons y w => simp [firstUnescaped, h]

theorem firstUnescaped_other {x : α} (hq : x ≠ q) (he : x ≠ e) (w : List α) :
    firstUnescaped q e (x :: w) = (firstUnescaped q e w).map (· + 1) := by
  cases w with
  | nil => simp [firstUnescaped, hq]
  | cons y w => simp [firstUnescaped, hq, he]

theorem firstUnescaped_of_notMem {w : List α} (h : q ∉ w) : firstUnescaped q e w = none := by
  induction w using List.twoStepInduction with
  | nil => rfl
  | singleton x => simp [firstUnescaped, Ne.symm (List.ne_of_not_mem_cons h)]
  | cons_cons x y w ih ih' =>
      obtain ⟨hx, hw⟩ := List.ne_and_not_mem_of_not_mem_cons h
      by_cases hxe : x = e
      · subst hxe
        simp [ih (List.not_mem_of_not_mem_cons hw)]
      · simp [firstUnescaped_other hx.symm hxe, ih' y hw]

/-- There is nothing before the quote, or what stands last there is no
escape. -/
def EndsPlain (e : α) (v : List α) : Prop := ∀ x ∈ v.getLast?, x ≠ e

/-- A symbol that is no escape leaves the scan as at a beginning, be it
escaped or not. -/
theorem firstUnescaped_concat {x : α} (hq : x ≠ q) (he : x ≠ e) {v : List α} (h : q ∉ v)
    (w : List α) :
    firstUnescaped q e (v ++ x :: w) = (firstUnescaped q e w).map (· + (v.length + 1)) := by
  induction v using List.twoStepInduction with
  | nil => simp [firstUnescaped_other hq he]
  | singleton y =>
      have hy : y ≠ q := Ne.symm (List.ne_of_not_mem_cons h)
      by_cases hye : y = e
      · subst hye
        simp
      · simp [firstUnescaped_other hy hye, firstUnescaped_other hq he, Function.comp_def]
  | cons_cons y z v ih ih' =>
      obtain ⟨hy, hv⟩ := List.ne_and_not_mem_of_not_mem_cons h
      by_cases hye : y = e
      · -- the escape and the symbol after it are taken together
        subst hye
        have htail := ih (List.not_mem_of_not_mem_cons hv)
        rw [List.cons_append, List.cons_append, firstUnescaped_escape, htail, Option.map_map]
        rfl
      · rw [List.cons_append, firstUnescaped_other hy.symm hye, ih' z hv, Option.map_map]
        rfl

theorem EndsPlain.firstUnescaped_append {v : List α} (he : EndsPlain e v) (h : q ∉ v)
    (w : List α) :
    firstUnescaped q e (v ++ w) = (firstUnescaped q e w).map (· + v.length) := by
  rcases List.eq_nil_or_concat v with rfl | ⟨u, x, rfl⟩
  · simp
  · have hx : x ≠ q := fun hx => h (by simp [hx])
    have hu : q ∉ u := fun hu => h (by simp [hu])
    have hscan := firstUnescaped_concat hx (he x (by simp)) hu w
    simpa using hscan

theorem firstUnescaped_replicate (h : q ≠ e) (n : Nat) (w : List α) :
    firstUnescaped q e (List.replicate n e ++ q :: w)
      = if n % 2 = 0 then some n else (firstUnescaped q e w).map (· + (n + 1)) := by
  induction n using Nat.twoStepInduction with
  | zero => simp [firstUnescaped_quote h]
  | one => simp
  | more n ih _ =>
      have hpair : List.replicate (n + 2) e ++ q :: w
          = e :: e :: (List.replicate n e ++ q :: w) := by
        simp [List.replicate_succ]
      rw [hpair, firstUnescaped_escape, ih, Nat.add_mod_right]
      split
      · rfl
      · rw [Option.map_map]
        rfl

/-- **Even and odd runs**: the escapes that stand directly before a quote
leave it to end the text if they are even in number, and else make it
literal. -/
theorem firstUnescaped_run (h : q ≠ e) {v : List α} (he : EndsPlain e v) (hv : q ∉ v) (n : Nat)
    (w : List α) :
    firstUnescaped q e (v ++ List.replicate n e ++ q :: w)
      = if n % 2 = 0 then some (v.length + n)
        else (firstUnescaped q e w).map (· + (v.length + n + 1)) := by
  rw [List.append_assoc, he.firstUnescaped_append hv, firstUnescaped_replicate h]
  split
  · simp [Nat.add_comm]
  · rw [Option.map_map]
    congr 1
    funext k
    show k + (n + 1) + v.length = k + (v.length + n + 1)
    omega

theorem exists_run (e : α) (v : List α) :
    ∃ u n, v = u ++ List.replicate n e ∧ EndsPlain e u := by
  induction v using List.reverseRecOn with
  | nil => exact ⟨[], 0, rfl, by simp [EndsPlain]⟩
  | append_singleton v x ih =>
      by_cases hx : x = e
      · obtain ⟨u, n, rfl, hu⟩ := ih
        refine ⟨u, n + 1, ?_, hu⟩
        rw [hx, List.append_assoc, List.replicate_succ']
      · refine ⟨v ++ [x], 0, by simp, ?_⟩
        simpa [EndsPlain] using hx

end Jccl
