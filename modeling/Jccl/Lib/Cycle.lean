/-
# `Jccl.Lib.Cycle` — two pointers that go through the iterates of a function

One pointer goes through `x`, `f x`, `f (f x)`, … and the other one follows at
half its pace.  When the iterates are bounded the two meet at different
iterates (`exists_meet`), and once they do there is no iterate that the first
one has not been at (`iterate_eq_lt`).

`exists_iterate_of_descent` is for a function that goes down above a bound:
there are few numbers then that have to be looked at.
-/
import Mathlib

namespace Jccl

section Meet

variable {α : Type} {f : α → α} {x : α} {i j : Nat}

/-- From an iterate that was there before, no new one comes. -/
theorem iterate_eq_lt (hij : i < j) (h : f^[j] x = f^[i] x) (k : Nat) :
    ∃ l < j, f^[k] x = f^[l] x := by
  induction k using Nat.strong_induction_on with
  | _ k ih =>
      by_cases hk : k < j
      · exact ⟨k, hk, rfl⟩
      · have hback : f^[k] x = f^[k - j + i] x := by
          rw [Function.iterate_add_apply, ← h, ← Function.iterate_add_apply,
            Nat.sub_add_cancel (not_lt.mp hk)]
        obtain ⟨l, hl, hkl⟩ := ih (k - j + i) (by omega)
        exact ⟨l, hl, hback.trans hkl⟩

theorem iterate_add_period (hij : i < j) (h : f^[j] x = f^[i] x) {m : Nat} (hm : i ≤ m)
    (n : Nat) : f^[m + n * (j - i)] x = f^[m] x := by
  induction n with
  | zero => rw [Nat.zero_mul, Nat.add_zero]
  | succ n ih =>
      have hsplit : m + (n + 1) * (j - i) = (m + n * (j - i) - i) + j := by
        rw [Nat.add_mul, Nat.one_mul]
        omega
      rw [hsplit, Function.iterate_add_apply, h, ← Function.iterate_add_apply,
        Nat.sub_add_cancel (hm.trans (Nat.le_add_right _ _)), ih]

end Meet

/-- Among more iterates than there are values, two are the same. -/
theorem exists_iterate_eq {f : Nat → Nat} {x B : Nat} (hB : ∀ k, f^[k] x < B) :
    ∃ i j, i < j ∧ j ≤ B ∧ f^[j] x = f^[i] x := by
  have hcard : (Finset.range B).card < (Finset.range (B + 1)).card := by
    rw [Finset.card_range, Finset.card_range]
    exact Nat.lt_succ_self B
  obtain ⟨i, hi, j, hj, hne, heq⟩ := Finset.exists_ne_map_eq_of_card_lt_of_maps_to hcard
    (fun k _ => Finset.mem_coe.mpr (Finset.mem_range.mpr (hB k)))
  rw [Finset.mem_range, Nat.lt_succ_iff] at hi hj
  rcases Nat.lt_or_gt_of_ne hne with h | h
  · exact ⟨i, j, h, hj, heq.symm⟩
  · exact ⟨j, i, h, hi, heq⟩

/-- The pointers meet after as many steps as the first multiple of the period
that is not in the tail. -/
theorem exists_meet {f : Nat → Nat} {x B : Nat} (hB : ∀ k, f^[k] x < B) :
    ∃ m, 0 < m ∧ m ≤ B ∧ f^[2 * m] x = f^[m] x := by
  obtain ⟨i, j, hij, hj, h⟩ := exists_iterate_eq hB
  have hp : 0 < j - i := Nat.sub_pos_of_lt hij
  have htail : i < (i / (j - i) + 1) * (j - i) := by
    rw [mul_comm]
    exact Nat.lt_mul_div_succ i hp
  have hle : (i / (j - i) + 1) * (j - i) ≤ j := by
    rw [Nat.add_mul, Nat.one_mul]
    have hdiv := Nat.div_mul_le_self i (j - i)
    omega
  refine ⟨(i / (j - i) + 1) * (j - i), Nat.zero_lt_of_lt htail, hle.trans hj, ?_⟩
  rw [two_mul]
  exact iterate_add_period hij h htail.le _

/-- What the iterates of every small number come to, those of every number do. -/
theorem exists_iterate_of_descent {f : Nat → Nat} {P : Nat → Prop} {B c : Nat}
    (hpos : ∀ n, 1 ≤ n → 1 ≤ f n) (hsmall : ∀ n < B, 1 ≤ n → ∃ k < c, P (f^[k] n))
    (hdown : ∀ n, B ≤ n → f n < n) {n : Nat} (hn : 1 ≤ n) : ∃ k < n + c, P (f^[k] n) := by
  induction n using Nat.strong_induction_on with
  | _ n ih =>
      by_cases hlt : n < B
      · obtain ⟨k, hk, h⟩ := hsmall n hlt hn
        exact ⟨k, hk.trans_le (Nat.le_add_left c n), h⟩
      · have hfn := hdown n (not_lt.mp hlt)
        obtain ⟨k, hk, h⟩ := ih (f n) hfn (hpos n hn)
        refine ⟨k + 1, by omega, ?_⟩
        rw [Function.iterate_succ_apply]
        exact h

end Jccl
