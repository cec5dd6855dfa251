/-
# `Jccl.Lib.Chains` — an association list cut into hash chains

The bindings of an association list, newest first, are distributed over a
number of chains by a function of the key; each chain keeps the order.  All
that a lookup or a removal does to the list it does to the chain of its key,
and the other chains do not notice.
-/
import Mathlib

namespace Jccl.Chains

variable {K B : Type} (h : K → Nat) (key : B → K)

/-- The chain with index `i`. -/
def chain (i : Nat) (bs : List B) : List B := bs.filter fun b => decide (h (key b) = i)

def chains (n : Nat) (bs : List B) : List (List B) :=
  (List.range n).map fun i => chain h key i bs

@[simp] theorem chains_length (n : Nat) (bs : List B) : (chains h key n bs).length = n := by
  simp [chains]

theorem getElem_chains {n i : Nat} (bs : List B) (hi : i < (chains h key n bs).length) :
    (chains h key n bs)[i] = chain h key i bs := by
  simp [chains]

@[simp] theorem chains_nil (n : Nat) :
    chains h key n ([] : List B) = List.replicate n [] := by
  simp [chains, chain, List.map_const']

/-- Chains that are told apart at one index only. -/
theorem set_chains {n : Nat} {bs bs' : List B} {i : Nat} {c : List B}
    (hi : chain h key i bs' = c) (hne : ∀ j, j ≠ i → chain h key j bs' = chain h key j bs) :
    (chains h key n bs).set i c = chains h key n bs' := by
  apply List.ext_getElem (by simp)
  intro j hj _
  rw [getElem_chains, List.getElem_set]
  split
  · rename_i hij; rw [← hij, hi]
  · rename_i hij; rw [getElem_chains, hne j (Ne.symm hij)]

theorem chain_cons_self (b : B) (bs : List B) :
    chain h key (h (key b)) (b :: bs) = b :: chain h key (h (key b)) bs := by
  simp [chain]

theorem chain_cons_of_ne {b : B} {i : Nat} (hne : i ≠ h (key b)) (bs : List B) :
    chain h key i (b :: bs) = chain h key i bs := by
  simp [chain, hne.symm]

section Key

variable [DecidableEq K] (k : K)

/-- The newest binding of a key is the newest one in its chain. -/
theorem find?_chain (bs : List B) :
    (chain h key (h k) bs).find? (fun b => decide (key b = k))
      = bs.find? (fun b => decide (key b = k)) := by
  rw [chain, List.find?_filter]
  congr 1
  funext b
  by_cases hb : key b = k
  · simp [hb]
  · simp [hb]

theorem chain_eraseP_self (bs : List B) :
    chain h key (h k) (bs.eraseP fun b => decide (key b = k))
      = (chain h key (h k) bs).eraseP fun b => decide (key b = k) := by
  induction bs with
  | nil => rfl
  | cons b bs ih =>
      by_cases hb : key b = k
      · subst hb
        simp [chain]
      · by_cases hh : h (key b) = h k
        · simpa [chain, hb, hh] using ih
        · simpa [chain, hb, hh] using ih

theorem chain_eraseP_of_ne {i : Nat} (hne : i ≠ h k) (bs : List B) :
    chain h key i (bs.eraseP fun b => decide (key b = k)) = chain h key i bs := by
  induction bs with
  | nil => rfl
  | cons b bs ih =>
      by_cases hb : key b = k
      · subst hb
        simp [chain, hne.symm]
      · by_cases hh : h (key b) = i
        · simpa [chain, hb, hh] using ih
        · simpa [chain, hb, hh] using ih

end Key

/-- An element that another predicate removes is not missed. -/
theorem find?_eraseP {p q : B → Bool} (h : ∀ b, p b = true → q b = true → False) (bs : List B) :
    (bs.eraseP q).find? p = bs.find? p := by
  induction bs with
  | nil => rfl
  | cons b bs ih =>
      by_cases hq : q b = true
      · rw [List.eraseP_cons_of_pos hq, List.find?_cons_of_neg fun hp => h b hp hq]
      · rw [List.eraseP_cons_of_neg hq, List.find?_cons, List.find?_cons, ih]

end Jccl.Chains
