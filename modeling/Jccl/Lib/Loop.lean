/-
# `Jccl.Lib.Loop` — a `while` loop whose body may return

One iteration ends the function with a value (`inl`) or hands a state to the
next one (`inr`).  The loop is a recursion with fuel, and what is wanted of it
comes in two halves that need the same invariant:

  * `loopUntil_ok`: when every iteration keeps the invariant and brings a
    measure down, more fuel than the measure gives the value;
  * `Continues.inv`: every state that the run goes through has the invariant.

`Continues.fault` is for the runs that go wrong: a fault in a state the run
goes through is a fault of the loop.
-/
import Jccl.Lib.Fault

namespace Jccl

variable {σ α : Type} {step : σ → Outcome (α ⊕ σ)}

def loopUntil (step : σ → Outcome (α ⊕ σ)) : Nat → σ → Outcome α
  | 0, _ => .error .timeout
  | fuel + 1, s => do
      match ← step s with
      | .inl a => return a
      | .inr s => loopUntil step fuel s

/-- The run that is in state `s` comes to state `t`. -/
inductive Continues (step : σ → Outcome (α ⊕ σ)) : σ → σ → Prop
  | refl {s : σ} : Continues step s s
  | step {s t u : σ} : step s = .ok (.inr t) → Continues step t u → Continues step s u

theorem loopUntil_of_return {s : σ} {a : α} (h : step s = .ok (.inl a)) (fuel : Nat) :
    loopUntil step (fuel + 1) s = .ok a := by
  simp [loopUntil, h]

theorem loopUntil_of_continue {s t : σ} (h : step s = .ok (.inr t)) (fuel : Nat) :
    loopUntil step (fuel + 1) s = loopUntil step fuel t := by
  simp [loopUntil, h]

/-- What one iteration preserves, a run preserves. -/
theorem loopUntil_ok {I : σ → Prop} {μ : σ → Nat} {Q : α → Prop}
    (hstep : ∀ s, I s → (∃ a, step s = .ok (.inl a) ∧ Q a) ∨
      ∃ t, step s = .ok (.inr t) ∧ I t ∧ μ t < μ s)
    {fuel : Nat} {s : σ} (hI : I s) (hfuel : μ s < fuel) :
    ∃ a, loopUntil step fuel s = .ok a ∧ Q a := by
  induction fuel generalizing s with
  | zero => exact absurd hfuel (Nat.not_lt_zero _)
  | succ fuel ih =>
      rcases hstep s hI with ⟨a, ha, hQ⟩ | ⟨t, ht, hIt, hlt⟩
      · exact ⟨a, loopUntil_of_return ha fuel, hQ⟩
      · obtain ⟨a, ha, hQ⟩ := ih hIt (hlt.trans_le (Nat.le_of_lt_succ hfuel))
        exact ⟨a, (loopUntil_of_continue ht fuel).trans ha, hQ⟩

/-- A loop of which every state is known. -/
theorem loopUntil_of_trace {g : Nat → σ} {k : Nat} {a : α}
    (hstep : ∀ i < k, step (g i) = .ok (.inr (g (i + 1)))) (hlast : step (g k) = .ok (.inl a))
    {fuel : Nat} (hfuel : k < fuel) : loopUntil step fuel (g 0) = .ok a := by
  induction k generalizing g fuel with
  | zero =>
      obtain ⟨fuel, rfl⟩ := Nat.exists_eq_succ_of_ne_zero hfuel.ne'
      exact loopUntil_of_return hlast fuel
  | succ k ih =>
      obtain ⟨fuel, rfl⟩ := Nat.exists_eq_succ_of_ne_zero (Nat.ne_zero_of_lt hfuel)
      rw [loopUntil_of_continue (hstep 0 (Nat.succ_pos k))]
      exact ih (fun i hi => hstep (i + 1) (Nat.succ_lt_succ hi)) hlast (Nat.lt_of_succ_lt_succ hfuel)

theorem Continues.inv {I : σ → Prop} (hstep : ∀ s t, I s → step s = .ok (.inr t) → I t)
    {s t : σ} (h : Continues step s t) (hI : I s) : I t := by
  induction h with
  | refl => exact hI
  | step hs _ ih => exact ih (hstep _ _ hI hs)

/-- The same, of an invariant that is given as for the value. -/
theorem Continues.inv_of_step {I : σ → Prop} {μ : σ → Nat} {Q : α → Prop}
    (hstep : ∀ s, I s → (∃ a, step s = .ok (.inl a) ∧ Q a) ∨
      ∃ t, step s = .ok (.inr t) ∧ I t ∧ μ t < μ s)
    {s t : σ} (h : Continues step s t) (hI : I s) : I t := by
  refine h.inv ?_ hI
  intro s t hs ht
  rcases hstep s hs with ⟨a, ha, -⟩ | ⟨t', ht', hIt, -⟩
  · cases ha.symm.trans ht
  · cases ht'.symm.trans ht
    exact hIt

theorem Continues.trans {s t u : σ} (h : Continues step s t) (h' : Continues step t u) :
    Continues step s u := by
  induction h with
  | refl => exact h'
  | step hs _ ih => exact .step hs (ih h')

/-- A value of the loop is a value of the loop from any state the run goes through. -/
theorem Continues.value {s t : σ} (h : Continues step s t) {fuel : Nat} {a : α}
    (ha : loopUntil step fuel s = .ok a) : ∃ fuel, loopUntil step fuel t = .ok a := by
  induction h generalizing fuel with
  | refl => exact ⟨fuel, ha⟩
  | step hs _ ih =>
      cases fuel with
      | zero => cases ha
      | succ fuel => exact ih ((loopUntil_of_continue hs fuel).symm.trans ha)

/-- A measure of the states bounds the fuel that is needed. -/
theorem Continues.loopUntil_eq {μ : σ → Nat} (hμ : ∀ s t, step s = .ok (.inr t) → μ t < μ s)
    {s t : σ} (h : Continues step s t) {a : α} (ha : step t = .ok (.inl a)) {fuel : Nat}
    (hfuel : μ s < fuel) : loopUntil step fuel s = .ok a := by
  obtain ⟨fuel, rfl⟩ := Nat.exists_eq_succ_of_ne_zero (Nat.ne_zero_of_lt hfuel)
  induction h generalizing fuel with
  | refl => exact loopUntil_of_return ha fuel
  | step hs _ ih =>
      have hlt := (hμ _ _ hs).trans_le (Nat.le_of_lt_succ hfuel)
      obtain ⟨fuel', rfl⟩ := Nat.exists_eq_succ_of_ne_zero (Nat.ne_zero_of_lt hlt)
      rw [loopUntil_of_continue hs]
      exact ih ha fuel' hlt

/-- One more iteration at the end. -/
theorem Continues.snoc {s t u : σ} (h : Continues step s t) (hs : step t = .ok (.inr u)) :
    Continues step s u := h.trans (.step hs .refl)

theorem Continues.fault {s t : σ} (h : Continues step s t) {e : Fault}
    (he : step t = .error e) (fuel : Nat) (a : α) : loopUntil step fuel s ≠ .ok a := by
  intro ha
  obtain ⟨fuel, hfuel⟩ := h.value ha
  cases fuel with
  | zero => cases hfuel
  | succ fuel => simp [loopUntil, he] at hfuel

end Jccl
