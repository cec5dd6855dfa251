/-
# `Jccl.Lib.Pattern` — texts made of pieces, and what a scan makes of them

A piece is spelled by some symbols, and may ask something of what follows it.
A scan that takes over any one piece, wherever that stands, and adds its
expansion, takes over the whole text and adds the expansions in order
(`loopUntil_spelled`): one piece is not in the way of another.

The expansion of a piece may depend on its place, and a piece may have none.
-/
import Jccl.Lib.Loop

namespace Jccl

variable {P α β σ : Type} (spell : P → List α)

/-- The text that the pieces spell. -/
def spelled (ps : List P) : List α := ps.flatMap spell

/-- Every piece allows what follows it. -/
def Allowed (ok : P → List α → Prop) : List P → Prop
  | [] => True
  | p :: ps => ok p (spelled spell ps) ∧ Allowed ok ps

/-- Every piece has the property at its place, from the place `n` on. -/
def AllAt (I : Nat → P → Prop) : Nat → List P → Prop
  | _, [] => True
  | n, p :: ps => I n p ∧ AllAt I (n + (spell p).length) ps

/-- The expansions of the pieces, from the place `n` on, one after the other. -/
def expanded (expand : Nat → P → Outcome (List β)) : Nat → List P → Outcome (List β)
  | _, [] => return []
  | n, p :: ps => do
      let text ← expand n p
      let texts ← expanded expand (n + (spell p).length) ps
      return text ++ texts

variable {spell}

theorem spelled_cons (p : P) (ps : List P) :
    spelled spell (p :: ps) = spell p ++ spelled spell ps :=
  List.flatMap_cons

/-- Pieces that have an expansion each have one together. -/
theorem expanded_ok {expand : Nat → P → Outcome (List β)} {ps : List P} {n : Nat}
    (h : AllAt spell (fun n p => ∃ text, expand n p = .ok text) n ps) :
    ∃ text, expanded spell expand n ps = .ok text := by
  induction ps generalizing n with
  | nil => exact ⟨[], rfl⟩
  | cons p ps ih =>
      obtain ⟨⟨text, htext⟩, hps⟩ := h
      obtain ⟨texts, htexts⟩ := ih hps
      exact ⟨text ++ texts, by rw [expanded, htext, htexts]; rfl⟩

theorem AllAt.imp {I I' : Nat → P → Prop} (himp : ∀ n p, I n p → I' n p) {ps : List P}
    {n : Nat} (h : AllAt spell I n ps) : AllAt spell I' n ps := by
  induction ps generalizing n with
  | nil => trivial
  | cons p ps ih => exact ⟨himp n p h.1, ih h.2⟩

theorem loopUntil_spelled {ok : P → List α → Prop} {expand : Nat → P → Outcome (List β)}
    {step : σ → Outcome (List β ⊕ σ)} {state : Nat → List β → σ} {text : List α}
    (hpiece : ∀ before p after out, text = before ++ spell p ++ after → ok p after →
      ∃ n ≤ (spell p).length, ∀ fuel, loopUntil step (fuel + n) (state before.length out)
        = (expand before.length p >>= fun t =>
            loopUntil step fuel (state (before.length + (spell p).length) (out ++ t))))
    (hend : ∀ out, step (state text.length out) = .ok (.inl out))
    (before : List α) {ps : List P} (htext : text = before ++ spelled spell ps)
    (hok : Allowed spell ok ps) {fuel : Nat} (hfuel : (spelled spell ps).length < fuel)
    (out : List β) :
    loopUntil step fuel (state before.length out)
      = (expanded spell expand before.length ps).map (out ++ ·) := by
  induction ps generalizing before fuel out with
  | nil =>
      obtain ⟨fuel, rfl⟩ := Nat.exists_eq_succ_of_ne_zero (Nat.ne_zero_of_lt hfuel)
      have hlen : before.length = text.length := by
        rw [htext, spelled, List.flatMap_nil, List.append_nil]
      rw [loopUntil_of_return (hlen ▸ hend out) fuel]
      exact congrArg Except.ok (List.append_nil out).symm
  | cons p ps ih =>
      rw [spelled_cons, List.length_append] at hfuel
      rw [spelled_cons, ← List.append_assoc] at htext
      obtain ⟨n, hn, hrun⟩ := hpiece before p _ out htext hok.1
      have hfuel' : fuel = fuel - n + n := by omega
      have hrest_fuel : (spelled spell ps).length < fuel - n := by omega
      rw [hfuel', hrun, expanded]
      cases expand before.length p with
      | error e => rfl
      | ok t =>
          have hrest := ih _ htext hok.2 hrest_fuel (out ++ t)
          rw [List.length_append] at hrest
          rw [Outcome.ok_bind, Outcome.ok_bind, hrest]
          cases expanded spell expand (before.length + (spell p).length) ps with
          | error e => rfl
          | ok texts => exact congrArg Except.ok (List.append_assoc out t texts)

end Jccl
