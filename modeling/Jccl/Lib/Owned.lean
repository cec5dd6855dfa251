/-
# `Jccl.Lib.Owned` — the blocks that a structure owns

`Owned h₀ h xs`: the heap `h` is `h₀` and, beside it, the blocks in `xs`, which
are not live in `h₀` and of which no two have one address.  The order of the
list does not matter (`Owned.perm`), so the block that an operation is about
can be taken to the front, and there are three things to do with it: it is
allocated, changed, or freed.  Who owns nothing has left the heap as it was
(`Owned.eq`).
-/
import Jccl.Lib.Heap

namespace Jccl

variable {N : Type}

structure Owned (h₀ h : Heap N) (xs : List (Addr × N)) : Prop where
  nodup : (xs.map Prod.fst).Nodup
  fresh : ∀ x ∈ xs, h₀ x.1 = none
  live : ∀ x ∈ xs, h x.1 = some x.2
  frame : ∀ a, a ∉ xs.map Prod.fst → h a = h₀ a

namespace Owned

variable {h₀ h₁ : Heap N} {xs ys : List (Addr × N)} {a : Addr} {n : N}

theorem refl (h : Heap N) : Owned h h [] where
  nodup := List.nodup_nil
  fresh _ hx := absurd hx List.not_mem_nil
  live _ hx := absurd hx List.not_mem_nil
  frame _ _ := rfl

theorem eq (h : Owned h₀ h₁ ([] : List (Addr × N))) : h₁ = h₀ :=
  funext fun a => h.frame a List.not_mem_nil

theorem eq_update (h : Owned h₀ h₁ [(a, n)]) : h₁ = Function.update h₀ a (some n) := by
  funext b
  by_cases hb : b = a
  · rw [hb, Function.update_self]
    exact h.live (a, n) List.mem_cons_self
  · rw [Function.update_of_ne hb]
    exact h.frame b fun hmem => hb (List.mem_singleton.mp hmem)

theorem perm (h : Owned h₀ h₁ xs) (hp : xs.Perm ys) : Owned h₀ h₁ ys where
  nodup := (hp.map Prod.fst).nodup_iff.mp h.nodup
  fresh x hx := h.fresh x (hp.mem_iff.mpr hx)
  live x hx := h.live x (hp.mem_iff.mpr hx)
  frame a ha := h.frame a fun hmem => ha ((hp.map Prod.fst).mem_iff.mp hmem)

theorem live_head (h : Owned h₀ h₁ ((a, n) :: xs)) : h₁ a = some n :=
  h.live (a, n) List.mem_cons_self

theorem notMem (h : Owned h₀ h₁ xs) (ha : h₁ a = none) : a ∉ xs.map Prod.fst := by
  intro hmem
  obtain ⟨x, hx, rfl⟩ := List.mem_map.mp hmem
  cases ha.symm.trans (h.live x hx)

theorem malloc (h : Owned h₀ h₁ xs) (ha : h₁ a = none) (n : N) :
    Owned h₀ (Function.update h₁ a (some n)) ((a, n) :: xs) where
  nodup := List.nodup_cons.mpr ⟨h.notMem ha, h.nodup⟩
  fresh x hx := by
    rcases List.mem_cons.mp hx with rfl | hx
    · exact (h.frame a (h.notMem ha)).symm.trans ha
    · exact h.fresh x hx
  live x hx := by
    rcases List.mem_cons.mp hx with rfl | hx
    · exact Function.update_self ..
    · have hne : x.1 ≠ a := fun heq => h.notMem ha (heq ▸ List.mem_map_of_mem hx)
      rw [Function.update_of_ne hne]
      exact h.live x hx
  frame b hb := by
    rw [List.map_cons, List.mem_cons, not_or] at hb
    rw [Function.update_of_ne hb.1]
    exact h.frame b hb.2

theorem free (h : Owned h₀ h₁ ((a, n) :: xs)) : Owned h₀ (Function.update h₁ a none) xs where
  nodup := (List.nodup_cons.mp h.nodup).2
  fresh x hx := h.fresh x (List.mem_cons_of_mem _ hx)
  live x hx := by
    have hmem : x.1 ∈ xs.map Prod.fst := List.mem_map_of_mem hx
    have hne : x.1 ≠ a := fun heq => (List.nodup_cons.mp h.nodup).1 (heq ▸ hmem)
    rw [Function.update_of_ne hne]
    exact h.live x (List.mem_cons_of_mem _ hx)
  frame b hb := by
    by_cases hba : b = a
    · rw [hba, Function.update_self]
      exact (h.fresh (a, n) List.mem_cons_self).symm
    · rw [Function.update_of_ne hba]
      exact h.frame b fun hmem => (List.mem_cons.mp hmem).elim hba hb

theorem write (h : Owned h₀ h₁ ((a, n) :: xs)) (n' : N) :
    Owned h₀ (Function.update h₁ a (some n')) ((a, n') :: xs) := by
  have hfree := h.free.malloc (Function.update_self a none h₁) n'
  rwa [Function.update_idem] at hfree

/-! ## The operations of the heap -/

theorem load_ok (h : Owned h₀ h₁ ((a, n) :: xs)) : Heap.load h₁ (some a) = .ok n :=
  Heap.load_some h.live_head

theorem free_ok (h : Owned h₀ h₁ ((a, n) :: xs)) :
    ∃ h₂, Heap.free h₁ (some a) = .ok h₂ ∧ Owned h₀ h₂ xs :=
  ⟨_, Heap.free_some h.live_head, h.free⟩

theorem modify_ok (h : Owned h₀ h₁ ((a, n) :: xs)) (f : N → N) :
    ∃ h₂, Heap.modify h₁ (some a) f = .ok h₂ ∧ Owned h₀ h₂ ((a, f n) :: xs) :=
  ⟨_, Heap.modify_some f h.live_head, h.write (f n)⟩

end Owned

end Jccl
