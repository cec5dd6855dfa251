/-
# `Jccl.Lib.Frame` — what a run does beside blocks it does not own

The blocks of a heap `r` are put beside those of a heap `h` (`Heap.beside`).  A
run on `h` that uses no dangling pointer is the same run there, and leaves the
blocks of `r` alone: `Framed` relates the two runs, and there is one rule for
each operation on a heap and one for sequencing.  An address that the allocator
answers with and that is in use in `r` is a refusal to the run on `h`
(`Heap.mask`).

Where each of several owners has blocks of its own, and these are all there
are (`Heap.Splits`), a run of one owner is beside the blocks of the others.
-/
import Jccl.Lib.Heap

namespace Jccl

namespace Heap

variable {N : Type}

def beside (h r : Heap N) : Heap N := fun a => if (h a).isSome then h a else r a

/-- No address has a block in both. -/
def Apart (h r : Heap N) : Prop := ∀ a, h a = none ∨ r a = none

/-- The answer, to a run that does not know of the blocks of `r`. -/
def mask (r : Heap N) : Option Addr → Option Addr
  | none => none
  | some a => if (r a).isSome then none else some a

section Beside

variable {h r : Heap N} {a : Addr} {n : N}

theorem beside_some (ha : h a = some n) : beside h r a = some n := by
  rw [beside, ha]
  rfl

theorem beside_none (ha : h a = none) : beside h r a = r a := by
  rw [beside, ha]
  rfl

theorem Apart.right (hr : Apart h r) (ha : h a = some n) : r a = none := by
  rcases hr a with hnone | hnone
  · cases ha.symm.trans hnone
  · exact hnone

theorem Apart.update (hr : Apart h r) (ha : r a = none) (x : Option N) :
    Apart (Function.update h a x) r := by
  intro b
  by_cases hb : b = a
  · exact .inr (hb ▸ ha)
  · rw [Function.update_of_ne hb]
    exact hr b

theorem beside_update (ha : r a = none) (x : Option N) :
    Function.update (beside h r) a x = beside (Function.update h a x) r := by
  funext b
  by_cases hb : b = a
  · subst hb
    rw [Function.update_self]
    cases x with
    | none => rw [beside_none (Function.update_self ..), ha]
    | some m => rw [beside_some (Function.update_self ..)]
  · rw [Function.update_of_ne hb, beside, beside, Function.update_of_ne hb]

theorem grants_beside (answer : Option Addr) :
    grants (beside h r) answer = grants h (mask r answer) := by
  cases answer with
  | none => rfl
  | some a =>
      cases hr : r a with
      | none =>
          have hmask : mask r (some a) = some a := by rw [mask, hr]; rfl
          rw [hmask, grants, grants, beside, hr]
          cases h a <;> rfl
      | some m =>
          have hmask : mask r (some a) = none := by rw [mask, hr]; rfl
          rw [hmask, grants, grants, beside, hr]
          cases h a <;> rfl

theorem malloc_beside (hr : Apart h r) (answer : Option Addr) (n : N) :
    malloc (beside h r) answer n
      = ((malloc h (mask r answer) n).1, beside (malloc h (mask r answer) n).2 r) ∧
    Apart (malloc h (mask r answer) n).2 r := by
  cases hg : grants h (mask r answer) with
  | false =>
      rw [malloc_of_not_grants hg, malloc_of_not_grants ((grants_beside answer).trans hg)]
      exact ⟨rfl, hr⟩
  | true =>
      obtain ⟨a, hmask, -, hmalloc⟩ := malloc_of_grants (n := n) hg
      obtain ⟨b, rfl, -, hmalloc'⟩ := malloc_of_grants (n := n) ((grants_beside answer).trans hg)
      obtain ⟨rfl, hra⟩ : b = a ∧ r b = none := by
        rw [mask] at hmask
        split at hmask
        · cases hmask
        · rename_i hb
          exact ⟨Option.some.inj hmask, Option.not_isSome_iff_eq_none.mp hb⟩
      rw [hmalloc, hmalloc']
      exact ⟨Prod.ext rfl (beside_update hra _), hr.update hra _⟩

end Beside

end Heap

/-! ## Runs beside other blocks -/

/-- A run, and the same run beside other blocks. -/
inductive Framed {α β : Type} (R : α → β → Prop) : Outcome α → Outcome β → Prop
  | dangling {y} : Framed R (.error .dangling) y
  | fault {e} : Framed R (.error e) (.error e)
  | ok {a b} : R a b → Framed R (.ok a) (.ok b)

section Framed

variable {N α β α' β' : Type} {R : α → β → Prop} {S : α' → β' → Prop}

theorem Framed.bind {x : Outcome α} {y : Outcome β} {f : α → Outcome α'} {g : β → Outcome β'}
    (h : Framed R x y) (hfg : ∀ a b, R a b → Framed S (f a) (g b)) :
    Framed S (x >>= f) (y >>= g) := by
  cases h with
  | dangling => exact .dangling
  | fault => exact .fault
  | ok hR => exact hfg _ _ hR

/-- What does not look at a heap. -/
theorem framed_bind_same {x : Outcome α} {f : α → Outcome α'} {g : α → Outcome β'}
    (hfg : ∀ a, Framed S (f a) (g a)) : Framed S (x >>= f) (x >>= g) := by
  cases x with
  | error e => exact .fault
  | ok a => exact hfg a

theorem framed_ite {p : Prop} [Decidable p] {x x' : Outcome α} {y y' : Outcome β}
    (h : Framed R x y) (h' : Framed R x' y') :
    Framed R (if p then x else x') (if p then y else y') := by
  split
  · exact h
  · exact h'

/-- A run that ends in no dangling pointer tells what the other one comes to. -/
theorem Framed.ok_right {x : Outcome α} {y : Outcome β} {a : α} (h : Framed R x y)
    (hx : x = .ok a) : ∃ b, y = .ok b ∧ R a b := by
  subst hx
  cases h with
  | ok hR => exact ⟨_, rfl, hR⟩

theorem Framed.error_right {x : Outcome α} {y : Outcome β} {e : Fault} (h : Framed R x y)
    (hx : x = .error e) (he : e ≠ .dangling) : y = .error e := by
  subst hx
  cases h with
  | dangling => exact absurd rfl he
  | fault => rfl

/-- A heap, and it beside other blocks. -/
def FramedHeap (r h g : Heap N) : Prop := g = h.beside r ∧ Heap.Apart h r

variable {h r : Heap N} (hr : Heap.Apart h r) (p : Option Addr)

theorem framed_load : Framed Eq (h.load p) ((h.beside r).load p) := by
  cases p with
  | none => exact .fault
  | some a =>
      cases ha : h a with
      | none =>
          rw [Heap.load, ha]
          exact .dangling
      | some n =>
          rw [Heap.load_some ha, Heap.load_some (Heap.beside_some ha)]
          exact .ok rfl

include hr

theorem framed_modify (f : N → N) :
    Framed (FramedHeap r) (h.modify p f) ((h.beside r).modify p f) := by
  cases p with
  | none => exact .fault
  | some a =>
      cases ha : h a with
      | none =>
          rw [Heap.modify, ha]
          exact .dangling
      | some n =>
          have hra := hr.right ha
          rw [Heap.modify_some f ha, Heap.modify_some f (Heap.beside_some ha),
            Heap.beside_update hra]
          exact .ok ⟨rfl, hr.update hra _⟩

theorem framed_free : Framed (FramedHeap r) (h.free p) ((h.beside r).free p) := by
  cases p with
  | none => exact .ok ⟨rfl, hr⟩
  | some a =>
      cases ha : h a with
      | none =>
          rw [Heap.free, ha]
          exact .dangling
      | some n =>
          have hra := hr.right ha
          rw [Heap.free_some ha, Heap.free_some (Heap.beside_some ha), Heap.beside_update hra]
          exact .ok ⟨rfl, hr.update hra _⟩

end Framed

/-! ## Several owners -/

namespace Heap

variable {N I : Type}

/-- The heap is what the owners have, and no block has two owners. -/
structure Splits (h : Heap N) (own : I → Heap N) : Prop where
  apart : ∀ i j, i ≠ j → Apart (own i) (own j)
  all : ∀ a n, h a = some n ↔ ∃ i, own i a = some n

/-- The blocks that one owner does not have. -/
def others (h own : Heap N) : Heap N := fun a => if (own a).isSome then none else h a

section Splits

variable {h : Heap N} {own : I → Heap N}

theorem others_of_none {o : Heap N} {a : Addr} (ha : o a = none) : others h o a = h a := by
  rw [others, ha]
  rfl

theorem others_of_some {o : Heap N} {a : Addr} {n : N} (ha : o a = some n) :
    others h o a = none := by
  rw [others, ha]
  rfl

theorem apart_others (h o : Heap N) : Apart o (others h o) := by
  intro a
  cases ha : o a with
  | none => exact .inl rfl
  | some n => exact .inr (others_of_some ha)

theorem Apart.symm {r : Heap N} (hr : Apart h r) : Apart r h := fun a => (hr a).symm

theorem Splits.others_iff (hs : Splits h own) (i : I) (a : Addr) (n : N) :
    others h (own i) a = some n ↔ ∃ j, j ≠ i ∧ own j a = some n := by
  cases ha : own i a with
  | none =>
      rw [others_of_none ha, hs.all]
      constructor
      · rintro ⟨j, hj⟩
        refine ⟨j, ?_, hj⟩
        rintro rfl
        cases ha.symm.trans hj
      · rintro ⟨j, -, hj⟩
        exact ⟨j, hj⟩
  | some m =>
      rw [others_of_some ha]
      constructor
      · intro hnone
        cases hnone
      · rintro ⟨j, hne, hj⟩
        cases ((hs.apart i j hne.symm).right ha).symm.trans hj

/-- One owner is beside all the others. -/
theorem Splits.beside (hs : Splits h own) (i : I) : h = (own i).beside (others h (own i)) := by
  funext a
  cases ha : own i a with
  | none => rw [beside_none ha, others_of_none ha]
  | some n => rw [beside_some ha, (hs.all a n).mpr ⟨i, ha⟩]

/-- It stays so with the blocks that the one owner comes to have. -/
theorem Splits.update [DecidableEq I] (hs : Splits h own) {i : I} {h' : Heap N}
    (hr : Apart h' (others h (own i))) :
    Splits (h'.beside (others h (own i))) (Function.update own i h') := by
  have hapart : ∀ j, j ≠ i → Apart h' (own j) := by
    intro j hj a
    cases ha : own j a with
    | none => exact .inr rfl
    | some n => exact .inl (hr.symm.right ((hs.others_iff i a n).mpr ⟨j, hj, ha⟩))
  constructor
  · intro j k hjk
    by_cases hj : j = i
    · subst hj
      rw [Function.update_self, Function.update_of_ne (Ne.symm hjk)]
      exact hapart k (Ne.symm hjk)
    · by_cases hk : k = i
      · subst hk
        rw [Function.update_self, Function.update_of_ne hj]
        exact (hapart j hj).symm
      · rw [Function.update_of_ne hj, Function.update_of_ne hk]
        exact hs.apart j k hjk
  · intro a n
    constructor
    · intro ha
      cases hh : h' a with
      | some m =>
          rw [beside_some hh] at ha
          exact ⟨i, by rw [Function.update_self, hh, ha]⟩
      | none =>
          rw [beside_none hh, hs.others_iff] at ha
          obtain ⟨j, hj, hja⟩ := ha
          exact ⟨j, by rw [Function.update_of_ne hj, hja]⟩
    · rintro ⟨j, hj⟩
      by_cases hji : j = i
      · subst hji
        rw [Function.update_self] at hj
        exact beside_some hj
      · rw [Function.update_of_ne hji] at hj
        have hother := (hs.others_iff i a n).mpr ⟨j, hji, hj⟩
        rw [beside_none (hr.symm.right hother), hother]

end Splits

end Heap

end Jccl
