/-
# `Jccl.Lib.Heap` — a heap of records of one type

A pointer is the address of a block, or `none` for NULL; a heap gives the
record in each live block.  What is read, written or freed has to be live.

`malloc` is told its answer.  An address in an answer is the block the
allocator returns; where it names a block that is live already, which no
allocator does, the request counts as refused.  So every sequence of answers
is that of some run, and every run is that of some sequence of answers.
-/
import Jccl.Lib.Fault

namespace Jccl

abbrev Addr := Nat

/-- The record in each live block. -/
abbrev Heap (N : Type) := Addr → Option N

namespace Heap

variable {N : Type}

/-- No block is live. -/
def empty : Heap N := fun _ => none

/-- `*p`. -/
def load (h : Heap N) : Option Addr → Outcome N
  | none => .error .null
  | some a =>
      match h a with
      | some n => .ok n
      | none => .error .dangling

/-- An update of some fields of `*p`. -/
def modify (h : Heap N) (p : Option Addr) (f : N → N) : Outcome (Heap N) :=
  match p with
  | none => .error .null
  | some a =>
      match h a with
      | some n => .ok (Function.update h a (some (f n)))
      | none => .error .dangling

/-- `free(p)`. -/
def free (h : Heap N) : Option Addr → Outcome (Heap N)
  | none => .ok h
  | some a =>
      match h a with
      | some _ => .ok (Function.update h a none)
      | none => .error .dangling

/-- Whether an answer of the allocator gives a block. -/
def grants (h : Heap N) : Option Addr → Bool
  | none => false
  | some a => (h a).isNone

/-- `malloc`, with the record that the block is initialised to. -/
def malloc (h : Heap N) (answer : Option Addr) (n : N) : Option Addr × Heap N :=
  match answer with
  | none => (none, h)
  | some a => if (h a).isNone then (some a, Function.update h a (some n)) else (none, h)

/-- `realloc` of a block that holds the record then: it stays in its place or is
moved; without memory it is left as it was. -/
def realloc (h : Heap N) (answer : Option Addr) (a : Addr) (n : N) : Option Addr × Heap N :=
  if answer = some a then (some a, Function.update h a (some n))
  else
    match malloc h answer n with
    | (none, h) => (none, h)
    | (some b, h) => (some b, Function.update h a none)

/-- The heap without the blocks at the addresses. -/
def without (h : Heap N) (xs : List Addr) : Heap N := fun a => if a ∈ xs then none else h a

/-- Nothing has been allocated or freed. -/
def SameLive (h h' : Heap N) : Prop := ∀ a, h' a ≠ none ↔ h a ≠ none

section Lemmas

variable {h : Heap N} {a b : Addr} {n : N}

theorem load_some (hn : h a = some n) : load h (some a) = .ok n := by
  simp [load, hn]

theorem modify_some (f : N → N) (hn : h a = some n) :
    modify h (some a) f = .ok (Function.update h a (some (f n))) := by
  simp [modify, hn]

theorem free_some (hn : h a = some n) : free h (some a) = .ok (Function.update h a none) := by
  simp [free, hn]

theorem malloc_of_not_grants {answer : Option Addr} (hg : grants h answer = false) :
    malloc h answer n = (none, h) := by
  cases answer with
  | none => rfl
  | some a =>
      obtain ⟨m, hm⟩ : ∃ m, h a = some m := by simpa [grants, Option.isSome_iff_exists] using hg
      simp [malloc, hm]

theorem malloc_of_grants {answer : Option Addr} (hg : grants h answer = true) :
    ∃ a, answer = some a ∧ h a = none ∧
      malloc h answer n = (some a, Function.update h a (some n)) := by
  cases answer with
  | none => cases hg
  | some a =>
      have ha : h a = none := by simpa [grants] using hg
      exact ⟨a, rfl, ha, by simp [malloc, ha]⟩

/-- A block stays, is moved, or is left as it was. -/
theorem realloc_cases (h : Heap N) (a : Addr) (answer : Option Addr) (n : N) :
    (answer = some a ∧ realloc h answer a n = (some a, Function.update h a (some n))) ∨
    (∃ b, b ≠ a ∧ h b = none ∧ answer = some b ∧ realloc h answer a n
      = (some b, Function.update (Function.update h b (some n)) a none)) ∨
    (answer ≠ some a ∧ realloc h answer a n = (none, h)) := by
  by_cases hstay : answer = some a
  · exact .inl ⟨hstay, if_pos hstay⟩
  · rw [realloc, if_neg hstay]
    cases hg : grants h answer with
    | false =>
        rw [malloc_of_not_grants hg]
        exact .inr (.inr ⟨hstay, rfl⟩)
    | true =>
        obtain ⟨b, rfl, hb, hblock⟩ := malloc_of_grants (n := n) hg
        rw [hblock]
        exact .inr (.inl ⟨b, fun hba => hstay (congrArg some hba), hb, rfl, rfl⟩)

/-- A refusal leaves the heap as it was. -/
theorem eq_of_malloc_none {answer : Option Addr} {h' : Heap N}
    (hm : malloc h answer n = (none, h')) : h' = h := by
  cases hg : grants h answer with
  | false => exact (congrArg Prod.snd ((malloc_of_not_grants hg).symm.trans hm)).symm
  | true =>
      obtain ⟨b, -, -, hb⟩ := malloc_of_grants (n := n) hg
      cases hb.symm.trans hm

/-- An address that is refused is that of a live block. -/
theorem live_malloc (h : Heap N) (answer : Option Addr) (n : N) (a : Addr) :
    (malloc h answer n).2 a ≠ none ↔ h a ≠ none ∨ answer = some a := by
  cases answer with
  | none => exact ⟨.inl, fun hlive => hlive.elim id nofun⟩
  | some b =>
      cases hb : h b with
      | some m =>
          have hm : malloc h (some b) n = (none, h) := by simp [malloc, hb]
          rw [hm]
          refine ⟨.inl, fun hlive => hlive.elim id fun heq => ?_⟩
          cases heq
          exact fun hnone => nomatch hb.symm.trans hnone
      | none =>
          have hm : malloc h (some b) n = (some b, Function.update h b (some n)) := by
            simp [malloc, hb]
          rw [hm]
          dsimp only
          by_cases hab : a = b
          · rw [hab, Function.update_self]
            exact ⟨fun _ => .inr rfl, fun _ => nofun⟩
          · rw [Function.update_of_ne hab]
            exact ⟨.inl, fun hlive => hlive.elim id fun heq => absurd (Option.some.inj heq).symm hab⟩

theorem without_of_mem {xs : List Addr} (ha : a ∈ xs) : without h xs a = none := if_pos ha

theorem without_of_notMem {xs : List Addr} (ha : a ∉ xs) : without h xs a = h a := if_neg ha

theorem SameLive.refl (h : Heap N) : SameLive h h := fun _ => Iff.rfl

theorem SameLive.trans {h₁ h₂ h₃ : Heap N} (h : SameLive h₁ h₂) (h' : SameLive h₂ h₃) :
    SameLive h₁ h₃ := fun a => (h' a).trans (h a)

theorem sameLive_of_modify {h' : Heap N} {p : Option Addr} {f : N → N}
    (hm : modify h p f = .ok h') : SameLive h h' := by
  intro a
  cases p with
  | none => cases hm
  | some b =>
      cases hb : h b with
      | none =>
          simp only [modify, hb] at hm
          cases hm
      | some n =>
          rw [modify_some f hb] at hm
          cases hm
          by_cases hab : a = b
          · subst hab
            rw [Function.update_self, hb]
            exact ⟨fun _ => nofun, fun _ => nofun⟩
          · rw [Function.update_of_ne hab]

/-- A block that is live stays when another one is allocated. -/
theorem live_update (x : Option N) (ha : h a = some n) (hb : h b = none) :
    Function.update h b x a = some n := by
  rw [Function.update_of_ne fun hab => by rw [hab, hb] at ha; cases ha]
  exact ha

theorem update_of_ne (x : Option N) (hne : b ≠ a) : Function.update h a x b = h b :=
  Function.update_of_ne hne x h

end Lemmas

end Heap

end Jccl
