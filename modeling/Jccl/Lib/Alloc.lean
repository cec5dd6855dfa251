/-
# `Jccl.Lib.Alloc` — runs that ask the allocator for memory

Whether an allocation succeeds is not for the program to say.  A run takes a
list with the answer to each request to come, in order; when the list is used
up every further request succeeds, so the empty list is a run in which memory
never ends.
-/
import Jccl.Lib.Fault

namespace Jccl

/-- A run that asks the allocator for memory. -/
abbrev AllocM := StateT (List Bool) (Except Fault)

/-- The answer to the next allocation. -/
def granted : List Bool → Bool
  | [] => true
  | answer :: _ => answer

/-- Whether the next allocation succeeds. -/
def allocates : AllocM Bool := fun answers => .ok (granted answers, answers.tail)

theorem allocates_run (answers : List Bool) :
    allocates.run answers = .ok (granted answers, answers.tail) := rfl

@[simp] theorem granted_nil : granted [] = true := rfl

@[simp] theorem AllocM.run_lift {α : Type} (x : Outcome α) (answers : List Bool) :
    (liftM x : AllocM α).run answers = x >>= fun a => .ok (a, answers) := rfl

@[simp] theorem AllocM.run_pure {α : Type} (a : α) (answers : List Bool) :
    (pure a : AllocM α).run answers = .ok (a, answers) := rfl

theorem AllocM.run_lift_bind {α β : Type} (x : Outcome α) (f : α → AllocM β)
    (answers : List Bool) :
    ((liftM x : AllocM α) >>= f).run answers = x >>= fun a => (f a).run answers := by
  cases x <;> rfl

theorem AllocM.bind_eq_ok {α β : Type} {x : AllocM α} {f : α → AllocM β} {s : List Bool}
    {r : β × List Bool} :
    (x >>= f).run s = .ok r ↔ ∃ a t, x.run s = .ok (a, t) ∧ (f a).run t = .ok r := by
  rw [StateT.run_bind, Outcome.bind_eq_ok]
  exact ⟨fun ⟨p, h, h'⟩ => ⟨p.1, p.2, h, h'⟩, fun ⟨a, t, h, h'⟩ => ⟨(a, t), h, h'⟩⟩

theorem AllocM.lift_bind_eq_ok {α β : Type} {x : Outcome α} {f : α → AllocM β} {s : List Bool}
    {r : β × List Bool} :
    ((liftM x : AllocM α) >>= f).run s = .ok r ↔ ∃ a, x = .ok a ∧ (f a).run s = .ok r := by
  cases x with
  | error e => exact ⟨fun h => (by cases h), fun ⟨_, h, _⟩ => (by cases h)⟩
  | ok a => exact ⟨fun h => ⟨a, rfl, h⟩, fun ⟨_, h, h'⟩ => by cases h; exact h'⟩

end Jccl
