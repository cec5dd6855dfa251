/-
# `Jccl.Lib.Refusal` — runs whose requests for memory are refused

A run looks at as many answers of the allocator as it makes requests
(`Asks`).  One that handles refusals gives nothing back when a request of its
was refused, and does not come to use what it did not get (`HandlesRefusal`).
Runs with that property can be put one after the other, as long as the second
one gives nothing back when it gets nothing.
-/
import Jccl.Lib.Alloc

namespace Jccl

/-- The answer to the request that comes after `i` others. -/
def answerAt (answers : List Bool) (i : Nat) : Bool := granted (answers.drop i)

/-- One of the first `k` requests is refused. -/
def Refused (answers : List Bool) (k : Nat) : Prop := ∃ i < k, answerAt answers i = false

/-- With these answers the run makes `k` requests and comes to `x`, whatever
the answers after them are. -/
def Asks {α : Type} (m : AllocM α) (answers : List Bool) (k : Nat) (x : Outcome α) : Prop :=
  ∀ l, (∀ i < k, answerAt l i = answerAt answers i) → m.run l = x >>= fun a => .ok (a, l.drop k)

/-- The run does not come to a null pointer.  If a request that it makes is
refused, it gives nothing back; otherwise it comes to the same as with memory
for everything. -/
def HandlesRefusal {α : Type} (m : AllocM (Option α)) (answers : List Bool) : Prop :=
  ∃ k x, Asks m answers k x ∧ Avoids .null x ∧ (Refused answers k → x = .ok none) ∧
    (¬ Refused answers k → m.run [] = x >>= fun a => .ok (a, []))

section Answers

variable {answers : List Bool} {i k : Nat}

theorem answerAt_drop (answers : List Bool) (k i : Nat) :
    answerAt (answers.drop k) i = answerAt answers (k + i) := by
  rw [answerAt, answerAt, List.drop_drop]

theorem answerAt_nil (i : Nat) : answerAt [] i = true := by
  rw [answerAt, List.drop_nil, granted_nil]

theorem answerAt_zero (answers : List Bool) : answerAt answers 0 = granted answers := rfl

/-- Requests are refused as long as there is an answer for them. -/
theorem lt_of_answerAt (h : answerAt answers i = false) : i < answers.length := by
  by_contra hle
  rw [answerAt, List.drop_of_length_le (not_lt.mp hle), granted_nil] at h
  cases h

theorem not_refused_iff : ¬ Refused answers k ↔ ∀ i < k, answerAt answers i = true := by
  simp [Refused]

theorem refused_add {j : Nat} :
    Refused answers (k + j) ↔ Refused answers k ∨ Refused (answers.drop k) j := by
  constructor
  · rintro ⟨i, hi, h⟩
    by_cases hik : i < k
    · exact .inl ⟨i, hik, h⟩
    · refine .inr ⟨i - k, by omega, ?_⟩
      rw [answerAt_drop, Nat.add_sub_cancel' (not_lt.mp hik)]
      exact h
  · rintro (⟨i, hi, h⟩ | ⟨i, hi, h⟩)
    · exact ⟨i, by omega, h⟩
    · exact ⟨k + i, by omega, by rwa [← answerAt_drop]⟩

end Answers

/-! ## The requests of a run -/

section Asks

variable {α β : Type} {answers : List Bool} {k : Nat}

theorem asks_pure (a : α) : Asks (pure a) answers 0 (.ok a) := fun _ _ => rfl

theorem asks_lift (x : Outcome α) : Asks (liftM x : AllocM α) answers 0 x := fun _ _ => rfl

theorem asks_allocates : Asks allocates answers 1 (.ok (granted answers)) := by
  intro l hl
  rw [allocates_run, ← answerAt_zero answers, ← hl 0 Nat.one_pos, List.drop_one]
  rfl

theorem Asks.run {m : AllocM α} {x : Outcome α} (h : Asks m answers k x) :
    m.run answers = x >>= fun a => .ok (a, answers.drop k) := h answers fun _ _ => rfl

theorem Asks.bind {m : AllocM α} {f : α → AllocM β} {a : α} {j : Nat} {y : Outcome β}
    (h : Asks m answers k (.ok a)) (hf : Asks (f a) (answers.drop k) j y) :
    Asks (m >>= f) answers (k + j) y := by
  intro l hl
  have hrest := hf (l.drop k) fun i hi => by
    rw [answerAt_drop, answerAt_drop, hl (k + i) (by omega)]
  rw [StateT.run_bind, h l fun i hi => hl i (by omega), Outcome.ok_bind, Outcome.ok_bind, hrest,
    List.drop_drop]

theorem Asks.bind_error {m : AllocM α} {e : Fault} (h : Asks m answers k (.error e))
    (f : α → AllocM β) : Asks (m >>= f) answers k (.error e) := by
  intro l hl
  rw [StateT.run_bind, h l hl]
  rfl

/-- A run none of whose requests is refused is the one with memory for everything. -/
theorem Asks.run_nil {m : AllocM α} {x : Outcome α} (h : Asks m answers k x)
    (hr : ¬ Refused answers k) : m.run [] = x >>= fun a => .ok (a, []) := by
  have hrun := h [] fun i hi => by rw [answerAt_nil, not_refused_iff.mp hr i hi]
  rwa [List.drop_nil] at hrun

end Asks

/-! ## Refusals that are handled -/

section Handles

variable {α β : Type} {answers : List Bool}

theorem Asks.handles {m : AllocM (Option α)} {k : Nat} {x : Outcome (Option α)}
    (h : Asks m answers k x) (hx : Avoids .null x) (hr : Refused answers k → x = .ok none) :
    HandlesRefusal m answers :=
  ⟨k, x, h, hx, hr, h.run_nil⟩

theorem not_refused_zero : ¬ Refused answers 0 := fun ⟨_, h, _⟩ => absurd h (Nat.not_lt_zero _)

theorem not_refused_one (hg : granted answers = true) : ¬ Refused answers 1 := by
  rintro ⟨i, hi, h⟩
  obtain rfl : i = 0 := by omega
  rw [answerAt_zero, hg] at h
  cases h

/-- A run without a request. -/
theorem Asks.handles_zero {m : AllocM (Option α)} {x : Outcome (Option α)}
    (h : Asks m answers 0 x) (hx : Avoids .null x) : HandlesRefusal m answers :=
  h.handles hx fun hr => absurd hr not_refused_zero

theorem handles_pure (o : Option α) : HandlesRefusal (pure o) answers :=
  (asks_pure o).handles_zero (avoids_ok o)

theorem handles_lift {x : Outcome (Option α)} (hx : Avoids .null x) :
    HandlesRefusal (liftM x) answers := (asks_lift x).handles_zero hx

theorem handles_throw {e : Fault} (he : e ≠ .null) :
    HandlesRefusal (throw e : AllocM (Option α)) answers :=
  handles_lift (avoids_error he)

theorem handles_ite {p : Prop} [Decidable p] {m m' : AllocM (Option α)}
    (hm : HandlesRefusal m answers) (hm' : HandlesRefusal m' answers) :
    HandlesRefusal (if p then m else m') answers := by
  split
  · exact hm
  · exact hm'

theorem HandlesRefusal.run_ne_null {m : AllocM (Option α)} (h : HandlesRefusal m answers) :
    m.run answers ≠ .error .null := by
  obtain ⟨k, x, hasks, hx, -⟩ := h
  rw [hasks.run]
  exact Avoids.bind hx fun _ => avoids_ok _

/-- What is computed without a request comes before the requests. -/
theorem handles_lift_bind {x : Outcome β} {f : β → AllocM (Option α)} (hx : Avoids .null x)
    (hf : ∀ b, x = .ok b → HandlesRefusal (f b) answers) :
    HandlesRefusal ((liftM x : AllocM β) >>= f) answers := by
  cases x with
  | error e => exact ((asks_lift (.error e)).bind_error f).handles_zero hx.error
  | ok b => exact hf b rfl

/-- A single request. -/
theorem handles_allocates (m : AllocM (Option α)) (hm : HandlesRefusal m answers.tail) :
    HandlesRefusal (do if ← allocates then m else pure none) answers := by
  cases hg : granted answers with
  | false =>
      have hasks : Asks (do if ← allocates then m else pure none) answers (1 + 0) (.ok none) :=
        asks_allocates.bind (f := fun ok => if ok then m else pure none)
          (by rw [hg]; exact asks_pure none)
      exact hasks.handles (avoids_ok none) fun _ => rfl
  | true =>
      obtain ⟨k, x, hasks, hx, hr, -⟩ := hm
      rw [← List.drop_one] at hasks hr
      have hbind : Asks (do if ← allocates then m else pure none) answers (1 + k) x :=
        asks_allocates.bind (f := fun ok => if ok then m else pure none)
          (by rw [hg]; exact hasks)
      exact hbind.handles hx fun h =>
        hr ((refused_add.mp h).resolve_left (not_refused_one hg))

/-- One run after the other: where a request is refused, the second one has to
give nothing back for nothing. -/
theorem HandlesRefusal.bind {m : AllocM (Option α)} {f : Option α → AllocM (Option β)}
    (hm : HandlesRefusal m answers) (hnull : ∀ k, Refused answers k → f none = pure none)
    (hf : ∀ o k, Asks m answers k (.ok o) → HandlesRefusal (f o) (answers.drop k)) :
    HandlesRefusal (m >>= f) answers := by
  obtain ⟨k, x, hasks, hx, hr, -⟩ := hm
  cases x with
  | error e =>
      refine (hasks.bind_error f).handles hx.error fun h => ?_
      cases hr h
  | ok o =>
      by_cases hk : Refused answers k
      · obtain rfl : o = none := Except.ok.inj (hr hk)
        have hbind : Asks (m >>= f) answers (k + 0) (.ok none) :=
          hasks.bind (by rw [hnull k hk]; exact asks_pure none)
        exact hbind.handles (avoids_ok none) fun _ => rfl
      · obtain ⟨j, y, hasks', hy, hr', -⟩ := hf o k hasks
        exact (hasks.bind hasks').handles hy fun h => hr' ((refused_add.mp h).resolve_left hk)

end Handles

end Jccl
