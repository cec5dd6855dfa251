/-
# `Jccl.Lib.Fault` — runs of C code that may end without a value

A C function that is translated into Lean returns `Except Fault α`: either
the value it computes, or the reason why the abstract machine has no value
to give.  Three things live here and name no program: the reasons, the
checked operations on `int`, and the counting loop with the two rules every
later proof about a loop uses.

  * `forLoop_ok`: an invariant that every iteration can be run under makes
    the whole loop run, and holds at its end;
  * `forLoop_inv`: of a loop that did run, the invariant holds at the end,
    whatever the iterations may have done to get there.
-/
import Mathlib

namespace Jccl

/-- Why a run ends without a value. -/
inductive Fault where
  /-- the condition of an `assert` is false -/
  | assertion
  /-- a null pointer is dereferenced -/
  | null
  /-- an object is read or written outside its bounds -/
  | bounds
  /-- a pointer to an object that was freed, or never allocated, is used -/
  | dangling
  /-- the distance of a shift is negative or not below the width -/
  | shift
  /-- a signed operation leaves the range of its type -/
  | overflow
  /-- the divisor of a division or a remainder is zero -/
  | division
  /-- the recursion is deeper than the fuel it was given -/
  | timeout
deriving DecidableEq, Repr

abbrev Outcome (α : Type) := Except Fault α

/-- `assert(p)`. -/
def assert (p : Prop) [Decidable p] : Outcome Unit :=
  if p then .ok () else .error .assertion

@[simp] theorem assert_of {p : Prop} [Decidable p] (h : p) : assert p = .ok () := if_pos h

@[simp] theorem assert_not {p : Prop} [Decidable p] (h : ¬ p) :
    assert p = .error .assertion := if_neg h

/-! ## `int` -/

def INT_MAX : Int := 2 ^ 31 - 1

def INT_MIN : Int := -2 ^ 31

/-- The value of a signed expression of type `int`. -/
def checkInt (x : Int) : Outcome Int :=
  if INT_MIN ≤ x ∧ x ≤ INT_MAX then .ok x else .error .overflow

theorem checkInt_of {x : Int} (h : INT_MIN ≤ x ∧ x ≤ INT_MAX) : checkInt x = .ok x := if_pos h

theorem checkInt_eq_ok {x y : Int} :
    checkInt x = .ok y ↔ x = y ∧ INT_MIN ≤ x ∧ x ≤ INT_MAX := by
  by_cases h : INT_MIN ≤ x ∧ x ≤ INT_MAX
  · simp [checkInt, h]
  · simp only [checkInt, if_neg h]
    exact ⟨fun h' => (by cases h'), fun h' => absurd h'.2 h⟩

theorem checkInt_not {x : Int} (h : INT_MAX < x) : checkInt x = .error .overflow :=
  if_neg fun hx => absurd h (not_lt.mpr hx.2)

/-- The conversion of an unsigned value to `int`, modulo `2 ^ 32`. -/
def narrow (x : Nat) : Int := Int.bmod x (2 ^ 32)

theorem narrow_of_le {x : Nat} (h : (x : Int) ≤ INT_MAX) : narrow x = x := by
  unfold INT_MAX at h
  exact Int.bmod_eq_of_le_mul_two (by omega) (by omega)

theorem narrow_le_max (x : Nat) : narrow x ≤ INT_MAX := by
  have h := Int.bmod_le (x := (x : Int)) (m := 2 ^ 32) (by decide)
  unfold narrow INT_MAX
  omega

theorem narrow_le (x : Nat) : narrow x ≤ x := by
  rcases le_or_gt (x : Int) INT_MAX with h | h
  · exact (narrow_of_le h).le
  · exact (narrow_le_max x).trans h.le

theorem min_le_narrow (x : Nat) : INT_MIN ≤ narrow x := by
  have h := Int.le_bmod (x := (x : Int)) (m := 2 ^ 32) (by decide)
  unfold narrow INT_MIN
  omega

/-! ## Pointers and error numbers -/

/-- `*p`, of a pointer that may be null. -/
def deref {α : Type} : Option α → Outcome α
  | some a => .ok a
  | none => .error .null

@[simp] theorem deref_some {α : Type} (a : α) : deref (some a) = .ok a := rfl

theorem eq_of_deref {α : Type} {p : Option α} {a : α} (h : deref p = .ok a) : p = some a := by
  cases p with
  | none => cases h
  | some b => exact congrArg some (Except.ok.inj h)

/-- The numbers of `<errno.h>`. -/
def ESRCH : Int := 3
def ENOMEM : Int := 12
def EINVAL : Int := 22
def EDOM : Int := 33
def ERANGE : Int := 34
def ENODATA : Int := 61
def EADDRNOTAVAIL : Int := 99

/-! ## Sequencing -/

theorem Outcome.bind_eq_ok {α β : Type} {x : Outcome α} {f : α → Outcome β} {b : β} :
    (x >>= f) = .ok b ↔ ∃ a, x = .ok a ∧ f a = .ok b := by
  cases x with
  | error e => exact ⟨fun h => (by cases h), fun ⟨_, h, _⟩ => (by cases h)⟩
  | ok a => exact ⟨fun h => ⟨a, rfl, h⟩, fun ⟨_, h, h'⟩ => by cases h; exact h'⟩

@[simp] theorem Outcome.pure_eq {α : Type} (a : α) : (pure a : Outcome α) = .ok a := rfl

@[simp] theorem Outcome.ok_bind {α β : Type} (a : α) (f : α → Outcome β) :
    ((Except.ok a : Outcome α) >>= f) = f a := rfl

@[simp] theorem Outcome.error_bind {α β : Type} (e : Fault) (f : α → Outcome β) :
    ((Except.error e : Outcome α) >>= f) = .error e := rfl

/-! ## Runs that a fault does not end -/

/-- The run does not end in the fault `e`. -/
def Avoids {α : Type} (e : Fault) (x : Outcome α) : Prop := x ≠ .error e

section Avoids

variable {α β : Type} {e : Fault}

theorem avoids_ok (a : α) : Avoids e (.ok a : Outcome α) := fun h => (by cases h)

theorem avoids_error {e' : Fault} (h : e' ≠ e) : Avoids e (.error e' : Outcome α) :=
  fun h' => h (Except.error.inj h')

/-- A fault is that of any type of value. -/
theorem Avoids.error {e' : Fault} (h : Avoids e (.error e' : Outcome α)) :
    Avoids e (.error e' : Outcome β) := avoids_error fun he => h (congrArg _ he)

theorem Avoids.bind {x : Outcome α} {f : α → Outcome β} (hx : Avoids e x)
    (hf : ∀ a, Avoids e (f a)) : Avoids e (x >>= f) := by
  cases x with
  | error e' => exact hx.error
  | ok a => exact hf a

theorem avoids_ite {p : Prop} [Decidable p] {x y : Outcome α} (hx : Avoids e x)
    (hy : Avoids e y) : Avoids e (if p then x else y) := by
  split
  · exact hx
  · exact hy

end Avoids

/-- The only fault in which the run may end is `e`. -/
def FaultsOnly {α : Type} (e : Fault) (x : Outcome α) : Prop := ∀ e', x = .error e' → e' = e

section FaultsOnly

variable {α β : Type} {e : Fault}

theorem faultsOnly_ok (a : α) : FaultsOnly e (.ok a : Outcome α) := fun _ h => (by cases h)

theorem FaultsOnly.bind {x : Outcome α} {f : α → Outcome β} (hx : FaultsOnly e x)
    (hf : ∀ a, x = .ok a → FaultsOnly e (f a)) : FaultsOnly e (x >>= f) := by
  intro e' h
  cases x with
  | error e'' => exact hx e' (congrArg Except.error (Except.error.inj h))
  | ok a => exact hf a rfl e' h

end FaultsOnly

/-! ## Arrays -/

section Array

variable {α : Type}

/-- The rvalue `a[i]`. -/
def readAt (a : List α) (i : Nat) : Outcome α :=
  match a[i]? with
  | some x => .ok x
  | none => .error .bounds

/-- The assignment `a[i] = x`. -/
def writeAt (a : List α) (i : Nat) (x : α) : Outcome (List α) :=
  if i < a.length then .ok (a.set i x) else .error .bounds

theorem readAt_of_lt {a : List α} {i : Nat} (h : i < a.length) : readAt a i = .ok a[i] := by
  simp [readAt, h]

theorem getElem?_of_readAt {a : List α} {i : Nat} {x : α} (h : readAt a i = .ok x) :
    a[i]? = some x := by
  unfold readAt at h
  split at h
  · rename_i y hy
    cases h
    exact hy
  · cases h

theorem mem_of_readAt {a : List α} {i : Nat} {x : α} (h : readAt a i = .ok x) : x ∈ a :=
  List.mem_of_getElem? (getElem?_of_readAt h)

theorem writeAt_of_lt {a : List α} {i : Nat} (h : i < a.length) (x : α) :
    writeAt a i x = .ok (a.set i x) := if_pos h

theorem readAt_append {l r : List α} {x : α} {i : Nat} (h : i = l.length) :
    readAt (l ++ x :: r) i = .ok x := by
  subst h
  simp [readAt]

theorem writeAt_append {l r : List α} {x : α} {i : Nat} (h : i = l.length) (y : α) :
    writeAt (l ++ x :: r) i y = .ok (l ++ y :: r) := by
  subst h
  simp [writeAt]

end Array

/-! ## The counting loop -/

/-- `for (i = 0; i < n; i++) s = f(i, s);` -/
def forLoop {σ : Type} (f : Nat → σ → Outcome σ) : Nat → σ → Outcome σ
  | 0, s => .ok s
  | n + 1, s => do
      let s ← forLoop f n s
      f n s

section Loop

variable {σ : Type} {f : Nat → σ → Outcome σ} {I : Nat → σ → Prop}

theorem forLoop_ok {n : Nat} {s : σ} (h0 : I 0 s)
    (hstep : ∀ i s, i < n → I i s → ∃ s', f i s = .ok s' ∧ I (i + 1) s') :
    ∃ s', forLoop f n s = .ok s' ∧ I n s' := by
  induction n with
  | zero => exact ⟨s, rfl, h0⟩
  | succ n ih =>
      obtain ⟨t, ht, hInv⟩ := ih (fun i s hi => hstep i s (by omega))
      obtain ⟨s', hs', hInv'⟩ := hstep n t (by omega) hInv
      exact ⟨s', by simp [forLoop, ht, hs'], hInv'⟩

/-- A loop of which every state is known. -/
theorem forLoop_trace {n : Nat} {g : Nat → σ} (hstep : ∀ i < n, f i (g i) = .ok (g (i + 1))) :
    forLoop f n (g 0) = .ok (g n) := by
  obtain ⟨s, hs, rfl⟩ := forLoop_ok (I := fun i s => s = g i) (n := n) rfl
    (fun i s hi hs => ⟨g (i + 1), hs ▸ hstep i hi, rfl⟩)
  exact hs

theorem forLoop_inv {n : Nat} {s s' : σ} (h : forLoop f n s = .ok s') (h0 : I 0 s)
    (hstep : ∀ i s s', i < n → I i s → f i s = .ok s' → I (i + 1) s') : I n s' := by
  induction n generalizing s' with
  | zero => cases h; exact h0
  | succ n ih =>
      obtain ⟨t, ht, hs'⟩ := Outcome.bind_eq_ok.mp h
      exact hstep n t s' (by omega) (ih ht (fun i s s' hi => hstep i s s' (by omega))) hs'

theorem avoids_forLoop {e : Fault} (hf : ∀ i s, Avoids e (f i s)) :
    ∀ n s, Avoids e (forLoop f n s)
  | 0, s => avoids_ok s
  | n + 1, s => (avoids_forLoop hf n s).bind (hf n)

/-- An iteration of a loop that ran did run, from a state the loop reached. -/
theorem forLoop_step {n i : Nat} {s s' : σ} (h : forLoop f n s = .ok s') (hi : i < n) :
    ∃ t t', forLoop f i s = .ok t ∧ f i t = .ok t' := by
  induction n generalizing s' with
  | zero => omega
  | succ n ih =>
      obtain ⟨t, ht, hs'⟩ := Outcome.bind_eq_ok.mp h
      by_cases hin : i = n
      · exact hin ▸ ⟨t, s', ht, hs'⟩
      · exact ih ht (by omega)

/-- What ends an iteration ends the loop. -/
theorem forLoop_error {n i : Nat} {s : σ} {e : Fault} (h : forLoop f i s = .error e) (hi : i ≤ n) :
    forLoop f n s = .error e := by
  induction n, hi using Nat.le_induction with
  | base => exact h
  | succ n hi ih =>
      rw [forLoop, ih]
      rfl

end Loop

end Jccl
