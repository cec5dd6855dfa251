/-
# `Jccl.Lib.CString` — the string functions of `<string.h>`

A buffer is the list of the bytes of an object, and the string in it ends at
the first NUL.  A function that runs off the end of the object before it
meets a NUL has no value.
-/
import Jccl.Lib.Fault

namespace Jccl

/-- `strlen(s)`, for a pointer to the first byte of the buffer `s`. -/
def strlen (s : List UInt8) : Outcome Nat :=
  match s.idxOf? 0 with
  | some n => .ok n
  | none => .error .bounds

theorem strlen_append {s : List UInt8} (h : 0 ∉ s) (rest : List UInt8) :
    strlen (s ++ 0 :: rest) = .ok s.length := by
  have hidx : (s ++ 0 :: rest).idxOf? 0 = some s.length := by
    induction s with
    | nil => rfl
    | cons x s ih =>
        obtain ⟨hx, hs⟩ := List.ne_and_not_mem_of_not_mem_cons h
        have hne : (x == 0) = false := beq_eq_false_iff_ne.mpr hx.symm
        simp [List.idxOf?_cons, hne, ih hs]
  simp only [strlen, hidx]

theorem strlen_lt {s : List UInt8} {n : Nat} (h : strlen s = .ok n) : n < s.length := by
  rw [strlen] at h
  split at h
  · rename_i hidx
    cases h
    exact (List.idxOf?_eq_some_iff.mp hidx).1
  · cases h

/-- `strchr(s, c) - s` for the string whose bytes before the NUL are `s`:
the terminator belongs to the string, so a NUL is found at its end. -/
def strchr (s : List UInt8) (c : UInt8) : Option Nat :=
  (s ++ [0]).idxOf? c

theorem strchr_of_mem {s : List UInt8} {c : UInt8} (h : c ∈ s) :
    strchr s c = some (s.idxOf c) := by
  unfold strchr
  induction s with
  | nil => simp at h
  | cons x s ih =>
      rw [List.cons_append, List.idxOf?_cons, List.idxOf_cons]
      by_cases hx : x = c
      · simp [hx]
      · have hc : c ∈ s := (List.mem_cons.mp h).resolve_left (Ne.symm hx)
        have hne : (x == c) = false := by simpa using hx
        simp [hne, ih hc]

theorem strchr_eq_none {s : List UInt8} {c : UInt8} : strchr s c = none ↔ c ∉ s ∧ c ≠ 0 := by
  rw [strchr, List.idxOf?_eq_none_iff, List.mem_append, List.mem_singleton, not_or]

/-! ## Strings -/

/-- A string: the bytes before the terminator, none of which is NUL. -/
structure CString where
  bytes : List UInt8
  nonul : 0 ∉ bytes
deriving DecidableEq

/-- The difference of the first bytes that differ, a string that ends being
continued by its terminator. -/
def strcmpBytes : List UInt8 → List UInt8 → Int
  | [], [] => 0
  | [], y :: _ => -y.toNat
  | x :: _, [] => x.toNat
  | x :: s, y :: t => if x = y then strcmpBytes s t else x.toNat - y.toNat

/-- `strcmp(s, t)`. -/
def strcmp (s t : Option CString) : Outcome Int := do
  let s ← deref s
  let t ← deref t
  return strcmpBytes s.bytes t.bytes

theorem toNat_ne_zero_of_nonul {s : List UInt8} {x : UInt8} (h : 0 ∉ s) (hx : x ∈ s) :
    x.toNat ≠ 0 := by
  intro h0
  obtain rfl : x = 0 := UInt8.toNat_inj.mp h0
  exact h hx

theorem strcmpBytes_eq_zero {s t : List UInt8} (hs : 0 ∉ s) (ht : 0 ∉ t) :
    strcmpBytes s t = 0 ↔ s = t := by
  induction s generalizing t with
  | nil =>
      cases t with
      | nil => exact ⟨fun _ => rfl, fun _ => rfl⟩
      | cons y t =>
          have hy := toNat_ne_zero_of_nonul ht List.mem_cons_self
          simp only [strcmpBytes, reduceCtorEq, iff_false]
          omega
  | cons x s ih =>
      cases t with
      | nil =>
          have hx := toNat_ne_zero_of_nonul hs List.mem_cons_self
          simp only [strcmpBytes, reduceCtorEq, iff_false]
          omega
      | cons y t =>
          by_cases hxy : x = y
          · have htail := ih (fun h => hs (List.mem_cons_of_mem _ h))
              (fun h => ht (List.mem_cons_of_mem _ h))
            simp [strcmpBytes, hxy, htail]
          · have hne : x.toNat ≠ y.toNat := fun h => hxy (UInt8.toNat_inj.mp h)
            rw [strcmpBytes, if_neg hxy, List.cons.injEq]
            constructor
            · intro h0
              omega
            · exact fun h => absurd h.1 hxy

theorem strcmp_some (s t : CString) :
    ∃ d, strcmp (some s) (some t) = .ok d ∧ (d = 0 ↔ s = t) := by
  refine ⟨_, rfl, (strcmpBytes_eq_zero s.nonul t.nonul).trans ⟨fun h => ?_, fun h => h ▸ rfl⟩⟩
  cases s
  cases t
  simp_all

end Jccl
