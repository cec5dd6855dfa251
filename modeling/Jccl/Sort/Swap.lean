/-
# `Jccl.Sort.Swap` — two elements are exchanged

`swap` goes through the bytes of two elements that do not overlap; what is
before, between and behind them stays as it is.
-/
import Jccl.Sort.Defs

namespace Jccl

/-- A byte of one string is exchanged with a byte of another behind it. -/
theorem swapStep_append {l m r : Memory} {c d : UInt8} {a b k : Nat} (ha : a + k = l.length)
    (hb : b + k = l.length + 1 + m.length) :
    swapStep a b k (l ++ c :: m ++ d :: r) = .ok (l ++ d :: m ++ c :: r) := by
  have hfirst : ∀ x y : UInt8, l ++ x :: m ++ y :: r = l ++ x :: (m ++ y :: r) := by simp
  have hpos : ∀ x : UInt8, b + k = (l ++ x :: m).length := by
    intro x
    simp only [List.length_append, List.length_cons]
    omega
  unfold swapStep
  rw [hfirst, readAt_append ha, Outcome.ok_bind, ← hfirst, readAt_append (hpos c), Outcome.ok_bind,
    hfirst, writeAt_append ha, Outcome.ok_bind, ← hfirst, writeAt_append (hpos d)]

theorem swapLoop_append {u v : Memory} (h : u.length = v.length) (l m r : Memory) :
    forLoop (swapStep l.length (l.length + u.length + m.length)) u.length (l ++ u ++ m ++ v ++ r)
      = .ok (l ++ v ++ m ++ u ++ r) := by
  induction u using List.reverseRecOn generalizing v m r with
  | nil =>
      obtain rfl := List.length_eq_zero_iff.mp h.symm
      rfl
  | append_singleton u c ih =>
      obtain rfl | ⟨v, d, rfl⟩ := v.eq_nil_or_concat'
      · simp at h
      have h' : u.length = v.length := by simpa using h
      have hb : l.length + (u ++ [c]).length + m.length = l.length + u.length + (c :: m).length := by
        simp only [List.length_append, List.length_cons, List.length_nil]
        omega
      have hmem : l ++ (u ++ [c]) ++ m ++ (v ++ [d]) ++ r
          = l ++ u ++ (c :: m) ++ v ++ (d :: r) := by simp
      rw [hmem, hb, List.length_append, List.length_singleton, forLoop, ih h', Outcome.ok_bind]
      -- what is left is the exchange of the last bytes
      have hstep := swapStep_append (l := l ++ v) (m := m ++ u) (r := r) (c := c) (d := d)
        (a := l.length) (b := l.length + u.length + (c :: m).length) (k := u.length)
        (by simp [h']) (by simp [h']; omega)
      simpa using hstep

theorem swap_append {l u m v r : Memory} {size a b : Nat} (hs : 0 < size) (hu : u.length = size)
    (hv : v.length = size) (ha : a = l.length) (hb : b = l.length + size + m.length) :
    swap (l ++ u ++ m ++ v ++ r) a b size = .ok (l ++ v ++ m ++ u ++ r) := by
  subst hu ha hb
  rw [swap, if_neg hs.ne']
  exact swapLoop_append hv.symm l m r

end Jccl
