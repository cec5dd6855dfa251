/-
# `Jccl.Lib.Substring` — where a string stands in a buffer

`strncmp` compares two buffers byte by byte up to a bound and stops before it
at a difference, or at a NUL that both of them have.  With the length of a
string for the bound, it is zero if and only if the string stands at the
place that is looked at, and then no byte behind it was read.
-/
import Jccl.Lib.CString

namespace Jccl

/-- `strncmp(s + p, t + q, n)`. -/
def strncmp (s t : List UInt8) : Nat → Nat → Nat → Outcome Int
  | 0, _, _ => .ok 0
  | n + 1, p, q => do
      let x ← readAt s p
      let y ← readAt t q
      if x ≠ y then
        return (x.toNat - y.toNat : Int)
      else if x = 0 then
        return 0
      else
        strncmp s t n (p + 1) (q + 1)

/-- The bytes `t` stand in `s` at `p`. -/
def OccursAt (s t : List UInt8) (p : Nat) : Prop := t <+: s.drop p

instance (s t : List UInt8) (p : Nat) : Decidable (OccursAt s t p) :=
  inferInstanceAs (Decidable (t <+: s.drop p))

section Occurs

variable {s t : List UInt8} {x : UInt8} {p : Nat}

theorem occursAt_nil : OccursAt s [] p := List.nil_prefix

theorem occursAt_cons (hp : p < s.length) :
    OccursAt s (x :: t) p ↔ x = s[p] ∧ OccursAt s t (p + 1) := by
  rw [OccursAt, List.drop_eq_getElem_cons hp, List.cons_prefix_cons]
  rfl

theorem OccursAt.getElem? (h : OccursAt s t p) {k : Nat} (hk : k < t.length) :
    s[p + k]? = t[k]? := by
  obtain ⟨rest, hrest⟩ := h
  rw [← List.getElem?_drop, ← hrest, List.getElem?_append_left hk]

/-- The comparison of the part `t` of a string, with the part before it passed. -/
theorem strncmp_eq (pre rest : List UInt8) (ht : 0 ∉ t) (hp : p + t.length ≤ s.length) :
    ∃ d, strncmp s (pre ++ (t ++ 0 :: rest)) t.length p pre.length = .ok d ∧
      (d = 0 ↔ OccursAt s t p) := by
  induction t generalizing pre p with
  | nil => exact ⟨0, rfl, iff_of_true rfl occursAt_nil⟩
  | cons y t ih =>
      obtain ⟨hy, ht⟩ := List.ne_and_not_mem_of_not_mem_cons ht
      rw [List.length_cons] at hp
      have hlt : p < s.length := by omega
      have hread : readAt (pre ++ (y :: t ++ 0 :: rest)) pre.length = .ok y := readAt_append rfl
      rw [List.length_cons, strncmp, readAt_of_lt hlt, Outcome.ok_bind, hread, Outcome.ok_bind,
        occursAt_cons hlt]
      by_cases hne : s[p] = y
      · have hnul : s[p] ≠ 0 := fun h => hy (h.symm.trans hne)
        obtain ⟨d, hd, hzero⟩ := ih (pre ++ [y]) ht (by omega : p + 1 + t.length ≤ s.length)
        rw [if_neg (not_not.mpr hne), if_neg hnul]
        rw [List.append_assoc, List.length_append] at hd
        exact ⟨d, hd, hzero.trans (and_iff_right hne.symm).symm⟩
      · rw [if_pos hne]
        refine ⟨_, rfl, iff_of_false ?_ fun h => hne h.1.symm⟩
        have hnat : s[p].toNat ≠ y.toNat := fun h => hne (UInt8.toNat_inj.mp h)
        omega

end Occurs

end Jccl
