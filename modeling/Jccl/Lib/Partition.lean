/-
# `Jccl.Lib.Partition` — a partition in place that is stable on the left

A list is gone through from the left.  The elements seen so far stand in two
groups, those with the property and, behind them, those without it.  An
element without it joins the group that is next to it.  An element with it is
exchanged with the first one of the second group, if there is any, which gets
to the end of that group: so the first group keeps the order of the list, and
the second one does not.
-/
import Mathlib.Data.List.Perm.Basic
import Mathlib.Data.List.Pairwise

namespace Jccl

variable {α : Type} {p : α → Bool}

/-- The two groups of what was seen. -/
structure Parted (p : α → Bool) (seen left right : List α) : Prop where
  left : left = seen.filter p
  right : right.Perm (seen.filter fun x => !p x)

namespace Parted

variable {seen left right : List α} {x y : α}

theorem nil : Parted p [] [] [] := ⟨rfl, .refl _⟩

/-- As long as there is no second group. -/
theorem of_all (h : ∀ x ∈ seen, p x = true) : Parted p seen seen [] where
  left := (List.filter_eq_self.mpr h).symm
  right := by
    have hnone : seen.filter (fun x => !p x) = [] :=
      List.filter_eq_nil_iff.mpr fun x hx => by rw [h x hx]; decide
    rw [hnone]

theorem join (h : Parted p seen left right) (hx : p x = false) :
    Parted p (seen ++ [x]) left (right ++ [x]) where
  left := by
    have hnone : [x].filter p = [] := by simp [hx]
    rw [List.filter_append, hnone, List.append_nil, ← h.left]
  right := by
    have hone : [x].filter (fun x => !p x) = [x] := by simp [hx]
    rw [List.filter_append, hone]
    exact h.right.append_right [x]

theorem exchange (h : Parted p seen left (y :: right)) (hx : p x = true) :
    Parted p (seen ++ [x]) (left ++ [x]) (right ++ [y]) where
  left := by
    have hone : [x].filter p = [x] := by simp [hx]
    rw [List.filter_append, hone, h.left]
  right := by
    have hnone : [x].filter (fun x => !p x) = [] := by simp [hx]
    rw [List.filter_append, hnone, List.append_nil]
    exact (List.perm_append_singleton y right).trans h.right

theorem perm (h : Parted p seen left right) : (left ++ right).Perm seen := by
  rw [h.left]
  exact (h.right.append_left _).trans (List.filter_append_perm p seen)

theorem right_false (h : Parted p seen left right) : ∀ x ∈ right, p x = false := by
  intro x hx
  have hmem := List.mem_filter.mp (h.right.mem_iff.mp hx)
  exact Bool.not_eq_true' _ ▸ hmem.2

/-- The elements with the property keep their order. -/
theorem filter_eq (h : Parted p seen left right) : (left ++ right).filter p = seen.filter p := by
  have hnone : right.filter p = [] :=
    List.filter_eq_nil_iff.mpr fun x hx => Bool.eq_false_iff.mp (h.right_false x hx)
  rw [List.filter_append, hnone, List.append_nil, h.left, List.filter_filter]
  exact List.filter_congr fun x _ => Bool.and_self _

/-- None of them stands behind one without it. -/
theorem pairwise (h : Parted p seen left right) :
    (left ++ right).Pairwise fun x y => p y = true → p x = true := by
  have hleft : ∀ x ∈ left, p x = true := by
    rw [h.left]
    exact fun x hx => (List.mem_filter.mp hx).2
  refine List.pairwise_append.mpr ⟨?_, ?_, fun x hx _ _ _ => hleft x hx⟩
  · exact List.pairwise_of_forall_mem_list fun x hx _ _ _ => hleft x hx
  · refine List.pairwise_of_forall_mem_list fun _ _ y hy hp => ?_
    exact absurd hp (Bool.eq_false_iff.mp (h.right_false y hy))

end Parted

end Jccl
