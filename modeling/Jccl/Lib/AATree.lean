/-
# `Jccl.Lib.AATree` — binary trees balanced by levels

The rules of an AA tree, for trees whose nodes carry a level among other
things.  A left child is one level below its parent; a right child is so, or
is on the level of its parent; a right grandchild is below.  So a tree has at
least as many nodes as a perfect one of its level, and is at most twice as
high as that.
-/
import Mathlib

namespace Jccl

open BinaryTree

/-- What can be put into an AA tree: it has a level. -/
class HasLevel (α : Type) where
  lv : α → Nat

namespace AATree

variable {α : Type}

/-- The values of the nodes, in order. -/
def inorder : BinaryTree α → List α
  | nil => []
  | node a l r => inorder l ++ a :: inorder r

theorem length_inorder (t : BinaryTree α) : (inorder t).length = t.numNodes := by
  induction t with
  | nil => rfl
  | node a l r ihl ihr =>
      rw [inorder, List.length_append, List.length_cons, ihl, ihr]
      rfl

variable [HasLevel α]

/-- The level of the root; that of the empty tree is 0. -/
def level : BinaryTree α → Nat
  | nil => 0
  | node a _ _ => HasLevel.lv a

def Balanced : BinaryTree α → Prop
  | nil => True
  | node a l r => HasLevel.lv a = level l + 1 ∧ level r ≤ HasLevel.lv a ∧ HasLevel.lv a ≤ level r + 1 ∧
      level r.right < HasLevel.lv a ∧ Balanced l ∧ Balanced r

variable {t : BinaryTree α}

theorem Balanced.left (h : Balanced t) : Balanced t.left := by
  cases t with
  | nil => trivial
  | node a l r => exact h.2.2.2.2.1

theorem Balanced.right (h : Balanced t) : Balanced t.right := by
  cases t with
  | nil => trivial
  | node a l r => exact h.2.2.2.2.2

theorem level_right_le (h : Balanced t) : level t.right ≤ level t := by
  cases t with
  | nil => exact le_rfl
  | node a l r => exact h.2.1

theorem level_le_right (h : Balanced t) : level t ≤ level t.right + 1 := by
  cases t with
  | nil => exact Nat.zero_le _
  | node a l r => exact h.2.2.1

/-- A tree of a level has the nodes of a perfect one. -/
theorem two_pow_level_le (h : Balanced t) : 2 ^ level t ≤ t.numNodes + 1 := by
  induction t with
  | nil => exact le_rfl
  | node a l r ihl ihr =>
      obtain ⟨hl, -, hr, -, hbl, hbr⟩ := h
      have hpow : 2 ^ level l ≤ 2 ^ level r :=
        Nat.pow_le_pow_right two_pos (by omega)
      have := ihl hbl
      have := ihr hbr
      rw [level, hl, numNodes, pow_succ]
      omega

/-- On a way down the level falls at the latest at every second node. -/
theorem height_le_two_mul_level (h : Balanced t) :
    t.height ≤ 2 * level t ∧ (level t.right < level t → t.height < 2 * level t) := by
  induction t with
  | nil => exact ⟨le_rfl, fun hlt => absurd hlt (lt_irrefl 0)⟩
  | node a l r ihl ihr =>
      obtain ⟨hl, hr, -, hrr, hbl, hbr⟩ := h
      have hleft := (ihl hbl).1
      obtain ⟨hright, hright'⟩ := ihr hbr
      have hheight : (node a l r).height = max l.height r.height + 1 := rfl
      have hlevel : level (node a l r) = level l + 1 := hl
      rw [hl] at hr hrr
      rw [hheight, hlevel]
      refine ⟨?_, fun hlt => ?_⟩
      · rcases hr.lt_or_eq with hlt | heq
        · omega
        · have hlow := hright' (hrr.trans_eq heq.symm)
          omega
      · have hlt' : level r < level l + 1 := hlt
        omega

/-- So the height is logarithmic in the number of nodes. -/
theorem height_le_log (h : Balanced t) : t.height ≤ 2 * Nat.log 2 (t.numNodes + 1) :=
  (height_le_two_mul_level h).1.trans <| Nat.mul_le_mul_left 2 <|
    Nat.le_log_of_pow_le Nat.one_lt_two (two_pow_level_le h)

end AATree

end Jccl
