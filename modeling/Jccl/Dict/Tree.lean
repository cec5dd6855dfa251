/-
# `Jccl.Dict.Tree` — what `subtree_put` makes of a tree

The functions of `dict.c` on trees, as the code acts on them.  The levels
obey the rules of an AA tree before and after, but not because `skew` rotates:
it drops the result of the rotation, so the old head stays the head, and its
left child is lost together with what is to the left of it.  That happens
when a subtree on the left is raised (`raises`, `loses`); without that the
in-order sequence is put into as a sorted association list is.
-/
import Jccl.Lib.SortedMap
import Jccl.Lib.AATree
import Jccl.Dict.Defs

namespace Jccl

open BinaryTree AATree SortedMap

/-- A node of the tree, and where it is. -/
structure DictCell (K V : Type) where
  addr : Addr
  level : Nat
  key : K
  value : Option V

abbrev DictTree (K V : Type) := BinaryTree (DictCell K V)

variable {K V : Type}

namespace DictTree

def pair (c : DictCell K V) : K × Option V := (c.key, c.value)

/-- The pairs of the tree, in order. -/
def pairs (t : DictTree K V) : List (K × Option V) := (inorder t).map pair

instance : HasLevel (DictCell K V) := ⟨DictCell.level⟩

/-- What `skew` leaves of a tree. -/
def skewed : DictTree K V → DictTree K V
  | nil => nil
  | node c l r => if c.level = level l then node c l.right r else node c l r

/-- What `split` makes of a tree. -/
def splitted : DictTree K V → DictTree K V
  | nil => nil
  | node c l nil => node c l nil
  | node c l (node d m r) =>
      if c.level = level r then node { d with level := d.level + 1 } (node c l m) r
      else node c l (node d m r)

/-- What `subtree_put` makes of a tree; `leaf` is the new node, or nothing. -/
def treePut (args : PutArgs K V) (leaf : DictTree K V) : DictTree K V → DictTree K V
  | nil => leaf
  | node c l r =>
      if args.compar args.key c.key < 0 then splitted (skewed (node c (treePut args leaf l) r))
      else if args.compar args.key c.key = 0 then
        node { c with key := args.key, value := args.value } l r
      else splitted (skewed (node c l (treePut args leaf r)))

/-- Whether the tree gets a level higher: the key is to the right of all
others, and there are two nodes on every level of the way to its place. -/
def raises (compar : K → K → Int) (key : K) : DictTree K V → Bool
  | nil => true
  | node _ _ nil => false
  | node c _ (node d _ r) =>
      decide (d.level = c.level) && decide (0 < compar key c.key) && decide (0 < compar key d.key) &&
        raises compar key r

/-- Whether the right subtree gets a level higher. -/
def raisesRight (compar : K → K → Int) (key : K) : DictTree K V → Bool
  | nil => false
  | node d _ r => decide (0 < compar key d.key) && raises compar key r

/-- Whether nodes are lost: a left subtree on the way gets a level higher. -/
def loses (compar : K → K → Int) (key : K) : DictTree K V → Bool
  | nil => false
  | node c l r =>
      if compar key c.key < 0 then raises compar key l || loses compar key l
      else if compar key c.key = 0 then false
      else loses compar key r

/-- The node with the key, as the search comes to it. -/
def treeFind (compar : K → K → Int) (key : K) : DictTree K V → Option (DictCell K V)
  | nil => none
  | node c l r =>
      if compar key c.key < 0 then treeFind compar key l
      else if compar key c.key = 0 then some c
      else treeFind compar key r

/-! ## Levels -/

section Level

variable {args : PutArgs K V} {c : DictCell K V} {l r t leaf : DictTree K V}

theorem balanced_node : Balanced (node c l r) ↔ c.level = level l + 1 ∧ level r ≤ c.level ∧
    c.level ≤ level r + 1 ∧ level r.right < c.level ∧ Balanced l ∧ Balanced r := Iff.rfl

theorem raises_node : raises args.compar args.key (node c l r)
    = (decide (level r = c.level) && decide (0 < args.compar args.key c.key) &&
        raisesRight args.compar args.key r) := by
  cases r with
  | nil => exact (Bool.and_false _).symm
  | node d m r =>
      rw [raises, raisesRight, Bool.and_assoc]
      rfl

theorem skewed_of_ne (h : c.level ≠ level l) : skewed (node c l r) = node c l r := if_neg h

theorem skewed_of_eq (h : c.level = level l) : skewed (node c l r) = node c l.right r := if_pos h

theorem splitted_of_ne (h : c.level ≠ level r.right) : splitted (node c l r) = node c l r := by
  cases r with
  | nil => rfl
  | node d m r => exact if_neg h

/-- The levels of a tree that a node was put into: whether the root has been
raised, and whether the right child has. -/
structure Leveled (args : PutArgs K V) (t t' : DictTree K V) : Prop where
  balanced : Balanced t'
  root : level t' = level t + (raises args.compar args.key t).toNat
  rightChild : level t'.right
    = if raises args.compar args.key t then level t
      else level t.right + (raisesRight args.compar args.key t).toNat

/-- A tree is raised only if its root has a right child on its level. -/
theorem raises_of_lt (h : level t.right < level t) : raises args.compar args.key t = false := by
  cases t with
  | nil => exact absurd h (lt_irrefl _)
  | node c l r =>
      have hne : level r ≠ c.level := h.ne
      rw [raises_node, decide_eq_false hne, Bool.false_and, Bool.false_and]

theorem lt_of_raisesRight (h : Balanced t) (ht : raisesRight args.compar args.key t = true) :
    level t.right < level t := by
  cases t with
  | nil => cases ht
  | node c l r =>
      obtain ⟨-, hr, -, hrr, -, -⟩ := balanced_node.mp h
      refine lt_of_le_of_ne hr fun heq => ?_
      rw [raisesRight, raises_of_lt (hrr.trans_eq heq.symm), Bool.and_false] at ht
      cases ht

/-! ### To the left of the root -/

theorem treePut_lt (h : Balanced (node c l r)) (hlt : args.compar args.key c.key < 0)
    (hl : Leveled args l (treePut args leaf l)) : treePut args leaf (node c l r)
      = node c (if raises args.compar args.key l then (treePut args leaf l).right
          else treePut args leaf l) r := by
  obtain ⟨hc, hr, hr', hrr, hbl, hbr⟩ := balanced_node.mp h
  have hroot := hl.root
  rw [treePut, if_pos hlt]
  cases hraised : raises args.compar args.key l with
  | true =>
      rw [hraised] at hroot
      rw [skewed_of_eq (hc.trans hroot.symm), splitted_of_ne hrr.ne']
      rfl
  | false =>
      rw [hraised] at hroot
      rw [skewed_of_ne (by rw [hroot, hc]; exact Nat.succ_ne_self _), splitted_of_ne hrr.ne']
      rfl

theorem leveled_lt (h : Balanced (node c l r)) (hlt : args.compar args.key c.key < 0)
    (hl : Leveled args l (treePut args leaf l)) :
    Leveled args (node c l r) (treePut args leaf (node c l r)) := by
  obtain ⟨hc, hr, hr', hrr, hbl, hbr⟩ := balanced_node.mp h
  have hraises : raises args.compar args.key (node c l r) = false := by
    rw [raises_node, decide_eq_false (not_lt.mpr hlt.le), Bool.and_false, Bool.false_and]
  have hright : raisesRight args.compar args.key (node c l r) = false := by
    rw [raisesRight, decide_eq_false (not_lt.mpr hlt.le), Bool.false_and]
  have hroot := hl.root
  have hrightChild := hl.rightChild
  rw [treePut_lt h hlt hl]
  cases hraised : raises args.compar args.key l with
  | true =>
      rw [hraised, if_pos rfl] at hrightChild
      refine ⟨balanced_node.mpr ⟨?_, hr, hr', hrr, hl.balanced.right, hbr⟩, ?_, ?_⟩
      · exact hc.trans (congrArg (· + 1) hrightChild.symm)
      · rw [hraises]
        rfl
      · rw [hraises, hright]
        rfl
  | false =>
      rw [hraised] at hroot
      refine ⟨balanced_node.mpr ⟨?_, hr, hr', hrr, hl.balanced, hbr⟩, ?_, ?_⟩
      · exact hc.trans (congrArg (· + 1) hroot.symm)
      · rw [hraises]
        rfl
      · rw [hraises, hright]
        rfl

/-! ### To the right of the root -/

theorem raises_gt (hgt : 0 < args.compar args.key c.key) :
    raises args.compar args.key (node c l r) = true ↔
      level r = c.level ∧ raisesRight args.compar args.key r = true := by
  rw [raises_node, decide_eq_true hgt, Bool.and_true, Bool.and_eq_true, decide_eq_true_iff]

theorem raisesRight_gt (hgt : 0 < args.compar args.key c.key) :
    raisesRight args.compar args.key (node c l r) = raises args.compar args.key r := by
  rw [raisesRight, decide_eq_true hgt, Bool.true_and]

theorem treePut_gt (h : Balanced (node c l r)) (hgt : 0 < args.compar args.key c.key) :
    treePut args leaf (node c l r) = splitted (node c l (treePut args leaf r)) := by
  rw [treePut, if_neg (not_lt.mpr hgt.le), if_neg hgt.ne', skewed_of_ne]
  rw [(balanced_node.mp h).1]
  exact Nat.succ_ne_self _

/-- The right child stays on the level of the root, and its own right child
gets there. -/
theorem treePut_raises (h : Balanced (node c l r)) (hgt : 0 < args.compar args.key c.key)
    (hr : Leveled args r (treePut args leaf r))
    (hraises : raises args.compar args.key (node c l r) = true) :
    ∃ d m r', treePut args leaf r = node d m r' ∧ d.level = c.level ∧ level r' = c.level ∧
      treePut args leaf (node c l r) = node { d with level := d.level + 1 } (node c l m) r' := by
  obtain ⟨hc, -, -, hrr, -, hbr⟩ := balanced_node.mp h
  obtain ⟨hsame, hrises⟩ := (raises_gt hgt).mp hraises
  have hfalse : raises args.compar args.key r = false := raises_of_lt (lt_of_raisesRight hbr hrises)
  have hge := level_le_right hbr
  have hroot := hr.root
  have hrightChild := hr.rightChild
  rw [hfalse, hsame] at hroot
  rw [hfalse, hrises] at hrightChild
  cases hr' : treePut args leaf r with
  | nil =>
      rw [hr'] at hroot
      exact absurd (hc.symm.trans hroot.symm) (Nat.succ_ne_zero _)
  | node d m r' =>
      rw [hr'] at hroot hrightChild
      have hr'' : level r' = level r.right + 1 := hrightChild
      have hlevel : level r' = c.level := by omega
      refine ⟨d, m, r', rfl, hroot, hlevel, ?_⟩
      rw [treePut_gt h hgt, hr']
      exact if_pos hlevel.symm

theorem leveled_raises (h : Balanced (node c l r)) (hgt : 0 < args.compar args.key c.key)
    (hr : Leveled args r (treePut args leaf r))
    (hraises : raises args.compar args.key (node c l r) = true) :
    Leveled args (node c l r) (treePut args leaf (node c l r)) := by
  obtain ⟨hc, -, -, -, hbl, -⟩ := balanced_node.mp h
  obtain ⟨d, m, r', hput, hd, hlevel, heq⟩ := treePut_raises h hgt hr hraises
  have hbalanced := hr.balanced
  rw [hput] at hbalanced
  obtain ⟨hm, -, -, hrr, hbm, hbr⟩ := balanced_node.mp hbalanced
  have hmr := level_right_le hbm
  have hleft : Balanced (node c l m) := balanced_node.mpr ⟨hc, by omega, by omega, by omega, hbl, hbm⟩
  have hraised : d.level + 1 = c.level + 1 := congrArg (· + 1) hd
  rw [heq]
  refine ⟨balanced_node.mpr ⟨hraised, ?_, ?_, ?_, hleft, hbr⟩, ?_, ?_⟩
  · show level r' ≤ d.level + 1
    omega
  · show d.level + 1 ≤ level r' + 1
    omega
  · show level r'.right < d.level + 1
    omega
  · rw [hraises]
    exact hraised
  · rw [hraises]
    exact hlevel

theorem treePut_not_raises (h : Balanced (node c l r)) (hgt : 0 < args.compar args.key c.key)
    (hr : Leveled args r (treePut args leaf r))
    (hraises : raises args.compar args.key (node c l r) = false) :
    treePut args leaf (node c l r) = node c l (treePut args leaf r) ∧
      Leveled args (node c l r) (node c l (treePut args leaf r)) := by
  obtain ⟨hc, hrc, hrc', hrr, hbl, hbr⟩ := balanced_node.mp h
  have hroot := hr.root
  have hrightChild := hr.rightChild
  have hnot : ¬ (level r = c.level ∧ raisesRight args.compar args.key r = true) := by
    rw [← raises_gt hgt, hraises]
    exact Bool.false_ne_true
  have hbounds : level (treePut args leaf r) ≤ c.level ∧
      c.level ≤ level (treePut args leaf r) + 1 ∧ level (treePut args leaf r).right < c.level := by
    cases hrises : raises args.compar args.key r with
    | true =>
        -- a right child on the level of the root is not raised
        have hlt : level r < c.level := lt_of_le_of_ne hrc fun heq => by
          rw [raises_of_lt (hrr.trans_eq heq.symm)] at hrises
          cases hrises
        rw [hrises] at hroot hrightChild
        rw [hroot, hrightChild]
        exact ⟨hlt, hrc'.trans (Nat.le_succ _), hlt⟩
    | false =>
        rw [hrises] at hroot hrightChild
        rw [hroot, hrightChild]
        refine ⟨hrc, hrc', ?_⟩
        cases hright : raisesRight args.compar args.key r with
        | true =>
            have hlt := lt_of_raisesRight hbr hright
            have hne : level r ≠ c.level := fun heq => hnot ⟨heq, hright⟩
            show level r.right + 1 < c.level
            omega
        | false => exact hrr
  refine ⟨?_, balanced_node.mpr ⟨hc, hbounds.1, hbounds.2.1, hbounds.2.2, hbl, hr.balanced⟩, ?_, ?_⟩
  · rw [treePut_gt h hgt, splitted_of_ne hbounds.2.2.ne']
  · rw [hraises]
    rfl
  · rw [hraises, raisesRight_gt hgt]
    exact hroot

/-! ### The whole tree -/

theorem treePut_eq (heq : args.compar args.key c.key = 0) : treePut args leaf (node c l r)
    = node { c with key := args.key, value := args.value } l r := by
  rw [treePut, if_neg heq.not_lt, if_pos heq]

/-- The rules of an AA tree hold again after a put. -/
theorem treePut_leveled {new : DictCell K V} (hnew : new.level = 1) (h : Balanced t) :
    Leveled args t (treePut args (node new nil nil) t) := by
  induction t with
  | nil => exact ⟨⟨hnew, Nat.zero_le _, hnew.le, hnew.ge, trivial, trivial⟩, hnew, rfl⟩
  | node c l r ihl ihr =>
      rcases lt_trichotomy (args.compar args.key c.key) 0 with hlt | heq | hgt
      · exact leveled_lt h hlt (ihl h.left)
      · have hraises : raises args.compar args.key (node c l r) = false := by
          rw [raises_node, decide_eq_false heq.not_gt, Bool.and_false, Bool.false_and]
        have hright : raisesRight args.compar args.key (node c l r) = false := by
          rw [raisesRight, decide_eq_false heq.not_gt, Bool.false_and]
        rw [treePut_eq heq]
        refine ⟨h, ?_, ?_⟩
        · rw [hraises]
          rfl
        · rw [hraises, hright]
          rfl
      · cases hraises : raises args.compar args.key (node c l r) with
        | true => exact leveled_raises h hgt (ihr h.right) hraises
        | false =>
            obtain ⟨hput, hleveled⟩ := treePut_not_raises h hgt (ihr h.right) hraises
            rw [hput]
            exact hleveled

/-- Without a new node no level changes, and without a node of the key
nothing does. -/
theorem treePut_nil (h : Balanced t) : Balanced (treePut args nil t) ∧
    level (treePut args nil t) = level t ∧ level (treePut args nil t).right = level t.right ∧
    (treeFind args.compar args.key t = none → treePut args nil t = t) := by
  induction t with
  | nil => exact ⟨trivial, rfl, rfl, fun _ => rfl⟩
  | node c l r ihl ihr =>
      obtain ⟨hc, hr, hr', hrr, hbl, hbr⟩ := balanced_node.mp h
      rcases lt_trichotomy (args.compar args.key c.key) 0 with hlt | heq | hgt
      · obtain ⟨hb, hroot, -, hsame⟩ := ihl hbl
        have hput : treePut args nil (node c l r) = node c (treePut args nil l) r := by
          rw [treePut, if_pos hlt, skewed_of_ne (by rw [hroot, hc]; exact Nat.succ_ne_self _),
            splitted_of_ne hrr.ne']
        rw [hput, treeFind, if_pos hlt]
        refine ⟨balanced_node.mpr ⟨hc.trans (congrArg (· + 1) hroot.symm), hr, hr', hrr, hb, hbr⟩,
          rfl, rfl, fun hnone => ?_⟩
        rw [hsame hnone]
      · rw [treePut_eq heq, treeFind, if_neg heq.not_lt, if_pos heq]
        exact ⟨h, rfl, rfl, nofun⟩
      · obtain ⟨hb, hroot, hright, hsame⟩ := ihr hbr
        have hrr' : level (treePut args nil r).right < c.level := hright.trans_lt hrr
        rw [treePut_gt h hgt, splitted_of_ne hrr'.ne', treeFind, if_neg (not_lt.mpr hgt.le),
          if_neg hgt.ne']
        refine ⟨balanced_node.mpr
          ⟨hc, hroot.trans_le hr, hr'.trans_eq (by rw [hroot]), hrr', hbl, hb⟩,
          rfl, hroot, fun hnone => ?_⟩
        rw [hsame hnone]

/-- The new node is not needed if there is one of the key. -/
theorem treePut_of_found (leaf' : DictTree K V)
    (h : (treeFind args.compar args.key t).isSome) : treePut args leaf t = treePut args leaf' t := by
  induction t with
  | nil => cases h
  | node c l r ihl ihr =>
      rw [treeFind] at h
      rw [treePut, treePut]
      by_cases hlt : args.compar args.key c.key < 0
      · rw [if_pos hlt] at h
        rw [if_pos hlt, if_pos hlt, ihl h]
      · rw [if_neg hlt] at h
        rw [if_neg hlt, if_neg hlt]
        by_cases heq : args.compar args.key c.key = 0
        · rw [if_pos heq, if_pos heq]
        · rw [if_neg heq] at h
          rw [if_neg heq, if_neg heq, ihr h]

end Level

/-! ## The in-order sequence -/

section Pairs

variable {args : PutArgs K V} {c : DictCell K V} {l r t leaf : DictTree K V}

theorem pairs_node : pairs (node c l r) = pairs l ++ pair c :: pairs r := by
  rw [pairs, inorder, List.map_append, List.map_cons]
  rfl

theorem length_pairs (t : DictTree K V) : (pairs t).length = t.numNodes :=
  (List.length_map _).trans (length_inorder t)

theorem pairs_splitted (t : DictTree K V) : pairs (splitted t) = pairs t := by
  cases t with
  | nil => rfl
  | node c l r =>
      cases r with
      | nil => rfl
      | node d m r =>
          rw [splitted]
          split
          · simp only [pairs_node, List.append_assoc, List.cons_append]
            rfl
          · rfl

theorem pairs_right_sublist (t : DictTree K V) : (pairs t.right).Sublist (pairs t) := by
  cases t with
  | nil => exact List.Sublist.refl _
  | node c l r =>
      rw [pairs_node]
      exact (List.sublist_cons_self _ _).trans (List.sublist_append_right _ _)

theorem pairs_right_lt (h : 0 < level t) : (pairs t.right).length < (pairs t).length := by
  cases t with
  | nil => exact absurd h (lt_irrefl 0)
  | node c l r =>
      rw [pairs_node, List.length_append, List.length_cons]
      exact Nat.lt_add_left _ (Nat.lt_succ_self _)

/-- Above the keys on the left, and below those on the right. -/
theorem sorted_node {compar : K → K → Int} (h : Sorted compar (pairs (node c l r))) :
    Sorted compar (pairs l) ∧ Sorted compar (pairs r) ∧
      (∀ x ∈ pairs l, compar x.1 c.key < 0) ∧ ∀ x ∈ pairs r, compar c.key x.1 < 0 := by
  rw [pairs_node] at h
  exact h.parts

section Order

variable {compar : K → K → Int} {key : K} (hc : TotalOrder compar)

include hc

theorem gt_of_mem_left (hs : Sorted compar (pairs (node c l r)))
    (hge : 0 ≤ compar key c.key) : ∀ x ∈ pairs l, 0 < compar key x.1 := by
  intro x hx
  have hx := (sorted_node hs).2.2.1 x hx
  have hle : compar c.key key ≤ 0 := not_lt.mp fun hlt =>
    absurd ((hc.swap _ _).mpr hlt) (not_lt.mpr hge)
  exact (hc.swap _ _).mp (hc.lt_of_lt_of_le hx hle)

theorem treeFind_eq (hs : Sorted compar (pairs t)) :
    (treeFind compar key t).map pair = find compar key (pairs t) := by
  induction t with
  | nil => rfl
  | node c l r ihl ihr =>
      obtain ⟨hl, hr, -, -⟩ := sorted_node hs
      rw [pairs_node] at hs ⊢
      rw [treeFind]
      rcases lt_trichotomy (compar key c.key) 0 with hlt | heq | hgt
      · rw [if_pos hlt, ihl hl, (hs.below hc hlt).1]
      · rw [if_neg heq.not_lt, if_pos heq, (hs.at_key hc heq).1]
        rfl
      · rw [if_neg hgt.not_gt, if_neg hgt.ne', ihr hr, (hs.above hc hgt).1]

end Order

/-! What a put makes of the pairs: those that should be there, with some of them
missing just if nodes are lost. -/

/-- All of the second list, if nothing was lost, and less of it otherwise. -/
structure AllUnless (lost : Bool) (xs ys : List (K × V)) : Prop where
  sublist : xs.Sublist ys
  kept : lost = false → xs = ys
  fewer : lost = true → xs.length < ys.length

namespace AllUnless

variable {lost : Bool} {xs ys : List (K × V)}

theorem refl (xs : List (K × V)) : AllUnless false xs xs :=
  ⟨List.Sublist.refl xs, fun _ => rfl, fun hlost => absurd hlost Bool.false_ne_true⟩

theorem of_fewer (hsub : xs.Sublist ys) (hlt : xs.length < ys.length) : AllUnless true xs ys :=
  ⟨hsub, fun hkept => absurd hkept.symm Bool.false_ne_true, fun _ => hlt⟩

theorem append_right (h : AllUnless lost xs ys) (zs : List (K × V)) :
    AllUnless lost (xs ++ zs) (ys ++ zs) := by
  refine ⟨h.sublist.append_right zs, fun hkept => ?_, fun hlost => ?_⟩
  · rw [h.kept hkept]
  · rw [List.length_append, List.length_append]
    exact Nat.add_lt_add_right (h.fewer hlost) _

theorem append_left (h : AllUnless lost xs ys) (zs : List (K × V)) :
    AllUnless lost (zs ++ xs) (zs ++ ys) := by
  refine ⟨h.sublist.append_left zs, fun hkept => ?_, fun hlost => ?_⟩
  · rw [h.kept hkept]
  · rw [List.length_append, List.length_append]
    exact Nat.add_lt_add_left (h.fewer hlost) _

end AllUnless

section Put

variable {new : DictCell K V}

/-- To the left, the left child of what the recursion returns is lost if that
subtree got a level higher. -/
theorem pairs_treePut_lt (h : Balanced (node c l r)) (hlt : args.compar args.key c.key < 0)
    (hnew : new.level = 1)
    (hl : AllUnless (loses args.compar args.key l) (pairs (treePut args (node new nil nil) l))
      (put args.compar args.key args.value (pairs l))) :
    AllUnless (loses args.compar args.key (node c l r))
      (pairs (treePut args (node new nil nil) (node c l r)))
      (put args.compar args.key args.value (pairs (node c l r))) := by
  have hleveled : Leveled args l (treePut args (node new nil nil) l) :=
    treePut_leveled hnew h.left
  have hloses : loses args.compar args.key (node c l r)
      = (raises args.compar args.key l || loses args.compar args.key l) := if_pos hlt
  rw [treePut_lt h hlt hleveled, hloses, pairs_node, pairs_node, put_append_of_lt hlt]
  refine AllUnless.append_right ?_ _
  cases hraises : raises args.compar args.key l with
  | true =>
      have hroot := hleveled.root
      rw [hraises] at hroot
      have hpos := pairs_right_lt ((Nat.succ_pos _).trans_eq hroot.symm)
      exact .of_fewer ((pairs_right_sublist _).trans hl.sublist) (hpos.trans_le hl.sublist.length_le)
  | false => exact hl

theorem pairs_treePut_eq (hc : TotalOrder args.compar)
    (hs : Sorted args.compar (pairs (node c l r))) (heq : args.compar args.key c.key = 0) :
    AllUnless (loses args.compar args.key (node c l r))
      (pairs (treePut args (node new nil nil) (node c l r)))
      (put args.compar args.key args.value (pairs (node c l r))) := by
  have hloses : loses args.compar args.key (node c l r) = false := by
    rw [loses, if_neg heq.not_lt, if_pos heq]
  have hput : put args.compar args.key args.value (pair c :: pairs r)
      = (args.key, args.value) :: pairs r := put_cons_of_eq heq
  rw [treePut_eq heq, hloses, pairs_node, pairs_node,
    put_append_of_gt (gt_of_mem_left hc hs heq.ge), hput]
  exact .refl _

theorem pairs_treePut_gt (hc : TotalOrder args.compar) (h : Balanced (node c l r))
    (hs : Sorted args.compar (pairs (node c l r))) (hgt : 0 < args.compar args.key c.key)
    (hr : AllUnless (loses args.compar args.key r) (pairs (treePut args (node new nil nil) r))
      (put args.compar args.key args.value (pairs r))) :
    AllUnless (loses args.compar args.key (node c l r))
      (pairs (treePut args (node new nil nil) (node c l r)))
      (put args.compar args.key args.value (pairs (node c l r))) := by
  have hloses : loses args.compar args.key (node c l r) = loses args.compar args.key r := by
    rw [loses, if_neg (not_lt.mpr hgt.le), if_neg hgt.ne']
  have hput : put args.compar args.key args.value (pair c :: pairs r)
      = pair c :: put args.compar args.key args.value (pairs r) := put_cons_of_gt hgt
  rw [treePut_gt h hgt, pairs_splitted, hloses, pairs_node, pairs_node,
    put_append_of_gt (gt_of_mem_left hc hs hgt.le), hput]
  exact (hr.append_left [pair c]).append_left (pairs l)

/-- What is in the tree after a put: what should be there, unless nodes are
lost. -/
theorem pairs_treePut (hc : TotalOrder args.compar) (hnew : new.level = 1)
    (hpair : pair new = (args.key, args.value)) (h : Balanced t)
    (hs : Sorted args.compar (pairs t)) :
    AllUnless (loses args.compar args.key t) (pairs (treePut args (node new nil nil) t))
      (put args.compar args.key args.value (pairs t)) := by
  induction t with
  | nil =>
      have hsame : pairs (node new nil nil) = [(args.key, args.value)] :=
        congrArg (fun p => [p]) hpair
      exact hsame ▸ AllUnless.refl _
  | node c l r ihl ihr =>
      obtain ⟨hl, hr, -, -⟩ := sorted_node hs
      rcases lt_trichotomy (args.compar args.key c.key) 0 with hlt | heq | hgt
      · exact pairs_treePut_lt h hlt hnew (ihl h.left hl)
      · exact pairs_treePut_eq hc hs heq
      · exact pairs_treePut_gt hc h hs hgt (ihr h.right hr)

end Put

end Pairs

end DictTree

end Jccl
