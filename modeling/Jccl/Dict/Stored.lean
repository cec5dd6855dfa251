/-
# `Jccl.Dict.Stored` — trees in the heap

A tree is stored if each of its nodes is at its address, with the pointers and
the counter that its place in the tree gives it; no two nodes share an
address, and none is that of the sentinel.  Each function of `dict.c` that
rebalances takes a heap in which a tree is stored to one in which the tree of
the function of `Jccl.Dict.Tree` is, and leaves alone what does not belong to
the tree.  Nodes that are lost stay where they are, unreachable.
-/
import Jccl.Dict.Tree

namespace Jccl

open BinaryTree AATree

variable {K V : Type}

namespace DictTree

/-- The pointer to a tree. -/
def root : DictTree K V → Option Addr
  | nil => endOfTree
  | node c _ _ => some c.addr

/-- What a node of a tree looks like in memory. -/
def nodeOf (c : DictCell K V) (l r : DictTree K V) : DictNode K V where
  left := root l
  right := root r
  key := some c.key
  value := c.value
  nnode := (node c l r).numNodes
  level := c.level

/-- What the pointer to a tree points to. -/
def topOf : DictTree K V → DictNode K V
  | nil => sentinel
  | node c l r => nodeOf c l r

def addrs (t : DictTree K V) : List Addr := (inorder t).map DictCell.addr

/-- Every node is where it should be. -/
def Held (h : Heap (DictNode K V)) : DictTree K V → Prop
  | nil => True
  | node c l r => h c.addr = some (nodeOf c l r) ∧ Held h l ∧ Held h r

structure Stored (h : Heap (DictNode K V)) (t : DictTree K V) : Prop where
  held : Held h t
  nodup : (addrs t).Nodup
  apart : sentinelAddr ∉ addrs t
  sentinel : h sentinelAddr = some sentinel

section Lemmas

variable {h h' : Heap (DictNode K V)} {t l r : DictTree K V} {c : DictCell K V} {a : Addr}

@[simp] theorem root_nil : root (nil : DictTree K V) = endOfTree := rfl

@[simp] theorem root_node : root (node c l r) = some c.addr := rfl

@[simp] theorem nodeOf_left : (nodeOf c l r).left = root l := rfl

@[simp] theorem nodeOf_right : (nodeOf c l r).right = root r := rfl

@[simp] theorem nodeOf_key : (nodeOf c l r).key = some c.key := rfl

@[simp] theorem nodeOf_level : (nodeOf c l r).level = c.level := rfl

theorem mem_addrs_node : a ∈ addrs (node c l r) ↔ a ∈ addrs l ∨ a = c.addr ∨ a ∈ addrs r := by
  rw [addrs, inorder, List.map_append, List.map_cons, List.mem_append, List.mem_cons]
  rfl

theorem nodup_node : (addrs (node c l r)).Nodup ↔ (addrs l).Nodup ∧ (addrs r).Nodup ∧
    c.addr ∉ addrs l ∧ c.addr ∉ addrs r ∧ ∀ a ∈ addrs l, a ∉ addrs r := by
  have happ : addrs (node c l r) = addrs l ++ c.addr :: addrs r := by
    rw [addrs, inorder, List.map_append, List.map_cons]
    rfl
  rw [happ, List.nodup_append, List.nodup_cons]
  constructor
  · rintro ⟨hl, ⟨hc, hr⟩, hne⟩
    refine ⟨hl, hr, fun hmem => hne _ hmem _ List.mem_cons_self rfl, hc, fun a ha har => ?_⟩
    exact hne a ha a (List.mem_cons_of_mem _ har) rfl
  · rintro ⟨hl, hr, hcl, hcr, hdisj⟩
    refine ⟨hl, ⟨hcr, hr⟩, fun a ha b hb heq => ?_⟩
    subst heq
    rcases List.mem_cons.mp hb with rfl | hb
    · exact hcl ha
    · exact hdisj a ha hb

theorem addrs_congr {c' : DictCell K V} (haddr : c'.addr = c.addr) :
    addrs (node c' l r) = addrs (node c l r) := by
  simp only [addrs, inorder, List.map_append, List.map_cons, haddr]

theorem addrs_right (ha : a ∈ addrs t.right) : a ∈ addrs t := by
  cases t with
  | nil => exact ha
  | node c l r => exact mem_addrs_node.mpr (.inr (.inr ha))

theorem held_congr (heq : ∀ a ∈ addrs t, h' a = h a) (ht : Held h t) : Held h' t := by
  induction t with
  | nil => exact trivial
  | node c l r ihl ihr =>
      refine ⟨(heq c.addr (mem_addrs_node.mpr (.inr (.inl rfl)))).trans ht.1,
        ihl (fun a ha => ?_) ht.2.1, ihr (fun a ha => ?_) ht.2.2⟩
      · exact heq a (mem_addrs_node.mpr (.inl ha))
      · exact heq a (mem_addrs_node.mpr (.inr (.inr ha)))

theorem held_agree (ht : Held h t) (ht' : Held h' t) (ha : a ∈ addrs t) : h' a = h a := by
  induction t with
  | nil => exact absurd ha List.not_mem_nil
  | node c l r ihl ihr =>
      rcases mem_addrs_node.mp ha with ha | rfl | ha
      · exact ihl ht.2.1 ht'.2.1 ha
      · exact ht'.1.trans ht.1.symm
      · exact ihr ht.2.2 ht'.2.2 ha

theorem held_update {n : Option (DictNode K V)} (ha : a ∉ addrs t) (ht : Held h t) :
    Held (Function.update h a n) t :=
  held_congr (fun _ hb => Heap.update_of_ne n (ne_of_mem_of_not_mem hb ha)) ht

theorem load_root (hs : h sentinelAddr = some sentinel) (ht : Held h t) :
    h.load (root t) = .ok (topOf t) := by
  cases t with
  | nil => exact Heap.load_some hs
  | node c l r => exact Heap.load_some ht.1

/-- The pointer determines the tree. -/
theorem held_unique {t' : DictTree K V} (ht : Held h t) (ht' : Held h t')
    (ha : sentinelAddr ∉ addrs t) (ha' : sentinelAddr ∉ addrs t') (hroot : root t = root t') :
    t = t' := by
  induction t generalizing t' with
  | nil =>
      cases t' with
      | nil => rfl
      | node c' l' r' => exact absurd (mem_addrs_node.mpr (.inr (.inl (Option.some.inj hroot)))) ha'
  | node c l r ihl ihr =>
      cases t' with
      | nil => exact absurd (mem_addrs_node.mpr (.inr (.inl (Option.some.inj hroot).symm))) ha
      | node c' l' r' =>
          have haddr : c.addr = c'.addr := Option.some.inj hroot
          have hnode : nodeOf c l r = nodeOf c' l' r' :=
            Option.some.inj (ht.1.symm.trans (haddr ▸ ht'.1))
          rw [mem_addrs_node, not_or, not_or] at ha ha'
          obtain rfl := ihl ht.2.1 ht'.2.1 ha.1 ha'.1 (congrArg DictNode.left hnode)
          obtain rfl := ihr ht.2.2 ht'.2.2 ha.2.2 ha'.2.2 (congrArg DictNode.right hnode)
          have hkey : c.key = c'.key := Option.some.inj (congrArg DictNode.key hnode)
          have hvalue : c.value = c'.value := congrArg DictNode.value hnode
          have hlevel : c.level = c'.level := Int.ofNat.inj (congrArg DictNode.level hnode)
          cases c
          cases c'
          subst haddr hkey hvalue hlevel
          rfl

theorem topOf_nnode (t : DictTree K V) : (topOf t).nnode = t.numNodes := by
  cases t <;> rfl

theorem topOf_level (t : DictTree K V) : (topOf t).level = level t := by
  cases t <;> rfl

theorem topOf_right (t : DictTree K V) : (topOf t).right = root t.right := by
  cases t <;> rfl

/-! ## The counter -/

/-- A node whose counter may be wrong. -/
theorem nodeReconstructNnode_ok {n : DictNode K V} (hs : h sentinelAddr = some sentinel)
    (hne : a ≠ sentinelAddr) (hn : h a = some n) (hleft : n.left = root l) (hright : n.right = root r)
    (hl : Held h l) (hr : Held h r) (hfits : ((node c l r).numNodes : Int) ≤ INT_MAX) :
    nodeReconstructNnode (some a) h
      = .ok (Function.update h a (some { n with nnode := (node c l r).numNodes })) := by
  have hnode : some a ≠ none ∧ ¬ EOT (some a) := ⟨nofun, fun heot => hne (Option.some.inj heot)⟩
  have hsum : ((node c l r).numNodes : Int) = l.numNodes + 1 + r.numNodes := by
    rw [numNodes]
    omega
  have hmin : INT_MIN ≤ 0 := by decide
  rw [nodeReconstructNnode, assert_of hnode, Outcome.ok_bind, Heap.load_some hn, Outcome.ok_bind,
    hleft, load_root hs hl, Outcome.ok_bind, hright, load_root hs hr, Outcome.ok_bind, topOf_nnode,
    topOf_nnode, checkInt_of ⟨by omega, by omega⟩, Outcome.ok_bind,
    checkInt_of ⟨by omega, by omega⟩, Outcome.ok_bind, Heap.modify_some _ hn, hsum]
  rw [hleft, hright]

theorem nodeReconstructNnode_overflow {n : DictNode K V} (hs : h sentinelAddr = some sentinel)
    (hne : a ≠ sentinelAddr) (hn : h a = some n) (hleft : n.left = root l) (hright : n.right = root r)
    (hl : Held h l) (hr : Held h r) (hfits : INT_MAX < ((node c l r).numNodes : Int)) :
    nodeReconstructNnode (some a) h = .error .overflow := by
  have hnode : some a ≠ none ∧ ¬ EOT (some a) := ⟨nofun, fun heot => hne (Option.some.inj heot)⟩
  have hmin : INT_MIN ≤ 0 := by decide
  rw [numNodes] at hfits
  rw [nodeReconstructNnode, assert_of hnode, Outcome.ok_bind, Heap.load_some hn, Outcome.ok_bind,
    hleft, load_root hs hl, Outcome.ok_bind, hright, load_root hs hr, Outcome.ok_bind, topOf_nnode,
    topOf_nnode]
  rcases lt_or_ge INT_MAX ((l.numNodes : Int) + 1) with hlt | hge
  · rw [checkInt_not hlt]
    rfl
  · rw [checkInt_of ⟨by omega, hge⟩, Outcome.ok_bind, checkInt_not (by omega)]
    rfl

/-- A node with its pointers is in place again when it has been recounted. -/
theorem held_recounted {n : DictNode K V} (hs : h sentinelAddr = some sentinel)
    (hne : c.addr ≠ sentinelAddr) (hn : h c.addr = some n)
    (hnode : { n with nnode := (node c l r).numNodes } = nodeOf c l r)
    (hcl : c.addr ∉ addrs l) (hcr : c.addr ∉ addrs r) (hl : Held h l) (hr : Held h r)
    (hfits : ((node c l r).numNodes : Int) ≤ INT_MAX) :
    ∃ h', nodeReconstructNnode (some c.addr) h = .ok h' ∧ Held h' (node c l r) ∧
      ∀ a, a ≠ c.addr → h' a = h a := by
  have hleft : n.left = root l := congrArg DictNode.left hnode
  have hright : n.right = root r := congrArg DictNode.right hnode
  refine ⟨_, nodeReconstructNnode_ok hs hne hn hleft hright hl hr hfits, ?_,
    fun a ha => Heap.update_of_ne _ ha⟩
  rw [hnode]
  exact ⟨Function.update_self _ _ _, held_update hcl hl, held_update hcr hr⟩

end Lemmas

/-! ## Rotations -/

section Rotate

variable {h : Heap (DictNode K V)} {c d : DictCell K V} {l m r : DictTree K V}

theorem Stored.ne_sentinel (hs : Stored h (node c l r)) : c.addr ≠ sentinelAddr := fun heq =>
  hs.apart (mem_addrs_node.mpr (.inr (.inl heq.symm)))

theorem addrs_rotate : addrs (node d (node c l m) r) = addrs (node c l (node d m r)) := by
  simp only [addrs, inorder, List.append_assoc, List.cons_append]

theorem numNodes_rotate :
    (node d (node c l m) r).numNodes = (node c l (node d m r)).numNodes := by
  simp only [numNodes]
  omega

theorem addr_ne_of_nodup (hn : (addrs (node c l (node d m r))).Nodup) : c.addr ≠ d.addr := by
  obtain ⟨-, -, -, hc, -⟩ := nodup_node.mp hn
  rw [mem_addrs_node, not_or, not_or] at hc
  exact hc.2.1

theorem ne_sentinel_of_apart (hapart : sentinelAddr ∉ addrs (node c l (node d m r))) :
    c.addr ≠ sentinelAddr ∧ d.addr ≠ sentinelAddr := by
  rw [mem_addrs_node, mem_addrs_node, not_or, not_or, not_or, not_or] at hapart
  obtain ⟨-, hc, -, hd, -⟩ := hapart
  exact ⟨Ne.symm hc, Ne.symm hd⟩

/-- Two nodes were overwritten, and nothing else. -/
structure Rewired (h h' : Heap (DictNode K V)) (a b : Addr) (na nb : DictNode K V) : Prop where
  fst : h' a = some na
  snd : h' b = some nb
  frame : ∀ x, x ≠ a → x ≠ b → h' x = h x

namespace Rewired

variable {h' : Heap (DictNode K V)} {t : DictTree K V} {a b : Addr} {na nb : DictNode K V}

theorem of_update (hab : a ≠ b) :
    Rewired h (Function.update (Function.update h a (some na)) b (some nb)) a b na nb where
  fst := (Heap.update_of_ne _ hab).trans (Function.update_self a (some na) h)
  snd := Function.update_self b (some nb) (Function.update h a (some na))
  frame _ ha hb := (Heap.update_of_ne _ hb).trans (Heap.update_of_ne _ ha)

theorem symm (hw : Rewired h h' a b na nb) : Rewired h h' b a nb na where
  fst := hw.snd
  snd := hw.fst
  frame x hb ha := hw.frame x ha hb

theorem held (hw : Rewired h h' a b na nb) (ha : a ∉ addrs t) (hb : b ∉ addrs t) (ht : Held h t) :
    Held h' t :=
  held_congr (fun x hx => hw.frame x (ne_of_mem_of_not_mem hx ha) (ne_of_mem_of_not_mem hx hb)) ht

/-- The two counters of a rotation are set, that of the lower node first; the
new tree is then in place.  The lower node is a child of the upper one, on
either side. -/
theorem recounted {low up : DictCell K V} {nlow nup : DictNode K V} {x y : DictTree K V}
    (hw : Rewired h h' low.addr up.addr nlow nup) (hsent : h sentinelAddr = some sentinel)
    (hlow : { nlow with nnode := (node low l m).numNodes } = nodeOf low l m)
    (hup : { nup with nnode := (node up x y).numNodes } = nodeOf up x y)
    (hchild : node low l m = x ∧ Held h y ∨ node low l m = y ∧ Held h x)
    (hl : Held h l) (hm : Held h m) (hnodup : (addrs (node up x y)).Nodup)
    (hapart : sentinelAddr ∉ addrs (node up x y))
    (hfits : ((node up x y).numNodes : Int) ≤ INT_MAX) :
    ∃ h₃ h₄, nodeReconstructNnode (some low.addr) h' = .ok h₃ ∧
      nodeReconstructNnode (some up.addr) h₃ = .ok h₄ ∧ Stored h₄ (node up x y) ∧
      ∀ a, a ≠ low.addr → a ≠ up.addr → h₄ a = h a := by
  obtain ⟨hnx, hny, hupx, hupy, hdisj⟩ := nodup_node.mp hnodup
  have hup0 : up.addr ≠ sentinelAddr := fun heq => hapart (mem_addrs_node.mpr (.inr (.inl heq.symm)))
  have hlower : (addrs (node low l m)).Nodup ∧ up.addr ∉ addrs (node low l m) ∧
      sentinelAddr ∉ addrs (node low l m) ∧ (node low l m).numNodes ≤ (node up x y).numNodes := by
    rcases hchild with ⟨rfl, -⟩ | ⟨rfl, -⟩
    · refine ⟨hnx, hupx, fun hmem => hapart (mem_addrs_node.mpr (.inl hmem)), ?_⟩
      simp only [numNodes]
      omega
    · refine ⟨hny, hupy, fun hmem => hapart (mem_addrs_node.mpr (.inr (.inr hmem))), ?_⟩
      simp only [numNodes]
      omega
  obtain ⟨hnlow, huplow, hapartlow, hle⟩ := hlower
  obtain ⟨-, -, hlowl, hlowm, -⟩ := nodup_node.mp hnlow
  rw [mem_addrs_node, not_or, not_or] at huplow hapartlow
  have hsent' : h' sentinelAddr = some sentinel :=
    (hw.frame _ hapartlow.2.1 hup0.symm).trans hsent
  obtain ⟨h₃, hrun₃, hheld, hframe₃⟩ := held_recounted (c := low) hsent' (Ne.symm hapartlow.2.1)
    hw.fst hlow hlowl hlowm (hw.held hlowl huplow.1 hl) (hw.held hlowm huplow.2.2 hm)
    ((Int.ofNat_le.mpr hle).trans hfits)
  have hrest : ∀ z : DictTree K V, low.addr ∉ addrs z → up.addr ∉ addrs z → Held h z → Held h₃ z :=
    fun z hlowz hupz hz => held_congr (fun a ha => hframe₃ a (ne_of_mem_of_not_mem ha hlowz))
      (hw.held hlowz hupz hz)
  have hmem : low.addr ∈ addrs (node low l m) := mem_addrs_node.mpr (.inr (.inl rfl))
  have hxy : Held h₃ x ∧ Held h₃ y := by
    rcases hchild with ⟨rfl, hy⟩ | ⟨rfl, hx⟩
    · exact ⟨hheld, hrest y (hdisj _ hmem) hupy hy⟩
    · exact ⟨hrest x (fun hmem' => hdisj _ hmem' hmem) hupx hx, hheld⟩
  have hsent₃ : h₃ sentinelAddr = some sentinel := (hframe₃ _ hapartlow.2.1).trans hsent'
  obtain ⟨h₄, hrun₄, hupper, hframe₄⟩ := held_recounted (c := up) hsent₃ hup0
    ((hframe₃ _ huplow.2.1).trans hw.snd) hup hupx hupy hxy.1 hxy.2 hfits
  refine ⟨h₃, h₄, hrun₃, hrun₄, ⟨hupper, hnodup, hapart, (hframe₄ _ hup0.symm).trans hsent₃⟩, ?_⟩
  exact fun a ha ha' => (hframe₄ a ha').trans ((hframe₃ a ha).trans (hw.frame a ha ha'))

end Rewired

/-- The right child becomes the root. -/
theorem subtreeRotateLeft_ok (hs : Stored h (node c l (node d m r)))
    (hfits : ((node c l (node d m r)).numNodes : Int) ≤ INT_MAX) :
    ∃ h', subtreeRotateLeft (some c.addr) h = .ok (some d.addr, h') ∧
      Stored h' (node d (node c l m) r) ∧
      ∀ a, a ∉ addrs (node c l (node d m r)) → h' a = h a := by
  have hcd : c.addr ≠ d.addr := addr_ne_of_nodup hs.nodup
  obtain ⟨⟨hc, hl, hd, hm, hr⟩, hnodup, hapart, hsent⟩ := hs
  obtain ⟨hc0, hd0⟩ := ne_sentinel_of_apart hapart
  -- the two pointers that change
  let nc : DictNode K V := { nodeOf c l (node d m r) with right := root m }
  let nd : DictNode K V := { nodeOf d m r with left := some c.addr }
  let h₁ : Heap (DictNode K V) := Function.update h c.addr (some nc)
  have hd₁ : h₁ d.addr = some (nodeOf d m r) := (Heap.update_of_ne _ hcd.symm).trans hd
  have hmodc : h.modify (some c.addr) (fun n => { n with right := root m }) = .ok h₁ :=
    Heap.modify_some _ hc
  have hmodd : h₁.modify (some d.addr) (fun n => { n with left := some c.addr })
      = .ok (Function.update h₁ d.addr (some nd)) := Heap.modify_some _ hd₁
  have hw : Rewired h (Function.update h₁ d.addr (some nd)) c.addr d.addr nc nd := .of_update hcd
  obtain ⟨h₃, h₄, hrun₃, hrun₄, hs₄, hframe⟩ := hw.recounted hsent rfl rfl (.inl ⟨rfl, hr⟩) hl hm
    (addrs_rotate ▸ hnodup) (addrs_rotate ▸ hapart) (numNodes_rotate ▸ hfits)
  refine ⟨h₄, ?_, hs₄, fun a ha => ?_⟩
  · have hne : ¬ EOT (some c.addr) ∧ ¬ EOT (some d.addr) :=
      ⟨fun heot => hc0 (Option.some.inj heot), fun heot => hd0 (Option.some.inj heot)⟩
    have hnotNull : some c.addr ≠ none := nofun
    simp only [subtreeRotateLeft, assert_of hnotNull, Outcome.ok_bind, Heap.load_some hc, nodeOf_right,
      root_node, hne, and_self, Heap.load_some hd, nodeOf_left, hmodc, hmodd, hrun₃, hrun₄]
    rfl
  · rw [mem_addrs_node, mem_addrs_node, not_or, not_or, not_or, not_or] at ha
    exact hframe a ha.2.1 ha.2.2.2.1

/-- The left child becomes the root. -/
theorem subtreeRotateRight_ok (hs : Stored h (node d (node c l m) r))
    (hfits : ((node d (node c l m) r).numNodes : Int) ≤ INT_MAX) :
    ∃ h', subtreeRotateRight (some d.addr) h = .ok (some c.addr, h') ∧
      Stored h' (node c l (node d m r)) ∧
      ∀ a, a ∉ addrs (node d (node c l m) r) → h' a = h a := by
  have hnodup := hs.nodup
  have hapart := hs.apart
  rw [addrs_rotate] at hnodup hapart
  have hcd : c.addr ≠ d.addr := addr_ne_of_nodup hnodup
  obtain ⟨⟨hd, ⟨hc, hl, hm⟩, hr⟩, -, -, hsent⟩ := hs
  obtain ⟨hc0, hd0⟩ := ne_sentinel_of_apart hapart
  -- the two pointers that change
  let nd : DictNode K V := { nodeOf d (node c l m) r with left := root m }
  let nc : DictNode K V := { nodeOf c l m with right := some d.addr }
  let h₁ : Heap (DictNode K V) := Function.update h d.addr (some nd)
  have hc₁ : h₁ c.addr = some (nodeOf c l m) := (Heap.update_of_ne _ hcd).trans hc
  have hmodd : h.modify (some d.addr) (fun n => { n with left := root m }) = .ok h₁ :=
    Heap.modify_some _ hd
  have hmodc : h₁.modify (some c.addr) (fun n => { n with right := some d.addr })
      = .ok (Function.update h₁ c.addr (some nc)) := Heap.modify_some _ hc₁
  have hw : Rewired h (Function.update h₁ c.addr (some nc)) d.addr c.addr nd nc :=
    .of_update hcd.symm
  obtain ⟨h₃, h₄, hrun₃, hrun₄, hs₄, hframe⟩ := hw.recounted hsent rfl rfl (.inr ⟨rfl, hl⟩) hm hr
    hnodup hapart (numNodes_rotate ▸ hfits)
  refine ⟨h₄, ?_, hs₄, fun a ha => ?_⟩
  · have hne : ¬ EOT (some d.addr) ∧ ¬ EOT (some c.addr) :=
      ⟨fun heot => hd0 (Option.some.inj heot), fun heot => hc0 (Option.some.inj heot)⟩
    have hnotNull : some d.addr ≠ none := nofun
    simp only [subtreeRotateRight, assert_of hnotNull, Outcome.ok_bind, Heap.load_some hd, nodeOf_left,
      root_node, hne, and_self, Heap.load_some hc, nodeOf_right, hmodd, hmodc, hrun₃, hrun₄]
    rfl
  · rw [addrs_rotate, mem_addrs_node, mem_addrs_node, not_or, not_or, not_or, not_or] at ha
    exact hframe a ha.2.2.2.1 ha.2.1

end Rotate

/-! ## Rebalancing -/

section Rebalance

variable {h : Heap (DictNode K V)} {c : DictCell K V} {l r t : DictTree K V}

theorem Stored.left (hs : Stored h (node c l r)) : Stored h l where
  held := hs.held.2.1
  nodup := (nodup_node.mp hs.nodup).1
  apart hmem := hs.apart (mem_addrs_node.mpr (.inl hmem))
  sentinel := hs.sentinel

theorem Stored.right (hs : Stored h (node c l r)) : Stored h r where
  held := hs.held.2.2
  nodup := (nodup_node.mp hs.nodup).2.1
  apart hmem := hs.apart (mem_addrs_node.mpr (.inr (.inr hmem)))
  sentinel := hs.sentinel

theorem Stored.notEOT (hs : Stored h (node c l r)) : some c.addr ≠ none ∧ ¬ EOT (some c.addr) :=
  ⟨nofun, fun heot => hs.ne_sentinel (Option.some.inj heot)⟩

theorem held_right (ht : Held h t) : Held h t.right := by
  cases t with
  | nil => exact trivial
  | node c l r => exact ht.2.2

theorem exists_node_of_level (hpos : 0 < level t) : ∃ c l r, t = node c l r := by
  cases t with
  | nil => exact absurd hpos (lt_irrefl 0)
  | node c l r => exact ⟨c, l, r, rfl⟩

theorem skew_ok (hs : Stored h (node c l r)) (hpos : 0 < c.level)
    (hfits : ((node c l r).numNodes : Int) ≤ INT_MAX) :
    ∃ h', skew (some c.addr) h = .ok (some c.addr, h') ∧ Stored h' (skewed (node c l r)) ∧
      ∀ a, a ∉ addrs (node c l r) → h' a = h a := by
  have hload : h.load (some c.addr) = .ok (nodeOf c l r) := Heap.load_some hs.held.1
  simp only [skew, assert_of hs.notEOT, Outcome.ok_bind, hload, nodeOf_left,
    load_root hs.sentinel hs.held.2.1, topOf_level, nodeOf_level, Nat.cast_inj]
  by_cases heq : c.level = level l
  · obtain ⟨b, bl, br, rfl⟩ := exists_node_of_level (hpos.trans_eq heq)
    obtain ⟨h', hrun, hs', hframe⟩ := subtreeRotateRight_ok hs hfits
    refine ⟨h', ?_, ?_, hframe⟩
    · rw [if_pos heq, hrun]
      rfl
    · -- what the rotation returns is the old left child, and the head is below it
      rw [skewed_of_eq heq]
      exact hs'.right
  · rw [if_neg heq, skewed_of_ne heq]
    exact ⟨h, rfl, hs, fun _ _ => rfl⟩

theorem split_ok (hs : Stored h (node c l r)) (hpos : 0 < c.level)
    (hfits : ((node c l r).numNodes : Int) ≤ INT_MAX)
    (hlevel : (level (splitted (node c l r)) : Int) ≤ INT_MAX) :
    ∃ h', split (some c.addr) h = .ok (root (splitted (node c l r)), h') ∧
      Stored h' (splitted (node c l r)) ∧ ∀ a, a ∉ addrs (node c l r) → h' a = h a := by
  have hload : h.load (some c.addr) = .ok (nodeOf c l r) := Heap.load_some hs.held.1
  simp only [split, assert_of hs.notEOT, Outcome.ok_bind, hload, nodeOf_right,
    load_root hs.sentinel hs.held.2.2, topOf_right,
    load_root hs.sentinel (held_right hs.held.2.2), topOf_level, nodeOf_level, Nat.cast_inj]
  by_cases heq : c.level = level r.right
  · cases r with
    | nil => exact absurd heq hpos.ne'
    | node d m r =>
        have heq' : splitted (node c l (node d m r))
            = node { d with level := d.level + 1 } (node c l m) r := if_pos heq
        rw [heq'] at hlevel ⊢
        obtain ⟨h₁, hrun, hs₁, hframe⟩ := subtreeRotateLeft_ok hs hfits
        have hup : ((d.level : Int) + 1) ≤ INT_MAX := hlevel
        have hmin : INT_MIN ≤ 0 := by decide
        let h₂ : Heap (DictNode K V) := Function.update h₁ d.addr
          (some (nodeOf { d with level := d.level + 1 } (node c l m) r))
        have hmod : h₁.modify (some d.addr) (fun n => { n with level := (d.level : Int) + 1 })
            = .ok h₂ :=
          Heap.modify_some _ hs₁.held.1
        have haddrs : addrs (node { d with level := d.level + 1 } (node c l m) r)
            = addrs (node d (node c l m) r) := addrs_congr rfl
        obtain ⟨-, -, hdl, hdr, -⟩ := nodup_node.mp hs₁.nodup
        refine ⟨h₂, ?_, ⟨⟨Function.update_self _ _ _, held_update hdl hs₁.held.2.1,
          held_update hdr hs₁.held.2.2⟩, ?_, ?_, ?_⟩, fun a ha => ?_⟩
        · rw [if_pos heq, hrun, Outcome.ok_bind]
          dsimp only
          rw [Heap.load_some hs₁.held.1, Outcome.ok_bind, nodeOf_level, checkInt_of ⟨by omega, hup⟩,
            Outcome.ok_bind, hmod]
          rfl
        · rw [haddrs]
          exact hs₁.nodup
        · rw [haddrs]
          exact hs₁.apart
        · exact (Heap.update_of_ne _ hs₁.ne_sentinel.symm).trans hs₁.sentinel
        · have hne : a ≠ d.addr := fun hd => ha (mem_addrs_node.mpr
            (.inr (.inr (mem_addrs_node.mpr (.inr (.inl hd))))))
          exact (Heap.update_of_ne _ hne).trans (hframe a ha)
  · rw [if_neg heq, splitted_of_ne heq]
    exact ⟨h, rfl, hs, fun _ _ => rfl⟩

theorem exists_skewed (c : DictCell K V) (l r : DictTree K V) :
    ∃ m, skewed (node c l r) = node c m r ∧ (∀ a ∈ addrs m, a ∈ addrs l) ∧
      m.numNodes ≤ l.numNodes := by
  by_cases heq : c.level = level l
  · refine ⟨l.right, skewed_of_eq heq, fun a ha => addrs_right ha, ?_⟩
    cases l with
    | nil => exact le_rfl
    | node b bl br =>
        show br.numNodes ≤ bl.numNodes + br.numNodes + 1
        omega
  · exact ⟨l, skewed_of_ne heq, fun _ ha => ha, le_rfl⟩

/-- A node comes back from the recursion with a child that was put into. -/
theorem rebalance_ok {n : DictNode K V} {s : PutState K V} (hn : s.heap c.addr = some n)
    (hnode : { n with nnode := (node c l r).numNodes } = nodeOf c l r)
    (hl : Held s.heap l) (hr : Held s.heap r) (hnodup : (addrs (node c l r)).Nodup)
    (hapart : sentinelAddr ∉ addrs (node c l r)) (hsent : s.heap sentinelAddr = some sentinel)
    (hpos : 0 < c.level) (hfits : ((node c l r).numNodes : Int) ≤ INT_MAX)
    (hlevel : (level (splitted (skewed (node c l r))) : Int) ≤ INT_MAX) :
    ∃ h', rebalance (some c.addr) s
        = .ok (root (splitted (skewed (node c l r))), { s with heap := h' }) ∧
      Stored h' (splitted (skewed (node c l r))) ∧
      ∀ a, a ∉ addrs (node c l r) → h' a = s.heap a := by
  have hc0 : c.addr ≠ sentinelAddr := fun heq =>
    hapart (mem_addrs_node.mpr (.inr (.inl heq.symm)))
  obtain ⟨-, -, hcl, hcr, -⟩ := nodup_node.mp hnodup
  obtain ⟨h₁, hrun₁, hheld, hframe₁⟩ := held_recounted hsent hc0 hn hnode hcl hcr hl hr hfits
  have hs₁ : Stored h₁ (node c l r) :=
    ⟨hheld, hnodup, hapart, (hframe₁ _ hc0.symm).trans hsent⟩
  obtain ⟨h₂, hrun₂, hs₂, hframe₂⟩ := skew_ok hs₁ hpos hfits
  obtain ⟨m, hskewed, haddrs, hsize⟩ := exists_skewed c l r
  rw [hskewed] at hs₂ hlevel ⊢
  have hfits₂ : ((node c m r).numNodes : Int) ≤ INT_MAX := by
    simp only [numNodes] at hfits ⊢
    omega
  obtain ⟨h₃, hrun₃, hs₃, hframe₃⟩ := split_ok hs₂ hpos hfits₂ hlevel
  refine ⟨h₃, ?_, hs₃, fun a ha => ?_⟩
  · rw [rebalance, hrun₁, Outcome.ok_bind, hrun₂, Outcome.ok_bind]
    dsimp only
    rw [hrun₃]
    rfl
  · have ham : a ∉ addrs (node c m r) := fun h => ha <| mem_addrs_node.mpr <|
      (mem_addrs_node.mp h).imp_left (haddrs a)
    have hac : a ≠ c.addr := fun h => ha (mem_addrs_node.mpr (.inr (.inl h)))
    exact (hframe₃ a ham).trans ((hframe₂ a ha).trans (hframe₁ a hac))

end Rebalance

end DictTree

end Jccl
