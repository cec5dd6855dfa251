/-
# `Jccl.Dict.Recount` — the counters of a whole tree

`subtree_reconstruct_nnode` walks a tree from below and counts it anew.  The
tests call it on trees that they built by hand, or after a rotation, so
nothing is known of the counters before: a tree is wired if its nodes are
where they should be but for the counters.  Afterwards it is stored, and
nothing but the counters has changed.
-/
import Jccl.Dict.Run

namespace Jccl

open BinaryTree AATree

variable {K V : Type}

def subtreeReconstructNnode :
    Nat → Option Addr → Heap (DictNode K V) → Outcome (Heap (DictNode K V))
  | 0, _, _ => .error .timeout
  | fuel + 1, head, heap => do
      assert (head ≠ none)
      if EOT head then
        return heap
      else
        let node ← heap.load head
        let heap ← subtreeReconstructNnode fuel node.left heap
        let node ← heap.load head
        let heap ← subtreeReconstructNnode fuel node.right heap
        nodeReconstructNnode head heap

namespace DictTree

/-- Every node is where it should be, but for its counter. -/
def Wired (h : Heap (DictNode K V)) : DictTree K V → Prop
  | nil => True
  | node c l r => (∃ nnode, h c.addr = some { nodeOf c l r with nnode := nnode }) ∧
      Wired h l ∧ Wired h r

/-- What a tree in memory needs beside its nodes. -/
structure Placed (h : Heap (DictNode K V)) (t : DictTree K V) : Prop where
  nodup : (addrs t).Nodup
  apart : sentinelAddr ∉ addrs t
  sentinel : h sentinelAddr = some sentinel

section Lemmas

variable {h h' : Heap (DictNode K V)} {t l r : DictTree K V} {c : DictCell K V}

theorem wired_congr (heq : ∀ a ∈ addrs t, h' a = h a) (ht : Wired h t) : Wired h' t := by
  induction t with
  | nil => exact trivial
  | node c l r ihl ihr =>
      obtain ⟨⟨nnode, hc⟩, hl, hr⟩ := ht
      refine ⟨⟨nnode, ?_⟩, ihl (fun a ha => ?_) hl, ihr (fun a ha => ?_) hr⟩
      · exact (heq c.addr (mem_addrs_node.mpr (.inr (.inl rfl)))).trans hc
      · exact heq a (mem_addrs_node.mpr (.inl ha))
      · exact heq a (mem_addrs_node.mpr (.inr (.inr ha)))

theorem Placed.left (hp : Placed h (node c l r)) : Placed h l where
  nodup := (nodup_node.mp hp.nodup).1
  apart hmem := hp.apart (mem_addrs_node.mpr (.inl hmem))
  sentinel := hp.sentinel

theorem Placed.right (hp : Placed h (node c l r)) : Placed h r where
  nodup := (nodup_node.mp hp.nodup).2.1
  apart hmem := hp.apart (mem_addrs_node.mpr (.inr (.inr hmem)))
  sentinel := hp.sentinel

theorem Placed.ne_sentinel (hp : Placed h (node c l r)) : c.addr ≠ sentinelAddr := fun heq =>
  hp.apart (mem_addrs_node.mpr (.inr (.inl heq.symm)))

theorem Placed.congr (hp : Placed h t) (hframe : ∀ a, a ∉ addrs l → h' a = h a)
    (hl : sentinelAddr ∉ addrs l) : Placed h' t :=
  ⟨hp.nodup, hp.apart, (hframe _ hl).trans hp.sentinel⟩

/-- The recursion counts the tree, if the counters can hold the numbers. -/
def Recounts (fuel : Nat) (h : Heap (DictNode K V)) (t : DictTree K V) : Prop :=
  ((t.numNodes : Int) ≤ INT_MAX → ∃ h', subtreeReconstructNnode fuel (root t) h = .ok h' ∧
      Held h' t ∧ ∀ a, a ∉ addrs t → h' a = h a) ∧
    (INT_MAX < (t.numNodes : Int) →
      subtreeReconstructNnode fuel (root t) h = .error .overflow)

theorem recounts {fuel : Nat} (hw : Wired h t) (hp : Placed h t) (hfuel : t.height < fuel) :
    Recounts fuel h t := by
  induction t generalizing h fuel with
  | nil =>
      obtain ⟨fuel, rfl⟩ := Nat.exists_eq_succ_of_ne_zero (Nat.ne_of_gt (Nat.zero_lt_of_lt hfuel))
      refine ⟨fun _ => ⟨h, rfl, trivial, fun _ _ => rfl⟩, fun hlt => ?_⟩
      have hzero : ¬ INT_MAX < ((0 : Nat) : Int) := by decide
      exact absurd hlt hzero
  | node c l r ihl ihr =>
      obtain ⟨⟨nnode, hc⟩, hl, hr⟩ := hw
      obtain ⟨-, -, hcl, hcr, hlr⟩ := nodup_node.mp hp.nodup
      have hne := hp.ne_sentinel
      have hnull : some c.addr ≠ none := nofun
      have heot : ¬ EOT (some c.addr) := fun heot => hne (Option.some.inj heot)
      obtain ⟨fuel, rfl⟩ := Nat.exists_eq_succ_of_ne_zero (Nat.ne_of_gt (Nat.zero_lt_of_lt hfuel))
      rw [height] at hfuel
      have hfl : l.height < fuel := by omega
      have hfr : r.height < fuel := by omega
      have hsum : ((node c l r).numNodes : Int) = l.numNodes + r.numNodes + 1 := by
        rw [numNodes]
        push_cast
        ring
      obtain ⟨hlok, hlover⟩ := ihl hl hp.left hfl
      rw [Recounts, root_node, subtreeReconstructNnode, assert_of hnull, Outcome.ok_bind, if_neg heot,
        Heap.load_some hc, Outcome.ok_bind]
      dsimp only [nodeOf_left]
      rcases lt_or_ge INT_MAX (l.numNodes : Int) with hlt | hle
      · rw [hlover hlt]
        exact ⟨fun hfits => absurd hfits (by omega), fun _ => rfl⟩
      obtain ⟨h₁, hrun₁, hheld₁, hframe₁⟩ := hlok hle
      have hc₁ := (hframe₁ _ hcl).trans hc
      have hw₁ : Wired h₁ r := wired_congr (fun a ha => hframe₁ a fun hal => hlr a hal ha) hr
      obtain ⟨hrok, hrover⟩ := ihr hw₁ (hp.right.congr hframe₁ hp.left.apart) hfr
      rw [hrun₁, Outcome.ok_bind, Heap.load_some hc₁, Outcome.ok_bind]
      dsimp only [nodeOf_right]
      rcases lt_or_ge INT_MAX (r.numNodes : Int) with hlt | hle
      · rw [hrover hlt]
        exact ⟨fun hfits => absurd hfits (by omega), fun _ => rfl⟩
      obtain ⟨h₂, hrun₂, hheld₂, hframe₂⟩ := hrok hle
      have hc₂ := (hframe₂ _ hcr).trans hc₁
      have hsent : h₂ sentinelAddr = some sentinel :=
        (hframe₂ _ hp.right.apart).trans ((hframe₁ _ hp.left.apart).trans hp.sentinel)
      have hleft : Held h₂ l := held_congr (fun a ha => hframe₂ a (hlr a ha)) hheld₁
      rw [hrun₂, Outcome.ok_bind]
      refine ⟨fun hfits => ?_, fun hlt => ?_⟩
      · obtain ⟨h₃, hrun₃, hheld₃, hframe₃⟩ :=
          held_recounted hsent hne hc₂ rfl hcl hcr hleft hheld₂ hfits
        refine ⟨h₃, hrun₃, hheld₃, fun a ha => ?_⟩
        rw [mem_addrs_node, not_or, not_or] at ha
        exact (hframe₃ a ha.2.1).trans ((hframe₂ a ha.2.2).trans (hframe₁ a ha.1))
      · exact nodeReconstructNnode_overflow hsent hne hc₂ rfl rfl hleft hheld₂ hlt

end Lemmas

/-- Whatever the counters were, they are right afterwards, and nothing else
has changed; a tree that was right is left as it was.  Only a tree that is
too large for `int` cannot be counted. -/
theorem subtreeReconstructNnode_stored {h : Heap (DictNode K V)} {t : DictTree K V} {fuel : Nat}
    (hw : Wired h t) (hp : Placed h t) (hfuel : t.height < fuel) :
    ((t.numNodes : Int) ≤ INT_MAX → ∃ h', subtreeReconstructNnode fuel (root t) h = .ok h' ∧
      Stored h' t ∧ subtreeSize (root t) h' = .ok (t.numNodes : Int) ∧
      (∀ a, a ∉ addrs t → h' a = h a) ∧ (Held h t → h' = h)) ∧
    (INT_MAX < (t.numNodes : Int) →
      subtreeReconstructNnode fuel (root t) h = .error .overflow) := by
  obtain ⟨hok, hover⟩ := recounts hw hp hfuel
  refine ⟨fun hfits => ?_, hover⟩
  obtain ⟨h', hrun, hheld, hframe⟩ := hok hfits
  have hs : Stored h' t := ⟨hheld, hp.nodup, hp.apart, (hframe _ hp.apart).trans hp.sentinel⟩
  refine ⟨h', hrun, hs, subtreeSize_ok hs, hframe, fun hheld₀ => ?_⟩
  funext a
  by_cases ha : a ∈ addrs t
  · exact held_agree hheld₀ hheld ha
  · exact hframe a ha

/-- Two nodes whose counters are zero, as the tests set them. -/
theorem subtreeReconstructNnode_stored_two :
    ∃ (h h' : Heap (DictNode Nat Nat)) (t : DictTree Nat Nat), t.numNodes = 2 ∧
      subtreeSize (root t) h = .ok 0 ∧ subtreeReconstructNnode 3 (root t) h = .ok h' ∧
      subtreeSize (root t) h' = .ok 2 := by
  let low : DictNode Nat Nat :=
    { left := endOfTree, right := endOfTree, key := some 1, value := none, nnode := 0, level := 1 }
  let top : DictNode Nat Nat :=
    { left := some 1, right := endOfTree, key := some 2, value := none, nnode := 0, level := 2 }
  let h : Heap (DictNode Nat Nat) := Function.update (Function.update
    (Function.update Heap.empty sentinelAddr (some sentinel)) 1 (some low)) 2 (some top)
  let t : DictTree Nat Nat := node { addr := 2, level := 2, key := 2, value := none }
    (node { addr := 1, level := 1, key := 1, value := none } nil nil) nil
  have hw : Wired h t := ⟨⟨0, rfl⟩, ⟨⟨0, rfl⟩, trivial, trivial⟩, trivial⟩
  have hp : Placed h t := ⟨by decide, by decide, rfl⟩
  have hheight : t.height < 3 := by decide
  obtain ⟨h', hrun, -, hsize, -⟩ := (subtreeReconstructNnode_stored hw hp hheight).1 (by decide)
  exact ⟨h, h', t, rfl, rfl, hrun, hsize⟩

end DictTree

end Jccl
