/-
# `Jccl.Dict.Put` — `dict_put` and `dict_get` on a stored tree

The recursion of `subtree_put` takes a stored tree to the stored tree that
`treePut` makes of it, whether the allocator gives it a node or not, and the
loop of `subtree_get` finds what `treeFind` does.  Both have the fuel they
need, as a tree is at most as high as it has nodes.
-/
import Jccl.Dict.Stored

namespace Jccl

open BinaryTree AATree SortedMap

variable {K V : Type}

namespace DictTree

/-- What takes the place of an empty subtree: the new node, if there is one. -/
inductive NewLeaf (args : PutArgs K V) (h : Heap (DictNode K V)) : DictTree K V → Prop
  | refused : h.grants args.answer = false → NewLeaf args h nil
  | granted {a : Addr} : args.answer = some a → h a = none →
      NewLeaf args h (node { addr := a, level := 1, key := args.key, value := args.value } nil nil)

/-- What has been written to when a call is over; `found` is the old node of
the key. -/
def putResult (args : PutArgs K V) (s : PutState K V) (found : Option (DictCell K V))
    (leaf : DictTree K V) (heap : Heap (DictNode K V)) : PutState K V :=
  match found, leaf with
  | some c, _ =>
      { s with
        heap := heap
        nkey := s.nkey.map fun _ => some c.key
        nvalue := s.nvalue.map fun _ => c.value }
  | none, nil => { s with heap := heap, status := if args.errno ≠ 0 then args.errno else -1 }
  | none, node _ _ _ =>
      { s with heap := heap, nkey := s.nkey.map fun _ => none, nvalue := s.nvalue.map fun _ => none }

/-- The counter that the root gets first, before any node is lost, is not too
large. -/
def CountFits (args : PutArgs K V) (leaf : DictTree K V) : DictTree K V → Prop
  | nil => True
  | node c l r =>
      if args.compar args.key c.key < 0 then
        ((node c (treePut args leaf l) r).numNodes : Int) ≤ INT_MAX
      else if args.compar args.key c.key = 0 then True
      else ((node c l (treePut args leaf r)).numNodes : Int) ≤ INT_MAX

section Lemmas

variable {args : PutArgs K V} {h : Heap (DictNode K V)} {s : PutState K V}
variable {t l r leaf : DictTree K V} {c : DictCell K V} {a : Addr}

theorem exists_newLeaf (args : PutArgs K V) (h : Heap (DictNode K V)) :
    ∃ leaf, NewLeaf args h leaf := by
  cases hg : h.grants args.answer with
  | false => exact ⟨nil, .refused hg⟩
  | true =>
      cases hans : args.answer with
      | none =>
          rw [hans] at hg
          cases hg
      | some a =>
          rw [hans] at hg
          exact ⟨_, .granted hans (Option.isNone_iff_eq_none.mp hg)⟩

theorem NewLeaf.fresh (hleaf : NewLeaf args h leaf) (ha : a ∈ addrs leaf) : h a = none := by
  cases hleaf with
  | refused _ => exact absurd ha List.not_mem_nil
  | granted _ hnone =>
      rw [List.mem_singleton.mp ha]
      exact hnone

theorem NewLeaf.ne_nil (hleaf : NewLeaf args h leaf) : leaf ≠ nil ↔ h.grants args.answer = true := by
  cases hleaf with
  | refused hno => exact ⟨fun hne => absurd rfl hne, fun hyes => by rw [hno] at hyes; cases hyes⟩
  | granted hans hnone =>
      rw [hans]
      exact ⟨fun _ => Option.isNone_iff_eq_none.mpr hnone, fun _ => nofun⟩

theorem NewLeaf.balanced (hleaf : NewLeaf args h leaf) (ht : Balanced t) :
    Balanced (treePut args leaf t) := by
  cases hleaf with
  | refused _ => exact (treePut_nil ht).1
  | granted _ _ => exact (treePut_leveled rfl ht).balanced

theorem held_live (ht : Held h t) (ha : a ∈ addrs t) : h a ≠ none := by
  induction t with
  | nil => exact absurd ha List.not_mem_nil
  | node c l r ihl ihr =>
      rcases mem_addrs_node.mp ha with ha | rfl | ha
      · exact ihl ht.2.1 ha
      · rw [ht.1]
        exact nofun
      · exact ihr ht.2.2 ha

@[simp] theorem heap_putResult (found : Option (DictCell K V)) (heap : Heap (DictNode K V)) :
    (putResult args s found leaf heap).heap = heap := by
  cases found with
  | some c => rfl
  | none => cases leaf <;> rfl

theorem putResult_heap (found : Option (DictCell K V)) (heap heap' : Heap (DictNode K V)) :
    { putResult args s found leaf heap with heap := heap' } = putResult args s found leaf heap' := by
  cases found with
  | some c => rfl
  | none => cases leaf <;> rfl

/-- The call fails only for want of a node. -/
theorem status_putResult {found : Option (DictCell K V)} {heap : Heap (DictNode K V)}
    (hzero : s.status = 0) (h : (putResult args s found leaf heap).status ≠ 0) :
    found = none ∧ leaf = nil := by
  cases found with
  | some c => exact absurd hzero h
  | none =>
      cases leaf with
      | nil => exact ⟨rfl, rfl⟩
      | node c l r => exact absurd hzero h

theorem level_le (ht : Balanced t) (hfits : (t.numNodes : Int) ≤ INT_MAX) :
    (level t : Int) ≤ INT_MAX := by
  have hpow := two_pow_level_le ht
  have hlt := Nat.lt_two_pow_self (n := level t)
  omega

/-! ## Which nodes there are afterwards -/

theorem addrs_splitted (t : DictTree K V) : addrs (splitted t) = addrs t := by
  cases t with
  | nil => rfl
  | node c l r =>
      cases r with
      | nil => rfl
      | node d m r =>
          rw [splitted]
          split
          · have hsame : addrs (node { d with level := d.level + 1 } (node c l m) r)
                = addrs (node d (node c l m) r) := addrs_congr rfl
            exact hsame.trans addrs_rotate
          · rfl

theorem numNodes_splitted (t : DictTree K V) : (splitted t).numNodes = t.numNodes := by
  have hlen := congrArg List.length (addrs_splitted t)
  simpa [addrs, length_inorder] using hlen

theorem mem_addrs_treePut (ha : a ∈ addrs (treePut args leaf t)) : a ∈ addrs t ∨ a ∈ addrs leaf := by
  induction t with
  | nil => exact .inr ha
  | node c l r ihl ihr =>
      rw [treePut] at ha
      split at ha
      · obtain ⟨m, hm, haddrs, -⟩ := exists_skewed c (treePut args leaf l) r
        rw [addrs_splitted, hm, mem_addrs_node] at ha
        rcases ha with ha | rfl | ha
        · exact (ihl (haddrs a ha)).imp_left fun h => mem_addrs_node.mpr (.inl h)
        · exact .inl (mem_addrs_node.mpr (.inr (.inl rfl)))
        · exact .inl (mem_addrs_node.mpr (.inr (.inr ha)))
      · split at ha
        · rw [mem_addrs_node] at ha
          exact .inl (mem_addrs_node.mpr ha)
        · obtain ⟨m, hm, haddrs, -⟩ := exists_skewed c l (treePut args leaf r)
          rw [addrs_splitted, hm, mem_addrs_node] at ha
          rcases ha with ha | rfl | ha
          · exact .inl (mem_addrs_node.mpr (.inl (haddrs a ha)))
          · exact .inl (mem_addrs_node.mpr (.inr (.inl rfl)))
          · exact (ihr ha).imp_left fun h => mem_addrs_node.mpr (.inr (.inr h))

/-- There is at most the new node more, if there is no node of the key. -/
theorem numNodes_treePut_le : (treePut args leaf t).numNodes
    ≤ t.numNodes + if (treeFind args.compar args.key t).isSome then 0 else leaf.numNodes := by
  induction t with
  | nil => exact Nat.le_add_left _ _
  | node c l r ihl ihr =>
      rw [treePut, treeFind]
      split
      · obtain ⟨m, hm, -, hsize⟩ := exists_skewed c (treePut args leaf l) r
        rw [numNodes_splitted, hm, numNodes, numNodes]
        omega
      · split
        · exact Nat.le_add_right _ _
        · obtain ⟨m, hm, -, hsize⟩ := exists_skewed c l (treePut args leaf r)
          rw [numNodes_splitted, hm, numNodes, numNodes]
          omega

theorem numNodes_rebalanced_le :
    ((splitted (skewed (node c l r))).numNodes : Int) ≤ (node c l r).numNodes := by
  obtain ⟨m, hm, -, hsize⟩ := exists_skewed c l r
  rw [numNodes_splitted, hm, numNodes, numNodes]
  omega

theorem NewLeaf.numNodes_le (hleaf : NewLeaf args h leaf) : leaf.numNodes ≤ 1 := by
  cases hleaf with
  | refused _ => exact Nat.zero_le 1
  | granted _ _ => exact le_rfl

theorem countFits_of_le
    (hfits : ((t.numNodes +
      if (treeFind args.compar args.key t).isSome then 0 else leaf.numNodes : Nat) : Int)
        ≤ INT_MAX) :
    CountFits args leaf t := by
  cases t with
  | nil => exact trivial
  | node c l r =>
      rw [treeFind, numNodes] at hfits
      rw [CountFits]
      by_cases hlt : args.compar args.key c.key < 0
      · have hsize : (treePut args leaf l).numNodes ≤ _ := numNodes_treePut_le
        rw [if_pos hlt] at hfits ⊢
        rw [numNodes]
        omega
      · rw [if_neg hlt] at hfits ⊢
        by_cases heq : args.compar args.key c.key = 0
        · rw [if_pos heq]
          exact trivial
        · have hsize : (treePut args leaf r).numNodes ≤ _ := numNodes_treePut_le
          rw [if_neg heq] at hfits ⊢
          rw [numNodes]
          omega

/-- Only the very last node that can be counted is a trouble. -/
theorem NewLeaf.countFits (hleaf : NewLeaf args h leaf) (hlt : (t.numNodes : Int) < INT_MAX) :
    CountFits args leaf t := by
  refine countFits_of_le ?_
  have hle := hleaf.numNodes_le
  split <;> omega

/-- The tree that a put leaves can be counted, too. -/
theorem NewLeaf.fits (hleaf : NewLeaf args h leaf) (hfits : (t.numNodes : Int) ≤ INT_MAX)
    (hcount : CountFits args leaf t) : ((treePut args leaf t).numNodes : Int) ≤ INT_MAX := by
  cases t with
  | nil =>
      have hone : (1 : Int) ≤ INT_MAX := by decide
      have hle := hleaf.numNodes_le
      show (leaf.numNodes : Int) ≤ INT_MAX
      omega
  | node c l r =>
      rw [CountFits] at hcount
      rw [treePut]
      by_cases hlt : args.compar args.key c.key < 0
      · rw [if_pos hlt] at hcount ⊢
        exact numNodes_rebalanced_le.trans hcount
      · rw [if_neg hlt] at hcount ⊢
        by_cases heq : args.compar args.key c.key = 0
        · rw [if_pos heq]
          exact hfits
        · rw [if_neg heq] at hcount ⊢
          exact numNodes_rebalanced_le.trans hcount

/-! ## The recursion -/

theorem exists_fuel {fuel : Nat} (hfuel : (node c l r).height < fuel) :
    ∃ fuel', fuel = fuel' + 1 ∧ l.height < fuel' ∧ r.height < fuel' := by
  rw [height] at hfuel
  exact ⟨fuel - 1, by omega, by omega, by omega⟩

theorem balanced_pos (hb : Balanced (node c l r)) : 0 < c.level :=
  (Nat.succ_pos _).trans_eq (balanced_node.mp hb).1.symm

/-- What is done to a node when the recursion has come back to it. -/
theorem comeBack_ok {f : DictNode K V → DictNode K V} {l' r' : DictTree K V} (s : PutState K V)
    (hc : h c.addr = some (nodeOf c l r))
    (hnode : { f (nodeOf c l r) with nnode := (node c l' r').numNodes } = nodeOf c l' r')
    (hl : Held h l') (hr : Held h r') (hnodup : (addrs (node c l' r')).Nodup)
    (hapart : sentinelAddr ∉ addrs (node c l' r')) (hsent : h sentinelAddr = some sentinel)
    (hpos : 0 < c.level) (hfits : ((node c l' r').numNodes : Int) ≤ INT_MAX)
    (hlevel : (level (splitted (skewed (node c l' r'))) : Int) ≤ INT_MAX) :
    ∃ h₁ h', h.modify (some c.addr) f = .ok h₁ ∧
      rebalance (some c.addr) { s with heap := h₁ }
        = .ok (root (splitted (skewed (node c l' r'))), { s with heap := h' }) ∧
      Stored h' (splitted (skewed (node c l' r'))) ∧
      ∀ a, a ∉ addrs (node c l' r') → h' a = h a := by
  obtain ⟨-, -, hcl, hcr, -⟩ := nodup_node.mp hnodup
  have hc0 : sentinelAddr ≠ c.addr := fun heq => hapart (mem_addrs_node.mpr (.inr (.inl heq)))
  let h₁ : Heap (DictNode K V) := Function.update h c.addr (some (f (nodeOf c l r)))
  obtain ⟨h', hrun, hs', hframe⟩ := rebalance_ok (s := { s with heap := h₁ })
    (Function.update_self _ _ _) hnode (held_update hcl hl) (held_update hcr hr) hnodup hapart
    ((Heap.update_of_ne _ hc0).trans hsent) hpos hfits hlevel
  refine ⟨h₁, h', Heap.modify_some f hc, hrun, hs', fun a ha => ?_⟩
  have hac : a ≠ c.addr := fun heq => ha (mem_addrs_node.mpr (.inr (.inl heq)))
  exact (hframe a ha).trans (Heap.update_of_ne _ hac)

/-- The recursion does to the subtree what `treePut` does, and leaves alone
what belongs neither to it nor to the new node. -/
def PutOk (args : PutArgs K V) (leaf : DictTree K V) (fuel : Nat) (s : PutState K V)
    (t : DictTree K V) : Prop :=
  ∃ h', subtreePut args fuel (root t) s = .ok (root (treePut args leaf t),
      putResult args s (treeFind args.compar args.key t) leaf h') ∧
    Stored h' (treePut args leaf t) ∧ ∀ a, a ∉ addrs t → a ∉ addrs leaf → h' a = s.heap a

theorem subtreePut_nil (hs : Stored s.heap (nil : DictTree K V)) (hleaf : NewLeaf args s.heap leaf)
    (fuel : Nat) : PutOk args leaf (fuel + 1) s nil := by
  have heot : EOT endOfTree := rfl
  rw [PutOk, root_nil, subtreePut, if_pos heot]
  cases hleaf with
  | refused hg =>
      refine ⟨s.heap, ?_, hs, fun _ _ _ => rfl⟩
      rw [nodeInit, Heap.malloc_of_not_grants hg]
      rfl
  | @granted a hans hnone =>
      let new : DictCell K V := { addr := a, level := 1, key := args.key, value := args.value }
      have ha0 : sentinelAddr ≠ a := fun heq => by
        rw [← heq, hs.sentinel] at hnone
        cases hnone
      have hinit : nodeInit args.key args.value args.answer s.heap
          = (some a, Function.update s.heap a (some (nodeOf new nil nil))) := by
        rw [nodeInit, hans]
        exact if_pos (Option.isNone_iff_eq_none.mpr hnone)
      refine ⟨Function.update s.heap a (some (nodeOf new nil nil)), ?_,
        ⟨⟨Function.update_self _ _ _, trivial, trivial⟩, List.nodup_singleton _, ?_, ?_⟩, ?_⟩
      · rw [hinit]
        rfl
      · exact fun hmem => ha0 (List.mem_singleton.mp hmem)
      · exact (Heap.update_of_ne _ ha0).trans hs.sentinel
      · exact fun x _ hx => Heap.update_of_ne _ fun heq => hx (List.mem_singleton.mpr heq)

/-- A live address is not that of the new node. -/
theorem notMem_treePut (hleaf : NewLeaf args h leaf) (hlive : h a ≠ none) (ha : a ∉ addrs t) :
    a ∉ addrs (treePut args leaf t) := fun hmem =>
  (mem_addrs_treePut hmem).elim ha fun hleaf' => hlive (hleaf.fresh hleaf')

/-- The left subtree was put into; the root and the right one are as before. -/
theorem Stored.afterLeft (hs : Stored h (node c l r)) (hleaf : NewLeaf args h leaf)
    {h₁ : Heap (DictNode K V)} (hs₁ : Stored h₁ (treePut args leaf l))
    (hframe : ∀ a, a ∉ addrs l → a ∉ addrs leaf → h₁ a = h a) :
    h₁ c.addr = some (nodeOf c l r) ∧ Held h₁ r ∧
      (addrs (node c (treePut args leaf l) r)).Nodup ∧
      sentinelAddr ∉ addrs (node c (treePut args leaf l) r) := by
  obtain ⟨-, hnr, hcl, hcr, hlr⟩ := nodup_node.mp hs.nodup
  have hlive : ∀ a ∈ addrs (node c l r), h a ≠ none := fun a ha => held_live hs.held ha
  have hc := hlive c.addr (mem_addrs_node.mpr (.inr (.inl rfl)))
  have hr : ∀ a ∈ addrs r, h a ≠ none := fun a ha => held_live hs.held.2.2 ha
  refine ⟨?_, ?_, ?_, ?_⟩
  · exact (hframe _ hcl fun hnew => hc (hleaf.fresh hnew)).trans hs.held.1
  · exact held_congr (fun a ha => hframe a (fun hal => hlr a hal ha)
      fun hnew => hr a ha (hleaf.fresh hnew)) hs.held.2.2
  · exact nodup_node.mpr ⟨hs₁.nodup, hnr, notMem_treePut hleaf hc hcl, hcr, fun a ha har =>
      notMem_treePut hleaf (hr a har) (fun hal => hlr a hal har) ha⟩
  · rw [mem_addrs_node, not_or, not_or]
    exact ⟨hs₁.apart, hs.ne_sentinel.symm, hs.right.apart⟩

theorem Stored.afterRight (hs : Stored h (node c l r)) (hleaf : NewLeaf args h leaf)
    {h₁ : Heap (DictNode K V)} (hs₁ : Stored h₁ (treePut args leaf r))
    (hframe : ∀ a, a ∉ addrs r → a ∉ addrs leaf → h₁ a = h a) :
    h₁ c.addr = some (nodeOf c l r) ∧ Held h₁ l ∧
      (addrs (node c l (treePut args leaf r))).Nodup ∧
      sentinelAddr ∉ addrs (node c l (treePut args leaf r)) := by
  obtain ⟨hnl, -, hcl, hcr, hlr⟩ := nodup_node.mp hs.nodup
  have hc : h c.addr ≠ none := held_live hs.held (mem_addrs_node.mpr (.inr (.inl rfl)))
  have hl : ∀ a ∈ addrs l, h a ≠ none := fun a ha => held_live hs.held.2.1 ha
  refine ⟨?_, ?_, ?_, ?_⟩
  · exact (hframe _ hcr fun hnew => hc (hleaf.fresh hnew)).trans hs.held.1
  · exact held_congr (fun a ha => hframe a (hlr a ha)
      fun hnew => hl a ha (hleaf.fresh hnew)) hs.held.2.1
  · exact nodup_node.mpr ⟨hnl, hs₁.nodup, hcl, notMem_treePut hleaf hc hcr, fun a ha =>
      notMem_treePut hleaf (hl a ha) (hlr a ha)⟩
  · rw [mem_addrs_node, not_or, not_or]
    exact ⟨hs.left.apart, hs.ne_sentinel.symm, hs₁.apart⟩

/-- One step of the recursion, at a node of the tree. -/
theorem subtreePut_node (hs : Stored s.heap (node c l r)) (fuel : Nat) :
    subtreePut args (fuel + 1) (root (node c l r)) s
      = if args.compar args.key c.key < 0 then
          subtreePut args fuel (root l) s >>= fun x =>
            x.2.heap.modify (some c.addr) (fun n => { n with left := x.1 }) >>= fun heap =>
              rebalance (some c.addr) { x.2 with heap := heap }
        else if args.compar args.key c.key = 0 then
          s.heap.modify (some c.addr)
            (fun n => { n with key := some args.key, value := args.value }) >>= fun heap =>
              .ok (some c.addr, putResult args s (some c) nil heap)
        else
          subtreePut args fuel (root r) s >>= fun x =>
            x.2.heap.modify (some c.addr) (fun n => { n with right := x.1 }) >>= fun heap =>
              rebalance (some c.addr) { x.2 with heap := heap } := by
  rw [root_node, subtreePut, if_neg hs.notEOT.2, Heap.load_some hs.held.1, Outcome.ok_bind, nodeOf_key,
    deref_some, Outcome.ok_bind]
  rfl

theorem subtreePut_lt {fuel : Nat} (hs : Stored s.heap (node c l r)) (hb : Balanced (node c l r))
    (hleaf : NewLeaf args s.heap leaf) (hcount : CountFits args leaf (node c l r))
    (hlt : args.compar args.key c.key < 0) (ih : PutOk args leaf fuel s l) :
    PutOk args leaf (fuel + 1) s (node c l r) := by
  have htree : treePut args leaf (node c l r) = splitted (skewed (node c (treePut args leaf l) r)) :=
    if_pos hlt
  have hfind : treeFind args.compar args.key (node c l r) = treeFind args.compar args.key l :=
    if_pos hlt
  rw [CountFits, if_pos hlt] at hcount
  obtain ⟨h₁, hrun, hs₁, hframe⟩ := ih
  obtain ⟨hc, hr, hnodup, hapart⟩ := hs.afterLeft hleaf hs₁ hframe
  have hlevel := level_le (hleaf.balanced hb) (htree ▸ numNodes_rebalanced_le.trans hcount)
  rw [htree] at hlevel
  obtain ⟨h₂, h', hmod, hback, hs', hframe'⟩ := comeBack_ok
    (f := fun n => { n with left := root (treePut args leaf l) })
    (putResult args s (treeFind args.compar args.key l) leaf h₁) hc rfl hs₁.held hr hnodup hapart
    hs₁.sentinel (balanced_pos hb) hcount hlevel
  rw [PutOk, subtreePut_node hs, if_pos hlt, hrun, Outcome.ok_bind, hfind, htree]
  dsimp only
  rw [heap_putResult, hmod, Outcome.ok_bind, hback, putResult_heap]
  refine ⟨h', rfl, hs', fun a ha hnew => ?_⟩
  rw [mem_addrs_node, not_or, not_or] at ha
  refine (hframe' a ?_).trans (hframe a ha.1 hnew)
  rw [mem_addrs_node, not_or, not_or]
  exact ⟨fun hmem => (mem_addrs_treePut hmem).elim ha.1 hnew, ha.2⟩

/-- The node of the key. -/
theorem subtreePut_eq (hs : Stored s.heap (node c l r)) (heq : args.compar args.key c.key = 0)
    (fuel : Nat) : PutOk args leaf (fuel + 1) s (node c l r) := by
  have hfind : treeFind args.compar args.key (node c l r) = some c := by
    rw [treeFind, if_neg heq.not_lt, if_pos heq]
  have haddrs : addrs (node { c with key := args.key, value := args.value } l r)
      = addrs (node c l r) := addrs_congr rfl
  obtain ⟨-, -, hcl, hcr, -⟩ := nodup_node.mp hs.nodup
  rw [PutOk, subtreePut_node hs, if_neg heq.not_lt, if_pos heq, Heap.modify_some _ hs.held.1, hfind,
    treePut_eq heq]
  refine ⟨_, rfl, ⟨⟨Function.update_self _ _ _, held_update hcl hs.held.2.1,
    held_update hcr hs.held.2.2⟩, ?_, ?_, ?_⟩, fun a ha _ => ?_⟩
  · rw [haddrs]
    exact hs.nodup
  · rw [haddrs]
    exact hs.apart
  · exact (Heap.update_of_ne _ hs.ne_sentinel.symm).trans hs.sentinel
  · exact Heap.update_of_ne _ fun heq => ha (mem_addrs_node.mpr (.inr (.inl heq)))

theorem subtreePut_gt {fuel : Nat} (hs : Stored s.heap (node c l r)) (hb : Balanced (node c l r))
    (hleaf : NewLeaf args s.heap leaf) (hcount : CountFits args leaf (node c l r))
    (hgt : 0 < args.compar args.key c.key) (ih : PutOk args leaf fuel s r) :
    PutOk args leaf (fuel + 1) s (node c l r) := by
  have htree : treePut args leaf (node c l r)
      = splitted (skewed (node c l (treePut args leaf r))) := by
    rw [treePut, if_neg (not_lt.mpr hgt.le), if_neg hgt.ne']
  have hfind : treeFind args.compar args.key (node c l r) = treeFind args.compar args.key r := by
    rw [treeFind, if_neg (not_lt.mpr hgt.le), if_neg hgt.ne']
  rw [CountFits, if_neg (not_lt.mpr hgt.le), if_neg hgt.ne'] at hcount
  obtain ⟨h₁, hrun, hs₁, hframe⟩ := ih
  obtain ⟨hc, hl, hnodup, hapart⟩ := hs.afterRight hleaf hs₁ hframe
  have hlevel := level_le (hleaf.balanced hb) (htree ▸ numNodes_rebalanced_le.trans hcount)
  rw [htree] at hlevel
  obtain ⟨h₂, h', hmod, hback, hs', hframe'⟩ := comeBack_ok
    (f := fun n => { n with right := root (treePut args leaf r) })
    (putResult args s (treeFind args.compar args.key r) leaf h₁) hc rfl hl hs₁.held hnodup hapart
    hs₁.sentinel (balanced_pos hb) hcount hlevel
  rw [PutOk, subtreePut_node hs, if_neg (not_lt.mpr hgt.le), if_neg hgt.ne', hrun, Outcome.ok_bind,
    hfind, htree]
  dsimp only
  rw [heap_putResult, hmod, Outcome.ok_bind, hback, putResult_heap]
  refine ⟨h', rfl, hs', fun a ha hnew => ?_⟩
  rw [mem_addrs_node, not_or, not_or] at ha
  refine (hframe' a ?_).trans (hframe a ha.2.2 hnew)
  rw [mem_addrs_node, not_or, not_or]
  exact ⟨ha.1, ha.2.1, fun hmem => (mem_addrs_treePut hmem).elim ha.2.2 hnew⟩

theorem subtreePut_ok {fuel : Nat} (hs : Stored s.heap t) (hb : Balanced t)
    (hleaf : NewLeaf args s.heap leaf) (hfuel : t.height < fuel)
    (hfits : (t.numNodes : Int) ≤ INT_MAX) (hcount : CountFits args leaf t) :
    PutOk args leaf fuel s t := by
  induction t generalizing fuel with
  | nil =>
      obtain ⟨fuel, rfl⟩ := Nat.exists_eq_succ_of_ne_zero (Nat.ne_of_gt (Nat.zero_lt_of_lt hfuel))
      exact subtreePut_nil hs hleaf fuel
  | node c l r ihl ihr =>
      obtain ⟨fuel, rfl, hl, hr⟩ := exists_fuel hfuel
      rw [numNodes] at hfits
      rcases lt_trichotomy (args.compar args.key c.key) 0 with hlt | heq | hgt
      · exact subtreePut_lt hs hb hleaf hcount hlt
          (ihl hs.left hb.left hl (by omega) (hleaf.countFits (by omega)))
      · exact subtreePut_eq hs heq fuel
      · exact subtreePut_gt hs hb hleaf hcount hgt
          (ihr hs.right hb.right hr (by omega) (hleaf.countFits (by omega)))

/-- The counter of the root overflows when the recursion has come back to it. -/
theorem subtreePut_overflow {fuel : Nat} (hs : Stored s.heap t) (hb : Balanced t)
    (hleaf : NewLeaf args s.heap leaf) (hfuel : t.height < fuel)
    (hfits : (t.numNodes : Int) ≤ INT_MAX) (hcount : ¬ CountFits args leaf t) :
    subtreePut args fuel (root t) s = .error .overflow := by
  cases t with
  | nil => exact absurd trivial hcount
  | node c l r =>
      obtain ⟨fuel, rfl, hfl, hfr⟩ := exists_fuel hfuel
      obtain ⟨-, -, hcl, hcr, -⟩ := nodup_node.mp hs.nodup
      have hne := hs.ne_sentinel
      rw [numNodes] at hfits
      rw [CountFits] at hcount
      rw [subtreePut_node hs]
      by_cases hlt : args.compar args.key c.key < 0
      · rw [if_pos hlt, not_le] at hcount
        obtain ⟨h₁, hrun, hs₁, hframe⟩ :=
          subtreePut_ok hs.left hb.left hleaf hfl (by omega) (hleaf.countFits (by omega))
        obtain ⟨hc, hr, hnodup, -⟩ := hs.afterLeft hleaf hs₁ hframe
        obtain ⟨-, -, hcl', -, -⟩ := nodup_node.mp hnodup
        rw [if_pos hlt, hrun, Outcome.ok_bind]
        dsimp only
        rw [heap_putResult, Heap.modify_some _ hc, Outcome.ok_bind, rebalance,
          nodeReconstructNnode_overflow ((Heap.update_of_ne _ hne.symm).trans hs₁.sentinel) hne
            (Function.update_self _ _ _) rfl rfl (held_update hcl' hs₁.held) (held_update hcr hr)
            hcount]
        rfl
      · rw [if_neg hlt] at hcount ⊢
        by_cases heq : args.compar args.key c.key = 0
        · rw [if_pos heq] at hcount
          exact absurd trivial hcount
        · rw [if_neg heq, not_le] at hcount
          obtain ⟨h₁, hrun, hs₁, hframe⟩ :=
            subtreePut_ok hs.right hb.right hleaf hfr (by omega) (hleaf.countFits (by omega))
          obtain ⟨hc, hl, hnodup, -⟩ := hs.afterRight hleaf hs₁ hframe
          obtain ⟨-, -, -, hcr', -⟩ := nodup_node.mp hnodup
          rw [if_neg heq, hrun, Outcome.ok_bind]
          dsimp only
          rw [heap_putResult, Heap.modify_some _ hc, Outcome.ok_bind, rebalance,
            nodeReconstructNnode_overflow ((Heap.update_of_ne _ hne.symm).trans hs₁.sentinel) hne
              (Function.update_self _ _ _) rfl rfl (held_update hcl hl) (held_update hcr' hs₁.held)
              hcount]
          rfl

/-! ## The search -/

/-- The value of the pair with the key, and its place counted from `skipped`. -/
def gotten (compar : K → K → Int) (key : K) (index : Option Int) (skipped : Int)
    (ps : List (K × Option V)) : Option V × Option Int :=
  ((find compar key ps).bind Prod.snd,
    if (find compar key ps).isSome then index.map fun _ => skipped + rank compar key ps else index)

theorem subtreeGet_ok {compar : K → K → Int} (hc : TotalOrder compar) (key : K)
    (index : Option Int) {fuel : Nat} {skipped : Int} (hs : Stored h t)
    (hsorted : Sorted compar (pairs t)) (hfuel : t.height < fuel) (hzero : 0 ≤ skipped)
    (hfits : skipped + t.numNodes ≤ INT_MAX) :
    subtreeGet compar key index h fuel (root t) skipped
      = .ok (gotten compar key index skipped (pairs t)) := by
  induction t generalizing fuel skipped with
  | nil =>
      obtain ⟨fuel, rfl⟩ := Nat.exists_eq_succ_of_ne_zero (Nat.ne_of_gt (Nat.zero_lt_of_lt hfuel))
      exact if_pos rfl
  | node c l r ihl ihr =>
      obtain ⟨fuel, rfl, hfl, hfr⟩ := exists_fuel hfuel
      obtain ⟨hl, hr, -, -⟩ := sorted_node hsorted
      have hmin : INT_MIN ≤ 0 := by decide
      rw [numNodes] at hfits
      rw [pairs_node] at hsorted ⊢
      rw [root_node, subtreeGet, if_neg hs.notEOT.2, Heap.load_some hs.held.1, Outcome.ok_bind,
        nodeOf_key, deref_some, Outcome.ok_bind]
      dsimp only
      rcases lt_trichotomy (compar key c.key) 0 with hlt | heq | hgt
      · obtain ⟨hfind, hrank⟩ := hsorted.below hc hlt
        rw [if_pos hlt, nodeOf_left, ihl hs.left hl hfl hzero (by omega), gotten, gotten, hfind, hrank]
      · obtain ⟨hfind, hrank⟩ := hsorted.at_key hc heq
        rw [if_neg heq.not_lt, nodeOf_left, load_root hs.sentinel hs.held.2.1, Outcome.ok_bind,
          topOf_nnode, checkInt_of ⟨by omega, by omega⟩, Outcome.ok_bind, if_pos heq, gotten, hfind,
          hrank, length_pairs]
        rfl
      · obtain ⟨hfind, hrank⟩ := hsorted.above hc hgt
        rw [if_neg hgt.not_gt, nodeOf_left, load_root hs.sentinel hs.held.2.1, Outcome.ok_bind,
          topOf_nnode, checkInt_of ⟨by omega, by omega⟩, Outcome.ok_bind, if_neg hgt.ne',
          checkInt_of ⟨by omega, by omega⟩, Outcome.ok_bind, nodeOf_right,
          ihr hs.right hr hfr (by omega) (by omega), gotten, gotten, hfind, hrank, length_pairs]
        have hsum : skipped + l.numNodes + 1 + (rank compar key (pairs r) : Int)
            = skipped + ((l.numNodes + 1 + rank compar key (pairs r) : Nat) : Int) := by
          push_cast
          ring
        rw [hsum]

end Lemmas

end DictTree

end Jccl
