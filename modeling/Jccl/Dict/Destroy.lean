/-
# `Jccl.Dict.Destroy` — what `dict_destroy` frees

`subtree_destroy` frees the nodes of the tree and no others.  What it leaves
behind is therefore what puts have lost: no function before it frees a node,
so all that were ever allocated are still live, whether they can be reached
or not.  Two counters that a caller can see say how many are left, the number
of puts that found no equal key and `dict_size`.
-/
import Jccl.Dict.Run

namespace Jccl

open BinaryTree AATree SortedMap DictTree

variable {K V : Type}

/-! ## The source -/

def nodeDestroy (node : Option Addr) (heap : Heap (DictNode K V)) :
    Outcome (Heap (DictNode K V)) := do
  assert (node ≠ none)
  if ¬ EOT node then heap.free node else return heap

def subtreeDestroy : Nat → Option Addr → Heap (DictNode K V) → Outcome (Heap (DictNode K V))
  | 0, _, _ => .error .timeout
  | fuel + 1, head, heap => do
      assert (head ≠ none)
      if EOT head then
        return heap
      else
        let node ← heap.load head
        let heap ← subtreeDestroy fuel node.left heap
        -- the node is read again, as the call was given the heap
        let node ← heap.load head
        let heap ← subtreeDestroy fuel node.right heap
        nodeDestroy head heap

def dictDestroy (s : DictState K V) : Outcome (DictState K V) := do
  let some dict := s.dict | return s
  let size ← subtreeSize dict.head s.heap
  let heap ← subtreeDestroy (size.toNat + 1) dict.head s.heap
  return { dict := none, heap := heap }

/-! ## The nodes of the tree -/

section Destroy

variable {h : Heap (DictNode K V)} {s : DictState K V} {t l r : DictTree K V} {c : DictCell K V}

theorem nodeDestroy_ok {a : Addr} {n : DictNode K V} (hne : a ≠ sentinelAddr) (hn : h a = some n) :
    nodeDestroy (some a) h = .ok (Function.update h a none) := by
  have hnull : some a ≠ none := nofun
  have heot : ¬ EOT (some a) := fun heot => hne (Option.some.inj heot)
  rw [nodeDestroy, assert_of hnull, Outcome.ok_bind, if_pos heot, Heap.free_some hn]

/-- The subtree on the left is gone; the root and the right one are as before. -/
theorem DictTree.Stored.without_left (hs : Stored h (node c l r)) :
    h.without (addrs l) c.addr = some (nodeOf c l r) ∧ Stored (h.without (addrs l)) r := by
  obtain ⟨-, -, hcl, -, hlr⟩ := nodup_node.mp hs.nodup
  refine ⟨(Heap.without_of_notMem hcl).trans hs.held.1, ?_, hs.right.nodup, hs.right.apart,
    (Heap.without_of_notMem hs.left.apart).trans hs.sentinel⟩
  exact held_congr (fun a ha => Heap.without_of_notMem fun hal => hlr a hal ha) hs.held.2.2

theorem without_node : Function.update ((h.without (addrs l)).without (addrs r)) c.addr none
    = h.without (addrs (node c l r)) := by
  funext a
  by_cases ha : a ∈ addrs (node c l r)
  · rw [Heap.without_of_mem ha]
    by_cases hac : a = c.addr
    · rw [hac, Function.update_self]
    · rw [Function.update_of_ne hac]
      by_cases har : a ∈ addrs r
      · exact Heap.without_of_mem har
      · have hal : a ∈ addrs l := ((mem_addrs_node.mp ha).resolve_right (not_or.mpr ⟨hac, har⟩))
        rw [Heap.without_of_notMem har, Heap.without_of_mem hal]
  · rw [Heap.without_of_notMem ha]
    rw [mem_addrs_node, not_or, not_or] at ha
    rw [Function.update_of_ne ha.2.1, Heap.without_of_notMem ha.2.2, Heap.without_of_notMem ha.1]

theorem subtreeDestroy_ok {fuel : Nat} (hs : Stored h t) (hfuel : t.height < fuel) :
    subtreeDestroy fuel (root t) h = .ok (h.without (addrs t)) := by
  induction t generalizing h fuel with
  | nil =>
      obtain ⟨fuel, rfl⟩ := Nat.exists_eq_succ_of_ne_zero (Nat.ne_of_gt (Nat.zero_lt_of_lt hfuel))
      rfl
  | node c l r ihl ihr =>
      obtain ⟨fuel, rfl, hfl, hfr⟩ := exists_fuel hfuel
      obtain ⟨-, -, -, hcr, -⟩ := nodup_node.mp hs.nodup
      obtain ⟨hc, hr⟩ := hs.without_left
      rw [root_node, subtreeDestroy, assert_of hs.notEOT.1, Outcome.ok_bind, if_neg hs.notEOT.2,
        Heap.load_some hs.held.1, Outcome.ok_bind, nodeOf_left, ihl hs.left hfl, Outcome.ok_bind,
        Heap.load_some hc, Outcome.ok_bind, nodeOf_right, ihr hr hfr, Outcome.ok_bind,
        nodeDestroy_ok hs.ne_sentinel ((Heap.without_of_notMem hcr).trans hc), without_node]

/-- The dict is freed with the nodes of its tree. -/
theorem dictDestroy_ok {compar : K → K → Int} (h : DictStands compar s t) :
    dictDestroy s = .ok { dict := none, heap := s.heap.without (addrs t) } := by
  simp only [dictDestroy, h.dict, subtreeSize_ok h.stored, Outcome.ok_bind, Int.toNat_natCast,
    subtreeDestroy_ok h.stored (Nat.lt_succ_of_le (height_le_numNodes t))]
  rfl

end Destroy

/-! ## What is live after a put -/

section Live

variable {h h' : Heap (DictNode K V)} {head p : Option Addr}

theorem sameLive_nodeReconstructNnode (hrun : nodeReconstructNnode head h = .ok h') :
    Heap.SameLive h h' := by
  obtain ⟨_, -, hrun⟩ := Outcome.bind_eq_ok.mp hrun
  obtain ⟨_, -, hrun⟩ := Outcome.bind_eq_ok.mp hrun
  obtain ⟨_, -, hrun⟩ := Outcome.bind_eq_ok.mp hrun
  obtain ⟨_, -, hrun⟩ := Outcome.bind_eq_ok.mp hrun
  obtain ⟨_, -, hrun⟩ := Outcome.bind_eq_ok.mp hrun
  obtain ⟨_, -, hrun⟩ := Outcome.bind_eq_ok.mp hrun
  exact Heap.sameLive_of_modify hrun

theorem sameLive_subtreeRotateRight (hrun : subtreeRotateRight head h = .ok (p, h')) :
    Heap.SameLive h h' := by
  obtain ⟨_, -, hrun⟩ := Outcome.bind_eq_ok.mp hrun
  obtain ⟨_, -, hrun⟩ := Outcome.bind_eq_ok.mp hrun
  obtain ⟨_, -, hrun⟩ := Outcome.bind_eq_ok.mp hrun
  obtain ⟨_, -, hrun⟩ := Outcome.bind_eq_ok.mp hrun
  obtain ⟨h₁, hhead, hrun⟩ := Outcome.bind_eq_ok.mp hrun
  obtain ⟨h₂, hleft, hrun⟩ := Outcome.bind_eq_ok.mp hrun
  obtain ⟨h₃, hlow, hrun⟩ := Outcome.bind_eq_ok.mp hrun
  obtain ⟨h₄, hup, hrun⟩ := Outcome.bind_eq_ok.mp hrun
  cases hrun
  exact (Heap.sameLive_of_modify hhead).trans <| (Heap.sameLive_of_modify hleft).trans <|
    (sameLive_nodeReconstructNnode hlow).trans (sameLive_nodeReconstructNnode hup)

theorem sameLive_subtreeRotateLeft (hrun : subtreeRotateLeft head h = .ok (p, h')) :
    Heap.SameLive h h' := by
  obtain ⟨_, -, hrun⟩ := Outcome.bind_eq_ok.mp hrun
  obtain ⟨_, -, hrun⟩ := Outcome.bind_eq_ok.mp hrun
  obtain ⟨_, -, hrun⟩ := Outcome.bind_eq_ok.mp hrun
  obtain ⟨_, -, hrun⟩ := Outcome.bind_eq_ok.mp hrun
  obtain ⟨h₁, hhead, hrun⟩ := Outcome.bind_eq_ok.mp hrun
  obtain ⟨h₂, hright, hrun⟩ := Outcome.bind_eq_ok.mp hrun
  obtain ⟨h₃, hlow, hrun⟩ := Outcome.bind_eq_ok.mp hrun
  obtain ⟨h₄, hup, hrun⟩ := Outcome.bind_eq_ok.mp hrun
  cases hrun
  exact (Heap.sameLive_of_modify hhead).trans <| (Heap.sameLive_of_modify hright).trans <|
    (sameLive_nodeReconstructNnode hlow).trans (sameLive_nodeReconstructNnode hup)

theorem sameLive_skew (hrun : skew head h = .ok (p, h')) : Heap.SameLive h h' := by
  obtain ⟨_, -, hrun⟩ := Outcome.bind_eq_ok.mp hrun
  obtain ⟨_, -, hrun⟩ := Outcome.bind_eq_ok.mp hrun
  obtain ⟨_, -, hrun⟩ := Outcome.bind_eq_ok.mp hrun
  split at hrun
  · obtain ⟨x, hrotate, hrun⟩ := Outcome.bind_eq_ok.mp hrun
    cases hrun
    exact sameLive_subtreeRotateRight hrotate
  · cases hrun
    exact .refl h

theorem sameLive_split (hrun : split head h = .ok (p, h')) : Heap.SameLive h h' := by
  obtain ⟨_, -, hrun⟩ := Outcome.bind_eq_ok.mp hrun
  obtain ⟨_, -, hrun⟩ := Outcome.bind_eq_ok.mp hrun
  obtain ⟨_, -, hrun⟩ := Outcome.bind_eq_ok.mp hrun
  obtain ⟨_, -, hrun⟩ := Outcome.bind_eq_ok.mp hrun
  split at hrun
  · obtain ⟨x, hrotate, hrun⟩ := Outcome.bind_eq_ok.mp hrun
    obtain ⟨_, -, hrun⟩ := Outcome.bind_eq_ok.mp hrun
    obtain ⟨_, -, hrun⟩ := Outcome.bind_eq_ok.mp hrun
    obtain ⟨h₂, hraise, hrun⟩ := Outcome.bind_eq_ok.mp hrun
    cases hrun
    exact (sameLive_subtreeRotateLeft hrotate).trans (Heap.sameLive_of_modify hraise)
  · cases hrun
    exact .refl h

theorem sameLive_rebalance {s s' : PutState K V} (hrun : rebalance head s = .ok (p, s')) :
    Heap.SameLive s.heap s'.heap := by
  obtain ⟨h₁, hcount, hrun⟩ := Outcome.bind_eq_ok.mp hrun
  obtain ⟨x, hskew, hrun⟩ := Outcome.bind_eq_ok.mp hrun
  obtain ⟨y, hsplit, hrun⟩ := Outcome.bind_eq_ok.mp hrun
  cases hrun
  exact (sameLive_nodeReconstructNnode hcount).trans <|
    (sameLive_skew hskew).trans (sameLive_split hsplit)

/-- A node is live after the recursion if it was before, or is the new one. -/
def NewLive (args : PutArgs K V) (t : DictTree K V) (h h' : Heap (DictNode K V)) : Prop :=
  ∀ a, h' a ≠ none ↔
    h a ≠ none ∨ treeFind args.compar args.key t = none ∧ args.answer = some a

theorem NewLive.trans {args : PutArgs K V} {t : DictTree K V} {h h₁ h₂ : Heap (DictNode K V)}
    (hlive : NewLive args t h h₁) (hsame : Heap.SameLive h₁ h₂) : NewLive args t h h₂ := by
  intro a
  exact (hsame a).trans (hlive a)

theorem live_subtreePut {args : PutArgs K V} {s : PutState K V} {t : DictTree K V} {fuel : Nat}
    {x : Option Addr × PutState K V} (hs : Stored s.heap t)
    (hrun : subtreePut args fuel (root t) s = .ok x) : NewLive args t s.heap x.2.heap := by
  induction t generalizing fuel x with
  | nil =>
      cases fuel with
      | zero => cases hrun
      | succ fuel =>
          have heot : EOT endOfTree := rfl
          have hlive : NewLive args nil s.heap (nodeInit args.key args.value args.answer s.heap).2 :=
            fun a => (Heap.live_malloc _ _ _ a).trans
              (or_congr_right ⟨fun hans => ⟨rfl, hans⟩, And.right⟩)
          rw [root_nil, subtreePut, if_pos heot] at hrun
          cases hinit : nodeInit args.key args.value args.answer s.heap with
          | mk new heap =>
              rw [hinit] at hrun hlive
              cases new with
              | none =>
                  cases hrun
                  exact Heap.eq_of_malloc_none hinit ▸ hlive
              | some new =>
                  cases hrun
                  exact hlive
  | node c l r ihl ihr =>
      cases fuel with
      | zero => cases hrun
      | succ fuel =>
          rw [subtreePut_node hs] at hrun
          rcases lt_trichotomy (args.compar args.key c.key) 0 with hlt | heq | hgt
          · rw [if_pos hlt] at hrun
            obtain ⟨y, hput, hrun⟩ := Outcome.bind_eq_ok.mp hrun
            obtain ⟨heap, hmod, hrun⟩ := Outcome.bind_eq_ok.mp hrun
            rw [NewLive, treeFind, if_pos hlt]
            exact ((ihl hs.left hput).trans (Heap.sameLive_of_modify hmod)).trans
              (sameLive_rebalance hrun)
          · rw [if_neg heq.not_lt, if_pos heq] at hrun
            obtain ⟨heap, hmod, hrun⟩ := Outcome.bind_eq_ok.mp hrun
            cases hrun
            intro a
            rw [heap_putResult, treeFind, if_neg heq.not_lt, if_pos heq, Heap.sameLive_of_modify hmod a]
            refine ⟨.inl, fun hlive => hlive.elim id fun hnew => ?_⟩
            cases hnew.1
          · rw [if_neg (not_lt.mpr hgt.le), if_neg hgt.ne'] at hrun
            obtain ⟨y, hput, hrun⟩ := Outcome.bind_eq_ok.mp hrun
            obtain ⟨heap, hmod, hrun⟩ := Outcome.bind_eq_ok.mp hrun
            rw [NewLive, treeFind, if_neg (not_lt.mpr hgt.le), if_neg hgt.ne']
            exact ((ihr hs.right hput).trans (Heap.sameLive_of_modify hmod)).trans
              (sameLive_rebalance hrun)

theorem live_dictPut {args : PutArgs K V} {s s' : DictState K V} {t : DictTree K V}
    {nkey nkey' : Option (Option K)} {nvalue nvalue' : Option (Option V)} {status : Int}
    (h : DictStands args.compar s t)
    (hrun : dictPut (some args.key) args.value nkey nvalue args.answer args.errno s
      = .ok (status, nkey', nvalue', s')) : NewLive args t s.heap s'.heap := by
  rw [dictPut_eq h] at hrun
  obtain ⟨x, hput, hrun⟩ := Outcome.bind_eq_ok.mp hrun
  have hlive := live_subtreePut h.stored hput
  split at hrun
  · cases hrun
    exact hlive
  · cases hrun
    exact hlive

end Live

/-! ## Whole runs -/

/-- A run of calls of `dict_put` has come to the state: of the successful ones
`count` found no equal key, and `kept` says that none of them lost a node. -/
inductive CountedRun (compar : K → K → Int) : Nat → Bool → DictState K V → Prop
  | init : CountedRun compar 0 true (emptyDict compar)
  | put {count kept s t key value nkey nvalue answer errno nkey' nvalue' s'} :
      CountedRun compar count kept s → DictHolds compar s t →
      dictPut (some key) value nkey nvalue answer errno s = .ok (0, nkey', nvalue', s') →
      CountedRun compar (if (find compar key (pairs t)).isSome then count else count + 1)
        (kept && !loses compar key t) s'
  | failed {count kept s key value nkey nvalue answer errno status nkey' nvalue' s'} :
      CountedRun compar count kept s → status ≠ 0 →
      dictPut key value nkey nvalue answer errno s = .ok (status, nkey', nvalue', s') →
      CountedRun compar count kept s'

/-- The live nodes beside the sentinel. -/
def LiveNodes (h : Heap (DictNode K V)) (nodes : Finset Addr) : Prop :=
  sentinelAddr ∉ nodes ∧ ∀ a, h a ≠ none ↔ a = sentinelAddr ∨ a ∈ nodes

/-- What the counters of a run say about a tree: as many nodes are live as
were counted, and they are all in the tree just if none was lost. -/
structure Tally (count : Nat) (kept : Bool) (h : Heap (DictNode K V)) (t : DictTree K V) :
    Prop where
  live : ∃ nodes, LiveNodes h nodes ∧ nodes.card = count
  size_le : t.numNodes ≤ count
  size_eq : t.numNodes = count ↔ kept = true

section Tally

variable {args : PutArgs K V} {s s' : DictState K V} {t : DictTree K V} {count : Nat} {kept : Bool}
variable {nkey nkey' : Option (Option K)} {nvalue nvalue' : Option (Option V)} {status : Int}

theorem counted_emptyDict (compar : K → K → Int) :
    Tally 0 true (emptyDict (V := V) compar).heap nil where
  live := by
    refine ⟨∅, ⟨Finset.notMem_empty _, fun a => ?_⟩, rfl⟩
    by_cases ha : a = sentinelAddr
    · rw [ha]
      exact ⟨fun _ => .inl rfl, fun _ => nofun⟩
    · have hnone : (emptyDict (V := V) compar).heap a = none := Heap.update_of_ne _ ha
      exact ⟨fun hlive => absurd hnone hlive, fun hmem => absurd hmem
        (not_or.mpr ⟨ha, Finset.notMem_empty a⟩)⟩
  size_le := le_rfl
  size_eq := ⟨fun _ => rfl, fun _ => rfl⟩

theorem LiveNodes.congr {h h' : Heap (DictNode K V)} {nodes : Finset Addr}
    (hnodes : LiveNodes h nodes) (hsame : Heap.SameLive h h') : LiveNodes h' nodes :=
  ⟨hnodes.1, fun a => (hsame a).trans (hnodes.2 a)⟩

theorem LiveNodes.insert {h h' : Heap (DictNode K V)} {nodes : Finset Addr} {a : Addr}
    (hnodes : LiveNodes h nodes) (ha : h a = none)
    (hlive : ∀ b, h' b ≠ none ↔ h b ≠ none ∨ a = b) :
    a ∉ nodes ∧ LiveNodes h' (insert a nodes) := by
  have hdead : ¬ (a = sentinelAddr ∨ a ∈ nodes) := fun hmem => (hnodes.2 a).mpr hmem ha
  rw [not_or] at hdead
  refine ⟨hdead.2, ?_, fun b => ?_⟩
  · rw [Finset.mem_insert, not_or]
    exact ⟨Ne.symm hdead.1, hnodes.1⟩
  · rw [hlive b, hnodes.2 b, Finset.mem_insert, or_assoc, or_comm (a := b = a), eq_comm (a := a)]

/-- The sentinel alone is live. -/
theorem LiveNodes.card_eq_zero {h : Heap (DictNode K V)} {nodes : Finset Addr}
    (compar : K → K → Int) (hnodes : LiveNodes h nodes) (hsent : h sentinelAddr = some sentinel) :
    nodes.card = 0 ↔ h = (emptyDict compar).heap := by
  rw [Finset.card_eq_zero]
  constructor
  · intro hempty
    funext a
    by_cases ha : a = sentinelAddr
    · rw [ha, hsent]
      rfl
    · have hdead : h a = none := by
        by_contra hlive
        exact Finset.notMem_empty a (hempty ▸ ((hnodes.2 a).mp hlive).resolve_left ha)
      exact hdead.trans (Heap.update_of_ne (h := Heap.empty) _ ha).symm
  · intro hheap
    refine Finset.eq_empty_of_forall_notMem ?_
    intro a ha
    refine (hnodes.2 a).mpr (.inr ha) ?_
    rw [hheap]
    exact Heap.update_of_ne (h := Heap.empty) _ (ne_of_mem_of_not_mem ha hnodes.1)

/-- What is left when the nodes of a tree are freed. -/
theorem LiveNodes.without {h : Heap (DictNode K V)} {nodes : Finset Addr} (hs : Stored h t)
    (hnodes : LiveNodes h nodes) :
    ∃ left, LiveNodes (h.without (addrs t)) left ∧ left.card = nodes.card - t.numNodes := by
  have hsub : (addrs t).toFinset ⊆ nodes := by
    intro a ha
    have ha : a ∈ addrs t := List.mem_toFinset.mp ha
    exact ((hnodes.2 a).mp (held_live hs.held ha)).resolve_left (ne_of_mem_of_not_mem ha hs.apart)
  refine ⟨nodes \ (addrs t).toFinset, ⟨fun hmem => hnodes.1 (Finset.mem_sdiff.mp hmem).1, ?_⟩, ?_⟩
  · intro a
    rw [Finset.mem_sdiff, List.mem_toFinset]
    by_cases ha : a ∈ addrs t
    · rw [Heap.without_of_mem ha]
      refine ⟨fun hlive => absurd rfl hlive, fun hmem => hmem.elim (fun heq => ?_) fun hleft => ?_⟩
      · exact absurd (heq ▸ ha) hs.apart
      · exact absurd ha hleft.2
    · rw [Heap.without_of_notMem ha, hnodes.2 a]
      exact or_congr_right ⟨fun hmem => ⟨hmem, ha⟩, And.left⟩
  · rw [Finset.card_sdiff_of_subset hsub, List.toFinset_card_of_nodup hs.nodup, addrs, List.length_map,
      length_inorder]

/-- All that should be in the tree is there just if nothing was lost. -/
theorem DictTree.AllUnless.length_eq_iff {lost : Bool} {xs ys : List (K × V)} (h : AllUnless lost xs ys) :
    xs.length ≤ ys.length ∧ (xs.length = ys.length ↔ lost = false) := by
  refine ⟨h.sublist.length_le, fun heq => ?_, fun hkept => congrArg List.length (h.kept hkept)⟩
  cases lost with
  | false => rfl
  | true => exact absurd heq (h.fewer rfl).ne

/-- A successful put counts the node it allocates, and whether it loses one. -/
theorem counted_dictPut (hc : TotalOrder args.compar) (h : DictHolds args.compar s t)
    (hcounted : Tally count kept s.heap t)
    (hrun : dictPut (some args.key) args.value nkey nvalue args.answer args.errno s
      = .ok (0, nkey', nvalue', s')) :
    ∃ t', DictHolds args.compar s' t' ∧
      Tally (if (find args.compar args.key (pairs t)).isSome then count else count + 1)
        (kept && !loses args.compar args.key t) s'.heap t' := by
  obtain ⟨leaf, hleaf⟩ := exists_newLeaf args s.heap
  obtain ⟨h', hgot⟩ := dictPut_inv hc h hleaf hrun
  obtain ⟨new, hlevel, hpair, htree⟩ := exists_treePut hc h (hgot rfl) hleaf
  obtain ⟨hle', heq'⟩ := (pairs_treePut hc hlevel hpair h.balanced h.sorted).length_eq_iff
  rw [← htree, length_put hc h.sorted, length_pairs, length_pairs] at hle' heq'
  have hlive := live_dictPut h.stands hrun
  have hfind := @treeFind_eq _ _ _ _ args.key hc h.sorted
  obtain ⟨⟨nodes, hnodes, hcard⟩, hle, heq⟩ := hcounted
  refine ⟨treePut args leaf t, h', ?_, ?_, ?_⟩
  · cases hfound : find args.compar args.key (pairs t) with
    | some p =>
        rw [hfound] at hfind
        have hno : treeFind args.compar args.key t ≠ none := fun hnone => by
          rw [hnone] at hfind
          cases hfind
        refine ⟨nodes, hnodes.congr fun a => ?_, hcard⟩
        rw [hlive a]
        exact ⟨fun hor => hor.resolve_right fun hnew => hno hnew.1, .inl⟩
    | none =>
        rw [hfound] at hfind
        have hne : leaf ≠ nil := (hgot rfl).resolve_left (by rw [hfound]; exact nofun)
        cases hleaf with
        | refused _ => exact absurd rfl hne
        | @granted a hans hfree =>
            have hnone : treeFind args.compar args.key t = none := Option.map_eq_none_iff.mp hfind
            have hlive' : ∀ b, s'.heap b ≠ none ↔ s.heap b ≠ none ∨ a = b := by
              intro b
              rw [hlive b, hans, Option.some.injEq]
              exact or_congr_right ⟨And.right, fun heq => ⟨hnone, heq⟩⟩
            obtain ⟨hnew, hnodes'⟩ := hnodes.insert hfree hlive'
            exact ⟨_, hnodes', (Finset.card_insert_of_notMem hnew).trans (congrArg (· + 1) hcard)⟩
  · refine hle'.trans ?_
    split
    · exact hle
    · exact Nat.succ_le_succ hle
  · rw [Bool.and_eq_true, Bool.not_eq_true', ← heq, ← heq']
    generalize (find args.compar args.key (pairs t)).isSome = found at hle' ⊢
    cases found with
    | false =>
        rw [if_neg Bool.false_ne_true] at hle' ⊢
        rw [if_neg Bool.false_ne_true]
        omega
    | true =>
        rw [if_pos rfl] at hle' ⊢
        rw [if_pos rfl]
        omega

/-- A call that fails changes nothing. -/
theorem dictPut_failed {compar : K → K → Int} (hc : TotalOrder compar) (h : DictHolds compar s t)
    {key : Option K} {value : Option V} {answer : Option Addr} {errno : Int} (hne : status ≠ 0)
    (hrun : dictPut key value nkey nvalue answer errno s = .ok (status, nkey', nvalue', s')) :
    s' = s := by
  cases key with
  | none =>
      rw [dictPut_nokey h.stands] at hrun
      cases hrun
      rfl
  | some key =>
      let args : PutArgs K V :=
        { compar := compar, key := key, value := value, answer := answer, errno := errno }
      obtain ⟨leaf, hleaf⟩ := exists_newLeaf args s.heap
      by_cases hcount : CountFits args leaf t
      · obtain ⟨_, _, _, _, hput, -, hcase⟩ :=
          @dictPut_ok _ _ args _ _ _ hc h hleaf hcount nkey nvalue
        cases hrun.symm.trans hput
        rcases hcase with ⟨-, hzero, -⟩ | ⟨⟨hnone, hnil⟩, -⟩
        · exact absurd hzero hne
        · have hg : s.heap.grants args.answer = false := by
            cases hleaf with
            | refused hg => exact hg
            | granted _ _ => cases hnil
          have hfound := (@treeFind_eq_none _ _ args _ _ hc h).mpr hnone
          cases hrun.symm.trans (dictPut_refused args h.stands hfound hg nkey nvalue)
          rfl
      · cases hrun.symm.trans (@dictPut_overflow _ _ args _ _ _ h.stands hleaf hcount nkey nvalue)

end Tally

section Run

variable {compar : K → K → Int} {s : DictState K V} {count : Nat} {kept : Bool}

theorem counted_of_run (hc : TotalOrder compar) (hrun : CountedRun compar count kept s) :
    ∃ t, DictHolds compar s t ∧ Tally count kept s.heap t := by
  induction hrun with
  | init => exact ⟨nil, holds_emptyDict compar, counted_emptyDict compar⟩
  | @put count kept s t key value _ _ answer errno _ _ s' _ ht hput ih =>
      obtain ⟨t₀, ht₀, hcounted⟩ := ih
      cases ht.unique ht₀
      let args : PutArgs K V :=
        { compar := compar, key := key, value := value, answer := answer, errno := errno }
      exact @counted_dictPut _ _ args _ _ _ _ _ _ _ _ _ hc ht hcounted hput
  | failed _ hne hput ih =>
      obtain ⟨t, ht, hcounted⟩ := ih
      cases dictPut_failed hc ht hne hput
      exact ⟨t, ht, hcounted⟩

/-- Every run can be counted. -/
theorem exists_countedRun (hc : TotalOrder compar) {puts : List (K × Option V)}
    (hrun : DictRun compar puts s) : ∃ count kept, CountedRun compar count kept s := by
  induction hrun with
  | init => exact ⟨0, true, .init⟩
  | put hrun hput ih =>
      obtain ⟨count, kept, hcounted⟩ := ih
      obtain ⟨t, ht⟩ := holds_of_dictRun hc hrun
      exact ⟨_, _, .put hcounted ht hput⟩
  | failed _ hne hput ih =>
      obtain ⟨count, kept, hcounted⟩ := ih
      exact ⟨count, kept, .failed hcounted hne hput⟩

/-- `dict_destroy` succeeds after every run and frees the nodes of the tree.
How many it leaves live is the difference of two numbers that the caller has:
that of the successful puts that found no equal key, and `dict_size`.  It is
nothing, and the memory is as it was before `dict_init`, just if no put lost a
node. -/
theorem dictDestroy_leaves (hc : TotalOrder compar) :
    (∀ (puts : List (K × Option V)) s, DictRun compar puts s →
      ∃ count kept, CountedRun compar count kept s) ∧
    ∀ count kept (s : DictState K V), CountedRun compar count kept s →
      ∃ (t : DictTree K V) (n : Nat) (s' : DictState K V) (left : Finset Addr),
        DictHolds compar s t ∧ dictSize s = .ok (n : Int) ∧ n ≤ count ∧ (n = count ↔ kept = true) ∧
        dictDestroy s = .ok s' ∧ s'.dict = none ∧ s'.heap = s.heap.without (addrs t) ∧
        LiveNodes s'.heap left ∧ left.card = count - n ∧
        (s'.heap = (emptyDict compar).heap ↔ kept = true) := by
  refine ⟨fun _ _ hrun => exists_countedRun hc hrun, ?_⟩
  intro count kept s hrun
  obtain ⟨t, ht, ⟨nodes, hnodes, hcard⟩, hle, heq⟩ := counted_of_run hc hrun
  obtain ⟨left, hleft, hcard'⟩ := hnodes.without ht.stored
  rw [hcard] at hcard'
  refine ⟨t, t.numNodes, _, left, ht, dictSize_ok ht.stands, hle, heq, dictDestroy_ok ht.stands,
    rfl, rfl, hleft, hcard', ?_⟩
  have hsent : s.heap.without (addrs t) sentinelAddr = some sentinel :=
    (Heap.without_of_notMem ht.stored.apart).trans ht.stored.sentinel
  rw [← heq, ← hleft.card_eq_zero compar hsent]
  omega

end Run

/-- Of two puts the second loses its own node: `dict_destroy` frees the one of
the first, and leaves the other. -/
theorem dictDestroy_leaves_one : ∃ (s s' : DictState Nat Nat) (left : Finset Addr),
    CountedRun compareNat 2 false s ∧ dictSize s = .ok 1 ∧ dictDestroy s = .ok s' ∧
    LiveNodes s'.heap left ∧ left.card = 1 := by
  let s₁ : DictState Nat Nat :=
    { dict := some { head := some 1, compar := compareNat }
      heap := Function.update (emptyDict compareNat).heap 1
        (some { left := endOfTree, right := endOfTree, key := some 2, value := some 20, nnode := 1,
                level := 1 }) }
  have hfirst : CountedRun compareNat 1 true s₁ := CountedRun.put .init (holds_emptyDict compareNat)
    (rfl : dictPut (some 2) (some 20) none none (some 1) 0 (emptyDict compareNat) = .ok _)
  have hone : DictHolds compareNat s₁ (node { addr := 1, level := 1, key := 2, value := some 20 } nil nil) :=
    { dict := rfl
      stored := ⟨⟨rfl, trivial, trivial⟩, List.nodup_singleton 1, by decide, rfl⟩
      balanced := ⟨rfl, by decide, by decide, by decide, trivial, trivial⟩
      sorted := List.pairwise_singleton _ _
      fits := by decide }
  have hsecond : CountedRun compareNat 2 false _ := CountedRun.put hfirst hone
    (rfl : dictPut (some 1) (some 10) none none (some 2) 0 s₁ = .ok _)
  obtain ⟨-, n, s', left, -, hsize, -, -, hrun, -, -, hleft, hcard, -⟩ :=
    (dictDestroy_leaves totalOrder_compareNat).2 _ _ _ hsecond
  have hn : (n : Int) = 1 := Except.ok.inj hsize.symm
  refine ⟨_, s', left, hsecond, rfl, hrun, hleft, ?_⟩
  omega

end Jccl
