/-
# `Jccl.Dict.Run` — whole runs of calls on a dict

A dict holds a tree that is stored, obeys the rules of an AA tree and is
sorted, through every sequence of puts, whatever the allocator answers.  What
the tree holds is another matter: a put does what it does to a sorted
association list just if it loses no node (`Keeps`), and only a run of such
puts finds again all that was put.
-/
import Jccl.Dict.Put

namespace Jccl

open BinaryTree AATree SortedMap DictTree

variable {K V : Type}

/-- The dict is the tree. -/
structure DictHolds (compar : K → K → Int) (s : DictState K V) (t : DictTree K V) : Prop where
  dict : s.dict = some { head := root t, compar := compar }
  stored : Stored s.heap t
  balanced : Balanced t
  sorted : Sorted compar (pairs t)
  fits : (t.numNodes : Int) ≤ INT_MAX

/-- The dict is the tree, which is not in order if the comparator is none. -/
structure DictStands (compar : K → K → Int) (s : DictState K V) (t : DictTree K V) : Prop where
  dict : s.dict = some { head := root t, compar := compar }
  stored : Stored s.heap t
  balanced : Balanced t
  fits : (t.numNodes : Int) ≤ INT_MAX

theorem DictHolds.stands {compar : K → K → Int} {s : DictState K V} {t : DictTree K V}
    (h : DictHolds compar s t) : DictStands compar s t :=
  ⟨h.dict, h.stored, h.balanced, h.fits⟩

/-- The dict of `dict_init`, with the sentinel alone in the heap. -/
def emptyDict (compar : K → K → Int) : DictState K V where
  dict := dictInit (some compar) true
  heap := Function.update Heap.empty sentinelAddr (some sentinel)

/-- A run of calls of `dict_put` has come to the state; the list is what was
put by those that were successful. -/
inductive DictRun (compar : K → K → Int) : List (K × Option V) → DictState K V → Prop
  | init : DictRun compar [] (emptyDict compar)
  | put {puts s key value nkey nvalue answer errno nkey' nvalue' s'} : DictRun compar puts s →
      dictPut (some key) value nkey nvalue answer errno s = .ok (0, nkey', nvalue', s') →
      DictRun compar (puts ++ [(key, value)]) s'
  | failed {puts s key value nkey nvalue answer errno status nkey' nvalue' s'} :
      DictRun compar puts s → status ≠ 0 →
      dictPut key value nkey nvalue answer errno s = .ok (status, nkey', nvalue', s') →
      DictRun compar puts s'

/-! ## One call -/

section Call

variable {args : PutArgs K V} {s : DictState K V} {t leaf : DictTree K V}

theorem subtreeSize_ok {h : Heap (DictNode K V)} (hs : Stored h t) :
    subtreeSize (root t) h = .ok (t.numNodes : Int) := by
  have hne : root t ≠ none := by cases t <;> exact nofun
  rw [subtreeSize, assert_of hne, Outcome.ok_bind, load_root hs.sentinel hs.held, Outcome.ok_bind,
    topOf_nnode]
  rfl

theorem dictSize_ok {compar : K → K → Int} (h : DictStands compar s t) :
    dictSize s = .ok (t.numNodes : Int) := by
  rw [dictSize, h.dict]
  exact subtreeSize_ok h.stored

theorem pair_find (hc : TotalOrder args.compar) (h : DictHolds args.compar s t) :
    (treeFind args.compar args.key t).map DictCell.key
        = (find args.compar args.key (pairs t)).map Prod.fst ∧
      (treeFind args.compar args.key t).bind DictCell.value
        = (find args.compar args.key (pairs t)).bind Prod.snd := by
  rw [← treeFind_eq hc h.sorted]
  cases treeFind args.compar args.key t <;> exact ⟨rfl, rfl⟩

theorem treeFind_eq_none (hc : TotalOrder args.compar) (h : DictHolds args.compar s t) :
    treeFind args.compar args.key t = none ↔ find args.compar args.key (pairs t) = none := by
  rw [← treeFind_eq hc h.sorted, Option.map_eq_none_iff]

/-- The tree after a put is sorted again. -/
theorem sorted_treePut (hc : TotalOrder args.compar) (hleaf : NewLeaf args s.heap leaf)
    (h : DictHolds args.compar s t) : Sorted args.compar (pairs (treePut args leaf t)) := by
  have hsome : ∀ a : Addr, Sorted args.compar (pairs (treePut args
      (node { addr := a, level := 1, key := args.key, value := args.value } nil nil) t)) := fun a =>
    (sorted_put hc h.sorted).sublist (pairs_treePut hc rfl rfl h.balanced h.sorted).sublist
  cases hleaf with
  | granted _ _ => exact hsome _
  | refused _ =>
      cases hfound : treeFind args.compar args.key t with
      | none =>
          rw [(treePut_nil h.balanced).2.2.2 hfound]
          exact h.sorted
      | some c =>
          rw [treePut_of_found _ (by rw [hfound]; rfl)]
          exact hsome 0

/-- The call, with the size that bounds the recursion. -/
theorem dictPut_eq (h : DictStands args.compar s t) (nkey : Option (Option K))
    (nvalue : Option (Option V)) :
    dictPut (some args.key) args.value nkey nvalue args.answer args.errno s
      = (subtreePut args (t.numNodes + 1) (root t)
          { heap := s.heap, nkey := nkey, nvalue := nvalue, status := 0 } >>= fun x =>
        if x.2.status ≠ 0 then
          .ok (x.2.status, x.2.nkey, x.2.nvalue, { s with heap := x.2.heap })
        else .ok (0, x.2.nkey, x.2.nvalue,
          { dict := some { head := x.1, compar := args.compar }, heap := x.2.heap })) := by
  simp only [dictPut, h.dict, subtreeSize_ok h.stored, Outcome.ok_bind, Int.toNat_natCast]
  rfl

/-- The call that can count the nodes: the tree is that of `treePut`, unless
the call fails, and then it is the same. -/
theorem dictPut_run (h : DictStands args.compar s t) (hleaf : NewLeaf args s.heap leaf)
    (hcount : CountFits args leaf t) (nkey : Option (Option K)) (nvalue : Option (Option V)) :
    ∃ h' x, Stored h' (treePut args leaf t) ∧
      (∀ a, a ∉ addrs t → a ∉ addrs leaf → h' a = s.heap a) ∧
      x = putResult args { heap := s.heap, nkey := nkey, nvalue := nvalue, status := 0 }
        (treeFind args.compar args.key t) leaf h' ∧
      dictPut (some args.key) args.value nkey nvalue args.answer args.errno s
        = if x.status ≠ 0 then .ok (x.status, x.nkey, x.nvalue, { s with heap := h' })
          else .ok (0, x.nkey, x.nvalue,
            { dict := some { head := root (treePut args leaf t), compar := args.compar },
              heap := h' }) := by
  obtain ⟨h', hrun, hs', hframe⟩ := subtreePut_ok
    (s := { heap := s.heap, nkey := nkey, nvalue := nvalue, status := 0 }) h.stored h.balanced
    hleaf (Nat.lt_succ_of_le (height_le_numNodes t)) h.fits hcount
  refine ⟨h', _, hs', hframe, rfl, ?_⟩
  rw [dictPut_eq h, hrun, Outcome.ok_bind]
  dsimp only
  rw [heap_putResult]

/-- Without a key nothing is done. -/
theorem dictPut_nokey {compar : K → K → Int} (h : DictStands compar s t) (value : Option V)
    (nkey : Option (Option K)) (nvalue : Option (Option V)) (answer : Option Addr) (errno : Int) :
    dictPut none value nkey nvalue answer errno s = .ok (EINVAL, nkey, nvalue, s) := by
  rw [dictPut, h.dict]
  rfl

theorem failure_ne_zero (errno : Int) : (if errno ≠ 0 then errno else -1) ≠ 0 := by
  split
  · assumption
  · decide

/-- A call that is refused a node leaves everything as it was. -/
theorem dictPut_refused (args : PutArgs K V) (h : DictStands args.compar s t)
    (hfound : treeFind args.compar args.key t = none) (hg : s.heap.grants args.answer = false)
    (nkey : Option (Option K)) (nvalue : Option (Option V)) :
    dictPut (some args.key) args.value nkey nvalue args.answer args.errno s
      = .ok (if args.errno ≠ 0 then args.errno else -1, nkey, nvalue, s) := by
  have hcount : CountFits args nil t := by
    refine countFits_of_le ?_
    rw [hfound]
    exact h.fits
  obtain ⟨h', x, hs', hframe, rfl, hrun⟩ := dictPut_run h (.refused hg) hcount nkey nvalue
  rw [(treePut_nil h.balanced).2.2.2 hfound] at hs'
  -- every node is rewritten as it was
  have hheap : h' = s.heap := funext fun a => by
    by_cases ha : a ∈ addrs t
    · exact held_agree h.stored.held hs'.held ha
    · exact hframe a ha List.not_mem_nil
  rw [hrun, hfound, hheap]
  exact if_pos (failure_ne_zero args.errno)

/-- A call that comes to an equal key asks for no node. -/
theorem dictPut_found (args : PutArgs K V) (h : DictStands args.compar s t)
    (hfound : treeFind args.compar args.key t ≠ none)
    (nkey : Option (Option K)) (nvalue : Option (Option V)) : ∃ nkey' nvalue' s',
      dictPut (some args.key) args.value nkey nvalue args.answer args.errno s
        = .ok (0, nkey', nvalue', s') := by
  obtain ⟨c, hc⟩ := Option.ne_none_iff_exists'.mp hfound
  obtain ⟨leaf, hleaf⟩ := exists_newLeaf args s.heap
  have hcount : CountFits args leaf t := by
    refine countFits_of_le ?_
    rw [hc]
    exact h.fits
  obtain ⟨h', x, -, -, rfl, hrun⟩ := dictPut_run h hleaf hcount nkey nvalue
  rw [hc] at hrun
  exact ⟨_, _, _, hrun⟩

/-- A call that can count the nodes does to the tree what `treePut` does, and
is successful unless it needs a node and does not get one. -/
theorem dictPut_ok (hc : TotalOrder args.compar) (h : DictHolds args.compar s t)
    (hleaf : NewLeaf args s.heap leaf) (hcount : CountFits args leaf t)
    (nkey : Option (Option K)) (nvalue : Option (Option V)) :
    ∃ status nkey' nvalue' s',
      dictPut (some args.key) args.value nkey nvalue args.answer args.errno s
        = .ok (status, nkey', nvalue', s') ∧
      DictHolds args.compar s' (treePut args leaf t) ∧
      (((find args.compar args.key (pairs t)).isSome ∨ leaf ≠ nil) ∧ status = 0 ∧
          nkey' = nkey.map (fun _ => (find args.compar args.key (pairs t)).map Prod.fst) ∧
          nvalue' = nvalue.map (fun _ => (find args.compar args.key (pairs t)).bind Prod.snd) ∨
        (find args.compar args.key (pairs t) = none ∧ leaf = nil) ∧ status ≠ 0 ∧
          nkey' = nkey ∧ nvalue' = nvalue) := by
  by_cases hrefused : find args.compar args.key (pairs t) = none ∧ leaf = nil
  · obtain ⟨hnone, rfl⟩ := hrefused
    have hg : s.heap.grants args.answer = false := by
      cases hleaf
      assumption
    have hfound : treeFind args.compar args.key t = none := (treeFind_eq_none hc h).mpr hnone
    have hsame : treePut args nil t = t := (treePut_nil h.balanced).2.2.2 hfound
    exact ⟨_, nkey, nvalue, s, dictPut_refused args h.stands hfound hg nkey nvalue, hsame.symm ▸ h,
      .inr ⟨⟨hnone, rfl⟩, failure_ne_zero args.errno, rfl, rfl⟩⟩
  obtain ⟨hkey, hvalue⟩ := pair_find hc h
  obtain ⟨h', x, hs', -, rfl, hrun⟩ := dictPut_run h.stands hleaf hcount nkey nvalue
  have hholds : ∀ s' : DictState K V,
      s'.dict = some { head := root (treePut args leaf t), compar := args.compar } →
      s'.heap = h' → DictHolds args.compar s' (treePut args leaf t) := by
    rintro s' hdict rfl
    exact ⟨hdict, hs', hleaf.balanced h.balanced, sorted_treePut hc hleaf h,
      hleaf.fits h.fits hcount⟩
  rw [hrun]
  rw [← treeFind_eq hc h.sorted] at hrefused
  rw [← hkey, ← hvalue, ← treeFind_eq hc h.sorted]
  cases hfound : treeFind args.compar args.key t with
  | some c =>
      exact ⟨0, _, _, _, rfl, hholds _ rfl rfl, .inl ⟨.inl rfl, rfl, rfl, rfl⟩⟩
  | none =>
      cases hleaf' : leaf with
      | node new l r =>
          subst hleaf'
          exact ⟨0, _, _, _, rfl, hholds _ rfl rfl, .inl ⟨.inr nofun, rfl, rfl, rfl⟩⟩
      | nil => exact absurd ⟨by rw [hfound]; rfl, hleaf'⟩ hrefused

theorem dictPut_overflow (h : DictStands args.compar s t) (hleaf : NewLeaf args s.heap leaf)
    (hcount : ¬ CountFits args leaf t) (nkey : Option (Option K)) (nvalue : Option (Option V)) :
    dictPut (some args.key) args.value nkey nvalue args.answer args.errno s = .error .overflow := by
  have hrun := subtreePut_overflow
    (s := { heap := s.heap, nkey := nkey, nvalue := nvalue, status := 0 }) h.stored h.balanced hleaf
    (Nat.lt_succ_of_le (height_le_numNodes t)) h.fits hcount
  rw [dictPut_eq h, hrun]
  rfl

/-- What can be said of a call that ended. -/
theorem dictPut_inv (hc : TotalOrder args.compar) (h : DictHolds args.compar s t)
    (hleaf : NewLeaf args s.heap leaf) {nkey nkey' : Option (Option K)}
    {nvalue nvalue' : Option (Option V)} {status : Int} {s' : DictState K V}
    (hrun : dictPut (some args.key) args.value nkey nvalue args.answer args.errno s
      = .ok (status, nkey', nvalue', s')) :
    DictHolds args.compar s' (treePut args leaf t) ∧
      (status = 0 → (find args.compar args.key (pairs t)).isSome ∨ leaf ≠ nil) := by
  by_cases hcount : CountFits args leaf t
  · obtain ⟨_, _, _, _, hrun', h', hcase⟩ := dictPut_ok hc h hleaf hcount nkey nvalue
    have heq := hrun.symm.trans hrun'
    cases heq
    refine ⟨h', fun hzero => ?_⟩
    rcases hcase with ⟨hgot, -⟩ | ⟨-, hne, -⟩
    · exact hgot
    · exact absurd hzero hne
  · have heq := hrun.symm.trans (dictPut_overflow h.stands hleaf hcount nkey nvalue)
    cases heq

/-- The tree that a call leaves is that of `treePut`, with a node of the pair
if one is needed. -/
theorem exists_treePut (hc : TotalOrder args.compar) (h : DictHolds args.compar s t)
    (hgot : (find args.compar args.key (pairs t)).isSome ∨ leaf ≠ nil)
    (hleaf : NewLeaf args s.heap leaf) : ∃ new : DictCell K V, new.level = 1 ∧
      pair new = (args.key, args.value) ∧ treePut args leaf t = treePut args (node new nil nil) t := by
  cases hleaf with
  | @granted a _ _ => exact ⟨_, rfl, rfl, rfl⟩
  | refused _ =>
      have hfound := hgot.resolve_right fun hne => hne rfl
      rw [← treeFind_eq hc h.sorted, Option.isSome_map] at hfound
      exact ⟨{ addr := 0, level := 1, key := args.key, value := args.value }, rfl, rfl,
        treePut_of_found _ hfound⟩

end Call

/-! ## Runs -/

section Run

variable {compar : K → K → Int} {s : DictState K V} {t : DictTree K V}

theorem holds_emptyDict (compar : K → K → Int) :
    DictHolds (V := V) compar (emptyDict compar) nil where
  dict := rfl
  stored := ⟨trivial, .nil, List.not_mem_nil, rfl⟩
  balanced := trivial
  sorted := .nil
  fits := (by decide : (0 : Int) ≤ INT_MAX)

/-- A call that ends leaves a dict that holds a tree. -/
theorem holds_dictPut (hc : TotalOrder compar) (h : DictHolds compar s t) {key : Option K}
    {value : Option V} {nkey nkey' : Option (Option K)} {nvalue nvalue' : Option (Option V)}
    {answer : Option Addr} {errno status : Int} {s' : DictState K V}
    (hrun : dictPut key value nkey nvalue answer errno s = .ok (status, nkey', nvalue', s')) :
    ∃ t', DictHolds compar s' t' := by
  cases key with
  | none =>
      rw [dictPut_nokey h.stands] at hrun
      cases hrun
      exact ⟨t, h⟩
  | some key =>
      let args : PutArgs K V :=
        { compar := compar, key := key, value := value, answer := answer, errno := errno }
      obtain ⟨leaf, hleaf⟩ := exists_newLeaf args s.heap
      exact ⟨_, (dictPut_inv hc h hleaf hrun).1⟩

theorem holds_of_dictRun (hc : TotalOrder compar) {puts : List (K × Option V)}
    (h : DictRun compar puts s) : ∃ t, DictHolds compar s t := by
  induction h with
  | init => exact ⟨nil, holds_emptyDict compar⟩
  | put _ hrun ih =>
      obtain ⟨t, ht⟩ := ih
      exact holds_dictPut hc ht hrun
  | failed _ _ hrun ih =>
      obtain ⟨t, ht⟩ := ih
      exact holds_dictPut hc ht hrun

/-- For that the keys need not be in order. -/
theorem stands_dictPut (h : DictStands compar s t) {key : Option K} {value : Option V}
    {nkey nkey' : Option (Option K)} {nvalue nvalue' : Option (Option V)} {answer : Option Addr}
    {errno status : Int} {s' : DictState K V}
    (hrun : dictPut key value nkey nvalue answer errno s = .ok (status, nkey', nvalue', s')) :
    ∃ t', DictStands compar s' t' := by
  cases key with
  | none =>
      rw [dictPut_nokey h] at hrun
      cases hrun
      exact ⟨t, h⟩
  | some key =>
      let args : PutArgs K V :=
        { compar := compar, key := key, value := value, answer := answer, errno := errno }
      obtain ⟨leaf, hleaf⟩ := exists_newLeaf args s.heap
      by_cases hcount : CountFits args leaf t
      · obtain ⟨h', x, hs', -, hx, hput⟩ := @dictPut_run _ _ args _ _ _ h hleaf hcount nkey nvalue
        rw [hput] at hrun
        split at hrun
        · next hstatus =>
          rw [hx] at hstatus
          obtain ⟨hfound, rfl⟩ := status_putResult rfl hstatus
          rw [(treePut_nil h.balanced).2.2.2 hfound] at hs'
          cases hrun
          exact ⟨t, h.dict, hs', h.balanced, h.fits⟩
        · cases hrun
          exact ⟨_, rfl, hs', hleaf.balanced h.balanced, hleaf.fits h.fits hcount⟩
      · have hover := @dictPut_overflow _ _ args _ _ _ h hleaf hcount nkey nvalue
        cases hrun.symm.trans hover

theorem stands_of_dictRun {puts : List (K × Option V)} (h : DictRun compar puts s) :
    ∃ t, DictStands compar s t := by
  induction h with
  | init => exact ⟨nil, (holds_emptyDict compar).stands⟩
  | put _ hrun ih =>
      obtain ⟨t, ht⟩ := ih
      exact stands_dictPut ht hrun
  | failed _ _ hrun ih =>
      obtain ⟨t, ht⟩ := ih
      exact stands_dictPut ht hrun

/-! ## What a put should do -/

theorem DictStands.unique {t' : DictTree K V} (h : DictStands compar s t)
    (h' : DictStands compar s t') : t = t' := by
  have hdict := h.dict.symm.trans h'.dict
  rw [Option.some.injEq, Dict.mk.injEq] at hdict
  exact held_unique h.stored.held h'.stored.held h.stored.apart h'.stored.apart hdict.1

theorem DictHolds.unique {t' : DictTree K V} (h : DictHolds compar s t)
    (h' : DictHolds compar s t') : t = t' :=
  h.stands.unique h'.stands

/-- The put loses no node, and there is a number for the node it may need. -/
def Keeps (compar : K → K → Int) (key : K) (t : DictTree K V) : Prop :=
  loses compar key t = false ∧
    ((find compar key (pairs t)).isSome ∨ (t.numNodes : Int) < INT_MAX)

/-- The call is successful, and does to the pairs of the tree what it does to
a sorted association list: the pair of an equal key is replaced and handed
out, or else the new one is inserted and the dict is one larger. -/
def PutRefines (compar : K → K → Int) (s : DictState K V) (t : DictTree K V) (key : K)
    (value : Option V) (nkey : Option (Option K)) (nvalue : Option (Option V))
    (answer : Option Addr) (errno : Int) : Prop :=
  ∃ s' t' n,
    dictPut (some key) value nkey nvalue answer errno s
      = .ok (0, nkey.map (fun _ => (find compar key (pairs t)).map Prod.fst),
          nvalue.map (fun _ => (find compar key (pairs t)).bind Prod.snd), s') ∧
    DictHolds compar s' t' ∧ pairs t' = put compar key value (pairs t) ∧
    dictSize s = .ok n ∧
    dictSize s' = .ok (if (find compar key (pairs t)).isSome then n else n + 1)

section Put

variable {key : K} {value : Option V} {nkey : Option (Option K)} {nvalue : Option (Option V)}
variable {answer : Option Addr} {errno : Int}

theorem PutRefines.intro {s' : DictState K V} {t' : DictTree K V} (hc : TotalOrder compar)
    (h : DictHolds compar s t) (h' : DictHolds compar s' t')
    (hpairs : pairs t' = put compar key value (pairs t))
    (hrun : dictPut (some key) value nkey nvalue answer errno s
      = .ok (0, nkey.map (fun _ => (find compar key (pairs t)).map Prod.fst),
          nvalue.map (fun _ => (find compar key (pairs t)).bind Prod.snd), s')) :
    PutRefines compar s t key value nkey nvalue answer errno := by
  have hsize : t'.numNodes
      = if (find compar key (pairs t)).isSome then t.numNodes else t.numNodes + 1 := by
    rw [← length_pairs, hpairs, length_put hc h.sorted, length_pairs]
  refine ⟨s', t', t.numNodes, hrun, h', hpairs, dictSize_ok h.stands, ?_⟩
  rw [dictSize_ok h'.stands, hsize]
  split <;> rfl

/-- A put does what it should just if it loses no node. -/
theorem putRefines_iff (hc : TotalOrder compar) (h : DictHolds compar s t)
    (hgot : (find compar key (pairs t)).isSome ∨ s.heap.grants answer = true) :
    PutRefines compar s t key value nkey nvalue answer errno ↔ Keeps compar key t := by
  let args : PutArgs K V :=
    { compar := compar, key := key, value := value, answer := answer, errno := errno }
  obtain ⟨leaf, hleaf⟩ := exists_newLeaf args s.heap
  have hgot' : (find compar key (pairs t)).isSome ∨ leaf ≠ nil := hgot.imp_right hleaf.ne_nil.mpr
  obtain ⟨new, hlevel, hpair, htree⟩ := exists_treePut hc h hgot' hleaf
  obtain ⟨-, hkept, hlost⟩ := pairs_treePut hc hlevel hpair h.balanced h.sorted
  rw [← htree] at hkept hlost
  constructor
  · rintro ⟨s', t', -, hrun, h', hpairs, -⟩
    -- the tree is the one that the call makes of it
    rw [← h'.unique (dictPut_inv hc h hleaf hrun).1] at hlost
    refine ⟨?_, ?_⟩
    · cases hloses : loses compar key t with
      | false => rfl
      | true => exact absurd (congrArg List.length hpairs) (hlost hloses).ne
    · cases hfound : find compar key (pairs t) with
      | some p => exact .inl rfl
      | none =>
          have hsize := @length_put _ _ _ key value _ hc h.sorted
          have hfits := h'.fits
          rw [hfound, ← hpairs, length_pairs, length_pairs] at hsize
          have hsize : t'.numNodes = t.numNodes + 1 := hsize
          exact .inr (by omega)
  · rintro ⟨hloses, hroom⟩
    have hcount : CountFits args leaf t := by
      rcases hroom with hfound | hlt
      · refine countFits_of_le ?_
        rw [← treeFind_eq hc h.sorted, Option.isSome_map] at hfound
        rw [if_pos hfound]
        exact h.fits
      · exact hleaf.countFits hlt
    obtain ⟨status, nkey', nvalue', s', hrun, h', hcase⟩ := dictPut_ok hc h hleaf hcount nkey nvalue
    rcases hcase with ⟨-, rfl, rfl, rfl⟩ | ⟨⟨hnone, hnil⟩, -⟩
    · exact .intro hc h h' (hkept hloses) hrun
    · rcases hgot' with hfound | hne
      · rw [hnone] at hfound
        cases hfound
      · exact absurd hnil hne

end Put

/-! ## Runs that lose nothing -/

/-- A run of successful puts, none of which loses a node. -/
inductive KeepingRun (compar : K → K → Int) : List (K × Option V) → DictState K V → Prop
  | init : KeepingRun compar [] (emptyDict compar)
  | put {puts s t key value nkey nvalue answer errno nkey' nvalue' s'} :
      KeepingRun compar puts s → DictHolds compar s t → Keeps compar key t →
      dictPut (some key) value nkey nvalue answer errno s = .ok (0, nkey', nvalue', s') →
      KeepingRun compar (puts ++ [(key, value)]) s'

theorem holds_of_keepingRun (hc : TotalOrder compar) {puts : List (K × Option V)}
    (h : KeepingRun compar puts s) : ∃ t, DictHolds compar s t ∧ pairs t = putAll compar puts := by
  induction h with
  | init => exact ⟨nil, holds_emptyDict compar, rfl⟩
  | @put puts s t key value nkey nvalue answer errno nkey' nvalue' s' _ ht hkeeps hrun ih =>
      obtain ⟨t₀, ht₀, hpairs⟩ := ih
      cases ht.unique ht₀
      let args : PutArgs K V :=
        { compar := compar, key := key, value := value, answer := answer, errno := errno }
      obtain ⟨leaf, hleaf⟩ := exists_newLeaf args s.heap
      have hgot : (find compar key (pairs t)).isSome ∨ s.heap.grants answer = true :=
        ((dictPut_inv hc ht hleaf hrun).2 rfl).imp_right hleaf.ne_nil.mp
      obtain ⟨s₁, t₁, -, hrun', h₁, hput, -⟩ := (putRefines_iff hc ht hgot).mpr hkeeps
      have heq := hrun.symm.trans hrun'
      cases heq
      refine ⟨t₁, h₁, ?_⟩
      rw [hput, hpairs, putAll, putAll, List.foldl_append]
      rfl

theorem KeepingRun.dictRun {puts : List (K × Option V)} (h : KeepingRun compar puts s) :
    DictRun compar puts s := by
  induction h with
  | init => exact .init
  | put _ _ _ hrun ih => exact .put ih hrun

/-- The next put, and the tree that it makes. -/
theorem KeepingRun.next (hc : TotalOrder compar) {puts : List (K × Option V)}
    (h : KeepingRun compar puts s) (ht : DictHolds compar s t) {key : K} {value : Option V}
    {answer : Option Addr} {errno : Int} {leaf : DictTree K V}
    (hleaf : NewLeaf ⟨compar, key, value, answer, errno⟩ s.heap leaf)
    (hkeeps : Keeps compar key t) {nkey nkey' : Option (Option K)}
    {nvalue nvalue' : Option (Option V)} {s' : DictState K V}
    (hrun : dictPut (some key) value nkey nvalue answer errno s = .ok (0, nkey', nvalue', s')) :
    KeepingRun compar (puts ++ [(key, value)]) s' ∧
      DictHolds compar s' (treePut ⟨compar, key, value, answer, errno⟩ leaf t) :=
  ⟨.put h ht hkeeps hrun, (dictPut_inv hc ht hleaf hrun).1⟩

theorem dictGet_ok (hc : TotalOrder compar) (h : DictHolds compar s t) (key : K)
    (index : Option Int) :
    dictGet (some key) index s = .ok (gotten compar key index 0 (pairs t)) := by
  have hfits : (0 : Int) + t.numNodes ≤ INT_MAX := (zero_add _).trans_le h.fits
  rw [← subtreeGet_ok hc key index h.stored h.sorted (Nat.lt_succ_of_le (height_le_numNodes t))
    le_rfl hfits]
  simp only [dictGet, h.dict, subtreeSize_ok h.stored, Outcome.ok_bind, Int.toNat_natCast]

end Run

/-- In every dict that puts can make, successful or not, a put to which the
allocator gives the node it may need does what it does to a sorted association
list just if it loses no node; and after puts that lose none the dict is that
list, so that every key is found with its last value. -/
theorem dict_refines_assoc {compar : K → K → Int} (hc : TotalOrder compar) :
    (∀ (puts : List (K × Option V)) s, DictRun compar puts s →
      ∃ t, DictHolds compar s t ∧ ∀ key value nkey nvalue answer errno,
        (find compar key (pairs t)).isSome ∨ s.heap.grants answer = true →
          (PutRefines compar s t key value nkey nvalue answer errno ↔ Keeps compar key t)) ∧
    (∀ (puts : List (K × Option V)) s, KeepingRun compar puts s →
      ∃ t, DictHolds compar s t ∧ pairs t = putAll compar puts ∧
        ∀ key index, ∃ index', dictGet (some key) index s
          = .ok ((find compar key puts.reverse).bind Prod.snd, index')) := by
  refine ⟨fun puts s hrun => ?_, fun puts s hrun => ?_⟩
  · obtain ⟨t, ht⟩ := holds_of_dictRun hc hrun
    exact ⟨t, ht, fun _ _ _ _ _ _ hgot => putRefines_iff hc ht hgot⟩
  · obtain ⟨t, ht, hpairs⟩ := holds_of_keepingRun hc hrun
    refine ⟨t, ht, hpairs, fun key index => ?_⟩
    rw [← find_putAll hc, ← hpairs]
    exact ⟨_, dictGet_ok hc ht key index⟩

/-- Numbers as keys. -/
def compareNat (a b : Nat) : Int := (a : Int) - b

theorem totalOrder_compareNat : TotalOrder compareNat where
  swap a b := by
    rw [compareNat, compareNat]
    omega
  trans a b c hab hbc := by
    rw [compareNat] at hab hbc ⊢
    omega

/-! Five keys, the last put a replacement. -/

def fiveTree : DictTree Nat Nat :=
  node ⟨2, 2, 2, some 21⟩ (node ⟨1, 1, 1, some 10⟩ nil nil)
    (node ⟨4, 2, 4, some 40⟩ (node ⟨3, 1, 3, some 30⟩ nil nil) (node ⟨5, 1, 5, some 50⟩ nil nil))

def fivePuts : List (Nat × Option Nat) :=
  [(1, some 10), (2, some 20), (3, some 30), (4, some 40), (5, some 50), (2, some 21)]

theorem exists_fiveTree : ∃ s, KeepingRun compareNat fivePuts s ∧ DictHolds compareNat s fiveTree ∧
    s.heap.grants (some 6) = true := by
  have hc := totalOrder_compareNat
  obtain ⟨h, ht⟩ := KeepingRun.init.next hc (holds_emptyDict _) (.granted rfl rfl)
    ⟨rfl, .inr (by decide)⟩
    (rfl : dictPut (some 1) (some 10) none none (some 1) 0 (emptyDict compareNat) = .ok _)
  obtain ⟨h, ht⟩ := h.next hc ht (.granted rfl rfl) ⟨rfl, .inr (by decide)⟩
    (rfl : dictPut (some 2) (some 20) none none (some 2) 0 _ = .ok _)
  obtain ⟨h, ht⟩ := h.next hc ht (.granted rfl rfl) ⟨rfl, .inr (by decide)⟩
    (rfl : dictPut (some 3) (some 30) none none (some 3) 0 _ = .ok _)
  obtain ⟨h, ht⟩ := h.next hc ht (.granted rfl rfl) ⟨rfl, .inr (by decide)⟩
    (rfl : dictPut (some 4) (some 40) none none (some 4) 0 _ = .ok _)
  obtain ⟨h, ht⟩ := h.next hc ht (.granted rfl rfl) ⟨rfl, .inr (by decide)⟩
    (rfl : dictPut (some 5) (some 50) none none (some 5) 0 _ = .ok _)
  obtain ⟨h, ht⟩ := h.next hc ht (.refused rfl) ⟨rfl, .inr (by decide)⟩
    (rfl : dictPut (some 2) (some 21) none none none 0 _ = .ok _)
  exact ⟨_, h, ht, rfl⟩

theorem dict_refines_assoc_five : ∃ s, KeepingRun compareNat fivePuts s ∧
    DictHolds compareNat s fiveTree ∧
    PutRefines compareNat s fiveTree 6 (some 60) (some none) none (some 6) 0 ∧
    ¬ PutRefines compareNat s fiveTree 0 (some 0) (some none) none (some 6) 0 ∧
    pairs fiveTree = putAll compareNat fivePuts ∧
    ∃ index', dictGet (some 2) none s = .ok (some 21, index') := by
  obtain ⟨s, hrun, ht, hg⟩ := exists_fiveTree
  obtain ⟨t, ht', hput⟩ := (dict_refines_assoc totalOrder_compareNat).1 _ _ hrun.dictRun
  cases ht.unique ht'
  obtain ⟨t, ht', hpairs, hget⟩ := (dict_refines_assoc totalOrder_compareNat).2 _ _ hrun
  cases ht.unique ht'
  refine ⟨s, hrun, ht, (hput 6 (some 60) (some none) none (some 6) 0 (.inr hg)).mpr
    ⟨rfl, .inr (by decide)⟩, fun hrefines => ?_, hpairs, hget 2 none⟩
  have hkeeps := (hput 0 (some 0) (some none) none (some 6) 0 (.inr hg)).mp hrefines
  cases hkeeps.1

/-- The right rotation of `skew` takes the new node up, but the old head is
returned: both puts are successful, and the dict has the first key alone. -/
theorem dictPut_two_one : ∃ s₁ s₂,
    dictPut (some 2) (some 20) (some none) none (some 1) 0 (emptyDict compareNat)
      = .ok (0, some none, none, s₁) ∧
    dictPut (some 1) (some 10) (some none) none (some 2) 0 s₁ = .ok (0, some none, none, s₂) ∧
    DictRun compareNat [(2, some 20), (1, some 10)] s₂ ∧
    dictSize s₁ = .ok 1 ∧ dictSize s₂ = .ok 1 ∧
    dictGet (some 1) none s₂ = .ok (none, none) ∧ dictGet (some 2) none s₂ = .ok (some 20, none) := by
  refine ⟨_, _, rfl, rfl, ?_, rfl, rfl, rfl, rfl⟩
  have hone := DictRun.put .init
    (rfl : dictPut (some 2) (some 20) (some none) none (some 1) 0 (emptyDict compareNat) = .ok _)
  exact .put hone (rfl : dictPut (some 1) (some 10) (some none) none (some 2) 0 _ = .ok _)

end Jccl
