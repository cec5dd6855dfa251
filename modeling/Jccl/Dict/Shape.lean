/-
# `Jccl.Dict.Shape` — what there is to be found below the head of a dict

Seen from outside, a dict is the pointer `head` and what can be reached from
it by going left and right.  `descend` is such a walk in memory; in a stored
tree it comes to the subtree of the same place (`subtreeAt`), or to the
sentinel, where it stays.  So the nodes form a finite tree, each reached on
one way only, with the right counters, and with levels that obey the rules of
an AA tree.  The traversal of `dict_for_each` visits the pairs in order.
-/
import Jccl.Dict.Run

namespace Jccl

open BinaryTree AATree SortedMap DictTree

variable {K V : Type}

inductive Side where
  | left
  | right
deriving DecidableEq, Repr

/-- Where a pointer leads to by going down those sides. -/
def descend (heap : Heap (DictNode K V)) : Option Addr → List Side → Outcome (Option Addr)
  | p, [] => .ok p
  | p, .left :: path => do
      let node ← heap.load p
      descend heap node.left path
  | p, .right :: path => do
      let node ← heap.load p
      descend heap node.right path

namespace DictTree

def subtreeAt : DictTree K V → List Side → DictTree K V
  | t, [] => t
  | t, .left :: path => subtreeAt t.left path
  | t, .right :: path => subtreeAt t.right path

section Lemmas

variable {h : Heap (DictNode K V)} {t : DictTree K V} {a : Addr}

theorem Stored.subtreeLeft (hs : Stored h t) : Stored h t.left := by
  cases t with
  | nil => exact hs
  | node c l r => exact hs.left

theorem Stored.subtreeRight (hs : Stored h t) : Stored h t.right := by
  cases t with
  | nil => exact hs
  | node c l r => exact hs.right

theorem topOf_left (t : DictTree K V) : (topOf t).left = root t.left := by
  cases t <;> rfl

/-- A walk in memory is a walk in the tree. -/
theorem descend_ok (hs : Stored h t) (path : List Side) :
    descend h (root t) path = .ok (root (subtreeAt t path)) ∧ Stored h (subtreeAt t path) := by
  induction path generalizing t with
  | nil => exact ⟨rfl, hs⟩
  | cons side path ih =>
      cases side with
      | left =>
          rw [descend, load_root hs.sentinel hs.held, Outcome.ok_bind, topOf_left]
          exact ih hs.subtreeLeft
      | right =>
          rw [descend, load_root hs.sentinel hs.held, Outcome.ok_bind, topOf_right]
          exact ih hs.subtreeRight

theorem Stored.eot_iff (hs : Stored h t) : EOT (root t) ↔ t = nil := by
  cases t with
  | nil => exact ⟨fun _ => rfl, fun _ => rfl⟩
  | node c l r => exact ⟨fun heot => absurd heot hs.notEOT.2, nofun⟩

theorem subtreeAt_nil (path : List Side) : subtreeAt (nil : DictTree K V) path = nil := by
  induction path with
  | nil => rfl
  | cons side path ih => cases side <;> exact ih

theorem length_lt_height {path : List Side} (hne : subtreeAt t path ≠ nil) :
    path.length < t.height := by
  induction path generalizing t with
  | nil =>
      cases t with
      | nil => exact absurd rfl hne
      | node c l r => exact Nat.succ_pos _
  | cons side path ih =>
      cases t with
      | nil => exact absurd (subtreeAt_nil _) hne
      | node c l r =>
          have hheight : (node c l r).height = max l.height r.height + 1 := rfl
          rw [List.length_cons, hheight]
          cases side with
          | left => exact Nat.succ_lt_succ (lt_max_of_lt_left (ih hne))
          | right => exact Nat.succ_lt_succ (lt_max_of_lt_right (ih hne))

theorem mem_addrs_subtreeAt {path : List Side} (ha : a ∈ addrs (subtreeAt t path)) :
    a ∈ addrs t := by
  induction path generalizing t with
  | nil => exact ha
  | cons side path ih =>
      cases t with
      | nil =>
          rw [subtreeAt_nil] at ha
          exact ha
      | node c l r =>
          cases side with
          | left => exact mem_addrs_node.mpr (.inl (ih ha))
          | right => exact mem_addrs_node.mpr (.inr (.inr (ih ha)))

theorem exists_mem_root (hne : t ≠ nil) : ∃ a, root t = some a ∧ a ∈ addrs t := by
  cases t with
  | nil => exact absurd rfl hne
  | node c l r => exact ⟨c.addr, rfl, mem_addrs_node.mpr (.inr (.inl rfl))⟩

/-- Two walks to one node are the same. -/
theorem path_unique (hn : (addrs t).Nodup) {path path' : List Side}
    (hroot : root (subtreeAt t path) = root (subtreeAt t path')) (hne : subtreeAt t path ≠ nil)
    (hne' : subtreeAt t path' ≠ nil) : path = path' := by
  induction path generalizing t path' with
  | nil =>
      cases path' with
      | nil => rfl
      | cons side path' =>
          -- the root is not below itself
          obtain ⟨a, ha, -⟩ := exists_mem_root hne
          obtain ⟨b, hb, hmem⟩ := exists_mem_root hne'
          have hab : a = b := Option.some.inj (ha.symm.trans (hroot.trans hb))
          cases t with
          | nil => exact absurd rfl hne
          | node c l r =>
              obtain ⟨-, -, hcl, hcr, -⟩ := nodup_node.mp hn
              have hc : b = c.addr := hab.symm.trans (Option.some.inj ha).symm
              cases side with
              | left => exact absurd (hc ▸ mem_addrs_subtreeAt hmem) hcl
              | right => exact absurd (hc ▸ mem_addrs_subtreeAt hmem) hcr
  | cons side path ih =>
      cases t with
      | nil => exact absurd (subtreeAt_nil _) hne
      | node c l r =>
          obtain ⟨hl, hr, hcl, hcr, hlr⟩ := nodup_node.mp hn
          obtain ⟨a, ha, hmem⟩ := exists_mem_root hne
          obtain ⟨b, hb, hmem'⟩ := exists_mem_root hne'
          have hab : a = b := Option.some.inj (ha.symm.trans (hroot.trans hb))
          subst hab
          cases path' with
          | nil =>
              have hc : a = c.addr := (Option.some.inj hb).symm
              cases side with
              | left => exact absurd (hc ▸ mem_addrs_subtreeAt hmem) hcl
              | right => exact absurd (hc ▸ mem_addrs_subtreeAt hmem) hcr
          | cons side' path' =>
              cases side <;> cases side'
              · exact congrArg _ (ih hl hroot hne hne')
              · exact absurd (mem_addrs_subtreeAt (t := r) hmem') (hlr a (mem_addrs_subtreeAt hmem))
              · exact absurd (mem_addrs_subtreeAt (t := r) hmem) (hlr a (mem_addrs_subtreeAt hmem'))
              · exact congrArg _ (ih hr hroot hne hne')

theorem Balanced.subtreeAt (hb : Balanced t) (path : List Side) :
    Balanced (subtreeAt t path) := by
  induction path generalizing t with
  | nil => exact hb
  | cons side path ih =>
      cases side with
      | left => exact ih hb.left
      | right => exact ih hb.right

end Lemmas

end DictTree

/-! ## The traversal -/

section ForEach

variable {σ : Type}

/-- The action on one pair after another, up to the first that fails. -/
def visit (action : DictAction K V σ) : List (K × Option V) → σ → Int × σ
  | [], state => (0, state)
  | p :: ps, state =>
      let (status, state) := action (some p.1) p.2 state
      if status ≠ 0 then (status, state) else visit action ps state

variable {action : DictAction K V σ} {h : Heap (DictNode K V)} {t : DictTree K V}

theorem visit_cons (p : K × Option V) (ps : List (K × Option V)) (state : σ) :
    visit action (p :: ps) state
      = if (action (some p.1) p.2 state).1 ≠ 0 then action (some p.1) p.2 state
        else visit action ps (action (some p.1) p.2 state).2 := rfl

theorem visit_append (ps qs : List (K × Option V)) (state : σ) :
    visit action (ps ++ qs) state
      = if (visit action ps state).1 ≠ 0 then visit action ps state
        else visit action qs (visit action ps state).2 := by
  induction ps generalizing state with
  | nil => rfl
  | cons p ps ih =>
      rw [List.cons_append, visit_cons, visit_cons, ih]
      by_cases hstatus : (action (some p.1) p.2 state).1 ≠ 0
      · rw [if_pos hstatus, if_pos hstatus, if_pos hstatus]
      · rw [if_neg hstatus, if_neg hstatus]

theorem subtreeForEach_ok {fuel : Nat} (hs : Stored h t) (hfuel : t.height < fuel) (state : σ) :
    subtreeForEach action h fuel (root t) state = .ok (visit action (pairs t) state) := by
  induction t generalizing fuel state with
  | nil =>
      obtain ⟨fuel, rfl⟩ := Nat.exists_eq_succ_of_ne_zero (Nat.ne_of_gt (Nat.zero_lt_of_lt hfuel))
      exact if_pos rfl
  | node c l r ihl ihr =>
      obtain ⟨fuel, rfl, hl, hr⟩ := exists_fuel hfuel
      rw [root_node, subtreeForEach, if_neg hs.notEOT.2, Heap.load_some hs.held.1, Outcome.ok_bind,
        nodeOf_left, ihl hs.left hl, Outcome.ok_bind, pairs_node, visit_append]
      dsimp only
      by_cases hleft : (visit action (pairs l) state).1 ≠ 0
      · rw [if_pos hleft, if_pos hleft]
        rfl
      · rw [if_neg hleft, if_neg hleft, visit_cons]
        by_cases hnode : (action (some c.key) c.value (visit action (pairs l) state).2).1 ≠ 0
        · exact (if_pos hnode).trans (congrArg Except.ok (if_pos hnode).symm)
        · exact (if_neg hnode).trans ((ihr hs.right hr _).trans
            (congrArg Except.ok (if_neg hnode).symm))

theorem dictForEach_ok {compar : K → K → Int} {s : DictState K V} (hs : DictStands compar s t)
    (action : DictAction K V σ) (state : σ) :
    dictForEach (some action) state s = .ok (visit action (pairs t) state) := by
  rw [← subtreeForEach_ok hs.stored (Nat.lt_succ_of_le (height_le_numNodes t)) state]
  simp only [dictForEach, hs.dict, subtreeSize_ok hs.stored, Outcome.ok_bind, Int.toNat_natCast]

/-- The action that writes down what it is called on. -/
def record : DictAction K V (List (Option K × Option V)) :=
  fun key value visited => (0, visited ++ [(key, value)])

theorem visit_record (ps : List (K × Option V)) (visited : List (Option K × Option V)) :
    visit record ps visited = (0, visited ++ ps.map fun p => (some p.1, p.2)) := by
  induction ps generalizing visited with
  | nil => exact congrArg _ (List.append_nil visited).symm
  | cons p ps ih =>
      refine (ih (visited ++ [(some p.1, p.2)])).trans ?_
      rw [List.append_assoc]
      rfl

end ForEach

/-! ## What every dict looks like -/

section Reachable

variable {compar : K → K → Int}

/-- Below the head is a finite tree, whatever was put and in which order: every
walk goes to the place of the tree, none comes to a node that another one
comes to, every counter is right, the keys ascend, and `dict_for_each` visits
as many pairs as `dict_size` says. -/
theorem dict_isSearchTree (hc : TotalOrder compar) {puts : List (K × Option V)}
    {s : DictState K V} (hrun : DictRun compar puts s) :
    ∃ head t, s.dict = some { head := head, compar := compar } ∧
      (∀ path, descend s.heap head path = .ok (root (subtreeAt t path)) ∧
        (EOT (root (subtreeAt t path)) ↔ subtreeAt t path = nil)) ∧
      (∀ path path' p, descend s.heap head path = .ok p → descend s.heap head path' = .ok p →
        ¬ EOT p → path = path' ∧ path.length < t.numNodes) ∧
      (∀ path p node, descend s.heap head path = .ok p → s.heap.load p = .ok node →
        node.nnode = (subtreeAt t path).numNodes) ∧
      Sorted compar (pairs t) ∧
      dictForEach (some record) [] s = .ok (0, (pairs t).map fun p => (some p.1, p.2)) ∧
      dictSize s = .ok (pairs t).length := by
  obtain ⟨t, ht⟩ := holds_of_dictRun hc hrun
  have hwalk : ∀ path p, descend s.heap (root t) path = .ok p → p = root (subtreeAt t path) := by
    intro path p hp
    exact Except.ok.inj (hp.symm.trans (descend_ok ht.stored path).1)
  refine ⟨root t, t, ht.dict, fun path => ?_, ?_, ?_, ht.sorted, ?_, ?_⟩
  · exact ⟨(descend_ok ht.stored path).1, (descend_ok ht.stored path).2.eot_iff⟩
  · intro path path' p hp hp' hne
    obtain rfl := hwalk path p hp
    have hroot := hwalk path' _ hp'
    have hnil := (not_congr (descend_ok ht.stored path).2.eot_iff).mp hne
    have hnil' : subtreeAt t path' ≠ nil := by
      rw [hroot] at hne
      exact (not_congr (descend_ok ht.stored path').2.eot_iff).mp hne
    exact ⟨path_unique ht.stored.nodup hroot hnil hnil',
      (length_lt_height hnil).trans_le (height_le_numNodes t)⟩
  · intro path p node hp hload
    obtain rfl := hwalk path p hp
    have hs := (descend_ok ht.stored path).2
    rw [load_root hs.sentinel hs.held] at hload
    cases hload
    exact topOf_nnode _
  · rw [dictForEach_ok ht.stands, visit_record]
    rfl
  · rw [dictSize_ok ht.stands, length_pairs]

theorem dict_isSearchTree_two_one : ∃ s head t,
    DictRun compareNat [(2, some 20), (1, some 10)] s ∧
      s.dict = some { head := head, compar := compareNat } ∧
      dictForEach (some record) [] s = .ok (0, (pairs t).map fun p => (some p.1, p.2)) ∧
      dictSize s = .ok (pairs t).length := by
  have hone := DictRun.put .init
    (rfl : dictPut (some 2) (some 20) none none (some 1) 0 (emptyDict compareNat) = .ok _)
  have htwo := DictRun.put hone (rfl : dictPut (some 1) (some 10) none none (some 2) 0 _ = .ok _)
  obtain ⟨head, t, hdict, -, -, -, -, hvisit, hsize⟩ :=
    dict_isSearchTree totalOrder_compareNat htwo
  exact ⟨_, head, t, htwo, hdict, hvisit, hsize⟩

/-- The levels that are seen from a node obey the rules of an AA tree, with
the sentinel on level 0, and no walk is longer than those allow. -/
theorem dict_levels (hc : TotalOrder compar) {puts : List (K × Option V)} {s : DictState K V}
    (hrun : DictRun compar puts s) :
    ∃ head n, s.dict = some { head := head, compar := compar } ∧ dictSize s = .ok n ∧
      (∃ e, s.heap.load endOfTree = .ok e ∧ e.level = 0) ∧
      ∀ path, ∃ p, descend s.heap head path = .ok p ∧ (¬ EOT p →
        path.length + 1 ≤ 2 * Nat.log 2 (n.toNat + 1) ∧
        ∃ node left right rightRight, s.heap.load p = .ok node ∧
          s.heap.load node.left = .ok left ∧ s.heap.load node.right = .ok right ∧
          s.heap.load right.right = .ok rightRight ∧
          left.level = node.level - 1 ∧
          (right.level = node.level ∨ right.level = node.level - 1) ∧
          rightRight.level < node.level) := by
  obtain ⟨t, ht⟩ := holds_of_dictRun hc hrun
  refine ⟨root t, t.numNodes, ht.dict, dictSize_ok ht.stands,
    ⟨sentinel, Heap.load_some ht.stored.sentinel, rfl⟩, fun path => ?_⟩
  obtain ⟨hp, hs⟩ := descend_ok ht.stored path
  refine ⟨_, hp, fun hne => ⟨?_, ?_⟩⟩
  · have hnil := (not_congr hs.eot_iff).mp hne
    exact (length_lt_height hnil).trans_le (height_le_log ht.balanced)
  · have hb := Balanced.subtreeAt ht.balanced path
    cases hat : subtreeAt t path with
    | nil =>
        rw [hat] at hne
        exact absurd rfl hne
    | node c l r =>
        rw [hat] at hs hb
        obtain ⟨hl, hr, hr', hrr, -, -⟩ := balanced_node.mp hb
        have hheld := hs.right.held
        refine ⟨nodeOf c l r, topOf l, topOf r, topOf r.right, Heap.load_some hs.held.1,
          load_root hs.sentinel hs.left.held, load_root hs.sentinel hheld, ?_, ?_, ?_, ?_⟩
        · rw [topOf_right]
          exact load_root hs.sentinel (held_right hheld)
        · rw [topOf_level, nodeOf_level]
          omega
        · rw [topOf_level, nodeOf_level]
          omega
        · rw [topOf_level, nodeOf_level]
          omega

/-- The right child of the root has two children. -/
theorem dict_levels_five : ∃ s head,
    DictRun compareNat fivePuts s ∧ s.dict = some { head := head, compar := compareNat } ∧
      ∃ p, descend s.heap head [.right] = .ok p ∧ ¬ EOT p ∧ 2 ≤ 2 * Nat.log 2 6 ∧
        ∃ node left right rightRight, s.heap.load p = .ok node ∧
          s.heap.load node.left = .ok left ∧ s.heap.load node.right = .ok right ∧
          s.heap.load right.right = .ok rightRight ∧
          left.level = node.level - 1 ∧
          (right.level = node.level ∨ right.level = node.level - 1) ∧
          rightRight.level < node.level := by
  obtain ⟨s, hrun, ht, -⟩ := exists_fiveTree
  obtain ⟨head, n, hdict, hsize, -, hpaths⟩ := dict_levels totalOrder_compareNat hrun.dictRun
  obtain ⟨p, hp, hlevels⟩ := hpaths [.right]
  have hn : (5 : Int) = n := Except.ok.inj ((dictSize_ok ht.stands).symm.trans hsize)
  obtain rfl : root fiveTree = head :=
    congrArg Dict.head (Option.some.inj (ht.dict.symm.trans hdict))
  obtain rfl : (some 4 : Option Addr) = p :=
    Except.ok.inj ((descend_ok ht.stored [.right]).1.symm.trans hp)
  have hne : ¬ EOT (some 4) := by decide
  subst hn
  exact ⟨s, _, hrun.dictRun, hdict, _, hp, hne, hlevels hne⟩

/-- When there is no node for a new key, the call says so and the dict, its
tree and all of the memory are as they were, whatever the comparator is.  A
key is new if the way down to its place does not come to an equal one, and if
it does, the call needs no node. -/
theorem dictPut_nomem {puts : List (K × Option V)} {s : DictState K V}
    (hrun : DictRun compar puts s) :
    ∃ t, DictStands compar s t ∧
      (∀ key value nkey nvalue answer errno,
        treeFind compar key t = none → s.heap.grants answer = false →
          ∃ status, status ≠ 0 ∧
            dictPut (some key) value nkey nvalue answer errno s = .ok (status, nkey, nvalue, s)) ∧
      (∀ key value nkey nvalue answer errno, treeFind compar key t ≠ none →
        ∃ nkey' nvalue' s',
          dictPut (some key) value nkey nvalue answer errno s = .ok (0, nkey', nvalue', s')) ∧
      (TotalOrder compar → ∀ key,
        treeFind compar key t = none ↔ find compar key (pairs t) = none) := by
  obtain ⟨t, ht⟩ := stands_of_dictRun hrun
  refine ⟨t, ht, fun key value nkey nvalue answer errno hfound hg => ?_,
    fun key value nkey nvalue answer errno hfound =>
      dictPut_found ⟨compar, key, value, answer, errno⟩ ht hfound nkey nvalue, fun hc key => ?_⟩
  · exact ⟨_, failure_ne_zero errno,
      dictPut_refused ⟨compar, key, value, answer, errno⟩ ht hfound hg nkey nvalue⟩
  · obtain ⟨t', ht'⟩ := holds_of_dictRun hc hrun
    cases ht.unique ht'.stands
    exact @treeFind_eq_none _ _ ⟨compar, key, none, none, 0⟩ _ _ hc ht'

/-- The place of a sixth key is three nodes down. -/
theorem dictPut_nomem_five : ∃ s, DictRun compareNat fivePuts s ∧
    DictHolds compareNat s fiveTree ∧ ∃ status, status ≠ 0 ∧
      dictPut (some 6) (some 60) (some (some 7)) none none 0 s
        = .ok (status, some (some 7), none, s) := by
  obtain ⟨s, hrun, ht, -⟩ := exists_fiveTree
  obtain ⟨t, ht', hput, -⟩ := dictPut_nomem hrun.dictRun
  cases ht.stands.unique ht'
  exact ⟨s, hrun.dictRun, ht, hput 6 (some 60) (some (some 7)) none none 0 rfl rfl⟩

end Reachable

end Jccl
