/-
# `Jccl.Dict.Select` — the pairs of a dict by number

`dict_select` counts its way down by the sizes of left subtrees, `dict_get`
adds them up on the way to a key, and `dict_for_each` goes through the tree in
order.  All three mean the same numbering: that of the in-order sequence of
the pairs.  A negative number counts from the end; one that is still negative
then, or is too large, runs off the tree on its left or right border.
-/
import Jccl.Dict.Shape

namespace Jccl

open BinaryTree AATree SortedMap DictTree

variable {K V : Type}

/-! ## The descent -/

/-- The pair of a number, if it has one. -/
def pairAt (ps : List (K × Option V)) (i : Int) : Option (K × Option V) :=
  if 0 ≤ i then ps[i.toNat]? else none

section PairAt

variable {ps qs : List (K × Option V)} {p : K × Option V} {i : Int}

theorem pairAt_natCast (ps : List (K × Option V)) (i : Nat) : pairAt ps i = ps[i]? :=
  if_pos (Int.natCast_nonneg i)

theorem pairAt_nil (i : Int) : pairAt ([] : List (K × Option V)) i = none := by
  rw [pairAt, List.getElem?_nil, ite_self]

theorem pairAt_eq_none (h : i < 0 ∨ (ps.length : Int) ≤ i) : pairAt ps i = none := by
  rw [pairAt]
  split
  · exact List.getElem?_eq_none (by omega)
  · rfl

theorem pairAt_below (h : i < ps.length) : pairAt (ps ++ p :: qs) i = pairAt ps i := by
  rw [pairAt, pairAt]
  split
  · exact List.getElem?_append_left (by omega)
  · rfl

theorem pairAt_at (h : i = ps.length) : pairAt (ps ++ p :: qs) i = some p := by
  subst h
  rw [pairAt_natCast, List.getElem?_append_right le_rfl, Nat.sub_self]
  rfl

theorem pairAt_above (h : (ps.length : Int) < i) :
    pairAt (ps ++ p :: qs) i = pairAt qs (i - (ps.length + 1)) := by
  obtain ⟨j, rfl⟩ : ∃ j : Nat, i = (ps.length + 1 : Int) + j :=
    ⟨(i - (ps.length + 1)).toNat, by omega⟩
  have hleft : ((ps.length : Int) + 1 + j) = ((ps.length + (j + 1) : Nat) : Int) := by
    push_cast
    ring
  rw [add_sub_cancel_left, pairAt_natCast, hleft, pairAt_natCast,
    List.getElem?_append_right (Nat.le_add_right _ _), Nat.add_sub_cancel_left,
    List.getElem?_cons_succ]

end PairAt

/-- The status, and what the pointers to the key and the value point to. -/
def selected (key : Option K) (value : Option V) :
    Option (K × Option V) → Int × Option K × Option V
  | none => (ESRCH, key, value)
  | some p => (0, some p.1, p.2)

section Descent

variable {h : Heap (DictNode K V)} {t : DictTree K V} {key : Option K} {value : Option V}

theorem subtreeSelectLoop_ok {fuel : Nat} {i : Int} (hs : Stored h t) (hfuel : t.height < fuel)
    (hfits : (t.numNodes : Int) ≤ INT_MAX) (hi : INT_MIN ≤ i) (hi' : i ≤ INT_MAX) :
    subtreeSelectLoop key value h fuel (root t) i
      = .ok (selected key value (pairAt (pairs t) i)) := by
  induction t generalizing fuel i with
  | nil =>
      obtain ⟨fuel, rfl⟩ := Nat.exists_eq_succ_of_ne_zero (Nat.ne_of_gt (Nat.zero_lt_of_lt hfuel))
      have hnone : pairAt (pairs (nil : DictTree K V)) i = none := pairAt_nil i
      rw [hnone]
      exact if_pos rfl
  | node c l r ihl ihr =>
      obtain ⟨fuel, rfl, hl, hr⟩ := exists_fuel hfuel
      have hmin : INT_MIN ≤ 0 := by decide
      have hlen : (pairs l).length = l.numNodes := length_pairs l
      rw [numNodes] at hfits
      rw [root_node, subtreeSelectLoop, if_neg hs.notEOT.2, Heap.load_some hs.held.1,
        Outcome.ok_bind, nodeOf_left, load_root hs.sentinel hs.held.2.1, Outcome.ok_bind,
        topOf_nnode, pairs_node]
      dsimp only
      rcases lt_trichotomy i l.numNodes with hlt | heq | hgt
      · rw [if_pos hlt, pairAt_below (hlen.symm ▸ hlt)]
        exact ihl hs.left hl (by omega) hi hi'
      · rw [if_neg heq.not_lt, if_neg heq.not_gt, pairAt_at (hlen.symm ▸ heq)]
        rfl
      · rw [if_neg hgt.not_gt, if_pos hgt, checkInt_of ⟨by omega, by omega⟩, Outcome.ok_bind,
          checkInt_of ⟨by omega, by omega⟩, Outcome.ok_bind, nodeOf_right,
          pairAt_above (hlen.symm ▸ hgt), hlen]
        exact ihr hs.right hr (by omega) (by omega) (by omega)

/-- The number of a pair, of one that may count from the end. -/
def fromStart (i : Int) (n : Nat) : Int := if i < 0 then i + n else i

theorem fromStart_fits {i : Int} {n : Nat} (hi : INT_MIN ≤ i) (hi' : i ≤ INT_MAX)
    (hn : (n : Int) ≤ INT_MAX) : INT_MIN ≤ fromStart i n ∧ fromStart i n ≤ INT_MAX := by
  rw [fromStart]
  split <;> omega

variable {compar : K → K → Int} {s : DictState K V} {i : Int}

theorem dictSelect_ok (hs : DictStands compar s t) (hi : INT_MIN ≤ i) (hi' : i ≤ INT_MAX)
    {status : Int} {key' : Option K} {value' : Option V}
    (hsel : selected key value (pairAt (pairs t) (fromStart i t.numNodes))
      = (status, key', value')) :
    dictSelect i (some key) (some value) s = .ok (status, some key', some value') := by
  obtain ⟨hge, hle⟩ := fromStart_fits hi hi' hs.fits
  have hloop := @subtreeSelectLoop_ok _ _ _ _ key value _ _ hs.stored
    (Nat.lt_succ_of_le (height_le_numNodes t)) hs.fits hge hle
  rw [hsel] at hloop
  have hargs : ¬ ((some key).isNone ∨ (some value).isNone) := by simp
  simp only [dictSelect, hs.dict, if_neg hargs, subtreeSize_ok hs.stored, Outcome.ok_bind,
    Int.toNat_natCast, subtreeSelect]
  by_cases hneg : i < 0
  · rw [fromStart, if_pos hneg] at hge hle hloop
    rw [if_pos hneg, load_root hs.stored.sentinel hs.stored.held, Outcome.ok_bind, topOf_nnode,
      checkInt_of ⟨hge, hle⟩, Outcome.ok_bind, hloop]
    rfl
  · rw [fromStart, if_neg hneg] at hloop
    rw [if_neg hneg, Outcome.pure_eq, Outcome.ok_bind, hloop]
    rfl

theorem dictSelect_some (hs : DictStands compar s t) (hi : INT_MIN ≤ i) (hi' : i ≤ INT_MAX)
    {p : K × Option V} (hp : pairAt (pairs t) (fromStart i t.numNodes) = some p) :
    dictSelect i (some key) (some value) s = .ok (0, some (some p.1), some p.2) :=
  dictSelect_ok hs hi hi' (by rw [hp]; rfl)

theorem dictSelect_none (hs : DictStands compar s t) (hi : INT_MIN ≤ i) (hi' : i ≤ INT_MAX)
    (hp : pairAt (pairs t) (fromStart i t.numNodes) = none) :
    dictSelect i (some key) (some value) s = .ok (ESRCH, some key, some value) :=
  dictSelect_ok hs hi hi' (by rw [hp]; rfl)

end Descent

/-! ## The calls of a traversal -/

section Calls

variable {σ : Type}

/-- What is handed through has become, after the action on some pairs. -/
def stateAfter (action : DictAction K V σ) (ps : List (K × Option V)) (state : σ) : σ :=
  ps.foldl (fun state p => (action (some p.1) p.2 state).2) state

/-- The statuses of the action on some pairs, each in the state the one before left. -/
def statuses (action : DictAction K V σ) : List (K × Option V) → σ → List Int
  | [], _ => []
  | p :: ps, state =>
      (action (some p.1) p.2 state).1 :: statuses action ps (action (some p.1) p.2 state).2

/-- The action that also writes down what it is called on. -/
def logged (action : DictAction K V σ) : DictAction K V (σ × List (Option K × Option V)) :=
  fun key value (state, visited) =>
    let (status, state) := action key value state
    (status, (state, visited ++ [(key, value)]))

/-- The traversal is over: with the pairs, or with the first call that fails. -/
def StopsWith (status : Int) (statuses : List Int) (rest : List (K × Option V)) : Prop :=
  status = 0 ∧ rest = [] ∧ statuses = List.replicate statuses.length 0 ∨
    status ≠ 0 ∧ ∃ k, statuses = List.replicate k 0 ++ [status]

variable {action : DictAction K V σ}

theorem StopsWith.cons {status : Int} {seen : List Int} {rest : List (K × Option V)}
    (h : StopsWith status seen rest) : StopsWith status (0 :: seen) rest := by
  rcases h with ⟨hzero, hrest, hseen⟩ | ⟨hne, k, hseen⟩
  · refine .inl ⟨hzero, hrest, ?_⟩
    rw [List.length_cons, List.replicate_succ, ← hseen]
  · refine .inr ⟨hne, k + 1, ?_⟩
    rw [hseen, List.replicate_succ]
    rfl

theorem visit_calls (ps : List (K × Option V)) (state : σ)
    (visited : List (Option K × Option V)) :
    ∃ done rest status, ps = done ++ rest ∧
      visit action ps state = (status, stateAfter action done state) ∧
      visit (logged action) ps (state, visited) = (status, stateAfter action done state,
        visited ++ done.map fun p => (some p.1, p.2)) ∧
      StopsWith status (statuses action done state) rest := by
  induction ps generalizing state visited with
  | nil =>
      refine ⟨[], [], 0, rfl, rfl, ?_, .inl ⟨rfl, rfl, rfl⟩⟩
      rw [List.map_nil, List.append_nil]
      rfl
  | cons p ps ih =>
      rw [visit_cons, visit_cons]
      by_cases hstatus : (action (some p.1) p.2 state).1 = 0
      · -- the call is successful, and the rest of the pairs is visited
        obtain ⟨done, rest, status, rfl, hvisit, hlog, hstop⟩ :=
          ih (action (some p.1) p.2 state).2 (visited ++ [(some p.1, p.2)])
        refine ⟨p :: done, rest, status, rfl, ?_, ?_, ?_⟩
        · rw [if_neg (not_not.mpr hstatus), hvisit]
          rfl
        · have hlogged : logged action (some p.1) p.2 (state, visited)
              = (0, (action (some p.1) p.2 state).2, visited ++ [(some p.1, p.2)]) := by
            rw [← hstatus]
            rfl
          rw [hlogged, if_neg (not_not.mpr rfl), hlog, List.append_assoc]
          rfl
        · rw [statuses, hstatus]
          exact hstop.cons
      · refine ⟨[p], ps, (action (some p.1) p.2 state).1, rfl, ?_, ?_, .inr ⟨hstatus, 0, rfl⟩⟩
        · rw [if_pos hstatus]
          rfl
        · exact if_pos hstatus

end Calls

/-! ## Numbers, keys and calls -/

section Reachable

variable {compar : K → K → Int} {puts : List (K × Option V)} {s : DictState K V}

/-- Every `int` is the number of a pair, from the start or from the end, or is
refused with nothing written; for that the comparator need not be an order. -/
theorem dict_select_numbers (hrun : DictRun compar puts s) :
    ∃ t, DictStands compar s t ∧ dictSize s = .ok (pairs t).length ∧
      ∀ i key value, INT_MIN ≤ i → i ≤ INT_MAX →
        (0 ≤ i → i < (pairs t).length → ∃ p, (pairs t)[i.toNat]? = some p ∧
          dictSelect i (some key) (some value) s = .ok (0, some (some p.1), some p.2)) ∧
        (-((pairs t).length : Int) ≤ i → i < 0 →
          ∃ p, (pairs t)[((pairs t).length + i).toNat]? = some p ∧
            dictSelect i (some key) (some value) s = .ok (0, some (some p.1), some p.2)) ∧
        (i < -((pairs t).length : Int) ∨ (pairs t).length ≤ i →
          dictSelect i (some key) (some value) s = .ok (ESRCH, some key, some value)) := by
  obtain ⟨t, ht⟩ := stands_of_dictRun hrun
  have hlen := length_pairs t
  refine ⟨t, ht, by rw [hlen]; exact dictSize_ok ht, fun i key value hi hi' => ⟨?_, ?_, ?_⟩⟩
  · intro hge hlt
    have hp := List.getElem?_eq_getElem (l := pairs t) (i := i.toNat) (by omega)
    refine ⟨_, hp, dictSelect_some ht hi hi' ?_⟩
    rw [fromStart, if_neg (not_lt.mpr hge), pairAt, if_pos hge, hp]
  · intro hge hneg
    have hp := List.getElem?_eq_getElem (l := pairs t) (i := ((pairs t).length + i).toNat) (by omega)
    refine ⟨_, hp, dictSelect_some ht hi hi' ?_⟩
    rw [fromStart, if_pos hneg, pairAt, if_pos (by omega), add_comm i, ← hlen, hp]
  · intro hout
    refine dictSelect_none ht hi hi' (pairAt_eq_none ?_)
    rw [fromStart]
    split <;> omega

/-- A dict of two pairs. -/
theorem dictRun_one_two : ∃ s, DictRun compareNat [(1, some 10), (2, some 20)] s ∧
    ∀ t, DictStands compareNat s t → pairs t = [(1, some 10), (2, some 20)] := by
  have hone := DictRun.put .init
    (rfl : dictPut (some 1) (some 10) none none (some 1) 0 (emptyDict compareNat) = .ok _)
  refine ⟨_, .put hone (rfl : dictPut (some 2) (some 20) none none (some 2) 0 _ = .ok _),
    fun t ht => ?_⟩
  have hvisit := dictForEach_ok ht record []
  rw [visit_record, List.nil_append] at hvisit
  have hseen : (pairs t).map (fun p => (some p.1, p.2)) = [(some 1, some 10), (some 2, some 20)] :=
    congrArg Prod.snd (Except.ok.inj hvisit).symm
  refine List.map_injective_iff.mpr ?_ hseen
  rintro ⟨k, v⟩ ⟨k', v'⟩ heq
  cases heq
  rfl

theorem dict_select_numbers_one_two : ∃ s,
    DictRun compareNat [(1, some 10), (2, some 20)] s ∧
      dictSelect (-2) (some none) (some none) s = .ok (0, some (some 1), some (some 10)) ∧
      dictSelect 2 (some none) (some none) s = .ok (ESRCH, some none, some none) := by
  obtain ⟨s, hrun, hpairs⟩ := dictRun_one_two
  obtain ⟨t, ht, -, hselect⟩ := dict_select_numbers hrun
  rw [hpairs t ht] at hselect
  refine ⟨s, hrun, ?_, ?_⟩
  · obtain ⟨-, hend, -⟩ := hselect (-2) none none (by decide) (by decide)
    obtain ⟨p, hp, hsel⟩ := hend (by decide) (by decide)
    cases hp
    exact hsel
  · obtain ⟨-, -, hout⟩ := hselect 2 none none (by decide) (by decide)
    exact hout (.inr le_rfl)

/-- The place that `dict_get` gives of a key is the number of the pair, and is
that of the keys below it: the two calls undo each other. -/
theorem dict_get_select (hc : TotalOrder compar) (hrun : DictRun compar puts s) :
    ∃ t, DictHolds compar s t ∧ dictSize s = .ok (pairs t).length ∧
      (∀ k p, p ∈ pairs t → compar k p.1 = 0 → ∀ index key value,
        dictGet (some k) index s
          = .ok (p.2, index.map fun _ => (rank compar k (pairs t) : Int)) ∧
        dictSelect (rank compar k (pairs t)) (some key) (some value) s
          = .ok (0, some (some p.1), some p.2)) ∧
      (∀ k, (∀ p ∈ pairs t, compar k p.1 ≠ 0) → ∀ index,
        dictGet (some k) index s = .ok (none, index)) ∧
      ∀ i : Nat, i < (pairs t).length → ∃ p ∈ pairs t, ∀ key value index,
        dictSelect i (some key) (some value) s = .ok (0, some (some p.1), some p.2) ∧
        dictGet (some p.1) (some index) s = .ok (p.2, some (i : Int)) := by
  obtain ⟨t, ht⟩ := holds_of_dictRun hc hrun
  have hlen := length_pairs t
  have hfits := ht.fits
  have hmin : INT_MIN ≤ 0 := by decide
  -- the number of a pair is what a key equal to its own finds
  have hat : ∀ (i : Nat) k p, (pairs t)[i]? = some p → compar k p.1 = 0 → ∀ index key value,
      dictGet (some k) index s = .ok (p.2, index.map fun _ => (i : Int)) ∧
      dictSelect i (some key) (some value) s = .ok (0, some (some p.1), some p.2) := by
    intro i k p hp heq index key value
    obtain ⟨hfind, hrank⟩ := ht.sorted.rank_eq hc hp heq
    have hlt := (List.getElem?_eq_some_iff.mp hp).1
    refine ⟨?_, dictSelect_some ht.stands (by omega) (by omega) ?_⟩
    · rw [dictGet_ok hc ht, gotten, hfind, hrank, zero_add]
      rfl
    · rw [fromStart, if_neg (not_lt.mpr (Int.natCast_nonneg i)), pairAt_natCast, hp]
  refine ⟨t, ht, by rw [hlen]; exact dictSize_ok ht.stands, ?_, ?_, ?_⟩
  · intro k p hmem heq index key value
    obtain ⟨i, hp⟩ := List.mem_iff_getElem?.mp hmem
    rw [(ht.sorted.rank_eq hc hp heq).2]
    exact hat i k p hp heq index key value
  · intro k hne index
    rw [dictGet_ok hc ht, gotten, find_eq_none.mpr hne]
    rfl
  · intro i hi
    have hp := List.getElem?_eq_getElem hi
    exact ⟨_, List.getElem_mem hi, fun key value index =>
      ⟨(hat i _ _ hp (hc.refl _) (some index) key value).2,
        (hat i _ _ hp (hc.refl _) (some index) key value).1⟩⟩

theorem dict_get_select_one_two : ∃ s, DictRun compareNat [(1, some 10), (2, some 20)] s ∧
    dictGet (some 2) (some 7) s = .ok (some 20, some 1) ∧
    dictSelect 1 (some none) (some none) s = .ok (0, some (some 2), some (some 20)) ∧
    dictGet (some 3) (some 7) s = .ok (none, some 7) := by
  obtain ⟨s, hrun, hpairs⟩ := dictRun_one_two
  obtain ⟨t, ht, -, hfound, hnone, -⟩ := dict_get_select totalOrder_compareNat hrun
  rw [hpairs t ht.stands] at hfound hnone
  obtain ⟨hget, hselect⟩ :=
    hfound 2 (2, some 20) (List.mem_cons_of_mem _ List.mem_cons_self) rfl (some 7) none none
  refine ⟨s, hrun, hget, hselect, hnone 3 (fun p hp => ?_) (some 7)⟩
  rcases List.mem_pair.mp hp with rfl | rfl <;> decide

/-- A traversal calls the action on the pairs in order, each in the state that
the one before left, up to and with the first call that fails; the calls are
on the pairs that `dict_select` numbers. -/
theorem dict_for_each_calls {σ : Type} (hrun : DictRun compar puts s) :
    ∃ t, DictStands compar s t ∧ (TotalOrder compar → Sorted compar (pairs t)) ∧
      ∀ (action : DictAction K V σ) state, ∃ done rest status, pairs t = done ++ rest ∧
        dictForEach (some action) state s = .ok (status, stateAfter action done state) ∧
        dictForEach (some (logged action)) (state, []) s
          = .ok (status, stateAfter action done state, done.map fun p => (some p.1, p.2)) ∧
        StopsWith status (statuses action done state) rest ∧
        ∀ (k : Nat) p, done[k]? = some p → ∀ key value,
          dictSelect k (some key) (some value) s = .ok (0, some (some p.1), some p.2) := by
  obtain ⟨t, ht⟩ := stands_of_dictRun hrun
  have hlen := length_pairs t
  have hfits := ht.fits
  have hmin : INT_MIN ≤ 0 := by decide
  refine ⟨t, ht, fun hc => ?_, fun action state => ?_⟩
  · obtain ⟨t', ht'⟩ := holds_of_dictRun hc hrun
    rw [ht.unique ht'.stands]
    exact ht'.sorted
  · obtain ⟨done, rest, status, hpairs, hvisit, hlog, hstop⟩ :=
      @visit_calls _ _ _ action (pairs t) state []
    refine ⟨done, rest, status, hpairs, ?_, ?_, hstop, fun k p hp key value => ?_⟩
    · rw [dictForEach_ok ht, hvisit]
    · rw [dictForEach_ok ht, hlog, List.nil_append]
    · have hk := (List.getElem?_eq_some_iff.mp hp).1
      have hle : done.length ≤ (pairs t).length := by
        rw [hpairs, List.length_append]
        exact Nat.le_add_right _ _
      refine dictSelect_some ht (by omega) (by omega) ?_
      rw [fromStart, if_neg (not_lt.mpr (Int.natCast_nonneg k)), pairAt_natCast, hpairs,
        List.getElem?_append_left hk, hp]

/-- The action that counts its calls and fails on the first key. -/
def failAtOne : DictAction Nat Nat Nat :=
  fun key _ calls => (if key = some 1 then 5 else 0, calls + 1)

theorem dict_for_each_calls_one_two : ∃ s, DictRun compareNat [(1, some 10), (2, some 20)] s ∧
    dictForEach (some (logged failAtOne)) (0, []) s = .ok (5, 1, [(some 1, some 10)]) := by
  obtain ⟨s, hrun, hpairs⟩ := dictRun_one_two
  obtain ⟨t, ht, -, hcalls⟩ := dict_for_each_calls hrun
  obtain ⟨done, rest, status, hsplit, -, hlog, hstop, -⟩ := hcalls failAtOne 0
  rw [hpairs t ht] at hsplit
  refine ⟨s, hrun, hlog.trans ?_⟩
  cases done with
  | nil =>
      rcases hstop with ⟨-, hrest, -⟩ | ⟨-, k, hseen⟩
      · rw [hrest] at hsplit
        cases hsplit
      · exact absurd hseen.symm (List.append_ne_nil_of_right_ne_nil _ (List.cons_ne_nil _ _))
  | cons p done =>
      obtain rfl : (1, some 10) = p := (List.cons.inj hsplit).1
      rcases hstop with ⟨-, -, hseen⟩ | ⟨-, k, hseen⟩
      · exact absurd (List.cons.inj hseen).1 (by decide)
      · cases k with
        | succ k => exact absurd (List.cons.inj hseen).1 (by decide)
        | zero =>
            obtain ⟨rfl, hnone⟩ := List.cons.inj hseen
            cases done with
            | nil => rfl
            | cons q done => cases hnone

end Reachable

end Jccl
