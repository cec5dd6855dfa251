/-
# `Jccl.List.Seq` — the list is a sequence

The invariant says that the two ends of a `struct list` hold a segment whose
nodes are all there is in the heap (`Holds`).  An insertion links a fresh
node between two parts of the segment and a removal cuts one out from between
them; the special cases of the code at the ends are those where one of the
parts is empty.
-/
import Jccl.List.Linked

namespace Jccl

open Segment

variable {E : Type}

/-- The `struct list` of a segment. -/
def listOf (ps : Segment E) : CList :=
  { head := first ps none, tail := last ps none, nelement := ps.length }

@[simp] theorem listOf_head (ps : Segment E) : (listOf ps).head = first ps none := rfl

@[simp] theorem listOf_tail (ps : Segment E) : (listOf ps).tail = last ps none := rfl

@[simp] theorem listOf_nelement (ps : Segment E) : (listOf ps).nelement = ps.length := rfl

/-- The list holds the segment, which is the whole heap. -/
structure Holds (s : ListState E) (ps : Segment E) : Prop where
  list : s.list = some (listOf ps)
  linked : Linked s.heap none none ps
  nodup : (addrs ps).Nodup
  whole : ∀ a, s.heap a ≠ none → a ∈ addrs ps
  fits : (ps.length : Int) ≤ INT_MAX

/-- A state that holds a segment after a node was linked in. -/
theorem Holds.linkedIn {s : ListState E} (xs ys : Segment E) (h : Holds s (xs ++ ys)) {a : Addr}
    (hfresh : s.heap a = none) (e : E) (hfits : ((xs ++ ys).length : Int) < INT_MAX) :
    Holds { list := some (listOf (xs ++ (a, e) :: ys)), heap := Jccl.linkedIn s.heap xs a e ys }
      (xs ++ (a, e) :: ys) := by
  have hmem : a ∉ addrs (xs ++ ys) := fun ha => by
    obtain ⟨n, hn⟩ := linked_live h.linked ha
    rw [hfresh] at hn
    cases hn
  have hperm : (addrs (xs ++ (a, e) :: ys)).Perm (a :: addrs (xs ++ ys)) := by
    rw [addrs_append, addrs_cons, addrs_append]
    exact List.perm_middle
  have hlen : (xs ++ (a, e) :: ys).length = (xs ++ ys).length + 1 := by simp [add_assoc]
  exact
    { list := rfl
      linked := linked_linkedIn h.linked h.nodup hmem e
      nodup := hperm.nodup_iff.mpr (List.nodup_cons.mpr ⟨hmem, h.nodup⟩)
      whole := fun b hb => by
        rw [Jccl.linkedIn, Ne, setPrevious_eq_none, setNext_eq_none] at hb
        by_cases hba : b = a
        · exact hperm.mem_iff.mpr (hba ▸ List.mem_cons_self)
        · rw [Heap.update_of_ne _ hba] at hb
          exact hperm.mem_iff.mpr (List.mem_cons_of_mem _ (h.whole b hb))
      fits := by rw [hlen]; push_cast; omega }

theorem Holds.cutOut {s : ListState E} (xs ys : Segment E) {a : Addr} {e : E}
    (h : Holds s (xs ++ (a, e) :: ys)) :
    Holds { list := some (listOf (xs ++ ys)), heap := Jccl.cutOut s.heap xs a ys } (xs ++ ys) := by
  have hperm : (addrs (xs ++ (a, e) :: ys)).Perm (a :: addrs (xs ++ ys)) := by
    rw [addrs_append, addrs_cons, addrs_append]
    exact List.perm_middle
  have hlen : (xs ++ (a, e) :: ys).length = (xs ++ ys).length + 1 := by simp [add_assoc]
  have hfits := h.fits
  exact
    { list := rfl
      linked := linked_cutOut h.linked h.nodup
      nodup := (List.nodup_cons.mp (hperm.nodup_iff.mp h.nodup)).2
      whole := fun b (hb : Jccl.cutOut s.heap xs a ys b ≠ none) => by
        by_cases hba : b = a
        · exact absurd (by rw [hba, Jccl.cutOut, Function.update_self]) hb
        · rw [Jccl.cutOut, Heap.update_of_ne _ hba, Ne, setPrevious_eq_none, setNext_eq_none] at hb
          exact (List.mem_cons.mp (hperm.mem_iff.mp (h.whole b hb))).resolve_left hba
      fits := by rw [hlen] at hfits; push_cast at hfits; omega }

/-! ## The code -/

theorem length_concat (ps : Segment E) (p : Addr × E) :
    ((ps ++ [p]).length : Int) = ps.length + 1 := by
  rw [List.length_append]
  rfl

section Code

variable {s : ListState E} {ps : Segment E}

theorem first_eq_none : first ps none = none ↔ ps = [] := by
  cases ps <;> simp

theorem last_eq_none : last ps none = none ↔ ps = [] := by
  obtain rfl | ⟨ps, p, rfl⟩ := ps.eq_nil_or_concat' <;> simp

theorem listAddnode_ok (list : CList) {h : Heap (ListNode E)} {answer : Option Addr} {a : Addr}
    (e : E) {n : Nat} (hn : list.nelement = n) (hfits : (n : Int) < INT_MAX)
    (ha : h.malloc answer { next := none, previous := none, element := some e }
      = (some a, Function.update h a
          (some { next := none, previous := none, element := some e }))) :
    listAddnode list (some e) answer h
      = .ok (some a, { list with nelement := n + 1 }, Function.update h a
          (some { next := none, previous := none, element := some e })) := by
  have hmin : INT_MIN ≤ 0 := by decide
  rw [listAddnode, ha]
  simp only [hn, checkInt_of (x := (n : Int) + 1) ⟨by omega, by omega⟩, Outcome.ok_bind]
  rfl

theorem listDelnode_ok {list : CList} {h : Heap (ListNode E)} {a : Addr} {node : ListNode E}
    (hnode : h a = some node) {n : Nat} (hn : list.nelement = n + 1) (hfits : (n : Int) ≤ INT_MAX) :
    listDelnode list (some a) h
      = .ok ({ list with nelement := n }, Function.update h a none) := by
  have hmin : INT_MIN ≤ 0 := by decide
  have hcheck : checkInt (list.nelement - 1) = .ok (n : Int) := by
    rw [hn, Int.add_sub_cancel]
    exact checkInt_of ⟨by omega, hfits⟩
  rw [listDelnode, Heap.free_some hnode, Outcome.ok_bind, hcheck]
  rfl

theorem listPrepend_ok (h : Holds s ps) (e : E) {answer : Option Addr}
    (hg : s.heap.grants answer = true) (hfits : (ps.length : Int) < INT_MAX) :
    ∃ a s', listPrepend (some e) answer s = .ok (0, s') ∧ Holds s' ((a, e) :: ps) := by
  obtain ⟨a, rfl, hfresh, hmalloc⟩ := Heap.malloc_of_grants
    (n := { next := none, previous := none, element := some e }) hg
  have hadd := listAddnode_ok (listOf ps) e rfl hfits hmalloc
  refine ⟨a, _, ?_, Holds.linkedIn [] ps h hfresh e hfits⟩
  rw [listPrepend, h.list]
  simp only [Option.isNone_some, Bool.false_eq_true, if_false, hadd, Outcome.ok_bind, reduceCtorEq]
  rw [Heap.modify_some _ (Function.update_self ..), Outcome.ok_bind,
    Heap.load_some (Function.update_self ..), Outcome.ok_bind]
  simp only [Function.update_idem, listOf_head]
  cases ps with
  | nil => rfl
  | cons p ps =>
      have hne : p.1 ≠ a := fun hpa => by
        have hp := h.linked.1
        rw [hpa, hfresh] at hp
        cases hp
      have hp : Function.update s.heap a
          (some { next := first (p :: ps) none, previous := none, element := some e }) p.1 = _ :=
        (Heap.update_of_ne _ hne).trans h.linked.1
      simp only [first_cons, reduceCtorEq, if_false] at hp ⊢
      rw [modify_previous hp]
      rfl

theorem listAppend_ok (h : Holds s ps) (e : E) {answer : Option Addr}
    (hg : s.heap.grants answer = true) (hfits : (ps.length : Int) < INT_MAX) :
    ∃ a s', listAppend (some e) answer s = .ok (0, s') ∧ Holds s' (ps ++ [(a, e)]) := by
  obtain ⟨a, rfl, hfresh, hmalloc⟩ := Heap.malloc_of_grants
    (n := { next := none, previous := none, element := some e }) hg
  have hadd := listAddnode_ok (listOf ps) e rfl hfits hmalloc
  have h' : Holds s (ps ++ []) := (List.append_nil ps).symm ▸ h
  refine ⟨a, _, ?_, h'.linkedIn ps [] hfresh e (by rwa [List.append_nil])⟩
  rw [listAppend, h.list]
  simp only [Option.isNone_some, Bool.false_eq_true, if_false, hadd, Outcome.ok_bind, reduceCtorEq]
  rw [Heap.modify_some _ (Function.update_self ..), Outcome.ok_bind,
    Heap.load_some (Function.update_self ..), Outcome.ok_bind]
  simp only [Function.update_idem, listOf_tail]
  obtain rfl | ⟨ps, p, rfl⟩ := ps.eq_nil_or_concat'
  · rfl
  · have hlinked := ((linked_append ps [p]).mp h.linked).2.1
    have hne : p.1 ≠ a := fun hpa => by
      rw [hpa, hfresh] at hlinked
      cases hlinked
    have hp : Function.update s.heap a
        (some { next := none, previous := last (ps ++ [p]) none, element := some e }) p.1 = _ :=
      (Heap.update_of_ne _ hne).trans hlinked
    simp only [last_append_cons, reduceCtorEq, if_false] at hp ⊢
    rw [modify_next hp]
    have hlist : listOf (ps ++ [p] ++ [(a, e)])
        = { head := first (ps ++ [p]) none, tail := some a, nelement := (ps ++ [p]).length + 1 } := by
      rw [listOf, last_append_cons, first_append, length_concat]
      simp [first_append]
    rw [hlist]
    simp only [linkedIn, first_nil, last_append_cons]
    rfl

/-- A call that adds an element and is refused a node changes nothing. -/
theorem listPrepend_refused (h : Holds s ps) (e : E) {answer : Option Addr}
    (hg : s.heap.grants answer = false) : listPrepend (some e) answer s = .ok (ENOMEM, s) := by
  rw [listPrepend, h.list]
  simp only [listAddnode, Heap.malloc_of_not_grants hg, Outcome.ok_bind]
  rfl

theorem listAppend_refused (h : Holds s ps) (e : E) {answer : Option Addr}
    (hg : s.heap.grants answer = false) : listAppend (some e) answer s = .ok (ENOMEM, s) := by
  rw [listAppend, h.list]
  simp only [listAddnode, Heap.malloc_of_not_grants hg, Outcome.ok_bind]
  rfl

theorem listShift_ok {a : Addr} {e : E} (h : Holds s ((a, e) :: ps)) :
    ∃ s', listShift s = .ok (some e, s') ∧ Holds s' ps := by
  have hnode := h.linked.1
  have hfits : (ps.length : Int) ≤ INT_MAX := le_trans (by simp) h.fits
  refine ⟨_, ?_, Holds.cutOut [] ps h⟩
  rw [listShift, h.list]
  simp only [listOf_head, first_cons, reduceCtorEq, if_false, Heap.load_some hnode, Outcome.ok_bind]
  cases ps with
  | nil =>
      simp only [first_nil, if_true]
      rw [listDelnode_ok hnode (n := 0) ?_ hfits]
      · rfl
      · rfl
  | cons p ps =>
      have hne : a ≠ p.1 := fun hap => (List.nodup_cons.mp h.nodup).1 (hap ▸ List.mem_cons_self)
      have hnode' : setPrevious s.heap (some p.1) none a = _ :=
        (setPrevious_of_ne (by simpa using hne.symm)).trans hnode
      simp only [first_cons, reduceCtorEq, if_false]
      rw [modify_previous h.linked.2.1, Outcome.ok_bind,
        listDelnode_ok hnode' (n := (p :: ps).length) rfl hfits]
      rfl

theorem listPop_ok {a : Addr} {e : E} (h : Holds s (ps ++ [(a, e)])) :
    ∃ s', listPop s = .ok (some e, s') ∧ Holds s' ps := by
  have hnode := ((linked_append ps [(a, e)]).mp h.linked).2.1
  have hfits : (ps.length : Int) ≤ INT_MAX := le_trans (by simp) h.fits
  have h' := h.cutOut ps []
  simp only [List.append_nil] at h'
  refine ⟨_, ?_, h'⟩
  rw [listPop, h.list]
  simp only [listOf_tail, last_append_cons, reduceCtorEq, if_false, Heap.load_some hnode,
    Outcome.ok_bind]
  obtain rfl | ⟨ps, p, rfl⟩ := ps.eq_nil_or_concat'
  · simp only [last_nil, if_true]
    rw [listDelnode_ok hnode (n := 0) ?_ hfits]
    · rfl
    · rfl
  · have hp := ((linked_append ps [p]).mp ((linked_append _ _).mp h.linked).1).2.1
    have hne : p.1 ≠ a := fun hpa => by
      have hnd := h.nodup
      rw [addrs_append, List.nodup_append] at hnd
      exact hnd.2.2 p.1 (by simp) a (by simp) hpa
    have hnode' : setNext s.heap (some p.1) none a = _ :=
      (setNext_of_ne (by simpa using hne)).trans hnode
    simp only [last_append_cons, reduceCtorEq, if_false]
    rw [modify_next hp, Outcome.ok_bind,
      listDelnode_ok hnode' (n := (ps ++ [p]).length) ?_ hfits, Outcome.ok_bind]
    · simp only [listOf, cutOut, first_append, last_append_cons, first_cons, first_nil]
      rfl
    · exact length_concat (ps ++ [p]) (a, e)

/-! ### Removal of an element -/

section Remove

variable [DecidableEq E]

theorem listFind_found {h : Heap (ListNode E)} {xs ys : Segment E} {a : Addr} {e : E}
    {previous : Option Addr} (hl : Linked h previous none (xs ++ (a, e) :: ys))
    (he : e ∉ elements xs) {fuel : Nat} (hfuel : xs.length < fuel) :
    listFind (some e) h fuel (first (xs ++ (a, e) :: ys) none) = .ok (some a) := by
  induction xs generalizing previous fuel with
  | nil =>
      obtain ⟨fuel, rfl⟩ := Nat.exists_eq_succ_of_ne_zero (Nat.ne_of_gt hfuel)
      simp [listFind, Heap.load_some hl.1]
  | cons p xs ih =>
      obtain ⟨fuel, rfl⟩ := Nat.exists_eq_succ_of_ne_zero (Nat.ne_of_gt (Nat.zero_lt_of_lt hfuel))
      obtain ⟨hp, hxs⟩ := not_or.mp (fun h => he (List.mem_cons.mpr h))
      have hne : (some p.2 : Option E) ≠ some e := fun heq => hp (Option.some.inj heq).symm
      have hrec := ih hl.2 hxs (Nat.lt_of_succ_lt_succ hfuel)
      simp only [List.cons_append, first_cons, listFind, reduceCtorEq, if_false,
        Heap.load_some hl.1, Outcome.ok_bind, if_pos hne]
      exact hrec

theorem listFind_none {h : Heap (ListNode E)} {e : E} {previous : Option Addr}
    (hl : Linked h previous none ps) (he : e ∉ elements ps) {fuel : Nat}
    (hfuel : ps.length < fuel) : listFind (some e) h fuel (first ps none) = .ok none := by
  induction ps generalizing previous fuel with
  | nil =>
      obtain ⟨fuel, rfl⟩ := Nat.exists_eq_succ_of_ne_zero (Nat.ne_of_gt hfuel)
      simp [listFind]
  | cons p ps ih =>
      obtain ⟨fuel, rfl⟩ := Nat.exists_eq_succ_of_ne_zero (Nat.ne_of_gt (Nat.zero_lt_of_lt hfuel))
      obtain ⟨hp, hps⟩ := not_or.mp (fun h => he (List.mem_cons.mpr h))
      have hne : (some p.2 : Option E) ≠ some e := fun heq => hp (Option.some.inj heq).symm
      have hrec := ih hl.2 hps (Nat.lt_of_succ_lt_succ hfuel)
      simp only [first_cons, listFind, reduceCtorEq, if_false, Heap.load_some hl.1,
        Outcome.ok_bind, if_pos hne, hrec]

theorem listRemove_notMem (h : Holds s ps) {e : E} (he : e ∉ elements ps) :
    listRemove (some e) s = .ok (EADDRNOTAVAIL, s) := by
  have hfind := listFind_none h.linked he (Nat.lt_succ_self _)
  rw [listRemove, h.list]
  cases ps with
  | nil => rfl
  | cons p ps =>
      have hne : (some p.2 : Option E) ≠ some e := fun heq =>
        he (List.mem_cons.mpr (.inl (Option.some.inj heq).symm))
      simp only [Option.isNone_some, Bool.false_eq_true, if_false, listOf_head, first_cons,
        reduceCtorEq, Heap.load_some h.linked.1, Outcome.ok_bind, if_neg hne, listOf_nelement,
        Int.toNat_natCast] at hfind ⊢
      rw [hfind]
      rfl

theorem listRemove_head {a : Addr} {e : E} (h : Holds s ((a, e) :: ps)) :
    ∃ s', listRemove (some e) s = .ok (0, s') ∧ Holds s' ps := by
  have hnode := h.linked.1
  have hfits : (ps.length : Int) ≤ INT_MAX := le_trans (by simp) h.fits
  refine ⟨_, ?_, Holds.cutOut [] ps h⟩
  rw [listRemove, h.list]
  simp only [Option.isNone_some, Bool.false_eq_true, if_false, listOf_head, first_cons,
    reduceCtorEq, Heap.load_some hnode, Outcome.ok_bind, if_true]
  cases ps with
  | nil =>
      simp only [first_nil, if_true]
      rw [listDelnode_ok hnode (n := 0) ?_ hfits]
      · rfl
      · rfl
  | cons p ps =>
      have hne : a ≠ p.1 := fun hap => (List.nodup_cons.mp h.nodup).1 (hap ▸ List.mem_cons_self)
      have hnode' : setPrevious s.heap (some p.1) none a = _ :=
        (setPrevious_of_ne (by simpa using hne.symm)).trans hnode
      simp only [first_cons, reduceCtorEq, if_false]
      rw [modify_previous h.linked.2.1, Outcome.ok_bind,
        listDelnode_ok hnode' (n := (p :: ps).length) rfl hfits]
      rfl

theorem listRemove_inner {xs ys : Segment E} {p : Addr × E} {a : Addr} {e : E}
    (h : Holds s (xs ++ [p] ++ (a, e) :: ys)) (he : e ∉ elements (xs ++ [p])) :
    ∃ s', listRemove (some e) s = .ok (0, s') ∧ Holds s' (xs ++ [p] ++ ys) := by
  have hfind := listFind_found h.linked he (Nat.lt_succ_of_le (by simp) :
    (xs ++ [p]).length < (xs ++ [p] ++ (a, e) :: ys).length + 1)
  have hsplit := (linked_append _ _).mp h.linked
  have hp := ((linked_append xs [p]).mp hsplit.1).2.1
  have hnode := hsplit.2.1
  have hnd := h.nodup
  rw [addrs_append, addrs_cons, List.nodup_append, List.nodup_cons] at hnd
  have hpa : p.1 ≠ a := hnd.2.2 p.1 (by simp) a List.mem_cons_self
  have hcut := h.cutOut (xs ++ [p]) ys
  refine ⟨_, ?_, hcut⟩
  obtain ⟨q, n, hq, hn, hne⟩ := exists_first (List.append_ne_nil_of_right_ne_nil xs
    (List.cons_ne_nil p [])) hsplit.1 he
  have hfirst : first (xs ++ [p] ++ (a, e) :: ys) none = some q := hq _
  have hfirst' : first (xs ++ [p] ++ ys) none = some q := hq ys
  -- the neighbour before is told, and the node itself is still what it was
  have hnode' : setNext s.heap (some p.1) (first ys none) a = _ :=
    (setNext_of_ne (by simpa using hpa)).trans hnode
  rw [listRemove, h.list]
  simp only [Option.isNone_some, Bool.false_eq_true, if_false, listOf_head, hfirst, reduceCtorEq,
    Heap.load_some hn, Outcome.ok_bind, if_neg hne, listOf_nelement, Int.toNat_natCast] at hfind ⊢
  simp only [hfind, Outcome.ok_bind, reduceCtorEq, if_false, Heap.load_some hnode]
  rw [last_append_cons] at hnode hnode' ⊢
  rw [modify_next hp, Outcome.ok_bind, Heap.load_some hnode', Outcome.ok_bind]
  have hlen : ((xs ++ [p] ++ (a, e) :: ys).length : Int) = (xs ++ [p] ++ ys).length + 1 := by
    simp only [List.length_append, List.length_cons, List.length_nil]
    push_cast
    ring
  cases ys with
  | nil =>
      simp only [first_nil, if_true] at hnode' ⊢
      rw [List.append_nil] at hfirst'
      rw [listDelnode_ok hnode' ?_ hcut.fits, Outcome.ok_bind]
      · simp only [listOf, hfirst', List.append_nil, last_append_cons, first_nil, cutOut]
        rfl
      · exact hlen
  | cons y ys =>
      have hpy : p.1 ≠ y.1 := hnd.2.2 p.1 (by simp) y.1 (by simp)
      have hay : a ≠ y.1 := fun hay => hnd.2.1.1 (hay ▸ List.mem_cons_self)
      have hy : setNext s.heap (some p.1) (some y.1) y.1 = _ :=
        (setNext_of_ne (by simpa using hpy)).trans hsplit.2.2.1
      have hnode'' : setPrevious (setNext s.heap (some p.1) (some y.1)) (some y.1) (some p.1) a = _ :=
        (setPrevious_of_ne (by simpa using hay.symm)).trans hnode'
      simp only [first_cons, reduceCtorEq, if_false]
      rw [modify_previous hy, Outcome.ok_bind, listDelnode_ok hnode'' ?_ hcut.fits, Outcome.ok_bind]
      · simp only [listOf, hfirst, hfirst', last_append, last_cons, last_nil, first_cons, cutOut]
        rfl
      · exact hlen

/-- The first occurrence is removed, wherever it is. -/
theorem listRemove_ok {xs ys : Segment E} {a : Addr} {e : E} (h : Holds s (xs ++ (a, e) :: ys))
    (he : e ∉ elements xs) :
    ∃ s', listRemove (some e) s = .ok (0, s') ∧ Holds s' (xs ++ ys) := by
  obtain rfl | ⟨xs, p, rfl⟩ := xs.eq_nil_or_concat'
  · exact listRemove_head h
  · exact listRemove_inner h he

end Remove

end Code

end Jccl
