/-
# `Jccl.List.Pool` — several lists in one memory

Any number of lists have their nodes in one heap.  The functions of `list.c`
look at the nodes of the list they are given and at no others, so what was
found of one list that has the memory to itself is so of each of several
lists: a call does to its list what the operation does to a sequence, leaves
the other lists as they are, and `list_free` gives back the nodes of its list
and no others.
-/
import Jccl.Lib.Frame
import Jccl.List.Run

namespace Jccl

open Heap

variable {E : Type}

/-! ## The calls beside nodes of other lists -/

def ListState.beside (s : ListState E) (r : Heap (ListNode E)) : ListState E :=
  { s with heap := s.heap.beside r }

/-- What a call comes to, and what it comes to beside other nodes. -/
def FramedState {α : Type} (r : Heap (ListNode E)) (x y : α × ListState E) : Prop :=
  y = (x.1, x.2.beside r) ∧ Apart x.2.heap r

section Calls

variable {s : ListState E} {h r : Heap (ListNode E)}

theorem framed_addnode (hr : Apart h r) (list : CList) (element : Option E) (answer : Option Addr) :
    Framed (fun x y => y = (x.1, x.2.1, x.2.2.beside r) ∧ Apart x.2.2 r)
      (listAddnode list element (mask r answer) h) (listAddnode list element answer (h.beside r)) := by
  obtain ⟨hmalloc, hapart⟩ := malloc_beside hr answer
    ({ next := none, previous := none, element := element } : ListNode E)
  rw [listAddnode, listAddnode, hmalloc]
  cases hm : malloc h (mask r answer) _ with
  | mk node h' =>
      rw [hm] at hapart
      cases node with
      | none => exact .ok ⟨rfl, hapart⟩
      | some a => exact framed_bind_same fun nelement => .ok ⟨rfl, hapart⟩

theorem framed_delnode (hr : Apart h r) (list : CList) (node : Option Addr) :
    Framed (fun x y => y = (x.1, x.2.beside r) ∧ Apart x.2 r)
      (listDelnode list node h) (listDelnode list node (h.beside r)) := by
  refine (framed_free hr node).bind ?_
  rintro h' _ ⟨rfl, hr'⟩
  exact framed_bind_same fun nelement => .ok ⟨rfl, hr'⟩

theorem framed_prepend (hr : Apart s.heap r) (element : Option E) (answer : Option Addr) :
    Framed (FramedState r) (listPrepend element (mask r answer) s)
      (listPrepend element answer (s.beside r)) := by
  obtain ⟨list, h⟩ := s
  unfold listPrepend
  cases list with
  | none => exact .ok ⟨rfl, hr⟩
  | some list =>
      refine framed_ite (.ok ⟨rfl, hr⟩) ?_
      refine (framed_addnode hr list element answer).bind ?_
      rintro ⟨np, list', h'⟩ _ ⟨rfl, hr'⟩
      refine framed_ite (.ok ⟨rfl, hr⟩) ?_
      refine (framed_modify hr' np _).bind ?_
      rintro h₁ _ ⟨rfl, hr₁⟩
      refine (framed_load np).bind ?_
      rintro node _ rfl
      refine framed_ite (.ok ⟨rfl, hr₁⟩) ?_
      refine (framed_modify hr₁ node.next _).bind ?_
      rintro h₂ _ ⟨rfl, hr₂⟩
      exact .ok ⟨rfl, hr₂⟩

theorem framed_append (hr : Apart s.heap r) (element : Option E) (answer : Option Addr) :
    Framed (FramedState r) (listAppend element (mask r answer) s)
      (listAppend element answer (s.beside r)) := by
  obtain ⟨list, h⟩ := s
  unfold listAppend
  cases list with
  | none => exact .ok ⟨rfl, hr⟩
  | some list =>
      refine framed_ite (.ok ⟨rfl, hr⟩) ?_
      refine (framed_addnode hr list element answer).bind ?_
      rintro ⟨np, list', h'⟩ _ ⟨rfl, hr'⟩
      refine framed_ite (.ok ⟨rfl, hr⟩) ?_
      refine (framed_modify hr' np _).bind ?_
      rintro h₁ _ ⟨rfl, hr₁⟩
      refine (framed_load np).bind ?_
      rintro node _ rfl
      refine framed_ite (.ok ⟨rfl, hr₁⟩) ?_
      refine (framed_modify hr₁ node.previous _).bind ?_
      rintro h₂ _ ⟨rfl, hr₂⟩
      exact .ok ⟨rfl, hr₂⟩

/-- The node that a call takes out of its list. -/
theorem framed_take {α : Type} (hr : Apart h r) (list : CList) (node : Option Addr) (a : α) :
    Framed (FramedState r)
      (do let (list', h) ← listDelnode list node h
          return (a, ({ list := some list', heap := h } : ListState E)))
      (do let (list', h) ← listDelnode list node (h.beside r)
          return (a, ({ list := some list', heap := h } : ListState E))) := by
  refine (framed_delnode hr list node).bind ?_
  rintro ⟨list', h'⟩ _ ⟨rfl, hr'⟩
  exact .ok ⟨rfl, hr'⟩

theorem framed_shift (hr : Apart s.heap r) :
    Framed (FramedState r) (listShift s) (listShift (s.beside r)) := by
  obtain ⟨list, h⟩ := s
  unfold listShift
  cases list with
  | none => exact .ok ⟨rfl, hr⟩
  | some list =>
      refine framed_ite (.ok ⟨rfl, hr⟩) ?_
      refine (framed_load list.head).bind ?_
      rintro node _ rfl
      refine framed_ite (framed_take hr _ _ _) ?_
      refine (framed_modify hr node.next _).bind ?_
      rintro h' _ ⟨rfl, hr'⟩
      exact framed_take hr' _ _ _

theorem framed_pop (hr : Apart s.heap r) :
    Framed (FramedState r) (listPop s) (listPop (s.beside r)) := by
  obtain ⟨list, h⟩ := s
  unfold listPop
  cases list with
  | none => exact .ok ⟨rfl, hr⟩
  | some list =>
      refine framed_ite (.ok ⟨rfl, hr⟩) ?_
      refine (framed_load list.tail).bind ?_
      rintro node _ rfl
      refine framed_ite (framed_take hr _ _ _) ?_
      refine (framed_modify hr node.previous _).bind ?_
      rintro h' _ ⟨rfl, hr'⟩
      exact framed_take hr' _ _ _

theorem framed_freeLoop (hr : Apart s.heap r) (fuel : Nat) :
    Framed (fun t t' => t' = t.beside r ∧ Apart t.heap r) (listFreeLoop fuel s)
      (listFreeLoop fuel (s.beside r)) := by
  induction fuel generalizing s with
  | zero => exact .fault
  | succ fuel ih =>
      refine (framed_pop hr).bind ?_
      rintro ⟨element, t⟩ _ ⟨rfl, ht⟩
      exact framed_ite (ih ht) (.ok ⟨rfl, ht⟩)

variable [DecidableEq E]

theorem framed_find (element : Option E) (fuel : Nat) (np : Option Addr) :
    Framed Eq (listFind element h fuel np) (listFind element (h.beside r) fuel np) := by
  induction fuel generalizing np with
  | zero => exact .fault
  | succ fuel ih =>
      refine framed_ite (.ok rfl) ?_
      refine (framed_load np).bind ?_
      rintro node _ rfl
      exact framed_ite (ih node.next) (.ok rfl)

theorem framed_remove (hr : Apart s.heap r) (element : Option E) :
    Framed (FramedState r) (listRemove element s) (listRemove element (s.beside r)) := by
  obtain ⟨list, h⟩ := s
  unfold listRemove
  cases list with
  | none => exact .ok ⟨rfl, hr⟩
  | some list =>
      refine framed_ite (.ok ⟨rfl, hr⟩) (framed_ite (.ok ⟨rfl, hr⟩) ?_)
      refine (framed_load list.head).bind ?_
      rintro first _ rfl
      refine framed_ite ?_ ?_
      -- the first node
      · refine framed_ite (framed_take hr _ _ _) ?_
        refine (framed_modify hr first.next _).bind ?_
        rintro h' _ ⟨rfl, hr'⟩
        exact framed_take hr' _ _ _
      -- a later one, or none
      · refine (framed_find element _ list.head).bind ?_
        rintro np _ rfl
        refine framed_ite (.ok ⟨rfl, hr⟩) ?_
        refine (framed_load np).bind ?_
        rintro node _ rfl
        refine (framed_modify hr node.previous _).bind ?_
        rintro h₁ _ ⟨rfl, hr₁⟩
        refine (framed_load np).bind ?_
        rintro node' _ rfl
        refine framed_ite (framed_take hr₁ _ _ _) ?_
        refine (framed_modify hr₁ node'.next _).bind ?_
        rintro h₂ _ ⟨rfl, hr₂⟩
        exact framed_take hr₂ _ _ _

/-- The call as it is to a list that does not know of the other nodes. -/
def ListOp.mask (r : Heap (ListNode E)) : ListOp E → ListOp E
  | .prepend element answer => .prepend element (Heap.mask r answer)
  | .append element answer => .append element (Heap.mask r answer)
  | op => op

omit [DecidableEq E] in
theorem Framed.answer {α : Type} {x y : Outcome (α × ListState E)} (f : α → ListAnswer E)
    (h : Framed (FramedState r) x y) :
    Framed (FramedState r) (do let (a, t) ← x; return (f a, t)) (do let (a, t) ← y; return (f a, t)) := by
  refine h.bind ?_
  rintro ⟨a, t⟩ _ ⟨rfl, ht⟩
  exact .ok ⟨rfl, ht⟩

theorem framed_listStep (hr : Apart s.heap r) (op : ListOp E) :
    Framed (FramedState r) (listStep (op.mask r) s) (listStep op (s.beside r)) := by
  cases op with
  | prepend element answer => exact (framed_prepend hr element answer).answer .status
  | append element answer => exact (framed_append hr element answer).answer .status
  | remove element => exact (framed_remove hr element).answer .status
  | shift => exact (framed_shift hr).answer .element
  | pop => exact (framed_pop hr).answer .element

omit [DecidableEq E] in
theorem granted_mask (op : ListOp E) (s : ListState E) (r : Heap (ListNode E)) :
    (op.mask r).granted s = op.granted (s.beside r) := by
  cases op with
  | prepend element answer => exact (grants_beside answer).symm
  | append element answer => exact (grants_beside answer).symm
  | remove element => rfl
  | shift => rfl
  | pop => rfl

omit [DecidableEq E] in
theorem adds_mask (op : ListOp E) (r : Heap (ListNode E)) : (op.mask r).adds = op.adds := by
  cases op <;> rfl

theorem seqStep_mask (granted : Bool) (op : ListOp E) (r : Heap (ListNode E)) (xs : List E) :
    seqStep granted (op.mask r) xs = seqStep granted op xs := by
  cases op with
  | prepend element answer => cases element <;> rfl
  | append element answer => cases element <;> rfl
  | remove element => rfl
  | shift => rfl
  | pop => rfl

end Calls

/-! ## The lists of a program -/

/-- What the pointers to the lists point to, if they are not NULL, and the heap of all. -/
structure ListPool (I E : Type) where
  lists : I → Option CList
  heap : Heap (ListNode E)

/-- Only a pointer that is NULL is assigned a new list. -/
inductive PoolOp (I E : Type) where
  | init (i : I) (granted : Bool)
  | free (i : I)
  | call (i : I) (op : ListOp E)

namespace ListPool

variable {I : Type}

def init : ListPool I E := { lists := fun _ => none, heap := Heap.empty }

/-- One of the lists. -/
def list (s : ListPool I E) (i : I) : ListState E := { list := s.lists i, heap := s.heap }

def put [DecidableEq I] (s : ListPool I E) (i : I) (t : ListState E) : ListPool I E :=
  { lists := Function.update s.lists i t.list, heap := t.heap }

end ListPool

/-- The pointer that the call is about. -/
def PoolOp.list {I : Type} : PoolOp I E → I
  | .init i _ | .free i | .call i _ => i

/-- Whether the call gets the node it may ask for. -/
def PoolOp.granted {I : Type} (s : ListPool I E) : PoolOp I E → Bool
  | .call i op => op.granted (s.list i)
  | _ => false

/-- What a call returns that is given NULL for the list. -/
def ListOp.nullAnswer : ListOp E → ListAnswer E
  | .prepend _ _ | .append _ _ | .remove _ => .status EINVAL
  | .shift | .pop => .element none

section Step

variable {I : Type} [DecidableEq I] [DecidableEq E]

/-- The loop of `list_free` is given one more step than there are elements. -/
def poolStep : PoolOp I E → ListPool I E → Outcome (Option (ListAnswer E) × ListPool I E)
  | .init i granted, s =>
      if (s.lists i).isNone then
        .ok (none, { s with lists := Function.update s.lists i (listInit granted) })
      else
        .ok (none, s)
  | .free i, s => do
      let t ← listFreeLoop ((listSize (s.list i)).toNat + 1) (s.list i)
      return (none, s.put i { list := none, heap := t.heap })
  | .call i op, s => do
      let (answer, t) ← listStep op (s.list i)
      return (some answer, s.put i t)

/-- The operation on the sequences, one for each pointer that is not NULL. -/
def poolSeqStep (granted : Bool) : PoolOp I E → (I → Option (List E)) →
    Option (ListAnswer E) × (I → Option (List E))
  | .init i true, xs => (none, if (xs i).isNone then Function.update xs i (some []) else xs)
  | .init _ false, xs => (none, xs)
  | .free i, xs => (none, Function.update xs i none)
  | .call i op, xs =>
      match xs i with
      | none => (some op.nullAnswer, xs)
      | some ys =>
          (some (seqStep granted op ys).1, Function.update xs i (some (seqStep granted op ys).2))

/-- A run has come to the state; the sequences are what its operations made. -/
inductive PoolRun : (I → Option (List E)) → ListPool I E → Prop
  | init : PoolRun (fun _ => none) ListPool.init
  | step {xs s op answer s'} : PoolRun xs s → poolStep op s = .ok (answer, s') →
      PoolRun (poolSeqStep (op.granted s) op xs).2 s'

/-- The call would exceed the counter of its list. -/
def PoolOp.Exceeds (s : ListPool I E) (xs : I → Option (List E)) : PoolOp I E → Prop
  | .call i op => op.adds = true ∧ op.granted (s.list i) = true ∧
      ∃ ys, xs i = some ys ∧ (ys.length : Int) = INT_MAX
  | _ => False

end Step

/-! ## Each list has its nodes -/

section Pool

variable {I : Type} {s : ListPool I E} {xs : I → Option (List E)} {own : I → Heap (ListNode E)}

/-- A list of the sequence, with just these nodes; or NULL, and no nodes. -/
inductive ListOwns : Option CList → Heap (ListNode E) → Option (List E) → Prop
  | null {h} : h = Heap.empty → ListOwns none h none
  | list {l h ps} : Holds { list := some l, heap := h } ps →
      ListOwns (some l) h (some (Segment.elements ps))

structure PoolHolds (s : ListPool I E) (own : I → Heap (ListNode E)) (xs : I → Option (List E)) :
    Prop where
  splits : Splits s.heap own
  owns : ∀ i, ListOwns (s.lists i) (own i) (xs i)

/-- The nodes are dealt out so that each list is well formed with its own, and
who has no list has no node. -/
structure PoolWellFormed (s : ListPool I E) (own : I → Heap (ListNode E))
    (xs : I → Option (List E)) : Prop where
  splits : Splits s.heap own
  list : ∀ i ys, xs i = some ys → ListWellFormed { list := s.lists i, heap := own i } ys
  null : ∀ i, xs i = none → s.lists i = none ∧ own i = Heap.empty

/-- The other lists, and their nodes, are what they were. -/
def PoolFrame (i : I) (s s' : ListPool I E) (own own' : I → Heap (ListNode E)) : Prop :=
  ∀ j, j ≠ i → s'.lists j = s.lists j ∧ own' j = own j

theorem ListOwns.of_none {l : Option CList} {h : Heap (ListNode E)} (hown : ListOwns l h none) :
    l = none ∧ h = Heap.empty := by
  cases hown with
  | null hh => exact ⟨rfl, hh⟩

theorem ListOwns.of_some {l : Option CList} {h : Heap (ListNode E)} {ys : List E}
    (hown : ListOwns l h (some ys)) :
    ∃ ps, Holds { list := l, heap := h } ps ∧ Segment.elements ps = ys := by
  cases hown with
  | list hps => exact ⟨_, hps, rfl⟩

theorem listOwns_of_holds {t : ListState E} {ps : Segment E} (hps : Holds t ps) :
    ListOwns t.list t.heap (some (Segment.elements ps)) := by
  obtain ⟨l, h⟩ := t
  cases l with
  | none => cases hps.list
  | some l => exact .list hps

theorem PoolHolds.of_none (h : PoolHolds s own xs) {i : I} (hi : xs i = none) :
    s.lists i = none ∧ own i = Heap.empty := by
  have hown := h.owns i
  rw [hi] at hown
  exact hown.of_none

theorem PoolHolds.of_some (h : PoolHolds s own xs) {i : I} {ys : List E} (hi : xs i = some ys) :
    ∃ ps, Holds { list := s.lists i, heap := own i } ps ∧ Segment.elements ps = ys := by
  have hown := h.owns i
  rw [hi] at hown
  exact hown.of_some

theorem PoolHolds.wellFormed (h : PoolHolds s own xs) : PoolWellFormed s own xs where
  splits := h.splits
  list i ys hi := by
    obtain ⟨ps, hps, rfl⟩ := h.of_some hi
    exact hps.wellFormed
  null i hi := h.of_none hi

theorem poolHolds_init : PoolHolds (ListPool.init : ListPool I E) (fun _ => Heap.empty)
    (fun _ => none) where
  splits :=
    { apart := fun _ _ _ _ => .inl rfl
      all := fun _ _ => ⟨fun h => (by cases h), fun ⟨_, h⟩ => (by cases h)⟩ }
  owns _ := .null rfl

/-- Who owns a list changes it, beside the nodes of the others. -/
theorem PoolHolds.put [DecidableEq I] (h : PoolHolds s own xs) {i : I} {t : ListState E}
    {y : Option (List E)} (hr : Apart t.heap (others s.heap (own i)))
    (ht : ListOwns t.list t.heap y) :
    PoolHolds (s.put i (t.beside (others s.heap (own i)))) (Function.update own i t.heap)
      (Function.update xs i y) where
  splits := h.splits.update hr
  owns j := by
    show ListOwns (Function.update s.lists i t.list j) _ _
    by_cases hj : j = i
    · subst hj
      rw [Function.update_self, Function.update_self, Function.update_self]
      exact ht
    · rw [Function.update_of_ne hj, Function.update_of_ne hj, Function.update_of_ne hj]
      exact h.owns j

theorem PoolFrame.refl (i : I) (s : ListPool I E) (own : I → Heap (ListNode E)) :
    PoolFrame i s s own own := fun _ _ => ⟨rfl, rfl⟩

theorem poolFrame_put [DecidableEq I] (i : I) (s : ListPool I E) (t : ListState E)
    (own : I → Heap (ListNode E)) (h' : Heap (ListNode E)) :
    PoolFrame i s (s.put i t) own (Function.update own i h') :=
  fun _ hj => ⟨Function.update_of_ne hj .., Function.update_of_ne hj ..⟩

theorem PoolHolds.list_eq (h : PoolHolds s own xs) (i : I) : s.list i
    = ListState.beside { list := s.lists i, heap := own i } (others s.heap (own i)) := by
  rw [ListPool.list, ListState.beside]
  exact congrArg _ (h.splits.beside i)

variable [DecidableEq I] [DecidableEq E]

omit [DecidableEq I] in
theorem listStep_null (op : ListOp E) (h : Heap (ListNode E)) :
    listStep op { list := none, heap := h } = .ok (op.nullAnswer, { list := none, heap := h }) := by
  cases op <;> rfl

omit [DecidableEq E] in
theorem ListPool.put_list (s : ListPool I E) (i : I) : s.put i (s.list i) = s := by
  rw [ListPool.put, ListPool.list, Function.update_eq_self]

/-- A call on a list, by what holds of one list that has the memory to itself. -/
theorem poolStep_call (h : PoolHolds s own xs) (i : I) (op : ListOp E)
    (hfits : ¬ (PoolOp.call i op).Exceeds s xs) :
    ∃ s' own', poolStep (.call i op) s
        = .ok ((poolSeqStep (op.granted (s.list i)) (.call i op) xs).1, s') ∧
      PoolHolds s' own' (poolSeqStep (op.granted (s.list i)) (.call i op) xs).2 ∧
      PoolFrame i s s' own own' := by
  cases hi : xs i with
  | none =>
      have hlist : s.lists i = none := (h.of_none hi).1
      refine ⟨s, own, ?_, ?_, .refl i s own⟩
      · have hrun : listStep op (s.list i) = .ok (op.nullAnswer, s.list i) := by
          rw [ListPool.list, hlist]
          exact listStep_null op s.heap
        rw [poolStep, hrun, poolSeqStep, hi]
        exact congrArg (fun t => Except.ok (some op.nullAnswer, t)) (s.put_list i)
      · rw [poolSeqStep, hi]
        exact h
  | some ys =>
      obtain ⟨ps, hps, rfl⟩ := h.of_some hi
      have hseq : poolSeqStep (op.granted (s.list i)) (.call i op) xs
          = (some (seqStep (op.granted (s.list i)) op (Segment.elements ps)).1, Function.update xs i
              (some (seqStep (op.granted (s.list i)) op (Segment.elements ps)).2)) := by
        rw [poolSeqStep, hi]
      -- beside the nodes of the other lists
      have hframed := framed_listStep (s := { list := s.lists i, heap := own i })
        (apart_others s.heap (own i)) op
      have hgranted := granted_mask op { list := s.lists i, heap := own i }
        (others s.heap (own i))
      rw [← h.list_eq i] at hframed hgranted
      obtain ⟨t, ps', hrun, ht, hys, -⟩ := holds_step hps (op.mask (others s.heap (own i))) (by
        intro hadds hg
        refine lt_of_le_of_ne hps.fits fun hfull => hfits ⟨adds_mask op _ ▸ hadds, hgranted ▸ hg, _, hi, ?_⟩
        rwa [Segment.elements, List.length_map])
      rw [hgranted, seqStep_mask] at hrun hys
      obtain ⟨_, hrun', rfl, hapart⟩ := hframed.ok_right hrun
      have hput := h.put hapart (listOwns_of_holds ht)
      rw [hseq, ← hys]
      exact ⟨_, _, by rw [poolStep, hrun']; rfl, hput, poolFrame_put i s _ own _⟩

/-- The call that does exceed the counter. -/
theorem poolStep_exceeds (h : PoolHolds s own xs) {op : PoolOp I E} (hop : op.Exceeds s xs) :
    poolStep op s = .error .overflow := by
  cases op with
  | init i granted => exact hop.elim
  | free i => exact hop.elim
  | call i op =>
      obtain ⟨hadds, hg, ys, hi, hfull⟩ := hop
      obtain ⟨ps, hps, rfl⟩ := h.of_some hi
      have hframed := framed_listStep (s := { list := s.lists i, heap := own i })
        (apart_others s.heap (own i)) op
      have hgranted := granted_mask op { list := s.lists i, heap := own i }
        (others s.heap (own i))
      rw [← h.list_eq i] at hframed hgranted
      rw [Segment.elements, List.length_map] at hfull
      have hrun := listStep_overflow hps ((adds_mask op _).trans hadds) (hgranted.trans hg) hfull
      rw [poolStep, hframed.error_right hrun (by decide)]
      rfl

/-- `list_free` gives back the nodes of its list. -/
theorem poolStep_free (h : PoolHolds s own xs) (i : I) :
    ∃ s' own', poolStep (.free i) s = .ok (none, s') ∧
      PoolHolds s' own' (Function.update xs i none) ∧ PoolFrame i s s' own own' ∧
      s'.heap = others s.heap (own i) := by
  have hfree : ∃ t, listFreeLoop ((listSize (s.list i)).toNat + 1)
      { list := s.lists i, heap := own i } = .ok t ∧ t.heap = Heap.empty := by
    cases hi : xs i with
    | none =>
        obtain ⟨hlist, hown⟩ := h.of_none hi
        have hsize : (listSize (s.list i)).toNat = 0 := by
          rw [ListPool.list, hlist]
          rfl
        rw [hsize, hlist, hown]
        exact ⟨_, rfl, rfl⟩
    | some ys =>
        obtain ⟨ps, hps, -⟩ := h.of_some hi
        have hlist : s.lists i = some (listOf ps) := hps.list
        have hsize : (listSize (s.list i)).toNat = ps.length := by
          rw [ListPool.list, hlist]
          exact Int.toNat_natCast ps.length
        obtain ⟨t, hrun, ht⟩ := listFreeLoop_ok hps (Nat.lt_succ_self ps.length)
        refine ⟨t, hsize ▸ hrun, funext fun a => ?_⟩
        by_contra ha
        exact List.not_mem_nil (ht.whole a ha)
  obtain ⟨t, hrun, hempty⟩ := hfree
  obtain ⟨_, hrun', rfl, hapart⟩ :=
    (framed_freeLoop (apart_others s.heap (own i)) _).ok_right hrun
  rw [← h.list_eq i] at hrun'
  refine ⟨_, _, ?_, h.put (t := { list := none, heap := t.heap }) hapart (.null hempty),
    poolFrame_put i s _ own _, ?_⟩
  · rw [poolStep, hrun']
    rfl
  · show t.heap.beside (others s.heap (own i)) = _
    rw [hempty]
    rfl

omit [DecidableEq E] in
theorem PoolHolds.init (h : PoolHolds s own xs) {i : I} (hi : xs i = none) :
    PoolHolds { s with lists := Function.update s.lists i (listInit true) } own
      (Function.update xs i (some [])) where
  splits := h.splits
  owns j := by
    show ListOwns (Function.update s.lists i (listInit true) j) (own j) _
    by_cases hj : j = i
    · subst hj
      rw [Function.update_self, Function.update_self, (h.of_none hi).2]
      exact listOwns_of_holds holds_emptyList
    · rw [Function.update_of_ne hj, Function.update_of_ne hj]
      exact h.owns j

theorem poolStep_init (h : PoolHolds s own xs) (i : I) (granted : Bool) :
    ∃ s', poolStep (.init i granted) s = .ok (none, s') ∧
      PoolHolds s' own (poolSeqStep false (.init i granted) xs).2 ∧ PoolFrame i s s' own own := by
  cases hi : xs i with
  | none =>
      have hlist : s.lists i = none := (h.of_none hi).1
      refine ⟨_, if_pos (by rw [hlist]; rfl), ?_, fun j hj => ⟨Function.update_of_ne hj .., rfl⟩⟩
      cases granted with
      | false =>
          have hsame : Function.update s.lists i (listInit false) = s.lists :=
            Function.update_eq_self_iff.mpr hlist.symm
          rw [hsame]
          exact h
      | true =>
          rw [poolSeqStep, if_pos (by rw [hi]; rfl)]
          exact h.init hi
  | some ys =>
      obtain ⟨ps, hps, -⟩ := h.of_some hi
      have hlist : s.lists i = some (listOf ps) := hps.list
      refine ⟨s, if_neg (by rw [hlist]; exact Bool.false_ne_true), ?_, .refl i s own⟩
      cases granted with
      | false => exact h
      | true =>
          rw [poolSeqStep, if_neg (by rw [hi]; exact Bool.false_ne_true)]
          exact h

theorem poolStep_holds (h : PoolHolds s own xs) (op : PoolOp I E) (hop : ¬ op.Exceeds s xs) :
    ∃ s' own', poolStep op s = .ok ((poolSeqStep (op.granted s) op xs).1, s') ∧
      PoolHolds s' own' (poolSeqStep (op.granted s) op xs).2 ∧ PoolFrame op.list s s' own own' ∧
      (∀ i, op = .free i → s'.heap = others s.heap (own i)) := by
  cases op with
  | init i granted =>
      obtain ⟨s', hrun, hs', hframe⟩ := poolStep_init h i granted
      cases granted with
      | false => exact ⟨s', own, hrun, hs', hframe, nofun⟩
      | true => exact ⟨s', own, hrun, hs', hframe, nofun⟩
  | free i =>
      obtain ⟨s', own', hrun, hs', hframe, hheap⟩ := poolStep_free h i
      refine ⟨s', own', hrun, hs', hframe, fun j hj => ?_⟩
      cases hj
      exact hheap
  | call i op =>
      obtain ⟨s', own', hrun, hs', hframe⟩ := poolStep_call h i op hop
      exact ⟨s', own', hrun, hs', hframe, nofun⟩

theorem poolHolds_of_run (h : PoolRun xs s) : ∃ own, PoolHolds s own xs := by
  induction h with
  | init => exact ⟨_, poolHolds_init⟩
  | @step xs s op answer s' _ hrun ih =>
      obtain ⟨own, hs⟩ := ih
      have hop : ¬ op.Exceeds s xs := by
        intro hop
        cases hrun.symm.trans (poolStep_exceeds hs hop)
      obtain ⟨t, own', hstep, ht, -⟩ := poolStep_holds hs op hop
      cases hrun.symm.trans hstep
      exact ⟨own', ht⟩

/-- **Lists do not disturb each other.**  After any calls on any lists, each is
well formed with its own nodes.  The next call does to its list what the
operation does to the sequence, unless it exceeds the counter, which is the one
way to fail; every other list, and its nodes, are what they were; and
`list_free` gives back the nodes of its list and no others, so that no node is
left when no list is. -/
theorem listPool_refines_seqs (h : PoolRun xs s) :
    ∃ own, PoolWellFormed s own xs ∧
      (∀ op : PoolOp I E, ¬ op.Exceeds s xs →
        ∃ s' own', poolStep op s = .ok ((poolSeqStep (op.granted s) op xs).1, s') ∧
          PoolWellFormed s' own' (poolSeqStep (op.granted s) op xs).2 ∧
          PoolFrame op.list s s' own own' ∧
          ∀ i, op = .free i → s'.heap = others s.heap (own i)) ∧
      (∀ op : PoolOp I E, op.Exceeds s xs → poolStep op s = .error .overflow) ∧
      ((∀ i, xs i = none) → s.heap = Heap.empty) := by
  obtain ⟨own, hs⟩ := poolHolds_of_run h
  refine ⟨own, hs.wellFormed, fun op hop => ?_, fun op hop => poolStep_exceeds hs hop,
    fun hnone => ?_⟩
  · obtain ⟨s', own', hrun, hs', hframe, hfree⟩ := poolStep_holds hs op hop
    exact ⟨s', own', hrun, hs'.wellFormed, hframe, hfree⟩
  · funext a
    cases ha : s.heap a with
    | none => rfl
    | some n =>
        obtain ⟨i, hi⟩ := (hs.splits.all a n).mp ha
        rw [(hs.of_none (hnone i)).2] at hi
        cases hi

/-- One of two lists is given three elements, refused a fourth, and has the second
one removed; then it is freed. -/
theorem listPool_refines_seqs_two : ∃ (xs : Bool → Option (List Nat)) (s : ListPool Bool Nat) (own : _),
    xs true = some [3, 7] ∧ xs false = some [4] ∧ PoolWellFormed s own xs ∧
      ∃ s' own', poolStep (.free true) s = .ok (none, s') ∧
        PoolWellFormed s' own' (Function.update xs true none) ∧
        s'.lists false = s.lists false ∧ own' false = own false ∧
        s'.heap = others s.heap (own true) := by
  have step {xs s} (h : PoolRun xs s) (op : PoolOp Bool Nat) {answer s'}
      (hrun : poolStep op s = .ok (answer, s')) :
      PoolRun (poolSeqStep (op.granted s) op xs).2 s' := .step h hrun
  have h₁ := step .init (.init true true) rfl
  have h₂ := step h₁ (.init false true) rfl
  have h₃ := step h₂ (.call true (.append (some 3) (some 0))) rfl
  have h₄ := step h₃ (.call false (.append (some 4) (some 1))) rfl
  have h₅ := step h₄ (.call true (.append (some 5) (some 2))) rfl
  have h₆ := step h₅ (.call true (.append (some 6) none)) rfl
  have h₇ := step h₆ (.call true (.append (some 7) (some 3))) rfl
  have h₈ := step h₇ (.call true (.remove (some 5))) rfl
  obtain ⟨own, hwell, hstep, -⟩ := listPool_refines_seqs h₈
  obtain ⟨s', own', hrun, hwell', hframe, hfree⟩ := hstep (.free true) id
  exact ⟨_, _, own, rfl, rfl, hwell, s', own', hrun, hwell',
    (hframe false Bool.false_ne_true).1, (hframe false Bool.false_ne_true).2, hfree true rfl⟩

end Pool

end Jccl
