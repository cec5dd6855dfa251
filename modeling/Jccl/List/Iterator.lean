/-
# `Jccl.List.Iterator` — the iterator of `list.c`, and the cursor that it is

An iterator has two pointers.  At a gap of the list they are the nodes on the
two sides of it; after `list_iterator_reset` they are the ends of the list, so
that the iterator is at the first gap for `list_iterator_next` and at the last
one for `list_iterator_previous`.  `AtCursor` says both: `next` is the node
behind the gap where the cursor goes on, and `previous` is the node before the
gap where it goes back.

The list is the one of the state, which the iterator has a pointer to, and no
call changes it.
-/
import Jccl.Lib.Cursor
import Jccl.List.Run

namespace Jccl

/-! ## The code -/

/-- `struct list_iterator`. -/
structure ListIterator where
  next : Option Addr
  previous : Option Addr

section Code

variable {E : Type} (s : ListState E)

def listIteratorReset (li : Option ListIterator) : Outcome (Int × Option ListIterator) := do
  let some _ := li | return (EINVAL, none)
  let list ← deref s.list
  return (0, some { next := list.head, previous := list.tail })

/-- `granted` is whether the iterator could be allocated. -/
def listIteratorInit (granted : Bool) : Outcome (Option ListIterator) :=
  if s.list.isNone then
    .ok none
  else if granted = false then
    .ok none
  else do
    -- nothing is read of it before it is reset
    let (_, li) ← listIteratorReset s (some { next := none, previous := none })
    return li

def listIteratorNext (li : Option ListIterator) :
    Outcome (Option E × Option ListIterator) := do
  let some it := li | return (none, none)
  if it.next = none then return (none, some it)
  let node ← s.heap.load it.next
  return (node.element, some { next := node.next, previous := it.next })

def listIteratorPrevious (li : Option ListIterator) :
    Outcome (Option E × Option ListIterator) := do
  let some it := li | return (none, none)
  if it.previous = none then return (none, some it)
  let node ← s.heap.load it.previous
  return (node.element, some { next := it.previous, previous := node.previous })

def listIteratorMove (move : Move) (li : Option ListIterator) :
    Outcome (Option E × Option ListIterator) :=
  match move with
  | .next => listIteratorNext s li
  | .previous => listIteratorPrevious s li

/-- A sequence of calls, and what they return. -/
def listIteratorRun : List Move → Option ListIterator →
    Outcome (List (Option E) × Option ListIterator)
  | [], li => .ok ([], li)
  | move :: moves, li => do
      let (element, li) ← listIteratorMove s move li
      let (rest, li) ← listIteratorRun moves li
      return (element :: rest, li)

end Code

open Segment

variable {E : Type}

/-! ## The node at a position -/

section Position

variable {ps : Segment E} {a : Addr} {e : E} {g : Nat}

theorem first_drop (hg : ps[g]? = some (a, e)) : first (ps.drop g) none = some a := by
  obtain ⟨hlt, hget⟩ := List.getElem?_eq_some_iff.mp hg
  rw [List.drop_eq_getElem_cons hlt, hget]
  rfl

theorem last_take (hg : ps[g]? = some (a, e)) : last (ps.take (g + 1)) none = some a := by
  obtain ⟨hlt, hget⟩ := List.getElem?_eq_some_iff.mp hg
  rw [List.take_succ_eq_append_getElem hlt, hget, last_append_cons]

theorem linked_getElem {h : Heap (ListNode E)} (hl : Linked h none none ps)
    (hg : ps[g]? = some (a, e)) :
    h a = some { next := first (ps.drop (g + 1)) none, previous := last (ps.take g) none,
                 element := some e } := by
  obtain ⟨hlt, hget⟩ := List.getElem?_eq_some_iff.mp hg
  have hsplit : ps = ps.take g ++ (a, e) :: ps.drop (g + 1) := by
    rw [← hget, ← List.drop_eq_getElem_cons hlt, List.take_append_drop]
  rw [hsplit] at hl
  exact ((linked_append _ _).mp hl).2.1

theorem elements_getElem (ps : Segment E) (g : Nat) : (elements ps)[g]? = ps[g]?.map Prod.snd :=
  List.getElem?_map

theorem elements_length (ps : Segment E) : (elements ps).length = ps.length := List.length_map _

end Position

/-! ## The simulation -/

/-- The pointers of an iterator where the cursor is. -/
structure AtCursor (ps : Segment E) (it : ListIterator) (c : Cursor (elements ps).length) :
    Prop where
  next : it.next = first (ps.drop c.ahead) none
  previous : it.previous = last (ps.take c.behind) none

section Simulation

variable {s : ListState E} {ps : Segment E} {it : ListIterator}
  {c : Cursor (elements ps).length}

theorem atCursor_fresh :
    AtCursor ps { next := (listOf ps).head, previous := (listOf ps).tail } .fresh where
  next := rfl
  previous := by
    show last ps none = last (ps.take (elements ps).length) none
    rw [elements_length, List.take_length]

theorem AtCursor.next_ok (hs : Holds s ps) (h : AtCursor ps it c) :
    ∃ it', listIteratorNext s (some it) =
        .ok ((cursorStep (elements ps) .next c).1, some it') ∧
      AtCursor ps it' (cursorStep (elements ps) .next c).2 := by
  by_cases hlt : c.ahead < (elements ps).length
  · obtain ⟨⟨a, e⟩, hg⟩ : ∃ p, ps[c.ahead]? = some p :=
      ⟨_, List.getElem?_eq_getElem (elements_length ps ▸ hlt)⟩
    have hnext : it.next = some a := h.next.trans (first_drop hg)
    have hload := Heap.load_some (linked_getElem hs.linked hg)
    rw [cursorStep, dif_pos hlt, elements_getElem, hg]
    refine ⟨{ next := first (ps.drop (c.ahead + 1)) none, previous := it.next }, ?_, rfl, ?_⟩
    · simp only [listIteratorNext, hnext, hload, Outcome.ok_bind]
      rfl
    · exact hnext.trans (last_take hg).symm
  · have hnil : it.next = none := by
      rw [h.next, List.drop_eq_nil_of_le (elements_length ps ▸ not_lt.mp hlt), first_nil]
    rw [cursorStep, dif_neg hlt]
    refine ⟨it, ?_, h⟩
    simp only [listIteratorNext, if_pos hnil]
    rfl

theorem AtCursor.previous_ok (hs : Holds s ps) (h : AtCursor ps it c) :
    ∃ it', listIteratorPrevious s (some it) =
        .ok ((cursorStep (elements ps) .previous c).1, some it') ∧
      AtCursor ps it' (cursorStep (elements ps) .previous c).2 := by
  by_cases hpos : 0 < c.behind
  · have hlt : c.behind - 1 < ps.length :=
      (Nat.sub_one_lt hpos.ne').trans_le (elements_length ps ▸ c.behind_le)
    have hsucc : c.behind - 1 + 1 = c.behind := Nat.sub_add_cancel hpos
    obtain ⟨⟨a, e⟩, hg⟩ : ∃ p, ps[c.behind - 1]? = some p := ⟨_, List.getElem?_eq_getElem hlt⟩
    have hprevious : it.previous = some a := h.previous.trans (hsucc ▸ last_take hg)
    have hload := Heap.load_some (linked_getElem hs.linked hg)
    rw [cursorStep, if_pos hpos, elements_getElem, hg]
    refine ⟨{ next := it.previous, previous := last (ps.take (c.behind - 1)) none }, ?_, ?_, rfl⟩
    · simp only [listIteratorPrevious, hprevious, hload, Outcome.ok_bind]
      rfl
    · exact hprevious.trans (first_drop hg).symm
  · have hnil : it.previous = none := by
      rw [h.previous, Nat.eq_zero_of_not_pos hpos, List.take_zero, last_nil]
    rw [cursorStep, if_neg hpos]
    refine ⟨it, ?_, h⟩
    simp only [listIteratorPrevious, if_pos hnil]
    rfl

theorem AtCursor.move_ok (hs : Holds s ps) (h : AtCursor ps it c) (move : Move) :
    ∃ it', listIteratorMove s move (some it) =
        .ok ((cursorStep (elements ps) move c).1, some it') ∧
      AtCursor ps it' (cursorStep (elements ps) move c).2 := by
  cases move with
  | next => exact h.next_ok hs
  | previous => exact h.previous_ok hs

/-- The calls return what the cursor goes over. -/
theorem AtCursor.run_ok (hs : Holds s ps) (h : AtCursor ps it c) (moves : List Move) :
    ∃ it' c', listIteratorRun s moves (some it) =
      .ok (cursorRun (elements ps) moves c, some it') ∧ AtCursor ps it' c' := by
  induction moves generalizing it c with
  | nil => exact ⟨it, c, rfl, h⟩
  | cons move moves ih =>
      obtain ⟨it', hmove, h'⟩ := h.move_ok hs move
      obtain ⟨it₂, c', hrun, h''⟩ := ih h'
      refine ⟨it₂, c', ?_, h''⟩
      simp only [listIteratorRun, hmove, Outcome.ok_bind, hrun]
      rfl

theorem listIteratorReset_ok (hs : Holds s ps) (it : ListIterator) :
    listIteratorReset s (some it) =
      .ok (0, some { next := (listOf ps).head, previous := (listOf ps).tail }) := by
  rw [listIteratorReset, hs.list]
  rfl

theorem listIteratorInit_ok (hs : Holds s ps) :
    listIteratorInit s true =
      .ok (some { next := (listOf ps).head, previous := (listOf ps).tail }) := by
  have hsome : ¬ s.list.isNone = true := by
    rw [hs.list]
    exact Bool.false_ne_true
  rw [listIteratorInit, if_neg hsome, if_neg Bool.false_ne_true.symm, listIteratorReset_ok hs]
  rfl

end Simulation

/-! ## Any list, any calls -/

/-- **An iterator is a cursor.**  A new one and one that was reset are the same
and are at both ends; all sequences of calls return what the cursor goes over.
In particular one end is reached from the other over all the elements. -/
theorem listIterator_refines_cursor [DecidableEq E] {xs : List E} {s : ListState E}
    (h : ListRun xs s) :
    ∃ start, listIteratorInit s true = .ok (some start) ∧
      (∀ it, listIteratorReset s (some it) = .ok (0, some start)) ∧
      (∀ moves, ∃ it, listIteratorRun s moves (some start) =
        .ok (cursorRun xs moves .fresh, some it)) ∧
      (∀ k, ∃ it, listIteratorRun s (List.replicate k .next) (some start) =
        .ok ((List.range k).map fun i => xs[i]?, some it)) ∧
      (∀ k, ∃ it, listIteratorRun s (List.replicate k .previous) (some start) =
        .ok ((List.range k).map fun i => xs.reverse[i]?, some it)) ∧
      ∀ moves answers it e li, listIteratorRun s moves (some start) = .ok (answers, some it) →
        listIteratorNext s (some it) = .ok (some e, li) →
        ∃ li', listIteratorPrevious s li = .ok (some e, li') := by
  obtain ⟨ps, hs, rfl⟩ := holds_of_run h
  have hrun := fun moves => (@atCursor_fresh _ ps).run_ok hs moves
  refine ⟨_, listIteratorInit_ok hs, listIteratorReset_ok hs, ?_, ?_, ?_, ?_⟩
  · intro moves
    obtain ⟨it, -, hmoves, -⟩ := hrun moves
    exact ⟨it, hmoves⟩
  · intro k
    obtain ⟨it, -, hmoves, -⟩ := hrun (List.replicate k .next)
    rw [cursorRun_replicate (elements ps) (cursorStep_next (elements ps))] at hmoves
    exact ⟨it, hmoves⟩
  · intro k
    obtain ⟨it, -, hmoves, -⟩ := hrun (List.replicate k .previous)
    rw [cursorRun_replicate (elements ps) (cursorStep_previous (elements ps))] at hmoves
    have hall : (elements ps).take (Cursor.fresh : Cursor (elements ps).length).behind =
        elements ps := List.take_length
    rw [hall] at hmoves
    exact ⟨it, hmoves⟩
  · intro moves answers it e li hmoves hnext
    obtain ⟨it', c, hmoves', hat⟩ := hrun moves
    cases hmoves.symm.trans hmoves'
    obtain ⟨it₂, hnext', hat'⟩ := hat.next_ok hs
    have hboth := hnext.symm.trans hnext'
    rw [Except.ok.injEq, Prod.mk.injEq] at hboth
    obtain ⟨he, rfl⟩ := hboth
    obtain ⟨it₃, hback, -⟩ := hat'.previous_ok hs
    rw [cursorStep_back (elements ps) he.symm] at hback
    exact ⟨_, hback⟩

/-- There and back over a list of two elements. -/
theorem listIterator_refines_cursor_one_five : ∃ (s : ListState Nat) (start : ListIterator),
    listIteratorInit s true = .ok (some start) ∧
    ∃ it, listIteratorRun s [.next, .previous, .next, .next, .next, .previous, .previous, .previous]
        (some start) =
      .ok ([some 1, some 1, some 1, some 5, none, some 5, some 1, none], some it) := by
  obtain ⟨s, hrun⟩ := exists_run_one_five
  obtain ⟨start, hinit, -, hmoves, -⟩ := listIterator_refines_cursor hrun
  exact ⟨s, start, hinit, hmoves _⟩

end Jccl
