/-
# `Jccl.List.Linked` — doubly linked segments

A segment is a run of nodes, each of which points to its neighbours in the
run; the ends point to whatever lies outside.  All pointer updates of
`list.c` come down to two facts.  A segment is cut or joined at any place by
telling what its parts point to outside (`linked_append`), and the two
pointers of a segment that point outside may be redirected (`setNext` of the
last node, `setPrevious` of the first), which other segments do not notice.
-/
import Jccl.List.Defs

namespace Jccl

variable {E : Type}

/-- The addresses and elements of the nodes of a segment, in order. -/
abbrev Segment (E : Type) := List (Addr × E)

namespace Segment

def addrs (ps : Segment E) : List Addr := ps.map Prod.fst

def elements (ps : Segment E) : List E := ps.map Prod.snd

/-- What points to a segment from before: its first node, or what comes behind. -/
def first (ps : Segment E) (next : Option Addr) : Option Addr :=
  match ps with
  | [] => next
  | (a, _) :: _ => some a

/-- What points to a segment from behind. -/
def last (ps : Segment E) (previous : Option Addr) : Option Addr :=
  match ps.getLast? with
  | none => previous
  | some (a, _) => some a

@[simp] theorem addrs_append (ps qs : Segment E) : addrs (ps ++ qs) = addrs ps ++ addrs qs :=
  List.map_append

@[simp] theorem addrs_cons (p : Addr × E) (ps : Segment E) : addrs (p :: ps) = p.1 :: addrs ps :=
  rfl

@[simp] theorem first_cons (p : Addr × E) (ps : Segment E) (next : Option Addr) :
    first (p :: ps) next = some p.1 := rfl

@[simp] theorem first_nil (next : Option Addr) : first ([] : Segment E) next = next := rfl

@[simp] theorem last_append_cons (ps : Segment E) (p : Addr × E) (previous : Option Addr) :
    last (ps ++ [p]) previous = some p.1 := by
  simp [last]

@[simp] theorem last_nil (previous : Option Addr) : last ([] : Segment E) previous = previous :=
  rfl

theorem first_append (ps qs : Segment E) (next : Option Addr) :
    first (ps ++ qs) next = first ps (first qs next) := by
  cases ps <;> rfl

theorem last_append (ps qs : Segment E) (previous : Option Addr) :
    last (ps ++ qs) previous = last qs (last ps previous) := by
  obtain rfl | ⟨qs, q, rfl⟩ := qs.eq_nil_or_concat'
  · simp
  · rw [← List.append_assoc, last_append_cons, last_append_cons]

theorem last_cons (p : Addr × E) (ps : Segment E) (previous : Option Addr) :
    last (p :: ps) previous = last ps (some p.1) :=
  last_append [p] ps previous

end Segment

open Segment

/-- The nodes of a segment are there and linked, `previous` and `next` being
what its ends point to. -/
def Linked (h : Heap (ListNode E)) (previous next : Option Addr) : Segment E → Prop
  | [] => True
  | (a, e) :: ps =>
      h a = some { next := first ps next, previous := previous, element := some e } ∧
        Linked h (some a) next ps

section Linked

variable {h h' : Heap (ListNode E)} {previous next : Option Addr}

theorem linked_append (ps qs : Segment E) :
    Linked h previous next (ps ++ qs) ↔
      Linked h previous (first qs next) ps ∧ Linked h (last ps previous) next qs := by
  induction ps generalizing previous with
  | nil => exact ⟨fun hq => ⟨trivial, hq⟩, fun hq => hq.2⟩
  | cons p ps ih =>
      rw [List.cons_append, Linked, ih, first_append, last_cons, Linked, and_assoc]

theorem linked_congr {ps : Segment E} (heq : ∀ a ∈ addrs ps, h' a = h a)
    (hps : Linked h previous next ps) : Linked h' previous next ps := by
  induction ps generalizing previous with
  | nil => exact trivial
  | cons p ps ih =>
      refine ⟨(heq p.1 List.mem_cons_self).trans hps.1, ih (fun a ha => ?_) hps.2⟩
      exact heq a (List.mem_cons_of_mem _ ha)

theorem linked_update {ps : Segment E} {a : Addr} {n : Option (ListNode E)} (ha : a ∉ addrs ps)
    (hps : Linked h previous next ps) : Linked (Function.update h a n) previous next ps :=
  linked_congr (fun _ hb => Heap.update_of_ne n (ne_of_mem_of_not_mem hb ha)) hps

/-- The nodes of a segment are live. -/
theorem linked_live {ps : Segment E} (hps : Linked h previous next ps) {a : Addr}
    (ha : a ∈ addrs ps) : ∃ n, h a = some n := by
  induction ps generalizing previous with
  | nil => exact absurd ha List.not_mem_nil
  | cons p ps ih =>
      rcases List.mem_cons.mp ha with rfl | ha
      · exact ⟨_, hps.1⟩
      · exact ih hps.2 ha

/-- The head does not hold the element, and stays the head. -/
theorem exists_first {ps : Segment E} {e : E} (hne : ps ≠ [])
    (hl : Linked h previous next ps) (he : e ∉ elements ps) :
    ∃ a n, (∀ qs, first (ps ++ qs) none = some a) ∧ h a = some n ∧ n.element ≠ some e := by
  cases ps with
  | nil => exact absurd rfl hne
  | cons p ps =>
      have hpe : (some p.2 : Option E) ≠ some e := fun heq =>
        he (List.mem_cons.mpr (.inl (Option.some.inj heq).symm))
      exact ⟨p.1, _, fun _ => rfl, hl.1, hpe⟩

end Linked

/-! ## Redirecting the outer pointers -/

/-- `p->next = next`, if `p` is not NULL. -/
def setNext (h : Heap (ListNode E)) (p next : Option Addr) : Heap (ListNode E) :=
  match p with
  | none => h
  | some a => Function.update h a ((h a).map fun n => { n with next := next })

/-- `p->previous = previous`, if `p` is not NULL. -/
def setPrevious (h : Heap (ListNode E)) (p previous : Option Addr) : Heap (ListNode E) :=
  match p with
  | none => h
  | some a => Function.update h a ((h a).map fun n => { n with previous := previous })

section Redirect

variable {h : Heap (ListNode E)} {previous next : Option Addr}

theorem modify_next {a : Addr} {n : ListNode E} (hn : h a = some n) (p : Option Addr) :
    h.modify (some a) (fun m => { m with next := p }) = .ok (setNext h (some a) p) := by
  rw [Heap.modify_some _ hn, setNext, hn]
  rfl

theorem modify_previous {a : Addr} {n : ListNode E} (hn : h a = some n) (p : Option Addr) :
    h.modify (some a) (fun m => { m with previous := p }) = .ok (setPrevious h (some a) p) := by
  rw [Heap.modify_some _ hn, setPrevious, hn]
  rfl

theorem setNext_of_ne {p q : Option Addr} {b : Addr} (hne : p ≠ some b) :
    setNext h p q b = h b := by
  cases p with
  | none => rfl
  | some a => exact Heap.update_of_ne _ fun hba => hne (congrArg some hba.symm)

theorem setPrevious_of_ne {p q : Option Addr} {b : Addr} (hne : p ≠ some b) :
    setPrevious h p q b = h b := by
  cases p with
  | none => rfl
  | some a => exact Heap.update_of_ne _ fun hba => hne (congrArg some hba.symm)

/-- What becomes of a node depends on nothing but the node. -/
theorem setNext_congr {h' : Heap (ListNode E)} {b : Addr} (heq : h' b = h b) (p q : Option Addr) :
    setNext h' p q b = setNext h p q b := by
  cases p with
  | none => exact heq
  | some a =>
      by_cases hba : b = a
      · subst hba
        simp [setNext, heq]
      · rw [setNext, setNext, Heap.update_of_ne _ hba, Heap.update_of_ne _ hba, heq]

theorem setPrevious_congr {h' : Heap (ListNode E)} {b : Addr} (heq : h' b = h b)
    (p q : Option Addr) : setPrevious h' p q b = setPrevious h p q b := by
  cases p with
  | none => exact heq
  | some a =>
      by_cases hba : b = a
      · subst hba
        simp [setPrevious, heq]
      · rw [setPrevious, setPrevious, Heap.update_of_ne _ hba, Heap.update_of_ne _ hba, heq]

theorem setNext_eq_none (h : Heap (ListNode E)) (p q : Option Addr) (a : Addr) :
    setNext h p q a = none ↔ h a = none := by
  cases p with
  | none => rfl
  | some b =>
      by_cases hab : a = b
      · simp [setNext, hab]
      · rw [setNext, Heap.update_of_ne _ hab]

theorem setPrevious_eq_none (h : Heap (ListNode E)) (p q : Option Addr) (a : Addr) :
    setPrevious h p q a = none ↔ h a = none := by
  cases p with
  | none => rfl
  | some b =>
      by_cases hab : a = b
      · simp [setPrevious, hab]
      · rw [setPrevious, Heap.update_of_ne _ hab]

theorem linked_setNext {ps : Segment E} (hps : Linked h previous next ps) (hnd : (addrs ps).Nodup)
    (next' : Option Addr) : Linked (setNext h (last ps none) next') previous next' ps := by
  obtain rfl | ⟨ps, p, rfl⟩ := ps.eq_nil_or_concat'
  · exact trivial
  · rw [last_append_cons]
    obtain ⟨hinit, hp, -⟩ := (linked_append ps [p]).mp hps
    rw [addrs_append, List.nodup_append] at hnd
    have hne : p.1 ∉ addrs ps := fun hmem => hnd.2.2 _ hmem _ List.mem_cons_self rfl
    refine (linked_append ps [p]).mpr ⟨linked_update hne hinit, ?_, trivial⟩
    simp [setNext, hp]

theorem linked_setPrevious {ps : Segment E} (hps : Linked h previous next ps)
    (hnd : (addrs ps).Nodup) (previous' : Option Addr) :
    Linked (setPrevious h (first ps none) previous') previous' next ps := by
  cases ps with
  | nil => exact trivial
  | cons p ps =>
      have hne : p.1 ∉ addrs ps := (List.nodup_cons.mp hnd).1
      refine ⟨?_, linked_update hne hps.2⟩
      simp [setPrevious, hps.1]

end Redirect

/-! ## Linking a node in, and cutting one out -/

section Surgery

variable {h : Heap (ListNode E)} {xs ys : Segment E} {a : Addr}

theorem last_ne_of_notMem (ha : a ∉ addrs xs) : last xs none ≠ some a := by
  obtain rfl | ⟨xs, p, rfl⟩ := xs.eq_nil_or_concat'
  · simp
  · intro hlast
    rw [last_append_cons, Option.some.injEq] at hlast
    exact ha (by simp [hlast])

theorem first_ne_of_notMem (ha : a ∉ addrs ys) : first ys none ≠ some a := by
  cases ys with
  | nil => simp
  | cons p ys =>
      intro hfirst
      rw [first_cons, Option.some.injEq] at hfirst
      exact ha (by simp [hfirst])

/-- The heap after a node with the element `e` was linked in at `a`. -/
def linkedIn (h : Heap (ListNode E)) (xs : Segment E) (a : Addr) (e : E) (ys : Segment E) :
    Heap (ListNode E) :=
  setPrevious (setNext (Function.update h a
    (some { next := first ys none, previous := last xs none, element := some e }))
    (last xs none) (some a)) (first ys none) (some a)

/-- The heap after the node at `a` was cut out and freed. -/
def cutOut (h : Heap (ListNode E)) (xs : Segment E) (a : Addr) (ys : Segment E) :
    Heap (ListNode E) :=
  Function.update (setPrevious (setNext h (last xs none) (first ys none)) (first ys none)
    (last xs none)) a none

theorem linked_linkedIn (hl : Linked h none none (xs ++ ys)) (hnd : (addrs (xs ++ ys)).Nodup)
    (ha : a ∉ addrs (xs ++ ys)) (e : E) :
    Linked (linkedIn h xs a e ys) none none (xs ++ (a, e) :: ys) := by
  rw [addrs_append, List.nodup_append] at hnd
  rw [addrs_append, List.mem_append, not_or] at ha
  obtain ⟨hxs, hys⟩ := (linked_append xs ys).mp hl
  refine (linked_append _ _).mpr ⟨?_, ?_, ?_⟩
  · -- of the nodes before it, only the last is told
    refine linked_congr (fun b hb => ?_) (linked_setNext hxs hnd.1 (some a))
    have hbys : b ∉ addrs ys := fun hb' => hnd.2.2 b hb b hb' rfl
    have hba : b ≠ a := ne_of_mem_of_not_mem hb ha.1
    rw [linkedIn, setPrevious_of_ne (first_ne_of_notMem hbys)]
    exact setNext_congr (Heap.update_of_ne _ hba) _ _
  · rw [linkedIn, setPrevious_of_ne (first_ne_of_notMem ha.2),
      setNext_of_ne (last_ne_of_notMem ha.1), Function.update_self]
  · refine linked_congr (fun b hb => ?_) (linked_setPrevious hys hnd.2.1 (some a))
    have hbxs : b ∉ addrs xs := fun hb' => hnd.2.2 b hb' b hb rfl
    have hba : b ≠ a := ne_of_mem_of_not_mem hb ha.2
    refine setPrevious_congr ?_ _ _
    rw [setNext_of_ne (last_ne_of_notMem hbxs), Heap.update_of_ne _ hba]

theorem linked_cutOut {e : E} (hl : Linked h none none (xs ++ (a, e) :: ys))
    (hnd : (addrs (xs ++ (a, e) :: ys)).Nodup) :
    Linked (cutOut h xs a ys) none none (xs ++ ys) := by
  rw [addrs_append, addrs_cons, List.nodup_append, List.nodup_cons] at hnd
  obtain ⟨hxs, -, hys⟩ := (linked_append xs _).mp hl
  refine (linked_append _ _).mpr ⟨?_, ?_⟩
  · refine linked_congr (fun b hb => ?_) (linked_setNext hxs hnd.1 (first ys none))
    have hba : b ≠ a := fun hba => hnd.2.2 b hb a List.mem_cons_self hba
    have hbys : b ∉ addrs ys := fun hb' => hnd.2.2 b hb b (List.mem_cons_of_mem _ hb') rfl
    rw [cutOut, Heap.update_of_ne _ hba, setPrevious_of_ne (first_ne_of_notMem hbys)]
  · refine linked_congr (fun b hb => ?_) (linked_setPrevious hys hnd.2.1.2 (last xs none))
    have hba : b ≠ a := ne_of_mem_of_not_mem hb hnd.2.1.1
    have hbxs : b ∉ addrs xs := fun hb' => hnd.2.2 b hb' b (List.mem_cons_of_mem _ hb) rfl
    rw [cutOut, Heap.update_of_ne _ hba]
    exact setPrevious_congr (setNext_of_ne (last_ne_of_notMem hbxs)) _ _

end Surgery

end Jccl
