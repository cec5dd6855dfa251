/-
# `Jccl.List.Run` — whole runs of calls on a list

A run is a sequence of calls from `list_init` on, each with its own answer of
the allocator, that has come to no fault.  `ListRun` carries, beside the
state that the code is in, the sequence that the same operations make of the
empty one; the results say that the state is a well-formed list of just that
sequence, that the next call answers and acts as the operation on the
sequence does, and that `list_free` gives back every node.

The counter is an `int`, so a list cannot have more than `INT_MAX` elements:
the one call that has no result is one more addition to a list of that size.
-/
import Jccl.List.Seq

namespace Jccl

open Segment

variable {E : Type}

/-! ## Calls, and what they do to a sequence -/

inductive ListOp (E : Type) where
  | prepend (element : Option E) (answer : Option Addr)
  | append (element : Option E) (answer : Option Addr)
  | remove (element : Option E)
  | shift
  | pop

inductive ListAnswer (E : Type) where
  | status (errno : Int)
  | element (e : Option E)

/-- An error number, or NULL. -/
def ListAnswer.isError : ListAnswer E → Prop
  | .status errno => errno ≠ 0
  | .element e => e = none

/-- Whether the call gets the node it may ask for. -/
def ListOp.granted (s : ListState E) : ListOp E → Bool
  | .prepend _ answer | .append _ answer => s.heap.grants answer
  | _ => false

/-- Whether the call adds an element, if it gets a node. -/
def ListOp.adds : ListOp E → Bool
  | .prepend element _ | .append element _ => element.isSome
  | _ => false

section Step

variable [DecidableEq E]

/-- The operation on a sequence. -/
def seqStep (granted : Bool) : ListOp E → List E → ListAnswer E × List E
  | .prepend none _, xs => (.status EINVAL, xs)
  | .prepend (some e) _, xs => if granted then (.status 0, e :: xs) else (.status ENOMEM, xs)
  | .append none _, xs => (.status EINVAL, xs)
  | .append (some e) _, xs => if granted then (.status 0, xs ++ [e]) else (.status ENOMEM, xs)
  | .remove none, xs => (.status EINVAL, xs)
  | .remove (some e), xs =>
      if e ∈ xs then (.status 0, xs.erase e) else (.status EADDRNOTAVAIL, xs)
  | .shift, xs => (.element xs.head?, xs.tail)
  | .pop, xs => (.element xs.getLast?, xs.dropLast)

/-- The call. -/
def listStep : ListOp E → ListState E → Outcome (ListAnswer E × ListState E)
  | .prepend element answer, s => do
      let (errno, s) ← listPrepend element answer s
      return (.status errno, s)
  | .append element answer, s => do
      let (errno, s) ← listAppend element answer s
      return (.status errno, s)
  | .remove element, s => do
      let (errno, s) ← listRemove element s
      return (.status errno, s)
  | .shift, s => do
      let (element, s) ← listShift s
      return (.element element, s)
  | .pop, s => do
      let (element, s) ← listPop s
      return (.element element, s)

/-- The list of `list_init`, in an empty heap. -/
def emptyList : ListState E := { list := listInit true, heap := Heap.empty }

/-- A run has come to the state; the sequence is what its operations made of
the empty sequence. -/
inductive ListRun : List E → ListState E → Prop
  | init : ListRun [] emptyList
  | step {xs s op answer s'} : ListRun xs s → listStep op s = .ok (answer, s') →
      ListRun (seqStep (op.granted s) op xs).2 s'

end Step

/-! ## Well-formed lists -/

/-- The chain of nodes from a pointer on, following one of the links, visits
just these and ends in NULL. -/
def Visits (follow : ListNode E → Option Addr) (h : Heap (ListNode E)) :
    Option Addr → List Addr → Prop
  | p, [] => p = none
  | p, a :: nodes => p = some a ∧ ∃ n, h a = some n ∧ Visits follow h (follow n) nodes

structure ListWellFormed (s : ListState E) (xs : List E) : Prop where
  nodes : ∃ list nodes, s.list = some list ∧ nodes.Nodup ∧
    Visits ListNode.next s.heap list.head nodes ∧
    Visits ListNode.previous s.heap list.tail nodes.reverse ∧
    (list.head = none ↔ list.tail = none) ∧
    list.nelement = nodes.length ∧
    nodes.map (fun a => (s.heap a).map ListNode.element) = xs.map (fun e => some (some e)) ∧
    ∀ a, s.heap a ≠ none → a ∈ nodes

theorem visits_next {h : Heap (ListNode E)} {previous : Option Addr} {ps : Segment E}
    (hl : Linked h previous none ps) : Visits ListNode.next h (first ps none) (addrs ps) := by
  induction ps generalizing previous with
  | nil => exact rfl
  | cons p ps ih => exact ⟨rfl, _, hl.1, ih hl.2⟩

theorem visits_previous {h : Heap (ListNode E)} {next : Option Addr} {ps : Segment E}
    (hl : Linked h none next ps) :
    Visits ListNode.previous h (last ps none) (addrs ps).reverse := by
  induction ps using List.reverseRecOn generalizing next with
  | nil => exact rfl
  | append_singleton ps p ih =>
      obtain ⟨hps, hp, -⟩ := (linked_append ps [p]).mp hl
      rw [addrs_append, List.reverse_append, last_append_cons]
      exact ⟨rfl, _, hp, ih hps⟩

theorem elements_heap {h : Heap (ListNode E)} {previous next : Option Addr} {ps : Segment E}
    (hl : Linked h previous next ps) :
    (addrs ps).map (fun a => (h a).map ListNode.element)
      = (elements ps).map fun e => some (some e) := by
  induction ps generalizing previous with
  | nil => rfl
  | cons p ps ih =>
      have hp := hl.1
      simp only [addrs_cons, List.map_cons, hp, Option.map_some, ih hl.2]
      rfl

theorem Holds.wellFormed {s : ListState E} {ps : Segment E} (h : Holds s ps) :
    ListWellFormed s (elements ps) where
  nodes := ⟨listOf ps, addrs ps, h.list, h.nodup, visits_next h.linked, visits_previous h.linked,
    first_eq_none.trans last_eq_none.symm, by simp [addrs], elements_heap h.linked, h.whole⟩

/-! ## One call -/

theorem exists_split_of_mem {ps : Segment E} {e : E} (h : e ∈ elements ps) :
    ∃ xs a ys, ps = xs ++ (a, e) :: ys ∧ e ∉ elements xs := by
  induction ps with
  | nil => exact absurd h List.not_mem_nil
  | cons p ps ih =>
      by_cases hp : p.2 = e
      · exact ⟨[], p.1, ps, by rw [← hp]; rfl, List.not_mem_nil⟩
      · obtain ⟨xs, a, ys, rfl, hxs⟩ := ih ((List.mem_cons.mp h).resolve_left (Ne.symm hp))
        refine ⟨p :: xs, a, ys, rfl, fun hmem => ?_⟩
        exact (List.mem_cons.mp hmem).elim (fun heq => hp heq.symm) hxs

theorem ListAnswer.not_isError_zero : ¬ (ListAnswer.status 0 : ListAnswer E).isError :=
  fun h => h rfl

variable [DecidableEq E]

theorem erase_elements {xs ys : Segment E} {a : Addr} {e : E} (h : e ∉ elements xs) :
    (elements (xs ++ (a, e) :: ys)).erase e = elements (xs ++ ys) := by
  have hxs : e ∉ xs.map Prod.snd := h
  simp [elements, List.erase_append_right _ hxs]

/-- The call does what the operation does on the elements; one that fails
leaves the list as it was. -/
def StepRefines (op : ListOp E) (s : ListState E) (ps : Segment E) : Prop :=
  ∃ s' ps', listStep op s = .ok ((seqStep (op.granted s) op (elements ps)).1, s') ∧
    Holds s' ps' ∧ elements ps' = (seqStep (op.granted s) op (elements ps)).2 ∧
    ((seqStep (op.granted s) op (elements ps)).1.isError → s' = s)

section Refines

variable {s s' : ListState E} {ps ps' : Segment E}

/-- A call that leaves the list as it was. -/
theorem Holds.unchanged (h : Holds s ps) {op : ListOp E} {answer : ListAnswer E}
    (hrun : listStep op s = .ok (answer, s))
    (hseq : seqStep (op.granted s) op (elements ps) = (answer, elements ps)) :
    StepRefines op s ps := by
  rw [StepRefines, hseq]
  exact ⟨s, ps, hrun, h, rfl, fun _ => rfl⟩

/-- A call that does not fail and leaves another one. -/
theorem Holds.changed (h : Holds s' ps') {op : ListOp E} {answer : ListAnswer E}
    (hrun : listStep op s = .ok (answer, s')) (hanswer : ¬ answer.isError)
    (hseq : seqStep (op.granted s) op (elements ps) = (answer, elements ps')) :
    StepRefines op s ps := by
  rw [StepRefines, hseq]
  exact ⟨s', ps', hrun, h, rfl, fun herr => absurd herr hanswer⟩

variable (h : Holds s ps)

include h

theorem stepRefines_prepend (element : Option E) (answer : Option Addr)
    (hfits : element.isSome = true → s.heap.grants answer = true → (ps.length : Int) < INT_MAX) :
    StepRefines (.prepend element answer) s ps := by
  cases element with
  | none =>
      have hrun : listPrepend none answer s = .ok (EINVAL, s) := by rw [listPrepend, h.list]; rfl
      exact h.unchanged (by rw [listStep, hrun]; rfl) rfl
  | some e =>
      by_cases hg : s.heap.grants answer = true
      · obtain ⟨a, s', hrun, hs'⟩ := listPrepend_ok h e hg (hfits rfl hg)
        exact hs'.changed (by rw [listStep, hrun]; rfl) ListAnswer.not_isError_zero
          (by rw [ListOp.granted, seqStep, if_pos hg]; rfl)
      · have hrun := listPrepend_refused h e (Bool.eq_false_of_not_eq_true hg)
        exact h.unchanged (by rw [listStep, hrun]; rfl)
          (by rw [ListOp.granted, seqStep, if_neg hg])

theorem stepRefines_append (element : Option E) (answer : Option Addr)
    (hfits : element.isSome = true → s.heap.grants answer = true → (ps.length : Int) < INT_MAX) :
    StepRefines (.append element answer) s ps := by
  cases element with
  | none =>
      have hrun : listAppend none answer s = .ok (EINVAL, s) := by rw [listAppend, h.list]; rfl
      exact h.unchanged (by rw [listStep, hrun]; rfl) rfl
  | some e =>
      by_cases hg : s.heap.grants answer = true
      · obtain ⟨a, s', hrun, hs'⟩ := listAppend_ok h e hg (hfits rfl hg)
        exact hs'.changed (by rw [listStep, hrun]; rfl) ListAnswer.not_isError_zero
          (by rw [ListOp.granted, seqStep, if_pos hg]; simp [elements])
      · have hrun := listAppend_refused h e (Bool.eq_false_of_not_eq_true hg)
        exact h.unchanged (by rw [listStep, hrun]; rfl)
          (by rw [ListOp.granted, seqStep, if_neg hg])

theorem stepRefines_remove (element : Option E) : StepRefines (.remove element) s ps := by
  cases element with
  | none =>
      have hrun : listRemove none s = .ok (EINVAL, s) := by rw [listRemove, h.list]; rfl
      exact h.unchanged (by rw [listStep, hrun]; rfl) rfl
  | some e =>
      by_cases he : e ∈ elements ps
      · obtain ⟨xs, a, ys, rfl, hxs⟩ := exists_split_of_mem he
        obtain ⟨s', hrun, hs'⟩ := listRemove_ok h hxs
        exact hs'.changed (by rw [listStep, hrun]; rfl) ListAnswer.not_isError_zero
          (by rw [seqStep, if_pos he, erase_elements hxs])
      · have hrun := listRemove_notMem h he
        exact h.unchanged (by rw [listStep, hrun]; rfl) (by rw [seqStep, if_neg he])

theorem stepRefines_shift : StepRefines .shift s ps := by
  cases ps with
  | nil =>
      have hrun : listShift s = .ok (none, s) := by rw [listShift, h.list]; rfl
      exact h.unchanged (by rw [listStep, hrun]; rfl) rfl
  | cons p ps =>
      obtain ⟨s', hrun, hs'⟩ := listShift_ok h
      exact hs'.changed (by rw [listStep, hrun]; rfl) (fun herr => by cases herr) rfl

theorem stepRefines_pop : StepRefines .pop s ps := by
  obtain rfl | ⟨ps, p, rfl⟩ := ps.eq_nil_or_concat'
  · have hrun : listPop s = .ok (none, s) := by rw [listPop, h.list]; rfl
    exact h.unchanged (by rw [listStep, hrun]; rfl) rfl
  · obtain ⟨s', hrun, hs'⟩ := listPop_ok h
    exact hs'.changed (by rw [listStep, hrun]; rfl) (fun herr => by cases herr)
      (by simp [seqStep, elements])

/-- A call that does not exceed the counter does what the operation does. -/
theorem holds_step (op : ListOp E)
    (hfits : op.adds = true → op.granted s = true → (ps.length : Int) < INT_MAX) :
    StepRefines op s ps := by
  cases op with
  | prepend element answer => exact stepRefines_prepend h element answer hfits
  | append element answer => exact stepRefines_append h element answer hfits
  | remove element => exact stepRefines_remove h element
  | shift => exact stepRefines_shift h
  | pop => exact stepRefines_pop h

end Refines

/-- The call that does exceed it. -/
theorem listStep_overflow {s : ListState E} {ps : Segment E} (h : Holds s ps) {op : ListOp E}
    (hadds : op.adds = true) (hg : op.granted s = true) (hfull : (ps.length : Int) = INT_MAX) :
    listStep op s = .error .overflow := by
  have hcheck : checkInt ((ps.length : Int) + 1) = .error .overflow := by
    rw [checkInt, hfull]
    decide
  have hadd : ∀ (e : E) (answer : Option Addr), s.heap.grants answer = true →
      listAddnode (listOf ps) (some e) answer s.heap = .error .overflow := by
    intro e answer hanswer
    obtain ⟨a, -, -, hmalloc⟩ := Heap.malloc_of_grants
      (n := { next := none, previous := none, element := some e }) hanswer
    rw [listAddnode, hmalloc]
    simp only [listOf_nelement, hcheck, Outcome.error_bind]
  cases op with
  | prepend element answer =>
      obtain ⟨e, rfl⟩ := Option.isSome_iff_exists.mp hadds
      rw [listStep, listPrepend, h.list]
      simp [hadd e answer hg]
  | append element answer =>
      obtain ⟨e, rfl⟩ := Option.isSome_iff_exists.mp hadds
      rw [listStep, listAppend, h.list]
      simp [hadd e answer hg]
  | remove element => cases hadds
  | shift => cases hadds
  | pop => cases hadds

/-! ## Whole runs -/

omit [DecidableEq E] in
theorem holds_emptyList : Holds (emptyList : ListState E) [] where
  list := rfl
  linked := trivial
  nodup := .nil
  whole := fun _ ha => absurd rfl ha
  fits := (by decide : (0 : Int) ≤ INT_MAX)

theorem holds_of_run {xs : List E} {s : ListState E} (h : ListRun xs s) :
    ∃ ps, Holds s ps ∧ elements ps = xs := by
  induction h with
  | init => exact ⟨[], holds_emptyList, rfl⟩
  | @step xs s op answer s' _ hrun ih =>
      obtain ⟨ps, hs, rfl⟩ := ih
      obtain ⟨t, ps', hstep, hps', hxs, -⟩ := holds_step hs op fun hadds hg => by
        by_contra hfull
        have := listStep_overflow hs hadds hg (le_antisymm hs.fits (not_lt.mp hfull))
        rw [hrun] at this
        cases this
      rw [hrun] at hstep
      cases hstep
      exact ⟨ps', hps', hxs⟩

omit [DecidableEq E] in
/-- Every round of the loop removes the last node; the last one finds none. -/
theorem listFreeLoop_ok {s : ListState E} {ps : Segment E} (h : Holds s ps) {fuel : Nat}
    (hfuel : ps.length < fuel) : ∃ s', listFreeLoop fuel s = .ok s' ∧ Holds s' [] := by
  induction ps using List.reverseRecOn generalizing s fuel with
  | nil =>
      obtain ⟨fuel, rfl⟩ := Nat.exists_eq_succ_of_ne_zero (Nat.ne_of_gt hfuel)
      have hrun : listPop s = .ok (none, s) := by rw [listPop, h.list]; rfl
      exact ⟨s, by rw [listFreeLoop, hrun]; rfl, h⟩
  | append_singleton ps p ih =>
      obtain ⟨fuel, rfl⟩ := Nat.exists_eq_succ_of_ne_zero (Nat.ne_of_gt (Nat.zero_lt_of_lt hfuel))
      obtain ⟨t, hpop, ht⟩ := listPop_ok h
      obtain ⟨s', hrun, hs'⟩ := ih ht (by simpa using hfuel)
      exact ⟨s', by rw [listFreeLoop, hpop]; exact hrun, hs'⟩

/-- A run leaves a well-formed list of its sequence; every further call but
an addition to `INT_MAX` elements has a result, which is that of the operation
on the sequence, and an error changes nothing; and `list_free` ends with no
node left. -/
theorem listRun_refines_seq {xs : List E} {s : ListState E} (h : ListRun xs s) :
    ListWellFormed s xs ∧
    (∀ op : ListOp E,
      ¬ (op.adds = true ∧ op.granted s = true ∧ (xs.length : Int) = INT_MAX) →
      ∃ s', listStep op s = .ok ((seqStep (op.granted s) op xs).1, s') ∧
        ListWellFormed s' (seqStep (op.granted s) op xs).2 ∧
        ((seqStep (op.granted s) op xs).1.isError → s' = s)) ∧
    ∀ fuel, xs.length < fuel →
      ∃ s', listFreeLoop fuel s = .ok s' ∧ s'.heap = Heap.empty := by
  obtain ⟨ps, hs, rfl⟩ := holds_of_run h
  have hlen : (elements ps).length = ps.length := List.length_map _
  refine ⟨hs.wellFormed, fun op hop => ?_, fun fuel hfuel => ?_⟩
  · obtain ⟨s', ps', hrun, hs', hxs, herr⟩ := holds_step hs op fun hadds hg =>
      lt_of_le_of_ne hs.fits fun hfull => hop ⟨hadds, hg, by rw [hlen, hfull]⟩
    exact ⟨s', hrun, hxs ▸ hs'.wellFormed, herr⟩
  · obtain ⟨s', hrun, hs'⟩ := listFreeLoop_ok hs (by rwa [hlen] at hfuel)
    refine ⟨s', hrun, funext fun a => ?_⟩
    by_contra ha
    exact List.not_mem_nil (hs'.whole a ha)

/-- One is prepended to three and five, one call is refused a node, and three
is removed from the middle. -/
theorem exists_run_one_five : ∃ s : ListState Nat, ListRun [1, 5] s := by
  have step {xs s} (h : ListRun xs s) (op : ListOp Nat) {answer s'}
      (hrun : listStep op s = .ok (answer, s')) :
      ListRun (seqStep (op.granted s) op xs).2 s' := .step h hrun
  have h₁ := step .init (.append (some 3) (some 0)) rfl
  have h₂ := step h₁ (.append (some 5) (some 1)) rfl
  have h₃ := step h₂ (.prepend (some 1) (some 2)) rfl
  have h₄ := step h₃ (.prepend (some 6) none) rfl
  exact ⟨_, step h₄ (.remove (some 3)) rfl⟩

theorem listRun_refines_seq_one_five : ∃ s : ListState Nat, ListWellFormed s [1, 5] ∧
    listStep (.append (some 7) none) s = .ok (.status ENOMEM, s) ∧
    (∃ s', listStep .shift s = .ok (.element (some 1), s') ∧ ListWellFormed s' [5]) ∧
    ∃ s', listFreeLoop 3 s = .ok s' ∧ s'.heap = Heap.empty := by
  obtain ⟨s, hrun⟩ := exists_run_one_five
  obtain ⟨hwell, hstep, hfree⟩ := listRun_refines_seq hrun
  obtain ⟨s₁, hrefused, -, hsame⟩ := hstep (.append (some 7) none) (fun h => by cases h.2.1)
  obtain ⟨s₂, hshift, hwell₂, -⟩ := hstep .shift (fun h => by cases h.1)
  have herr : ENOMEM ≠ 0 := by decide
  cases hsame herr
  exact ⟨s, hwell, hrefused, ⟨s₂, hshift, hwell₂⟩, hfree 3 (by decide)⟩

omit [DecidableEq E] in
/-- There is always an address that no node of the list has. -/
theorem exists_grants {s : ListState E} {ps : Segment E} (h : Holds s ps) :
    ∃ a, s.heap.grants (some a) = true := by
  obtain ⟨a, ha⟩ := Infinite.exists_notMem_finset (addrs ps).toFinset
  refine ⟨a, ?_⟩
  by_contra hg
  rw [List.mem_toFinset] at ha
  exact ha (h.whole a fun hnone => hg (by simp [Heap.grants, hnone]))

theorem holds_of_replicate {e : E} {n : Nat} {s : ListState E}
    (hs : ListRun (List.replicate n e) s) : ∃ ps, Holds s ps ∧ ps.length = n := by
  obtain ⟨ps, hps, hxs⟩ := holds_of_run hs
  have hlen := congrArg List.length hxs
  rw [elements, List.length_map, List.length_replicate] at hlen
  exact ⟨ps, hps, hlen⟩

/-- Lists of any length that the counter can hold are reached. -/
theorem exists_run_replicate (e : E) {n : Nat} (hn : (n : Int) ≤ INT_MAX) :
    ∃ s, ListRun (List.replicate n e) s := by
  induction n with
  | zero => exact ⟨_, .init⟩
  | succ n ih =>
      obtain ⟨s, hs⟩ := ih (by omega)
      obtain ⟨ps, hps, hlen⟩ := holds_of_replicate hs
      obtain ⟨a, ha⟩ := exists_grants hps
      obtain ⟨s', -, hrun, -⟩ := holds_step hps (.prepend (some e) (some a)) fun _ _ => by
        rw [hlen]
        omega
      have hnext := ListRun.step hs hrun
      have hg : ListOp.granted s (.prepend (some e) (some a)) = true := ha
      rw [seqStep, if_pos hg] at hnext
      exact ⟨s', hnext⟩

/-- A list of `INT_MAX` elements, to which one more is appended. -/
theorem listAppend_full : ∃ (xs : List Unit) (s : ListState Unit) (a : Addr), ListRun xs s ∧
    (xs.length : Int) = INT_MAX ∧ s.heap.grants (some a) = true ∧
    listStep (.append (some ()) (some a)) s = .error .overflow := by
  obtain ⟨n, hn⟩ : ∃ n : Nat, (n : Int) = INT_MAX := ⟨2 ^ 31 - 1, by decide⟩
  obtain ⟨s, hs⟩ := exists_run_replicate () hn.le
  obtain ⟨ps, hps, hlen⟩ := holds_of_replicate hs
  obtain ⟨a, ha⟩ := exists_grants hps
  exact ⟨_, s, a, hs, by rw [List.length_replicate, hn], ha,
    listStep_overflow hps rfl ha (by rw [hlen, hn])⟩

end Jccl
