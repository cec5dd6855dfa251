/-
# `Jccl.List.Changed` — an iterator over a list that is changed

Nothing in a list knows of its iterators.  A call on the list may free a node
that an iterator points to, and then a move reads what was freed.  A call that
leaves the two nodes alone does no harm, though the two pointers need no
longer be the two sides of one gap: a move looks at one of them only, and for
each there is a gap where it is right (`move_cases`).
-/
import Jccl.List.Iterator

namespace Jccl

open Segment

variable {E : Type}

/-- No pointer of the iterator dangles. -/
def ListIterator.Live (it : ListIterator) (h : Heap (ListNode E)) : Prop :=
  ∀ a, it.next = some a ∨ it.previous = some a → h a ≠ none

/-- Calls on the list and moves of an iterator, in any order: after each call
the nodes that the iterator points to are still there. -/
inductive IteratorRun [DecidableEq E] : List E → ListState E → ListIterator → Prop
  | init {xs s it} : ListRun xs s → listIteratorInit s true = .ok (some it) → IteratorRun xs s it
  | reset {xs s it errno it'} : ListRun xs s →
      listIteratorReset s (some it) = .ok (errno, some it') → IteratorRun xs s it'
  | move {xs s it move element it'} : IteratorRun xs s it →
      listIteratorMove s move (some it) = .ok (element, some it') → IteratorRun xs s it'
  | call {xs s it op answer s'} : IteratorRun xs s it → listStep op s = .ok (answer, s') →
      it.Live s'.heap → IteratorRun (seqStep (op.granted s) op xs).2 s' it

/-! ## One move -/

section Move

variable {s : ListState E} {ps : Segment E} {it : ListIterator}

theorem exists_getElem_of_addr {a : Addr} (h : a ∈ addrs ps) :
    ∃ (g : Nat) (e : E), ps[g]? = some (a, e) := by
  obtain ⟨⟨a, e⟩, hp, rfl⟩ := List.mem_map.mp h
  obtain ⟨g, hg⟩ := List.getElem?_of_mem hp
  exact ⟨g, e, hg⟩

theorem AtCursor.live (hs : Holds s ps) {c : Cursor (elements ps).length} (h : AtCursor ps it c) :
    it.Live s.heap := by
  intro a ha
  have hmem : a ∈ addrs ps := by
    by_contra hno
    rcases ha with ha | ha
    · refine first_ne_of_notMem (fun hdrop => hno ?_) (h.next.symm.trans ha)
      exact ((List.drop_sublist c.ahead ps).map Prod.fst).subset hdrop
    · refine last_ne_of_notMem (fun htake => hno ?_) (h.previous.symm.trans ha)
      exact ((List.take_sublist c.behind ps).map Prod.fst).subset htake
  obtain ⟨n, hn⟩ := linked_live hs.linked hmem
  rw [hn]
  exact Option.some_ne_none n

/-- A move looks at one pointer only, and there is a gap where that pointer is
right: the move is that of an iterator which is there. -/
theorem ListIterator.Live.move_cases (hs : Holds s ps) (h : it.Live s.heap) (move : Move) :
    listIteratorMove s move (some it) = .ok (none, some it) ∨
    ∃ it' c, AtCursor ps it' c ∧
      listIteratorMove s move (some it) = listIteratorMove s move (some it') := by
  cases move with
  | next =>
      cases hnext : it.next with
      | none =>
          left
          simp only [listIteratorMove, listIteratorNext, if_pos hnext]
          rfl
      | some a =>
          right
          obtain ⟨g, e, hg⟩ := exists_getElem_of_addr (hs.whole a (h a (.inl hnext)))
          have hle : g ≤ (elements ps).length :=
            (elements_length ps).symm ▸ (List.getElem?_eq_some_iff.mp hg).1.le
          refine ⟨{ next := some a, previous := last (ps.take g) none }, .gap g hle,
            ⟨(first_drop hg).symm, rfl⟩, ?_⟩
          simp only [listIteratorMove, listIteratorNext, hnext, reduceCtorEq, if_false]
  | previous =>
      cases hprevious : it.previous with
      | none =>
          left
          simp only [listIteratorMove, listIteratorPrevious, if_pos hprevious]
          rfl
      | some a =>
          right
          obtain ⟨g, e, hg⟩ := exists_getElem_of_addr (hs.whole a (h a (.inr hprevious)))
          have hle : g + 1 ≤ (elements ps).length :=
            (elements_length ps).symm ▸ (List.getElem?_eq_some_iff.mp hg).1
          refine ⟨{ next := first (ps.drop (g + 1)) none, previous := some a }, .gap (g + 1) hle,
            ⟨rfl, (last_take hg).symm⟩, ?_⟩
          simp only [listIteratorMove, listIteratorPrevious, hprevious, reduceCtorEq, if_false]

/-- Behind a move that has gone over an element the iterator is at a gap. -/
theorem ListIterator.Live.move_ok (hs : Holds s ps) (h : it.Live s.heap) {move : Move}
    {element : Option E} {it' : ListIterator}
    (hmove : listIteratorMove s move (some it) = .ok (element, some it')) :
    (element = none ∧ it' = it) ∨ ∃ c, AtCursor ps it' c := by
  rcases h.move_cases hs move with hnone | ⟨it₂, c, hat, hsame⟩
  · left
    cases hmove.symm.trans hnone
    exact ⟨rfl, rfl⟩
  · right
    obtain ⟨it₃, hmove', hat'⟩ := hat.move_ok hs move
    cases (hmove.symm.trans hsame).trans hmove'
    exact ⟨_, hat'⟩

theorem listIteratorRun_null {move : Move}
    (h : listIteratorMove s move (some it) = .ok (none, some it)) (k : Nat) :
    listIteratorRun s (List.replicate k move) (some it)
      = .ok (List.replicate k none, some it) := by
  induction k with
  | zero => rfl
  | succ k ih =>
      rw [List.replicate_succ, listIteratorRun, h, Outcome.ok_bind]
      show (listIteratorRun s (List.replicate k move) (some it) >>= _) = _
      rw [ih]
      rfl

/-- A move again and again: over what is ahead of some gap (`A`), or over nothing. -/
theorem ListIterator.Live.replicate_ok (hs : Holds s ps) (h : it.Live s.heap) {move : Move}
    {A : Cursor (elements ps).length → List E}
    (hstep : ∀ c, (cursorStep (elements ps) move c).1 = (A c).head? ∧
      A (cursorStep (elements ps) move c).2 = (A c).tail) :
    ∃ part, (part = [] ∨ ∃ c, part = A c) ∧
      ∀ k, ∃ it', listIteratorRun s (List.replicate k move) (some it)
        = .ok ((List.range k).map fun i => part[i]?, some it') := by
  rcases h.move_cases hs move with hnone | ⟨it₂, c, hat, hsame⟩
  · refine ⟨[], .inl rfl, fun k => ⟨it, ?_⟩⟩
    rw [listIteratorRun_null hnone k]
    simp
  · refine ⟨A c, .inr ⟨c, rfl⟩, fun k => ?_⟩
    obtain _ | k := k
    · exact ⟨it, rfl⟩
    · obtain ⟨it', _, hrun, -⟩ := hat.run_ok hs (List.replicate (k + 1) move)
      rw [cursorRun_replicate (elements ps) hstep] at hrun
      refine ⟨it', ?_⟩
      rw [List.replicate_succ, listIteratorRun] at hrun ⊢
      rw [hsame]
      exact hrun

end Move

/-! ## Runs -/

section Run

variable [DecidableEq E] {xs : List E} {s : ListState E} {it : ListIterator}

theorem IteratorRun.listRun (h : IteratorRun xs s it) : ListRun xs s := by
  induction h with
  | init hlist _ => exact hlist
  | reset hlist _ => exact hlist
  | move _ _ ih => exact ih
  | call _ hcall _ ih => exact .step ih hcall

theorem IteratorRun.live (h : IteratorRun xs s it) : it.Live s.heap := by
  induction h with
  | init hlist hinit =>
      obtain ⟨ps, hs, rfl⟩ := holds_of_run hlist
      cases (listIteratorInit_ok hs).symm.trans hinit
      exact (@atCursor_fresh _ ps).live hs
  | reset hlist hreset =>
      obtain ⟨ps, hs, rfl⟩ := holds_of_run hlist
      cases (listIteratorReset_ok hs _).symm.trans hreset
      exact (@atCursor_fresh _ ps).live hs
  | move hrun hmove ih =>
      obtain ⟨ps, hs, rfl⟩ := holds_of_run hrun.listRun
      rcases ih.move_ok hs hmove with ⟨-, rfl⟩ | ⟨c, hat⟩
      · exact ih
      · exact hat.live hs
  | call _ _ hlive => exact hlive

omit [DecidableEq E] in
/-- One of the two moves uses the pointer that dangles. -/
theorem ListIterator.exists_dangling {h : Heap (ListNode E)} (hlive : ¬ it.Live h)
    (list : Option CList) : ∃ move,
      listIteratorMove { list := list, heap := h } move (some it) = .error .dangling := by
  rw [ListIterator.Live] at hlive
  push Not at hlive
  obtain ⟨a, hnext | hprevious, hnone⟩ := hlive
  · refine ⟨.next, ?_⟩
    simp [listIteratorMove, listIteratorNext, hnext, Heap.load, hnone]
  · refine ⟨.previous, ?_⟩
    simp [listIteratorMove, listIteratorPrevious, hprevious, Heap.load, hnone]

end Run

/-- **An iterator outlives the changes that leave its two nodes.**  Forward it
goes over an end of the list as it is now, backward over a beginning of it, and
once it has gone over one element it is a cursor again.  After a call that has
freed one of the nodes, a move uses the memory of that node. -/
theorem listIterator_survives [DecidableEq E] {xs : List E} {s : ListState E} {it : ListIterator}
    (h : IteratorRun xs s it) :
    (∃ after, after <:+ xs ∧ ∀ k, ∃ it', listIteratorRun s (List.replicate k .next) (some it) =
      .ok ((List.range k).map fun i => after[i]?, some it')) ∧
    (∃ before, before <+: xs ∧ ∀ k, ∃ it',
      listIteratorRun s (List.replicate k .previous) (some it) =
        .ok ((List.range k).map fun i => before.reverse[i]?, some it')) ∧
    (∀ move e it', listIteratorMove s move (some it) = .ok (some e, some it') →
      ∃ c, ∀ moves, ∃ it₂,
        listIteratorRun s moves (some it') = .ok (cursorRun xs moves c, some it₂)) ∧
    ∀ op answer s', listStep op s = .ok (answer, s') → ¬ it.Live s'.heap →
      ∃ move, listIteratorMove s' move (some it) = .error .dangling := by
  obtain ⟨ps, hs, rfl⟩ := holds_of_run h.listRun
  refine ⟨?_, ?_, ?_, fun op answer s' _ hlive => ListIterator.exists_dangling hlive s'.list⟩
  · obtain ⟨part, hpart, hrun⟩ := h.live.replicate_ok hs (cursorStep_next (elements ps))
    refine ⟨part, ?_, hrun⟩
    rcases hpart with rfl | ⟨c, rfl⟩
    · exact List.nil_suffix
    · exact List.drop_suffix _ _
  · obtain ⟨part, hpart, hrun⟩ := h.live.replicate_ok hs (cursorStep_previous (elements ps))
    rw [← part.reverse_reverse] at hrun
    refine ⟨part.reverse, ?_, hrun⟩
    rcases hpart with rfl | ⟨c, rfl⟩
    · exact List.nil_prefix
    · rw [List.reverse_reverse]
      exact List.take_prefix _ _
  · intro move e it' hmove
    rcases h.live.move_ok hs hmove with ⟨hnone, -⟩ | ⟨c, hat⟩
    · cases hnone
    · refine ⟨c, fun moves => ?_⟩
      obtain ⟨it₂, _, hrun, -⟩ := hat.run_ok hs moves
      exact ⟨it₂, hrun⟩

/-- Five is prepended behind the back of an iterator over the list of three. -/
theorem listIterator_survives_prepend : ∃ (s : ListState Nat) (it : ListIterator),
    (∃ after, after <:+ [5, 3] ∧ ∀ k, ∃ it',
      listIteratorRun s (List.replicate k .next) (some it) =
        .ok ((List.range k).map fun i => after[i]?, some it')) ∧
    ∃ it', listIteratorMove s .next (some it) = .ok (some 3, some it') ∧
      ∃ c, ∀ moves, ∃ it₂,
        listIteratorRun s moves (some it') = .ok (cursorRun [5, 3] moves c, some it₂) := by
  obtain ⟨s, it, s', hrun, hinit, hcall, hg, hend, hnode, hmove⟩ :
      ∃ (s : ListState Nat) (it : ListIterator) (s' : ListState Nat),
        listStep (.append (some 3) (some 0)) emptyList = .ok (.status 0, s) ∧
        listIteratorInit s true = .ok (some it) ∧
        listStep (.prepend (some 5) (some 1)) s = .ok (.status 0, s') ∧
        s.heap.grants (some 1) = true ∧
        it = { next := some 0, previous := some 0 } ∧ (s'.heap 0).isSome = true ∧
        listIteratorMove s' .next (some it)
          = .ok (some 3, some { next := none, previous := some 0 }) :=
    ⟨_, _, _, rfl, rfl, rfl, rfl, rfl, rfl, rfl⟩
  have hlist : ListRun [3] s := .step .init hrun
  have hlive : it.Live s'.heap := by
    intro a ha
    have hzero : a = 0 := by
      subst hend
      exact (Option.some.inj (ha.elim id id)).symm
    rw [hzero]
    exact Option.isSome_iff_ne_none.mp hnode
  have h := IteratorRun.call (.init hlist hinit) hcall hlive
  have hgranted : ListOp.granted s (.prepend (some 5) (some 1)) = true := hg
  rw [seqStep, if_pos hgranted] at h
  exact ⟨s', it, (listIterator_survives h).1, _, hmove,
    (listIterator_survives h).2.2.1 .next 3 _ hmove⟩

end Jccl
