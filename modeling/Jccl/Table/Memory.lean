/-
# `Jccl.Table.Memory` — what `table_add` does when there is no memory

Without memory for a node, `table_add` returns an error and has done nothing.
Without memory for the duplicate of the key, `strdup` returns NULL, which
`table_create_node` does not look at: the node is added without a key, the
call reports success, and the next search of that chain compares NULL.

So a run is right just if no allocation of a node is followed by a refused
duplicate (`Duplicates`).
-/
import Jccl.Table.Assoc

namespace Jccl

open Chains

variable {V : Type}

/-- The table of these bindings, in which every node has a key and is in the
chain of its hash. -/
structure HoldsBindings (t : Table V) (bs : Bindings V) : Prop where
  table : t = tableOf t.size bs
  keyed : ∀ i chain, t.entries[i]? = some chain → ∀ np ∈ chain,
    ∃ key, np.key = some key ∧ hash t key = .ok i

/-- In every state of the run the table holds the bindings that the successful
calls before it have left; each call comes to an end, and acts and answers as
on the bindings, or is an addition that fails and leaves the table as it was. -/
def TableRunSound : List (TableOp V) → Bindings V → Table V → List Bool → Prop
  | [], bs, t, _ => HoldsBindings t bs
  | op :: ops, bs, t, answers => HoldsBindings t bs ∧
      match (tableStep op (some t)).run answers with
      | .error _ => False
      | .ok ((_, none), _) => False
      | .ok ((answer, some t'), answers') =>
          (answer = (assocStep op bs).1 ∧ TableRunSound ops (assocStep op bs).2 t' answers') ∨
            (op.adds = true ∧ (∃ errno, errno ≠ 0 ∧ answer = .status errno) ∧ t' = t ∧
              TableRunSound ops bs t' answers')

/-- Whenever an addition is granted its node, it is granted the duplicate of
the key. -/
def Duplicates : List (TableOp V) → List Bool → Prop
  | [], _ => True
  | .add _ _ :: ops, answers =>
      if granted answers = true then
        granted answers.tail = true ∧ Duplicates ops answers.tail.tail
      else
        Duplicates ops answers.tail
  | .remove _ :: ops, answers => Duplicates ops answers
  | .lookup _ :: ops, answers => Duplicates ops answers

/-! ## The node -/

section Node

variable (key : CString) (value : Option V) {answers : List Bool}

theorem tableCreateNode_refused (hnode : granted answers = false) :
    (tableCreateNode key value).run answers = .ok (none, answers.tail) := by
  rw [tableCreateNode, StateT.run_bind, allocates_run, hnode]
  rfl

theorem tableCreateNode_ok (hnode : granted answers = true) (hdup : granted answers.tail = true) :
    (tableCreateNode key value).run answers
      = .ok (some (node (key, value)), answers.tail.tail) := by
  rw [tableCreateNode, StateT.run_bind, allocates_run, hnode, Outcome.ok_bind]
  show (allocates >>= _).run answers.tail = _
  rw [StateT.run_bind, allocates_run, hdup]
  rfl

/-- The result of `strdup` is not looked at. -/
theorem tableCreateNode_null (hnode : granted answers = true)
    (hdup : granted answers.tail = false) :
    (tableCreateNode key value).run answers
      = .ok (some { key := none, value := value }, answers.tail.tail) := by
  rw [tableCreateNode, StateT.run_bind, allocates_run, hnode, Outcome.ok_bind]
  show (allocates >>= _).run answers.tail = _
  rw [StateT.run_bind, allocates_run, hdup]
  rfl

end Node

/-! ## One addition -/

section Add

variable {size : UInt} (hsize : size ≠ 0) (bs : Bindings V) (key : CString) (value : Option V)
  {answers : List Bool}

theorem tableAdd_refused (hnode : granted answers = false) :
    (tableAdd (some (tableOf size bs)) key value).run answers
      = .ok ((ENOMEM, some (tableOf size bs)), answers.tail) := by
  rw [tableAdd, StateT.run_bind, tableCreateNode_refused key value hnode]
  rfl

include hsize

/-- The node without a key is at the head of a chain. -/
theorem tableAdd_null (hnode : granted answers = true) (hdup : granted answers.tail = false) :
    ∃ t' : Table V, (tableAdd (some (tableOf size bs)) key value).run answers
        = .ok ((0, some t'), answers.tail.tail) ∧
      ∃ next, t'.entries[hashIndex size key]? = some ({ key := none, value := value } :: next) := by
  have hhash : hash (tableOf size bs) key = .ok (hashIndex size key) := hash_ok hsize key
  have hlt : hashIndex size key < (tableOf size bs).entries.length := by
    simpa [tableOf] using hashIndex_lt hsize key
  refine ⟨{ tableOf size bs with
    entries := (tableOf size bs).entries.set (hashIndex size key)
      ({ key := none, value := value } :: (chainOf size key bs).map node) }, ?_, _,
    List.getElem?_set_self hlt⟩
  simp only [tableAdd, StateT.run_bind, AllocM.run_lift, tableCreateNode_null key value hnode hdup,
    hhash, Outcome.ok_bind, readAt_entries hsize, writeAt_of_lt hlt]
  rfl

theorem holdsBindings_tableOf : HoldsBindings (tableOf size bs) bs where
  table := rfl
  keyed i c hi np hnp := by
    obtain ⟨hlt, hget⟩ := List.getElem?_eq_some_iff.mp hi
    have hc : (chain (hashIndex size) Prod.fst i bs).map node = c := by
      rw [← hget]
      simp [tableOf, chains]
    rw [← hc, List.mem_map] at hnp
    obtain ⟨b, hb, rfl⟩ := hnp
    have hindex : hashIndex size b.1 = i := of_decide_eq_true (List.mem_filter.mp hb).2
    exact ⟨b.1, rfl, hindex ▸ hash_ok hsize b.1⟩

end Add

/-! ## Whole runs -/

theorem TableRunSound.holds {ops : List (TableOp V)} {bs : Bindings V} {t : Table V}
    {answers : List Bool} (h : TableRunSound ops bs t answers) : HoldsBindings t bs := by
  cases ops with
  | nil => exact h
  | cons op ops => exact h.1

section Run

variable {size : UInt} (hsize : size ≠ 0) {ops : List (TableOp V)} {bs : Bindings V}
  {answers : List Bool}

include hsize

theorem tableRunSound_of_duplicates (h : Duplicates ops answers) :
    TableRunSound ops bs (tableOf size bs) answers := by
  induction ops generalizing bs answers with
  | nil => exact holdsBindings_tableOf hsize bs
  | cons op ops ih =>
      refine ⟨holdsBindings_tableOf hsize bs, ?_⟩
      cases op with
      | add key value =>
          rw [Duplicates] at h
          by_cases hnode : granted answers = true
          · rw [if_pos hnode] at h
            have hadd := tableAdd_ok hsize bs key value (tableCreateNode_ok key value hnode h.1)
            rw [tableStep, StateT.run_bind, hadd]
            exact .inl ⟨rfl, ih h.2⟩
          · rw [if_neg hnode] at h
            rw [tableStep, StateT.run_bind,
              tableAdd_refused bs key value (Bool.eq_false_of_not_eq_true hnode)]
            exact .inr ⟨rfl, ⟨ENOMEM, by decide, rfl⟩, rfl, ih h⟩
      | remove key =>
          rw [tableStep_of_not_adds hsize bs rfl]
          exact .inl ⟨rfl, ih h⟩
      | lookup key =>
          rw [tableStep_of_not_adds hsize bs rfl]
          exact .inl ⟨rfl, ih h⟩

theorem duplicates_of_tableRunSound (h : TableRunSound ops bs (tableOf size bs) answers) :
    Duplicates ops answers := by
  induction ops generalizing bs answers with
  | nil => exact trivial
  | cons op ops ih =>
      obtain ⟨-, hstep⟩ := h
      cases op with
      | add key value =>
          rw [Duplicates]
          rw [tableStep, StateT.run_bind] at hstep
          by_cases hnode : granted answers = true
          · rw [if_pos hnode]
            rcases Bool.eq_false_or_eq_true (granted answers.tail) with hdup | hdup
            · have hadd := tableAdd_ok hsize bs key value (tableCreateNode_ok key value hnode hdup)
              rw [hadd] at hstep
              rcases hstep with ⟨-, hrest⟩ | ⟨-, ⟨errno, hne, herr⟩, -⟩
              · exact ⟨hdup, ih hrest⟩
              · exact absurd (TableAnswer.status.inj herr).symm hne
            · -- the table with a node that has no key is no table of bindings
              obtain ⟨t', hadd, next, hhead⟩ := tableAdd_null hsize bs key value hnode hdup
              rw [hadd] at hstep
              rcases hstep with ⟨-, hrest⟩ | ⟨-, ⟨errno, hne, herr⟩, -⟩
              · obtain ⟨k, hk, -⟩ := hrest.holds.keyed _ _ hhead _ List.mem_cons_self
                cases hk
              · exact absurd (TableAnswer.status.inj herr).symm hne
          · rw [if_neg hnode]
            rw [tableAdd_refused bs key value (Bool.eq_false_of_not_eq_true hnode)] at hstep
            rcases hstep with ⟨herr, -⟩ | ⟨-, -, -, hrest⟩
            · cases herr
            · exact ih hrest
      | remove key =>
          rw [tableStep_of_not_adds hsize bs rfl] at hstep
          exact ih (hstep.elim And.right fun hadds => by cases hadds.1)
      | lookup key =>
          rw [tableStep_of_not_adds hsize bs rfl] at hstep
          exact ih (hstep.elim And.right fun hadds => by cases hadds.1)

end Run

/-- **When `table_add` fails cleanly**: from an empty table of any size on, any
calls and any answers of the allocator keep every binding in its chain, and
compare with no NULL, just if every node gets the duplicate of its key. -/
theorem tableRunSound_iff (size : UInt) (hsize : size ≠ 0) :
    ∃ t : Table V, (tableInit size).run [] = .ok (some t, []) ∧
      ∀ ops answers, TableRunSound ops [] t answers ↔ Duplicates ops answers :=
  ⟨_, tableInit_ok hsize, fun _ _ =>
    ⟨duplicates_of_tableRunSound hsize, tableRunSound_of_duplicates hsize⟩⟩

theorem tableRunSound_iff_one :
    ∃ t : Table Nat, (tableInit 1).run [] = .ok (some t, []) ∧
      ∀ ops answers, TableRunSound ops [] t answers ↔ Duplicates ops answers :=
  tableRunSound_iff 1 (by decide)

/-- There is memory for the node and none for the key; then another key of the
same chain is looked up. -/
theorem tableAdd_null_key : ∃ t : Table Nat, (tableInit 1).run [] = .ok (some t, []) ∧
    (tableRun [.add ⟨[97], by decide⟩ (some 1), .lookup ⟨[98], by decide⟩] (some t)).run
      [true, false] = .error .null ∧
    ¬ TableRunSound [.add ⟨[97], by decide⟩ (some 1), .lookup ⟨[98], by decide⟩] [] t
      [true, false] := by
  refine ⟨{ entries := [[]], size := 1 }, rfl, rfl, ?_⟩
  rintro ⟨-, ⟨-, hrest⟩ | ⟨-, ⟨errno, hne, herr⟩, -⟩⟩
  · obtain ⟨k, hk, -⟩ := hrest.holds.keyed 0 _ rfl _ List.mem_cons_self
    cases hk
  · exact hne (TableAnswer.status.inj herr).symm

end Jccl
