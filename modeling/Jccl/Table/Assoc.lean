/-
# `Jccl.Table.Assoc` — the table answers like an association list

A table holds, in the chain with index `i`, the bindings whose key hashes to
`i`, newest first.  So it is determined by its size and the list of all
bindings, newest first (`tableOf`), and each operation of the table is the
operation of the list: what the list does for a key happens in the chain of
that key (`Chains`), and nothing in the answers depends on the size.
-/
import Jccl.Lib.Chains
import Jccl.Table.Defs

namespace Jccl

open Chains

variable {V : Type}

/-! ## The association list -/

/-- The bindings, newest first. -/
abbrev Bindings (V : Type) := List (CString × Option V)

def isFor (key : CString) (b : CString × Option V) : Bool := decide (b.1 = key)

/-- The value that is bound most recently; NULL, if there is none. -/
def assocLookup (key : CString) (bs : Bindings V) : Option V := (bs.find? (isFor key)).bind (·.2)

inductive TableOp (V : Type) where
  | add (key : CString) (value : Option V)
  | remove (key : CString)
  | lookup (key : CString)

def TableOp.key : TableOp V → CString
  | .add key _ | .remove key | .lookup key => key

def TableOp.adds : TableOp V → Bool
  | .add _ _ => true
  | .remove _ | .lookup _ => false

inductive TableAnswer (V : Type) where
  | status (errno : Int)
  | value (value : Option V)

def assocStep : TableOp V → Bindings V → TableAnswer V × Bindings V
  | .add key value, bs => (.status 0, (key, value) :: bs)
  | .remove key, bs =>
      if bs.any (isFor key) then (.status 0, bs.eraseP (isFor key)) else (.status EINVAL, bs)
  | .lookup key, bs => (.value (assocLookup key bs), bs)

def assocRun : List (TableOp V) → Bindings V → List (TableAnswer V) × Bindings V
  | [], bs => ([], bs)
  | op :: ops, bs =>
      let (answer, bs) := assocStep op bs
      let (answers, bs) := assocRun ops bs
      (answer :: answers, bs)

/-- An operation on another key. -/
theorem assocLookup_step {op : TableOp V} {key : CString} (hne : op.key ≠ key) (bs : Bindings V) :
    assocLookup key (assocStep op bs).2 = assocLookup key bs := by
  cases op with
  | add key' value =>
      have hkey : isFor key (key', value) = false := decide_eq_false hne
      rw [assocStep, assocLookup, List.find?_cons_of_neg (by simp [hkey]), assocLookup]
  | remove key' =>
      rw [assocStep]
      split
      · rw [assocLookup, assocLookup, find?_eraseP fun b hb hb' => hne ?_]
        rw [← of_decide_eq_true hb', ← of_decide_eq_true hb]
        rfl
      · rfl
  | lookup key' => rfl

/-! ## The code, step by step -/

/-- One call, and what it returns. -/
def tableStep : TableOp V → Option (Table V) → AllocM (TableAnswer V × Option (Table V))
  | .add key value, table => do
      let (errno, table) ← tableAdd table key value
      return (.status errno, table)
  | .remove key, table => do
      let (errno, table) ← tableRemove table key
      return (.status errno, table)
  | .lookup key, table => do
      let value ← tableLookup table key
      return (.value value, table)

def tableRun : List (TableOp V) → Option (Table V) →
    AllocM (List (TableAnswer V) × Option (Table V))
  | [], table => return ([], table)
  | op :: ops, table => do
      let (answer, table) ← tableStep op table
      let (answers, table) ← tableRun ops table
      return (answer :: answers, table)

/-! ## The table of an association list -/

/-- The index of the chain of a key. -/
def hashIndex (size : UInt) (key : CString) : Nat :=
  (key.bytes.foldl (fun hash c => Multiplier * hash + BitVec.ofNat 32 c.toNat) 0 % size).toNat

theorem hash_ok {t : Table V} (h : t.size ≠ 0) (key : CString) :
    hash t key = .ok (hashIndex t.size key) := if_neg h

theorem hashIndex_lt {size : UInt} (h : size ≠ 0) (key : CString) :
    hashIndex size key < size.toNat := by
  have hpos : 0 < size.toNat := Nat.pos_of_ne_zero fun h0 => h (BitVec.eq_of_toNat_eq h0)
  rw [hashIndex, BitVec.toNat_umod]
  exact Nat.mod_lt _ hpos

def node (b : CString × Option V) : TableNode V := { key := some b.1, value := b.2 }

def tableOf (size : UInt) (bs : Bindings V) : Table V :=
  { entries := (chains (hashIndex size) Prod.fst size.toNat bs).map (List.map node), size := size }

/-- The bindings in the chain of a key. -/
abbrev chainOf (size : UInt) (key : CString) (bs : Bindings V) : Bindings V :=
  chain (hashIndex size) Prod.fst (hashIndex size key) bs

section Chain

variable {size : UInt} (hsize : size ≠ 0)

include hsize

theorem readAt_entries (key : CString) (bs : Bindings V) :
    readAt (tableOf size bs).entries (hashIndex size key) = .ok ((chainOf size key bs).map node) := by
  have hlt : hashIndex size key < (tableOf size bs).entries.length := by
    simpa [tableOf] using hashIndex_lt hsize key
  rw [readAt_of_lt hlt]
  simp [tableOf, chains]

/-- A chain is replaced, and all others are kept. -/
theorem writeAt_entries (key : CString) (bs bs' : Bindings V)
    (hne : ∀ i, i ≠ hashIndex size key →
      chain (hashIndex size) Prod.fst i bs' = chain (hashIndex size) Prod.fst i bs) :
    writeAt (tableOf size bs).entries (hashIndex size key) ((chainOf size key bs').map node)
      = .ok (tableOf size bs').entries := by
  have hlt : hashIndex size key < (tableOf size bs).entries.length := by
    simpa [tableOf] using hashIndex_lt hsize key
  rw [writeAt_of_lt hlt]
  simp only [tableOf]
  rw [← List.map_set, set_chains (hashIndex size) Prod.fst rfl hne]

end Chain

theorem strcmp_node (b : CString × Option V) (key : CString) :
    ∃ d, strcmp (node b).key (some key) = .ok d ∧ (d = 0 ↔ isFor key b = true) := by
  obtain ⟨d, hd, heq⟩ := strcmp_some b.1 key
  exact ⟨d, hd, heq.trans decide_eq_true_iff.symm⟩

theorem lookupFrom_ok (key : CString) (bs : Bindings V) :
    lookupFrom key (bs.map node) = .ok (assocLookup key bs) := by
  induction bs with
  | nil => rfl
  | cons b bs ih =>
      obtain ⟨d, hd, hzero⟩ := strcmp_node b key
      rw [List.map_cons, lookupFrom, hd, Outcome.ok_bind]
      by_cases hb : isFor key b = true
      · rw [if_pos (hzero.mpr hb), assocLookup, List.find?_cons_of_pos hb]
        rfl
      · rw [if_neg (mt hzero.mp hb), ih, assocLookup, assocLookup, List.find?_cons_of_neg hb]

theorem removeBehind_ok (key : CString) (bs : Bindings V) :
    removeBehind key (bs.map node)
      = .ok (if bs.any (isFor key) then some ((bs.eraseP (isFor key)).map node) else none) := by
  induction bs with
  | nil => rfl
  | cons b bs ih =>
      obtain ⟨d, hd, hzero⟩ := strcmp_node b key
      rw [List.map_cons, removeBehind, hd, Outcome.ok_bind]
      by_cases hb : isFor key b = true
      · rw [if_pos (hzero.mpr hb)]
        simp [hb]
      · rw [if_neg (mt hzero.mp hb), ih, Outcome.ok_bind, List.any_cons, List.eraseP_cons_of_neg hb]
        simp only [hb, Bool.false_or]
        split <;> rfl

/-! ## The operations on the table of an association list -/

section Step

variable {size : UInt} (hsize : size ≠ 0) (bs : Bindings V)

include hsize

theorem tableInit_ok :
    (tableInit size).run [] = .ok (some (tableOf size ([] : Bindings V)), []) := by
  have hempty : (tableOf size ([] : Bindings V)).entries = List.replicate size.toNat [] := by
    simp [tableOf]
  simp only [tableInit, if_neg hsize]
  rw [← hempty]
  rfl

theorem tableLookup_ok (key : CString) :
    tableLookup (some (tableOf size bs)) key = .ok (assocLookup key bs) := by
  have hhash : hash (tableOf size bs) key = .ok (hashIndex size key) := hash_ok hsize key
  simp only [tableLookup, hhash, Outcome.ok_bind, readAt_entries hsize, lookupFrom_ok]
  exact congrArg (fun b => Except.ok (Option.bind b Prod.snd))
    (find?_chain (hashIndex size) Prod.fst key bs)

theorem tableAdd_ok (key : CString) (value : Option V) {answers answers' : List Bool}
    (hcreate : (tableCreateNode key value).run answers
      = .ok (some (node (key, value)), answers')) :
    (tableAdd (some (tableOf size bs)) key value).run answers
      = .ok ((0, some (tableOf size ((key, value) :: bs))), answers') := by
  have hhash : hash (tableOf size bs) key = .ok (hashIndex size key) := hash_ok hsize key
  have hwrite := writeAt_entries hsize key bs ((key, value) :: bs)
    fun i hi => chain_cons_of_ne (hashIndex size) Prod.fst hi bs
  have hchain : chainOf size key ((key, value) :: bs) = (key, value) :: chainOf size key bs :=
    chain_cons_self (hashIndex size) Prod.fst (key, value) bs
  rw [hchain, List.map_cons] at hwrite
  simp only [tableAdd, StateT.run_bind, AllocM.run_lift, hcreate, hhash, Outcome.ok_bind,
    readAt_entries hsize, hwrite]
  rfl

theorem tableRemove_ok (key : CString) :
    tableRemove (some (tableOf size bs)) key = .ok
      (if bs.any (isFor key) then (0, some (tableOf size (bs.eraseP (isFor key))))
        else (EINVAL, some (tableOf size bs))) := by
  have hhash : hash (tableOf size bs) key = .ok (hashIndex size key) := hash_ok hsize key
  have hwrite := writeAt_entries hsize key bs (bs.eraseP (isFor key))
    fun i hi => chain_eraseP_of_ne (hashIndex size) Prod.fst key hi bs
  have hchain : chainOf size key (bs.eraseP (isFor key)) = (chainOf size key bs).eraseP (isFor key) :=
    chain_eraseP_self (hashIndex size) Prod.fst key bs
  have hany : bs.any (isFor key) = (chainOf size key bs).any (isFor key) := by
    have hfind := congrArg Option.isSome (find?_chain (hashIndex size) Prod.fst key bs)
    rw [List.isSome_find?, List.isSome_find?] at hfind
    exact hfind.symm
  rw [hchain] at hwrite
  rw [hany]
  simp only [tableRemove, hhash, Outcome.ok_bind, readAt_entries hsize]
  cases hsplit : chainOf size key bs with
  | nil => rfl
  | cons b next =>
      obtain ⟨d, hd, hzero⟩ := strcmp_node b key
      rw [hsplit] at hwrite
      simp only [List.map_cons, hd, Outcome.ok_bind]
      by_cases hb : isFor key b = true
      · -- the key is at the head of its chain
        rw [List.eraseP_cons_of_pos hb] at hwrite
        rw [if_pos (hzero.mpr hb), hwrite, List.any_cons, hb]
        rfl
      · rw [List.eraseP_cons_of_neg hb, List.map_cons] at hwrite
        rw [if_neg (mt hzero.mp hb), removeBehind_ok, List.any_cons, Bool.eq_false_of_not_eq_true hb,
          Bool.false_or, Outcome.ok_bind]
        by_cases hrest : next.any (isFor key) = true
        · simp only [if_pos hrest, hwrite]
          rfl
        · simp only [if_neg hrest]
          rfl

/-- A call that needs no memory. -/
theorem tableStep_of_not_adds {op : TableOp V} (hop : op.adds = false) (answers : List Bool) :
    (tableStep op (some (tableOf size bs))).run answers
      = .ok (((assocStep op bs).1, some (tableOf size (assocStep op bs).2)), answers) := by
  cases op with
  | add key value => cases hop
  | remove key =>
      rw [tableStep, AllocM.run_lift_bind, tableRemove_ok hsize]
      rw [assocStep]
      split <;> rfl
  | lookup key =>
      rw [tableStep, AllocM.run_lift_bind, tableLookup_ok hsize]
      rfl

theorem tableStep_ok (op : TableOp V) :
    (tableStep op (some (tableOf size bs))).run []
      = .ok (((assocStep op bs).1, some (tableOf size (assocStep op bs).2)), []) := by
  cases op with
  | add key value =>
      rw [tableStep, StateT.run_bind, tableAdd_ok hsize bs key value rfl]
      rfl
  | remove key => exact tableStep_of_not_adds hsize bs rfl []
  | lookup key => exact tableStep_of_not_adds hsize bs rfl []

theorem tableRun_ok (ops : List (TableOp V)) :
    (tableRun ops (some (tableOf size bs))).run []
      = .ok (((assocRun ops bs).1, some (tableOf size (assocRun ops bs).2)), []) := by
  induction ops generalizing bs with
  | nil => rfl
  | cons op ops ih =>
      rw [tableRun, StateT.run_bind, tableStep_ok hsize, Outcome.ok_bind]
      dsimp only
      rw [StateT.run_bind, ih]
      rfl

end Step

/-! ## Whole runs -/

/-- A table of any size that was filled and emptied by any calls is the table
of the association list that the calls leave, and gave its answers.  So a
removal of a key that is not bound is refused and changes nothing, and an
operation on one key leaves the answers for every other as they were. -/
theorem table_refines_assoc (size : UInt) (hsize : size ≠ 0) (ops : List (TableOp V)) :
    ∃ t t' : Table V, (tableInit size).run [] = .ok (some t, []) ∧
      (tableRun ops (some t)).run [] = .ok (((assocRun ops []).1, some t'), []) ∧
      t' = tableOf size (assocRun ops []).2 ∧
      (∀ key, (∀ b ∈ (assocRun ops []).2, b.1 ≠ key) →
        tableRemove (some t') key = .ok (EINVAL, some t')) ∧
      (∀ (op : TableOp V) (key : CString), op.key ≠ key → ∃ answer t'',
        (tableStep op (some t')).run [] = .ok ((answer, some t''), []) ∧
        tableLookup (some t'') key = tableLookup (some t') key) := by
  refine ⟨_, _, tableInit_ok hsize, tableRun_ok hsize [] ops, rfl, fun key hkey => ?_, fun op key hne => ?_⟩
  · have hnone : ¬ (assocRun ops []).2.any (isFor key) = true := fun h => by
      obtain ⟨b, hb, hfor⟩ := List.any_eq_true.mp h
      exact hkey b hb (of_decide_eq_true hfor)
    rw [tableRemove_ok hsize, if_neg hnone]
  · refine ⟨_, _, tableStep_ok hsize _ op, ?_⟩
    rw [tableLookup_ok hsize, tableLookup_ok hsize, assocLookup_step hne]

/-- Two keys in one chain, and a binding that shadows another. -/
theorem table_refines_assoc_two :
    ∃ t t' : Table Nat, (tableInit 1).run [] = .ok (some t, []) ∧
      (tableRun [.add ⟨[97], by decide⟩ (some 1), .add ⟨[98], by decide⟩ (some 2),
          .add ⟨[97], by decide⟩ (some 3), .remove ⟨[97], by decide⟩,
          .lookup ⟨[97], by decide⟩] (some t)).run []
        = .ok (([.status 0, .status 0, .status 0, .status 0, .value (some 1)], some t'), []) := by
  obtain ⟨t, t', hinit, hrun, -⟩ := table_refines_assoc 1 (by decide)
    [.add ⟨[97], by decide⟩ (some 1), .add ⟨[98], by decide⟩ (some 2),
      .add ⟨[97], by decide⟩ (some 3), .remove ⟨[97], by decide⟩, .lookup ⟨[97], by decide⟩]
  exact ⟨t, t', hinit, hrun⟩

end Jccl
