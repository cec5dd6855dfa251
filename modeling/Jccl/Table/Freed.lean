/-
# `Jccl.Table.Freed` — a table from `table_init` to `table_free`, in memory

A run on the blocks goes like the run on lists whose allocator gives the same
answers (`runAsked`): both end with the same answers, or both at the key that
`strdup` was refused.  There is no other fault, so no block is used after it was freed, or
freed twice.

In the end the blocks are gone, but for one.  `table_free` does not free the
array of hash chains, and nobody else has a pointer to it.
-/
import Jccl.Table.Heap

namespace Jccl

namespace TableHeap

variable {V : Type}

/-- One call; the answers are for an addition. -/
def heapStep (fuel : Nat) (op : TableOp V) (answers : Option Addr × Option Addr)
    (table : Option Addr) (h : TableHeap V) : Outcome (TableAnswer V × TableHeap V) :=
  match op with
  | .add key value => do
      let (errno, h) ← tableAdd table key value answers h
      return (.status errno, h)
  | .remove key => do
      let (errno, h) ← tableRemove fuel table key h
      return (.status errno, h)
  | .lookup key => do
      let value ← tableLookup fuel table key h
      return (.value value, h)

def heapRun (fuel : Nat) (table : Option Addr) :
    List (TableOp V × Option Addr × Option Addr) → TableHeap V →
      Outcome (List (TableAnswer V) × TableHeap V)
  | [], h => .ok ([], h)
  | (op, answers) :: ops, h => do
      let (answer, h) ← heapStep fuel op answers table h
      let (answers, h) ← heapRun fuel table ops h
      return (answer :: answers, h)

/-- What the allocator answers to the requests of `table_init`. -/
def initAsked (size : UInt) (answers : Option Addr × Option Addr) (h : TableHeap V) : List Bool :=
  if size = 0 then []
  else if h.tables.grants answers.1 then [true, h.arrays.grants answers.2]
  else [false]

/-- What the allocator answers to the requests of a call. -/
def stepAsked (op : TableOp V) (answers : Option Addr × Option Addr) (h : TableHeap V) :
    List Bool :=
  if op.adds then asked h answers else []

/-- What it answers to those of a run, each in the heap that the calls before it
leave. -/
def runAsked (fuel : Nat) (table : Option Addr) :
    List (TableOp V × Option Addr × Option Addr) → TableHeap V → List Bool
  | [], _ => []
  | (op, answers) :: ops, h =>
      stepAsked op answers h ++
        match heapStep fuel op answers table h with
        | .ok (_, h) => runAsked fuel table ops h
        | .error _ => []

/-! ## The only fault is a comparison with NULL -/

theorem strcmp_null (key : Option CString) (text : CString) :
    FaultsOnly .null (strcmp key (some text)) := by
  intro e h
  cases key with
  | none =>
      cases h
      rfl
  | some key => cases h

theorem lookupFrom_null (key : CString) (chain : List (TableNode V)) :
    FaultsOnly .null (Jccl.lookupFrom key chain) := by
  induction chain with
  | nil => exact faultsOnly_ok none
  | cons np chain ih =>
      refine (strcmp_null np.key key).bind fun d _ => ?_
      split
      · exact faultsOnly_ok np.value
      · exact ih

theorem removeBehind_null (key : CString) (chain : List (TableNode V)) :
    FaultsOnly .null (removeBehind key chain) := by
  induction chain with
  | nil => exact faultsOnly_ok none
  | cons np chain ih =>
      refine (strcmp_null np.key key).bind fun d _ => ?_
      split
      · exact faultsOnly_ok (some chain)
      · exact ih.bind fun behind _ => faultsOnly_ok _

section Step

variable {h₀ h : TableHeap V} {table entries : Addr} {chains : List (List (Cell V))} {t : Table V}

theorem Stands.lt_length (hs : Stands h₀ h table entries chains t) (key : CString) :
    hashIndex t.size key < t.entries.length := by
  rw [hs.entries_eq, List.length_map, hs.length]
  exact hashIndex_lt hs.size key

theorem tableLookup_null (hs : Stands h₀ h table entries chains t) (key : CString) :
    FaultsOnly .null (Jccl.tableLookup (some t) key) := by
  simp only [Jccl.tableLookup, hash_ok hs.size, Outcome.ok_bind, readAt_of_lt (hs.lt_length key)]
  exact lookupFrom_null key _

theorem tableRemove_null (hs : Stands h₀ h table entries chains t) (key : CString) :
    FaultsOnly .null (Jccl.tableRemove (some t) key) := by
  have hlt := hs.lt_length key
  simp only [Jccl.tableRemove, hash_ok hs.size, Outcome.ok_bind, readAt_of_lt hlt]
  cases t.entries[hashIndex t.size key] with
  | nil => exact faultsOnly_ok _
  | cons np next =>
      refine (strcmp_null np.key key).bind fun d _ => ?_
      split
      · rw [writeAt_of_lt hlt]
        exact faultsOnly_ok _
      · refine (removeBehind_null key next).bind fun behind _ => ?_
        cases behind with
        | none => exact faultsOnly_ok _
        | some behind =>
            simp only [writeAt_of_lt hlt]
            exact faultsOnly_ok _

/-! ## One call -/

theorem run_tableStep_remove (key : CString) (t : Table V) (rest : List Bool) :
    (tableStep (.remove key) (some t)).run rest
      = (Jccl.tableRemove (some t) key >>= fun r => .ok ((.status r.1, r.2), rest)) := by
  rw [tableStep, AllocM.run_lift_bind]
  rfl

theorem run_tableStep_lookup (key : CString) (t : Table V) (rest : List Bool) :
    (tableStep (.lookup key) (some t)).run rest
      = (Jccl.tableLookup (some t) key >>= fun value => .ok ((.value value, some t), rest)) := by
  rw [tableStep, AllocM.run_lift_bind]
  rfl

/-- The call on the blocks, and that on lists with the same answers of the
allocator. -/
theorem heapStep_agrees (hs : Stands h₀ h table entries chains t) (op : TableOp V)
    (answers : Option Addr × Option Addr) {fuel : Nat} (hfuel : chains.flatten.length < fuel) :
    ((∀ rest, (tableStep op (some t)).run (stepAsked op answers h ++ rest) = .error .null) ∧
      heapStep fuel op answers (some table) h = .error .null) ∨
    ∃ answer t' h' chains',
      (∀ rest, (tableStep op (some t)).run (stepAsked op answers h ++ rest)
        = .ok ((answer, some t'), rest)) ∧
      heapStep fuel op answers (some table) h = .ok (answer, h') ∧
      Stands h₀ h' table entries chains' t' ∧
      chains'.flatten.length ≤ chains.flatten.length + 1 := by
  cases op with
  | add key value =>
      obtain ⟨status, t', h', chains', hlist, hheap, hs', hlen⟩ :=
        tableAdd_agrees hs key value answers
      refine .inr ⟨.status status, t', h', chains', fun rest => ?_, ?_, hs', hlen⟩
      · have hasked : stepAsked (.add key value) answers h = asked h answers := if_pos rfl
        rw [hasked, tableStep, StateT.run_bind, hlist]
        rfl
      · rw [heapStep, hheap]
        rfl
  | remove key =>
      have hrun := run_tableStep_remove key t
      rcases tableRemove_agrees hs key hfuel with
        ⟨e, he, he'⟩ | ⟨status, t', h', chains', hlist, hheap, hs', hlen⟩
      · obtain rfl := tableRemove_null hs key e he
        refine .inl ⟨fun rest => ?_, ?_⟩
        · rw [hrun, he]
          rfl
        · rw [heapStep, he']
          rfl
      · refine .inr ⟨.status status, t', h', chains', fun rest => ?_, ?_, hs',
          hlen.trans (Nat.le_succ _)⟩
        · rw [hrun, hlist]
          rfl
        · rw [heapStep, hheap]
          rfl
  | lookup key =>
      have hrun := run_tableStep_lookup key t
      have hheap : heapStep fuel (.lookup key) answers (some table) h
          = (Jccl.tableLookup (some t) key >>= fun value => .ok (.value value, h)) := by
        rw [heapStep, tableLookup_agrees hs key hfuel]
        rfl
      cases hlookup : Jccl.tableLookup (some t) key with
      | error e =>
          obtain rfl := tableLookup_null hs key e hlookup
          exact .inl ⟨fun rest => by rw [hrun, hlookup]; rfl, by rw [hheap, hlookup]; rfl⟩
      | ok value =>
          exact .inr ⟨.value value, t, h, chains, fun rest => by rw [hrun, hlookup]; rfl,
            by rw [hheap, hlookup]; rfl, hs, Nat.le_succ _⟩

/-! ## A run of calls -/

theorem heapRun_agrees (hs : Stands h₀ h table entries chains t)
    (ops : List (TableOp V × Option Addr × Option Addr)) {fuel : Nat}
    (hfuel : chains.flatten.length + ops.length + 1 ≤ fuel) :
    ((tableRun (ops.map Prod.fst) (some t)).run (runAsked fuel (some table) ops h) = .error .null ∧
      heapRun fuel (some table) ops h = .error .null) ∨
    ∃ answers t' h' chains',
      (tableRun (ops.map Prod.fst) (some t)).run (runAsked fuel (some table) ops h)
        = .ok ((answers, some t'), []) ∧
      heapRun fuel (some table) ops h = .ok (answers, h') ∧
      Stands h₀ h' table entries chains' t' ∧ chains'.flatten.length < fuel := by
  induction ops generalizing h chains t with
  | nil => exact .inr ⟨[], t, h, chains, rfl, rfl, hs, by simpa using hfuel⟩
  | cons e ops ih =>
      obtain ⟨op, asks⟩ := e
      rw [List.length_cons] at hfuel
      have hlt : chains.flatten.length < fuel := by omega
      have hlist : ∀ rest, (tableRun (((op, asks) :: ops).map Prod.fst) (some t)).run rest
          = ((tableStep op (some t)).run rest >>= fun r =>
              ((tableRun (ops.map Prod.fst) r.1.2).run r.2 >>= fun r' =>
                .ok ((r.1.1 :: r'.1.1, r'.1.2), r'.2))) := fun rest => rfl
      rcases heapStep_agrees hs op asks hlt with
        ⟨hfault, hfault'⟩ | ⟨answer, t', h', chains', hok, hheap, hs', hlen⟩
      · refine .inl ⟨?_, ?_⟩
        · rw [hlist, runAsked, hfault]
          rfl
        · rw [heapRun, hfault']
          rfl
      · have hasked : runAsked fuel (some table) ((op, asks) :: ops) h
            = stepAsked op asks h ++ runAsked fuel (some table) ops h' := by
          rw [runAsked, hheap]
        rcases ih hs' (by omega) with
          ⟨hfault, hfault'⟩ | ⟨answers, t'', h'', chains'', hok', hheap', hs'', hlen'⟩
        · refine .inl ⟨?_, ?_⟩
          · rw [hlist, hasked, hok, Outcome.ok_bind, hfault]
            rfl
          · simp only [heapRun, hheap, Outcome.ok_bind, hfault', Outcome.error_bind]
        · refine .inr ⟨answer :: answers, t'', h'', chains'', ?_, ?_, hs'', hlen'⟩
          · rw [hlist, hasked, hok, Outcome.ok_bind, hok']
            rfl
          · simp only [heapRun, hheap, Outcome.ok_bind, hheap', Outcome.pure_eq]

/-! ## The beginning and the end -/

/-- Without memory for the array, the table is freed again. -/
theorem tableInit_none (size : UInt) (answers : Option Addr × Option Addr) (h₀ : TableHeap V)
    (hnone : size = 0 ∨ false ∈ initAsked size answers h₀) :
    (Jccl.tableInit size).run (initAsked size answers h₀) = .ok ((none : Option (Table V)), []) ∧
      tableInit size answers h₀ = .ok (none, h₀) := by
  by_cases hsize : size = 0
  · subst hsize
    exact ⟨rfl, rfl⟩
  replace hnone := hnone.resolve_left hsize
  cases hgrant : h₀.tables.grants answers.1 with
  | false =>
      have hasked : initAsked size answers h₀ = [false] := by
        rw [initAsked, if_neg hsize, hgrant]
        rfl
      refine ⟨?_, ?_⟩
      · rw [hasked, Jccl.tableInit, if_neg hsize]
        rfl
      · simp only [tableInit, if_neg hsize, Heap.malloc_of_not_grants hgrant, if_true,
          Outcome.pure_eq]
  | true =>
      have hasked : initAsked size answers h₀ = [true, h₀.arrays.grants answers.2] := by
        rw [initAsked, if_neg hsize, if_pos hgrant]
      have harray : h₀.arrays.grants answers.2 = false := by
        rw [hasked] at hnone
        simpa using hnone
      obtain ⟨a, ha, hfree, hmalloc⟩ :=
        Heap.malloc_of_grants (n := ({ entries := none, size := size } : TableBlock)) hgrant
      have htable := (Owned.refl h₀.tables).malloc hfree
        ({ entries := none, size := size } : TableBlock)
      obtain ⟨tables, hmodify, htables⟩ := htable.modify_ok fun t => { t with entries := none }
      obtain ⟨tables', hfree', htables'⟩ := htables.free_ok
      refine ⟨?_, ?_⟩
      · rw [hasked, harray, Jccl.tableInit, if_neg hsize]
        rfl
      · simp only [tableInit, if_neg hsize, hmalloc, if_neg (Option.some_ne_none a),
          Heap.malloc_of_not_grants harray, Outcome.ok_bind, hmodify, if_true, tableFree,
          htables.load_ok, Outcome.pure_eq, hfree', htables'.eq]

theorem tableInit_some (size : UInt) (answers : Option Addr × Option Addr) (h₀ : TableHeap V)
    (hsize : size ≠ 0) (hasked : initAsked size answers h₀ = [true, true]) :
    ∃ table entries h, tableInit size answers h₀ = .ok (some table, h) ∧
      Stands h₀ h table entries (List.replicate size.toNat [])
        { entries := List.replicate size.toNat [], size := size } := by
  rw [initAsked, if_neg hsize] at hasked
  cases hgrant : h₀.tables.grants answers.1 with
  | false =>
      rw [hgrant] at hasked
      cases hasked
  | true =>
      rw [if_pos hgrant] at hasked
      have harray : h₀.arrays.grants answers.2 = true := (List.cons.inj (List.cons.inj hasked).2).1
      obtain ⟨a, ha, hfree, hmalloc⟩ :=
        Heap.malloc_of_grants (n := ({ entries := none, size := size } : TableBlock)) hgrant
      have htable := (Owned.refl h₀.tables).malloc hfree
        ({ entries := none, size := size } : TableBlock)
      obtain ⟨e, he, hfreeArray, hcalloc⟩ :=
        Heap.malloc_of_grants (n := List.replicate size.toNat (none : Option Addr)) harray
      obtain ⟨tables, hmodify, htables⟩ := htable.modify_ok fun t => { t with entries := some e }
      have hheads : (List.replicate size.toNat ([] : List (Cell V))).map headOf
          = List.replicate size.toNat none := List.map_replicate
      refine ⟨a, e, { h₀ with
        tables := tables
        arrays := Function.update h₀.arrays e (some (List.replicate size.toNat none)) }, ?_, ?_⟩
      · simp only [tableInit, if_neg hsize, hmalloc, if_neg (Option.some_ne_none _), hcalloc,
          hmodify, Outcome.ok_bind, Outcome.pure_eq]
      · refine ⟨?_, hsize, List.length_replicate, ?_, htables, ?_, ?_, ?_⟩
        · rw [List.map_replicate, List.map_nil]
        · intro chain hchain
          rw [List.eq_of_mem_replicate hchain]
          exact trivial
        · rw [hheads]
          exact (Owned.refl h₀.arrays).malloc hfreeArray _
        · rw [List.flatten_replicate_nil]
          exact Owned.refl h₀.nodes
        · rw [List.flatten_replicate_nil]
          exact Owned.refl h₀.keys

/-- A chain is freed from its head on. -/
theorem freeChain_ok {chain : List (Cell V)} (hchain : Chained chain)
    {nodes : List (Addr × NodeBlock V)} {keys : List (Addr × CString)}
    (hnodes : Owned h₀.nodes h.nodes (chain.map Cell.block ++ nodes))
    (hkeys : Owned h₀.keys h.keys (chain.filterMap Cell.key ++ keys)) {fuel : Nat}
    (hfuel : chain.length < fuel) :
    ∃ h', freeChain fuel (headOf chain) h = .ok h' ∧ h'.tables = h.tables ∧ h'.arrays = h.arrays ∧
      Owned h₀.nodes h'.nodes nodes ∧ Owned h₀.keys h'.keys keys := by
  induction chain generalizing h fuel with
  | nil =>
      obtain ⟨fuel, rfl⟩ := Nat.exists_eq_succ_of_ne_zero hfuel.ne'
      exact ⟨h, rfl, rfl, rfl, hnodes, hkeys⟩
  | cons c chain ih =>
      obtain ⟨fuel, rfl⟩ := Nat.exists_eq_succ_of_ne_zero (Nat.ne_zero_of_lt hfuel)
      rw [filterMap_cons_key, List.append_assoc] at hkeys
      obtain ⟨h', hfree, htables, harrays, hnodes', hkeys'⟩ := freeNode_ok hnodes hkeys
      obtain ⟨h'', hrest, htables', harrays', hnodes'', hkeys''⟩ :=
        ih hchain.2 hnodes' hkeys' (Nat.lt_of_succ_lt_succ hfuel)
      refine ⟨h'', ?_, htables'.trans htables, harrays'.trans harrays, hnodes'', hkeys''⟩
      have hload : h.nodes.load (some c.addr) = .ok c.block.2 := Owned.load_ok hnodes
      rw [show headOf (c :: chain) = some c.addr from rfl, freeChain,
        if_neg (Option.some_ne_none _), hload, Outcome.ok_bind, hfree, Outcome.ok_bind,
        show c.block.2.next = headOf chain from hchain.1, hrest]

/-- What is left is the array. -/
theorem tableFree_ok (hs : Stands h₀ h table entries chains t) {fuel : Nat}
    (hfuel : chains.flatten.length < fuel) :
    tableFree fuel (some table) h = .ok (0, { h₀ with
      arrays := Function.update h₀.arrays entries (some (chains.map headOf)) }) ∧
    h₀.arrays entries = none := by
  let body (i : Nat) (h : TableHeap V) : Outcome (TableHeap V) := do
    let heads ← h.arrays.load (some entries)
    let np ← readAt heads i
    freeChain fuel np h
  obtain ⟨h', hloop, htables, harrays, hnodes, hkeys⟩ := forLoop_ok (f := body)
    (n := t.size.toNat) (s := h)
    (I := fun i h' => h'.tables = h.tables ∧ h'.arrays = h.arrays ∧
      Owned h₀.nodes h'.nodes ((chains.drop i).flatten.map Cell.block) ∧
      Owned h₀.keys h'.keys ((chains.drop i).flatten.filterMap Cell.key))
    ⟨rfl, rfl, hs.nodes, hs.keys⟩ (by
      intro i h₁ hi hInv
      obtain ⟨htables, harrays, hnodes, hkeys⟩ := hInv
      have hi' : i < chains.length := hs.length ▸ hi
      have hmem : chains[i] ∈ chains := List.getElem_mem hi'
      have hload : h₁.arrays.load (some entries) = .ok (chains.map headOf) :=
        harrays ▸ hs.arrays.load_ok
      have hread : readAt (chains.map headOf) i = .ok (headOf chains[i]) := by
        rw [readAt_of_lt (by rwa [List.length_map]), List.getElem_map]
      rw [List.drop_eq_getElem_cons hi', List.flatten_cons, List.map_append] at hnodes
      rw [List.drop_eq_getElem_cons hi', List.flatten_cons, List.filterMap_append] at hkeys
      obtain ⟨h₂, hfree, htables', harrays', hnodes', hkeys'⟩ :=
        freeChain_ok (hs.chained _ hmem) hnodes hkeys
          ((List.sublist_flatten_of_mem hmem).length_le.trans_lt hfuel)
      refine ⟨h₂, ?_, htables'.trans htables, harrays'.trans harrays, hnodes', hkeys'⟩
      simp only [body, hload, hread, Outcome.ok_bind, hfree])
  rw [← hs.length, List.drop_length] at hnodes hkeys
  have htable : Owned h₀.tables h'.tables _ := htables ▸ hs.tables
  obtain ⟨tables, hfree, htables'⟩ := htable.free_ok
  refine ⟨?_, hs.arrays.fresh _ List.mem_cons_self⟩
  simp only [tableFree, if_neg (Option.some_ne_none _), hs.tables.load_ok, Outcome.ok_bind]
  rw [hloop, Outcome.ok_bind, hfree, Outcome.ok_bind, htables'.eq, hnodes.eq, hkeys.eq, harrays,
    hs.arrays.eq_update]
  rfl

end Step

/-- **A table, from the beginning to the end.**  There is one on the blocks just
where there is one on lists: unless its size is zero, or the table or its array is
refused, and then the heap is what it was.  A run of calls goes like that on lists
with the same answers of the allocator: either both come to a key that was
refused its duplicate, or they give the same answers, and `table_free` then
leaves the heap as it was before, but for the array of hash chains. -/
theorem tableHeap_run (h₀ : TableHeap V) (size : UInt) (answers : Option Addr × Option Addr)
    (ops : List (TableOp V × Option Addr × Option Addr)) {fuel : Nat} (hfuel : ops.length < fuel) :
    (size = 0 ∨ false ∈ initAsked size answers h₀ →
      (Jccl.tableInit size).run (initAsked size answers h₀) = .ok ((none : Option (Table V)), []) ∧
      tableInit size answers h₀ = .ok (none, h₀)) ∧
    (size ≠ 0 → initAsked size answers h₀ = [true, true] → ∃ t : Table V,
      (Jccl.tableInit size).run (initAsked size answers h₀) = .ok (some t, []) ∧
      ∃ table entries h, tableInit size answers h₀ = .ok (some table, h) ∧
        h₀.tables table = none ∧ h₀.arrays entries = none ∧
        (((tableRun (ops.map Prod.fst) (some t)).run (runAsked fuel (some table) ops h)
            = .error .null ∧
          heapRun fuel (some table) ops h = .error .null) ∨
        ∃ results t' h' heads,
          (tableRun (ops.map Prod.fst) (some t)).run (runAsked fuel (some table) ops h)
            = .ok ((results, some t'), []) ∧
          heapRun fuel (some table) ops h = .ok (results, h') ∧
          tableFree fuel (some table) h' = .ok (0, { h₀ with
            arrays := Function.update h₀.arrays entries (some heads) }))) := by
  refine ⟨tableInit_none size answers h₀, fun hsize hasked => ?_⟩
  obtain ⟨table, entries, h, hinit, hs⟩ := tableInit_some size answers h₀ hsize hasked
  refine ⟨{ entries := List.replicate size.toNat [], size := size }, ?_, table, entries, h, hinit,
    hs.tables.fresh _ List.mem_cons_self, hs.arrays.fresh _ List.mem_cons_self, ?_⟩
  · rw [hasked, Jccl.tableInit, if_neg hsize]
    rfl
  have hlen : ((List.replicate size.toNat ([] : List (Cell V))).flatten).length + ops.length + 1
      ≤ fuel := by
    rw [List.flatten_replicate_nil, List.length_nil, Nat.zero_add]
    exact hfuel
  rcases heapRun_agrees hs ops hlen with hfault | ⟨results, t', h', chains, hlist, hheap, hs', hlen'⟩
  · exact .inl hfault
  · obtain ⟨hfree, -⟩ := tableFree_ok hs' hlen'
    exact .inr ⟨results, t', h', chains.map headOf, hlist, hheap, hfree⟩

/-- A key is added and removed, and then added without its duplicate. -/
def oneKey : List (TableOp Nat × Option Addr × Option Addr) :=
  [(.add ⟨[97], by decide⟩ (some 5), some 0, some 0), (.remove ⟨[97], by decide⟩, none, none),
    (.add ⟨[97], by decide⟩ none, some 1, none)]

def noBlocks : TableHeap Nat :=
  { tables := Heap.empty, arrays := Heap.empty, nodes := Heap.empty, keys := Heap.empty }

theorem tableHeap_run_one : ∃ (table entries : Addr) (h h' : TableHeap Nat) (heads : _),
    tableInit 1 (some 0, some 0) noBlocks = .ok (some table, h) ∧
    runAsked 4 (some table) oneKey h = [true, true, true, false] ∧
    heapRun 4 (some table) oneKey h = .ok ([.status 0, .status 0, .status 0], h') ∧
    tableFree 4 (some table) h' = .ok (0, { noBlocks with
      arrays := Function.update noBlocks.arrays entries (some heads) }) := by
  obtain ⟨t, -, table, entries, h, hinit, -, -, hrun⟩ :=
    (@tableHeap_run Nat noBlocks 1 (some 0, some 0) oneKey 4 (by decide)).2 (by decide) rfl
  cases hinit
  rcases hrun with ⟨-, hfault⟩ | ⟨results, t', h', heads, -, hrun, hfree⟩
  · have hanswers : (Except.ok [.status 0, .status 0, .status 0] : Outcome (List (TableAnswer Nat)))
        = .error .null := congrArg (Except.map Prod.fst) hfault
    cases hanswers
  · have hanswers : (Except.ok [.status 0, .status 0, .status 0] : Outcome (List (TableAnswer Nat)))
        = .ok results := congrArg (Except.map Prod.fst) hrun
    cases hanswers
    exact ⟨_, _, _, _, heads, rfl, rfl, hrun, hfree⟩

end TableHeap

end Jccl
