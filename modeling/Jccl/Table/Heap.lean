/-
# `Jccl.Table.Heap` — `table.c` with its blocks

The same functions as in `Table.Defs`, over memory: a table, its array of hash
chains, the nodes and the keys are blocks that are allocated and freed one by
one, and a chain is what the links lead through.  Each request is told the
answer of the allocator; the loops along a chain are given fuel.

`table_free` frees the nodes, the keys and the table, but not the array.
-/
import Jccl.Lib.Owned
import Jccl.Table.Memory

namespace Jccl

/-- `struct Table_node`. -/
structure NodeBlock (V : Type) where
  next : Option Addr
  key : Option Addr
  value : Option V

/-- `struct Table`. -/
structure TableBlock where
  entries : Option Addr
  size : UInt

/-- The blocks, by the type of what they hold. -/
structure TableHeap (V : Type) where
  tables : Heap TableBlock
  arrays : Heap (List (Option Addr))
  nodes : Heap (NodeBlock V)
  keys : Heap CString

namespace TableHeap

variable {V : Type}

/-- `free(np->key); free(np);` -/
def freeNode (np : Option Addr) (h : TableHeap V) : Outcome (TableHeap V) := do
  let node ← h.nodes.load np
  let keys ← h.keys.free node.key
  let nodes ← h.nodes.free np
  return { h with keys := keys, nodes := nodes }

/-- The inner loop of `table_free`. -/
def freeChain : Nat → Option Addr → TableHeap V → Outcome (TableHeap V)
  | 0, _, _ => .error .timeout
  | fuel + 1, np, h => do
      if np = none then return h
      let node ← h.nodes.load np
      let h ← freeNode np h
      freeChain fuel node.next h

def tableFree (fuel : Nat) (table : Option Addr) (h : TableHeap V) :
    Outcome (Int × TableHeap V) := do
  if table = none then return (EINVAL, h)
  let t ← h.tables.load table
  let h ←
    if t.entries = none then
      pure h
    else
      forLoop (fun i h => do
        let entries ← h.arrays.load t.entries
        let np ← readAt entries i
        freeChain fuel np h) t.size.toNat h
  let tables ← h.tables.free table
  return (0, { h with tables := tables })

/-- When the array is refused, the table that was allocated is freed. -/
def tableInit (size : UInt) (answers : Option Addr × Option Addr) (h : TableHeap V) :
    Outcome (Option Addr × TableHeap V) := do
  if size = 0 then return (none, h)
  let (table, tables) := h.tables.malloc answers.1 { entries := none, size := size }
  if table = none then return (none, h)
  let (entries, arrays) := h.arrays.malloc answers.2 (List.replicate size.toNat none)
  let tables ← tables.modify table fun t => { t with entries := entries }
  let h := { h with tables := tables, arrays := arrays }
  if entries = none then
    let (_, h) ← tableFree 0 table h
    return (none, h)
  return (table, h)

def hash (t : TableBlock) (key : CString) : Outcome Nat :=
  Jccl.hash ({ entries := [], size := t.size } : Table Unit) key

/-- The answers are to `malloc` and to `strdup`, whose result is not tested. -/
def tableCreateNode (key : CString) (value : Option V) (answers : Option Addr × Option Addr)
    (h : TableHeap V) : Outcome (Option Addr × TableHeap V) := do
  let (np, nodes) := h.nodes.malloc answers.1 { next := none, key := none, value := none }
  if np = none then return (none, h)
  let (duplicate, keys) := h.keys.malloc answers.2 key
  let nodes ← nodes.modify np fun _ => { next := none, key := duplicate, value := value }
  return (np, { h with nodes := nodes, keys := keys })

def tableAdd (table : Option Addr) (key : CString) (value : Option V)
    (answers : Option Addr × Option Addr) (h : TableHeap V) : Outcome (Int × TableHeap V) := do
  if table = none then return (EINVAL, h)
  let (np, h) ← tableCreateNode key value answers h
  if np = none then return (ENOMEM, h)
  let t ← h.tables.load table
  let i ← hash t key
  let entries ← h.arrays.load t.entries
  let next ← readAt entries i
  let nodes ← h.nodes.modify np fun node => { node with next := next }
  let entries ← writeAt entries i np
  let arrays ← h.arrays.modify t.entries fun _ => entries
  return (0, { h with nodes := nodes, arrays := arrays })

/-- `strcmp(node->key, key)`. -/
def compareKey (node : NodeBlock V) (key : CString) (h : TableHeap V) : Outcome Int := do
  if node.key = none then
    strcmp none (some key)
  else
    let text ← h.keys.load node.key
    strcmp (some text) (some key)

/-- The loop of `table_remove`, from `pnp` on. -/
def findBehind (key : CString) (h : TableHeap V) : Nat → Option Addr → Outcome (Option Addr)
  | 0, _ => .error .timeout
  | fuel + 1, pnp => do
      let node ← h.nodes.load pnp
      if node.next = none then return pnp
      let next ← h.nodes.load node.next
      if (← compareKey next key h) = 0 then return pnp
      findBehind key h fuel node.next

def tableRemove (fuel : Nat) (table : Option Addr) (key : CString) (h : TableHeap V) :
    Outcome (Int × TableHeap V) := do
  if table = none then return (EINVAL, h)
  let t ← h.tables.load table
  let i ← hash t key
  let entries ← h.arrays.load t.entries
  let head ← readAt entries i
  if head = none then return (EINVAL, h)
  let node ← h.nodes.load head
  if (← compareKey node key h) = 0 then
    let entries ← writeAt entries i node.next
    let arrays ← h.arrays.modify t.entries fun _ => entries
    let h ← freeNode head { h with arrays := arrays }
    return (0, h)
  else
    let pnp ← findBehind key h fuel head
    let p ← h.nodes.load pnp
    if p.next = none then return (EINVAL, h)
    let node ← h.nodes.load p.next
    let nodes ← h.nodes.modify pnp fun p => { p with next := node.next }
    let h ← freeNode p.next { h with nodes := nodes }
    return (0, h)

/-- The loop of `table_lookup`. -/
def lookupFrom (key : CString) (h : TableHeap V) : Nat → Option Addr → Outcome (Option V)
  | 0, _ => .error .timeout
  | fuel + 1, np => do
      if np = none then return none
      let node ← h.nodes.load np
      if (← compareKey node key h) = 0 then return node.value
      lookupFrom key h fuel node.next

def tableLookup (fuel : Nat) (table : Option Addr) (key : CString) (h : TableHeap V) :
    Outcome (Option V) := do
  if table = none then return none
  let t ← h.tables.load table
  let i ← hash t key
  let entries ← h.arrays.load t.entries
  let np ← readAt entries i
  lookupFrom key h fuel np

/-! ## What the blocks hold -/

/-- A node with its key, if it has one. -/
structure Cell (V : Type) where
  addr : Addr
  next : Option Addr
  key : Option (Addr × CString)
  value : Option V

namespace Cell

def block (c : Cell V) : Addr × NodeBlock V :=
  (c.addr, { next := c.next, key := c.key.map Prod.fst, value := c.value })

/-- What the node is in a chain that is a list. -/
def node (c : Cell V) : TableNode V := { key := c.key.map Prod.snd, value := c.value }

end Cell

def headOf (chain : List (Cell V)) : Option Addr := chain.head?.map Cell.addr

/-- Each node links to the next one. -/
def Chained : List (Cell V) → Prop
  | [] => True
  | c :: chain => c.next = headOf chain ∧ Chained chain

/-- The blocks of the nodes and of their keys are there. -/
structure Live (h : TableHeap V) (c : Cell V) : Prop where
  node : h.nodes c.addr = some c.block.2
  key : ∀ k, c.key = some k → h.keys k.1 = some k.2

/-- Beside the heap `h₀` there is the table `t`, and nothing else. -/
structure Stands (h₀ h : TableHeap V) (table entries : Addr) (chains : List (List (Cell V)))
    (t : Table V) : Prop where
  entries_eq : t.entries = chains.map (List.map Cell.node)
  size : t.size ≠ 0
  length : chains.length = t.size.toNat
  chained : ∀ chain ∈ chains, Chained chain
  tables : Owned h₀.tables h.tables [(table, { entries := some entries, size := t.size })]
  arrays : Owned h₀.arrays h.arrays [(entries, chains.map headOf)]
  nodes : Owned h₀.nodes h.nodes (chains.flatten.map Cell.block)
  keys : Owned h₀.keys h.keys (chains.flatten.filterMap Cell.key)

section Chain

variable {h : TableHeap V} {c : Cell V} {chain : List (Cell V)}

theorem Live.load (hc : Live h c) : h.nodes.load (some c.addr) = .ok c.block.2 :=
  Heap.load_some hc.node

theorem Live.compareKey (hc : Live h c) (key : CString) :
    compareKey c.block.2 key h = strcmp c.node.key (some key) := by
  rcases hkey : c.key with _ | ⟨a, text⟩
  · simp only [TableHeap.compareKey, Cell.block, Cell.node, hkey, Option.map_none, if_true]
  · have hload : h.keys.load (some a) = .ok text := Heap.load_some (hc.key (a, text) hkey)
    simp only [TableHeap.compareKey, Cell.block, Cell.node, hkey, Option.map_some, hload,
      Outcome.ok_bind]
    rfl

theorem Stands.live {h₀ : TableHeap V} {table entries : Addr} {chains : List (List (Cell V))}
    {t : Table V} (hs : Stands h₀ h table entries chains t) (hmem : c ∈ chains.flatten) :
    Live h c where
  node := hs.nodes.live _ (List.mem_map_of_mem hmem)
  key k hk := hs.keys.live k (List.mem_filterMap.mpr ⟨c, hmem, hk⟩)

/-! ## The loops along a chain -/

theorem lookupFrom_eq (key : CString) (hlive : ∀ c ∈ chain, Live h c) (hchain : Chained chain)
    {fuel : Nat} (hfuel : chain.length < fuel) :
    lookupFrom key h fuel (headOf chain) = Jccl.lookupFrom key (chain.map Cell.node) := by
  induction chain generalizing fuel with
  | nil =>
      obtain ⟨fuel, rfl⟩ := Nat.exists_eq_succ_of_ne_zero hfuel.ne'
      rfl
  | cons c chain ih =>
      obtain ⟨hc, hrest⟩ := List.forall_mem_cons.mp hlive
      obtain ⟨fuel, rfl⟩ := Nat.exists_eq_succ_of_ne_zero (Nat.ne_zero_of_lt hfuel)
      rw [List.map_cons, Jccl.lookupFrom, ← hc.compareKey, lookupFrom]
      rw [show headOf (c :: chain) = some c.addr from rfl, if_neg (Option.some_ne_none _),
        hc.load, Outcome.ok_bind]
      cases compareKey c.block.2 key h with
      | error e => rfl
      | ok d =>
          simp only [Outcome.ok_bind]
          rw [← ih hrest hchain.2 (Nat.lt_of_succ_lt_succ hfuel), ← hchain.1]
          rfl

/-- Where the search behind a node ends: at a fault, at the last node, or
before the node to remove. -/
theorem findBehind_cases (key : CString) (hlive : ∀ x ∈ c :: chain, Live h x)
    (hchain : Chained (c :: chain)) {fuel : Nat} (hfuel : chain.length < fuel) :
    (∃ e, removeBehind key (chain.map Cell.node) = .error e ∧
      findBehind key h fuel (some c.addr) = .error e) ∨
    (removeBehind key (chain.map Cell.node) = .ok none ∧
      ∃ p ∈ c :: chain, p.next = none ∧ findBehind key h fuel (some c.addr) = .ok (some p.addr)) ∨
    ∃ before p x after, c :: chain = before ++ p :: x :: after ∧
      removeBehind key (chain.map Cell.node)
        = .ok (some ((before ++ p :: after).map Cell.node).tail) ∧
      findBehind key h fuel (some c.addr) = .ok (some p.addr) := by
  induction chain generalizing c fuel with
  | nil =>
      obtain ⟨fuel, rfl⟩ := Nat.exists_eq_succ_of_ne_zero (Nat.ne_zero_of_lt hfuel)
      have hc := hlive c List.mem_cons_self
      refine .inr (.inl ⟨rfl, c, List.mem_cons_self, hchain.1, ?_⟩)
      rw [findBehind, hc.load, Outcome.ok_bind, if_pos (show c.block.2.next = none from hchain.1)]
      rfl
  | cons x chain ih =>
      obtain ⟨fuel, rfl⟩ := Nat.exists_eq_succ_of_ne_zero (Nat.ne_zero_of_lt hfuel)
      obtain ⟨hc, hrest⟩ := List.forall_mem_cons.mp hlive
      have hx := hrest x List.mem_cons_self
      have hnext : c.block.2.next = some x.addr := hchain.1
      have hfind : findBehind key h (fuel + 1) (some c.addr)
          = (strcmp x.node.key (some key) >>= fun d =>
              if d = 0 then .ok (some c.addr) else findBehind key h fuel (some x.addr)) := by
        rw [findBehind, hc.load, Outcome.ok_bind, hnext, if_neg (Option.some_ne_none _), hx.load,
          Outcome.ok_bind, hx.compareKey]
        rfl
      rw [hfind, List.map_cons, removeBehind]
      cases hd : strcmp x.node.key (some key) with
      | error e => exact .inl ⟨e, rfl, rfl⟩
      | ok d =>
          simp only [Outcome.ok_bind]
          by_cases hzero : d = 0
          · rw [if_pos hzero, if_pos hzero]
            exact .inr (.inr ⟨[], c, x, chain, rfl, rfl, rfl⟩)
          · rw [if_neg hzero, if_neg hzero]
            rcases ih hrest hchain.2 (Nat.lt_of_succ_lt_succ hfuel) with
              ⟨e, he, he'⟩ | ⟨hnone, p, hp, hpnext, hfound⟩ | ⟨before, p, y, after, heq, hsome, hfound⟩
            · exact .inl ⟨e, by rw [he]; rfl, he'⟩
            · exact .inr (.inl ⟨by rw [hnone]; rfl, p, List.mem_cons_of_mem _ hp, hpnext, hfound⟩)
            · refine .inr (.inr ⟨c :: before, p, y, after, by rw [heq]; rfl, ?_, hfound⟩)
              rw [hsome]
              have hhead : ((before ++ p :: after).map Cell.node).head? = some x.node := by
                cases before with
                | nil => exact congrArg some (congrArg Cell.node (List.cons.inj heq).1).symm
                | cons b before => exact congrArg some (congrArg Cell.node (List.cons.inj heq).1).symm
              have hcons := List.cons_head?_tail hhead
              exact congrArg (fun l => Except.ok (some l)) hcons

end Chain

/-! ## The operations, beside those on lists -/

/-- Both runs end in the same fault, or with the same answer, where the heap
holds what the table has come to be, in at most `n` nodes. -/
def Agrees {A : Type} (h₀ : TableHeap V) (table entries : Addr) (n : Nat)
    (x : Outcome (A × Option (Table V))) (y : Outcome (A × TableHeap V)) : Prop :=
  (∃ e, x = .error e ∧ y = .error e) ∨
    ∃ a t' h' chains', x = .ok (a, some t') ∧ y = .ok (a, h') ∧
      Stands h₀ h' table entries chains' t' ∧ chains'.flatten.length ≤ n

/-- The answers that the allocator gives to an addition. -/
def asked (h : TableHeap V) (answers : Option Addr × Option Addr) : List Bool :=
  if h.nodes.grants answers.1 then [true, h.keys.grants answers.2] else [false]

section Operation

variable {h₀ h : TableHeap V} {table entries : Addr} {chains : List (List (Cell V))} {t : Table V}

theorem hash_eq (entries : Option Addr) (t : Table V) (key : CString) :
    hash { entries := entries, size := t.size } key = Jccl.hash t key := rfl

/-- The chain of a key, between the others. -/
theorem Stands.exists_chain (hs : Stands h₀ h table entries chains t) (key : CString) :
    ∃ l chain r, chains = l ++ chain :: r ∧ Jccl.hash t key = .ok l.length := by
  have hi : hashIndex t.size key < chains.length := hs.length ▸ hashIndex_lt hs.size key
  refine ⟨chains.take (hashIndex t.size key), chains[hashIndex t.size key],
    chains.drop (hashIndex t.size key + 1), ?_, ?_⟩
  · rw [← List.drop_eq_getElem_cons hi, List.take_append_drop]
  · rw [List.length_take, Nat.min_eq_left hi.le]
    exact hash_ok hs.size key

/-- The chain at one index is another one. -/
theorem Stands.of_chain {l r : List (List (Cell V))} {chain chain' : List (Cell V)}
    (hs : Stands h₀ h table entries (l ++ chain :: r) t) {h' : TableHeap V}
    (htables : h'.tables = h.tables) (hchained : Chained chain')
    (harrays : Owned h₀.arrays h'.arrays [(entries, (l ++ chain' :: r).map headOf)])
    (hnodes : Owned h₀.nodes h'.nodes ((l ++ chain' :: r).flatten.map Cell.block))
    (hkeys : Owned h₀.keys h'.keys ((l ++ chain' :: r).flatten.filterMap Cell.key)) :
    Stands h₀ h' table entries (l ++ chain' :: r)
      { t with entries := t.entries.set l.length (chain'.map Cell.node) } where
  entries_eq := by
    have hlen : l.length = (l.map (List.map Cell.node)).length := (List.length_map _).symm
    rw [hs.entries_eq, List.map_append, List.map_cons, hlen, List.set_append_right _ _ le_rfl,
      Nat.sub_self, List.set_cons_zero, List.map_append, List.map_cons]
  size := hs.size
  length := by
    rw [← hs.length, List.length_append, List.length_append, List.length_cons, List.length_cons]
  chained x hx := by
    rcases List.mem_append.mp hx with hx | hx
    · exact hs.chained x (List.mem_append_left _ hx)
    · rcases List.mem_cons.mp hx with rfl | hx
      · exact hchained
      · exact hs.chained x (List.mem_append_right _ (List.mem_cons_of_mem _ hx))
  tables := htables ▸ hs.tables
  arrays := harrays
  nodes := hnodes
  keys := hkeys

/-- The reads that every operation begins with. -/
theorem Stands.readAt_heads {l r : List (List (Cell V))} {chain : List (Cell V)} :
    readAt ((l ++ chain :: r).map headOf) l.length = .ok (headOf chain) := by
  rw [List.map_append, List.map_cons]
  exact readAt_append (List.length_map _).symm

theorem Stands.writeAt_heads {l r : List (List (Cell V))} {chain chain' : List (Cell V)} :
    writeAt ((l ++ chain :: r).map headOf) l.length (headOf chain')
      = .ok ((l ++ chain' :: r).map headOf) := by
  rw [List.map_append, List.map_cons, List.map_append, List.map_cons]
  exact writeAt_append (List.length_map _).symm _

theorem Stands.readAt_entries {l r : List (List (Cell V))} {chain : List (Cell V)}
    (hs : Stands h₀ h table entries (l ++ chain :: r) t) :
    readAt t.entries l.length = .ok (chain.map Cell.node) := by
  rw [hs.entries_eq, List.map_append, List.map_cons]
  exact readAt_append (List.length_map _).symm

theorem Stands.writeAt_entries {l r : List (List (Cell V))} {chain : List (Cell V)}
    (hs : Stands h₀ h table entries (l ++ chain :: r) t) (next : List (TableNode V)) :
    writeAt t.entries l.length next = .ok (t.entries.set l.length next) := by
  refine writeAt_of_lt ?_ next
  rw [hs.entries_eq, List.length_map, List.length_append, List.length_cons]
  omega

theorem tableLookup_agrees (hs : Stands h₀ h table entries chains t) (key : CString) {fuel : Nat}
    (hfuel : chains.flatten.length < fuel) :
    tableLookup fuel (some table) key h = Jccl.tableLookup (some t) key := by
  obtain ⟨l, chain, r, rfl, hhash⟩ := hs.exists_chain key
  have hmem : chain ∈ l ++ chain :: r := List.mem_append_right _ List.mem_cons_self
  have hlen : chain.length ≤ (l ++ chain :: r).flatten.length :=
    (List.sublist_flatten_of_mem hmem).length_le
  simp only [tableLookup, Jccl.tableLookup, if_neg (Option.some_ne_none table), hs.tables.load_ok,
    hash_eq, hhash, Outcome.ok_bind, hs.arrays.load_ok, Stands.readAt_heads, hs.readAt_entries]
  exact lookupFrom_eq key (fun c hc => hs.live (List.mem_flatten_of_mem hmem hc))
    (hs.chained chain hmem) (hlen.trans_lt hfuel)

/-! ## Addition -/

theorem flatten_cons_perm (l r : List (List (Cell V))) (chain : List (Cell V)) (c : Cell V) :
    (l ++ (c :: chain) :: r).flatten.Perm (c :: (l ++ chain :: r).flatten) := by
  simp only [List.flatten_append, List.flatten_cons, List.cons_append]
  exact List.perm_middle

theorem filterMap_cons_key (c : Cell V) (cs : List (Cell V)) :
    (c :: cs).filterMap Cell.key = c.key.toList ++ cs.filterMap Cell.key := by
  rw [List.filterMap_cons]
  cases c.key <;> rfl

/-- The node is created, with or without a key. -/
theorem tableCreateNode_agrees (hs : Stands h₀ h table entries chains t) (key : CString)
    (value : Option V) {answers : Option Addr × Option Addr}
    (hgrant : h.nodes.grants answers.1 = true) :
    ∃ (c : Cell V) (h' : TableHeap V),
      (∀ rest, (Jccl.tableCreateNode key value).run (asked h answers ++ rest)
        = .ok (some c.node, rest)) ∧
      tableCreateNode key value answers h = .ok (some c.addr, h') ∧
      h'.tables = h.tables ∧ h'.arrays = h.arrays ∧
      Owned h₀.nodes h'.nodes (c.block :: chains.flatten.map Cell.block) ∧
      Owned h₀.keys h'.keys (c.key.toList ++ chains.flatten.filterMap Cell.key) := by
  obtain ⟨a, ha, hfree, hmalloc⟩ :=
    Heap.malloc_of_grants (n := ({ next := none, key := none, value := none } : NodeBlock V)) hgrant
  have howned := hs.nodes.malloc hfree ({ next := none, key := none, value := none } : NodeBlock V)
  have hasked : asked h answers = [true, h.keys.grants answers.2] := if_pos hgrant
  cases hkey : h.keys.grants answers.2 with
  | false =>
      obtain ⟨nodes, hmodify, hnodes⟩ := howned.modify_ok
        fun _ => { next := none, key := none, value := value }
      refine ⟨{ addr := a, next := none, key := none, value := value }, { h with nodes := nodes },
        fun rest => ?_, ?_, rfl, rfl, hnodes, hs.keys⟩
      · rw [hasked, hkey]
        exact tableCreateNode_null key value rfl rfl
      · simp only [tableCreateNode, hmalloc, if_neg (Option.some_ne_none a),
          Heap.malloc_of_not_grants hkey, hmodify, Outcome.ok_bind]
        rfl
  | true =>
      obtain ⟨b, hb, hbfree, hdup⟩ := Heap.malloc_of_grants (n := key) hkey
      obtain ⟨nodes, hmodify, hnodes⟩ := howned.modify_ok
        fun _ => { next := none, key := some b, value := value }
      refine ⟨{ addr := a, next := none, key := some (b, key), value := value },
        { h with nodes := nodes, keys := Function.update h.keys b (some key) }, fun rest => ?_, ?_,
        rfl, rfl, hnodes, hs.keys.malloc hbfree key⟩
      · rw [hasked, hkey]
        exact tableCreateNode_ok key value rfl rfl
      · simp only [tableCreateNode, hmalloc, if_neg (Option.some_ne_none a), hdup, hmodify,
          Outcome.ok_bind]
        rfl

theorem tableAdd_agrees (hs : Stands h₀ h table entries chains t) (key : CString)
    (value : Option V) (answers : Option Addr × Option Addr) :
    ∃ status t' h' chains',
      (∀ rest, (Jccl.tableAdd (some t) key value).run (asked h answers ++ rest)
        = .ok ((status, some t'), rest)) ∧
      tableAdd (some table) key value answers h = .ok (status, h') ∧
      Stands h₀ h' table entries chains' t' ∧
      chains'.flatten.length ≤ chains.flatten.length + 1 := by
  cases hgrant : h.nodes.grants answers.1 with
  | false =>
      refine ⟨ENOMEM, t, h, chains, fun rest => ?_, ?_, hs, Nat.le_succ _⟩
      · have hasked : asked h answers = [false] := by simp [asked, hgrant]
        have hrefused : (Jccl.tableCreateNode key value).run ([false] ++ rest) = .ok (none, rest) :=
          tableCreateNode_refused key value rfl
        rw [hasked, Jccl.tableAdd, StateT.run_bind, hrefused]
        rfl
      · simp only [tableAdd, tableCreateNode, Heap.malloc_of_not_grants hgrant,
          if_neg (Option.some_ne_none table), if_true, Outcome.ok_bind, Outcome.pure_eq]
  | true =>
      obtain ⟨c, h', hcreate, hcreate', htables, harrays, hnodes, hkeys⟩ :=
        tableCreateNode_agrees hs key value hgrant
      have htable : Owned h₀.tables h'.tables _ := htables ▸ hs.tables
      have harray : Owned h₀.arrays h'.arrays _ := harrays ▸ hs.arrays
      obtain ⟨l, chain, r, rfl, hhash⟩ := hs.exists_chain key
      obtain ⟨nodes, hmodify, hnodes'⟩ := hnodes.modify_ok
        fun node => { node with next := headOf chain }
      let c' : Cell V := { c with next := headOf chain }
      obtain ⟨arrays, hwrite, harray'⟩ := harray.modify_ok
        fun _ => (l ++ (c' :: chain) :: r).map headOf
      have hperm := flatten_cons_perm l r chain c'
      have hheads : writeAt ((l ++ chain :: r).map headOf) l.length (some c.addr)
          = .ok ((l ++ (c' :: chain) :: r).map headOf) :=
        (show headOf (c' :: chain) = some c.addr from rfl) ▸ Stands.writeAt_heads
      refine ⟨0, { t with entries := t.entries.set l.length ((c' :: chain).map Cell.node) },
        { h' with nodes := nodes, arrays := arrays }, l ++ (c' :: chain) :: r, fun rest => ?_, ?_,
        ?_, ?_⟩
      · simp only [Jccl.tableAdd, StateT.run_bind, hcreate, AllocM.run_lift, hhash,
          Outcome.ok_bind, hs.readAt_entries, hs.writeAt_entries]
        rfl
      · simp only [tableAdd, hcreate', if_neg (Option.some_ne_none _), htable.load_ok, hash_eq,
          hhash, harray.load_ok, Outcome.ok_bind, Stands.readAt_heads, hmodify, hheads, hwrite]
        rfl
      · refine hs.of_chain htables ⟨rfl, hs.chained chain (by simp)⟩ harray' ?_ ?_
        · exact hnodes'.perm (hperm.map Cell.block).symm
        · refine hkeys.perm ?_
          have hfilter := (hperm.filterMap Cell.key).symm
          have hsplit : (c' :: (l ++ chain :: r).flatten).filterMap Cell.key
              = c.key.toList ++ (l ++ chain :: r).flatten.filterMap Cell.key :=
            filterMap_cons_key c' _
          rwa [hsplit] at hfilter
      · exact hperm.length_eq.le

/-! ## Removal -/

/-- The node is at the front of what is owned. -/
theorem freeNode_ok {c : Cell V} {nodes : List (Addr × NodeBlock V)} {keys : List (Addr × CString)}
    (hnodes : Owned h₀.nodes h.nodes (c.block :: nodes))
    (hkeys : Owned h₀.keys h.keys (c.key.toList ++ keys)) :
    ∃ h', freeNode (some c.addr) h = .ok h' ∧ h'.tables = h.tables ∧ h'.arrays = h.arrays ∧
      Owned h₀.nodes h'.nodes nodes ∧ Owned h₀.keys h'.keys keys := by
  obtain ⟨nodes', hfree, hnodes'⟩ := hnodes.free_ok
  rcases hkey : c.key with _ | ⟨a, text⟩
  · refine ⟨{ h with nodes := nodes' }, ?_, rfl, rfl, hnodes', by simpa [hkey] using hkeys⟩
    have hnull : h.keys.free none = .ok h.keys := rfl
    simp only [freeNode, hnodes.load_ok, hkey, Option.map_none, hnull, Outcome.ok_bind, hfree]
    rfl
  · rw [hkey] at hkeys
    obtain ⟨keys', hfreeKey, hkeys'⟩ := Owned.free_ok hkeys
    refine ⟨{ h with nodes := nodes', keys := keys' }, ?_, rfl, rfl, hnodes', hkeys'⟩
    simp only [freeNode, hnodes.load_ok, hkey, Option.map_some, Outcome.ok_bind, hfree, hfreeKey]
    rfl

theorem flatten_inner_perm (l r : List (List (Cell V))) (before after : List (Cell V))
    (p x : Cell V) : (l ++ (before ++ p :: x :: after) :: r).flatten.Perm
      (x :: p :: (l ++ (before ++ after) :: r).flatten) := by
  simp only [List.flatten_append, List.flatten_cons, List.append_assoc, List.cons_append]
  have hp : ∀ (c : Cell V) ys, (l.flatten ++ (before ++ c :: ys)).Perm
      (c :: (l.flatten ++ (before ++ ys))) := by
    intro c ys
    rw [← List.append_assoc, ← List.append_assoc]
    exact List.perm_middle
  exact (hp p _).trans (((hp x _).cons p).trans (List.Perm.swap x p _))

theorem flatten_middle_perm (l r : List (List (Cell V))) (before after : List (Cell V))
    (p : Cell V) : (l ++ (before ++ p :: after) :: r).flatten.Perm
      (p :: (l ++ (before ++ after) :: r).flatten) := by
  simp only [List.flatten_append, List.flatten_cons, List.append_assoc, List.cons_append]
  rw [← List.append_assoc, ← List.append_assoc]
  exact List.perm_middle

/-- A node is linked past the next one. -/
theorem Chained.unlink {before after : List (Cell V)} {p x : Cell V}
    (h : Chained (before ++ p :: x :: after)) :
    p.next = some x.addr ∧ Chained (before ++ { p with next := x.next } :: after) := by
  induction before with
  | nil => exact ⟨h.1, h.2.1, h.2.2⟩
  | cons b before ih =>
      obtain ⟨hnext, hrest⟩ := ih h.2
      refine ⟨hnext, h.1.trans ?_, hrest⟩
      cases before with
      | nil => rfl
      | cons b' before => rfl

theorem headOf_unlink (before after : List (Cell V)) (p x : Cell V) (next : Option Addr) :
    headOf (before ++ { p with next := next } :: after) = headOf (before ++ p :: x :: after) := by
  cases before with
  | nil => rfl
  | cons b before => rfl

theorem tableRemove_head {l r : List (List (Cell V))} {chain : List (Cell V)} {c : Cell V}
    (hs : Stands h₀ h table entries (l ++ (c :: chain) :: r) t) :
    ∃ arrays h', h.arrays.modify (some entries) (fun _ => (l ++ chain :: r).map headOf) = .ok arrays ∧
      freeNode (some c.addr) { h with arrays := arrays } = .ok h' ∧
      Stands h₀ h' table entries (l ++ chain :: r)
        { t with entries := t.entries.set l.length (chain.map Cell.node) } := by
  obtain ⟨arrays, hmodify, harrays⟩ := hs.arrays.modify_ok fun _ => (l ++ chain :: r).map headOf
  have hperm := flatten_cons_perm l r chain c
  have hkeys := hs.keys.perm (hperm.filterMap Cell.key)
  rw [filterMap_cons_key] at hkeys
  obtain ⟨h', hfree, htables, harrays', hnodes', hkeys'⟩ :=
    freeNode_ok (h := { h with arrays := arrays }) (hs.nodes.perm (hperm.map Cell.block)) hkeys
  refine ⟨arrays, h', hmodify, hfree, hs.of_chain htables ?_ (harrays' ▸ harrays) hnodes' hkeys'⟩
  exact (hs.chained (c :: chain) (by simp)).2

theorem tableRemove_inner {l r : List (List (Cell V))} {before after : List (Cell V)}
    {p x : Cell V} (hs : Stands h₀ h table entries (l ++ (before ++ p :: x :: after) :: r) t) :
    ∃ nodes h', h.nodes.modify (some p.addr) (fun n => { n with next := x.next }) = .ok nodes ∧
      freeNode (some x.addr) { h with nodes := nodes } = .ok h' ∧
      Stands h₀ h' table entries (l ++ (before ++ { p with next := x.next } :: after) :: r)
        { t with entries := t.entries.set l.length ((before ++ p :: after).map Cell.node) } := by
  let p' : Cell V := { p with next := x.next }
  have hperm := flatten_inner_perm l r before after p x
  have hperm' := flatten_middle_perm l r before after p'
  have hnodes := (hs.nodes.perm (hperm.map Cell.block)).perm (List.Perm.swap ..)
  obtain ⟨nodes, hmodify, hnodes'⟩ := hnodes.modify_ok fun n => { n with next := x.next }
  have hkeys := hs.keys.perm (hperm.filterMap Cell.key)
  have hrest : (p :: (l ++ (before ++ after) :: r).flatten).filterMap Cell.key
      = (p' :: (l ++ (before ++ after) :: r).flatten).filterMap Cell.key := by
    rw [List.filterMap_cons, List.filterMap_cons]
  rw [filterMap_cons_key, hrest] at hkeys
  obtain ⟨h', hfree, htables, harrays, hnodes'', hkeys'⟩ :=
    freeNode_ok (h := { h with nodes := nodes }) (hnodes'.perm (List.Perm.swap ..)) hkeys
  have hnode : (before ++ p :: after).map Cell.node = (before ++ p' :: after).map Cell.node := by
    rw [List.map_append, List.map_append]
    rfl
  have hheads : (l ++ (before ++ p :: x :: after) :: r).map headOf
      = (l ++ (before ++ p' :: after) :: r).map headOf := by
    rw [List.map_append, List.map_append, List.map_cons, List.map_cons,
      headOf_unlink before after p x]
  refine ⟨nodes, h', hmodify, hfree, ?_⟩
  rw [hnode]
  refine hs.of_chain htables ?_ (harrays ▸ hheads ▸ hs.arrays) ?_ ?_
  · exact (hs.chained (before ++ p :: x :: after) (by simp)).unlink.2
  · exact hnodes''.perm (hperm'.map Cell.block).symm
  · exact hkeys'.perm (hperm'.filterMap Cell.key).symm

theorem tableRemove_agrees (hs : Stands h₀ h table entries chains t) (key : CString) {fuel : Nat}
    (hfuel : chains.flatten.length < fuel) :
    Agrees h₀ table entries chains.flatten.length (Jccl.tableRemove (some t) key)
      (tableRemove fuel (some table) key h) := by
  obtain ⟨l, chain, r, rfl, hhash⟩ := hs.exists_chain key
  have hmem : chain ∈ l ++ chain :: r := List.mem_append_right _ List.mem_cons_self
  have hchained := hs.chained chain hmem
  simp only [tableRemove, Jccl.tableRemove, if_neg (Option.some_ne_none _), hs.tables.load_ok,
    Outcome.ok_bind, hash_eq, hhash, hs.arrays.load_ok, Stands.readAt_heads, hs.readAt_entries]
  cases chain with
  | nil => exact .inr ⟨EINVAL, t, h, _, rfl, rfl, hs, le_rfl⟩
  | cons c chain =>
      have hlive : ∀ x ∈ c :: chain, Live h x :=
        fun x hx => hs.live (List.mem_flatten_of_mem hmem hx)
      have hc := hlive c List.mem_cons_self
      simp only [show headOf (c :: chain) = some c.addr from rfl, hc.load, hc.compareKey,
        if_neg (Option.some_ne_none _), Outcome.ok_bind, List.map_cons]
      cases hd : strcmp c.node.key (some key) with
      | error e => exact .inl ⟨e, rfl, rfl⟩
      | ok d =>
          simp only [Outcome.ok_bind]
          by_cases hzero : d = 0
          · -- the key is at the head of its chain
            simp only [if_pos hzero]
            obtain ⟨arrays, h', hmodify, hfree, hs'⟩ := tableRemove_head hs
            have hwrite : writeAt ((l ++ (c :: chain) :: r).map headOf) l.length c.block.2.next
                = .ok ((l ++ chain :: r).map headOf) := by
              rw [show c.block.2.next = headOf chain from hchained.1]
              exact Stands.writeAt_heads
            refine .inr ⟨0, _, h', l ++ chain :: r, ?_, ?_, hs', ?_⟩
            · rw [hs.writeAt_entries]
              rfl
            · simp only [hwrite, hmodify, hfree, Outcome.ok_bind]
              rfl
            · rw [(flatten_cons_perm l r chain c).length_eq]
              exact Nat.le_succ _
          · simp only [if_neg hzero]
            have hlen : (c :: chain).length ≤ (l ++ (c :: chain) :: r).flatten.length :=
              (List.sublist_flatten_of_mem hmem).length_le
            have hlt : chain.length < fuel := (Nat.lt_of_succ_le hlen).trans hfuel
            rcases findBehind_cases key hlive hchained hlt with
              ⟨e, he, he'⟩ | ⟨hnone, p, hp, hpnext, hfound⟩ |
                ⟨before, p, x, after, heq, hsome, hfound⟩
            · exact .inl ⟨e, by rw [he]; rfl, by rw [he']; rfl⟩
            · have hload := (hlive p hp).load
              refine .inr ⟨EINVAL, t, h, _, by rw [hnone]; rfl, ?_, hs, le_rfl⟩
              simp only [hfound, Outcome.ok_bind, hload]
              rw [if_pos (show p.block.2.next = none from hpnext)]
              rfl
            · rw [heq] at hlive hchained
              have hnext := hchained.unlink.1
              have hp := (hlive p (by simp)).load
              have hx := (hlive x (by simp)).load
              obtain ⟨nodes, h', hmodify, hfree, hs'⟩ := tableRemove_inner (heq ▸ hs)
              refine .inr ⟨0, _, h', l ++ (before ++ { p with next := x.next } :: after) :: r,
                ?_, ?_, hs', ?_⟩
              · have hhead : ((before ++ p :: after).map Cell.node).head? = some c.node := by
                  cases before with
                  | nil => exact congrArg some (congrArg Cell.node (List.cons.inj heq).1).symm
                  | cons b before =>
                      exact congrArg some (congrArg Cell.node (List.cons.inj heq).1).symm
                have hcons := List.cons_head?_tail hhead
                simp only [hsome, Outcome.ok_bind, hcons, hs.writeAt_entries]
                rfl
              · simp only [hfound, Outcome.ok_bind, hp,
                  show p.block.2.next = some x.addr from hnext,
                  if_neg (Option.some_ne_none _), hx,
                  show x.block.2.next = x.next from rfl, hmodify, hfree]
                rfl
              · rw [heq, (flatten_inner_perm l r before after p x).length_eq,
                  (flatten_middle_perm l r before after { p with next := x.next }).length_eq]
                exact Nat.le_succ _

end Operation

end TableHeap

end Jccl
