/-
# `Jccl.Dict.Defs` — `dict.c`, as the code computes it

The nodes live in a heap, and among them the sentinel that ends every branch.
A key is a pointer that the comparator is asked about, so it is a value of any
type, or NULL; a value is only stored.  Each call that may allocate a node is
told the answer of the allocator, and what `errno` is after a refusal.

A pointer to which a result is to be written is `none` if it is NULL, and
otherwise what it points to.
-/
import Jccl.Lib.Heap

namespace Jccl

/-- `struct subtree`. -/
structure DictNode (K V : Type) where
  left : Option Addr
  right : Option Addr
  key : Option K
  value : Option V
  nnode : Int
  level : Int

/-- `struct dict`. -/
structure Dict (K : Type) where
  head : Option Addr
  compar : K → K → Int

/-- What the pointer to the dict points to, if it is not NULL, and the heap. -/
structure DictState (K V : Type) where
  dict : Option (Dict K)
  heap : Heap (DictNode K V)

/-- The address of the sentinel, which is static. -/
def sentinelAddr : Addr := 0

/-- `&end_of_tree_sentinel`. -/
def endOfTree : Option Addr := some sentinelAddr

variable {K V : Type}

def sentinel : DictNode K V :=
  { left := endOfTree, right := endOfTree, key := none, value := none, nnode := 0, level := 0 }

/-- `EOT(node)`. -/
def EOT (node : Option Addr) : Prop := node = endOfTree

instance (node : Option Addr) : Decidable (EOT node) := inferInstanceAs (Decidable (_ = _))

def nodeInit (key : K) (value : Option V) (answer : Option Addr) (heap : Heap (DictNode K V)) :
    Option Addr × Heap (DictNode K V) :=
  heap.malloc answer
    { key := some key, value := value, left := endOfTree, right := endOfTree, nnode := 1, level := 1 }

/-- `granted` is whether the dict itself could be allocated. -/
def dictInit (compar : Option (K → K → Int)) (granted : Bool) : Option (Dict K) :=
  match compar with
  | none => none
  | some compar => if granted then some { head := endOfTree, compar := compar } else none

def subtreeSize (head : Option Addr) (heap : Heap (DictNode K V)) : Outcome Int := do
  assert (head ≠ none)
  let node ← heap.load head
  return node.nnode

def dictSize (s : DictState K V) : Outcome Int :=
  match s.dict with
  | none => .ok (-EINVAL)
  | some dict => subtreeSize dict.head s.heap

/-! ## Rebalancing -/

def nodeReconstructNnode (node : Option Addr) (heap : Heap (DictNode K V)) :
    Outcome (Heap (DictNode K V)) := do
  assert (node ≠ none ∧ ¬ EOT node)
  let n ← heap.load node
  let left ← heap.load n.left
  let right ← heap.load n.right
  let nnode ← checkInt (left.nnode + 1)
  let nnode ← checkInt (nnode + right.nnode)
  heap.modify node fun n => { n with nnode := nnode }

def subtreeRotateRight (head : Option Addr) (heap : Heap (DictNode K V)) :
    Outcome (Option Addr × Heap (DictNode K V)) := do
  assert (head ≠ none)
  let node ← heap.load head
  assert (¬ EOT head ∧ ¬ EOT node.left)
  let left := node.left
  let leftNode ← heap.load left
  let heap ← heap.modify head fun n => { n with left := leftNode.right }
  let heap ← heap.modify left fun n => { n with right := head }
  let heap ← nodeReconstructNnode head heap
  let heap ← nodeReconstructNnode left heap
  return (left, heap)

def subtreeRotateLeft (head : Option Addr) (heap : Heap (DictNode K V)) :
    Outcome (Option Addr × Heap (DictNode K V)) := do
  assert (head ≠ none)
  let node ← heap.load head
  assert (¬ EOT head ∧ ¬ EOT node.right)
  let right := node.right
  let rightNode ← heap.load right
  let heap ← heap.modify head fun n => { n with right := rightNode.left }
  let heap ← heap.modify right fun n => { n with left := head }
  let heap ← nodeReconstructNnode head heap
  let heap ← nodeReconstructNnode right heap
  return (right, heap)

/-- The result of the rotation is not used. -/
def skew (head : Option Addr) (heap : Heap (DictNode K V)) :
    Outcome (Option Addr × Heap (DictNode K V)) := do
  assert (head ≠ none ∧ ¬ EOT head)
  let node ← heap.load head
  let left ← heap.load node.left
  if node.level = left.level then
    let (_, heap) ← subtreeRotateRight head heap
    return (head, heap)
  else
    return (head, heap)

def split (head : Option Addr) (heap : Heap (DictNode K V)) :
    Outcome (Option Addr × Heap (DictNode K V)) := do
  assert (head ≠ none ∧ ¬ EOT head)
  let node ← heap.load head
  let right ← heap.load node.right
  let rightRight ← heap.load right.right
  if node.level = rightRight.level then
    let (head, heap) ← subtreeRotateLeft head heap
    let node ← heap.load head
    let level ← checkInt (node.level + 1)
    let heap ← heap.modify head fun n => { n with level := level }
    return (head, heap)
  else
    return (head, heap)

/-! ## Putting and getting -/

/-- What a call of `subtree_put` writes to. -/
structure PutState (K V : Type) where
  heap : Heap (DictNode K V)
  nkey : Option (Option K)
  nvalue : Option (Option V)
  status : Int

/-- What the call and all recursive ones are told. -/
structure PutArgs (K V : Type) where
  compar : K → K → Int
  key : K
  value : Option V
  answer : Option Addr
  errno : Int

/-- What is done to a node when the recursion has come back to it. -/
def rebalance (head : Option Addr) (s : PutState K V) : Outcome (Option Addr × PutState K V) := do
  let heap ← nodeReconstructNnode head s.heap
  let (head, heap) ← skew head heap
  let (head, heap) ← split head heap
  return (head, { s with heap := heap })

def subtreePut (args : PutArgs K V) :
    Nat → Option Addr → PutState K V → Outcome (Option Addr × PutState K V)
  | 0, _, _ => .error .timeout
  | fuel + 1, head, s =>
      if EOT head then
        match nodeInit args.key args.value args.answer s.heap with
        | (none, _) =>
            .ok (endOfTree, { s with status := if args.errno ≠ 0 then args.errno else -1 })
        | (some new, heap) =>
            .ok (some new, { s with
              heap := heap
              nkey := s.nkey.map fun _ => none
              nvalue := s.nvalue.map fun _ => none })
      else do
        let node ← s.heap.load head
        let key ← deref node.key
        let compared := args.compar args.key key
        if compared < 0 then
          let (left, s) ← subtreePut args fuel node.left s
          let heap ← s.heap.modify head fun n => { n with left := left }
          rebalance head { s with heap := heap }
        else if compared = 0 then
          let heap ← s.heap.modify head fun n => { n with key := some args.key, value := args.value }
          return (head, { s with
            heap := heap
            nkey := s.nkey.map fun _ => node.key
            nvalue := s.nvalue.map fun _ => node.value })
        else
          let (right, s) ← subtreePut args fuel node.right s
          let heap ← s.heap.modify head fun n => { n with right := right }
          rebalance head { s with heap := heap }

/-- The recursion is given one more step than there are nodes.  The result is
the status, what `nkey` and `nvalue` point to afterwards, and the dict. -/
def dictPut (key : Option K) (value : Option V) (nkey : Option (Option K))
    (nvalue : Option (Option V)) (answer : Option Addr) (errno : Int) (s : DictState K V) :
    Outcome (Int × Option (Option K) × Option (Option V) × DictState K V) := do
  let some dict := s.dict | return (EINVAL, nkey, nvalue, s)
  let some key := key | return (EINVAL, nkey, nvalue, s)
  let size ← subtreeSize dict.head s.heap
  let args := { compar := dict.compar, key := key, value := value, answer := answer, errno := errno }
  let (head, p) ← subtreePut args (size.toNat + 1) dict.head
    { heap := s.heap, nkey := nkey, nvalue := nvalue, status := 0 }
  if p.status ≠ 0 then
    return (p.status, p.nkey, p.nvalue, { s with heap := p.heap })
  else
    return (0, p.nkey, p.nvalue, { dict := some { dict with head := head }, heap := p.heap })

/-- The loop of `subtree_get`: the value, and what `index_of_key` points to. -/
def subtreeGet (compar : K → K → Int) (key : K) (index : Option Int) (heap : Heap (DictNode K V)) :
    Nat → Option Addr → Int → Outcome (Option V × Option Int)
  | 0, _, _ => .error .timeout
  | fuel + 1, head, skipped =>
      if EOT head then
        .ok (none, index)
      else do
        let node ← heap.load head
        let nodeKey ← deref node.key
        let compared := compar key nodeKey
        if compared < 0 then
          subtreeGet compar key index heap fuel node.left skipped
        else
          let left ← heap.load node.left
          let skipped ← checkInt (skipped + left.nnode)
          if compared = 0 then
            return (node.value, index.map fun _ => skipped)
          else
            let skipped ← checkInt (skipped + 1)
            subtreeGet compar key index heap fuel node.right skipped

def dictGet (key : Option K) (index : Option Int) (s : DictState K V) :
    Outcome (Option V × Option Int) := do
  let some dict := s.dict | return (none, index)
  let some key := key | return (none, index)
  let size ← subtreeSize dict.head s.heap
  subtreeGet dict.compar key index s.heap (size.toNat + 1) dict.head 0

/-- The loop of `subtree_select`: the status, and what `key` and `value` point
to, from what they pointed to. -/
def subtreeSelectLoop (key : Option K) (value : Option V) (heap : Heap (DictNode K V)) :
    Nat → Option Addr → Int → Outcome (Int × Option K × Option V)
  | 0, _, _ => .error .timeout
  | fuel + 1, head, i =>
      if EOT head then
        .ok (ESRCH, key, value)
      else do
        let node ← heap.load head
        let left ← heap.load node.left
        let iHead := left.nnode
        if i < iHead then
          subtreeSelectLoop key value heap fuel node.left i
        else if i > iHead then
          let skipped ← checkInt (iHead + 1)
          let i ← checkInt (i - skipped)
          subtreeSelectLoop key value heap fuel node.right i
        else
          return (0, node.key, node.value)

def subtreeSelect (fuel : Nat) (head : Option Addr) (i : Int) (key : Option (Option K))
    (value : Option (Option V)) (heap : Heap (DictNode K V)) :
    Outcome (Int × Option (Option K) × Option (Option V)) := do
  let some key := key | throw .assertion
  let some value := value | throw .assertion
  let i ← if i < 0 then do
      let node ← heap.load head
      checkInt (i + node.nnode)
    else
      pure i
  let (status, key, value) ← subtreeSelectLoop key value heap fuel head i
  return (status, some key, some value)

def dictSelect (i : Int) (key : Option (Option K)) (value : Option (Option V))
    (s : DictState K V) : Outcome (Int × Option (Option K) × Option (Option V)) := do
  let some dict := s.dict | return (EINVAL, key, value)
  if key.isNone ∨ value.isNone then return (EINVAL, key, value)
  let size ← subtreeSize dict.head s.heap
  subtreeSelect (size.toNat + 1) dict.head i key value s.heap

/-! ## Traversing -/

/-- What is to be done to each pair: `state` is what the pointer that is handed
through points to, before and after, and the status comes with it. -/
abbrev DictAction (K V σ : Type) := Option K → Option V → σ → Int × σ

def subtreeForEach {σ : Type} (action : DictAction K V σ) (heap : Heap (DictNode K V)) :
    Nat → Option Addr → σ → Outcome (Int × σ)
  | 0, _, _ => .error .timeout
  | fuel + 1, head, state =>
      if EOT head then
        .ok (0, state)
      else do
        let node ← heap.load head
        let (status, state) ← subtreeForEach action heap fuel node.left state
        if status ≠ 0 then
          return (status, state)
        else
          let (status, state) := action node.key node.value state
          if status ≠ 0 then
            return (status, state)
          else
            subtreeForEach action heap fuel node.right state

def dictForEach {σ : Type} (action : Option (DictAction K V σ)) (state : σ) (s : DictState K V) :
    Outcome (Int × σ) := do
  let some dict := s.dict | return (EINVAL, state)
  let some action := action | return (EINVAL, state)
  let size ← subtreeSize dict.head s.heap
  subtreeForEach action s.heap (size.toNat + 1) dict.head state

end Jccl
