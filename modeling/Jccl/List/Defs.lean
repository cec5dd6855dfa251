/-
# `Jccl.List.Defs` — `list.c`, as the code computes it

The nodes live in a heap; a `struct list` is the two ends and the counter.
An element is a pointer that the list only stores and compares, so it is a
value of any type with equality, or NULL.  Each call that may allocate a node
is told the answer of the allocator.
-/
import Jccl.Lib.Heap

namespace Jccl

/-- `struct list_node`. -/
structure ListNode (E : Type) where
  next : Option Addr
  previous : Option Addr
  element : Option E

/-- `struct list`. -/
structure CList where
  head : Option Addr
  tail : Option Addr
  nelement : Int

/-- What the pointer to the list points to, if it is not NULL, and the heap. -/
structure ListState (E : Type) where
  list : Option CList
  heap : Heap (ListNode E)

variable {E : Type}

/-- `granted` is whether the list itself could be allocated. -/
def listInit (granted : Bool) : Option CList :=
  if granted then some { head := none, tail := none, nelement := 0 } else none

def listAddnode (list : CList) (element : Option E) (answer : Option Addr)
    (heap : Heap (ListNode E)) : Outcome (Option Addr × CList × Heap (ListNode E)) :=
  match heap.malloc answer { next := none, previous := none, element := element } with
  | (none, heap) => .ok (none, list, heap)
  | (some node, heap) => do
      let nelement ← checkInt (list.nelement + 1)
      return (some node, { list with nelement := nelement }, heap)

def listDelnode (list : CList) (node : Option Addr) (heap : Heap (ListNode E)) :
    Outcome (CList × Heap (ListNode E)) := do
  let heap ← heap.free node
  let nelement ← checkInt (list.nelement - 1)
  return ({ list with nelement := nelement }, heap)

def listPrepend (element : Option E) (answer : Option Addr) (s : ListState E) :
    Outcome (Int × ListState E) := do
  let some list := s.list | return (EINVAL, s)
  if element.isNone then return (EINVAL, s)
  let (np, list, heap) ← listAddnode list element answer s.heap
  if np = none then return (ENOMEM, s)
  let heap ← heap.modify np fun node => { node with next := list.head }
  let node ← heap.load np
  if node.next = none then
    return (0, { list := some { list with head := np, tail := np }, heap := heap })
  else
    let heap ← heap.modify node.next fun node => { node with previous := np }
    return (0, { list := some { list with head := np }, heap := heap })

def listAppend (element : Option E) (answer : Option Addr) (s : ListState E) :
    Outcome (Int × ListState E) := do
  let some list := s.list | return (EINVAL, s)
  if element.isNone then return (EINVAL, s)
  let (np, list, heap) ← listAddnode list element answer s.heap
  if np = none then return (ENOMEM, s)
  let heap ← heap.modify np fun node => { node with previous := list.tail }
  let node ← heap.load np
  if node.previous = none then
    return (0, { list := some { list with head := np, tail := np }, heap := heap })
  else
    let heap ← heap.modify node.previous fun node => { node with next := np }
    return (0, { list := some { list with tail := np }, heap := heap })

/-- The loop of `list_remove`: the first node with the element, from `np` on. -/
def listFind [DecidableEq E] (element : Option E) (heap : Heap (ListNode E)) :
    Nat → Option Addr → Outcome (Option Addr)
  | 0, _ => .error .timeout
  | fuel + 1, np => do
      if np = none then return none
      let node ← heap.load np
      if node.element ≠ element then listFind element heap fuel node.next else return np

/-- The loop is given one more step than there are elements. -/
def listRemove [DecidableEq E] (element : Option E) (s : ListState E) :
    Outcome (Int × ListState E) := do
  let some list := s.list | return (EINVAL, s)
  if element.isNone then return (EINVAL, s)
  if list.head = none then return (EADDRNOTAVAIL, s)
  let first ← s.heap.load list.head
  if first.element = element then
    if first.next = none then
      let (list', heap) ← listDelnode { list with head := none, tail := none } list.head s.heap
      return (0, { list := some list', heap := heap })
    else
      let heap ← s.heap.modify first.next fun node => { node with previous := none }
      let (list', heap) ← listDelnode { list with head := first.next } list.head heap
      return (0, { list := some list', heap := heap })
  else
    let np ← listFind element s.heap (list.nelement.toNat + 1) list.head
    if np = none then return (EADDRNOTAVAIL, s)
    let node ← s.heap.load np
    let heap ← s.heap.modify node.previous fun m => { m with next := node.next }
    let node ← heap.load np
    if node.next = none then
      let (list', heap) ← listDelnode { list with tail := node.previous } np heap
      return (0, { list := some list', heap := heap })
    else
      let heap ← heap.modify node.next fun m => { m with previous := node.previous }
      let (list', heap) ← listDelnode list np heap
      return (0, { list := some list', heap := heap })

def listShift (s : ListState E) : Outcome (Option E × ListState E) := do
  let some list := s.list | return (none, s)
  if list.head = none then return (none, s)
  let node ← s.heap.load list.head
  if node.next = none then
    let (list', heap) ← listDelnode { list with tail := none, head := node.next } list.head s.heap
    return (node.element, { list := some list', heap := heap })
  else
    let heap ← s.heap.modify node.next fun m => { m with previous := none }
    let (list', heap) ← listDelnode { list with head := node.next } list.head heap
    return (node.element, { list := some list', heap := heap })

def listPop (s : ListState E) : Outcome (Option E × ListState E) := do
  let some list := s.list | return (none, s)
  if list.tail = none then return (none, s)
  let node ← s.heap.load list.tail
  if node.previous = none then
    let (list', heap) ← listDelnode { list with head := none, tail := node.previous } list.tail s.heap
    return (node.element, { list := some list', heap := heap })
  else
    let heap ← s.heap.modify node.previous fun m => { m with next := none }
    let (list', heap) ← listDelnode { list with tail := node.previous } list.tail heap
    return (node.element, { list := some list', heap := heap })

def listSize (s : ListState E) : Int :=
  match s.list with
  | none => -EINVAL
  | some list => list.nelement

/-- The loop of `list_free`, which then frees the list itself. -/
def listFreeLoop : Nat → ListState E → Outcome (ListState E)
  | 0, _ => .error .timeout
  | fuel + 1, s => do
      let (element, s) ← listPop s
      if element.isSome then listFreeLoop fuel s else return s

end Jccl
