/-
# `Jccl.Table.Defs` — `table.c`, as the code computes it

A hash chain is owned by its entry and shared with nothing, so the pointer to
a node is the list of the nodes from it on, and NULL is the empty list.  The
key of a node is what `strdup` returned, which may be NULL; the value is the
caller's pointer.  An `unsigned int` is a `BitVec 32`.
-/
import Jccl.Lib.Alloc
import Jccl.Lib.CString

namespace Jccl

abbrev UInt := BitVec 32

/-- `struct Table_node`, without the link. -/
structure TableNode (V : Type) where
  key : Option CString
  value : Option V

/-- `struct Table`. -/
structure Table (V : Type) where
  entries : List (List (TableNode V))
  size : UInt

variable {V : Type}

def tableInit (size : UInt) : AllocM (Option (Table V)) := do
  if size = 0 then return none
  if !(← allocates) then return none
  if !(← allocates) then return none
  return some { entries := List.replicate size.toNat [], size := size }

/-- The enumeration constant of `hash`. -/
def Multiplier : UInt := 37

def hash (table : Table V) (key : CString) : Outcome Nat :=
  let hash := key.bytes.foldl (fun hash c => Multiplier * hash + BitVec.ofNat 32 c.toNat) 0
  if table.size = 0 then .error .division else .ok (hash % table.size).toNat

/-- Two allocations: the node, and the duplicate of the key, which is not
tested for NULL. -/
def tableCreateNode (key : CString) (value : Option V) : AllocM (Option (TableNode V)) := do
  if !(← allocates) then return none
  if ← allocates then
    return some { key := some key, value := value }
  else
    return some { key := none, value := value }

/-- The status, and the table that the argument points to afterwards. -/
def tableAdd (table : Option (Table V)) (key : CString) (value : Option V) :
    AllocM (Int × Option (Table V)) := do
  let some t := table | return (EINVAL, none)
  let some np ← tableCreateNode key value | return (ENOMEM, table)
  let h ← hash t key
  let next ← readAt t.entries h
  let entries ← writeAt t.entries h (np :: next)
  return (0, some { t with entries := entries })

/-- The loop of `table_remove` over the nodes behind `pnp`, and the removal:
what is behind `pnp` then, if the key was found. -/
def removeBehind (key : CString) : List (TableNode V) → Outcome (Option (List (TableNode V)))
  | [] => .ok none
  | np :: next => do
      if (← strcmp np.key (some key)) = 0 then
        return some next
      else
        let behind ← removeBehind key next
        return behind.map (np :: ·)

def tableRemove (table : Option (Table V)) (key : CString) : Outcome (Int × Option (Table V)) := do
  let some t := table | return (EINVAL, none)
  let h ← hash t key
  match ← readAt t.entries h with
  | [] => return (EINVAL, table)
  | np :: next =>
      if (← strcmp np.key (some key)) = 0 then
        let entries ← writeAt t.entries h next
        return (0, some { t with entries := entries })
      else
        match ← removeBehind key next with
        | none => return (EINVAL, table)
        | some behind =>
            let entries ← writeAt t.entries h (np :: behind)
            return (0, some { t with entries := entries })

/-- The loop of `table_lookup`. -/
def lookupFrom (key : CString) : List (TableNode V) → Outcome (Option V)
  | [] => .ok none
  | np :: next => do
      if (← strcmp np.key (some key)) = 0 then return np.value else lookupFrom key next

def tableLookup (table : Option (Table V)) (key : CString) : Outcome (Option V) := do
  let some t := table | return none
  let h ← hash t key
  let np ← readAt t.entries h
  lookupFrom key np

end Jccl
