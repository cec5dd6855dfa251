/-
# `Jccl.Dbuf.Defs` — `dbuf.c`, as the code computes it

A `size_t` is a natural number, and the arithmetic on one is taken modulo
`2 ^ 64` where it could leave the range.  The string that is pushed is an
object, so its length is that of the list of its bytes.
-/
import Jccl.Lib.Block

namespace Jccl

/-- `struct dbuf`. -/
structure Dbuf where
  b : Block
  n : Nat
  top : Nat

/-- The conversion of a `size_t` to `ssize_t`. -/
def toSsize (x : Nat) : Int := Int.bmod x (2 ^ 64)

def GROW_FACTOR : Nat := 2

/-- `sizeof(void *)`. -/
def WORD_SIZE : Nat := 8

def dbufInit (initialN : BitVec 64) : Dbuf := { b := .null, n := initialN.toNat, top := 0 }

/-- `buf` is left with a pointer to the block that was freed. -/
def dbufDestroy (buf : Option Dbuf) : Outcome (Option Dbuf) := do
  let some buf := buf | return none
  let b ← buf.b.free
  return some { buf with b := b }

/-- The status, and what `buf` points to afterwards. -/
def dbufGrowTo (buf : Option Dbuf) (newN : Nat) : AllocM (Int × Option Dbuf) := do
  let some buf := buf | return (EINVAL, none)
  if newN < buf.n then return (EINVAL, some buf)
  let (newB, oldB) ← buf.b.realloc newN
  if newB = .null then
    return (ENOMEM, some { buf with b := oldB })
  else
    return (0, some { buf with b := newB, n := newN })

/-- The size that `dbuf_grow` asks for. -/
def dbufNewN (buf : Dbuf) : Nat :=
  if buf.b ≠ .null then
    buf.n * GROW_FACTOR % 2 ^ 64
  else if buf.n ≠ 0 then
    buf.n
  else
    -- fall back to architecture word size
    WORD_SIZE

def dbufGrow (buf : Option Dbuf) : AllocM (Int × Option Dbuf) := do
  let some buf := buf | return (EINVAL, none)
  dbufGrowTo (some buf) (dbufNewN buf)

/-- What `dbuf_push` does before it asserts that there is room. -/
def dbufMakeRoom (buf : Dbuf) (n newTop : Nat) : AllocM (Int × Option Dbuf) :=
  if buf.b = .null ∨ newTop > n then do
    let (retval, grown) ← dbufGrow (some buf)
    if retval ≠ 0 then dbufGrowTo grown newTop else return (retval, grown)
  else
    return (0, some buf)

def dbufPush (buf : Option Dbuf) (s : Option Bytes) : AllocM (Int × Option Dbuf) := do
  let some old := buf | return (-EINVAL, buf)
  let some s := s | return (-EINVAL, buf)
  let n := s.bytes.length
  let newTop := (old.top + n) % 2 ^ 64
  let (retval, buf) ← dbufMakeRoom old n newTop
  if retval ≠ 0 then return (-retval, buf)
  let buf ← deref buf
  assert (buf.n ≥ newTop)
  let offset := buf.top
  let b ← buf.b.write offset s.bytes
  return (toSsize offset, some { buf with b := b, top := (buf.top + n) % 2 ^ 64 })

/-- `s` is whether the destination is not NULL; the last component is what
is copied there. -/
def dbufPop (buf : Option Dbuf) (s : Bool) (n : Nat) :
    Outcome (Int × Option Dbuf × List (Option UInt8)) := do
  let some old := buf | return (EINVAL, buf, [])
  if !s then return (EINVAL, buf, [])
  if n = 0 then return (0, buf, [])
  if n > old.top then return (ENODATA, buf, [])
  let top := old.top - n
  let bytes ← old.b.read top n
  return (0, some { old with top := top }, bytes)

end Jccl
