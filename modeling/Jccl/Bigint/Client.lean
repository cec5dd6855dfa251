/-
# `Jccl.Bigint.Client` — programs that use `bigint.h`

A client has variables with pointers to bigints.  It calls functions that build
a bigint, and assigns each result to a new variable; it calls functions that
read bigints, and sees what they return; and it destroys bigints, and has NULL
in the variable then.

`run` is such a program over values, as every result about the operators has
it, and `runAt` the same program over blocks.  Whatever the allocator answers,
the client sees what it sees of values where the same requests are served, and
what is live beside the blocks from before is one block for each variable that
is not NULL: the operators leave none of their own, free none twice, and use
none that was freed.  Only a block that is moved when it is made smaller ends
the program, at the assertion that says that it is not.
-/
import Jccl.Bigint.Blocks

namespace Jccl

open BlockM

/-- The functions that build a bigint, with the variables that are their operands. -/
inductive BigintBuilder where
  | fromLong (x : ULong)
  | fromMsbFirstHexstring (s : Option (List UInt8)) (ns : Nat)
  | copy (n : Nat)
  | not (n : Nat)
  | and (a b : Nat)
  | or (a b : Nat)
  | xor (a b : Nat)
  | shiftLeft (a b : Nat)
  | shiftRight (a b : Nat)
  | negate (n : Nat)
  | abs (n : Nat)
  | add (a b : Nat)
  | subtract (a b : Nat)

/-- The functions that read bigints; some are given an object to write to as well. -/
inductive BigintReader where
  | toLong (n : Nat) (result : Option ULong)
  | nnibble (n : Nat)
  | toMsbFirstHexstring (n : Nat) (s : Option (List UInt8))
  | compare (a b : Nat)

/-- What a reader returned, and the object that it was given as it left it. -/
inductive BigintReading where
  | long (status : Int) (result : Option ULong)
  | number (n : Int)
  | text (length : Int) (s : Option (List UInt8))
deriving DecidableEq

inductive BigintCommand where
  | build (f : BigintBuilder)
  | read (r : BigintReader)
  | destroy (i : Nat)

/-- The variables from `next` on are not used yet. -/
structure BigintClient (P : Type) where
  next : Nat
  vars : Nat → Option P
  seen : List BigintReading

namespace BigintClient

variable {P : Type}

def init : BigintClient P := { next := 0, vars := fun _ => none, seen := [] }

def assign (c : BigintClient P) (p : Option P) : BigintClient P :=
  { c with next := c.next + 1, vars := Function.update c.vars c.next p }

def see (c : BigintClient P) (x : BigintReading) : BigintClient P := { c with seen := c.seen ++ [x] }

def clear (c : BigintClient P) (i : Nat) : BigintClient P :=
  { c with vars := Function.update c.vars i none }

end BigintClient

/-! ## Over values -/

/-- The depth is that of the recursion of the shifts. -/
def BigintBuilder.run (depth : Nat) (vars : Nat → Option Bigint) :
    BigintBuilder → AllocM (Option Bigint)
  | fromLong x => bigintFromLong x
  | fromMsbFirstHexstring s ns => bigintFromMsbFirstHexstring s ns
  | copy n => bigintCopy (vars n)
  | not n => bigintNot (vars n)
  | and a b => bigintAnd (vars a) (vars b)
  | or a b => bigintOr (vars a) (vars b)
  | xor a b => bigintXor (vars a) (vars b)
  | shiftLeft a b => bigintShiftLeft depth (vars a) (vars b)
  | shiftRight a b => bigintShiftRight depth (vars a) (vars b)
  | negate n => bigintNegate (vars n)
  | abs n => bigintAbs (vars n)
  | add a b => bigintAdd (vars a) (vars b)
  | subtract a b => bigintSubtract (vars a) (vars b)

def BigintReader.run (vars : Nat → Option Bigint) : BigintReader → Outcome BigintReading
  | toLong n result => do
      let (status, result) ← bigintToLong (vars n) result
      return .long status result
  | nnibble n => do return .number (← bigintNnibble (vars n))
  | toMsbFirstHexstring n s => do
      let (length, s) ← bigintToMsbFirstHexstring (vars n) s
      return .text length s
  | compare a b => do return .number (← bigintCompare (vars a) (vars b))

def BigintCommand.run (depth : Nat) (v : BigintClient Bigint) :
    BigintCommand → AllocM (BigintClient Bigint)
  | build f => do return v.assign (← f.run depth v.vars)
  | read r => do return v.see (← r.run v.vars)
  | destroy i => return v.clear i

namespace BigintClient

def run (depth : Nat) : List BigintCommand → BigintClient Bigint → AllocM (BigintClient Bigint)
  | [], v => return v
  | c :: cs, v => do
      let v ← c.run depth v
      run depth cs v

end BigintClient

/-! ## Over blocks -/

/-- What a function that only reads finds behind a pointer. -/
def operandAt (n : Option Addr) : BlockM Bigint (Option Bigint) := do
  if n = none then return none
  return some (← load n)

def BigintBuilder.runAt (depth : Nat) (vars : Nat → Option Addr) :
    BigintBuilder → BlockM Bigint (Option Addr)
  | fromLong x => bigintFromLongAt x
  | fromMsbFirstHexstring s ns => bigintFromMsbFirstHexstringAt s ns
  | copy n => bigintCopyAt (vars n)
  | not n => bigintNotAt (vars n)
  | and a b => bigintBinopAt (· &&& ·) (vars a) (vars b)
  | or a b => bigintBinopAt (· ||| ·) (vars a) (vars b)
  | xor a b => bigintBinopAt (· ^^^ ·) (vars a) (vars b)
  | shiftLeft a b => bigintShiftLeftAt depth (vars a) (vars b)
  | shiftRight a b => bigintShiftRightAt depth (vars a) (vars b)
  | negate n => bigintNegateAt (vars n)
  | abs n => bigintAbsAt (vars n)
  | add a b => bigintAddAt (vars a) (vars b)
  | subtract a b => bigintSubtractAt (vars a) (vars b)

def BigintReader.runAt (vars : Nat → Option Addr) : BigintReader → BlockM Bigint BigintReading
  | toLong n result => do
      let (status, result) ← bigintToLong (← operandAt (vars n)) result
      return .long status result
  | nnibble n => do return .number (← bigintNnibble (← operandAt (vars n)))
  | toMsbFirstHexstring n s => do
      let (length, s) ← bigintToMsbFirstHexstring (← operandAt (vars n)) s
      return .text length s
  | compare a b => do
      return .number (← bigintCompare (← operandAt (vars a)) (← operandAt (vars b)))

def BigintCommand.runAt (depth : Nat) (c : BigintClient Addr) :
    BigintCommand → BlockM Bigint (BigintClient Addr)
  | build f => do return c.assign (← f.runAt depth c.vars)
  | read r => do return c.see (← r.runAt c.vars)
  | destroy i => do
      bigintDestroyAt (c.vars i)
      return c.clear i

namespace BigintClient

def runAt (depth : Nat) :
    List BigintCommand → BigintClient Addr → BlockM Bigint (BigintClient Addr)
  | [], c => return c
  | command :: cs, c => do
      let c ← command.runAt depth c
      runAt depth cs c

/-- The client with variables that hold the values, and with no other block. -/
structure Stands (h₀ : Heap Bigint) (c : BigintClient Addr) (v : BigintClient Bigint)
    (h : Heap Bigint) : Prop where
  next : c.next = v.next
  seen : c.seen = v.seen
  unused : ∀ i, c.next ≤ i → c.vars i = none
  held : Held h₀ c.vars v.vars h

end BigintClient

/-! ## The one against the other -/

section Refines

variable {h h₀ : Heap Bigint} {c : BigintClient Addr} {v : BigintClient Bigint}
variable {vars : Nat → Option Addr} {values : Nat → Option Bigint}

theorem builder_refines (hone : h bigintOneAddr = some bigintOne)
    (hvars : ∀ i, PointsTo h (vars i) (values i)) (depth : Nat) (f : BigintBuilder) :
    Refines (Returned h) h (f.runAt depth vars) (f.run depth values) := by
  cases f with
  | fromLong x => exact bigintFromLongAt_refines x
  | fromMsbFirstHexstring s ns => exact bigintFromMsbFirstHexstringAt_refines s ns
  | copy n => exact bigintCopyAt_refines (hvars n)
  | not n => exact bigintNotAt_refines (hvars n)
  | and a b => exact bigintBinopAt_refines _ (hvars a) (hvars b)
  | or a b => exact bigintBinopAt_refines _ (hvars a) (hvars b)
  | xor a b => exact bigintBinopAt_refines _ (hvars a) (hvars b)
  | shiftLeft a b => exact (bigintShiftAt_refines hone depth (hvars a) (hvars b)).1
  | shiftRight a b => exact (bigintShiftAt_refines hone depth (hvars a) (hvars b)).2
  | negate n => exact bigintNegateAt_refines hone (hvars n)
  | abs n => exact bigintAbsAt_refines hone (hvars n)
  | add a b => exact bigintAddAt_refines (hvars a) (hvars b)
  | subtract a b => exact bigintSubtractAt_refines hone (hvars a) (hvars b)

theorem refines_operand {α β : Type} {R : α → β → Heap Bigint → Prop} {p : Option Addr}
    {o : Option Bigint} {g : Option Bigint → BlockM Bigint α} {f : AllocM β} (hp : PointsTo h p o)
    (hg : Refines R h (g o) f) : Refines R h (operandAt p >>= g) f := by
  cases hp with
  | null => exact hg
  | @block a n ha =>
      rw [operandAt, if_neg (Option.some_ne_none a), bind_assoc]
      exact refines_load ha hg

theorem reader_refines (hvars : ∀ i, PointsTo h (vars i) (values i)) (r : BigintReader) :
    Refines (fun x y h' => x = y ∧ h' = h) h (r.runAt vars) (liftM (r.run values)) := by
  cases r with
  | toLong n result =>
      rw [BigintReader.run, AllocM.lift_bind]
      exact refines_operand (hvars n) (refines_lift_bind fun _ _ => refines_pure ⟨rfl, rfl⟩)
  | nnibble n =>
      rw [BigintReader.run, AllocM.lift_bind]
      exact refines_operand (hvars n) (refines_lift_bind fun _ _ => refines_pure ⟨rfl, rfl⟩)
  | toMsbFirstHexstring n s =>
      rw [BigintReader.run, AllocM.lift_bind]
      exact refines_operand (hvars n) (refines_lift_bind fun _ _ => refines_pure ⟨rfl, rfl⟩)
  | compare a b =>
      rw [BigintReader.run, AllocM.lift_bind]
      refine refines_operand (hvars a) (refines_operand (hvars b) ?_)
      exact refines_lift_bind fun _ _ => refines_pure ⟨rfl, rfl⟩

namespace BigintClient

theorem Stands.assign {p : Option Addr} {o : Option Bigint} {h' : Heap Bigint}
    (hs : Stands h₀ c v h) (hr : Returned h p o h') : Stands h₀ (c.assign p) (v.assign o) h' where
  next := congrArg (· + 1) hs.next
  seen := hs.seen
  unused i hi := by
    have hne : i ≠ c.next := (Nat.lt_of_succ_le hi).ne'
    show Function.update c.vars c.next p i = none
    rw [Function.update_of_ne hne]
    exact hs.unused i (Nat.le_of_succ_le hi)
  held := by
    have hheld := hs.held.assign (hs.unused c.next le_rfl) hr
    rw [BigintClient.assign, BigintClient.assign, ← hs.next]
    exact hheld

theorem Stands.clear {h' : Heap Bigint} {i : Nat} (hs : Stands h₀ c v h)
    (hheld : Held h₀ (c.clear i).vars (v.clear i).vars h') :
    Stands h₀ (c.clear i) (v.clear i) h' where
  next := hs.next
  seen := hs.seen
  unused j hj := by
    show Function.update c.vars i none j = none
    rw [Function.update_apply]
    split
    · rfl
    · exact hs.unused j hj
  held := hheld

theorem destroy_refines (hs : Stands h₀ c v h) (depth i : Nat) :
    Refines (fun c' v' h' => Stands h₀ c' v' h' ∧ c' = c.clear i) h
      ((BigintCommand.destroy i).runAt depth c) ((BigintCommand.destroy i).run depth v) := by
  have hpoints := hs.held.points i
  rw [BigintCommand.runAt, bigintDestroyAt_eq]
  cases hp : c.vars i with
  | none =>
      have hvalue : v.vars i = none := (hp ▸ hpoints).value_none
      refine refines_pure ⟨hs.clear ?_, rfl⟩
      rw [BigintClient.clear, BigintClient.clear, Function.update_eq_self_iff.mpr hp.symm,
        Function.update_eq_self_iff.mpr hvalue.symm]
      exact hs.held
  | some a =>
      obtain ⟨n, -, ha⟩ := (hp ▸ hpoints).live
      exact refines_free ha (refines_pure ⟨hs.clear (hs.held.free hp), rfl⟩)

theorem command_refines (hone : h₀ bigintOneAddr = some bigintOne) (hs : Stands h₀ c v h)
    (depth : Nat) (command : BigintCommand) :
    Refines (Stands h₀) h (command.runAt depth c) (command.run depth v) := by
  cases command with
  | build f =>
      refine (builder_refines (hs.held.of_live hone) hs.held.points depth f).bind ?_
      exact fun p o h' hr => refines_pure (hs.assign hr)
  | read r =>
      refine (reader_refines hs.held.points r).bind ?_
      rintro x _ _ ⟨rfl, rfl⟩
      exact refines_pure
        { next := hs.next, seen := congrArg (· ++ [x]) hs.seen, unused := hs.unused, held := hs.held }
  | destroy i => exact (destroy_refines hs depth i).mono fun _ _ _ hs' => hs'.1

theorem run_refines (hone : h₀ bigintOneAddr = some bigintOne) (depth : Nat)
    (cs : List BigintCommand) (hs : Stands h₀ c v h) :
    Refines (Stands h₀) h (runAt depth cs c) (run depth cs v) := by
  induction cs generalizing c v h with
  | nil => exact refines_pure hs
  | cons command cs ih =>
      exact (command_refines hone hs depth command).bind fun _ _ _ hs' => ih hs'

theorem stands_init (h : Heap Bigint) : Stands h init init h where
  next := rfl
  seen := rfl
  unused _ _ := rfl
  held := .nil h

/-- `bigint_destroy` of each variable. -/
def destroyAll (n : Nat) : List BigintCommand := (List.range n).map .destroy

theorem destroys_refines (hs : Stands h₀ c v h) (depth : Nat) (is : List Nat) :
    Refines (fun c' v' h' => Stands h₀ c' v' h' ∧
        ∀ i, c'.vars i = if i ∈ is then none else c.vars i) h
      (runAt depth (is.map .destroy) c) (run depth (is.map .destroy) v) := by
  induction is generalizing c v h with
  | nil => exact refines_pure ⟨hs, fun i => (if_neg List.not_mem_nil).symm⟩
  | cons j is ih =>
      refine (destroy_refines hs depth j).bind fun c' v' h' hs' => ?_
      obtain ⟨hs', rfl⟩ := hs'
      refine (ih hs').mono fun c'' v'' h'' hs'' => ⟨hs''.1, fun i => ?_⟩
      have hclear : (c.clear j).vars i = if i = j then none else c.vars i :=
        Function.update_apply ..
      rw [hs''.2 i, hclear]
      by_cases hij : i = j
      · rw [if_pos hij, ite_self, if_pos (hij ▸ List.mem_cons_self)]
      · rw [if_neg hij]
        simp only [List.mem_cons, hij, false_or]

/-- A program that destroys every variable at its end. -/
def life (depth : Nat) (cs : List BigintCommand) : AllocM (BigintClient Bigint) := do
  let v ← run depth cs .init
  run depth (destroyAll v.next) v

def lifeAt (depth : Nat) (cs : List BigintCommand) : BlockM Bigint (BigintClient Addr) := do
  let c ← runAt depth cs .init
  runAt depth (destroyAll c.next) c

/-- Nothing is left when every variable is destroyed. -/
theorem destroyAll_refines (hs : Stands h₀ c v h) (depth : Nat) :
    Refines (fun c' v' h' => c'.seen = v'.seen ∧ h' = h₀) h
      (runAt depth (destroyAll c.next) c) (run depth (destroyAll v.next) v) := by
  rw [← hs.next]
  refine (destroys_refines hs depth (List.range c.next)).mono fun c' v' h' hs' => ?_
  refine ⟨hs'.1.seen, hs'.1.held.eq fun i => ?_⟩
  rw [hs'.2 i]
  split
  · rfl
  · rename_i hi
    exact hs.unused i (not_lt.mp fun hlt => hi (List.mem_range.mpr hlt))

end BigintClient

end Refines

/-- **Programs over blocks are programs over values.**  Beside any other blocks,
with any answers of the allocator, a client of `bigint.h` sees what it sees of
values whose requests are served just where its own are; every block that was
not there before is the value of one variable; and where all variables are
destroyed, the memory is as it was. -/
theorem bigintClient_refines (depth : Nat) (cs : List BigintCommand) (h₀ : Heap Bigint)
    (hone : h₀ bigintOneAddr = some bigintOne) :
    Refines (BigintClient.Stands h₀) h₀ (BigintClient.runAt depth cs .init)
        (BigintClient.run depth cs .init) ∧
      Refines (fun c v h => c.seen = v.seen ∧ h = h₀) h₀ (BigintClient.lifeAt depth cs)
        (BigintClient.life depth cs) := by
  have hrun := BigintClient.run_refines hone depth cs (BigintClient.stands_init h₀)
  exact ⟨hrun, hrun.bind fun _ _ _ hs => BigintClient.destroyAll_refines hs depth⟩

/-- The difference of two numbers, and its sign. -/
def differenceOfTwo : List BigintCommand :=
  [.build (.fromLong 5), .build (.fromLong 7), .build (.subtract 0 1), .read (.compare 2 1)]

/-- There is the constant alone, and memory for five bigints. -/
def roomForFive : Blocks Bigint where
  heap := Function.update Heap.empty bigintOneAddr (some bigintOne)
  answers := [some 1, some 2, some 3, some 4, some 3]

theorem bigintClient_refines_difference : ∃ c mem,
    (BigintClient.lifeAt 1 differenceOfTwo).exec roomForFive = (.ok c, mem) ∧
      c.seen = [.number (-1)] ∧ mem.served = [true, true, true, true, true] ∧
      mem.heap = roomForFive.heap := by
  have hrun :=
    (bigintClient_refines 1 differenceOfTwo roomForFive.heap rfl).2 roomForFive rfl rfl
  have hseen : (((BigintClient.lifeAt 1 differenceOfTwo).exec roomForFive).1.map
      BigintClient.seen, ((BigintClient.lifeAt 1 differenceOfTwo).exec roomForFive).2.astray,
      ((BigintClient.lifeAt 1 differenceOfTwo).exec roomForFive).2.served)
        = (.ok [.number (-1)], false, [true, true, true, true, true]) := by decide +kernel
  generalize (BigintClient.lifeAt 1 differenceOfTwo).exec roomForFive = out at hrun hseen ⊢
  cases hrun with
  | astray => cases congrArg Prod.fst hseen
  | fault => cases congrArg Prod.fst hseen
  | @value c v l mem _ _ _ hagrees =>
      have hok : (Except.ok c.seen : Outcome (List BigintReading)) = .ok [.number (-1)] :=
        congrArg Prod.fst hseen
      exact ⟨c, mem, rfl, Except.ok.inj hok, congrArg (fun x => x.2.2) hseen, hagrees.2⟩

end Jccl
