/-
# `Jccl.Timer.Defs` — the macro of `timer.h`, as it expands

What the macro expands to is the head of a `for` statement; the statement
behind it is the body.  The variables that the head declares are out of the
reach of the body, which works on a world of its own: the readings that have
been taken from the clock so far, and whatever else there is.

A `time_t` is a `long`.  The action is given a `double`, which is taken for a
rational number, and computed exactly; what is not a number is `none`.
-/
import Jccl.Lib.For
import Jccl.Lib.Long

namespace Jccl

structure Timespec where
  tvSec : Int
  tvNsec : Int
deriving DecidableEq

/-- The number of readings taken, and what the action and the body work on. -/
structure World (α : Type) where
  ticks : Nat
  user : α

/-- The variables that are declared, and the iterations that were asked for. -/
structure TimedBlockVars where
  tbStart : Option Timespec
  tbStop : Option Timespec
  tbSum : Timespec
  tbI : Int
  tbNiteration : Int
deriving DecidableEq

section TimedBlock

variable {α : Type} (clock : Nat → Timespec)

/-- `clock_gettime(TIMED_BLOCK_CLOCK, …)`. -/
def clockGettime (w : World α) : Timespec × World α :=
  (clock w.ticks, { w with ticks := w.ticks + 1 })

/-- `(_tb_sum.tv_sec + _tb_sum.tv_nsec/1e9)/(_tb_niteration.tv_sec)`, which is
`0.0/0` without iterations. -/
def meanDuration (tbSum : Timespec) (tbNiteration : Int) : Option Rat :=
  if tbNiteration = 0 then none
  else some (((tbSum.tvSec : Rat) + tbSum.tvNsec / 10 ^ 9) / tbNiteration)

/-- INIT: before the first iteration. -/
def timedBlockInit (niteration : Int) : TimedBlockVars where
  tbStart := none
  tbStop := none
  tbSum := { tvSec := 0, tvNsec := 0 }
  tbI := 0
  tbNiteration := niteration

/-- CONDITION: before the first and after every iteration. -/
def timedBlockCondition (action : Option Rat → α → α) :
    TimedBlockVars × World α → Outcome (Bool × TimedBlockVars × World α)
  | (v, w) => do
      let (start, w) := clockGettime clock w
      let i ← longAdd v.tbI 1
      let goes := decide (v.tbI < v.tbNiteration)
      let v := { v with tbStart := some start, tbI := i }
      if goes then
        return (true, v, w)
      else
        return (false, v, { w with user := action (meanDuration v.tbSum v.tbNiteration) w.user })

/-- INCREMENT: after each iteration. -/
def timedBlockIncrement : TimedBlockVars × World α → Outcome (TimedBlockVars × World α)
  | (v, w) => do
      let (stop, w) := clockGettime clock w
      let some start := v.tbStart | throw .dangling
      let sec ← longSub stop.tvSec start.tvSec
      let sec ← longAdd v.tbSum.tvSec sec
      let nsec ← longSub stop.tvNsec start.tvNsec
      let nsec ← longAdd v.tbSum.tvNsec nsec
      return ({ v with tbStop := some stop, tbSum := { tvSec := sec, tvNsec := nsec } }, w)

/-- The body leaves the variables alone. -/
def timedBlockBody (body : World α → Outcome (Control × World α)) :
    TimedBlockVars × World α → Outcome (Control × TimedBlockVars × World α)
  | (v, w) => do
      let (control, w) ← body w
      return (control, v, w)

/-- `TIMED_BLOCK(niteration, …) body`, with the action for this description. -/
def timedBlock (action : Option Rat → α → α) (niteration : Int)
    (body : World α → Outcome (Control × World α)) (w : World α) : Outcome (World α) := do
  let (_, w) ← forStatement (timedBlockCondition clock action) (timedBlockIncrement clock)
    (timedBlockBody body) (niteration.toNat + 1) (timedBlockInit niteration, w)
  return w

end TimedBlock

end Jccl
