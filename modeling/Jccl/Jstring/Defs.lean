/-
# `Jccl.Jstring.Defs` — the quoted strings of `jstring.c`, as the code computes them

A buffer is the list of the bytes of the object from the pointer on that the
caller passes, and a pointer into it is its distance from there; the object
may go on after the `count` bytes the caller names.  A byte outside of it
cannot be read, and no pointer past its end can be formed.
-/
import Jccl.Lib.Loop
import Jccl.Lib.Substring

namespace Jccl

/-- The loop of `strnchr`, with `n` characters left before `end_of_str`. -/
def strnchrLoop (mem : List UInt8) (c : UInt8) : Nat → Nat → Outcome (Option Nat)
  | 0, _ => .ok none
  | n + 1, s => do
      let byte ← readAt mem s
      if byte = c then
        return some s
      else
        strnchrLoop mem c n (s + 1)

/-- The character comes as an `int` and is converted back to `char`. -/
def strnchr (mem : List UInt8) (s count : Nat) (c : UInt8) : Outcome (Option Nat) :=
  if count = 0 then
    .ok none
  else if s + count ≤ mem.length then
    strnchrLoop mem c count s
  else
    .error .bounds

/-- The difference of two values of type `size_t`. -/
def sizeSub (x y : Nat) : Nat := (x + 2 ^ 64 - y) % 2 ^ 64

/-! ## A quote that is escaped by a second one -/

/-- `count == 1 || next_quote[1] != quote`. -/
def endsString (mem : List UInt8) (count nextQuote : Nat) (quote : UInt8) : Outcome Bool :=
  if count = 1 then
    .ok true
  else do
    let byte ← readAt mem (nextQuote + 1)
    return decide (byte ≠ quote)

/-- One iteration, from `s` and `count`. -/
def doubleQuotesStep (mem : List UInt8) (quote : UInt8) :
    Nat × Nat → Outcome (Option Nat ⊕ Nat × Nat)
  | (s, count) =>
      if count > 0 then do
        let some nextQuote ← strnchr mem s count quote | return .inl none
        if ← endsString mem count nextQuote quote then
          return .inl (some nextQuote)
        else
          let charAfterEscapedQuote := nextQuote + 1 + 1
          return .inr (charAfterEscapedQuote, sizeSub count (charAfterEscapedQuote - s))
      else
        return .inl none

def endOfQuotedStringEscapedByDoubleQuotes (fuel : Nat) (mem : List UInt8) (count : Nat)
    (quote : UInt8) : Outcome (Option Nat) :=
  loopUntil (doubleQuotesStep mem quote) fuel (0, count)

/-! ## A quote that is escaped by another character -/

/-- The loop that looks for `first_preceding_non_escape`, from the pointer
`n - 1` down, which is before the buffer if `n` is zero. -/
def firstPrecedingNonEscape (mem : List UInt8) (escape : UInt8) (s : Nat) : Nat → Outcome Int
  | 0 => .ok (-1)
  | p + 1 =>
      if s ≤ p then do
        let byte ← readAt mem p
        if byte = escape then
          firstPrecedingNonEscape mem escape s p
        else
          return p
      else
        .ok p

/-- One iteration, from `s` and `count`. -/
def escapeStep (mem : List UInt8) (quote escape : UInt8) :
    Nat × Nat → Outcome (Option Nat ⊕ Nat × Nat)
  | (s, count) =>
      if count > 0 then do
        let some nextQuote ← strnchr mem s count quote | return .inl none
        let nonEscape ← firstPrecedingNonEscape mem escape s nextQuote
        let nprecedingEscape := (nextQuote - (nonEscape + 1)).toNat
        if nprecedingEscape % 2 = 0 then
          return .inl (some nextQuote)
        else
          let succeedingChar := nextQuote + 1
          return .inr (succeedingChar, sizeSub count (succeedingChar - s))
      else
        return .inl none

def endOfQuotedString (fuel : Nat) (s : Option (List UInt8)) (count : Nat)
    (quote escape : UInt8) : Outcome (Option Nat) :=
  match s with
  | none => .ok none
  | some mem =>
      if quote = escape then
        endOfQuotedStringEscapedByDoubleQuotes fuel mem count quote
      else
        loopUntil (escapeStep mem quote escape) fuel (0, count)

/-! ## A string in a window -/

/-- One iteration, from `s1` and `len`. -/
def strnstrStep (s1 s2 : List UInt8) (s2Len : Nat) :
    Nat × Nat → Outcome (Option Nat ⊕ Nat × Nat)
  | (p, len) =>
      if len ≥ s2Len then do
        let diff ← strncmp s1 s2 s2Len p 0
        if diff = 0 then return .inl (some p) else return .inr (p + 1, sizeSub len 1)
      else
        return .inl none

def strnstr (s1 s2 : Option (List UInt8)) (len : Nat) : Outcome (Option Nat) :=
  match s1, s2 with
  | some s1, some s2 => do
      let s2Len ← strlen s2
      loopUntil (strnstrStep s1 s2 s2Len) (len + 1) (0, len)
  | _, _ => .ok none

/-! ## A copy through a modifier -/

/-- `int (*)(int)`. -/
abbrev CharacterModifier := Int → Int

/-- The `char` that is stored: the one that was read is promoted to `int`, and
what the modifier returns is converted back. -/
def modifyChar (modifier : CharacterModifier) (c : UInt8) : UInt8 :=
  UInt8.ofInt (modifier c.toInt8.toInt)

/-- The loop and the assignment behind it.  Source and destination are
pointers into one memory. -/
def strncpyLoop (modifier : CharacterModifier) :
    Nat → Nat → Nat → List UInt8 → Outcome (List UInt8)
  | 0, _, _, mem => .ok mem
  | count + 1, dest, src, mem => do
      let c ← readAt mem src
      if c ≠ 0 then
        let mem ← writeAt mem dest (modifyChar modifier c)
        strncpyLoop modifier count (dest + 1) (src + 1) mem
      else
        writeAt mem dest 0

/-- The memory, and the pointer that is returned. -/
def strncpyWithModifier (mem : List UInt8) (dest src : Option Nat) (count : Nat)
    (modifier : CharacterModifier) : Outcome (List UInt8 × Option Nat) :=
  match dest, src with
  | some d, some s => do
      let mem ← strncpyLoop modifier count d s mem
      return (mem, dest)
  | _, _ => .ok (mem, dest)

end Jccl
