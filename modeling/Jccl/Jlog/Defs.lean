/-
# `Jccl.Jlog.Defs` — the logger of `jlog.h` and `jlog.c`, as the code computes it

A `FILE *` is a number, and of a file the text counts that it holds.  What
`vjlogprintf` prints to an output stays with the stream until `fflush`, and
nobody else prints to it meanwhile: the mutex of the writer is held.

A call brings with it what the functions that it calls find: the clocks, the
thread, the text that `vfprintf` makes of the message, and whatever was in an
array before it is written.  A reading of a clock belongs to one conversion,
that is to the index of an output and a position in its format.
-/
import Jccl.Lib.CString
import Jccl.Lib.Loop

namespace Jccl

abbrev Text := List UInt8

/-- The bytes of a string literal. -/
def ascii (s : String) : Text := s.toList.map Char.toUInt8

/-- `%lu`. -/
def printLu (n : UInt64) : Text := (Nat.toDigits 10 n.toNat).map Char.toUInt8

/-- `%x` and `%lx`. -/
def printX (n : Nat) : Text := (Nat.toDigits 16 n).map Char.toUInt8

def JLOG_DEFAULT_TIMESTAMP_FORMAT : Text := ascii "%Y-%m-%d %H:%M:%S %z"

/-! ## Writers and loggers -/

inductive JlogTimezone where
  | JLOG_TIMEZONE_UTC
  | JLOG_TIMEZONE_LOCAL
deriving DecidableEq

structure JlogWriterOutput where
  fp : Option Nat
  mask : UInt64
  format : CString
  timezone : JlogTimezone
deriving DecidableEq

structure JlogWriter where
  outputs : List JlogWriterOutput
deriving DecidableEq

structure Jlogger where
  category : Option CString
  mask : UInt64
  writer : Option JlogWriter
deriving DecidableEq

/-- The functions of `<time.h>`; `timeText` is the string that `strftime` makes
of a format. -/
structure TimeFunctions (Tm : Type) where
  gmtime : Int → Tm
  localtime : Int → Tm
  timeText : Text → Tm → CString

/-- The arguments of `jlog`, of which `tag` may be of any integer type, and
what the call finds. -/
structure JlogCall where
  logger : Jlogger
  tag : Int
  function : CString
  filename : CString
  linenumber : UInt64
  message : Text
  time : Nat → Nat → Int
  clock : Nat → Nat → Int
  self : UInt64
  timeformat : Nat → Nat → Vector UInt8 64
  timestamp : Nat → Nat → Vector UInt8 64

variable {Tm : Type} (lib : TimeFunctions Tm)

/-! ## The conversions -/

/-- `strftime(array, sizeof(array), format, tm)`, and what the array holds then.
A string that does not fit leaves the array indeterminate, as it was. -/
def strftime (array format : Text) (tm : Tm) : Text :=
  let text := (lib.timeText format tm).bytes
  if text.length < array.length then text ++ 0 :: array.drop (text.length + 1) else array

/-- What is printed, whatever `strftime` returned. -/
def writeTimestamp (output : JlogWriterOutput) (now : Int) (timestamp format : Text) :
    Outcome Text := do
  let tm :=
    match output.timezone with
    | .JLOG_TIMEZONE_UTC => lib.gmtime now
    | .JLOG_TIMEZONE_LOCAL => lib.localtime now
  let timestamp := strftime lib timestamp format tm
  let len ← strlen timestamp
  return timestamp.take len

/-- `strncpy(dst, src, n)`, of a string that has `n` bytes or more. -/
def strncpy (dst src : Text) (n : Nat) : Outcome Text :=
  if n ≤ dst.length then .ok (src.take n ++ dst.drop n) else .error .bounds

/-- From the position of the format character: `eof`, and the buffer. -/
def extractConvertParameter (buf format : Text) (p : Nat) : Outcome (Nat × Text) := do
  let sof := p + 2
  match strchr (format.drop sof) '}'.toUInt8 with
  | none => .error .assertion
  | some nf =>
      let eof := sof + nf
      assert (nf < buf.length)
      let buf ← strncpy buf (format.drop sof) nf
      let buf ← writeAt buf nf 0
      return (eof, buf)

/-- The `switch`: where it leaves `p`, and what it prints. -/
def convertCharacter (call : JlogCall) (tag : UInt32) (i : Nat) (output : JlogWriterOutput)
    (p : Nat) (c : UInt8) : Outcome (Nat × Text) :=
  match Char.ofUInt8 c with
  | '%' => .ok (p, ascii "%")
  | 'c' =>
      match call.logger.category with
      | some category => .ok (p, category.bytes)
      | none => .ok (p, ascii "")
  | 'd' => do
      let next ← readAt (output.format.bytes ++ [0]) (p + 1)
      let timestamp := (call.timestamp i p).toList
      if next = '{'.toUInt8 then
        let (eof, buf) ←
          extractConvertParameter (call.timeformat i p).toList output.format.bytes p
        let len ← strlen buf
        let text ← writeTimestamp lib output (call.time i p) timestamp (buf.take len)
        return (eof, text)
      else
        let text ←
          writeTimestamp lib output (call.time i p) timestamp JLOG_DEFAULT_TIMESTAMP_FORMAT
        return (p, text)
  | 'F' => .ok (p, call.filename.bytes)
  | 'L' => .ok (p, printLu call.linenumber)
  | 'l' => .ok (p, call.function.bytes ++ ascii "(" ++ call.filename.bytes ++ ascii ":"
      ++ printLu call.linenumber ++ ascii ")")
  | 'm' => .ok (p, call.message)
  | 'M' => .ok (p, call.function.bytes)
  | 'n' => .ok (p, ascii "\n")
  | 'p' => .ok (p, ascii "0x" ++ printX tag.toNat)
  | 'r' => .ok (p, printLu (UInt64.ofInt ((call.clock i p).tdiv (1000000 / 1000))))
  | 't' => .ok (p, ascii "0x" ++ printX call.self.toNat)
  -- defined in log4j, but not implemented
  | 'C' => .ok (p, [])
  | 'x' => .ok (p, [])
  | 'X' => .ok (p, [])
  | _ => .error .assertion

/-! ## The scan of a format -/

structure FormatState where
  convert : Bool
  p : Nat
  out : Text
deriving DecidableEq

/-- One iteration, which ends the scan at the terminator of the format. -/
def formatStep (call : JlogCall) (tag : UInt32) (i : Nat) (output : JlogWriterOutput)
    (st : FormatState) : Outcome (Text ⊕ FormatState) := do
  let c ← readAt (output.format.bytes ++ [0]) st.p
  if c = 0 then
    return .inl st.out
  else if st.convert then
    let (p, text) ← convertCharacter lib call tag i output st.p c
    return .inr { convert := false, p := p + 1, out := st.out ++ text }
  else if c = '%'.toUInt8 then
    return .inr { convert := true, p := st.p + 1, out := st.out }
  else
    return .inr { convert := false, p := st.p + 1, out := st.out ++ [c] }

def formatLoop (call : JlogCall) (tag : UInt32) (i : Nat) (output : JlogWriterOutput) :
    Outcome Text :=
  loopUntil (formatStep lib call tag i output) (output.format.bytes.length + 1)
    { convert := false, p := 0, out := [] }

/-! ## The outputs of a call, and the calls -/

abbrev Files := Nat → Text

/-- One iteration of the loop over the outputs. -/
def outputStep (call : JlogCall) (tag : UInt32) (writer : JlogWriter) (i : Nat)
    (files : Files) : Outcome Files := do
  let output ← readAt writer.outputs i
  if output.mask &&& tag.toUInt64 = 0 ∨ output.fp = none then
    return files
  else
    let fp ← deref output.fp
    let out ← formatLoop lib call tag i output
    return Function.update files fp (files fp ++ (out ++ ascii "\n"))

def vjlogprintf (call : JlogCall) (tag : UInt32) (files : Files) : Outcome Files :=
  match call.logger.writer with
  | none => .ok files
  | some writer => forLoop (outputStep lib call tag writer) writer.outputs.length files

/-- The tag is tested as an `unsigned long`, and passed on as an `enum jlog_tag`. -/
def jlog (call : JlogCall) (files : Files) : Outcome Files :=
  if call.logger.mask &&& UInt64.ofInt call.tag ≠ 0 then
    vjlogprintf lib call (UInt32.ofInt call.tag) files
  else
    .ok files

/-- The calls are made one after the other. -/
def jlogRun : List JlogCall → Files → Outcome Files
  | [], files => .ok files
  | call :: calls, files => do
      let files ← jlog lib call files
      jlogRun calls files

end Jccl
