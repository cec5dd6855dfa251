/-
# `Jccl.Jlog.Format` — a format is expanded piece by piece

A format is made of literal characters and of the conversions that `jlog.h`
documents (`FormatPiece`).  It is the text alone that is scanned, so a `%d`
that a literal brace follows cannot be told from a `%d{`, and is not allowed
(`FormatPiece.Allows`); nothing else about what follows a piece matters.

What one piece does to the scan is `formatLoop_piece`, from any position and
with any text already printed; all of a format is then `loopUntil_spelled`.

A timestamp of 64 bytes or more does not fit the array that it is made in, and
whatever is in that array is printed (`timestampText`).
-/
import Jccl.Jlog.Defs
import Jccl.Lib.Pattern

namespace Jccl

/-- The documented conversions. -/
inductive Conversion where
  | percent
  | category
  | timestamp
  | filename
  | linenumber
  | location
  | message
  | method
  | newline
  | priority
  | milliseconds
  | thread
deriving DecidableEq

namespace Conversion

def char : Conversion → Char
  | percent => '%'
  | category => 'c'
  | timestamp => 'd'
  | filename => 'F'
  | linenumber => 'L'
  | location => 'l'
  | message => 'm'
  | method => 'M'
  | newline => 'n'
  | priority => 'p'
  | milliseconds => 'r'
  | thread => 't'

end Conversion

section Timestamp

variable {Tm : Type} (lib : TimeFunctions Tm)

/-- The time that the output shows, in its timezone. -/
def JlogWriterOutput.shown (output : JlogWriterOutput) (now : Int) : Tm :=
  if output.timezone = .JLOG_TIMEZONE_LOCAL then lib.localtime now else lib.gmtime now

variable (call : JlogCall) (i : Nat) (output : JlogWriterOutput) (p : Nat) (format : Text)

/-- The timestamp of a conversion character at position `p`. -/
def timestampString : CString := lib.timeText format (output.shown lib (call.time i p))

/-- The timestamp and its terminator fit 64 bytes. -/
def TimestampFits : Prop := (timestampString lib call i output p format).bytes.length < 64

instance : Decidable (TimestampFits lib call i output p format) :=
  inferInstanceAs (Decidable (_ < _))

/-- What stands for the timestamp; if it does not fit, an array that was never
written is read as a string. -/
def timestampText : Outcome Text :=
  if TimestampFits lib call i output p format then
    .ok (timestampString lib call i output p format).bytes
  else
    (strlen (call.timestamp i p).toList).map fun n => (call.timestamp i p).toList.take n

end Timestamp

namespace Conversion

variable {Tm : Type} (lib : TimeFunctions Tm)

/-- What the conversion stands for, with its character at position `p`. -/
def expand (call : JlogCall) (tag : UInt32) (i : Nat) (output : JlogWriterOutput) (p : Nat) :
    Conversion → Outcome Text
  | percent => .ok (ascii "%")
  | category => .ok ((call.logger.category.map CString.bytes).getD [])
  | timestamp => timestampText lib call i output p JLOG_DEFAULT_TIMESTAMP_FORMAT
  | filename => .ok call.filename.bytes
  | linenumber => .ok (printLu call.linenumber)
  | location => .ok (call.function.bytes ++ ascii "(" ++ call.filename.bytes ++ ascii ":"
      ++ printLu call.linenumber ++ ascii ")")
  | message => .ok call.message
  | method => .ok call.function.bytes
  | newline => .ok (ascii "\n")
  | priority => .ok (ascii "0x" ++ printX tag.toNat)
  | milliseconds => .ok (printLu (UInt64.ofInt ((call.clock i p).tdiv 1000)))
  | thread => .ok (ascii "0x" ++ printX call.self.toNat)

end Conversion

inductive FormatPiece where
  | literal (c : UInt8)
  | conversion (k : Conversion)
  /-- `%d{...}` -/
  | timeformat (param : Text)
deriving DecidableEq

namespace FormatPiece

def spell : FormatPiece → Text
  | literal c => [c]
  | conversion k => ['%'.toUInt8, k.char.toUInt8]
  | timeformat param => ['%'.toUInt8, 'd'.toUInt8, '{'.toUInt8] ++ param ++ ['}'.toUInt8]

/-- The text `after` may follow the piece. -/
def Allows : FormatPiece → Text → Prop
  | literal c, _ => c ≠ '%'.toUInt8
  | conversion k, after => k = .timestamp → after.head? ≠ some '{'.toUInt8
  | timeformat param, _ => '}'.toUInt8 ∉ param ∧ param.length < 64

/-- The text that a piece at position `n` stands for. -/
def expand {Tm : Type} (lib : TimeFunctions Tm) (call : JlogCall) (tag : UInt32) (i : Nat)
    (output : JlogWriterOutput) (n : Nat) : FormatPiece → Outcome Text
  | literal c => .ok [c]
  | conversion k => k.expand lib call tag i output (n + 1)
  | timeformat param => timestampText lib call i output (n + 1) param

/-- A timestamp fits. -/
def Fits {Tm : Type} (lib : TimeFunctions Tm) (call : JlogCall) (i : Nat)
    (output : JlogWriterOutput) (n : Nat) : FormatPiece → Prop
  | conversion .timestamp => TimestampFits lib call i output (n + 1) JLOG_DEFAULT_TIMESTAMP_FORMAT
  | timeformat param => TimestampFits lib call i output (n + 1) param
  | _ => True

end FormatPiece

/-- The format is made of documented pieces. -/
def Documented (format : Text) : Prop :=
  ∃ pieces, format = spelled FormatPiece.spell pieces ∧
    Allowed FormatPiece.spell FormatPiece.Allows pieces

/-- The timestamps of the output's format fit, where its pieces have them. -/
def TimestampsFit {Tm : Type} (lib : TimeFunctions Tm) (call : JlogCall) (i : Nat)
    (output : JlogWriterOutput) : Prop :=
  ∀ pieces, output.format.bytes = spelled FormatPiece.spell pieces →
    Allowed FormatPiece.spell FormatPiece.Allows pieces →
    AllAt FormatPiece.spell (FormatPiece.Fits lib call i output) 0 pieces

section Scan

variable {Tm : Type} {lib : TimeFunctions Tm} {call : JlogCall} {tag : UInt32} {i : Nat}
  {output : JlogWriterOutput}

/-! ## The parameter of a conversion -/

/-- The buffer holds the parameter, and `eof` is where it was closed. -/
theorem extractConvertParameter_ok {buf before param after : Text} (hclose : '}'.toUInt8 ∉ param)
    (hlen : param.length < buf.length) :
    ∃ rest, extractConvertParameter buf
        (before ++ 'd'.toUInt8 :: '{'.toUInt8 :: (param ++ '}'.toUInt8 :: after)) before.length
      = .ok (before.length + 2 + param.length, param ++ 0 :: rest) := by
  have hdrop : (before ++ 'd'.toUInt8 :: '{'.toUInt8 :: (param ++ '}'.toUInt8 :: after)).drop
      (before.length + 2) = param ++ '}'.toUInt8 :: after :=
    List.drop_length_add_append 2
  have hchr : strchr (param ++ '}'.toUInt8 :: after) '}'.toUInt8 = some param.length := by
    rw [strchr_of_mem (by simp), List.idxOf_append_of_notMem hclose, List.idxOf_cons_self]
    rfl
  obtain ⟨x, rest, hrest⟩ : ∃ x rest, buf.drop param.length = x :: rest :=
    List.exists_cons_of_ne_nil (fun h => by
      rw [List.drop_eq_nil_iff] at h
      omega)
  refine ⟨rest, ?_⟩
  have hcopy : strncpy buf (param ++ '}'.toUInt8 :: after) param.length
      = .ok (param ++ x :: rest) := by
    rw [strncpy, if_pos hlen.le, List.take_left, hrest]
  simp only [extractConvertParameter, hdrop, hchr, assert_of hlen, hcopy, writeAt_append rfl,
    Outcome.ok_bind, Outcome.pure_eq]

/-! ## One character -/

theorem readAt_format {before after : Text} {c : UInt8}
    (h : output.format.bytes = before ++ c :: after) :
    readAt (output.format.bytes ++ [0]) before.length = .ok c ∧ c ≠ 0 := by
  constructor
  · rw [h, List.append_assoc]
    exact readAt_append rfl
  · rintro rfl
    exact output.format.nonul (h ▸ List.mem_append_right _ List.mem_cons_self)

/-- What comes after a character may be the terminator. -/
theorem readAt_format_next {before after : Text} {c : UInt8}
    (h : output.format.bytes = before ++ c :: after) :
    readAt (output.format.bytes ++ [0]) (before.length + 1) = .ok (after.head?.getD 0) := by
  have hsplit : output.format.bytes ++ [0] = (before ++ [c]) ++ (after ++ [0]) := by
    rw [h]
    simp
  have hlen : before.length + 1 = (before ++ [c]).length := by simp
  cases after with
  | nil => exact hsplit ▸ readAt_append hlen
  | cons x after => exact hsplit ▸ readAt_append hlen

/-- The array holds the timestamp, or what it held before. -/
theorem writeTimestamp_eq (p : Nat) (format : Text) :
    writeTimestamp lib output (call.time i p) (call.timestamp i p).toList format
      = timestampText lib call i output p format := by
  have hwrite : ∀ array, writeTimestamp lib output (call.time i p) array format
      = (strlen (strftime lib array format (output.shown lib (call.time i p)))).map fun n =>
          (strftime lib array format (output.shown lib (call.time i p))).take n := by
    intro array
    rw [writeTimestamp, JlogWriterOutput.shown]
    cases output.timezone with
    | JLOG_TIMEZONE_UTC => rfl
    | JLOG_TIMEZONE_LOCAL => rfl
  have hlen : (call.timestamp i p).toList.length = 64 := Vector.length_toList
  rw [hwrite, timestampText]
  by_cases hfits : TimestampFits lib call i output p format
  · obtain ⟨rest, harray⟩ : ∃ rest, strftime lib (call.timestamp i p).toList format
        (output.shown lib (call.time i p))
        = (timestampString lib call i output p format).bytes ++ 0 :: rest :=
      ⟨_, if_pos (hlen.symm ▸ hfits)⟩
    rw [if_pos hfits, harray, strlen_append (CString.nonul _)]
    exact congrArg Except.ok List.take_left
  · have harray : strftime lib (call.timestamp i p).toList format
        (output.shown lib (call.time i p)) = (call.timestamp i p).toList :=
      if_neg (hlen.symm ▸ hfits)
    rw [if_neg hfits, harray]

theorem convertCharacter_conversion {before after : Text} (k : Conversion)
    (h : output.format.bytes = before ++ k.char.toUInt8 :: after)
    (hnext : k = .timestamp → after.head? ≠ some '{'.toUInt8) :
    convertCharacter lib call tag i output before.length k.char.toUInt8
      = (k.expand lib call tag i output before.length).map fun text => (before.length, text) := by
  cases k with
  | timestamp =>
      have hbrace : after.head?.getD 0 ≠ '{'.toUInt8 := by
        cases hhead : after.head? with
        | none => decide
        | some x => exact fun hx => hnext rfl (hhead.trans (congrArg some hx))
      show (readAt (output.format.bytes ++ [0]) (before.length + 1) >>= _) = _
      rw [readAt_format_next h, Outcome.ok_bind, if_neg hbrace, writeTimestamp_eq]
      rfl
  | category =>
      rcases call with ⟨⟨_ | category, mask, writer⟩, _⟩
      · rfl
      · rfl
  | _ => rfl

/-- The parameter is read up to its end, and printed as a time. -/
theorem convertCharacter_timeformat {before param after : Text}
    (h : output.format.bytes
      = before ++ 'd'.toUInt8 :: '{'.toUInt8 :: (param ++ '}'.toUInt8 :: after))
    (hclose : '}'.toUInt8 ∉ param) (hlen : param.length < 64) :
    convertCharacter lib call tag i output before.length 'd'.toUInt8
      = (timestampText lib call i output before.length param).map fun text =>
          (before.length + 2 + param.length, text) := by
  have hbuf : param.length < (call.timeformat i before.length).toList.length := by
    rw [Vector.length_toList]
    exact hlen
  obtain ⟨rest, hextract⟩ : ∃ rest, extractConvertParameter
      (call.timeformat i before.length).toList
      (before ++ 'd'.toUInt8 :: '{'.toUInt8 :: (param ++ '}'.toUInt8 :: after)) before.length
      = .ok (before.length + 2 + param.length, param ++ 0 :: rest) :=
    extractConvertParameter_ok hclose hbuf
  have hnonul : 0 ∉ param := fun h0 => output.format.nonul (h ▸ by simp [h0])
  have hnext : readAt (output.format.bytes ++ [0]) (before.length + 1) = .ok '{'.toUInt8 :=
    readAt_format_next h
  show (readAt (output.format.bytes ++ [0]) (before.length + 1) >>= _) = _
  rw [hnext, Outcome.ok_bind, if_pos rfl, h, hextract, Outcome.ok_bind]
  simp only [strlen_append hnonul, Outcome.ok_bind, List.take_left, writeTimestamp_eq]
  rfl

/-! ## One piece -/

/-- The scan before a piece. -/
def scanning (p : Nat) (out : Text) : FormatState := { convert := false, p := p, out := out }

theorem formatStep_end (out : Text) :
    formatStep lib call tag i output (scanning output.format.bytes.length out)
      = .ok (.inl out) := by
  rw [formatStep, scanning, readAt_append rfl]
  rfl

theorem formatStep_literal {before after out : Text} {c : UInt8}
    (h : output.format.bytes = before ++ c :: after) (hc : c ≠ '%'.toUInt8) :
    formatStep lib call tag i output (scanning before.length out)
      = .ok (.inr (scanning (before.length + 1) (out ++ [c]))) := by
  obtain ⟨hread, h0⟩ := readAt_format h
  simp only [formatStep, scanning, hread, Outcome.ok_bind, if_neg h0, if_neg hc,
    Bool.false_eq_true, if_false, Outcome.pure_eq]

/-- The two iterations that a conversion takes. -/
theorem loopUntil_convert {before after out : Text} {c : UInt8} {p : Nat} {text : Outcome Text}
    (h : output.format.bytes = (before ++ ['%'.toUInt8]) ++ c :: after)
    (hc : convertCharacter lib call tag i output (before ++ ['%'.toUInt8]).length c
      = text.map fun t => (p, t)) (fuel : Nat) :
    loopUntil (formatStep lib call tag i output) (fuel + 2) (scanning before.length out)
      = (text >>= fun t =>
          loopUntil (formatStep lib call tag i output) fuel (scanning (p + 1) (out ++ t))) := by
  have hlen : (before ++ ['%'.toUInt8]).length = before.length + 1 := List.length_append
  have hmark : formatStep lib call tag i output (scanning before.length out)
      = .ok (.inr { convert := true, p := before.length + 1, out := out }) := by
    rw [List.append_assoc] at h
    obtain ⟨hread, h0⟩ := readAt_format h
    simp only [formatStep, scanning, hread, Outcome.ok_bind, if_neg h0, Bool.false_eq_true,
      if_false, if_true, Outcome.pure_eq]
  have hconvert : formatStep lib call tag i output
        { convert := true, p := before.length + 1, out := out }
      = text.map fun t => .inr (scanning (p + 1) (out ++ t)) := by
    obtain ⟨hread, h0⟩ := readAt_format h
    rw [hlen] at hread hc
    simp only [formatStep, scanning, hread, Outcome.ok_bind, if_neg h0, if_true, hc]
    cases text with
    | error e => rfl
    | ok t => rfl
  rw [loopUntil_of_continue hmark, loopUntil, hconvert]
  cases text with
  | error e => rfl
  | ok t => rfl

theorem loopUntil_conversion {before after out : Text} {k : Conversion}
    (h : output.format.bytes = before ++ (FormatPiece.conversion k).spell ++ after)
    (hok : (FormatPiece.conversion k).Allows after) (fuel : Nat) :
    loopUntil (formatStep lib call tag i output) (fuel + 2) (scanning before.length out)
      = (k.expand lib call tag i output (before.length + 1) >>= fun t =>
          loopUntil (formatStep lib call tag i output) fuel
            (scanning (before.length + 2) (out ++ t))) := by
  have hsplit : output.format.bytes
      = (before ++ ['%'.toUInt8]) ++ k.char.toUInt8 :: after := by
    rw [h, FormatPiece.spell, List.append_assoc, List.append_assoc]
    rfl
  have hc : convertCharacter lib call tag i output (before ++ ['%'.toUInt8]).length
      k.char.toUInt8 = (k.expand lib call tag i output _).map fun t => (_, t) :=
    convertCharacter_conversion k hsplit hok
  rw [loopUntil_convert hsplit hc, List.length_append]
  rfl

theorem loopUntil_timeformat {before param after out : Text}
    (h : output.format.bytes = before ++ (FormatPiece.timeformat param).spell ++ after)
    (hok : (FormatPiece.timeformat param).Allows after) (fuel : Nat) :
    loopUntil (formatStep lib call tag i output) (fuel + 2) (scanning before.length out)
      = (timestampText lib call i output (before.length + 1) param >>= fun t =>
          loopUntil (formatStep lib call tag i output) fuel
            (scanning (before.length + (FormatPiece.timeformat param).spell.length)
              (out ++ t))) := by
  obtain ⟨hclose, hlen⟩ := hok
  have hsplit : output.format.bytes = (before ++ ['%'.toUInt8])
      ++ 'd'.toUInt8 :: '{'.toUInt8 :: (param ++ '}'.toUInt8 :: after) := by
    rw [h, FormatPiece.spell]
    simp
  have hc : convertCharacter lib call tag i output (before ++ ['%'.toUInt8]).length 'd'.toUInt8
      = (timestampText lib call i output _ param).map fun t => (_, t) :=
    convertCharacter_timeformat hsplit hclose hlen
  have hspell : (FormatPiece.timeformat param).spell.length = 1 + 2 + param.length + 1 := by
    simp only [FormatPiece.spell, List.length_append, List.length_cons, List.length_nil]
  rw [loopUntil_convert hsplit hc, hspell, List.length_append, List.length_singleton,
    ← Nat.add_assoc, ← Nat.add_assoc, ← Nat.add_assoc]

/-- **One piece**, wherever it stands. -/
theorem formatLoop_piece {before after out : Text} {piece : FormatPiece}
    (h : output.format.bytes = before ++ piece.spell ++ after) (hok : piece.Allows after) :
    ∃ n ≤ piece.spell.length, ∀ fuel,
      loopUntil (formatStep lib call tag i output) (fuel + n) (scanning before.length out)
        = (piece.expand lib call tag i output before.length >>= fun t =>
            loopUntil (formatStep lib call tag i output) fuel
              (scanning (before.length + piece.spell.length) (out ++ t))) := by
  cases piece with
  | literal c =>
      have hsplit : output.format.bytes = before ++ c :: after := by
        rw [h, FormatPiece.spell, List.append_assoc]
        rfl
      exact ⟨1, le_refl 1, loopUntil_of_continue (formatStep_literal hsplit hok)⟩
  | conversion k => exact ⟨2, le_refl 2, loopUntil_conversion h hok⟩
  | timeformat param =>
      have htwo : 2 ≤ (FormatPiece.timeformat param).spell.length := by simp [FormatPiece.spell]
      exact ⟨2, htwo, loopUntil_timeformat h hok⟩

/-- **The expansion of a format**: those of its pieces, one after the other. -/
theorem formatLoop_spelled {pieces : List FormatPiece}
    (h : output.format.bytes = spelled FormatPiece.spell pieces)
    (hok : Allowed FormatPiece.spell FormatPiece.Allows pieces) :
    formatLoop lib call tag i output
      = expanded FormatPiece.spell (FormatPiece.expand lib call tag i output) 0 pieces := by
  have hfuel : (spelled FormatPiece.spell pieces).length < output.format.bytes.length + 1 := by
    rw [h]
    exact Nat.lt_succ_self _
  have hloop : formatLoop lib call tag i output = (expanded FormatPiece.spell
      (FormatPiece.expand lib call tag i output) 0 pieces).map ([] ++ ·) :=
    loopUntil_spelled (fun _ _ _ _ => formatLoop_piece) formatStep_end [] h hok hfuel []
  rw [hloop]
  cases expanded FormatPiece.spell (FormatPiece.expand lib call tag i output) 0 pieces with
  | error e => rfl
  | ok text => rfl

theorem FormatPiece.Fits.expand {n : Nat} {piece : FormatPiece}
    (h : piece.Fits lib call i output n) :
    ∃ text, piece.expand lib call tag i output n = .ok text := by
  cases piece with
  | literal c => exact ⟨_, rfl⟩
  | timeformat param => exact ⟨_, if_pos h⟩
  | conversion k =>
      cases k with
      | timestamp => exact ⟨_, if_pos h⟩
      | _ => exact ⟨_, rfl⟩

theorem Documented.formatLoop (h : Documented output.format.bytes)
    (hfits : TimestampsFit lib call i output) (tag : UInt32) :
    ∃ text, formatLoop lib call tag i output = .ok text := by
  obtain ⟨pieces, hspell, hok⟩ := h
  rw [formatLoop_spelled hspell hok]
  exact expanded_ok ((hfits pieces hspell hok).imp fun _ _ => FormatPiece.Fits.expand)

/-- No timestamp is longer than what a format may ask for. -/
theorem timestampsFit_of_short
    (h : ∀ format tm, format.length < 64 → (lib.timeText format tm).bytes.length < 64) :
    TimestampsFit lib call i output := by
  intro pieces hspell hok
  clear hspell
  suffices hall : ∀ n, AllAt FormatPiece.spell (FormatPiece.Fits lib call i output) n pieces from
    hall 0
  induction pieces with
  | nil => exact fun _ => trivial
  | cons piece pieces ih =>
      intro n
      refine ⟨?_, ih hok.2 _⟩
      cases piece with
      | literal c => trivial
      | timeformat param => exact h param _ hok.1.2
      | conversion k =>
          cases k with
          | timestamp => exact h JLOG_DEFAULT_TIMESTAMP_FORMAT _ (by decide)
          | _ => trivial

end Scan

end Jccl
