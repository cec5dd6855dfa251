/-
# `Jccl.Jlog.Run` — what the calls of `jlog` leave in the files

A call adds a line to an output if the tag meets the mask of the logger and
the mask of the output, and if the output is open (`JlogCall.Prints`).  The
outputs of a call come in their order, and the calls in theirs; so a file
holds what it held before, and then the lines of those outputs that print to
it (`writtenTo`).  Two outputs may share a file.

A run has a value as soon as the formats that it comes to have an expansion,
and a format made of documented pieces has one if its timestamps fit.
-/
import Jccl.Jlog.Format

namespace Jccl

namespace JlogCall

/-- The tag meets the mask of the logger. -/
def MeetsLogger (call : JlogCall) : Prop := call.logger.mask &&& UInt64.ofInt call.tag ≠ 0

/-- The tag that `vjlogprintf` gets. -/
def enumTag (call : JlogCall) : UInt32 := UInt32.ofInt call.tag

/-- The tag meets the mask of the output. -/
def MeetsOutput (call : JlogCall) (output : JlogWriterOutput) : Prop :=
  output.mask &&& call.enumTag.toUInt64 ≠ 0

def Prints (call : JlogCall) (output : JlogWriterOutput) : Prop :=
  call.MeetsLogger ∧ call.MeetsOutput output ∧ output.fp ≠ none

instance (call : JlogCall) : Decidable call.MeetsLogger :=
  inferInstanceAs (Decidable (_ ≠ _))

instance (call : JlogCall) (output : JlogWriterOutput) : Decidable (call.Prints output) :=
  inferInstanceAs (Decidable (_ ≠ _ ∧ _ ≠ _ ∧ _ ≠ _))

end JlogCall

/-- What a call adds to the file `f` by way of one output, whose format
expands to `text`. -/
def lineTo (call : JlogCall) (f : Nat) (output : JlogWriterOutput) (text : Text) : Text :=
  if output.fp = some f ∧ call.Prints output then text ++ ascii "\n" else []

/-- What a call adds to the file `f` by way of the outputs, each of which
comes with its index. -/
def linesTo (call : JlogCall) (f : Nat) (outputs : List (JlogWriterOutput × Nat))
    (text : Nat → Text) : Text :=
  outputs.flatMap fun p => lineTo call f p.1 (text p.2)

/-- What the calls add to the file `f`. -/
def writtenTo (writer : JlogWriter) (f : Nat) (calls : List JlogCall)
    (text : JlogCall → Nat → Text) : Text :=
  calls.flatMap fun call => linesTo call f writer.outputs.zipIdx (text call)

/-- The texts are the expansions of the formats that the call comes to. -/
def Expands {Tm : Type} (lib : TimeFunctions Tm) (writer : JlogWriter) (call : JlogCall)
    (text : Nat → Text) : Prop :=
  ∀ p ∈ writer.outputs.zipIdx, call.Prints p.1 →
    formatLoop lib call call.enumTag p.2 p.1 = .ok (text p.2)

/-- The timestamps fit that the call prints. -/
def JlogCall.Fits {Tm : Type} (lib : TimeFunctions Tm) (writer : JlogWriter) (call : JlogCall) :
    Prop :=
  ∀ p ∈ writer.outputs.zipIdx, call.Prints p.1 → TimestampsFit lib call p.2 p.1

section Call

variable {Tm : Type} {lib : TimeFunctions Tm} {writer : JlogWriter} {call : JlogCall}
  {files files' : Files}

/-! ## One output -/

theorem lineTo_of_not_prints {output : JlogWriterOutput} (h : ¬ call.Prints output) (f : Nat)
    (text : Text) : lineTo call f output text = [] := if_neg fun h' => h h'.2

theorem outputStep_line {i : Nat} {output : JlogWriterOutput} {text : Text}
    (hget : writer.outputs[i]? = some output) (hlogger : call.MeetsLogger)
    (htext : call.Prints output → formatLoop lib call call.enumTag i output = .ok text)
    (files : Files) :
    ∃ files', outputStep lib call call.enumTag writer i files = .ok files' ∧
      ∀ f, files' f = files f ++ lineTo call f output text := by
  have hread : readAt writer.outputs i = .ok output := by rw [readAt, hget]
  by_cases hskip : output.mask &&& call.enumTag.toUInt64 = 0 ∨ output.fp = none
  · have hnot : ¬ call.Prints output := by
      rintro ⟨-, hmask, hfp⟩
      exact hskip.elim hmask hfp
    refine ⟨files, by rw [outputStep, hread, Outcome.ok_bind, if_pos hskip]; rfl, fun f => ?_⟩
    rw [lineTo_of_not_prints hnot, List.append_nil]
  · obtain ⟨hmask, hopen⟩ := not_or.mp hskip
    obtain ⟨fp, hfp⟩ := Option.ne_none_iff_exists'.mp hopen
    have hprints : call.Prints output := ⟨hlogger, hmask, hopen⟩
    refine ⟨Function.update files fp (files fp ++ (text ++ ascii "\n")), ?_, fun f => ?_⟩
    · rw [outputStep, hread, Outcome.ok_bind, if_neg hskip, hfp, deref_some, Outcome.ok_bind,
        htext hprints]
      rfl
    · by_cases hf : f = fp
      · rw [hf, Function.update_self, lineTo, if_pos ⟨hfp, hprints⟩]
      · have hne : ¬ (output.fp = some f ∧ call.Prints output) := fun h =>
          hf (Option.some.inj (h.1.symm.trans hfp))
        rw [Function.update_of_ne hf, lineTo, if_neg hne, List.append_nil]

/-- What the iteration needed. -/
theorem outputStep_value {i : Nat} {output : JlogWriterOutput}
    (hget : writer.outputs[i]? = some output) (hprints : call.Prints output)
    (h : outputStep lib call call.enumTag writer i files = .ok files') :
    ∃ text, formatLoop lib call call.enumTag i output = .ok text := by
  have hread : readAt writer.outputs i = .ok output := by rw [readAt, hget]
  have hskip : ¬ (output.mask &&& call.enumTag.toUInt64 = 0 ∨ output.fp = none) :=
    not_or.mpr ⟨hprints.2.1, hprints.2.2⟩
  rw [outputStep, hread, Outcome.ok_bind, if_neg hskip] at h
  obtain ⟨fp, -, h⟩ := Outcome.bind_eq_ok.mp h
  obtain ⟨text, htext, -⟩ := Outcome.bind_eq_ok.mp h
  exact ⟨text, htext⟩

/-! ## One call -/

theorem jlog_of_meets (hwriter : call.logger.writer = some writer) (h : call.MeetsLogger)
    (files : Files) : jlog lib call files
      = forLoop (outputStep lib call call.enumTag writer) writer.outputs.length files := by
  have htest : jlog lib call files = vjlogprintf lib call call.enumTag files := if_pos h
  rw [htest, vjlogprintf, hwriter]

theorem jlog_of_not_meets (h : ¬ call.MeetsLogger) (files : Files) :
    jlog lib call files = .ok files := if_neg h

/-- **One call**: the outputs before the `i`-th one have their lines. -/
theorem jlog_lines (hwriter : call.logger.writer = some writer) {text : Nat → Text}
    (htext : Expands lib writer call text) (files : Files) :
    ∃ files', jlog lib call files = .ok files' ∧
      ∀ f, files' f = files f ++ linesTo call f writer.outputs.zipIdx text := by
  by_cases h : call.MeetsLogger
  · rw [jlog_of_meets hwriter h]
    obtain ⟨files', hrun, hlines⟩ := forLoop_ok (n := writer.outputs.length) (s := files)
      (I := fun i files' => ∀ f, files' f
        = files f ++ linesTo call f (writer.outputs.zipIdx.take i) text)
      (fun f => (List.append_nil _).symm) (fun i files₁ hi hInv => by
        have hi' : i < writer.outputs.zipIdx.length := by rwa [List.length_zipIdx]
        have hget : writer.outputs.zipIdx[i] = (writer.outputs[i], i) := by simp
        have hmem : (writer.outputs[i], i) ∈ writer.outputs.zipIdx :=
          hget ▸ List.getElem_mem hi'
        obtain ⟨files₂, hstep, hline⟩ := outputStep_line (List.getElem?_eq_getElem hi) h
          (htext _ hmem) files₁
        refine ⟨files₂, hstep, fun f => ?_⟩
        rw [hline, hInv, List.take_succ_eq_append_getElem hi', hget, linesTo, linesTo,
          List.flatMap_append, List.flatMap_singleton, List.append_assoc])
    refine ⟨files', hrun, fun f => ?_⟩
    rw [hlines f, List.take_of_length_le List.length_zipIdx.le]
  · refine ⟨files, jlog_of_not_meets h files, fun f => ?_⟩
    have hnil : linesTo call f writer.outputs.zipIdx text = [] := by
      rw [linesTo, List.flatMap_eq_nil_iff]
      exact fun p _ => lineTo_of_not_prints (fun hp => h hp.1) f _
    rw [hnil, List.append_nil]

/-- Of the outputs that the call does not come to the text is arbitrary. -/
theorem exists_expands (h : ∀ p ∈ writer.outputs.zipIdx, call.Prints p.1 →
      ∃ text, formatLoop lib call call.enumTag p.2 p.1 = .ok text) :
    ∃ text, Expands lib writer call text := by
  let text (k : Nat) : Text := (writer.outputs[k]?.bind fun output =>
    (formatLoop lib call call.enumTag k output).toOption).getD []
  refine ⟨text, fun p hp hprints => ?_⟩
  have hget : writer.outputs[p.2]? = some p.1 := List.mem_zipIdx_iff_getElem?.mp hp
  obtain ⟨out, hout⟩ := h p hp hprints
  have htext : text p.2 = out := by
    simp only [text, hget, Option.bind_some, hout]
    rfl
  rw [hout, htext]

theorem jlog_value (hwriter : call.logger.writer = some writer)
    (h : jlog lib call files = .ok files') : ∃ text, Expands lib writer call text := by
  refine exists_expands fun p hp hprints => ?_
  have hget : writer.outputs[p.2]? = some p.1 := List.mem_zipIdx_iff_getElem?.mp hp
  have hi : p.2 < writer.outputs.length := (List.getElem?_eq_some_iff.mp hget).1
  rw [jlog_of_meets hwriter hprints.1] at h
  obtain ⟨t, t', -, hstep⟩ := forLoop_step h hi
  exact outputStep_value hget hprints hstep

/-! ## A run of calls -/

variable {calls : List JlogCall}

theorem jlogRun_lines_of_expands {text : JlogCall → Nat → Text}
    (hwriter : ∀ call ∈ calls, call.logger.writer = some writer)
    (htext : ∀ call ∈ calls, Expands lib writer call (text call)) (files : Files) :
    ∃ files', jlogRun lib calls files = .ok files' ∧
      ∀ f, files' f = files f ++ writtenTo writer f calls text := by
  induction calls generalizing files with
  | nil => exact ⟨files, rfl, fun f => (List.append_nil _).symm⟩
  | cons call calls ih =>
      obtain ⟨hw, hws⟩ := List.forall_mem_cons.mp hwriter
      obtain ⟨ht, hts⟩ := List.forall_mem_cons.mp htext
      obtain ⟨files₁, hcall, hline⟩ := jlog_lines hw ht files
      obtain ⟨files₂, hrun, hlines⟩ := ih hws hts files₁
      refine ⟨files₂, by rw [jlogRun, hcall, Outcome.ok_bind, hrun], fun f => ?_⟩
      rw [hlines, hline, writtenTo, writtenTo, List.flatMap_cons, List.append_assoc]

theorem jlogRun_value (hwriter : ∀ call ∈ calls, call.logger.writer = some writer)
    (h : jlogRun lib calls files = .ok files') :
    ∀ call ∈ calls, ∃ text, Expands lib writer call text := by
  induction calls generalizing files with
  | nil => exact fun call hmem => absurd hmem List.not_mem_nil
  | cons call calls ih =>
      obtain ⟨hw, hws⟩ := List.forall_mem_cons.mp hwriter
      rw [jlogRun] at h
      obtain ⟨files₁, hcall, hrun⟩ := Outcome.bind_eq_ok.mp h
      exact List.forall_mem_cons.mpr ⟨jlog_value hw hcall, ih hws hrun⟩

theorem exists_text (h : ∀ call ∈ calls, ∃ text, Expands lib writer call text) :
    ∃ text : JlogCall → Nat → Text, ∀ call ∈ calls, Expands lib writer call (text call) := by
  have hex : ∀ call, ∃ text, call ∈ calls → Expands lib writer call text := fun call => by
    by_cases hmem : call ∈ calls
    · obtain ⟨text, htext⟩ := h call hmem
      exact ⟨text, fun _ => htext⟩
    · exact ⟨fun _ => [], fun h => absurd h hmem⟩
  choose text htext using hex
  exact ⟨text, htext⟩

/-- The runs that have a value, and what they leave in the files. -/
theorem jlogRun_eq_ok (hwriter : ∀ call ∈ calls, call.logger.writer = some writer) :
    jlogRun lib calls files = .ok files' ↔ ∃ text : JlogCall → Nat → Text,
      (∀ call ∈ calls, Expands lib writer call (text call)) ∧
      ∀ f, files' f = files f ++ writtenTo writer f calls text := by
  constructor
  · intro h
    obtain ⟨text, htext⟩ := exists_text (jlogRun_value hwriter h)
    obtain ⟨files₁, hrun, hlines⟩ := jlogRun_lines_of_expands hwriter htext files
    cases hrun.symm.trans h
    exact ⟨text, htext, hlines⟩
  · rintro ⟨text, htext, hlines⟩
    obtain ⟨files₁, hrun, hlines₁⟩ := jlogRun_lines_of_expands hwriter htext files
    rw [hrun, funext fun f => (hlines₁ f).trans (hlines f).symm]

theorem jlogRun_documented (hwriter : ∀ call ∈ calls, call.logger.writer = some writer)
    (hformat : ∀ output ∈ writer.outputs, output.fp ≠ none → Documented output.format.bytes)
    (hfits : ∀ call ∈ calls, call.Fits lib writer) (files : Files) :
    ∃ files', jlogRun lib calls files = .ok files' := by
  have hexpands : ∀ call ∈ calls, ∃ text, Expands lib writer call text := fun call hmem =>
    exists_expands fun p hp hprints =>
      (hformat p.1 (List.fst_mem_of_mem_zipIdx hp) hprints.2.2).formatLoop
        (hfits call hmem p hp hprints) call.enumTag
  obtain ⟨text, htext⟩ := exists_text hexpands
  obtain ⟨files', hrun, -⟩ := jlogRun_lines_of_expands hwriter htext files
  exact ⟨files', hrun⟩

/-! ## The file of one output -/

theorem flatMap_eq_of_only {α β : Type} {xs : List α} {g : α → List β} {k : Nat} {a : α}
    (hget : xs[k]? = some a) (hnil : ∀ j b, xs[j]? = some b → j ≠ k → g b = []) :
    xs.flatMap g = g a := by
  induction xs generalizing k with
  | nil => cases hget
  | cons x xs ih =>
      rw [List.flatMap_cons]
      cases k with
      | zero =>
          cases hget
          have hrest : xs.flatMap g = [] := by
            rw [List.flatMap_eq_nil_iff]
            intro b hb
            obtain ⟨j, hj⟩ := List.mem_iff_getElem?.mp hb
            exact hnil (j + 1) b hj (Nat.succ_ne_zero j)
          rw [hrest, List.append_nil]
      | succ k =>
          rw [hnil 0 x rfl (Nat.succ_ne_zero k).symm, List.nil_append]
          exact ih hget fun j b hj hne => hnil (j + 1) b hj fun h => hne (Nat.succ.inj h)

theorem writtenTo_of_unshared {k f : Nat} {output : JlogWriterOutput}
    (hget : writer.outputs[k]? = some output) (hfp : output.fp = some f)
    (hunshared : ∀ j output', writer.outputs[j]? = some output' → output'.fp = some f → j = k)
    (text : JlogCall → Nat → Text) :
    writtenTo writer f calls text = calls.flatMap fun call =>
      if call.Prints output then text call k ++ ascii "\n" else [] := by
  rw [writtenTo]
  refine congrArg (calls.flatMap ·) (funext fun call => ?_)
  have hget' : writer.outputs.zipIdx[k]? = some (output, k) := by
    rw [List.getElem?_zipIdx, hget, Option.map_some, Nat.zero_add]
  rw [linesTo, flatMap_eq_of_only hget' ?_]
  · simp only [lineTo, hfp, true_and]
  · intro j p hj hne
    rw [List.getElem?_zipIdx, Option.map_eq_some_iff] at hj
    obtain ⟨output', hj, rfl⟩ := hj
    exact if_neg fun h => hne (hunshared j output' hj h.1)

end Call

/-- **The text of every output.**  A run has a value if and only if the
formats that it comes to have an expansion; each file then holds the lines of
the outputs that print to it, in the order of the calls, and those of one
output alone if no other shares the file.  The expansion of a format made of
documented pieces is that of the pieces in order, and is there as soon as the
timestamps fit. -/
theorem jlogRun_lines {Tm : Type} (lib : TimeFunctions Tm) (writer : JlogWriter)
    (calls : List JlogCall) (hwriter : ∀ call ∈ calls, call.logger.writer = some writer)
    (files : Files) :
    (∀ files', jlogRun lib calls files = .ok files' ↔ ∃ text : JlogCall → Nat → Text,
      (∀ call ∈ calls, Expands lib writer call (text call)) ∧
      ∀ f, files' f = files f ++ writtenTo writer f calls text) ∧
    (∀ k output f, writer.outputs[k]? = some output → output.fp = some f →
      (∀ j output', writer.outputs[j]? = some output' → output'.fp = some f → j = k) →
      ∀ text : JlogCall → Nat → Text, writtenTo writer f calls text = calls.flatMap fun call =>
        if call.Prints output then text call k ++ ascii "\n" else []) ∧
    (∀ call tag k output pieces, output.format.bytes = spelled FormatPiece.spell pieces →
      Allowed FormatPiece.spell FormatPiece.Allows pieces →
      formatLoop lib call tag k output
        = expanded FormatPiece.spell (FormatPiece.expand lib call tag k output) 0 pieces) ∧
    ((∀ output ∈ writer.outputs, output.fp ≠ none → Documented output.format.bytes) →
      (∀ call ∈ calls, call.Fits lib writer) → ∃ files', jlogRun lib calls files = .ok files') :=
  ⟨fun _ => jlogRun_eq_ok hwriter,
    fun _ _ _ hget hfp hunshared text => writtenTo_of_unshared hget hfp hunshared text,
    fun _ _ _ _ _ => formatLoop_spelled,
    fun hformat hfits => jlogRun_documented hwriter hformat hfits files⟩

/-! Two loggers share a writer, and one of them has the mask for errors. -/

/-- A format without conversions is its own expansion. -/
def literalTime : TimeFunctions Int :=
  { gmtime := id
    localtime := id
    timeText := fun format _ => ⟨format.filter (· ≠ 0), by simp⟩ }

def categoryOutput : JlogWriterOutput :=
  { fp := some 0
    mask := 255
    format := ⟨ascii "%d{at} %c", by decide⟩
    timezone := .JLOG_TIMEZONE_UTC }

def categoryWriter : JlogWriter := { outputs := [categoryOutput] }

def everythingCall (tag : Int) : JlogCall :=
  { logger :=
      { category := some ⟨ascii "everything", by decide⟩, mask := 255,
        writer := some categoryWriter }
    tag := tag
    function := ⟨ascii "main", by decide⟩
    filename := ⟨ascii "jlog.c", by decide⟩
    linenumber := 1
    message := ascii "An error"
    time := fun _ _ => 0
    clock := fun _ _ => 0
    self := 0
    timeformat := fun _ _ => Vector.replicate 64 0
    timestamp := fun _ _ => Vector.replicate 64 0 }

def errorsCall (tag : Int) : JlogCall :=
  { everythingCall tag with
    logger :=
      { category := some ⟨ascii "errors", by decide⟩, mask := 15,
        writer := some categoryWriter } }

theorem categoryOutput_spelled : categoryOutput.format.bytes = spelled FormatPiece.spell
    [.timeformat (ascii "at"), .literal ' '.toUInt8, .conversion .category] := by
  decide

theorem categoryOutput_allowed : Allowed FormatPiece.spell FormatPiece.Allows
    [.timeformat (ascii "at"), .literal ' '.toUInt8, .conversion .category] :=
  have hspace : ' '.toUInt8 ≠ '%'.toUInt8 := by decide
  ⟨⟨by decide, by decide⟩, hspace, fun h => (by cases h), trivial⟩

theorem jlogRun_lines_category :
    jlogRun literalTime [everythingCall 8, everythingCall 64, errorsCall 8, errorsCall 64]
        (fun _ => [])
      = .ok fun f => if f = 0 then ascii "at everything\nat everything\nat errors\n" else [] := by
  have hlines := jlogRun_lines literalTime categoryWriter
    [everythingCall 8, everythingCall 64, errorsCall 8, errorsCall 64]
    (by simp [everythingCall, errorsCall]) (fun _ => [])
  refine (hlines.1 _).mpr ⟨fun call _ =>
    ascii "at " ++ (call.logger.category.map CString.bytes).getD [], ?_, ?_⟩
  · intro call _ p hp _
    obtain rfl : p = (categoryOutput, 0) := List.mem_singleton.mp hp
    have hexpand := hlines.2.2.1 call call.enumTag 0 categoryOutput _ categoryOutput_spelled
      categoryOutput_allowed
    refine hexpand.trans (congrArg Except.ok ?_)
    have hat : (timestampString literalTime call 0 categoryOutput 1 (ascii "at")).bytes
        ++ [' '.toUInt8] = ascii "at " := rfl
    rw [← hat]
    simp
  · intro f
    by_cases hf : f = 0
    · subst hf
      decide
    · simp [writtenTo, linesTo, lineTo, categoryWriter, categoryOutput, hf, Ne.symm hf]

end Jccl
