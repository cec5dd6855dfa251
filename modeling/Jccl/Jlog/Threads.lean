/-
# `Jccl.Jlog.Threads` — threads that log at the same time

Any number of threads call `jlog`, each its own calls in its own order.  The
mask and the writer of the logger are tested before the mutex of the writer is
locked; under the mutex every call of `<stdio.h>` is a step of its own, so that
between two characters of a format any other thread may run.

Two writers have each a mutex.  As long as no file belongs to both
(`Separate`), the files come to hold what the calls leave when they are made
one after the other (`jlogThreads_serial`), and nobody waits for ever
(`jlogThreads_finish`).
-/
import Jccl.Jlog.Run
import Jccl.Lib.Mutex

namespace Jccl

/-- A call of a thread; `address` is what `logger->writer` points to. -/
structure ThreadCall (writers : Nat → JlogWriter) where
  call : JlogCall
  address : Option Nat
  placed : call.logger.writer = address.map writers

/-- Where a call is, under the mutex. -/
inductive JlogPoint where
  /-- at the test of the loop over the outputs -/
  | output (i : Nat)
  /-- at the test of the scan of the `i`-th format -/
  | format (i : Nat) (convert : Bool) (p : Nat)
  /-- before the `fputc` that ends the line -/
  | newline (i : Nat)
deriving DecidableEq

/-- The text goes to the stream. -/
def fprint (files : Files) (fp : Nat) (text : Text) : Files :=
  Function.update files fp (files fp ++ text)

/-- From one point to the next one, of which `none` is the `pthread_mutex_unlock`. -/
def jlogStep {Tm : Type} (lib : TimeFunctions Tm) {writers : Nat → JlogWriter}
    (c : ThreadCall writers) (point : JlogPoint) (files : Files) :
    Outcome (Option JlogPoint × Files) := do
  let writer ← deref c.call.logger.writer
  match point with
  | .output i =>
      if i < writer.outputs.length then
        let output ← readAt writer.outputs i
        if output.mask &&& c.call.enumTag.toUInt64 = 0 ∨ output.fp = none then
          return (some (.output (i + 1)), files)
        else
          return (some (.format i false 0), files)
      else
        return (none, files)
  | .format i convert p =>
      let output ← readAt writer.outputs i
      let fp ← deref output.fp
      match ← formatStep lib c.call c.call.enumTag i output
          { convert := convert, p := p, out := [] } with
      | .inl _ => return (some (.newline i), files)
      | .inr st => return (some (.format i st.convert st.p), fprint files fp st.out)
  | .newline i =>
      let output ← readAt writer.outputs i
      let fp ← deref output.fp
      return (some (.output (i + 1)), fprint files fp (ascii "\n"))

/-- A call that the logger masks, or that has no writer, locks nothing. -/
def jlogSections {Tm : Type} (lib : TimeFunctions Tm) (writers : Nat → JlogWriter) :
    Sections (ThreadCall writers) JlogPoint Files :=
  { mutex := fun c => if c.call.MeetsLogger then c.address else none
    enter := fun _ => .output 0
    step := jlogStep lib }

/-- No file is an output of two writers. -/
def Separate (writers : Nat → JlogWriter) : Prop :=
  ∀ w w' f, ∀ output ∈ (writers w).outputs, ∀ output' ∈ (writers w').outputs,
    output.fp = some f → output'.fp = some f → w = w'

section Scan

variable {Tm : Type} {lib : TimeFunctions Tm} {call : JlogCall} {tag : UInt32} {i : Nat}
  {output : JlogWriterOutput} {st st' : FormatState}

/-! ## One step of a scan -/

theorem extractConvertParameter_le {buf buf' format : Text} {p eof : Nat}
    (h : extractConvertParameter buf format p = .ok (eof, buf')) : p ≤ eof := by
  simp only [extractConvertParameter] at h
  split at h
  · cases h
  · obtain ⟨-, -, h⟩ := Outcome.bind_eq_ok.mp h
    obtain ⟨buf₁, -, h⟩ := Outcome.bind_eq_ok.mp h
    obtain ⟨buf₂, -, h⟩ := Outcome.bind_eq_ok.mp h
    cases h
    omega

theorem convertCharacter_le {p p' : Nat} {c : UInt8} {text : Text}
    (h : convertCharacter lib call tag i output p c = .ok (p', text)) : p ≤ p' := by
  unfold convertCharacter at h
  split at h
  case h_3 =>
    -- the parameter of a `%d{...}` is skipped
    obtain ⟨next, -, h⟩ := Outcome.bind_eq_ok.mp h
    split at h
    · obtain ⟨⟨eof, buf⟩, hextract, h⟩ := Outcome.bind_eq_ok.mp h
      obtain ⟨len, -, h⟩ := Outcome.bind_eq_ok.mp h
      obtain ⟨text, -, h⟩ := Outcome.bind_eq_ok.mp h
      cases h
      exact extractConvertParameter_le hextract
    · obtain ⟨text, -, h⟩ := Outcome.bind_eq_ok.mp h
      cases h
      exact le_rfl
  case h_2 =>
    split at h
    · cases h
      exact le_rfl
    · cases h
      exact le_rfl
  all_goals
    cases h
    try exact le_rfl

/-- A step that goes on is one before the end of the format. -/
theorem formatStep_lt (h : formatStep lib call tag i output st = .ok (.inr st')) :
    st.p < output.format.bytes.length ∧ st.p < st'.p := by
  obtain ⟨c, hc, h⟩ := Outcome.bind_eq_ok.mp h
  by_cases h0 : c = 0
  · rw [if_pos h0] at h
    cases h
  rw [if_neg h0] at h
  have hlt : st.p < output.format.bytes.length := by
    by_contra hnot
    have hlen : (output.format.bytes ++ [0]).length = output.format.bytes.length + 1 :=
      List.length_append
    unfold readAt at hc
    split at hc
    · rename_i x hx
      cases hc
      obtain ⟨hp, hx⟩ := List.getElem?_eq_some_iff.mp hx
      rw [List.getElem_append_right (by omega)] at hx
      exact h0 (hx.symm.trans (by simp))
    · cases hc
  refine ⟨hlt, ?_⟩
  split at h
  · obtain ⟨⟨p, text⟩, hconvert, h⟩ := Outcome.bind_eq_ok.mp h
    cases h
    exact Nat.lt_succ_of_le (convertCharacter_le hconvert)
  · split at h
    · cases h
      exact Nat.lt_succ_self _
    · cases h
      exact Nat.lt_succ_self _

/-- What a step prints does not depend on what was printed. -/
theorem formatStep_out (convert : Bool) (p : Nat) (out : Text) :
    formatStep lib call tag i output { convert := convert, p := p, out := out }
      = (formatStep lib call tag i output { convert := convert, p := p, out := [] }).map
          (Sum.map (out ++ ·) fun st => { st with out := out ++ st.out }) := by
  simp only [formatStep]
  cases readAt (output.format.bytes ++ [0]) p with
  | error e => rfl
  | ok c =>
      simp only [Outcome.ok_bind]
      split
      · simp [Except.map, Sum.map]
      · split
        · cases convertCharacter lib call tag i output p c with
          | error e => rfl
          | ok r => simp [Except.map, Sum.map]
        · split
          · simp [Except.map, Sum.map]
          · simp [Except.map, Sum.map]

theorem formatStep_out_inl {convert : Bool} {p : Nat} {text : Text}
    (h : formatStep lib call tag i output { convert := convert, p := p, out := [] }
      = .ok (.inl text)) (out : Text) :
    text = [] ∧ formatStep lib call tag i output { convert := convert, p := p, out := out }
      = .ok (.inl out) := by
  have htext : text = [] := by
    obtain ⟨c, -, h⟩ := Outcome.bind_eq_ok.mp h
    split at h
    · cases h
      rfl
    · split at h
      · obtain ⟨r, -, h⟩ := Outcome.bind_eq_ok.mp h
        cases h
      · split at h
        · cases h
        · cases h
  refine ⟨htext, ?_⟩
  rw [formatStep_out, h, htext]
  simp [Except.map, Sum.map]

theorem formatStep_out_inr {convert : Bool} {p : Nat}
    (h : formatStep lib call tag i output { convert := convert, p := p, out := [] }
      = .ok (.inr st)) (out : Text) :
    formatStep lib call tag i output { convert := convert, p := p, out := out }
      = .ok (.inr { st with out := out ++ st.out }) := by
  rw [formatStep_out, h]
  rfl

/-- The text only grows. -/
theorem prefix_of_loopUntil {fuel : Nat} {text : Text}
    (h : loopUntil (formatStep lib call tag i output) fuel st = .ok text) : st.out <+: text := by
  induction fuel generalizing st with
  | zero => cases h
  | succ fuel ih =>
      rcases st with ⟨convert, p, out⟩
      rw [loopUntil, formatStep_out] at h
      obtain ⟨r, hr, h⟩ := Outcome.bind_eq_ok.mp h
      cases hstep : formatStep lib call tag i output
          { convert := convert, p := p, out := [] } with
      | error e =>
          rw [hstep] at hr
          cases hr
      | ok r' =>
          rw [hstep] at hr
          cases hr
          cases r' with
          | inl t =>
              cases h
              exact List.prefix_append out t
          | inr st' => exact (List.prefix_append out st'.out).trans (ih h)

end Scan

section Call

variable {Tm : Type} {lib : TimeFunctions Tm} {writers : Nat → JlogWriter}
  {c : ThreadCall writers} {writer : JlogWriter} {files files₁ files₂ : Files}

/-! ## A call, from point to point -/

/-- The call prints to the `i`-th output, which has the file `fp`. -/
structure PrintsTo (c : ThreadCall writers) (writer : JlogWriter) (i : Nat)
    (output : JlogWriterOutput) (fp : Nat) : Prop where
  get : writer.outputs[i]? = some output
  mask : c.call.MeetsOutput output
  file : output.fp = some fp

theorem PrintsTo.lt {i : Nat} {output : JlogWriterOutput} {fp : Nat}
    (h : PrintsTo c writer i output fp) : i < writer.outputs.length :=
  (List.getElem?_eq_some_iff.mp h.get).1

theorem PrintsTo.read {i : Nat} {output : JlogWriterOutput} {fp : Nat}
    (h : PrintsTo c writer i output fp) : readAt writer.outputs i = .ok output := by
  rw [readAt, h.get]

theorem PrintsTo.eq {i : Nat} {output output' : JlogWriterOutput} {fp fp' : Nat}
    (h : PrintsTo c writer i output fp) (hread : readAt writer.outputs i = .ok output')
    (hfile : deref output'.fp = .ok fp') : output' = output ∧ fp' = fp := by
  cases h.read.symm.trans hread
  rw [h.file] at hfile
  exact ⟨rfl, (Except.ok.inj hfile).symm⟩

theorem outputStep_printsTo {i : Nat} {output : JlogWriterOutput} {fp : Nat}
    (h : PrintsTo c writer i output fp) (files : Files) :
    outputStep lib c.call c.call.enumTag writer i files
      = (formatLoop lib c.call c.call.enumTag i output >>= fun out =>
          .ok (fprint files fp (out ++ ascii "\n"))) := by
  have hskip : ¬ (output.mask &&& c.call.enumTag.toUInt64 = 0 ∨ output.fp = none) := by
    rw [h.file]
    exact not_or.mpr ⟨h.mask, Option.some_ne_none fp⟩
  rw [outputStep, h.read, Outcome.ok_bind, if_neg hskip, h.file, deref_some, Outcome.ok_bind]
  rfl

theorem fprint_fprint (files : Files) (fp : Nat) (text text' : Text) :
    fprint (fprint files fp text) fp text' = fprint files fp (text ++ text') := by
  rw [fprint, fprint, fprint, Function.update_self, Function.update_idem, List.append_assoc]

/-- The loop over the outputs has come to the point. -/
def Midway (lib : TimeFunctions Tm) (c : ThreadCall writers) (writer : JlogWriter)
    (files : Files) : JlogPoint → Files → Prop
  | .output i, files' => i ≤ writer.outputs.length ∧
      forLoop (outputStep lib c.call c.call.enumTag writer) i files = .ok files'
  | .format i convert p, files' => ∃ files₁ output fp out,
      forLoop (outputStep lib c.call c.call.enumTag writer) i files = .ok files₁ ∧
      PrintsTo c writer i output fp ∧
      Continues (formatStep lib c.call c.call.enumTag i output)
        { convert := false, p := 0, out := [] } { convert := convert, p := p, out := out } ∧
      files' = fprint files₁ fp out
  | .newline i, files' => ∃ files₁ output fp out,
      forLoop (outputStep lib c.call c.call.enumTag writer) i files = .ok files₁ ∧
      PrintsTo c writer i output fp ∧
      formatLoop lib c.call c.call.enumTag i output = .ok out ∧ files' = fprint files₁ fp out

/-- One step, of which `none` ends the loop. -/
theorem Midway.step (hwriter : c.call.logger.writer = some writer) {point : JlogPoint}
    (h : Midway lib c writer files point files₁) {o : Option JlogPoint}
    (hstep : jlogStep lib c point files₁ = .ok (o, files₂)) :
    (∀ point', o = some point' → Midway lib c writer files point' files₂) ∧
    (o = none → forLoop (outputStep lib c.call c.call.enumTag writer) writer.outputs.length files
      = .ok files₂) := by
  rw [jlogStep, hwriter, deref_some, Outcome.ok_bind] at hstep
  cases point with
  | output i =>
      obtain ⟨hle, hloop⟩ := h
      by_cases hi : i < writer.outputs.length
      · simp only [if_pos hi] at hstep
        obtain ⟨output, hread, hstep⟩ := Outcome.bind_eq_ok.mp hstep
        have hget : writer.outputs[i]? = some output := by
          rw [readAt_of_lt hi] at hread
          rw [List.getElem?_eq_getElem hi, Except.ok.inj hread]
        by_cases hskip : output.mask &&& c.call.enumTag.toUInt64 = 0 ∨ output.fp = none
        · rw [if_pos hskip] at hstep
          cases hstep
          refine ⟨fun point' hpoint => ?_, fun h => (by cases h)⟩
          cases hpoint
          refine ⟨hi, ?_⟩
          rw [forLoop, hloop, Outcome.ok_bind, outputStep, hread, Outcome.ok_bind, if_pos hskip]
          rfl
        · rw [if_neg hskip] at hstep
          cases hstep
          refine ⟨fun point' hpoint => ?_, fun h => (by cases h)⟩
          cases hpoint
          obtain ⟨hmask, hopen⟩ := not_or.mp hskip
          obtain ⟨fp, hfp⟩ := Option.ne_none_iff_exists'.mp hopen
          refine ⟨files₁, output, fp, [], hloop, ⟨hget, hmask, hfp⟩, .refl, ?_⟩
          rw [fprint, List.append_nil, Function.update_eq_self]
      · simp only [if_neg hi] at hstep
        cases hstep
        obtain rfl : i = writer.outputs.length := le_antisymm hle (not_lt.mp hi)
        exact ⟨fun point' h => (by cases h), fun _ => hloop⟩
  | format i convert p =>
      obtain ⟨files', output, fp, out, hloop, hprints, hcont, rfl⟩ := h
      obtain ⟨output', hread, hstep⟩ := Outcome.bind_eq_ok.mp hstep
      obtain ⟨fp', hfile, hstep⟩ := Outcome.bind_eq_ok.mp hstep
      obtain ⟨rfl, rfl⟩ := hprints.eq hread hfile
      obtain ⟨r, hr, hstep⟩ := Outcome.bind_eq_ok.mp hstep
      cases r with
      | inl text =>
          cases hstep
          refine ⟨fun point' hpoint => ?_, fun h => (by cases h)⟩
          cases hpoint
          have hend := (formatStep_out_inl hr out).2
          have hlen : output'.format.bytes.length - 0 < output'.format.bytes.length + 1 :=
            Nat.lt_succ_self _
          refine ⟨files', output', fp', out, hloop, hprints, ?_, rfl⟩
          exact hcont.loopUntil_eq (μ := fun st => output'.format.bytes.length - st.p)
            (fun st st' h => by have := formatStep_lt h; omega) hend hlen
      | inr st =>
          cases hstep
          refine ⟨fun point' hpoint => ?_, fun h => (by cases h)⟩
          cases hpoint
          exact ⟨files', output', fp', out ++ st.out, hloop, hprints,
            hcont.snoc (formatStep_out_inr hr out), fprint_fprint ..⟩
  | newline i =>
      obtain ⟨files', output, fp, out, hloop, hprints, hout, rfl⟩ := h
      obtain ⟨output', hread, hstep⟩ := Outcome.bind_eq_ok.mp hstep
      obtain ⟨fp', hfile, hstep⟩ := Outcome.bind_eq_ok.mp hstep
      obtain ⟨rfl, rfl⟩ := hprints.eq hread hfile
      cases hstep
      refine ⟨fun point' hpoint => ?_, fun h => (by cases h)⟩
      cases hpoint
      refine ⟨hprints.lt, ?_⟩
      rw [forLoop, hloop, Outcome.ok_bind, outputStep_printsTo hprints, hout, Outcome.ok_bind,
        fprint_fprint]

theorem Partway.midway (hwriter : c.call.logger.writer = some writer) {point : JlogPoint}
    (h : Partway (jlogSections lib writers) c files point files₁) :
    Midway lib c writer files point files₁ := by
  induction h with
  | enter => exact ⟨Nat.zero_le _, rfl⟩
  | step _ hstep ih => exact (ih.step hwriter hstep).1 _ rfl

theorem exists_writer {point : JlogPoint} {o : Option JlogPoint}
    (h : jlogStep lib c point files = .ok (o, files₁)) :
    ∃ writer, c.call.logger.writer = some writer := by
  cases hwriter : c.call.logger.writer with
  | none =>
      rw [jlogStep, hwriter] at h
      cases h
  | some writer => exact ⟨writer, rfl⟩

theorem Completes.jlog (h : Completes (jlogSections lib writers) c files files₁)
    (hmeets : c.call.MeetsLogger) : jlog lib c.call files = .ok files₁ := by
  obtain ⟨point, files', hpart, hstep⟩ := h
  obtain ⟨writer, hwriter⟩ := exists_writer hstep
  rw [jlog_of_meets hwriter hmeets]
  exact ((hpart.midway hwriter).step hwriter hstep).2 rfl

/-! ## Nothing is taken back -/

theorem prefix_fprint (files : Files) (fp f : Nat) {text text' : Text} (h : text <+: text') :
    fprint files fp text f <+: fprint files fp text' f := by
  by_cases hf : f = fp
  · rw [hf, fprint, fprint, Function.update_self, Function.update_self]
    exact List.prefix_append_right_inj _ |>.mpr h
  · rw [fprint, fprint, Function.update_of_ne hf, Function.update_of_ne hf]

theorem outputStep_grows {i : Nat}
    (h : outputStep lib c.call c.call.enumTag writer i files = .ok files₁) (f : Nat) :
    files f <+: files₁ f := by
  obtain ⟨output, -, h⟩ := Outcome.bind_eq_ok.mp h
  split at h
  · cases h
    exact List.prefix_rfl
  · obtain ⟨fp, -, h⟩ := Outcome.bind_eq_ok.mp h
    obtain ⟨out, -, h⟩ := Outcome.bind_eq_ok.mp h
    cases h
    have hnil : fprint files fp [] f = files f := by
      rw [fprint, List.append_nil, Function.update_eq_self]
    exact hnil ▸ prefix_fprint files fp f List.nil_prefix

theorem forLoop_grows {i n : Nat} (hi : i ≤ n)
    (h : forLoop (outputStep lib c.call c.call.enumTag writer) i files = .ok files₁)
    (h' : forLoop (outputStep lib c.call c.call.enumTag writer) n files = .ok files₂) (f : Nat) :
    files₁ f <+: files₂ f := by
  induction n, hi using Nat.le_induction generalizing files₂ with
  | base =>
      cases h.symm.trans h'
      exact List.prefix_rfl
  | succ n hi ih =>
      obtain ⟨files', hloop, hstep⟩ := Outcome.bind_eq_ok.mp h'
      exact (ih hloop).trans (outputStep_grows hstep f)

/-- The line that is being written, and what the loop leaves after it. -/
theorem prefix_of_printsTo {i : Nat} {output : JlogWriterOutput} {fp : Nat} {out : Text}
    {files' : Files} (h : PrintsTo c writer i output fp)
    (hloop : forLoop (outputStep lib c.call c.call.enumTag writer) i files = .ok files')
    (hout : ∀ text, formatLoop lib c.call c.call.enumTag i output = .ok text → out <+: text)
    (hall : forLoop (outputStep lib c.call c.call.enumTag writer) writer.outputs.length files
      = .ok files₂) (f : Nat) : fprint files' fp out f <+: files₂ f := by
  obtain ⟨t, t', ht, hstep⟩ := forLoop_step hall h.lt
  cases hloop.symm.trans ht
  have hnext : forLoop (outputStep lib c.call c.call.enumTag writer) (i + 1) files = .ok t' := by
    rw [forLoop, hloop, Outcome.ok_bind, hstep]
  rw [outputStep_printsTo h] at hstep
  obtain ⟨text, htext, hstep⟩ := Outcome.bind_eq_ok.mp hstep
  cases hstep
  exact (prefix_fprint _ fp f ((hout text htext).trans (List.prefix_append ..))).trans
    (forLoop_grows h.lt hnext hall f)

/-- A call that is under way has written the beginning of what it writes. -/
theorem Midway.begins {point : JlogPoint} (h : Midway lib c writer files point files₁)
    (hall : forLoop (outputStep lib c.call c.call.enumTag writer) writer.outputs.length files
      = .ok files₂) (f : Nat) : files₁ f <+: files₂ f := by
  cases point with
  | output i => exact forLoop_grows h.1 h.2 hall f
  | format i convert p =>
      obtain ⟨files', output, fp, out, hloop, hprints, hcont, rfl⟩ := h
      refine prefix_of_printsTo hprints hloop (fun text htext => ?_) hall f
      obtain ⟨fuel, hfuel⟩ := hcont.value htext
      exact prefix_of_loopUntil hfuel
  | newline i =>
      obtain ⟨files', output, fp, out, hloop, hprints, hout, rfl⟩ := h
      refine prefix_of_printsTo hprints hloop (fun text htext => ?_) hall f
      cases hout.symm.trans htext
      exact List.prefix_rfl

/-- A call that is under way has only added to the files. -/
theorem Midway.grows {point : JlogPoint} (h : Midway lib c writer files point files₁) (f : Nat) :
    files f <+: files₁ f := by
  have hadd : ∀ (files' : Files) fp out, files' f <+: fprint files' fp out f := by
    intro files' fp out
    have hnil : fprint files' fp [] f = files' f := by
      rw [fprint, List.append_nil, Function.update_eq_self]
    exact hnil ▸ prefix_fprint files' fp f List.nil_prefix
  cases point with
  | output i => exact forLoop_grows (Nat.zero_le i) rfl h.2 f
  | format i convert p =>
      obtain ⟨files', output, fp, out, hloop, -, -, rfl⟩ := h
      exact (forLoop_grows (Nat.zero_le i) rfl hloop f).trans (hadd files' fp out)
  | newline i =>
      obtain ⟨files', output, fp, out, hloop, -, -, rfl⟩ := h
      exact (forLoop_grows (Nat.zero_le i) rfl hloop f).trans (hadd files' fp out)

/-! ## What a mutex protects -/

/-- What a step prints, wherever the files stand. -/
theorem jlogStep_adds {point : JlogPoint} {o : Option JlogPoint}
    (h : jlogStep lib c point files = .ok (o, files₁)) :
    ∃ fp text, (∀ files₀, jlogStep lib c point files₀ = .ok (o, fprint files₀ fp text)) ∧
      (text ≠ [] → ∃ writer, c.call.logger.writer = some writer ∧
        ∃ output ∈ writer.outputs, output.fp = some fp) := by
  obtain ⟨writer, hwriter⟩ := exists_writer h
  have hnil : ∀ files₀ : Files, fprint files₀ 0 [] = files₀ := fun files₀ => by
    rw [fprint, List.append_nil, Function.update_eq_self]
  simp only [jlogStep, hwriter, deref_some, Outcome.ok_bind] at h ⊢
  cases point with
  | output i =>
      refine ⟨0, [], fun files₀ => ?_, fun h => absurd rfl h⟩
      rw [hnil]
      by_cases hi : i < writer.outputs.length
      · simp only [if_pos hi] at h ⊢
        obtain ⟨output, hread, h⟩ := Outcome.bind_eq_ok.mp h
        rw [hread, Outcome.ok_bind]
        split at h
        · cases h
          rename_i hskip
          rw [if_pos hskip]
          rfl
        · cases h
          rename_i hskip
          rw [if_neg hskip]
          rfl
      · simp only [if_neg hi] at h ⊢
        cases h
        rfl
  | format i convert p =>
      obtain ⟨output, hread, h⟩ := Outcome.bind_eq_ok.mp h
      obtain ⟨fp, hfile, h⟩ := Outcome.bind_eq_ok.mp h
      obtain ⟨r, hr, h⟩ := Outcome.bind_eq_ok.mp h
      simp only [hread, hfile, hr, Outcome.ok_bind]
      cases r with
      | inl text =>
          cases h
          exact ⟨0, [], fun files₀ => by rw [hnil]; rfl, fun h => absurd rfl h⟩
      | inr st =>
          cases h
          exact ⟨fp, st.out, fun files₀ => rfl,
            fun _ => ⟨writer, rfl, output, mem_of_readAt hread, eq_of_deref hfile⟩⟩
  | newline i =>
      obtain ⟨output, hread, h⟩ := Outcome.bind_eq_ok.mp h
      obtain ⟨fp, hfile, h⟩ := Outcome.bind_eq_ok.mp h
      simp only [hread, hfile, Outcome.ok_bind]
      cases h
      exact ⟨fp, ascii "\n", fun files₀ => rfl,
        fun _ => ⟨writer, rfl, output, mem_of_readAt hread, eq_of_deref hfile⟩⟩

/-- No other writer has the file. -/
def Owns (writers : Nat → JlogWriter) (w f : Nat) : Prop :=
  ∀ w', w' ≠ w → ∀ output ∈ (writers w').outputs, output.fp ≠ some f

theorem Separate.owns (h : Separate writers) {w f : Nat} {output : JlogWriterOutput}
    (hmem : output ∈ (writers w).outputs) (hfp : output.fp = some f) : Owns writers w f :=
  fun w' hw output' hmem' hfp' => hw (h w' w f output' hmem' output hmem hfp' hfp)

theorem Separate.exists_owns (h : Separate writers) (f : Nat) : ∃ w, Owns writers w f := by
  by_cases hex : ∃ w, ∃ output ∈ (writers w).outputs, output.fp = some f
  · obtain ⟨w, output, hmem, hfp⟩ := hex
    exact ⟨w, h.owns hmem hfp⟩
  · exact ⟨0, fun w' _ output hmem hfp => hex ⟨w', output, hmem, hfp⟩⟩

theorem mutex_eq_some {w : Nat} (h : (jlogSections lib writers).mutex c = some w) :
    c.call.MeetsLogger ∧ c.address = some w := by
  by_cases hmeets : c.call.MeetsLogger
  · exact ⟨hmeets, (if_pos hmeets).symm.trans h⟩
  · rw [show (jlogSections lib writers).mutex c = none from if_neg hmeets] at h
    cases h

theorem writer_of_mutex {w : Nat} (h : (jlogSections lib writers).mutex c = some w) :
    c.call.logger.writer = some (writers w) := by
  rw [c.placed, (mutex_eq_some h).2]
  rfl

theorem protects (lib : TimeFunctions Tm) {w f : Nat} (h : Owns writers w f) :
    Protects (jlogSections lib writers) w (fun files : Files => files f) where
  frame := by
    intro c w' point files o files' hmutex hne hstep
    obtain ⟨fp, text, hadds, hfp⟩ := jlogStep_adds hstep
    cases hstep.symm.trans (hadds files)
    by_cases htext : text = []
    · show fprint files fp text f = files f
      rw [htext, fprint, List.append_nil, Function.update_eq_self]
    · obtain ⟨writer, hwriter, output, hmem, hfile⟩ := hfp htext
      cases hwriter.symm.trans (writer_of_mutex hmutex)
      have hf : f ≠ fp := fun hf => h w' hne output hmem (hf ▸ hfile)
      exact Function.update_of_ne hf _ _
  reads := by
    intro c point files o files' files₁ hmutex hview hstep
    obtain ⟨fp, text, hadds, -⟩ := jlogStep_adds hstep
    cases hstep.symm.trans (hadds files)
    refine ⟨fprint files₁ fp text, hadds files₁, ?_⟩
    by_cases hf : f = fp
    · subst hf
      show fprint files₁ f text f = fprint files f text f
      rw [fprint, fprint, Function.update_self, Function.update_self, hview]
    · show fprint files₁ fp text f = fprint files fp text f
      rw [fprint, fprint, Function.update_of_ne hf, Function.update_of_ne hf, hview]

theorem protects_nothing (lib : TimeFunctions Tm) (writers : Nat → JlogWriter) (w : Nat) :
    Protects (jlogSections lib writers) w (fun _ => ()) where
  frame := fun _ _ _ => rfl
  reads := by
    intro c point files o files' files₁ _ _ hstep
    obtain ⟨fp, text, hadds, -⟩ := jlogStep_adds hstep
    cases hstep.symm.trans (hadds files)
    exact ⟨fprint files₁ fp text, hadds files₁, rfl⟩

/-! ## Calls through any writers -/

theorem jlog_of_no_writer {call : JlogCall} (h : call.logger.writer = none) (files : Files) :
    jlog lib call files = .ok files := by
  rw [jlog, vjlogprintf, h]
  exact ite_self _

/-- What a call adds to the files, wherever they stand. -/
theorem jlog_adds {call : JlogCall} (h : jlog lib call files = .ok files₁) :
    ∃ g : Files, (∀ files₀, jlog lib call files₀ = .ok fun f => files₀ f ++ g f) ∧
      ∀ f, g f ≠ [] → call.MeetsLogger ∧ ∃ writer, call.logger.writer = some writer ∧
        ∃ output ∈ writer.outputs, output.fp = some f := by
  cases hwriter : call.logger.writer with
  | none =>
      refine ⟨fun _ => [], fun files₀ => ?_, fun f hf => absurd rfl hf⟩
      simp only [List.append_nil]
      exact jlog_of_no_writer hwriter files₀
  | some writer =>
      obtain ⟨text, htext⟩ := jlog_value hwriter h
      refine ⟨fun f => linesTo call f writer.outputs.zipIdx text, fun files₀ => ?_, fun f hf => ?_⟩
      · obtain ⟨files', hrun, hlines⟩ := jlog_lines hwriter htext files₀
        rw [hrun, funext hlines]
      · obtain ⟨p, hp, hline⟩ : ∃ p ∈ writer.outputs.zipIdx, lineTo call f p.1 (text p.2) ≠ [] := by
          by_contra hnone
          simp only [not_exists, not_and, not_not] at hnone
          exact hf (List.flatMap_eq_nil_iff.mpr hnone)
        have hprints : p.1.fp = some f ∧ call.Prints p.1 := by
          by_contra hnot
          exact hline (if_neg hnot)
        exact ⟨hprints.2.1, writer, rfl, p.1, List.fst_mem_of_mem_zipIdx hp, hprints.1⟩

theorem jlogRun_total {calls : List JlogCall}
    (h : ∀ call ∈ calls, ∃ files files', jlog lib call files = .ok files') (files : Files) :
    ∃ files', jlogRun lib calls files = .ok files' := by
  induction calls generalizing files with
  | nil => exact ⟨files, rfl⟩
  | cons call calls ih =>
      obtain ⟨⟨files₁, files₂, hcall⟩, hcalls⟩ := List.forall_mem_cons.mp h
      obtain ⟨g, hadds, -⟩ := jlog_adds hcall
      obtain ⟨files', hrun⟩ := ih hcalls fun f => files f ++ g f
      exact ⟨files', by rw [jlogRun, hadds files, Outcome.ok_bind, hrun]⟩

/-- Of a file that only some of the calls write to, those tell the text. -/
theorem jlogRun_filter {calls : List (ThreadCall writers)} {p : ThreadCall writers → Bool}
    {f : Nat} (hskip : ∀ c ∈ calls, p c = false → ∀ files files',
      jlog lib c.call files = .ok files' → files' f = files f)
    {files₀ : Files} (hf : files₀ f = files f)
    (h : jlogRun lib (calls.map ThreadCall.call) files = .ok files₁)
    (h₀ : jlogRun lib ((calls.filter p).map ThreadCall.call) files₀ = .ok files₂) :
    files₂ f = files₁ f := by
  induction calls generalizing files files₀ with
  | nil =>
      cases h
      cases h₀
      exact hf
  | cons c calls ih =>
      obtain ⟨hcall, hcalls⟩ := List.forall_mem_cons.mp hskip
      obtain ⟨files', hjlog, h⟩ := Outcome.bind_eq_ok.mp h
      obtain ⟨g, hadds, -⟩ := jlog_adds hjlog
      cases hjlog.symm.trans (hadds files)
      by_cases hp : p c = true
      · rw [List.filter_cons_of_pos hp, List.map_cons, jlogRun, hadds files₀,
          Outcome.ok_bind] at h₀
        exact ih hcalls (by rw [hf]) h h₀
      · rw [List.filter_cons_of_neg hp] at h₀
        have hsame := hcall (by simpa using hp) files _ hjlog
        exact ih hcalls (hf.trans hsame.symm) h h₀

theorem jlogRun_append (calls calls' : List JlogCall) (files : Files) :
    jlogRun lib (calls ++ calls') files
      = (jlogRun lib calls files >>= fun files => jlogRun lib calls' files) := by
  induction calls generalizing files with
  | nil => rfl
  | cons call calls ih =>
      rw [List.cons_append, jlogRun, jlogRun]
      cases jlog lib call files with
      | error e => rfl
      | ok files' => exact ih files'

theorem Serial.jlogRun {calls : List (ThreadCall writers)}
    (h : Serial (jlogSections lib writers) files calls files₁)
    (hmeets : ∀ c ∈ calls, c.call.MeetsLogger) :
    jlogRun lib (calls.map ThreadCall.call) files = .ok files₁ := by
  induction h with
  | nil => rfl
  | snoc _ hcall ih =>
      rw [List.forall_mem_append] at hmeets
      have hjlog := hcall.jlog (hmeets.2 _ (List.mem_singleton_self _))
      rw [List.map_append, jlogRun_append, ih hmeets.1, Outcome.ok_bind, List.map_singleton,
        Jccl.jlogRun, hjlog]
      rfl

theorem jlog_of_mutex_none (h : (jlogSections lib writers).mutex c = none) (files : Files) :
    jlog lib c.call files = .ok files := by
  by_cases hmeets : c.call.MeetsLogger
  · have haddress : c.address = none := (if_pos hmeets).symm.trans h
    exact jlog_of_no_writer (by rw [c.placed, haddress]; rfl) files
  · exact jlog_of_not_meets hmeets files

/-- A call under another mutex, or under none, leaves the file alone. -/
theorem jlog_other {w f : Nat} (howns : Owns writers w f)
    (hmutex : (jlogSections lib writers).mutex c ≠ some w)
    (h : jlog lib c.call files = .ok files₁) : files₁ f = files f := by
  obtain ⟨g, hadds, hg⟩ := jlog_adds h
  cases h.symm.trans (hadds files)
  by_cases hf : g f = []
  · exact (congrArg (files f ++ ·) hf).trans (List.append_nil _)
  · obtain ⟨hmeets, writer, hwriter, output, hmem, hfp⟩ := hg f hf
    rw [show (jlogSections lib writers).mutex c = c.address from if_pos hmeets] at hmutex
    rw [c.placed] at hwriter
    obtain ⟨w', haddress, rfl⟩ := Option.map_eq_some_iff.mp hwriter
    exact absurd hfp (howns w' (fun hw => hmutex (hw ▸ haddress)) output hmem)

section Run

variable {ι : Type} {programs : ι → List (ThreadCall writers)} {schedule : List ι}
  {log : List (ι × ThreadCall writers)} {s : Threads ι (ThreadCall writers) JlogPoint Files}

theorem meets_of_callsUnder {w : Nat} :
    ∀ c ∈ callsUnder (jlogSections lib writers) w log, c.call.MeetsLogger := by
  intro c hc
  have hmutex : (jlogSections lib writers).mutex c = some w := by
    simpa using (List.mem_filter.mp hc).2
  exact (mutex_eq_some hmutex).1

variable [DecidableEq ι]

/-- Every call that was completed has run by itself. -/
theorem Run.ran (h : Run (jlogSections lib writers) (Threads.start programs files) schedule log s)
    {e : ι × ThreadCall writers} (he : e ∈ log) :
    ∃ files files', jlog lib e.2.call files = .ok files' := by
  cases hmutex : (jlogSections lib writers).mutex e.2 with
  | none => exact ⟨files, files, jlog_of_mutex_none hmutex files⟩
  | some w =>
      obtain ⟨s₁, hserial, -⟩ := h.serial (protects_nothing lib writers w)
      have hmem : e.2 ∈ callsUnder (jlogSections lib writers) w log :=
        List.mem_filter.mpr ⟨List.mem_map_of_mem he, by simpa using hmutex⟩
      obtain ⟨files₁, files₂, hcall⟩ := hserial.completes _ hmem
      exact ⟨files₁, files₂, hcall.jlog (meets_of_callsUnder _ hmem)⟩

/-- The file `f`, of which the calls through `w` alone tell the text. -/
theorem Run.file {w f : Nat} (howns : Owns writers w f)
    (h : Run (jlogSections lib writers) (Threads.start programs files) schedule log s)
    (hrun : jlogRun lib (log.map fun e => e.2.call) files = .ok files₁) :
    (s.owner w = none → s.shared f = files₁ f) ∧
    ∀ t c calls point, s.owner w = some t → s.thread t = ⟨c :: calls, some point⟩ →
      files₁ f <+: s.shared f ∧
      ∀ files₂, jlog lib c.call files₁ = .ok files₂ → s.shared f <+: files₂ f := by
  obtain ⟨s₁, hserial, hfree, hheld⟩ := h.serial (protects lib howns)
  have hs₁ : s₁ f = files₁ f := by
    have hlog : log.map (fun e => e.2.call) = (log.map Prod.snd).map ThreadCall.call := by
      rw [List.map_map]
      rfl
    rw [hlog] at hrun
    refine jlogRun_filter (fun c _ hc files files' hjlog => ?_) rfl hrun
      (hserial.jlogRun meets_of_callsUnder)
    exact jlog_other howns (by simpa using hc) hjlog
  refine ⟨fun hnone => (hfree hnone).symm.trans hs₁, fun t c calls point hown hthread => ?_⟩
  obtain ⟨s₂, hpart, hview⟩ := hheld t c calls point hown hthread
  have hview : s₂ f = s.shared f := hview
  obtain ⟨c', calls', m, hcalls, hmutex, -⟩ :=
    (h.exclusive (exclusive_start programs files)).1 t point (by rw [hthread])
  rw [hthread] at hcalls
  obtain ⟨rfl, rfl⟩ := List.cons.inj hcalls
  have hmid := hpart.midway (writer_of_mutex hmutex)
  refine ⟨by rw [← hs₁, ← hview]; exact hmid.grows f, fun files₂ hjlog => ?_⟩
  obtain ⟨g, hadds, -⟩ := jlog_adds hjlog
  have hall := hadds s₁
  rw [jlog_of_meets (writer_of_mutex hmutex) (mutex_eq_some hmutex).1] at hall
  have hpre := hmid.begins hall f
  cases hjlog.symm.trans (hadds files₁)
  show s.shared f <+: files₁ f ++ g f
  rw [← hview, ← hs₁]
  exact hpre

end Run

/-! ## No call faults, and every call ends -/

theorem Midway.ok (hwriter : c.call.logger.writer = some writer) (hmeets : c.call.MeetsLogger)
    (hformat : ∀ output ∈ writer.outputs, output.fp ≠ none → Documented output.format.bytes)
    (hfits : c.call.Fits lib writer)
    {point : JlogPoint} (h : Midway lib c writer files point files₁) (files₂ : Files) :
    ∃ r, jlogStep lib c point files₂ = .ok r := by
  simp only [jlogStep, hwriter, deref_some, Outcome.ok_bind]
  cases point with
  | output i =>
      by_cases hi : i < writer.outputs.length
      · simp only [if_pos hi, readAt_of_lt hi, Outcome.ok_bind]
        split
        · exact ⟨_, rfl⟩
        · exact ⟨_, rfl⟩
      · simp only [if_neg hi]
        exact ⟨_, rfl⟩
  | format i convert p =>
      obtain ⟨files', output, fp, out, -, hprints, hcont, -⟩ := h
      have hopen : output.fp ≠ none := by
        rw [hprints.file]
        exact Option.some_ne_none fp
      have hfit : TimestampsFit lib c.call i output :=
        hfits (output, i) (List.mem_zipIdx_iff_getElem?.mpr hprints.get)
          ⟨hmeets, hprints.mask, hopen⟩
      obtain ⟨text, htext⟩ := (hformat output (List.mem_of_getElem? hprints.get) hopen).formatLoop
        hfit c.call.enumTag
      simp only [hprints.read, hprints.file, deref_some, Outcome.ok_bind]
      cases hstep : formatStep lib c.call c.call.enumTag i output
          { convert := convert, p := p, out := [] } with
      | error e =>
          -- the scan would not have got past this point
          have hfault : formatStep lib c.call c.call.enumTag i output
              { convert := convert, p := p, out := out } = .error e := by
            rw [formatStep_out, hstep]
            rfl
          exact absurd htext (hcont.fault hfault _ _)
      | ok r =>
          cases r with
          | inl text => exact ⟨_, rfl⟩
          | inr st => exact ⟨_, rfl⟩
  | newline i =>
      obtain ⟨files', output, fp, out, -, hprints, -, -⟩ := h
      simp only [hprints.read, hprints.file, deref_some, Outcome.ok_bind]
      exact ⟨_, rfl⟩

/-- The turns that the outputs may take. -/
def outputsCost (outputs : List JlogWriterOutput) : Nat :=
  (outputs.map fun output => output.format.bytes.length + 4).sum

def JlogPoint.cost (outputs : List JlogWriterOutput) : JlogPoint → Nat
  | .output i => outputsCost (outputs.drop i)
  | .format i _ p => ((outputs[i]?.map fun output => output.format.bytes.length).getD 0 - p) + 2
      + outputsCost (outputs.drop (i + 1))
  | .newline i => 1 + outputsCost (outputs.drop (i + 1))

def ThreadCall.outputs (c : ThreadCall writers) : List JlogWriterOutput :=
  (c.call.logger.writer.map JlogWriter.outputs).getD []

/-- The turns that a call may take, the first and the last one included. -/
def ThreadCall.cost (c : ThreadCall writers) : Nat := outputsCost c.outputs + 2

theorem outputsCost_drop {outputs : List JlogWriterOutput} {i : Nat} {output : JlogWriterOutput}
    (h : outputs[i]? = some output) : outputsCost (outputs.drop i)
      = output.format.bytes.length + 4 + outputsCost (outputs.drop (i + 1)) := by
  obtain ⟨hi, rfl⟩ := List.getElem?_eq_some_iff.mp h
  rw [List.drop_eq_getElem_cons hi, outputsCost, List.map_cons, List.sum_cons]
  rfl

theorem jlogStep_cost {point point' : JlogPoint}
    (h : jlogStep lib c point files = .ok (some point', files₁)) :
    point'.cost c.outputs < point.cost c.outputs := by
  obtain ⟨writer, hwriter⟩ := exists_writer h
  have houtputs : c.outputs = writer.outputs := by rw [ThreadCall.outputs, hwriter]; rfl
  rw [houtputs]
  simp only [jlogStep, hwriter, deref_some, Outcome.ok_bind] at h
  cases point with
  | output i =>
      by_cases hi : i < writer.outputs.length
      · simp only [if_pos hi] at h
        obtain ⟨output, hread, h⟩ := Outcome.bind_eq_ok.mp h
        have hget := getElem?_of_readAt hread
        split at h
        · cases h
          simp only [JlogPoint.cost, outputsCost_drop hget]
          omega
        · cases h
          simp only [JlogPoint.cost, outputsCost_drop hget, hget, Option.map_some, Option.getD_some]
          omega
      · simp only [if_neg hi] at h
        cases h
  | format i convert p =>
      obtain ⟨output, hread, h⟩ := Outcome.bind_eq_ok.mp h
      obtain ⟨fp, hfile, h⟩ := Outcome.bind_eq_ok.mp h
      obtain ⟨r, hr, h⟩ := Outcome.bind_eq_ok.mp h
      cases r with
      | inl text =>
          cases h
          simp only [JlogPoint.cost]
          omega
      | inr st =>
          cases h
          have hlt := formatStep_lt hr
          simp only [JlogPoint.cost, getElem?_of_readAt hread, Option.map_some, Option.getD_some]
          simp only at hlt
          omega
  | newline i =>
      obtain ⟨output, hread, h⟩ := Outcome.bind_eq_ok.mp h
      obtain ⟨fp, hfile, h⟩ := Outcome.bind_eq_ok.mp h
      cases h
      simp only [JlogPoint.cost]
      omega

end Call

/-- **Threads that log at the same time.**  In every run, and at every moment
of it, the calls that were completed are the first ones of every thread, and
every file holds what they leave when they are made one after the other; only
if some thread holds the mutex of the writer, there comes the beginning of what
its call writes. -/
theorem jlogThreads_serial {ι Tm : Type} [DecidableEq ι] (lib : TimeFunctions Tm)
    (writers : Nat → JlogWriter) (hseparate : Separate writers)
    (programs : ι → List (ThreadCall writers)) (files : Files) {schedule : List ι}
    {log : List (ι × ThreadCall writers)} {s : Threads ι (ThreadCall writers) JlogPoint Files}
    (h : Run (jlogSections lib writers) (Threads.start programs files) schedule log s) :
    (∀ t, programs t = callsOf t log ++ (s.thread t).calls) ∧
    ∃ files', jlogRun lib (log.map fun e => e.2.call) files = .ok files' ∧
      (s.Finished → s.shared = files') ∧
      ∀ w f, ∀ output ∈ (writers w).outputs, output.fp = some f →
        (s.owner w = none → s.shared f = files' f) ∧
        ∀ t, s.owner w = some t → ∃ c calls, (s.thread t).calls = c :: calls ∧
          files' f <+: s.shared f ∧
          ∀ files'', jlog lib c.call files' = .ok files'' → s.shared f <+: files'' f := by
  have hex := h.exclusive (exclusive_start programs files)
  have hran : ∀ call ∈ log.map fun e => e.2.call, ∃ files files',
      jlog lib call files = .ok files' := by
    intro call hmem
    obtain ⟨e, he, rfl⟩ := List.mem_map.mp hmem
    exact h.ran he
  obtain ⟨files', hrun⟩ := jlogRun_total hran files
  refine ⟨h.calls, files', hrun, fun hfinished => funext fun f => ?_, ?_⟩
  · obtain ⟨w, howns⟩ := hseparate.exists_owns f
    refine (h.file howns hrun).1 ?_
    cases howner : s.owner w with
    | none => rfl
    | some t => exact absurd howner (hex.not_owner (by rw [hfinished t]) w)
  · intro w f output hmem hfp
    obtain ⟨hfree, hheld⟩ := h.file (hseparate.owns hmem hfp) hrun
    refine ⟨hfree, fun t hown => ?_⟩
    obtain ⟨c, calls, point, hthread, -⟩ := hex.2 w t hown
    exact ⟨c, calls, by rw [hthread], hheld t c calls point hown hthread⟩

/-! Two threads share a writer.  The second one waits until the first line is
complete, and logs meanwhile what its logger masks. -/

def categoryWriters (w : Nat) : JlogWriter :=
  if w = 0 then categoryWriter else { outputs := [] }

def everythingThread (tag : Int) : ThreadCall categoryWriters :=
  { call := everythingCall tag, address := some 0, placed := rfl }

def errorsThread (tag : Int) : ThreadCall categoryWriters :=
  { call := errorsCall tag, address := some 0, placed := rfl }

def categoryPrograms : Bool → List (ThreadCall categoryWriters)
  | true => [everythingThread 64]
  | false => [errorsThread 64, errorsThread 8]

theorem separate_categoryWriters : Separate categoryWriters := by
  have hzero : ∀ w f, ∀ output ∈ (categoryWriters w).outputs, output.fp = some f → w = 0 := by
    intro w f output hmem _
    by_contra hw
    rw [categoryWriters, if_neg hw] at hmem
    exact absurd hmem List.not_mem_nil
  intro w w' f output hmem output' hmem' hfp hfp'
  rw [hzero w f output hmem hfp, hzero w' f output' hmem' hfp']

theorem jlogThreads_serial_category : ∃ schedule log s, Run
      (jlogSections literalTime categoryWriters) (Threads.start categoryPrograms fun _ => [])
      schedule log s ∧
    s.Finished ∧ s.shared 0 = ascii "at everything\nat errors\n" ∧
    jlogRun literalTime (log.map fun e => e.2.call) (fun _ => []) = .ok s.shared := by
  have h := Run.start (S := jlogSections literalTime categoryWriters)
    (s := Threads.start categoryPrograms fun _ => [])
  have h := h.turn (t := true) (.lock (m := 0) rfl rfl rfl)
  have h := h.turn (t := true) (.step rfl rfl)
  have h := h.turn (t := true) (.step rfl rfl)
  have h := h.turn (t := true) (.step rfl rfl)
  have h := h.turn (t := false) (.skip rfl rfl)
  have h := h.turn (t := true) (.step rfl rfl)
  have h := h.turn (t := true) (.step rfl rfl)
  have h := h.turn (t := true) (.step rfl rfl)
  have h := h.turn (t := true) (.step rfl rfl)
  have h := h.turn (t := true) (.step rfl rfl)
  have h := h.turn (t := true) (.unlock rfl rfl rfl)
  have h := h.turn (t := false) (.lock (m := 0) rfl rfl rfl)
  have h := h.turn (t := false) (.step rfl rfl)
  have h := h.turn (t := false) (.step rfl rfl)
  have h := h.turn (t := false) (.step rfl rfl)
  have h := h.turn (t := false) (.step rfl rfl)
  have h := h.turn (t := false) (.step rfl rfl)
  have h := h.turn (t := false) (.step rfl rfl)
  have h := h.turn (t := false) (.step rfl rfl)
  have h := h.turn (t := false) (.step rfl rfl)
  have h := h.turn (t := false) (.unlock rfl rfl rfl)
  obtain ⟨-, files', hrun, hfinished, -⟩ := jlogThreads_serial literalTime categoryWriters
    separate_categoryWriters categoryPrograms _ h
  refine ⟨_, _, _, h, fun t => ?_, by decide, hrun.trans (congrArg _ (hfinished ?_).symm)⟩
  · cases t <;> rfl
  · intro t
    cases t <;> rfl

/-- The call that holds a mutex comes on from every point of it, when the
format is made of documented pieces and the timestamps fit. -/
theorem jlogStep_ok {ι Tm : Type} [DecidableEq ι] {lib : TimeFunctions Tm}
    {writers : Nat → JlogWriter}
    (hformat : ∀ w, ∀ output ∈ (writers w).outputs, output.fp ≠ none →
      Documented output.format.bytes)
    {programs : ι → List (ThreadCall writers)}
    (hfits : ∀ t, ∀ c ∈ programs t, ∀ writer, c.call.logger.writer = some writer →
      c.call.Fits lib writer)
    {files : Files} {schedule : List ι} {log : List (ι × ThreadCall writers)}
    {s : Threads ι (ThreadCall writers) JlogPoint Files}
    (h : Run (jlogSections lib writers) (Threads.start programs files) schedule log s) {t : ι}
    {c : ThreadCall writers} {calls : List (ThreadCall writers)} {point : JlogPoint}
    (hthread : s.thread t = ⟨c :: calls, some point⟩) :
    ∃ r, jlogStep lib c point s.shared = .ok r := by
  obtain ⟨c', calls', m, hcalls, hmutex, howner⟩ :=
    (h.exclusive (exclusive_start programs files)).1 t point (by rw [hthread])
  rw [hthread] at hcalls
  obtain ⟨rfl, rfl⟩ := List.cons.inj hcalls
  obtain ⟨s₁, -, -, hheld⟩ := h.serial (protects_nothing lib writers m)
  obtain ⟨s₂, hpart, -⟩ := hheld t c calls point howner hthread
  -- the call is one of those the thread was to make
  have hprogram : programs t = callsOf t log ++ (s.thread t).calls := h.calls t
  have hmem : c ∈ programs t := by
    rw [hprogram, hthread]
    exact List.mem_append_right _ List.mem_cons_self
  have hwriter := writer_of_mutex hmutex
  exact (hpart.midway hwriter).ok hwriter (mutex_eq_some hmutex).1 (hformat m)
    (hfits t c hmem _ hwriter) s.shared

/-- **Nobody waits for ever.**  When the formats of the open outputs are made
of documented pieces and the timestamps fit, no call faults, and as long as
somebody is not through somebody can go on; the turns that a run takes are
bounded by the formats, so that every run comes to an end, however the threads
are scheduled. -/
theorem jlogThreads_finish {ι Tm : Type} [DecidableEq ι] [Fintype ι] (lib : TimeFunctions Tm)
    (writers : Nat → JlogWriter)
    (hformat : ∀ w, ∀ output ∈ (writers w).outputs, output.fp ≠ none →
      Documented output.format.bytes)
    (programs : ι → List (ThreadCall writers))
    (hfits : ∀ t, ∀ c ∈ programs t, ∀ writer, c.call.logger.writer = some writer →
      c.call.Fits lib writer)
    (files : Files) {schedule : List ι}
    {log : List (ι × ThreadCall writers)} {s : Threads ι (ThreadCall writers) JlogPoint Files}
    (h : Run (jlogSections lib writers) (Threads.start programs files) schedule log s) :
    (∀ t c calls point, s.thread t = ⟨c :: calls, some point⟩ →
      ∃ r, jlogStep lib c point s.shared = .ok r) ∧
    (¬ s.Finished → ∃ t done s', Turn (jlogSections lib writers) t s done s') ∧
    schedule.length ≤ ∑ t, ((programs t).map ThreadCall.cost).sum ∧
    ∃ schedule' log' s', Run (jlogSections lib writers) (Threads.start programs files)
      (schedule ++ schedule') log' s' ∧ s'.Finished := by
  let S := jlogSections lib writers
  let start : Threads ι (ThreadCall writers) JlogPoint Files := Threads.start programs files
  have hok : ∀ schedule log s, Run S start schedule log s → ∀ t c calls point,
      s.thread t = ⟨c :: calls, some point⟩ → ∃ r, jlogStep lib c point s.shared = .ok r :=
    fun _ _ _ h _ _ _ _ hthread => jlogStep_ok hformat hfits h hthread
  have hprogress : ∀ schedule log s, Run S start schedule log s → ¬ s.Finished →
      ∃ t done s', Turn S t s done s' := fun schedule log s h hnot =>
    (h.exclusive (exclusive_start programs files)).progress (hok schedule log s h) hnot
  have hbound : ∀ schedule log s, Run S start schedule log s →
      schedule.length ≤ ∑ t, ((programs t).map ThreadCall.cost).sum := by
    intro schedule log s h
    have hlen := h.length_le ThreadCall.cost (fun c point => point.cost c.outputs)
      (fun c => Nat.lt_succ_self _) (fun c point point' files files' => jlogStep_cost)
    exact (Nat.le_add_right _ _).trans hlen
  exact ⟨hok _ _ _ h, hprogress _ _ _ h, hbound _ _ _ h, h.finish hbound hprogress⟩

theorem jlogThreads_finish_category : ∃ schedule log s, schedule.length ≤ 45 ∧
    Run (jlogSections literalTime categoryWriters) (Threads.start categoryPrograms fun _ => [])
      schedule log s ∧ s.Finished := by
  have hformat : ∀ w, ∀ output ∈ (categoryWriters w).outputs, output.fp ≠ none →
      Documented output.format.bytes := by
    intro w output hmem _
    rw [categoryWriters] at hmem
    split at hmem
    · obtain rfl : output = categoryOutput := List.mem_singleton.mp hmem
      exact ⟨_, categoryOutput_spelled, categoryOutput_allowed⟩
    · exact absurd hmem List.not_mem_nil
  have hfits : ∀ t, ∀ c ∈ categoryPrograms t, ∀ writer, c.call.logger.writer = some writer →
      c.call.Fits literalTime writer := fun _ _ _ _ _ _ _ _ =>
    timestampsFit_of_short fun _ _ hlen => (List.length_filter_le ..).trans_lt hlen
  have hfinish := @jlogThreads_finish Bool Int _ _ literalTime categoryWriters hformat
    categoryPrograms hfits fun _ => []
  obtain ⟨-, -, -, schedule, log, s, hrun, hfin⟩ := hfinish .start
  exact ⟨_, log, s, (hfinish hrun).2.2.1.trans (by decide), hrun, hfin⟩

end Jccl
