/-
# `Jccl.Jstring.Quoted` — the end of a quoted string whose quotes are doubled

The window is the `count` bytes the caller names, and `rest` is what the
object holds after them.  An iteration takes the window from the left, up to
a pair of quotes; what the scan of the whole window finds is, up to the
distance, what it finds in the part that is left.

The byte after a quote is read unless a single byte is left.  So a quote that
is the last byte of a longer part is judged by the first byte of `rest`, and
when that is a quote as well, two bytes are taken off a count of one.
-/
import Jccl.Jstring.Defs
import Jccl.Lib.Doubled

namespace Jccl

/-! ## `strnchr` -/

section Strnchr

variable {c : UInt8} (pre rest : List UInt8)

theorem strnchrLoop_notMem {v : List UInt8} (h : c ∉ v) (n : Nat) :
    strnchrLoop (pre ++ (v ++ rest)) c (v.length + n) pre.length
      = strnchrLoop (pre ++ (v ++ rest)) c n (pre.length + v.length) := by
  induction v generalizing pre with
  | nil => simp
  | cons x v ih =>
      obtain ⟨hx, hv⟩ := List.ne_and_not_mem_of_not_mem_cons h
      have hread : readAt (pre ++ (x :: v ++ rest)) pre.length = .ok x := readAt_append rfl
      have htail := ih (pre ++ [x]) hv
      rw [List.append_assoc, List.length_append] at htail
      rw [List.length_cons, Nat.add_right_comm, strnchrLoop, hread]
      simpa [hx.symm, Nat.add_assoc, Nat.add_comm 1] using htail

theorem strnchr_notMem {w : List UInt8} (h : c ∉ w) :
    strnchr (pre ++ (w ++ rest)) pre.length w.length c = .ok none := by
  have hloop := strnchrLoop_notMem pre rest h 0
  rw [Nat.add_zero] at hloop
  simp [strnchr, hloop, strnchrLoop]

theorem strnchr_append {v w : List UInt8} (h : c ∉ v) :
    strnchr (pre ++ (v ++ c :: w ++ rest)) pre.length (v ++ c :: w).length c
      = .ok (some (pre.length + v.length)) := by
  have hloop := strnchrLoop_notMem pre (c :: w ++ rest) h (w.length + 1)
  have hread : readAt (pre ++ (v ++ (c :: w ++ rest))) (pre.length + v.length) = .ok c := by
    rw [← List.append_assoc]
    exact readAt_append List.length_append.symm
  have hlen : (v ++ c :: w).length = v.length + (w.length + 1) := List.length_append
  rw [strnchrLoop, hread] at hloop
  rw [strnchr, List.append_assoc v, hlen, hloop]
  simp

end Strnchr

/-! ## One iteration -/

section Step

variable {quote : UInt8} (pre rest : List UInt8)

theorem doubleQuotesStep_notMem {w : List UInt8} (h : quote ∉ w) :
    doubleQuotesStep (pre ++ (w ++ rest)) quote (pre.length, w.length) = .ok (.inl none) := by
  simp [doubleQuotesStep, strnchr_notMem pre rest h]

/-- The iteration that comes upon a quote goes by the byte after it, of the
window or of `rest`, unless the quote is all of the window. -/
theorem doubleQuotesStep_quote {v w : List UInt8} (h : quote ∉ v) :
    doubleQuotesStep (pre ++ (v ++ quote :: w ++ rest)) quote
        (pre.length, (v ++ quote :: w).length)
      = if (v ++ quote :: w).length = 1 then .ok (.inl (some (pre.length + v.length)))
        else do
          let byte ← readAt (w ++ rest) 0
          return if byte ≠ quote then .inl (some (pre.length + v.length))
            else .inr (pre.length + v.length + 2,
              sizeSub (v ++ quote :: w).length (v.length + 2)) := by
  have hread : readAt (pre ++ (v ++ quote :: w ++ rest)) (pre.length + v.length + 1)
      = readAt (w ++ rest) 0 := by
    have heq : pre ++ (v ++ quote :: w ++ rest) = (pre ++ v ++ [quote]) ++ (w ++ rest) := by simp
    have hlen : pre.length + v.length + 1 = (pre ++ v ++ [quote]).length + 0 := by
      simp [Nat.add_assoc]
    rw [heq, hlen, readAt, List.getElem?_append_right (Nat.le_add_right _ 0),
      Nat.add_sub_cancel_left]
    rfl
  have hpos : (v ++ quote :: w).length > 0 := by simp
  have hsub : pre.length + v.length + 1 + 1 - pre.length = v.length + 2 := by omega
  rw [doubleQuotesStep, if_pos hpos, strnchr_append pre rest h]
  simp only [Outcome.ok_bind, endsString]
  split
  · rfl
  · rw [hread]
    cases readAt (w ++ rest) 0 with
    | error e => rfl
    | ok byte =>
        by_cases hbyte : byte = quote
        · simp [hbyte, hsub]
        · simp [hbyte]

theorem doubleQuotesStep_single :
    doubleQuotesStep (pre ++ ([quote] ++ rest)) quote (pre.length, [quote].length)
      = .ok (.inl (some pre.length)) := by
  have hstep := doubleQuotesStep_quote pre rest (w := []) (List.not_mem_nil (a := quote))
  simpa using hstep

theorem doubleQuotesStep_ends {v w : List UInt8} {x : UInt8} (h : quote ∉ v)
    (hlen : (v ++ quote :: w).length ≠ 1) (hx : (w ++ rest).head? = some x) (hne : x ≠ quote) :
    doubleQuotesStep (pre ++ (v ++ quote :: w ++ rest)) quote
        (pre.length, (v ++ quote :: w).length)
      = .ok (.inl (some (pre.length + v.length))) := by
  have hread : readAt (w ++ rest) 0 = .ok x := by
    rw [readAt, ← List.head?_eq_getElem?, hx]
  rw [doubleQuotesStep_quote pre rest h, if_neg hlen, hread]
  simp [hne]

theorem sizeSub_of_le {x y : Nat} (hy : y ≤ x) (hx : x < 2 ^ 64) : sizeSub x y = x - y := by
  have hsub : x + 2 ^ 64 - y = x - y + 2 ^ 64 := by omega
  rw [sizeSub, hsub, Nat.add_mod_right]
  exact Nat.mod_eq_of_lt (by omega)

theorem doubleQuotesStep_pair {v w : List UInt8} (h : quote ∉ v)
    (hlen : (v ++ quote :: quote :: w).length < 2 ^ 64) :
    doubleQuotesStep (pre ++ (v ++ quote :: quote :: w ++ rest)) quote
        (pre.length, (v ++ quote :: quote :: w).length)
      = .ok (.inr ((pre ++ v ++ [quote, quote]).length, w.length)) := by
  have hread : readAt (quote :: w ++ rest) 0 = .ok quote := rfl
  have hsum : (v ++ quote :: quote :: w).length = w.length + (v.length + 2) := by
    simp only [List.length_append, List.length_cons]
    omega
  have hle : v.length + 2 ≤ (v ++ quote :: quote :: w).length := hsum ▸ Nat.le_add_left _ _
  have hne : (v ++ quote :: quote :: w).length ≠ 1 := by omega
  rw [doubleQuotesStep_quote pre rest h, if_neg hne, hread, sizeSub_of_le hle hlen, hsum,
    Nat.add_sub_cancel]
  simp [Nat.add_assoc]

theorem doubleQuotesStep_beyond {v : List UInt8} (h : quote ∉ v) (hv : v ≠ []) :
    doubleQuotesStep (pre ++ (v ++ [quote])) quote (pre.length, (v ++ [quote]).length)
      = .error .bounds := by
  have hne : (v ++ [quote]).length ≠ 1 := by simpa using hv
  have hstep := doubleQuotesStep_quote pre [] (w := []) h
  rw [if_neg hne, List.append_nil] at hstep
  exact hstep

/-- The count that is left is one, and two bytes are taken off it. -/
theorem doubleQuotesStep_wraps {v : List UInt8} (h : quote ∉ v) (hv : v ≠ [])
    (hlen : (v ++ [quote]).length < 2 ^ 64) :
    doubleQuotesStep (pre ++ (v ++ [quote] ++ quote :: rest)) quote
        (pre.length, (v ++ [quote]).length)
      = .ok (.inr (pre.length + v.length + 2, 2 ^ 64 - 1)) := by
  have hpos : 0 < v.length := List.length_pos_of_ne_nil hv
  have hlast : (v ++ [quote]).length = v.length + 1 := List.length_append
  have hread : readAt ([] ++ quote :: rest) 0 = .ok quote := rfl
  have hwrap : sizeSub (v.length + 1) (v.length + 2) = 2 ^ 64 - 1 := by
    unfold sizeSub
    omega
  rw [doubleQuotesStep_quote pre (quote :: rest) h, hlast, if_neg (by omega), hread, hwrap]
  simp

end Step

/-! ## The run over a window -/

/-- The first byte after the window is there, and it is no quote. -/
def ClearAfter (quote : UInt8) (rest : List UInt8) : Prop := ∃ x ∈ rest.head?, x ≠ quote

/-- The states of a run over the window `w`: the part before `s`, and the
`count` bytes from there on. -/
def Scanning (quote : UInt8) (w rest : List UInt8) (st : Nat × Nat) : Prop :=
  ∃ pre v, w = pre ++ v ∧ st = (pre.length, v.length) ∧
    firstUnpaired quote w = (firstUnpaired quote v).map (· + pre.length) ∧
    (OpenEnded quote v → ClearAfter quote rest)

section Run

variable {quote : UInt8} {w rest : List UInt8}

theorem Scanning.start (h : OpenEnded quote w → ClearAfter quote rest) :
    Scanning quote w rest (0, w.length) :=
  ⟨[], w, rfl, rfl, by simp, h⟩

theorem Scanning.remaining {s count : Nat} (h : Scanning quote w rest (s, count)) :
    s + count = w.length := by
  obtain ⟨pre, v, rfl, hst, -, -⟩ := h
  cases hst
  exact List.length_append.symm

theorem Scanning.step (hw : w.length < 2 ^ 64) {st : Nat × Nat} (h : Scanning quote w rest st) :
    (∃ a, doubleQuotesStep (w ++ rest) quote st = .ok (.inl a) ∧ a = firstUnpaired quote w) ∨
      ∃ t, doubleQuotesStep (w ++ rest) quote st = .ok (.inr t) ∧
        Scanning quote w rest t ∧ t.2 < st.2 := by
  obtain ⟨pre, u, rfl, rfl, hscan, hclear⟩ := h
  rw [hscan, List.append_assoc]
  by_cases hq : quote ∈ u
  · obtain ⟨v, t, rfl, hv⟩ := List.eq_append_cons_of_mem hq
    rw [firstUnpaired_append hv] at hscan ⊢
    cases t with
    | nil =>
        refine .inl ⟨some (pre.length + v.length), ?_, by simp [Nat.add_comm]⟩
        cases v with
        | nil => exact doubleQuotesStep_single pre rest
        | cons x v =>
            -- the last byte of a longer part is judged by what comes after the window
            obtain ⟨y, hy, hne⟩ := hclear (.of_notMem hv (List.cons_ne_nil x v))
            exact doubleQuotesStep_ends pre rest hv (by simp) hy hne
    | cons y t =>
        by_cases hy : y = quote
        · subst hy
          have hlen : (v ++ y :: y :: t).length < 2 ^ 64 :=
            (List.length_append ▸ hw).trans_le' (Nat.le_add_left _ _)
          refine .inr ⟨_, doubleQuotesStep_pair pre rest hv hlen,
            ⟨pre ++ v ++ [y, y], t, ?_, rfl, ?_, ?_⟩, ?_⟩
          · simp
          · rw [hscan, firstUnpaired_pair]
            simp [Option.map_map, Function.comp_def, Nat.add_comm, Nat.add_left_comm]
          · exact fun ht => hclear (ht.append_pair hv)
          · simp
            omega
        · have hlen : (v ++ quote :: y :: t).length ≠ 1 := by
            simp only [List.length_append, List.length_cons]
            omega
          refine .inl ⟨some (pre.length + v.length),
            doubleQuotesStep_ends pre rest hv hlen rfl hy, ?_⟩
          simp [firstUnpaired_ends hy, Nat.add_comm]
  · refine .inl ⟨none, doubleQuotesStep_notMem pre rest hq, ?_⟩
    rw [firstUnpaired_of_notMem hq, Option.map_none]

/-- Over a window that ends open the run comes to a part in which there is no
other quote than the last byte. -/
theorem AllDoubled.continues {x : UInt8} (hx : x ≠ quote) (hw : w.length < 2 ^ 64)
    {v : List UInt8} (h : AllDoubled quote v) :
    ∀ pre u win : List UInt8, w = pre ++ win → win = u ++ v ++ [x, quote] → quote ∉ u →
      ∃ pre' u', w = pre' ++ (u' ++ [quote]) ∧ quote ∉ u' ∧ u' ≠ [] ∧
        Continues (doubleQuotesStep (w ++ rest) quote)
          (pre.length, win.length) (pre'.length, (u' ++ [quote]).length) := by
  induction h with
  | nil =>
      intro pre u win hpre hwin hu
      obtain rfl : win = u ++ [x] ++ [quote] := by simpa using hwin
      exact ⟨pre, u ++ [x], hpre, by simp [hu, Ne.symm hx], by simp, .refl⟩
  | @other y v hy _ ih =>
      intro pre u win hpre hwin hu
      have hwin' : win = u ++ [y] ++ v ++ [x, quote] := by simpa using hwin
      exact ih pre (u ++ [y]) win hpre hwin' (by simp [hu, Ne.symm hy])
  | @pair v _ ih =>
      intro pre u win hpre hwin hu
      have hsplit : win = u ++ quote :: quote :: (v ++ [x, quote]) := by simpa using hwin
      subst hsplit
      have hlen : (u ++ quote :: quote :: (v ++ [x, quote])).length < 2 ^ 64 := by
        rw [hpre, List.length_append] at hw
        exact (Nat.le_add_left _ _).trans_lt hw
      have hstep := doubleQuotesStep_pair pre rest hu hlen
      rw [← List.append_assoc pre, ← hpre] at hstep
      obtain ⟨pre', u', hw', hu', hne, hrun⟩ :=
        ih (pre ++ u ++ [quote, quote]) [] _ (by simpa using hpre) rfl List.not_mem_nil
      exact ⟨pre', u', hw', hu', hne, .step hstep hrun⟩

theorem OpenEnded.continues (rest : List UInt8) (h : OpenEnded quote w) (hw : w.length < 2 ^ 64) :
    ∃ pre v, w = pre ++ (v ++ [quote]) ∧ quote ∉ v ∧ v ≠ [] ∧
      Continues (doubleQuotesStep (w ++ rest) quote) (0, w.length)
        (pre.length, (v ++ [quote]).length) := by
  obtain ⟨v, x, hv, hx, hdoubled⟩ := h
  exact hdoubled.continues hx hw [] [] w rfl hv List.not_mem_nil

/-- Of the first `count` bytes `w` the call reports the first unpaired quote,
and its `count` is at any time what is left of them. -/
structure ScansWindow (quote : UInt8) (w rest : List UInt8) : Prop where
  answer : ∀ fuel, w.length < fuel →
    endOfQuotedString fuel (some (w ++ rest)) w.length quote quote
      = .ok (firstUnpaired quote w)
  remaining : ∀ s count,
    Continues (doubleQuotesStep (w ++ rest) quote) (0, w.length) (s, count) → s + count = w.length

theorem scansWindow_of_clear (hw : w.length < 2 ^ 64)
    (h : OpenEnded quote w → ClearAfter quote rest) : ScansWindow quote w rest where
  answer := by
    intro fuel hfuel
    obtain ⟨a, ha, rfl⟩ := loopUntil_ok (I := Scanning quote w rest) (fun st hst => hst.step hw)
      (.start h) hfuel
    simpa [endOfQuotedString, endOfQuotedStringEscapedByDoubleQuotes] using ha
  remaining := by
    intro s count hrun
    exact Scanning.remaining (hrun.inv_of_step (I := Scanning quote w rest)
      (fun st hst => hst.step hw) (.start h))

theorem OpenEnded.clear_of_scansWindow (h : OpenEnded quote w) (hw : w.length < 2 ^ 64)
    (hscans : ScansWindow quote w rest) : ClearAfter quote rest := by
  obtain ⟨pre, v, hsplit, hv, hne, hrun⟩ := h.continues rest hw
  have hlen : (v ++ [quote]).length < 2 ^ 64 := by
    rw [hsplit, List.length_append] at hw
    exact (Nat.le_add_left _ _).trans_lt hw
  cases rest with
  | nil =>
      -- the byte after the quote is outside of the object
      have hfault := doubleQuotesStep_beyond pre hv hne
      rw [← hsplit] at hfault
      have hanswer := hscans.answer (w.length + 1) (Nat.lt_succ_self _)
      rw [List.append_nil] at hanswer hrun
      simp only [endOfQuotedString, ↓reduceIte, endOfQuotedStringEscapedByDoubleQuotes] at hanswer
      exact absurd hanswer (hrun.fault hfault _ _)
  | cons y rest =>
      refine ⟨y, rfl, ?_⟩
      rintro rfl
      have hstep := doubleQuotesStep_wraps pre rest hv hne hlen
      rw [← List.append_assoc pre, ← hsplit] at hstep
      have hleft := hscans.remaining _ _ (hrun.trans (.step hstep .refl))
      omega

end Run

/-- **The scan keeps to its window** whatever comes after it, except where the
window ends open. -/
theorem scansWindow_iff (quote : UInt8) (w : List UInt8) (hw : w.length < 2 ^ 64) :
    (∀ rest, ScansWindow quote w rest) ↔ ¬ OpenEnded quote w := by
  constructor
  · intro h hopen
    obtain ⟨x, hx, -⟩ := hopen.clear_of_scansWindow hw (h [])
    cases hx
  · intro h rest
    exact scansWindow_of_clear hw fun hopen => absurd hopen h

theorem scansWindow_iff_threeQuotes : ScansWindow 34 [34, 34, 34] [34] := by
  refine (scansWindow_iff 34 [34, 34, 34] (by decide)).mpr ?_ [34]
  rintro ⟨v, x, hv, hx, -⟩
  have hlast := congrArg List.reverse hv
  simp at hlast
  exact hx hlast.1.symm

/-- A letter and a quote.  A letter after them gives one answer, a quote
another, and there the count wraps around. -/
theorem scansWindow_letterQuote :
    endOfQuotedString 3 (some ([97, 34] ++ [98])) 2 34 34 = .ok (some 1) ∧
      endOfQuotedString 3 (some ([97, 34] ++ [34])) 2 34 34 ≠ .ok (some 1) ∧
      Continues (doubleQuotesStep ([97, 34] ++ [34]) 34) (0, 2) (3, 2 ^ 64 - 1) ∧
      ¬ ScansWindow 34 [97, 34] [34] := by
  have hrun : Continues (doubleQuotesStep ([97, 34] ++ [34]) 34) (0, 2) (3, 2 ^ 64 - 1) :=
    .step (by decide) .refl
  exact ⟨by decide, by decide, hrun, fun h => absurd (h.remaining _ _ hrun) (by decide)⟩

end Jccl
