/-
# `Jccl.Jstring.Escaped` — the end of a quoted string in which an escape precedes the quotes

An iteration jumps to the next quote and from there goes back over the
escapes that stand before it, but not beyond the place it began at.  What
stands before that place is a quote, which is no escape, or nothing at all;
so no run of escapes is cut short, and the part that is left is scanned as
if it were the whole window.
-/
import Jccl.Jstring.Quoted
import Jccl.Lib.Escaped

namespace Jccl

/-! ## The search for the escapes before a quote -/

section Backward

variable {escape : UInt8} (pre rest : List UInt8)

theorem firstPrecedingNonEscape_plain {u : List UInt8} (h : EndsPlain escape u) :
    firstPrecedingNonEscape (pre ++ (u ++ rest)) escape pre.length (pre.length + u.length)
      = .ok (pre.length + u.length - 1) := by
  rcases List.eq_nil_or_concat u with rfl | ⟨v, x, rfl⟩
  · cases hlen : pre.length with
    | zero => rfl
    | succ n => simp [firstPrecedingNonEscape]
  · rw [List.concat_eq_append] at h ⊢
    have hx : x ≠ escape := h x (by simp)
    have hread : readAt (pre ++ (v ++ [x] ++ rest)) (pre.length + v.length) = .ok x := by
      rw [List.append_assoc v, ← List.append_assoc pre]
      exact readAt_append List.length_append.symm
    have hlen : pre.length + (v ++ [x]).length = pre.length + v.length + 1 := by
      simp [Nat.add_assoc]
    rw [hlen, firstPrecedingNonEscape, if_pos (Nat.le_add_right _ _), hread]
    simp [hx, ← Int.add_assoc]

theorem firstPrecedingNonEscape_run {u : List UInt8} (h : EndsPlain escape u) (n : Nat) :
    firstPrecedingNonEscape (pre ++ (u ++ List.replicate n escape ++ rest)) escape pre.length
        (pre.length + u.length + n)
      = .ok (pre.length + u.length - 1) := by
  induction n generalizing rest with
  | zero => simpa using firstPrecedingNonEscape_plain pre rest h
  | succ n ih =>
      have hsplit : u ++ List.replicate (n + 1) escape ++ rest
          = u ++ List.replicate n escape ++ escape :: rest := by
        simp [List.replicate_succ']
      have hread : readAt (pre ++ (u ++ List.replicate n escape ++ escape :: rest))
          (pre.length + u.length + n) = .ok escape := by
        rw [← List.append_assoc pre]
        exact readAt_append (by simp [Nat.add_assoc])
      have hle : pre.length ≤ pre.length + u.length + n := by omega
      rw [hsplit, ← Nat.add_assoc, firstPrecedingNonEscape, if_pos hle, hread]
      simpa using ih (escape :: rest)

end Backward

/-! ## One iteration -/

section Step

variable {quote escape : UInt8} (pre rest : List UInt8)

theorem escapeStep_notMem {w : List UInt8} (h : quote ∉ w) :
    escapeStep (pre ++ (w ++ rest)) quote escape (pre.length, w.length) = .ok (.inl none) := by
  simp [escapeStep, strnchr_notMem pre rest h]

/-- The iteration that comes upon a quote goes by the number of escapes
before it. -/
theorem escapeStep_run {u t : List UInt8} (he : EndsPlain escape u) (n : Nat)
    (hq : quote ∉ u ++ List.replicate n escape)
    (hlen : (u ++ List.replicate n escape ++ quote :: t).length < 2 ^ 64) :
    escapeStep (pre ++ (u ++ List.replicate n escape ++ quote :: t ++ rest)) quote escape
        (pre.length, (u ++ List.replicate n escape ++ quote :: t).length)
      = .ok (if n % 2 = 0 then .inl (some (pre.length + u.length + n))
        else .inr ((pre ++ (u ++ List.replicate n escape) ++ [quote]).length, t.length)) := by
  have hpos : (u ++ List.replicate n escape ++ quote :: t).length > 0 := by simp
  have hfound := strnchr_append (w := t) pre rest hq
  have hplace : pre.length + (u ++ List.replicate n escape).length
      = pre.length + u.length + n := by
    simp [Nat.add_assoc]
  have hback := firstPrecedingNonEscape_run pre (quote :: t ++ rest) he n
  rw [← List.append_assoc (u ++ List.replicate n escape)] at hback
  have hcount : (((pre.length + u.length + n : Nat) : Int)
      - ((pre.length + u.length : Int) - 1 + 1)).toNat = n := by
    omega
  have hsub : sizeSub (u ++ List.replicate n escape ++ quote :: t).length
      (pre.length + u.length + n + 1 - pre.length) = t.length := by
    have hsum : (u ++ List.replicate n escape ++ quote :: t).length
        = t.length + (pre.length + u.length + n + 1 - pre.length) := by
      simp only [List.length_append, List.length_replicate, List.length_cons]
      omega
    rw [sizeSub_of_le (hsum ▸ Nat.le_add_left _ _) hlen, hsum, Nat.add_sub_cancel]
  rw [hplace] at hfound
  rw [escapeStep, if_pos hpos, hfound]
  simp only [Outcome.ok_bind, hback, hcount, hsub]
  split
  · rfl
  · simp [Nat.add_assoc]

end Step

/-! ## The run over a window -/

/-- The states of a run over the window `w`: what the scan of `w` finds, it
finds in the `count` bytes from `s` on. -/
def ScanningEscaped (quote escape : UInt8) (w : List UInt8) (st : Nat × Nat) : Prop :=
  ∃ pre v, w = pre ++ v ∧ st = (pre.length, v.length) ∧
    firstUnescaped quote escape w = (firstUnescaped quote escape v).map (· + pre.length)

section Run

variable {quote escape : UInt8} {w : List UInt8}

theorem ScanningEscaped.start : ScanningEscaped quote escape w (0, w.length) :=
  ⟨[], w, rfl, rfl, by simp⟩

theorem ScanningEscaped.remaining {s count : Nat}
    (h : ScanningEscaped quote escape w (s, count)) : s + count = w.length := by
  obtain ⟨pre, v, rfl, hst, -⟩ := h
  cases hst
  exact List.length_append.symm

theorem ScanningEscaped.step (hne : quote ≠ escape) (hw : w.length < 2 ^ 64)
    (rest : List UInt8) {st : Nat × Nat} (h : ScanningEscaped quote escape w st) :
    (∃ a, escapeStep (w ++ rest) quote escape st = .ok (.inl a) ∧
        a = firstUnescaped quote escape w) ∨
      ∃ t, escapeStep (w ++ rest) quote escape st = .ok (.inr t) ∧
        ScanningEscaped quote escape w t ∧ t.2 < st.2 := by
  obtain ⟨pre, v, rfl, rfl, hscan⟩ := h
  rw [List.append_assoc]
  by_cases hq : quote ∈ v
  · obtain ⟨v, t, rfl, hv⟩ := List.eq_append_cons_of_mem hq
    obtain ⟨u, n, rfl, hu⟩ := exists_run escape v
    have hlen : (u ++ List.replicate n escape ++ quote :: t).length < 2 ^ 64 := by
      rw [List.length_append] at hw
      exact (Nat.le_add_left _ _).trans_lt hw
    have hrun := firstUnescaped_run hne hu (fun h => hv (by simp [h])) n t
    have hstep := escapeStep_run pre rest hu n hv hlen
    by_cases heven : n % 2 = 0
    · rw [if_pos heven] at hrun hstep
      refine .inl ⟨_, hstep, ?_⟩
      rw [hscan, hrun]
      simp [Nat.add_comm, Nat.add_left_comm]
    · -- the quote is literal, and the scan goes on behind it
      rw [if_neg heven] at hrun hstep
      refine .inr
        ⟨_, hstep, ⟨pre ++ (u ++ List.replicate n escape) ++ [quote], t, ?_, rfl, ?_⟩, ?_⟩
      · simp
      · rw [hscan, hrun, Option.map_map]
        congr 1
        funext k
        simp only [Function.comp_apply, List.length_append, List.length_replicate,
          List.length_singleton]
        omega
      · simp
        omega
  · refine .inl ⟨none, escapeStep_notMem pre rest hq, ?_⟩
    rw [hscan, firstUnescaped_of_notMem hq, Option.map_none]

theorem ScanningEscaped.run (hne : quote ≠ escape) (hw : w.length < 2 ^ 64) {rest : List UInt8}
    {st : Nat × Nat} (h : Continues (escapeStep (w ++ rest) quote escape) (0, w.length) st) :
    ScanningEscaped quote escape w st :=
  h.inv_of_step (I := ScanningEscaped quote escape w) (fun _ hst => hst.step hne hw rest) .start

end Run

/-- The search for the escapes before `nextQuote` goes back to the byte at
`s` and no further, whatever stands before that. -/
def SearchesFrom (escape : UInt8) (mem : List UInt8) (s nextQuote : Nat) : Prop :=
  ∃ r : Int, s ≤ r + 1 ∧ r < nextQuote ∧ ∀ before : List UInt8, before.length = s →
    firstPrecedingNonEscape (before ++ mem.drop s) escape s nextQuote = .ok r

/-- Of the first `count` bytes `w` the call reports the first quote that is
not escaped.  Its `count` is at any time what is left of them, and its search
for escapes keeps to what is left of them. -/
structure ScansEscaped (quote escape : UInt8) (w rest : List UInt8) : Prop where
  answer : ∀ fuel, w.length < fuel →
    endOfQuotedString fuel (some (w ++ rest)) w.length quote escape
      = .ok (firstUnescaped quote escape w)
  remaining : ∀ s count,
    Continues (escapeStep (w ++ rest) quote escape) (0, w.length) (s, count) →
      s + count = w.length
  backward : ∀ s count nextQuote,
    Continues (escapeStep (w ++ rest) quote escape) (0, w.length) (s, count) →
      strnchr (w ++ rest) s count quote = .ok (some nextQuote) →
        SearchesFrom escape (w ++ rest) s nextQuote

theorem ScanningEscaped.searchesFrom {quote escape : UInt8} {w : List UInt8} {s count : Nat}
    (h : ScanningEscaped quote escape w (s, count)) (rest : List UInt8) {nextQuote : Nat}
    (hquote : strnchr (w ++ rest) s count quote = .ok (some nextQuote)) :
    SearchesFrom escape (w ++ rest) s nextQuote := by
  obtain ⟨pre, v, rfl, hst, -⟩ := h
  cases hst
  rw [List.append_assoc] at hquote ⊢
  by_cases hq : quote ∈ v
  · obtain ⟨v, t, rfl, hv⟩ := List.eq_append_cons_of_mem hq
    rw [strnchr_append pre rest hv] at hquote
    cases hquote
    obtain ⟨u, n, rfl, hu⟩ := exists_run escape v
    have hplace : (u ++ List.replicate n escape).length = u.length + n := by simp
    refine ⟨pre.length + u.length - 1, by omega, by omega, ?_⟩
    intro before hbefore
    have hback := firstPrecedingNonEscape_run before (quote :: t ++ rest) hu n
    rw [List.drop_left, hplace, ← hbefore, ← Nat.add_assoc, List.append_assoc _ (quote :: t)]
    exact hback
  · rw [strnchr_notMem pre rest hq] at hquote
    cases hquote

/-- **The jumping scan is the scan from left to right** when the escape is not
the quote itself. -/
theorem scansEscaped {quote escape : UInt8} (hne : quote ≠ escape) (w : List UInt8)
    (hw : w.length < 2 ^ 64) (rest : List UInt8) : ScansEscaped quote escape w rest where
  answer := by
    intro fuel hfuel
    obtain ⟨a, ha, rfl⟩ := loopUntil_ok (I := ScanningEscaped quote escape w)
      (fun st hst => hst.step hne hw rest) .start hfuel
    simpa [endOfQuotedString, hne] using ha
  remaining := by
    intro s count hrun
    exact (ScanningEscaped.run hne hw hrun).remaining
  backward := by
    intro s count nextQuote hrun hquote
    exact (ScanningEscaped.run hne hw hrun).searchesFrom rest hquote

/-- Two escapes and a quote, an escaped quote before them. -/
theorem scansEscaped_backslashes : ScansEscaped 34 92 [92, 34, 92, 92, 34] [34] :=
  @scansEscaped 34 92 (by decide) [92, 34, 92, 92, 34] (by decide) [34]

example : firstUnescaped 34 92 [92, 34, 92, 92, 34] = some 4 := by decide

end Jccl
