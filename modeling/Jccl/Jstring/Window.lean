/-
# `Jccl.Jstring.Window` — `strnstr` finds the first place

The loop moves a window to the right, and the part of it that is left gets
shorter, until the string stands at its beginning or does not fit any more.
Every place it left behind was looked at (`Seeking`).  What is searched is a
window and not a string: a NUL in it does not end the search.
-/
import Jccl.Jstring.Quoted

namespace Jccl

/-- The places in the first `len` bytes of `s1` at which `s2` stands. -/
def Places (s1 s2 : List UInt8) (len : Nat) : Set Nat :=
  {p | p + s2.length ≤ len ∧ OccursAt s1 s2 p}

/-- The first one is returned, if there is any. -/
structure FirstPlace (s1 s2 : List UInt8) (len : Nat) (r : Option Nat) : Prop where
  found : ∀ p, r = some p ↔ IsLeast (Places s1 s2 len) p
  missed : r = none ↔ ∀ p, p ∉ Places s1 s2 len

section Window

variable {s1 s2 : List UInt8} {len : Nat}

theorem firstPlace_none (h : ∀ p, p ∉ Places s1 s2 len) : FirstPlace s1 s2 len none where
  found p := iff_of_false (fun h => by cases h) fun hp => h p hp.1
  missed := iff_of_true rfl h

theorem firstPlace_some {p : Nat} (h : IsLeast (Places s1 s2 len) p) :
    FirstPlace s1 s2 len (some p) where
  found q := by
    constructor
    · intro hq
      cases hq
      exact h
    · exact fun hq => congrArg some (h.unique hq)
  missed := iff_of_false (fun h => by cases h) fun hnone => hnone p h.1

theorem FirstPlace.unique {r r' : Option Nat} (h : FirstPlace s1 s2 len r)
    (h' : FirstPlace s1 s2 len r') : r = r' := by
  cases r with
  | none => exact (h'.missed.mpr (h.missed.mp rfl)).symm
  | some p => exact ((h'.found p).mpr ((h.found p).mp rfl)).symm

/-- Before the window begins at `st.1`. -/
def Seeking (s1 s2 : List UInt8) (len : Nat) (st : Nat × Nat) : Prop :=
  st.1 + st.2 = len ∧ ∀ q < st.1, ¬ OccursAt s1 s2 q

theorem Seeking.step (hnul : 0 ∉ s2) (rest : List UInt8) (hwindow : len ≤ s1.length)
    (hlen : len < 2 ^ 64) {st : Nat × Nat} (h : Seeking s1 s2 len st) :
    (∃ r, strnstrStep s1 (s2 ++ 0 :: rest) s2.length st = .ok (.inl r) ∧
      FirstPlace s1 s2 len r) ∨
    ∃ st', strnstrStep s1 (s2 ++ 0 :: rest) s2.length st = .ok (.inr st') ∧
      Seeking s1 s2 len st' ∧ st'.2 < st.2 := by
  obtain ⟨p, left⟩ := st
  obtain ⟨hsum, hbefore⟩ := h
  dsimp only at hsum hbefore ⊢
  have hleast : ∀ q ∈ Places s1 s2 len, p ≤ q := fun q hq => by
    by_contra hlt
    exact hbefore q (not_le.mp hlt) hq.2
  by_cases hfits : left ≥ s2.length
  · obtain ⟨d, hd, hzero⟩ := strncmp_eq [] rest hnul (by omega : p + s2.length ≤ s1.length)
    have hstep : strnstrStep s1 (s2 ++ 0 :: rest) s2.length (p, left)
        = if d = 0 then .ok (.inl (some p)) else .ok (.inr (p + 1, sizeSub left 1)) := by
      rw [strnstrStep, if_pos hfits]
      show (strncmp s1 ([] ++ (s2 ++ 0 :: rest)) s2.length p ([] : List UInt8).length >>= _) = _
      rw [hd, Outcome.ok_bind]
      rfl
    rw [hstep]
    by_cases hplace : d = 0
    · left
      refine ⟨_, if_pos hplace, firstPlace_some ⟨⟨by omega, hzero.mp hplace⟩, hleast⟩⟩
    · right
      -- a string of no bytes would have been found
      have hpos : 0 < s2.length := by
        refine List.length_pos_iff.mpr ?_
        rintro rfl
        exact hplace (hzero.mpr occursAt_nil)
      have hsub : sizeSub left 1 = left - 1 := by
        unfold sizeSub
        omega
      refine ⟨_, if_neg hplace, ⟨?_, ?_⟩, ?_⟩
      · show p + 1 + sizeSub left 1 = len
        omega
      · intro q hq
        rcases Nat.lt_succ_iff_lt_or_eq.mp hq with hq | rfl
        · exact hbefore q hq
        · exact fun hocc => hplace (hzero.mpr hocc)
      · show sizeSub left 1 < left
        omega
  · left
    have hstep : strnstrStep s1 (s2 ++ 0 :: rest) s2.length (p, left) = .ok (.inl none) :=
      if_neg hfits
    refine ⟨none, hstep, firstPlace_none fun q hq => ?_⟩
    have hle := hleast q hq
    have hend := hq.1
    omega

theorem strnstr_ok (hnul : 0 ∉ s2) (rest : List UInt8) (hwindow : len ≤ s1.length)
    (hlen : len < 2 ^ 64) :
    ∃ r, strnstr (some s1) (some (s2 ++ 0 :: rest)) len = .ok r ∧ FirstPlace s1 s2 len r := by
  have hstart : Seeking s1 s2 len (0, len) :=
    ⟨Nat.zero_add len, fun q hq => absurd hq (Nat.not_lt_zero q)⟩
  obtain ⟨r, hrun, hfirst⟩ := loopUntil_ok (μ := fun st : Nat × Nat => st.2)
    (fun _ h => Seeking.step hnul rest hwindow hlen h) hstart (Nat.lt_succ_self len)
  refine ⟨r, ?_, hfirst⟩
  rw [← hrun, strnstr, strlen_append hnul]
  rfl

/-- A single character is found where `strnchr` finds it. -/
theorem strnchr_firstPlace (c : UInt8) (hwindow : len ≤ s1.length) :
    ∃ r, strnchr s1 0 len c = .ok r ∧ FirstPlace s1 [c] len r := by
  obtain ⟨w, rest, rfl, rfl⟩ : ∃ w rest, s1 = w ++ rest ∧ w.length = len :=
    ⟨s1.take len, s1.drop len, (List.take_append_drop len s1).symm, List.length_take_of_le hwindow⟩
  have hplace : ∀ p, p ∈ Places (w ++ rest) [c] w.length ↔ w[p]? = some c := by
    intro p
    constructor
    · rintro ⟨hp, hocc⟩
      rw [List.length_singleton] at hp
      have happend : (w ++ rest)[p]? = w[p]? := List.getElem?_append_left hp
      rw [← happend]
      exact hocc.getElem? (Nat.zero_lt_one)
    · intro hp
      obtain ⟨hlt, hget⟩ := List.getElem?_eq_some_iff.mp hp
      refine ⟨hlt, ?_⟩
      have hlt' : p < (w ++ rest).length := by
        rw [List.length_append]
        omega
      refine (occursAt_cons hlt').mpr ⟨?_, occursAt_nil⟩
      rw [List.getElem_append_left hlt, hget]
  by_cases hc : c ∈ w
  · obtain ⟨v, t, rfl, hv⟩ := List.eq_append_cons_of_mem hc
    have hrun := strnchr_append (w := t) [] rest hv
    refine ⟨some v.length, hrun.trans (by rw [List.length_nil, Nat.zero_add]), ?_⟩
    refine firstPlace_some ⟨(hplace _).mpr (by simp), fun q hq => ?_⟩
    have hget := (hplace q).mp hq
    by_contra hlt
    rw [List.getElem?_append_left (not_le.mp hlt)] at hget
    exact hv (List.mem_of_getElem? hget)
  · refine ⟨none, strnchr_notMem [] rest hc, firstPlace_none fun q hq => ?_⟩
    exact hc (List.mem_of_getElem? ((hplace q).mp hq))

/-- The bytes behind the window do not matter. -/
theorem places_take : Places (s1.take len) s2 len = Places s1 s2 len := by
  ext p
  refine and_congr_right fun hp => ?_
  rw [OccursAt, OccursAt, List.drop_take, List.prefix_take_iff]
  exact and_iff_left (by omega)

theorem FirstPlace.take {r : Option Nat} (h : FirstPlace (s1.take len) s2 len r) :
    FirstPlace s1 s2 len r := by
  obtain ⟨hfound, hmissed⟩ := h
  rw [places_take] at hfound hmissed
  exact ⟨hfound, hmissed⟩

end Window

/-- **`strnstr` returns the first place** at which the string stands within
the first `len` bytes, and NULL just if there is none.  It needs no byte
behind them, and for a string of one character it is `strnchr`. -/
theorem strnstr_first (s1 : List UInt8) (s2 : CString) (rest : List UInt8) (len : Nat)
    (hwindow : len ≤ s1.length) (hlen : len < 2 ^ 64) :
    ∃ r, strnstr (some s1) (some (s2.bytes ++ 0 :: rest)) len = .ok r ∧
      strnstr (some (s1.take len)) (some (s2.bytes ++ 0 :: rest)) len = .ok r ∧
      FirstPlace s1 s2.bytes len r ∧
      ∀ c, s2.bytes = [c] → strnchr s1 0 len c = .ok r := by
  obtain ⟨r, hrun, hfirst⟩ := strnstr_ok s2.nonul rest hwindow hlen
  have htake : len ≤ (s1.take len).length := (List.length_take_of_le hwindow).ge
  obtain ⟨r', hrun', hfirst'⟩ := strnstr_ok s2.nonul rest htake hlen
  cases hfirst.unique hfirst'.take
  refine ⟨r, hrun, hrun', hfirst, fun c hc => ?_⟩
  obtain ⟨r', hrun', hfirst'⟩ := strnchr_firstPlace c hwindow
  rw [hc] at hfirst
  rw [hfirst.unique hfirst', hrun']

/-- The second `"ab"` is cut off by the window, and the first one stands
behind a NUL. -/
theorem strnstr_first_nul :
    ∃ r, strnstr (some [0, 97, 98, 97, 98]) (some ([97, 98] ++ 0 :: [])) 4 = .ok r ∧
      strnstr (some ([0, 97, 98, 97, 98].take 4)) (some ([97, 98] ++ 0 :: [])) 4 = .ok r ∧
      FirstPlace [0, 97, 98, 97, 98] [97, 98] 4 r ∧
      ∀ c, [97, 98] = [c] → strnchr [0, 97, 98, 97, 98] 0 4 c = .ok r :=
  strnstr_first [0, 97, 98, 97, 98] ⟨[97, 98], by decide⟩ [] 4 (by decide) (by decide)

example : strnstr (some [0, 97, 98, 97, 98]) (some [97, 98, 0]) 4 = .ok (some 1) := by decide

end Jccl
