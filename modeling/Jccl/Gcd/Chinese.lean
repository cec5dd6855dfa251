/-
# `Jccl.Gcd.Chinese` — when `chinese_remainder` solves its system

For moduli without a common factor the construction is right: the cells of
`y` are the inverses nearest to zero, and the remainder of the sum solves the
system.  What goes wrong is a matter of size.  The product, the terms and
every sum on the way have to be of type `long` (`FitsLong`), and the solution is
returned as an `int`.
-/
import Jccl.Gcd.Common
import Jccl.Gcd.Bezout
import Jccl.Lib.Congruences

namespace Jccl

open Finset

/-- The array of the first `n` values. -/
def arrayOf (n : Nat) (f : Nat → Int) : List Int := (List.range n).map f

/-- A system of `n` congruences, of values that a `long` can hold. -/
structure IsSystem (n : Nat) (a m : Nat → Int) : Prop where
  nonempty : 0 < n
  count : n ≤ INT_MAX
  residue : ∀ i < n, a i ≠ 0 ∧ IsLong (a i)
  modulus : ∀ i < n, 0 < m i ∧ IsLong (m i)
  coprime : ∀ i < n, ∀ j < n, i ≠ j → IsCoprime (m i) (m j)

/-- The term of the sum for one congruence. -/
def term (n : Nat) (a m : Nat → Int) (i : Nat) : Int :=
  cofactor (range n) m i * a i * centeredInverse (cofactor (range n) m i) (m i)

/-- Every number that is computed on the way is a `long`. -/
structure FitsLong (n : Nat) (a m : Nat → Int) : Prop where
  product : ∏ i ∈ range n, m i ≤ LONG_MAX
  scaled : ∀ i < n, IsLong (cofactor (range n) m i * a i)
  terms : ∀ i < n, IsLong (term n a m i)
  sums : ∀ k ≤ n, IsLong (∑ i ∈ range k, term n a m i)

section Arrays

variable {n : Nat}

theorem readAt_arrayOf {i : Nat} (hi : i < n) (f : Nat → Int) :
    readAt (arrayOf n f) i = .ok (f i) := by
  simp [readAt, arrayOf, hi]

theorem arrayOf_succ (n : Nat) (f : Nat → Int) :
    arrayOf (n + 1) f = arrayOf n f ++ [f n] := by
  simp [arrayOf, List.range_succ]

end Arrays

theorem IsLong.of_pos {x : Int} (hpos : 0 < x) (h : x ≤ LONG_MAX) : IsLong x := by
  unfold IsLong LONG_MIN
  omega

theorem IsLong.abs_le_max_of_pos {x : Int} (h : IsLong x) (hpos : 0 < x) : |x| ≤ LONG_MAX :=
  (abs_of_pos hpos).trans_le h.2

/-! ## The checks before the allocations -/

section Checks

variable {n : Nat} {a m : Nat → Int}

theorem anyZero_arrayOf (h : ∀ i < n, a i ≠ 0 ∧ m i ≠ 0) :
    ∀ k ≤ n, anyZero (arrayOf n a) (arrayOf n m) k = .ok false := by
  intro k
  induction k with
  | zero => exact fun _ => rfl
  | succ k ih =>
      intro hk
      obtain ⟨ha, hm⟩ := h k hk
      rw [anyZero, ih (Nat.le_of_succ_le hk), Outcome.ok_bind, readAt_arrayOf hk,
        readAt_arrayOf hk]
      simp [ha, hm]

theorem sharesFactor_ok {x : Int} (hx : x ≠ 0 ∧ |x| ≤ LONG_MAX) {l : List Int}
    (hl : ∀ p ∈ l, p ≠ 0 ∧ |p| ≤ LONG_MAX) : ∃ c, sharesFactor x l = .ok c := by
  induction l with
  | nil => exact ⟨false, rfl⟩
  | cons p rest ih =>
      obtain ⟨hp, hrest⟩ := List.forall_mem_cons.mp hl
      obtain ⟨c, hc⟩ := ih hrest
      obtain ⟨g, hg, -⟩ := gcd_ok hx.1 hx.2 hp.1 hp.2
      obtain ⟨coprime, hcoprime⟩ : ∃ c, arecoprime x p = .ok c := ⟨_, arecoprime_ok hg⟩
      rw [sharesFactor, hcoprime, hc, Outcome.ok_bind]
      split
      · exact ⟨true, rfl⟩
      · split
        · exact ⟨true, rfl⟩
        · exact ⟨c, rfl⟩

theorem arecoprimePairwise_ok {l : List Int} (hl : ∀ p ∈ l, p ≠ 0 ∧ |p| ≤ LONG_MAX) :
    ∃ c, arecoprimePairwise l = .ok c := by
  induction l with
  | nil => exact ⟨1, rfl⟩
  | cons x rest ih =>
      obtain ⟨hx, hrest⟩ := List.forall_mem_cons.mp hl
      obtain ⟨c, hc⟩ := ih hrest
      obtain ⟨shares, hshares⟩ := sharesFactor_ok hx hrest
      rw [arecoprimePairwise, hshares, hc]
      cases shares with
      | true => exact ⟨0, rfl⟩
      | false => exact ⟨c, rfl⟩

end Checks

/-! ## The loops -/

section Loops

variable {n : Nat} {a m : Nat → Int}

/-- The product is computed if and only if it is a `long`, since no partial
product is larger. -/
theorem moduliProduct_eq_ok (hm : ∀ i < n, 0 < m i) {x : Int} :
    moduliProduct (arrayOf n m) n = .ok x ↔
      x = ∏ i ∈ range n, m i ∧ ∏ i ∈ range n, m i ≤ LONG_MAX := by
  constructor
  · intro h
    refine forLoop_inv (I := fun k x => x = ∏ i ∈ range k, m i ∧ ∏ i ∈ range k, m i ≤ LONG_MAX)
      h ⟨rfl, show 1 ≤ LONG_MAX by decide⟩ ?_
    rintro k x y hk ⟨rfl, -⟩ hstep
    rw [readAt_arrayOf hk, Outcome.ok_bind, longMul, checkLong_eq_ok, ← prod_range_succ] at hstep
    exact ⟨hstep.1.symm, hstep.2.2⟩
  · rintro ⟨rfl, hmax⟩
    have hpos : ∀ k ≤ n, 0 < ∏ i ∈ range k, m i := fun k hk =>
      prod_pos fun i hi => hm i ((mem_range.mp hi).trans_le hk)
    have hle : ∀ k ≤ n, ∏ i ∈ range k, m i ≤ LONG_MAX := by
      intro k hk
      refine le_trans (Int.le_of_dvd (hpos n le_rfl) ?_) hmax
      exact prod_dvd_prod_of_subset _ _ _ (range_mono hk)
    refine forLoop_trace (g := fun k => ∏ i ∈ range k, m i) fun k hk => ?_
    have hlong := IsLong.of_pos (hpos (k + 1) hk) (hle (k + 1) hk)
    rw [prod_range_succ] at hlong ⊢
    rw [readAt_arrayOf hk, Outcome.ok_bind, longMul, checkLong_of hlong]

theorem prod_range_pos (hm : ∀ i < n, 0 < m i) : 0 < ∏ i ∈ range n, m i :=
  prod_pos fun i hi => hm i (mem_range.mp hi)

theorem cofactors_ok (hm : ∀ i < n, 0 < m i) (hmax : ∏ i ∈ range n, m i ≤ LONG_MAX) :
    cofactors (arrayOf n m) (∏ i ∈ range n, m i) n
      = .ok (arrayOf n (cofactor (range n) m)) := by
  refine forLoop_trace (g := fun k => arrayOf k (cofactor (range n) m)) fun k hk => ?_
  have hmk := hm k hk
  have hdiv := longDiv_of_abs_le ((abs_of_pos (prod_range_pos hm)).trans_le hmax) hmk.ne'
  have hquot : (∏ i ∈ range n, m i).tdiv (m k) = cofactor (range n) m k := by
    rw [← mul_cofactor (mem_range.mpr hk), Int.mul_tdiv_cancel_left _ hmk.ne']
  rw [readAt_arrayOf hk, Outcome.ok_bind, hdiv, hquot, arrayOf_succ]
  rfl

/-- `extended_gcd` has a value for the product of the others and a modulus. -/
theorem extendedGcd_cofactor (hm : ∀ i < n, 0 < m i) (hmax : ∏ i ∈ range n, m i ≤ LONG_MAX)
    {k : Nat} (hk : k < n) :
    ∃ g s t, extendedGcd (cofactor (range n) m k) (m k) = .ok (g, s, t) ∧
      Bezout (cofactor (range n) m k) (m k) g s t ∧ Centered (m k) s := by
  have hprod := prod_range_pos hm
  have hmk := hm k hk
  have hpos : 0 < cofactor (range n) m k := cofactor_pos (fun i hi => hm i (mem_range.mp hi)) k
  have hmul := mul_cofactor (m := m) (mem_range.mpr hk)
  have hle : cofactor (range n) m k ≤ LONG_MAX :=
    le_trans (Int.le_of_dvd hprod (Dvd.intro_left _ hmul)) hmax
  have hmkle : m k ≤ LONG_MAX := le_trans (Int.le_of_dvd hprod (Dvd.intro _ hmul)) hmax
  obtain ⟨g, s, t, hrun, hbezout, hcentered⟩ := extendedGcd_ok hpos.ne'
    ((abs_of_pos hpos).trans_le hle) hmk.ne' ((abs_of_pos hmk).trans_le hmkle)
  exact ⟨g, s, t, hrun, hbezout, hcentered hpos hmk⟩

theorem inverses_ok (hm : CoprimeModuli (range n) m) (hmax : ∏ i ∈ range n, m i ≤ LONG_MAX) :
    inverses (arrayOf n m) (arrayOf n (cofactor (range n) m)) n
      = .ok (some (arrayOf n fun i => centeredInverse (cofactor (range n) m i) (m i))) := by
  refine forLoop_trace (g := fun k =>
    some (arrayOf k fun i => centeredInverse (cofactor (range n) m i) (m i))) fun k hk => ?_
  have hcoprime := hm.isCoprime_cofactor (mem_range.mpr hk)
  obtain ⟨g, s, t, hrun, hbezout, hcentered⟩ :=
    extendedGcd_cofactor (fun i hi => hm.pos i (mem_range.mpr hi)) hmax hk
  have hg : g = 1 := hbezout.isGcd.eq_one_of_isCoprime hcoprime
  have hs : s = centeredInverse (cofactor (range n) m k) (m k) := by
    refine eq_centeredInverse hcoprime hcentered ?_
    rw [← hg, ← hbezout.combination, mul_comm s]
    simp [Int.ModEq]
  rw [readAt_arrayOf hk, readAt_arrayOf hk]
  simp only [Outcome.ok_bind, hrun, hg, hs, arrayOf_succ]
  rfl

/-- The sum is computed if and only if the terms and all partial sums are of
type `long`. -/
theorem sumOfTerms_eq_ok {x : Int} :
    sumOfTerms (arrayOf n a) (arrayOf n (cofactor (range n) m))
        (arrayOf n fun i => centeredInverse (cofactor (range n) m i) (m i)) n = .ok x ↔
      x = ∑ i ∈ range n, term n a m i ∧
        (∀ i < n, IsLong (cofactor (range n) m i * a i) ∧ IsLong (term n a m i)) ∧
        ∀ k ≤ n, IsLong (∑ i ∈ range k, term n a m i) := by
  constructor
  · intro h
    refine forLoop_inv (I := fun k x => x = ∑ i ∈ range k, term n a m i ∧
      (∀ i < k, IsLong (cofactor (range n) m i * a i) ∧ IsLong (term n a m i)) ∧
        ∀ j ≤ k, IsLong (∑ i ∈ range j, term n a m i)) h ⟨rfl, ?_, ?_⟩ ?_
    · exact fun i hi => absurd hi (Nat.not_lt_zero i)
    · intro j hj
      obtain rfl := Nat.le_zero.mp hj
      show IsLong 0
      decide
    · rintro k x y hk ⟨rfl, hterms, hsums⟩ hstep
      rw [readAt_arrayOf hk, readAt_arrayOf hk, readAt_arrayOf hk] at hstep
      simp only [Outcome.ok_bind, longMul, longAdd, Outcome.bind_eq_ok, checkLong_eq_ok] at hstep
      obtain ⟨_, ⟨rfl, hscaled⟩, _, ⟨rfl, hterm⟩, rfl, hsum⟩ := hstep
      refine ⟨(sum_range_succ _ k).symm, Nat.forall_lt_succ_right.mpr ⟨hterms, hscaled, hterm⟩, ?_⟩
      intro j hj
      rcases Nat.le_succ_iff.mp hj with hle | rfl
      · exact hsums j hle
      · rw [sum_range_succ]
        exact hsum
  · rintro ⟨rfl, hterms, hsums⟩
    refine forLoop_trace (g := fun k => ∑ i ∈ range k, term n a m i) fun k hk => ?_
    obtain ⟨hscaled, hterm⟩ := hterms k hk
    have hsum := hsums (k + 1) hk
    rw [sum_range_succ] at hsum ⊢
    have hcheck : checkLong (cofactor (range n) m k * a k
        * centeredInverse (cofactor (range n) m k) (m k)) = .ok (term n a m k) :=
      checkLong_of hterm
    rw [readAt_arrayOf hk, readAt_arrayOf hk, readAt_arrayOf hk]
    simp only [Outcome.ok_bind, longMul, longAdd, checkLong_of hscaled, hcheck,
      checkLong_of hsum]

/-- The remainder of the sum is made positive. -/
theorem positiveRemainder_ok {x y : Int} (hx : IsLong x) (hpos : 0 < y) (hy : IsLong y) :
    (do
      let res ← longMod x y
      if res < 0 then longAdd res y else return res) = .ok (x % y) := by
  have hmod : x.tmod y = if 0 ≤ x ∨ y ∣ x then x % y else x % y - y := by
    rw [Int.tmod_eq_emod]
    split <;> omega
  have hnonneg := Int.emod_nonneg x hpos.ne'
  have hlt := Int.emod_lt_of_pos x hpos
  rw [longMod_of_pos hx hpos, Outcome.ok_bind, hmod]
  split
  · rw [if_neg hnonneg.not_gt]
    rfl
  · have hlong : IsLong (x % y) := .of_abs_le (by
      rw [abs_of_nonneg hnonneg]
      exact hlt.le.trans hy.2)
    rw [if_pos (by omega), longAdd, Int.sub_add_cancel, checkLong_of hlong]

end Loops

/-! ## The call -/

section Call

variable {n : Nat} {a m : Nat → Int}

theorem IsSystem.coprimeModuli (h : IsSystem n a m) : CoprimeModuli (range n) m where
  pos i hi := (h.modulus i (mem_range.mp hi)).1
  coprime i hi j hj hne := h.coprime i (mem_range.mp hi) j (mem_range.mp hj) hne

/-- What is computed for `res`: the least solution that is not negative. -/
theorem IsSystem.solves (h : IsSystem n a m) :
    Solves (range n) a m ((∑ i ∈ range n, term n a m i) % ∏ i ∈ range n, m i) :=
  h.coprimeModuli.solves fun _ hi =>
    mul_centeredInverse (h.coprimeModuli.isCoprime_cofactor hi)

theorem solveCongruences_eq_ok (h : IsSystem n a m) {x : Int} :
    solveCongruences (arrayOf n a) (arrayOf n m) n = .ok x ↔
      FitsLong n a m ∧ x = (∑ i ∈ range n, term n a m i) % ∏ i ∈ range n, m i := by
  have hm := h.coprimeModuli
  have hpos : ∀ i < n, 0 < m i := fun i hi => (h.modulus i hi).1
  -- with a product of type `long` the two loops after it have no fault
  have hloops : ∏ i ∈ range n, m i ≤ LONG_MAX →
      solveCongruences (arrayOf n a) (arrayOf n m) n =
        sumOfTerms (arrayOf n a) (arrayOf n (cofactor (range n) m))
          (arrayOf n fun i => centeredInverse (cofactor (range n) m i) (m i)) n >>= fun sum => do
            let res ← longMod sum (∏ i ∈ range n, m i)
            if res < 0 then longAdd res (∏ i ∈ range n, m i) else return res := by
    intro hmax
    rw [solveCongruences, (moduliProduct_eq_ok hpos).mpr ⟨rfl, hmax⟩, Outcome.ok_bind,
      cofactors_ok hpos hmax, Outcome.ok_bind, inverses_ok hm hmax, Outcome.ok_bind]
  constructor
  · intro hrun
    obtain ⟨sm, hsm, -⟩ := Outcome.bind_eq_ok.mp hrun
    have hmax := ((moduliProduct_eq_ok hpos).mp hsm).2
    rw [hloops hmax] at hrun
    obtain ⟨sum, hsum, hrun⟩ := Outcome.bind_eq_ok.mp hrun
    obtain ⟨rfl, hterms, hsums⟩ := sumOfTerms_eq_ok.mp hsum
    rw [positiveRemainder_ok (hsums n le_rfl) hm.prod_pos (.of_pos hm.prod_pos hmax)] at hrun
    cases hrun
    exact ⟨⟨hmax, fun i hi => (hterms i hi).1, fun i hi => (hterms i hi).2, hsums⟩, rfl⟩
  · rintro ⟨hfits, rfl⟩
    have hsum := sumOfTerms_eq_ok.mpr
      ⟨rfl, fun i hi => ⟨hfits.scaled i hi, hfits.terms i hi⟩, hfits.sums⟩
    rw [hloops hfits.product, hsum, Outcome.ok_bind, positiveRemainder_ok (hfits.sums n le_rfl)
      hm.prod_pos (.of_pos hm.prod_pos hfits.product)]

variable (n a m) in
/-- The value returned for a system, when every allocation succeeds. -/
def Returns (r : Int) : Prop :=
  (chineseRemainder (some (arrayOf n a)) (some (arrayOf n m)) n).run [] = .ok (r, [])

/-- A call with values that are not zero goes on to the allocations. -/
theorem chineseRemainder_run (hn : 0 < n) (ha : ∀ i < n, a i ≠ 0)
    (hm : ∀ i < n, m i ≠ 0 ∧ |m i| ≤ LONG_MAX) :
    (chineseRemainder (some (arrayOf n a)) (some (arrayOf n m)) n).run []
      = solveCongruences (arrayOf n a) (arrayOf n m) n >>= fun x => .ok (longToInt x, []) := by
  have hzero : ∀ i < n, a i ≠ 0 ∧ m i ≠ 0 := fun i hi => ⟨ha i hi, (hm i hi).1⟩
  have hcount : ¬ (n : Int) < 1 := by omega
  obtain ⟨c, hc⟩ := arecoprimePairwise_ok (l := (arrayOf n m).take n) (by
    intro p hp
    obtain ⟨i, hi, rfl⟩ := List.mem_map.mp (List.mem_of_mem_take hp)
    exact hm i (List.mem_range.mp hi))
  rw [chineseRemainder]
  simp only [hcount, if_false, Int.toNat_natCast, anyZero_arrayOf hzero n le_rfl, hc]
  rw [AllocM.run_lift_bind, Outcome.ok_bind, if_neg Bool.false_ne_true, AllocM.run_lift_bind,
    Outcome.ok_bind, StateT.run_bind, allocates_run, Outcome.ok_bind, granted_nil, if_pos rfl,
    StateT.run_bind, List.tail_nil, allocates_run, Outcome.ok_bind, granted_nil, if_pos rfl,
    AllocM.run_lift_bind]
  rfl

theorem returns_solve_iff (h : IsSystem n a m) {r : Int} :
    Returns n a m r ↔
      ∃ x, solveCongruences (arrayOf n a) (arrayOf n m) n = .ok x ∧ r = longToInt x := by
  have hrun := chineseRemainder_run h.nonempty (fun i hi => (h.residue i hi).1) fun i hi =>
    have hpos := (h.modulus i hi).1
    ⟨hpos.ne', (h.modulus i hi).2.abs_le_max_of_pos hpos⟩
  rw [Returns, hrun, Outcome.bind_eq_ok]
  simp [eq_comm]

theorem returns_fits_iff (h : IsSystem n a m) {r : Int} :
    Returns n a m r ↔ FitsLong n a m ∧ ∃ x, Solves (range n) a m x ∧ r = longToInt x := by
  rw [returns_solve_iff h]
  constructor
  · rintro ⟨x, hx, rfl⟩
    obtain ⟨hfits, rfl⟩ := (solveCongruences_eq_ok h).mp hx
    exact ⟨hfits, _, h.solves, rfl⟩
  · rintro ⟨hfits, x, hx, rfl⟩
    exact ⟨x, (solveCongruences_eq_ok h).mpr ⟨hfits, hx.unique h.coprimeModuli h.solves⟩, rfl⟩

end Call

/-! ## When it is right -/

/-- What is returned is a negative error or the solution of the system. -/
def ErrorOrSolution (n : Nat) (a m : Nat → Int) : Prop :=
  ∃ r, Returns n a m r ∧ (r < 0 ∨ Solves (range n) a m r)

/-- A solution that is an `int` is returned as it is. -/
theorem Solves.longToInt {n : Nat} {a m : Nat → Int} {x : Int} (h : Solves (range n) a m x)
    (hmax : x ≤ INT_MAX) : longToInt x = x :=
  longToInt_of ⟨le_trans (by decide) h.nonneg, hmax⟩

/-- **When `chinese_remainder` is right**: the numbers on the way are of type
`long`, and the solution is an `int`, or looks like an error when it is made
one. -/
theorem chineseRemainder_iff (n : Nat) (a m : Nat → Int) (h : IsSystem n a m) :
    (ErrorOrSolution n a m ↔
      FitsLong n a m ∧ ∃ x, Solves (range n) a m x ∧ (x ≤ INT_MAX ∨ longToInt x < 0)) ∧
    ((∃ x, Returns n a m x ∧ Solves (range n) a m x) ↔
      FitsLong n a m ∧ ∃ x, Solves (range n) a m x ∧ x ≤ INT_MAX) := by
  -- a number that is returned and solves the system is the solution itself
  have hsame : ∀ x, Solves (range n) a m x → Solves (range n) a m (longToInt x) →
      x ≤ INT_MAX := by
    intro x hx hr
    rw [hx.unique h.coprimeModuli hr]
    exact (longToInt_bounds x).2
  refine ⟨⟨?_, ?_⟩, ⟨?_, ?_⟩⟩
  · rintro ⟨r, hr, hresult⟩
    obtain ⟨hfits, x, hx, rfl⟩ := (returns_fits_iff h).mp hr
    refine ⟨hfits, x, hx, ?_⟩
    rcases hresult with hneg | hsolves
    · exact .inr hneg
    · exact .inl (hsame x hx hsolves)
  · rintro ⟨hfits, x, hx, hsize⟩
    refine ⟨longToInt x, (returns_fits_iff h).mpr ⟨hfits, x, hx, rfl⟩, ?_⟩
    rcases hsize with hmax | hneg
    · exact .inr ((hx.longToInt hmax).symm ▸ hx)
    · exact .inl hneg
  · rintro ⟨r, hr, hsolves⟩
    obtain ⟨hfits, x, hx, rfl⟩ := (returns_fits_iff h).mp hr
    exact ⟨hfits, x, hx, hsame x hx hsolves⟩
  · rintro ⟨hfits, x, hx, hmax⟩
    exact ⟨x, (returns_fits_iff h).mpr ⟨hfits, x, hx, (hx.longToInt hmax).symm⟩, hx⟩

/-- The congruences of one, two, three and four modulo 2, 3, 5 and 11. -/
theorem isSystem_four : IsSystem 4 (fun i => i + 1) (fun i => [2, 3, 5, 11].getD i 0) where
  nonempty := by decide
  count := by decide
  residue := by decide
  modulus := by decide
  coprime := by
    simp only [Int.isCoprime_iff_gcd_eq_one]
    decide

theorem chineseRemainder_iff_four :
    FitsLong 4 (fun i => i + 1) (fun i => [2, 3, 5, 11].getD i 0) ∧
      ∃ x, Solves (range 4) (fun i => i + 1) (fun i => [2, 3, 5, 11].getD i 0) x ∧
        x ≤ INT_MAX := by
  refine (chineseRemainder_iff 4 (fun i => i + 1) (fun i => [2, 3, 5, 11].getD i 0)
    isSystem_four).2.mp ⟨323, ?_, ?_⟩
  · unfold Returns
    decide
  · exact ⟨by decide, by decide, by decide⟩

/-- One congruence, and a residue that no `int` holds. -/
theorem chineseRemainder_truncated :
    Returns 1 (fun _ => 5000000000) (fun _ => 6000000000) 705032704 ∧
      ¬ ErrorOrSolution 1 (fun _ => 5000000000) (fun _ => 6000000000) := by
  have hrun : Returns 1 (fun _ => 5000000000) (fun _ => 6000000000) 705032704 := by
    unfold Returns
    decide
  refine ⟨hrun, ?_⟩
  rintro ⟨r, hr, hresult⟩
  have hvalue : (705032704 : Int) = r := (Prod.mk.inj (Except.ok.inj (hrun.symm.trans hr))).1
  subst hvalue
  rcases hresult with hneg | hsolves
  · exact absurd hneg (by decide)
  · have hcongr := hsolves.congr 0 (mem_range.mpr Nat.one_pos)
    exact absurd hcongr (by decide)

end Jccl
