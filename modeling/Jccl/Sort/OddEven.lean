/-
# `Jccl.Sort.OddEven` — `sort_odd_even` puts the odd numbers first

Before the second loop comes to an element, the ones before it stand in two
groups, the odd ones in the order of the array and then the even ones
(`Parted`), and `first_even` points behind the first group.  It is set by
then: the first loop ends at the first even number, or at the end of the
array, where there is nothing left to be done.  That number is the first one
that the second loop meets, and it is the beginning of the second group.
-/
import Jccl.Lib.Partition
import Jccl.Sort.Swap

namespace Jccl

/-- The bytes of an array of `int`s. -/
def memoryOf (xs : List Int32) : Memory := xs.flatMap intBytes

def isOdd (x : Int32) : Bool := decide (x.toInt % 2 = 1)

/-! ## Elements -/

section Elements

variable {xs ys : List Int32} {x : Int32}

theorem intBytes_length (x : Int32) : (intBytes x).length = 4 := rfl

theorem memoryOf_append (xs ys : List Int32) : memoryOf (xs ++ ys) = memoryOf xs ++ memoryOf ys :=
  List.flatMap_append

theorem memoryOf_cons (x : Int32) (xs : List Int32) :
    memoryOf (x :: xs) = intBytes x ++ memoryOf xs := List.flatMap_cons

theorem memoryOf_length (xs : List Int32) : (memoryOf xs).length = 4 * xs.length := by
  induction xs with
  | nil => rfl
  | cons x xs ih =>
      rw [memoryOf_cons, List.length_append, intBytes_length, ih, List.length_cons, Nat.mul_succ,
        Nat.add_comm]

theorem ofDigits_intBytes (x : Int32) :
    Nat.ofDigits 256 ((intBytes x).map UInt8.toNat) = x.toBitVec.toNat := by
  have hlt := x.toBitVec.isLt
  simp only [intBytes, List.map_cons, List.map_nil, UInt8.toNat_ofNat', Nat.ofDigits_cons,
    Nat.ofDigits_nil]
  omega

/-- An element is read. -/
theorem loadInt_memoryOf {p : Nat} (hp : p = 4 * xs.length) (x : Int32) (r : Memory) :
    loadInt (memoryOf xs ++ intBytes x ++ r) p = .ok x := by
  have hlen : p = (memoryOf xs).length := hp.trans (memoryOf_length xs).symm
  have hle : p + 4 ≤ (memoryOf xs ++ intBytes x ++ r).length := by
    rw [List.length_append, List.length_append, intBytes_length, hlen]
    exact Nat.le_add_right _ _
  rw [loadInt, if_pos hle, List.append_assoc, hlen, List.drop_left,
    List.take_left' (intBytes_length x)]
  simp only [ofDigits_intBytes, BitVec.ofNat_toNat]
  rfl

theorem ODD_eq_zero_iff (x : Int32) : ODD x = 0 ↔ isOdd x = false := by
  have hparity : (x.toBitVec &&& 1#32).toNat = x.toBitVec.toNat % 2 := by
    rw [BitVec.toNat_and]
    exact Nat.and_one_is_mod _
  have hbit : ODD x = 0 ↔ x.toBitVec.toNat % 2 = 0 := by
    rw [ODD, ← Int32.toBitVec_inj, Int32.toBitVec_and, ← BitVec.toNat_inj, ← hparity]
    rfl
  rw [hbit, isOdd, decide_eq_false_iff_not, Int32.toInt, BitVec.toInt_eq_toNat_cond]
  split <;> omega

theorem ODD_ne_zero_iff (x : Int32) : ODD x ≠ 0 ↔ isOdd x = true := by
  rw [Ne, ODD_eq_zero_iff, Bool.not_eq_false]

/-- Two elements are exchanged. -/
theorem swap_memoryOf {ls ms : List Int32} {y : Int32} {p q : Nat} (hp : p = 4 * ls.length)
    (hq : q = 4 * (ls ++ y :: ms).length) (r : Memory) :
    swap (memoryOf (ls ++ y :: ms) ++ intBytes x ++ r) p q 4
      = .ok (memoryOf (ls ++ x :: ms) ++ intBytes y ++ r) := by
  have hmem : ∀ y x, memoryOf (ls ++ y :: ms) ++ intBytes x ++ r
      = memoryOf ls ++ intBytes y ++ memoryOf ms ++ intBytes x ++ r := by
    intro y x
    simp only [memoryOf_append, memoryOf_cons, List.append_assoc]
  rw [hmem, hmem]
  refine swap_append (by decide) (intBytes_length y) (intBytes_length x)
    (hp.trans (memoryOf_length ls).symm) ?_
  rw [hq, memoryOf_length, memoryOf_length, List.length_append, List.length_cons]
  omega

end Elements

/-! ## The first even number -/

section Locate

variable {ints : List Int32} {rest : Memory}

/-- Before element `i`: those before it are odd. -/
def Locating (ints : List Int32) (i : Nat) : Prop :=
  ∃ odds unseen, ints = odds ++ unseen ∧ i = odds.length ∧ ∀ x ∈ odds, isOdd x = true

/-- Where the first loop ends. -/
def Located (ints : List Int32) (r : Nat × Option Nat) : Prop :=
  ∃ odds unseen, ints = odds ++ unseen ∧ r.1 = odds.length ∧ (∀ x ∈ odds, isOdd x = true) ∧
    (unseen ≠ [] → r.2 = some (4 * odds.length)) ∧ ∀ x ∈ unseen.head?, isOdd x = false

theorem Locating.step {i : Nat} (h : Locating ints i) :
    (∃ r, locateEvenStep (memoryOf ints ++ rest) ints.length i = .ok (.inl r) ∧ Located ints r) ∨
      ∃ j, locateEvenStep (memoryOf ints ++ rest) ints.length i = .ok (.inr j) ∧
        Locating ints j ∧ ints.length - j < ints.length - i := by
  obtain ⟨odds, unseen, rfl, rfl, hodds⟩ := h
  cases unseen with
  | nil =>
      left
      rw [List.append_nil, locateEvenStep, if_neg (lt_irrefl _)]
      exact ⟨_, rfl, odds, [], (List.append_nil _).symm, rfl, hodds, nofun, nofun⟩
  | cons x unseen =>
      have hlt : (odds.length : Int) < (odds ++ x :: unseen).length := by
        rw [List.length_append, List.length_cons]
        omega
      have hmem : memoryOf (odds ++ x :: unseen) ++ rest
          = memoryOf odds ++ intBytes x ++ (memoryOf unseen ++ rest) := by
        simp only [memoryOf_append, memoryOf_cons, List.append_assoc]
      rw [locateEvenStep, if_pos hlt, hmem, loadInt_memoryOf rfl, Outcome.ok_bind]
      by_cases hx : ODD x = 0
      · left
        rw [if_pos hx]
        refine ⟨_, rfl, odds, x :: unseen, rfl, rfl, hodds, fun _ => rfl, ?_⟩
        rintro y ⟨⟩
        exact (ODD_eq_zero_iff x).mp hx
      · right
        rw [if_neg hx]
        refine ⟨_, rfl, ⟨odds ++ [x], unseen, by simp, by simp, ?_⟩, ?_⟩
        · intro y hy
          rcases List.mem_append.mp hy with hy | hy
          · exact hodds y hy
          · rw [List.mem_singleton.mp hy]
            exact (ODD_ne_zero_iff x).mp hx
        · rw [List.length_append, List.length_cons]
          omega

end Locate

/-! ## Moving the odd numbers -/

/-- Before the second loop comes to an element. -/
structure Moving (rest : Memory) (seen left right unseen : List Int32) (st : OddEvenState) :
    Prop where
  parted : Parted isOdd seen left right
  mem : st.mem = memoryOf (left ++ right) ++ (memoryOf unseen ++ rest)
  i : st.i = seen.length
  firstEven : unseen ≠ [] → st.firstEven = some (4 * left.length)
  next : right = [] → ∀ x ∈ unseen.head?, isOdd x = false

section Move

variable {rest : Memory} {seen left right unseen : List Int32} {st : OddEvenState} {x : Int32}

theorem Moving.load (h : Moving rest seen left right (x :: unseen) st) :
    loadInt st.mem (4 * st.i) = .ok x := by
  rw [h.mem, memoryOf_cons, List.append_assoc, ← List.append_assoc]
  exact loadInt_memoryOf (by rw [h.i, h.parted.perm.length_eq]) x _

theorem Moving.goes (h : Moving rest seen left right (x :: unseen) st) :
    (st.i : Int) < (seen ++ x :: unseen).length := by
  rw [h.i, List.length_append, List.length_cons]
  omega

/-- An even number joins the second group. -/
theorem Moving.even (h : Moving rest seen left right (x :: unseen) st) (hx : isOdd x = false) :
    ∃ st', moveOddStep (seen ++ x :: unseen).length st = .ok (.inr st') ∧
      Moving rest (seen ++ [x]) left (right ++ [x]) unseen st' := by
  have hodd : ¬ ODD x ≠ 0 := not_not.mpr ((ODD_eq_zero_iff x).mpr hx)
  rw [moveOddStep, if_pos h.goes, h.load, Outcome.ok_bind, if_neg hodd]
  refine ⟨_, rfl, h.parted.join hx, ?_, ?_, fun _ => h.firstEven nofun, ?_⟩
  · show st.mem = _
    rw [h.mem, memoryOf_cons, ← List.append_assoc left, memoryOf_append (left ++ right)]
    simp only [memoryOf_cons, List.append_assoc]
    rfl
  · show st.i + 1 = _
    rw [h.i, List.length_append, List.length_singleton]
  · exact fun hnil => absurd hnil (List.append_ne_nil_of_right_ne_nil _ (List.cons_ne_nil x []))

/-- An odd number is exchanged with the first one of the second group. -/
theorem Moving.odd {y : Int32} (h : Moving rest seen left (y :: right) (x :: unseen) st)
    (hx : isOdd x = true) :
    ∃ st', moveOddStep (seen ++ x :: unseen).length st = .ok (.inr st') ∧
      Moving rest (seen ++ [x]) (left ++ [x]) (right ++ [y]) unseen st' := by
  have hodd : ODD x ≠ 0 := (ODD_ne_zero_iff x).mpr hx
  have hlen : 4 * st.i = 4 * (left ++ y :: right).length := by rw [h.i, h.parted.perm.length_eq]
  have hmem : st.mem
      = memoryOf (left ++ y :: right) ++ intBytes x ++ (memoryOf unseen ++ rest) := by
    rw [h.mem, memoryOf_cons, List.append_assoc, List.append_assoc]
  have hswap : swap (memoryOf (left ++ y :: right) ++ intBytes x ++ (memoryOf unseen ++ rest))
      (4 * left.length) (4 * st.i) 4
        = .ok (memoryOf (left ++ x :: right) ++ intBytes y ++ (memoryOf unseen ++ rest)) :=
    swap_memoryOf rfl hlen _
  rw [moveOddStep, if_pos h.goes, h.load, Outcome.ok_bind, if_pos hodd, h.firstEven nofun]
  simp only [hmem, hswap, Outcome.ok_bind]
  refine ⟨_, rfl, h.parted.exchange hx, ?_, ?_, fun _ => ?_, ?_⟩
  · simp only [memoryOf_append, memoryOf_cons, List.append_assoc]
    rfl
  · show st.i + 1 = _
    rw [h.i, List.length_append, List.length_singleton]
  · rw [List.length_append, List.length_singleton, Nat.mul_succ]
  · exact fun hnil => absurd hnil (List.append_ne_nil_of_right_ne_nil _ (List.cons_ne_nil y []))

end Move

/-! ## The run -/

section Run

variable {ints : List Int32} {rest : Memory} {st : OddEvenState}

/-- The states of the second loop. -/
def MovingThrough (ints : List Int32) (rest : Memory) (st : OddEvenState) : Prop :=
  ∃ seen left right unseen, ints = seen ++ unseen ∧ Moving rest seen left right unseen st

theorem MovingThrough.step (h : MovingThrough ints rest st) :
    (∃ mem, moveOddStep ints.length st = .ok (.inl mem) ∧
      ∃ left right, mem = memoryOf (left ++ right) ++ rest ∧ Parted isOdd ints left right) ∨
    ∃ st', moveOddStep ints.length st = .ok (.inr st') ∧ MovingThrough ints rest st' ∧
      ints.length - st'.i < ints.length - st.i := by
  obtain ⟨seen, left, right, unseen, rfl, h⟩ := h
  cases unseen with
  | nil =>
      left
      have hstop : ¬ (st.i : Int) < (seen ++ []).length := by
        rw [h.i, List.append_nil]
        exact lt_irrefl _
      rw [moveOddStep, if_neg hstop]
      exact ⟨_, rfl, left, right, h.mem, (List.append_nil seen).symm ▸ h.parted⟩
  | cons x unseen =>
      right
      have hrest : seen ++ x :: unseen = (seen ++ [x]) ++ unseen := by simp
      have hnext : ∃ st' left' right',
          moveOddStep (seen ++ x :: unseen).length st = .ok (.inr st') ∧
          Moving rest (seen ++ [x]) left' right' unseen st' := by
        cases hx : isOdd x with
        | false =>
            obtain ⟨st', hstep, h'⟩ := h.even hx
            exact ⟨st', _, _, hstep, h'⟩
        | true =>
            cases right with
            | nil => exact absurd hx (Bool.eq_false_iff.mp (h.next rfl x rfl))
            | cons y right =>
                obtain ⟨st', hstep, h'⟩ := h.odd hx
                exact ⟨st', _, _, hstep, h'⟩
      obtain ⟨st', left', right', hstep, h'⟩ := hnext
      refine ⟨st', hstep, ⟨_, left', right', unseen, hrest, h'⟩, ?_⟩
      rw [h.i, h'.i, List.length_append, List.length_append, List.length_cons,
        List.length_singleton]
      omega

theorem Located.start {i : Nat} {firstEven : Option Nat} (h : Located ints (i, firstEven)) :
    MovingThrough ints rest { mem := memoryOf ints ++ rest, i := i, firstEven := firstEven } := by
  obtain ⟨odds, unseen, rfl, hi, hodds, hfirst, hnext⟩ := h
  refine ⟨odds, odds, [], unseen, rfl, .of_all hodds, ?_, hi, hfirst, fun _ => hnext⟩
  rw [List.append_nil, memoryOf_append, List.append_assoc]

end Run

/-- A permutation with the odd numbers first, in the order they had. -/
structure OddEvenSorted (ints sorted : List Int32) : Prop where
  perm : sorted.Perm ints
  oddFirst : sorted.Pairwise fun x y => isOdd y = true → isOdd x = true
  order : sorted.filter isOdd = ints.filter isOdd

/-- **`sort_odd_even` sorts**, and what is behind the array is neither needed
nor changed. -/
theorem sortOddEven_sorts (ints : List Int32) (rest : Memory) :
    ∃ sorted, sortOddEven (memoryOf ints ++ rest) ints.length = .ok (memoryOf sorted ++ rest) ∧
      OddEvenSorted ints sorted := by
  have hstart : Locating ints 0 := ⟨[], ints, rfl, rfl, nofun⟩
  have hlocates : ∃ r, loopUntil (locateEvenStep (memoryOf ints ++ rest) ints.length)
      (ints.length + 1) 0 = .ok r ∧ Located ints r :=
    loopUntil_ok (μ := fun i => ints.length - i) (fun _ h => h.step) hstart (Nat.lt_succ_self _)
  obtain ⟨⟨i, firstEven⟩, hlocate, hlocated⟩ := hlocates
  obtain ⟨mem, hmove, left, right, rfl, hparted⟩ :=
    loopUntil_ok (μ := fun st : OddEvenState => ints.length - st.i)
      (fun _ h => MovingThrough.step h) hlocated.start
      (Nat.lt_succ_of_le (Nat.sub_le _ _))
  refine ⟨left ++ right, ?_, hparted.perm, hparted.pairwise, hparted.filter_eq⟩
  rw [sortOddEven, Int.toNat_natCast, hlocate]
  exact hmove

example : sortOddEven (memoryOf [2, -3, 4, -5]) 4 = .ok (memoryOf [-3, -5, 4, 2]) := by decide

end Jccl
