/-
# `Jccl.Sort.Sorted` — what `issorted` says of the sorts

`issorted` goes through an array once and remembers the category it met last.
As long as it goes on, that is the highest one so far (`Rising`), so the
answer is whether the array is in order by category.

Two things are read off the row of buckets.  A list that is in order is filed
as it is, so `bsort` does nothing to an array that `issorted` accepts, and to
any other array it does something.  And for two buckets the cascade is the
exchange of `sort_odd_even`: an odd number goes behind the first bucket and
the first element of the second one to its end.  So the second loop of
`sort_odd_even` goes through the rows that filing goes through.
-/
import Jccl.Sort.Bsort
import Jccl.Sort.OddEven

namespace Jccl

open Distribute

section Rising

variable {size : Nat} {categorizer : BsortCategorizer} {es : List Memory} {r : Memory}

/-! ## `issorted` -/

/-- The array is in order by category. -/
def InOrder (categorizer : BsortCategorizer) (es : List Memory) : Prop :=
  es.Pairwise fun x y => categorizer x ≤ categorizer y

instance (es : List Memory) : Decidable (InOrder categorizer es) :=
  inferInstanceAs (Decidable (es.Pairwise fun x y => categorizer x ≤ categorizer y))

/-- Before the loop of `issorted` comes to an element. -/
def Rising (size : Nat) (categorizer : BsortCategorizer) (es : List Memory) (st : Nat × Nat) :
    Prop :=
  ∃ seen unseen, es = seen ++ unseen ∧ st.1 = seen.length * size ∧ InOrder categorizer seen ∧
    (∀ x ∈ seen, categorizer x ≤ st.2) ∧ (st.2 = 0 ∨ ∃ x ∈ seen, categorizer x = st.2)

theorem Rising.step (hs : 0 < size) (hes : Sized size es) {st : Nat × Nat}
    (h : Rising size categorizer es st) :
    (∃ answer, issortedStep (es.length * size) size categorizer (es.flatten ++ r) st
        = .ok (.inl answer) ∧ answer = if InOrder categorizer es then 1 else 0) ∨
      ∃ st', issortedStep (es.length * size) size categorizer (es.flatten ++ r) st
          = .ok (.inr st') ∧
        Rising size categorizer es st' ∧ es.length - st'.1 / size < es.length - st.1 / size := by
  obtain ⟨p, max⟩ := st
  obtain ⟨seen, unseen, rfl, hp, hseen, hmax, hmet⟩ := h
  dsimp only at hp hmax hmet ⊢
  subst hp
  cases unseen with
  | nil =>
      left
      rw [List.append_nil] at hes ⊢
      refine ⟨1, ?_, (if_pos hseen).symm⟩
      show (if _ then _ else _) = _
      rw [if_neg (lt_irrefl _)]
      rfl
  | cons x unseen =>
      have hx : x.length = size := hes x (List.mem_append_right seen List.mem_cons_self)
      have hlt : seen.length * size < (seen ++ x :: unseen).length * size :=
        Nat.mul_lt_mul_of_pos_right (by simp) hs
      have hmem : (seen ++ x :: unseen).flatten ++ r
          = seen.flatten ++ x ++ (unseen.flatten ++ r) := by simp
      have hread := categorize_ok categorizer (r := unseen.flatten ++ r) hx
        (Sized.append.mp hes).1.length_flatten.symm
      have hstep : issortedStep ((seen ++ x :: unseen).length * size) size categorizer
          ((seen ++ x :: unseen).flatten ++ r) (seen.length * size, max)
          = if categorizer x < max then .ok (.inl 0)
            else .ok (.inr (seen.length * size + size, categorizer x)) := by
        show (if _ then _ else _) = _
        rw [if_pos hlt, hmem, hread, Outcome.ok_bind]
        rfl
      rw [hstep]
      by_cases hcmp : categorizer x < max
      · left
        refine ⟨0, if_pos hcmp, (if_neg ?_).symm⟩
        intro hall
        -- the element that `max` is the category of is in front of `x`
        rcases hmet with hzero | ⟨y, hy, hcat⟩
        · exact absurd hcmp (hzero ▸ Nat.not_lt_zero _)
        · have hle := (List.pairwise_append.mp hall).2.2 y hy x List.mem_cons_self
          exact absurd hcmp (Nat.not_lt.mpr (hcat ▸ hle))
      · right
        have hle : max ≤ categorizer x := Nat.not_lt.mp hcmp
        have hseen' : ∀ y ∈ seen, categorizer y ≤ categorizer x :=
          fun y hy => (hmax y hy).trans hle
        have hlen : (seen ++ [x]).length = seen.length + 1 := by
          rw [List.length_append, List.length_singleton]
        refine ⟨_, if_neg hcmp, ⟨seen ++ [x], unseen, by simp, ?_, ?_, ?_, ?_⟩, ?_⟩
        · rw [hlen, Nat.add_mul, Nat.one_mul]
        · refine List.pairwise_append.mpr ⟨hseen, List.pairwise_singleton _ x, ?_⟩
          intro y hy z hz
          rw [List.mem_singleton.mp hz]
          exact hseen' y hy
        · intro y hy
          rcases List.mem_append.mp hy with hy | hy
          · exact hseen' y hy
          · rw [List.mem_singleton.mp hy]
        · exact Or.inr ⟨x, List.mem_append_right seen (List.mem_singleton_self x), rfl⟩
        · show _ - (seen.length * size + size) / size < _ - seen.length * size / size
          rw [Nat.add_div_right _ hs, Nat.mul_div_cancel _ hs, List.length_append, List.length_cons]
          omega

/-- The answer is whether the array is in order. -/
theorem issorted_eq (hs : 0 < size) (hes : Sized size es) (r : Memory) :
    issorted (es.flatten ++ r) es.length size categorizer
      = .ok (if InOrder categorizer es then 1 else 0) := by
  have hstart : Rising size categorizer es (0, 0) :=
    ⟨[], es, rfl, (Nat.zero_mul size).symm, .nil, fun _ h => absurd h List.not_mem_nil, Or.inl rfl⟩
  obtain ⟨answer, hrun, hanswer⟩ := loopUntil_ok (μ := fun st => es.length - st.1 / size)
    (fun _ h => h.step (r := r) hs hes) hstart (Nat.lt_succ_of_le (Nat.sub_le _ _))
  rw [issorted, hrun, hanswer]

theorem issorted_eq_one_iff (hs : 0 < size) (hes : Sized size es) (r : Memory) :
    issorted (es.flatten ++ r) es.length size categorizer = .ok 1 ↔ InOrder categorizer es := by
  rw [issorted_eq hs hes]
  by_cases h : InOrder categorizer es
  · rw [if_pos h]
    exact iff_of_true rfl h
  · rw [if_neg h]
    exact iff_of_false (fun heq => by cases heq) h

end Rising

/-! ## `bsort` and `issorted` -/

/-- **`issorted` tells whether `bsort` has anything to do.**  It accepts what
`bsort` makes of an array, and it accepts the array itself just if `bsort`
leaves its bytes as they are.  A second run finds nothing to do, and it
points the buckets to where they are. -/
theorem bsort_issorted (size nbucket : Nat) (categorizer : BsortCategorizer) (es : List Memory)
    (r : Memory) (buckets buckets₂ : List Nat) (hs : 0 < size) (hpos : 0 < nbucket)
    (hn : buckets.length = nbucket) (hn₂ : buckets₂.length = nbucket) (hes : Sized size es)
    (hcat : ∀ e ∈ es, categorizer e < nbucket) :
    ∃ sorted buckets', bsort (es.flatten ++ r) es.length size categorizer nbucket buckets
        = .ok (sorted ++ r, buckets') ∧
      issorted (sorted ++ r) es.length size categorizer = .ok 1 ∧
      issorted (es.flatten ++ r) es.length size categorizer
        = .ok (if sorted = es.flatten then 1 else 0) ∧
      bsort (sorted ++ r) es.length size categorizer nbucket buckets₂
        = .ok (sorted ++ r, buckets') := by
  have hfiled : Filed categorizer 0 (distribute categorizer (List.replicate nbucket []) es) :=
    filed_distribute (filed_replicate_nil 0 nbucket)
  have hperm := distribute_empty_perm hcat
  have hrow : (distribute categorizer (List.replicate nbucket []) es).length = nbucket := by
    rw [distribute_length, List.length_replicate]
  have hfirst := bsort_ok hs hpos hes hcat r hn
  generalize hfs : distribute categorizer (List.replicate nbucket []) es = row at *
  have hsized : Sized size row.flatten := fun e he => hes e (hperm.mem_iff.mp he)
  have hcat' : ∀ e ∈ row.flatten, categorizer e < nbucket :=
    fun e he => hcat e (hperm.mem_iff.mp he)
  have hinorder : InOrder categorizer row.flatten := pairwise_of_filed hfiled
  have haccepts := (issorted_eq_one_iff hs hsized r).mpr hinorder
  have hagain := bsort_ok hs hpos hsized hcat' r hn₂
  rw [hperm.length_eq] at haccepts hagain
  refine ⟨_, _, hfirst, haccepts, ?_, ?_⟩
  · rw [issorted_eq hs hes]
    refine congrArg Except.ok (if_congr ⟨fun h => ?_, fun h => ?_⟩ rfl rfl)
    · rw [← hfs, distribute_of_pairwise hcat h]
    · rw [h] at haccepts
      exact (issorted_eq_one_iff hs hes r).mp haccepts
  · have hsame := distribute_of_pairwise hcat' hinorder
    have hfiled' : Filed categorizer 0
        (distribute categorizer (List.replicate nbucket []) row.flatten) :=
      filed_distribute (filed_replicate_nil 0 nbucket)
    -- two rows of the same elements in the same order begin at the same places
    have hstarts := starts_eq_findIdx 0 hfiled'
    rw [hsame, distribute_length, List.length_replicate, ← hrow,
      ← starts_eq_findIdx 0 hfiled, hrow] at hstarts
    rw [hagain, hsame, bucketPointers, hstarts]
    rfl

/-- Three ints in the order of their lowest nibbles, and one behind that is not. -/
theorem bsort_issorted_nibbles :
    ∃ sorted buckets', bsort (memoryOf [0x11, 0x02, 0x23] ++ intBytes 0x10) 3 4
        bsortCategorizeLeastSignificantNibble 16 (List.replicate 16 7)
          = .ok (sorted ++ intBytes 0x10, buckets') ∧
      issorted (sorted ++ intBytes 0x10) 3 4 bsortCategorizeLeastSignificantNibble = .ok 1 ∧
      issorted (memoryOf [0x11, 0x02, 0x23] ++ intBytes 0x10) 3 4
          bsortCategorizeLeastSignificantNibble
        = .ok (if sorted = memoryOf [0x11, 0x02, 0x23] then 1 else 0) ∧
      bsort (sorted ++ intBytes 0x10) 3 4 bsortCategorizeLeastSignificantNibble 16
        (List.replicate 16 0) = .ok (sorted ++ intBytes 0x10, buckets') :=
  bsort_issorted 4 16 bsortCategorizeLeastSignificantNibble
    ([0x11, 0x02, 0x23].map intBytes) (intBytes 0x10) (List.replicate 16 7) (List.replicate 16 0)
    (by decide) (by decide) rfl rfl (by decide) (by decide)

/-! ## `sort_odd_even` and `bsort` -/

section OddEven

variable {ints : List Int32} {rest : Memory} {st : OddEvenState}

theorem intOf_intBytes (x : Int32) : intOf (intBytes x) = x := by
  rw [intOf, ofDigits_intBytes, BitVec.ofNat_toNat]
  rfl

theorem bsortCategorizeOddEven_intBytes (x : Int32) :
    bsortCategorizeOddEven (intBytes x) = if isOdd x then 0 else 1 := by
  rw [bsortCategorizeOddEven, intOf_intBytes]
  cases hx : isOdd x with
  | false => rw [if_pos ((ODD_eq_zero_iff x).mpr hx)]; rfl
  | true => rw [if_neg ((ODD_ne_zero_iff x).mpr hx)]; rfl

/-- The row of two buckets behind the numbers that were seen. -/
def oddEvenRow (seen : List Int32) : List (List Int32) :=
  distribute (fun x => if isOdd x then 0 else 1) [[], []] seen

theorem oddEvenRow_odds {odds : List Int32} (h : ∀ x ∈ odds, isOdd x = true) :
    oddEvenRow odds = [odds, []] := by
  induction odds using List.reverseRecOn with
  | nil => rfl
  | append_singleton odds x ih =>
      have hodds := ih fun y hy => h y (List.mem_append_left _ hy)
      have hx := h x (List.mem_append_right odds (List.mem_singleton_self x))
      rw [oddEvenRow] at hodds ⊢
      rw [distribute_concat, hodds, if_pos hx]
      rfl

theorem oddEvenRow_even {seen left right : List Int32} {x : Int32}
    (h : oddEvenRow seen = [left, right]) (hx : isOdd x = false) :
    oddEvenRow (seen ++ [x]) = [left, right ++ [x]] := by
  rw [oddEvenRow] at h ⊢
  rw [distribute_concat, h, if_neg (Bool.eq_false_iff.mp hx)]
  rfl

theorem oddEvenRow_odd {seen left right : List Int32} {x y : Int32}
    (h : oddEvenRow seen = [left, y :: right]) (hx : isOdd x = true) :
    oddEvenRow (seen ++ [x]) = [left ++ [x], right ++ [y]] := by
  rw [oddEvenRow] at h ⊢
  rw [distribute_concat, h, if_pos hx]
  show [left ++ [x], (y :: right).rotate 1] = _
  rw [List.rotate_cons_succ, List.rotate_zero]

theorem oddEvenRow_eq (ints : List Int32) :
    ∃ evens, oddEvenRow ints = [ints.filter isOdd, evens] := by
  induction ints using List.reverseRecOn with
  | nil => exact ⟨[], rfl⟩
  | append_singleton ints x ih =>
      obtain ⟨evens, hrow⟩ := ih
      cases hx : isOdd x with
      | false =>
          refine ⟨evens ++ [x], ?_⟩
          rw [oddEvenRow_even hrow hx, List.filter_append, List.filter_singleton, hx]
          simp
      | true =>
          refine ⟨evens.rotate 1, ?_⟩
          rw [oddEvenRow] at hrow ⊢
          rw [distribute_concat, hrow, if_pos hx, List.filter_append, List.filter_singleton, hx]
          rfl

/-- The states of the second loop: what was seen stands as it is filed. -/
def FilingThrough (ints : List Int32) (rest : Memory) (st : OddEvenState) : Prop :=
  ∃ seen left right unseen, ints = seen ++ unseen ∧ Moving rest seen left right unseen st ∧
    oddEvenRow seen = [left, right]

theorem FilingThrough.step (h : FilingThrough ints rest st) :
    (∃ mem, moveOddStep ints.length st = .ok (.inl mem) ∧
      mem = memoryOf (oddEvenRow ints).flatten ++ rest) ∨
    ∃ st', moveOddStep ints.length st = .ok (.inr st') ∧ FilingThrough ints rest st' ∧
      ints.length - st'.i < ints.length - st.i := by
  obtain ⟨seen, left, right, unseen, rfl, h, hrow⟩ := h
  cases unseen with
  | nil =>
      left
      have hstop : ¬ (st.i : Int) < (seen ++ []).length := by
        rw [h.i, List.append_nil]
        exact lt_irrefl _
      have hflat : (oddEvenRow (seen ++ [])).flatten = left ++ right := by
        rw [List.append_nil, hrow]
        simp
      rw [moveOddStep, if_neg hstop, hflat]
      exact ⟨_, rfl, h.mem⟩
  | cons x unseen =>
      right
      have hrest : seen ++ x :: unseen = (seen ++ [x]) ++ unseen := by simp
      have hnext : ∃ st' left' right',
          moveOddStep (seen ++ x :: unseen).length st = .ok (.inr st') ∧
          Moving rest (seen ++ [x]) left' right' unseen st' ∧
          oddEvenRow (seen ++ [x]) = [left', right'] := by
        cases hx : isOdd x with
        | false =>
            obtain ⟨st', hstep, h'⟩ := h.even hx
            exact ⟨st', _, _, hstep, h', oddEvenRow_even hrow hx⟩
        | true =>
            cases right with
            | nil => exact absurd hx (Bool.eq_false_iff.mp (h.next rfl x rfl))
            | cons y right =>
                obtain ⟨st', hstep, h'⟩ := h.odd hx
                exact ⟨st', _, _, hstep, h', oddEvenRow_odd hrow hx⟩
      obtain ⟨st', left', right', hstep, h', hrow'⟩ := hnext
      refine ⟨st', hstep, ⟨_, left', right', unseen, hrest, h', hrow'⟩, ?_⟩
      rw [h.i, h'.i, List.length_append, List.length_append, List.length_cons,
        List.length_singleton]
      omega

theorem Located.filing {i : Nat} {firstEven : Option Nat} (h : Located ints (i, firstEven)) :
    FilingThrough ints rest { mem := memoryOf ints ++ rest, i := i, firstEven := firstEven } := by
  obtain ⟨odds, unseen, rfl, hi, hodds, hfirst, hnext⟩ := h
  refine ⟨odds, odds, [], unseen, rfl,
    ⟨.of_all hodds, ?_, hi, hfirst, fun _ => hnext⟩, oddEvenRow_odds hodds⟩
  rw [List.append_nil, memoryOf_append, List.append_assoc]

theorem sortOddEven_eq (ints : List Int32) (rest : Memory) :
    sortOddEven (memoryOf ints ++ rest) ints.length
      = .ok (memoryOf (oddEvenRow ints).flatten ++ rest) := by
  have hstart : Locating ints 0 := ⟨[], ints, rfl, rfl, fun _ h => absurd h List.not_mem_nil⟩
  have hlocates : ∃ r, loopUntil (locateEvenStep (memoryOf ints ++ rest) ints.length)
      (ints.length + 1) 0 = .ok r ∧ Located ints r :=
    loopUntil_ok (μ := fun i => ints.length - i) (fun _ h => h.step) hstart (Nat.lt_succ_self _)
  obtain ⟨⟨i, firstEven⟩, hlocate, hlocated⟩ := hlocates
  obtain ⟨mem, hmove, hmem⟩ :=
    loopUntil_ok (μ := fun st : OddEvenState => ints.length - st.i)
      (fun _ h => FilingThrough.step h) hlocated.filing (Nat.lt_succ_of_le (Nat.sub_le _ _))
  rw [sortOddEven, Int.toNat_natCast, hlocate, ← hmem]
  exact hmove

theorem memoryOf_eq_flatten (xs : List Int32) : memoryOf xs = (xs.map intBytes).flatten :=
  List.flatMap_def

theorem sized_intBytes (xs : List Int32) : Sized 4 (xs.map intBytes) := by
  intro e he
  obtain ⟨x, -, rfl⟩ := List.mem_map.mp he
  exact intBytes_length x

/-- The row of the bytes is the row of the numbers. -/
theorem distribute_intBytes (ints : List Int32) :
    distribute bsortCategorizeOddEven (List.replicate 2 []) (ints.map intBytes)
      = (oddEvenRow ints).map (·.map intBytes) := by
  have hcat : (fun x => bsortCategorizeOddEven (intBytes x)) = fun x => if isOdd x then 0 else 1 :=
    funext bsortCategorizeOddEven_intBytes
  have hmap := distribute_map intBytes bsortCategorizeOddEven [[], []] ints
  rw [hcat] at hmap
  exact hmap

end OddEven

/-- **The two sorts agree** byte for byte, for any array of `int`s: by
`bsort_categorize_odd_even` into two buckets `bsort` does what `sort_odd_even`
does, the second bucket is behind the odd numbers, and `issorted` accepts
what they leave. -/
theorem sortOddEven_agrees (ints : List Int32) (rest : Memory) (buckets : List Nat)
    (hn : buckets.length = 2) :
    ∃ sorted, sortOddEven (memoryOf ints ++ rest) ints.length = .ok (sorted ++ rest) ∧
      bsort (memoryOf ints ++ rest) ints.length 4 bsortCategorizeOddEven 2 buckets
        = .ok (sorted ++ rest, [0, ints.countP isOdd * 4]) ∧
      issorted (sorted ++ rest) ints.length 4 bsortCategorizeOddEven = .ok 1 := by
  have hcat : ∀ e ∈ ints.map intBytes, bsortCategorizeOddEven e < 2 := by
    intro e he
    obtain ⟨x, -, rfl⟩ := List.mem_map.mp he
    rw [bsortCategorizeOddEven_intBytes]
    split <;> decide
  have hbsort := bsort_ok (by decide) (by decide) (sized_intBytes ints) hcat rest hn
  have hperm := distribute_empty_perm hcat
  have hfiled : Filed bsortCategorizeOddEven 0
      (distribute bsortCategorizeOddEven (List.replicate 2 []) (ints.map intBytes)) :=
    filed_distribute (filed_replicate_nil 0 2)
  have hsorted := (issorted_eq_one_iff (by decide)
    (fun e he => sized_intBytes ints e (hperm.mem_iff.mp he)) rest).mpr (pairwise_of_filed hfiled)
  rw [hperm.length_eq] at hsorted
  obtain ⟨evens, hrow⟩ := oddEvenRow_eq ints
  have hflat : memoryOf (oddEvenRow ints).flatten
      = ((oddEvenRow ints).map (·.map intBytes)).flatten.flatten := by
    rw [memoryOf_eq_flatten, List.map_flatten]
  rw [← memoryOf_eq_flatten, List.length_map, distribute_intBytes] at hbsort
  rw [List.length_map, distribute_intBytes, ← hflat] at hsorted
  refine ⟨_, sortOddEven_eq ints rest, ?_, hsorted⟩
  rw [hbsort, hflat, hrow]
  simp [bucketPointers, starts, List.countP_eq_length_filter]

/-- With four numbers, and one behind them that stays where it is. -/
theorem sortOddEven_agrees_four :
    sortOddEven (memoryOf [2, -3, 4, -5] ++ intBytes 7) 4
      = .ok (memoryOf [-3, -5, 4, 2] ++ intBytes 7) ∧
    ∃ sorted, sortOddEven (memoryOf [2, -3, 4, -5] ++ intBytes 7) 4 = .ok (sorted ++ intBytes 7) ∧
      bsort (memoryOf [2, -3, 4, -5] ++ intBytes 7) 4 4 bsortCategorizeOddEven 2 [9, 9]
        = .ok (sorted ++ intBytes 7, [0, 2 * 4]) ∧
      issorted (sorted ++ intBytes 7) 4 4 bsortCategorizeOddEven = .ok 1 :=
  ⟨by decide, sortOddEven_agrees [2, -3, 4, -5] (intBytes 7) [9, 9] rfl⟩

end Jccl
