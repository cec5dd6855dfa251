/-
# `Jccl.Sort.Bsort` — the bucket sort files its elements

Both code paths of `bsort` do one thing: they file the elements into the row
of buckets, in order.  The swap cascade of `bsort_partial` does it element by
element, moving a hole down through the first slots of the higher buckets.
The scan of `bsort_first_unsorted_element` gets the effect for free, as long
as every element it meets belongs behind those before it: all higher buckets
are empty then, and only boundaries have to be set.

The refinement goes from the bytes to the row (`Distribute.distribute`), and
what is said about the sort is said about the row.
-/
import Jccl.Lib.Distribute
import Jccl.Sort.Swap

namespace Jccl

open Distribute

/-! ## The cascade -/

section Row

variable {size : Nat}

/-- The elements of an array all have the array's element size. -/
def Sized (size : Nat) (es : List Memory) : Prop := ∀ e ∈ es, e.length = size

instance (es : List Memory) : Decidable (Sized size es) :=
  inferInstanceAs (Decidable (∀ e ∈ es, e.length = size))

theorem Sized.append {es fs : List Memory} :
    Sized size (es ++ fs) ↔ Sized size es ∧ Sized size fs := List.forall_mem_append

theorem Sized.length_flatten {es : List Memory} (h : Sized size es) :
    es.flatten.length = es.length * size := by
  have hmap : es.map List.length = List.replicate es.length size := by
    rw [List.map_congr_left h, List.map_const']
  rw [List.length_flatten, hmap, List.sum_replicate, smul_eq_mul]

/-- The pointers to the first slots of a row of buckets. -/
def bucketPointers (size : Nat) (Bs : List (List Memory)) : List Nat :=
  (starts 0 Bs).map (· * size)

theorem bucketPointers_concat (As : List (List Memory)) (B : List Memory) :
    bucketPointers size (As ++ [B]) = bucketPointers size As ++ [As.flatten.length * size] := by
  simp [bucketPointers, starts_append, starts]

/-- The slot that holds `x` gets to the front of the bucket before it, whose
elements are rotated by that. -/
theorem bsortMoveSlot_ok (hs : 0 < size) {l x r : Memory} {C : List Memory} {slot first : Nat}
    (hx : x.length = size) (hC : Sized size C) (hfirst : first = l.length)
    (hslot : slot = l.length + C.flatten.length) :
    bsortMoveSlot size (l ++ C.flatten ++ x ++ r) slot first
      = .ok (l ++ x ++ ((C.rotate 1).flatten ++ r), first) := by
  unfold bsortMoveSlot
  cases C with
  | nil =>
      simp only [List.flatten_nil, List.length_nil, Nat.add_zero] at hslot
      simp [hslot, hfirst]
  | cons f C =>
      have hf : f.length = size := hC f List.mem_cons_self
      have hne : slot ≠ first := by
        rw [hslot, hfirst, List.flatten_cons, List.length_append]
        omega
      have hmem : l ++ (f :: C).flatten ++ x ++ r = l ++ f ++ C.flatten ++ x ++ r := by simp
      rw [if_pos hne, hmem, swap_append hs hf hx hfirst (by
        rw [hslot, List.flatten_cons, List.length_append, hf, Nat.add_assoc])]
      simp

/-- One iteration, of a row whose last bucket is `C`. -/
theorem bsortCascade_step (hs : 0 < size) {x : Memory} (hx : x.length = size)
    {row : List (List Memory)} (hrow : Sized size row.flatten) {C : List Memory} (hC : Sized size C)
    {bucket i : Nat} (hi : row.length = i + 1) (hlt : bucket < i + 1) (r : Memory)
    (tail : List Nat) :
    bsortCascade size bucket (i + 1) ((row ++ [C]).flatten.flatten ++ x ++ r)
      (bucketPointers size (row ++ [C]) ++ tail) ((row ++ [C]).flatten.length * size)
    = bsortCascade size bucket i (row.flatten.flatten ++ x ++ ((C.rotate 1).flatten ++ r))
      (bucketPointers size row ++ (row.flatten.length * size + size) :: tail)
      (row.flatten.length * size) := by
  have hindex : i + 1 = (bucketPointers size row).length := by simp [bucketPointers, hi]
  have hread : readAt (bucketPointers size row ++ [row.flatten.length * size] ++ tail) (i + 1)
      = .ok (row.flatten.length * size) := by
    rw [List.append_assoc]
    exact readAt_append hindex
  have hwrite : ∀ v, writeAt (bucketPointers size row ++ [row.flatten.length * size] ++ tail)
      (i + 1) v = .ok (bucketPointers size row ++ v :: tail) := by
    intro v
    rw [List.append_assoc]
    exact writeAt_append hindex v
  have hslot : (row ++ [C]).flatten.length * size
      = row.flatten.flatten.length + C.flatten.length := by
    rw [hC.length_flatten, hrow.length_flatten, List.flatten_append, List.length_append,
      Nat.add_mul, List.flatten_singleton]
  have hmove := bsortMoveSlot_ok hs (r := r) hx hC hrow.length_flatten.symm hslot
  have hmem : (row ++ [C]).flatten.flatten ++ x ++ r
      = row.flatten.flatten ++ C.flatten ++ x ++ r := by
    rw [List.flatten_append, List.flatten_append, List.flatten_singleton]
  rw [bucketPointers_concat, bsortCascade, if_pos hlt, hread, Outcome.ok_bind, hmem, hmove,
    Outcome.ok_bind]
  simp only [hwrite, Outcome.ok_bind]

theorem bsortCascade_ok (hs : 0 < size) {As : List (List Memory)} {B : List Memory} {x : Memory}
    (hx : x.length = size) (hA : Sized size As.flatten) (hB : Sized size B)
    (Cs : List (List Memory)) (hC : Sized size Cs.flatten) (r : Memory) (tail : List Nat) :
    bsortCascade size As.length (As.length + Cs.length)
      ((As ++ B :: Cs).flatten.flatten ++ x ++ r) (bucketPointers size (As ++ B :: Cs) ++ tail)
      ((As ++ B :: Cs).flatten.length * size)
    = .ok ((insertInto x As.length (As ++ B :: Cs)).flatten.flatten ++ r,
        bucketPointers size (insertInto x As.length (As ++ B :: Cs)) ++ tail) := by
  rw [insertInto_append]
  induction Cs using List.reverseRecOn generalizing r tail with
  | nil =>
      have hstop : ∀ mem buckets slot, bsortCascade size As.length As.length mem buckets slot
          = .ok (mem, buckets) := by
        intro mem buckets slot
        cases As.length with
        | zero => rfl
        | succ i => simp [bsortCascade]
      rw [List.length_nil, Nat.add_zero, hstop, List.map_nil, bucketPointers_concat,
        bucketPointers_concat]
      simp
  | append_singleton Cs C ih =>
      obtain ⟨hCs, hC⟩ : Sized size Cs.flatten ∧ Sized size C := by
        rw [List.flatten_append, Sized.append] at hC
        simpa using hC
      have hrow : Sized size (As ++ B :: Cs).flatten := by
        rw [List.flatten_append, Sized.append, List.flatten_cons, Sized.append]
        exact ⟨hA, hB, hCs⟩
      have hcons : As ++ B :: (Cs ++ [C]) = (As ++ B :: Cs) ++ [C] := by simp
      have hi : As.length + (Cs ++ [C]).length = As.length + Cs.length + 1 := by simp; omega
      rw [hcons, hi, bsortCascade_step hs hx hrow hC (by simp; omega) (by omega), ih hCs]
      -- the row that the iterations below leave, and the bucket behind it
      have hlen : (As ++ (B ++ [x]) :: Cs.map (·.rotate 1)).flatten.length
          = (As ++ B :: Cs).flatten.length + 1 := by
        have hperm := (insertInto_perm x (by simp : As.length < (As ++ B :: Cs).length)).length_eq
        rwa [List.length_append, List.length_singleton, insertInto_append] at hperm
      have hcons' : As ++ (B ++ [x]) :: (Cs ++ [C]).map (·.rotate 1)
          = (As ++ (B ++ [x]) :: Cs.map (·.rotate 1)) ++ [C.rotate 1] := by simp
      rw [hcons', bucketPointers_concat, hlen, Nat.add_mul, Nat.one_mul]
      simp

/-! ## `bsort_partial` -/

variable {categorizer : BsortCategorizer} {nbucket : Nat}

theorem categorize_ok (categorizer : BsortCategorizer) {l x r : Memory} {p : Nat}
    (hx : x.length = size) (hp : p = l.length) :
    categorize categorizer size (l ++ x ++ r) p = .ok (categorizer x) := by
  subst hp
  have hbound : l.length + size ≤ (l ++ x ++ r).length := by simp [hx]
  have hslice : ((l ++ x ++ r).drop l.length).take size = x := by
    rw [List.append_assoc, List.drop_left, ← hx, List.take_left]
  rw [categorize, if_pos hbound, hslice]

theorem exists_eq_append_cons {α : Type} {l : List α} {i : Nat} (h : i < l.length) :
    ∃ as b cs, l = as ++ b :: cs ∧ as.length = i :=
  ⟨l.take i, l[i], l.drop (i + 1), by simp, List.length_take_of_le h.le⟩

/-- The whole cascade, on a row that a new element lies behind. -/
theorem bsortCascade_insertInto (hs : 0 < size) {x : Memory} (hx : x.length = size)
    {Bs : List (List Memory)} {bucket : Nat} (hbucket : bucket < nbucket)
    (hBs : Sized size Bs.flatten) (hn : Bs.length = nbucket) (r : Memory) :
    bsortCascade size bucket (nbucket - 1) (Bs.flatten.flatten ++ x ++ r) (bucketPointers size Bs)
      (Bs.flatten.length * size)
    = .ok ((insertInto x bucket Bs).flatten.flatten ++ r,
        bucketPointers size (insertInto x bucket Bs)) := by
  obtain ⟨As, B, Cs, rfl, rfl⟩ := exists_eq_append_cons (hn ▸ hbucket)
  rw [List.flatten_append, Sized.append, List.flatten_cons, Sized.append] at hBs
  have htop : nbucket - 1 = As.length + Cs.length := by
    rw [← hn, List.length_append, List.length_cons]
    omega
  have hrun := bsortCascade_ok hs hx hBs.1 hBs.2.1 Cs hBs.2.2 r []
  rw [List.append_nil, List.append_nil] at hrun
  rw [htop]
  exact hrun

/-- Every element of the rest goes into the row that lies before it. -/
theorem bsortPartialLoop_ok (hs : 0 < size) (xs : List Memory) (hxs : Sized size xs)
    (hcat : ∀ x ∈ xs, categorizer x < nbucket) (Bs : List (List Memory))
    (hBs : Sized size Bs.flatten) (hn : Bs.length = nbucket) (r : Memory) {fuel : Nat}
    (hfuel : xs.length < fuel) :
    bsortPartialLoop ((Bs.flatten.length + xs.length) * size) size categorizer nbucket fuel
      (Bs.flatten.length * size) (Bs.flatten.flatten ++ xs.flatten ++ r) (bucketPointers size Bs)
    = .ok ((distribute categorizer Bs xs).flatten.flatten ++ r,
        bucketPointers size (distribute categorizer Bs xs)) := by
  induction xs generalizing Bs fuel with
  | nil =>
      obtain ⟨fuel, rfl⟩ := Nat.exists_eq_succ_of_ne_zero (Nat.ne_of_gt hfuel)
      simp [bsortPartialLoop, distribute]
  | cons x xs ih =>
      obtain ⟨fuel, rfl⟩ := Nat.exists_eq_succ_of_ne_zero (Nat.ne_of_gt (Nat.zero_lt_of_lt hfuel))
      have hx : x.length = size := hxs x List.mem_cons_self
      have hbucket : categorizer x < nbucket := hcat x List.mem_cons_self
      have hlt : Bs.flatten.length * size < (Bs.flatten.length + (x :: xs).length) * size :=
        Nat.mul_lt_mul_of_pos_right (by simp) hs
      have hmem : Bs.flatten.flatten ++ (x :: xs).flatten ++ r
          = Bs.flatten.flatten ++ x ++ (xs.flatten ++ r) := by simp
      have hcascade := bsortCascade_insertInto hs hx hbucket hBs hn (xs.flatten ++ r)
      -- the row that takes the place of `Bs` for the rest of the run
      have hperm := insertInto_perm x (hn ▸ hbucket)
      have hlen : (insertInto x (categorizer x) Bs).flatten.length = Bs.flatten.length + 1 := by
        rw [hperm.length_eq, List.length_append, List.length_singleton]
      have hins : Sized size (insertInto x (categorizer x) Bs).flatten := fun e he => by
        rcases List.mem_append.mp (hperm.mem_iff.mp he) with he | he
        · exact hBs e he
        · rw [List.mem_singleton.mp he]; exact hx
      have hrec := ih (fun e he => hxs e (List.mem_cons_of_mem _ he))
        (fun e he => hcat e (List.mem_cons_of_mem _ he)) (insertInto x (categorizer x) Bs) hins
        (by rw [insertInto_length, hn]) (Nat.lt_of_succ_lt_succ hfuel)
      have heobase : (Bs.flatten.length + (x :: xs).length) * size
          = (Bs.flatten.length + 1 + xs.length) * size := by
        rw [List.length_cons, Nat.add_right_comm]
        rfl
      have hnext : Bs.flatten.length * size + size = (Bs.flatten.length + 1) * size := by
        rw [Nat.add_mul, Nat.one_mul]
      rw [bsortPartialLoop, if_pos hlt, hmem, categorize_ok categorizer hx hBs.length_flatten.symm,
        Outcome.ok_bind, assert_of hbucket, Outcome.ok_bind, hcascade, Outcome.ok_bind, heobase,
        hnext, ← List.append_assoc, ← hlen]
      exact hrec

theorem bsortPartial_ok (hs : 0 < size) {xs : List Memory} (hxs : Sized size xs)
    (hcat : ∀ x ∈ xs, categorizer x < nbucket) (Bs : List (List Memory))
    (hBs : Sized size Bs.flatten) (hn : Bs.length = nbucket) (r : Memory) :
    bsortPartial (Bs.flatten.flatten ++ xs.flatten ++ r) (Bs.flatten.length + xs.length) size
      categorizer nbucket (bucketPointers size Bs) (Bs.flatten.length * size)
    = .ok ((distribute categorizer Bs xs).flatten.flatten ++ r,
        bucketPointers size (distribute categorizer Bs xs)) := by
  have hmod : Bs.flatten.length * size % size = 0 := Nat.mul_mod_left _ _
  rw [bsortPartial, if_neg hs.ne', assert_of hmod]
  exact bsortPartialLoop_ok hs xs hxs hcat Bs hBs hn r (by omega)

/-! ## `bsort` -/

theorem fillBuckets_ok (lo hi p : Nat) {l J r : List Nat} (hl : l.length = lo)
    (hJ : J.length = hi - lo) :
    fillBuckets lo hi p (l ++ J ++ r) = .ok (l ++ List.replicate (hi - lo) p ++ r) := by
  have hloop : ∀ J r : List Nat, forLoop (fun k buckets => writeAt buckets (lo + k) p) J.length
      (l ++ J ++ r) = .ok (l ++ List.replicate J.length p ++ r) := by
    intro J
    induction J using List.reverseRecOn with
    | nil => exact fun r => rfl
    | append_singleton J b ih =>
        intro r
        have hmem : l ++ (J ++ [b]) ++ r = l ++ J ++ (b :: r) := by simp
        rw [List.length_append, List.length_singleton, forLoop, hmem, ih, Outcome.ok_bind,
          writeAt_append (by simp [hl]), List.replicate_succ']
        simp
  rw [fillBuckets, ← hJ]
  exact hloop J r

/-- The state of the scan behind a prefix in order: only the buckets up to
the last one that was met hold anything, and only their pointers are set. -/
structure Scanned (size : Nat) (categorizer : BsortCategorizer) (nbucket : Nat)
    (xs : List Memory) (lastBucket : Nat) (buckets : List Nat) : Prop where
  row : ∃ As B k J, As.length = lastBucket ∧ J.length = k ∧
    distribute categorizer (List.replicate nbucket []) xs = As ++ B :: List.replicate k [] ∧
    (As ++ [B]).flatten = xs ∧ buckets = bucketPointers size (As ++ [B]) ++ J
  met : 0 < lastBucket → ∃ x ∈ xs, categorizer x = lastBucket

theorem scanned_nil {buckets : List Nat} (hn : buckets.length = nbucket) (hpos : 0 < nbucket) :
    Scanned size categorizer nbucket [] 0 (buckets.set 0 0) := by
  cases buckets with
  | nil => exact absurd hpos (by simp [← hn])
  | cons b buckets =>
      subst hn
      exact ⟨⟨[], [], buckets.length, buckets, rfl, rfl, rfl, rfl, by simp [bucketPointers, starts]⟩,
        fun h => absurd h (Nat.lt_irrefl 0)⟩

theorem Scanned.distribute_eq {xs : List Memory} {lastBucket : Nat} {buckets : List Nat}
    (h : Scanned size categorizer nbucket xs lastBucket buckets) :
    (distribute categorizer (List.replicate nbucket []) xs).flatten = xs := by
  obtain ⟨As, B, k, J, -, -, hrow, hxs, -⟩ := h.row
  rw [hrow, ← hxs]
  simp

/-- Another element of the last bucket. -/
theorem Scanned.concat_last {xs : List Memory} {x : Memory} {buckets : List Nat}
    (h : Scanned size categorizer nbucket xs (categorizer x) buckets) :
    Scanned size categorizer nbucket (xs ++ [x]) (categorizer x) buckets := by
  obtain ⟨As, B, k, J, hAs, hJ, hrow, hxs, hbuckets⟩ := h.row
  refine ⟨⟨As, B ++ [x], k, J, hAs, hJ, ?_, by simp [← hxs], ?_⟩, fun _ => ⟨x, by simp, rfl⟩⟩
  · rw [distribute_concat, hrow, ← hAs, insertInto_append, List.map_replicate, List.rotate_nil]
  · rw [hbuckets, bucketPointers_concat, bucketPointers_concat]

/-- The first element of a higher bucket: the pointers up to it are set. -/
theorem Scanned.concat_higher {xs : List Memory} {x : Memory} {lastBucket : Nat}
    {buckets : List Nat} (h : Scanned size categorizer nbucket xs lastBucket buckets)
    (hx : lastBucket < categorizer x) (hn : categorizer x < nbucket) :
    ∃ buckets', fillBuckets (lastBucket + 1) (categorizer x + 1) (xs.length * size) buckets
        = .ok buckets' ∧
      Scanned size categorizer nbucket (xs ++ [x]) (categorizer x) buckets' := by
  obtain ⟨As, B, k, J, rfl, hJ, hrow, hxs, rfl⟩ := h.row
  have hk : As.length + 1 + k = nbucket := by
    have := congrArg List.length hrow
    simp only [distribute_length, List.length_replicate, List.length_append, List.length_cons] at this
    omega
  obtain ⟨j, hj⟩ := Nat.exists_eq_add_of_lt hx
  obtain ⟨i, rfl⟩ : ∃ i, k = j + (i + 1) := ⟨k - j - 1, by omega⟩
  have hsplit : J = J.take (j + 1) ++ J.drop (j + 1) := (List.take_append_drop _ _).symm
  have hfill := fillBuckets_ok (As.length + 1) (categorizer x + 1) (xs.length * size)
    (l := bucketPointers size (As ++ [B])) (J := J.take (j + 1))
    (r := J.drop (j + 1)) (by simp [bucketPointers]) (by simp [hJ]; omega)
  rw [List.append_assoc, ← hsplit] at hfill
  refine ⟨_, hfill, ⟨As ++ B :: List.replicate j [], [x], i, J.drop (j + 1), ?_, ?_, ?_, ?_, ?_⟩,
    fun _ => ⟨x, by simp, rfl⟩⟩
  · simp; omega
  · simp [hJ]; omega
  · have hrow' : As ++ B :: List.replicate (j + (i + 1)) ([] : List Memory)
        = (As ++ B :: List.replicate j []) ++ [] :: List.replicate i [] := by
      rw [← List.replicate_append_replicate, List.replicate_succ]
      simp
    have hlen : categorizer x = (As ++ B :: List.replicate j ([] : List Memory)).length := by
      simp; omega
    rw [distribute_concat, hrow, hrow', hlen, insertInto_append, List.map_replicate, List.rotate_nil]
    simp
  · simp [← hxs]
  · have hcount : categorizer x + 1 - (As.length + 1) = j + 1 := by omega
    rw [hcount, ← hxs]
    simp [bucketPointers, starts_append, starts, starts_replicate_nil, List.replicate_succ']

/-- The scan stops before the first element of a lower category than one before
it, in the state it would be in had it started there. -/
theorem bsortScan_ok (hs : 0 < size) (ys : List Memory) (hys : Sized size ys)
    (hcat : ∀ y ∈ ys, categorizer y < nbucket) (r : Memory) (xs : List Memory)
    (hxs : Sized size xs) {lastBucket : Nat} {buckets : List Nat}
    (h : Scanned size categorizer nbucket xs lastBucket buckets) {fuel : Nat}
    (hfuel : ys.length < fuel) :
    ∃ xs' ys' lastBucket' buckets', xs ++ ys = xs' ++ ys' ∧
      (∀ y ∈ ys'.head?, ∃ x ∈ xs', categorizer y < categorizer x) ∧
      Scanned size categorizer nbucket xs' lastBucket' buckets' ∧
      bsortScan ((xs.length + ys.length) * size) size categorizer nbucket
        ((xs ++ ys).flatten ++ r) fuel (xs.length * size) lastBucket buckets
        = .ok (xs'.length * size, lastBucket', buckets') := by
  induction ys generalizing xs lastBucket buckets fuel with
  | nil =>
      obtain ⟨fuel, rfl⟩ := Nat.exists_eq_succ_of_ne_zero (Nat.ne_of_gt hfuel)
      exact ⟨xs, [], lastBucket, buckets, rfl, fun y hy => (by cases hy), h, by simp [bsortScan]⟩
  | cons y ys ih =>
      obtain ⟨fuel, rfl⟩ := Nat.exists_eq_succ_of_ne_zero (Nat.ne_of_gt (Nat.zero_lt_of_lt hfuel))
      have hy : y.length = size := hys y List.mem_cons_self
      have hbucket : categorizer y < nbucket := hcat y List.mem_cons_self
      have hlt : xs.length * size < (xs.length + (y :: ys).length) * size :=
        Nat.mul_lt_mul_of_pos_right (by simp) hs
      have hmem : (xs ++ y :: ys).flatten ++ r = xs.flatten ++ y ++ (ys.flatten ++ r) := by simp
      have hread := categorize_ok categorizer (l := xs.flatten)
        (r := ys.flatten ++ r) hy hxs.length_flatten.symm
      rw [← hmem] at hread
      have hxs' : Sized size (xs ++ [y]) := Sized.append.mpr ⟨hxs, by simpa [Sized] using hy⟩
      -- the rest of the scan, once `y` belongs to the prefix
      have hrec : ∀ buckets', Scanned size categorizer nbucket (xs ++ [y]) (categorizer y) buckets' →
          _ := fun buckets' h' => ih (fun e he => hys e (List.mem_cons_of_mem _ he))
            (fun e he => hcat e (List.mem_cons_of_mem _ he)) (xs ++ [y]) hxs' h'
            (Nat.lt_of_succ_lt_succ hfuel)
      have happ : xs ++ [y] ++ ys = xs ++ y :: ys := by simp
      have hlen : (xs ++ [y]).length + ys.length = xs.length + (y :: ys).length := by simp; omega
      have hnext : (xs ++ [y]).length * size = xs.length * size + size := by simp [Nat.add_mul]
      rw [happ, hlen, hnext] at hrec
      simp only [bsortScan, if_pos hlt, hread, Outcome.ok_bind, assert_of hbucket]
      rcases Nat.lt_trichotomy (categorizer y) lastBucket with hcmp | hcmp | hcmp
      · obtain ⟨x, hx, hlast⟩ := h.met (Nat.zero_lt_of_lt hcmp)
        have hstop : ∀ y' ∈ (y :: ys).head?, ∃ x ∈ xs, categorizer y' < categorizer x := by
          rintro _ ⟨⟩
          exact ⟨x, hx, hlast.symm ▸ hcmp⟩
        exact ⟨xs, y :: ys, lastBucket, buckets, rfl, hstop, h, by simp [hcmp]⟩
      · subst hcmp
        obtain ⟨xs', ys', last', buckets', heq, hstop, hscan, hrun⟩ := hrec _ h.concat_last
        exact ⟨xs', ys', last', buckets', heq, hstop, hscan, by simpa using hrun⟩
      · obtain ⟨filled, hfill, hscanned⟩ := h.concat_higher hcmp hbucket
        obtain ⟨xs', ys', last', buckets', heq, hstop, hscan, hrun⟩ := hrec _ hscanned
        refine ⟨xs', ys', last', buckets', heq, hstop, hscan, ?_⟩
        rw [if_neg (by omega), if_pos hcmp, hfill, Outcome.ok_bind]
        exact hrun

/-- The scan is worth the insertion of the prefix it stops behind. -/
theorem bsortFirstUnsortedElement_ok (hs : 0 < size) (hpos : 0 < nbucket) {es : List Memory}
    (hes : Sized size es) (hcat : ∀ e ∈ es, categorizer e < nbucket) (r : Memory)
    {buckets : List Nat} (hn : buckets.length = nbucket) :
    ∃ xs ys, es = xs ++ ys ∧ (distribute categorizer (List.replicate nbucket []) xs).flatten = xs ∧
      (∀ y ∈ ys.head?, ∃ x ∈ xs, categorizer y < categorizer x) ∧
      bsortFirstUnsortedElement (es.flatten ++ r) es.length size categorizer nbucket buckets
        = .ok (xs.length * size,
            bucketPointers size (distribute categorizer (List.replicate nbucket []) xs)) := by
  obtain ⟨xs, ys, last, buckets', heq, hstop, hscanned, hrun⟩ := bsortScan_ok hs es hes hcat r
    [] (fun _ h => absurd h List.not_mem_nil) (scanned_nil hn hpos)
    (Nat.lt_succ_self es.length)
  rw [List.nil_append] at heq
  refine ⟨xs, ys, heq, hscanned.distribute_eq, hstop, ?_⟩
  rw [List.length_nil, Nat.zero_add, Nat.zero_mul, List.nil_append] at hrun
  rw [bsortFirstUnsortedElement, writeAt_of_lt (by omega), Outcome.ok_bind, hrun, Outcome.ok_bind]
  -- the pointers behind the last bucket that was met
  obtain ⟨As, B, k, J, rfl, hJ, hrow, hxs, rfl⟩ := hscanned.row
  have hk : nbucket - (As.length + 1) = k := by
    have := congrArg List.length hrow
    simp only [distribute_length, List.length_replicate, List.length_append, List.length_cons] at this
    omega
  have hfill := fillBuckets_ok (As.length + 1) nbucket (xs.length * size)
    (l := bucketPointers size (As ++ [B])) (J := J) (r := []) (by simp [bucketPointers])
    (by rw [hJ, hk])
  rw [List.append_nil, List.append_nil] at hfill
  have hpointers : bucketPointers size (As ++ B :: List.replicate k [])
      = bucketPointers size (As ++ [B]) ++ List.replicate k (xs.length * size) := by
    rw [← hxs]
    simp [bucketPointers, starts_append, starts, starts_replicate_nil]
  simp only [hfill, Outcome.ok_bind, hrow, hpointers, hk]
  rfl

/-- To an empty row. -/
theorem bsortPartial_empty (hs : 0 < size) {es : List Memory} (hes : Sized size es)
    (hcat : ∀ e ∈ es, categorizer e < nbucket) (r : Memory) :
    bsortPartial (es.flatten ++ r) es.length size categorizer nbucket (List.replicate nbucket 0) 0
      = .ok ((distribute categorizer (List.replicate nbucket []) es).flatten.flatten ++ r,
          bucketPointers size (distribute categorizer (List.replicate nbucket []) es)) := by
  have hrun := bsortPartial_ok hs hes hcat (List.replicate nbucket []) (by simp [Sized]) (by simp) r
  simpa [bucketPointers, starts_replicate_nil] using hrun

theorem distribute_empty_perm {es : List Memory} (hcat : ∀ e ∈ es, categorizer e < nbucket) :
    (distribute categorizer (List.replicate nbucket []) es).flatten.Perm es := by
  have hperm : (distribute categorizer (List.replicate nbucket []) es).flatten.Perm
      ((List.replicate nbucket []).flatten ++ es) := distribute_perm (by simpa using hcat)
  simpa using hperm

/-- `bsort` files the elements one by one into an empty row. -/
theorem bsort_ok (hs : 0 < size) (hpos : 0 < nbucket) {es : List Memory} (hes : Sized size es)
    (hcat : ∀ e ∈ es, categorizer e < nbucket) (r : Memory) {buckets : List Nat}
    (hn : buckets.length = nbucket) :
    bsort (es.flatten ++ r) es.length size categorizer nbucket buckets
      = .ok ((distribute categorizer (List.replicate nbucket []) es).flatten.flatten ++ r,
          bucketPointers size (distribute categorizer (List.replicate nbucket []) es)) := by
  obtain ⟨xs, ys, rfl, hxs, -, hscan⟩ := bsortFirstUnsortedElement_ok hs hpos hes hcat r hn
  have hsized := Sized.append.mp hes
  have hpartial := bsortPartial_ok hs hsized.2 (fun y hy => hcat y (List.mem_append_right _ hy))
    (distribute categorizer (List.replicate nbucket []) xs) (by rw [hxs]; exact hsized.1)
    (by simp) r
  rw [hxs, ← List.flatten_append, ← List.length_append, ← distribute_append] at hpartial
  rw [bsort, hscan, Outcome.ok_bind]
  exact hpartial

end Row

/-! ## What the sort does -/

/-- The array is a permutation of what it was, sorted by category, and each
pointer points at the first element of at least its category. -/
theorem bsort_sorts (size nbucket : Nat) (categorizer : BsortCategorizer) (es : List Memory)
    (buckets : List Nat) (hs : 0 < size) (hpos : 0 < nbucket) (hn : buckets.length = nbucket)
    (hes : Sized size es) (hcat : ∀ e ∈ es, categorizer e < nbucket) :
    ∃ fs : List Memory, fs.Perm es ∧
      fs.Pairwise (fun x y => categorizer x ≤ categorizer y) ∧
      bsort es.flatten es.length size categorizer nbucket buckets
        = .ok (fs.flatten, (List.range nbucket).map
            fun i => fs.findIdx (fun e => decide (i ≤ categorizer e)) * size) := by
  have hfiled : Filed categorizer 0 (distribute categorizer (List.replicate nbucket []) es) :=
    filed_distribute (filed_replicate_nil 0 nbucket)
  have hrun := bsort_ok hs hpos hes hcat [] hn
  rw [List.append_nil, List.append_nil, bucketPointers, starts_eq_findIdx 0 hfiled,
    distribute_length, List.length_replicate, List.map_map] at hrun
  refine ⟨_, distribute_empty_perm hcat, pairwise_of_filed hfiled, ?_⟩
  rw [hrun, List.range_eq_range']
  simp [Function.comp_def]

/-- Four ints of one byte, by their lowest two bits. -/
theorem bsort_sorts_bytes :
    bsort [3, 5, 2, 7] 4 1 (fun e => (e.headD 0).toNat % 4) 4 [0, 0, 0, 0]
      = .ok ([5, 2, 3, 7], [0, 0, 1, 2]) ∧
    ∃ fs : List Memory, fs.Perm [[3], [5], [2], [7]] ∧
      fs.Pairwise (fun x y => (x.headD 0).toNat % 4 ≤ (y.headD 0).toNat % 4) ∧
      bsort [3, 5, 2, 7] 4 1 (fun e => (e.headD 0).toNat % 4) 4 [0, 0, 0, 0]
        = .ok (fs.flatten, (List.range 4).map
            fun i => fs.findIdx (fun e => decide (i ≤ (e.headD 0).toNat % 4)) * 1) :=
  ⟨by decide, bsort_sorts 1 4 (fun e => (e.headD 0).toNat % 4) [[3], [5], [2], [7]] [0, 0, 0, 0]
    (by decide) (by decide) rfl (by decide) (by decide)⟩

section Prefix

variable {size nbucket : Nat} {categorizer : BsortCategorizer} {es fs : List Memory}
  {buckets : List Nat}

/-- Going on behind a sorted prefix, sorting at once and inserting every
element come to the same. -/
theorem bsortPartial_after (hs : 0 < size) (hpos : 0 < nbucket) (hn : buckets.length = nbucket)
    (hes : Sized size (es ++ fs)) (hcat : ∀ e ∈ es ++ fs, categorizer e < nbucket) :
    ∃ mem buckets',
      (do
        let (mem, buckets) ← bsort (es ++ fs).flatten es.length size categorizer nbucket buckets
        bsortPartial mem (es.length + fs.length) size categorizer nbucket buckets
          (es.length * size)) = .ok (mem, buckets') ∧
      bsort (es ++ fs).flatten (es.length + fs.length) size categorizer nbucket buckets
        = .ok (mem, buckets') ∧
      bsortPartial (es ++ fs).flatten (es.length + fs.length) size categorizer nbucket
        (List.replicate nbucket 0) 0 = .ok (mem, buckets') := by
  have hsized := Sized.append.mp hes
  have hall := bsort_ok hs hpos hes hcat [] hn
  have hfirst := bsort_ok hs hpos hsized.1 (fun e he => hcat e (List.mem_append_left _ he))
    fs.flatten hn
  have hperm := distribute_empty_perm fun e he => hcat e (List.mem_append_left fs he)
  have hrest := bsortPartial_ok hs hsized.2 (fun e he => hcat e (List.mem_append_right _ he))
    (distribute categorizer (List.replicate nbucket []) es)
    (fun e he => hsized.1 e (hperm.mem_iff.mp he)) (by simp) []
  rw [hperm.length_eq, ← distribute_append, List.append_nil, List.append_nil] at hrest
  rw [← List.flatten_append] at hfirst
  rw [List.append_nil, List.append_nil, List.length_append] at hall
  have hinsert := bsortPartial_empty hs hes hcat []
  rw [List.append_nil, List.append_nil, List.length_append] at hinsert
  refine ⟨_, _, ?_, hall, hinsert⟩
  rw [hfirst, Outcome.ok_bind]
  exact hrest

/-- The prefix that the scan skips is sorted, no longer one is, and inserting
it changes nothing. -/
theorem bsortFirstUnsortedElement_longest (hs : 0 < size) (hpos : 0 < nbucket)
    (hn : buckets.length = nbucket) (hes : Sized size es)
    (hcat : ∀ e ∈ es, categorizer e < nbucket) :
    ∃ n buckets', n ≤ es.length ∧
      (es.take n).Pairwise (fun x y => categorizer x ≤ categorizer y) ∧
      (∀ e, es[n]? = some e → ∃ x ∈ es.take n, categorizer e < categorizer x) ∧
      bsortFirstUnsortedElement es.flatten es.length size categorizer nbucket buckets
        = .ok (n * size, buckets') ∧
      bsortPartial es.flatten n size categorizer nbucket (List.replicate nbucket 0) 0
        = .ok (es.flatten, buckets') := by
  obtain ⟨xs, ys, rfl, hxs, hstop, hscan⟩ :=
    bsortFirstUnsortedElement_ok hs hpos hes hcat [] hn
  have hsorted : xs.Pairwise fun x y => categorizer x ≤ categorizer y :=
    hxs ▸ pairwise_of_filed (filed_distribute (filed_replicate_nil 0 nbucket))
  have hinsert := bsortPartial_empty hs (Sized.append.mp hes).1
    (fun x hx => hcat x (List.mem_append_left _ hx)) ys.flatten
  rw [hxs, ← List.flatten_append] at hinsert
  rw [List.append_nil] at hscan
  have htake : (xs ++ ys).take xs.length = xs := List.take_left
  refine ⟨xs.length, _, ?_, htake.symm ▸ hsorted, fun e he => ?_, hscan, hinsert⟩
  · rw [List.length_append]
    exact Nat.le_add_right _ _
  · rw [htake]
    refine hstop e ?_
    rw [List.getElem?_append_right le_rfl, Nat.sub_self] at he
    rwa [Option.mem_def, List.head?_eq_getElem?]

end Prefix

/-- Sorting a prefix first and going on from there is the same as sorting at
once, which is the same as inserting every element.  The prefix that the scan
skips is the longest one that is sorted, and is in the state that inserting it
leaves. -/
theorem bsort_then_bsortPartial (size nbucket : Nat) (categorizer : BsortCategorizer)
    (es fs : List Memory) (buckets : List Nat) (hs : 0 < size) (hpos : 0 < nbucket)
    (hn : buckets.length = nbucket) (hes : Sized size (es ++ fs))
    (hcat : ∀ e ∈ es ++ fs, categorizer e < nbucket) :
    (∃ mem buckets',
      (do
        let (mem, buckets) ← bsort (es ++ fs).flatten es.length size categorizer nbucket buckets
        bsortPartial mem (es.length + fs.length) size categorizer nbucket buckets
          (es.length * size)) = .ok (mem, buckets') ∧
      bsort (es ++ fs).flatten (es.length + fs.length) size categorizer nbucket buckets
        = .ok (mem, buckets') ∧
      bsortPartial (es ++ fs).flatten (es.length + fs.length) size categorizer nbucket
        (List.replicate nbucket 0) 0 = .ok (mem, buckets')) ∧
    ∃ n buckets', n ≤ es.length + fs.length ∧
      ((es ++ fs).take n).Pairwise (fun x y => categorizer x ≤ categorizer y) ∧
      (∀ e, (es ++ fs)[n]? = some e → ∃ x ∈ (es ++ fs).take n, categorizer e < categorizer x) ∧
      bsortFirstUnsortedElement (es ++ fs).flatten (es.length + fs.length) size categorizer nbucket
        buckets = .ok (n * size, buckets') ∧
      bsortPartial (es ++ fs).flatten n size categorizer nbucket (List.replicate nbucket 0) 0
        = .ok ((es ++ fs).flatten, buckets') := by
  have hlongest := bsortFirstUnsortedElement_longest hs hpos hn hes hcat
  rw [List.length_append] at hlongest
  exact ⟨bsortPartial_after hs hpos hn hes hcat, hlongest⟩

theorem bsort_then_bsortPartial_bytes :
    bsort [3, 5, 2, 7] 4 1 (fun e => (e.headD 0).toNat % 4) 4 [9, 9, 9, 9]
      = .ok ([5, 2, 3, 7], [0, 0, 1, 2]) ∧
    ∃ mem buckets',
      (do
        let (mem, buckets) ← bsort [3, 5, 2, 7] 2 1 (fun e => (e.headD 0).toNat % 4) 4 [9, 9, 9, 9]
        bsortPartial mem 4 1 (fun e => (e.headD 0).toNat % 4) 4 buckets 2) = .ok (mem, buckets') ∧
      bsort [3, 5, 2, 7] 4 1 (fun e => (e.headD 0).toNat % 4) 4 [9, 9, 9, 9]
        = .ok (mem, buckets') := by
  obtain ⟨⟨mem, buckets', htwo, hone, -⟩, -⟩ := bsort_then_bsortPartial 1 4
    (fun e => (e.headD 0).toNat % 4) [[3], [5]] [[2], [7]] [9, 9, 9, 9] (by decide) (by decide) rfl
    (by decide) (by decide)
  exact ⟨by decide, mem, buckets', htwo, hone⟩

end Jccl
