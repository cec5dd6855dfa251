/-
# `Jccl.Lib.SortedMap` — sorted association lists

The order is that of a comparator in the sense of C, a function to the
integers of which only the sign matters.  A map is a list of pairs, sorted by
key; to put a pair replaces the one with an equal key, or else inserts at the
sorted position.  What is in front of that position does not matter to it
(`put_append_of_gt`), nor what comes behind (`put_append_of_lt`), which is how
a search tree works on its in-order sequence.
-/
import Mathlib

namespace Jccl

/-- A comparator that is a total order, up to the keys that it calls equal. -/
structure TotalOrder {K : Type} (compar : K → K → Int) : Prop where
  swap : ∀ a b, compar a b < 0 ↔ 0 < compar b a
  trans : ∀ a b c, compar a b ≤ 0 → compar b c ≤ 0 → compar a c ≤ 0

namespace TotalOrder

variable {K : Type} {compar : K → K → Int} (hc : TotalOrder compar) {a b c : K}

include hc

theorem refl (a : K) : compar a a = 0 := by
  have := hc.swap a a
  omega

theorem eq_comm : compar a b = 0 ↔ compar b a = 0 := by
  have := hc.swap a b
  have := hc.swap b a
  omega

theorem lt_of_lt_of_le (hab : compar a b < 0) (hbc : compar b c ≤ 0) : compar a c < 0 := by
  by_contra hac
  -- otherwise c would not be above a, nor b
  have hca : compar c a ≤ 0 := by
    have := hc.swap a c
    omega
  have hba := hc.trans b c a hbc hca
  have := hc.swap a b
  omega

theorem lt_of_le_of_lt (hab : compar a b ≤ 0) (hbc : compar b c < 0) : compar a c < 0 := by
  by_contra hac
  have hca : compar c a ≤ 0 := by
    have := hc.swap a c
    omega
  have hcb := hc.trans c a b hca hab
  have := hc.swap b c
  omega

theorem eq_trans (hab : compar a b = 0) (hbc : compar b c = 0) : compar a c = 0 := by
  have hac := hc.trans a b c hab.le hbc.le
  have hca := hc.trans c b a (hc.eq_comm.mp hbc).le (hc.eq_comm.mp hab).le
  have := hc.swap a c
  have := hc.swap c a
  omega

end TotalOrder

namespace SortedMap

variable {K V : Type} (compar : K → K → Int)

def Sorted (xs : List (K × V)) : Prop := xs.Pairwise fun a b => compar a.1 b.1 < 0

/-- The pair with the key. -/
def find (key : K) (xs : List (K × V)) : Option (K × V) :=
  xs.find? fun p => decide (compar key p.1 = 0)

/-- The number of keys below a key. -/
def rank (key : K) (xs : List (K × V)) : Nat := xs.countP fun p => decide (compar p.1 key < 0)

/-- The map with the pair in it, which replaces one with an equal key. -/
def put (key : K) (value : V) : List (K × V) → List (K × V)
  | [] => [(key, value)]
  | p :: xs =>
      if compar key p.1 < 0 then (key, value) :: p :: xs
      else if compar key p.1 = 0 then (key, value) :: xs
      else p :: put key value xs

/-- The map after some pairs were put, in order. -/
def putAll (puts : List (K × V)) : List (K × V) :=
  puts.foldl (fun xs p => put compar p.1 p.2 xs) []

variable {compar} {key : K} {value : V} {p : K × V} {xs ys : List (K × V)}

theorem find_cons : find compar key (p :: xs)
    = if compar key p.1 = 0 then some p else find compar key xs := by
  by_cases h : compar key p.1 = 0
  · rw [if_pos h]
    exact List.find?_cons_of_pos (decide_eq_true h)
  · rw [if_neg h]
    exact List.find?_cons_of_neg (mt of_decide_eq_true h)

theorem find_append : find compar key (xs ++ ys) = (find compar key xs).or (find compar key ys) :=
  List.find?_append

theorem put_cons_of_eq (h : compar key p.1 = 0) :
    put compar key value (p :: xs) = (key, value) :: xs := by
  rw [put, if_neg h.not_lt, if_pos h]

theorem put_cons_of_gt (h : 0 < compar key p.1) :
    put compar key value (p :: xs) = p :: put compar key value xs := by
  rw [put, if_neg (not_lt.mpr h.le), if_neg h.ne']

theorem put_append_of_gt (h : ∀ x ∈ xs, 0 < compar key x.1) :
    put compar key value (xs ++ ys) = xs ++ put compar key value ys := by
  induction xs with
  | nil => rfl
  | cons x xs ih =>
      rw [List.cons_append, put_cons_of_gt (h x List.mem_cons_self),
        ih fun y hy => h y (List.mem_cons_of_mem _ hy)]
      rfl

theorem put_append_of_lt (h : compar key p.1 < 0) :
    put compar key value (xs ++ p :: ys) = put compar key value xs ++ p :: ys := by
  induction xs with
  | nil => exact if_pos h
  | cons x xs ih =>
      rw [List.cons_append, put, put, ih]
      split
      · rfl
      · split <;> rfl

theorem mem_put {q : K × V} (h : q ∈ put compar key value xs) : q = (key, value) ∨ q ∈ xs := by
  induction xs with
  | nil => exact .inl (List.mem_singleton.mp h)
  | cons x xs ih =>
      rw [put] at h
      split at h
      · exact List.mem_cons.mp h
      · split at h
        · exact (List.mem_cons.mp h).imp_right (List.mem_cons_of_mem _)
        · rcases List.mem_cons.mp h with rfl | h
          · exact .inr List.mem_cons_self
          · exact (ih h).imp_right (List.mem_cons_of_mem _)

section Order

variable (hc : TotalOrder compar)

include hc

theorem sorted_put (h : Sorted compar xs) : Sorted compar (put compar key value xs) := by
  induction xs with
  | nil => exact List.pairwise_singleton _ _
  | cons x xs ih =>
      obtain ⟨hx, hxs⟩ := List.pairwise_cons.mp h
      rw [put]
      split
      · rename_i hlt
        refine List.pairwise_cons.mpr ⟨fun y hy => ?_, h⟩
        rcases List.mem_cons.mp hy with rfl | hy
        · exact hlt
        · exact hc.lt_of_lt_of_le hlt (hx y hy).le
      · split
        · rename_i heq
          exact List.pairwise_cons.mpr ⟨fun y hy => hc.lt_of_le_of_lt heq.le (hx y hy), hxs⟩
        · rename_i hlt hne
          refine List.pairwise_cons.mpr ⟨fun y hy => ?_, ih hxs⟩
          rcases mem_put hy with rfl | hy
          · exact (hc.swap _ _).mpr (lt_of_le_of_ne (not_lt.mp hlt) (Ne.symm hne))
          · exact hx y hy

theorem find_put (key' : K) : find compar key' (put compar key value xs)
    = if compar key' key = 0 then some (key, value) else find compar key' xs := by
  induction xs with
  | nil => exact find_cons
  | cons x xs ih =>
      rw [put]
      split
      · exact find_cons
      · split
        · rename_i heq
          rw [find_cons, find_cons]
          by_cases hkey : compar key' key = 0
          · rw [if_pos hkey, if_pos hkey]
          · have hx : compar key' x.1 ≠ 0 := fun hx => hkey (hc.eq_trans hx (hc.eq_comm.mp heq))
            rw [if_neg hkey, if_neg hkey, if_neg hx]
        · rename_i hne
          rw [find_cons, find_cons, ih]
          by_cases hx : compar key' x.1 = 0
          · have hkey : compar key' key ≠ 0 := fun hkey =>
              hne (hc.eq_trans (hc.eq_comm.mp hkey) hx)
            rw [if_pos hx, if_neg hkey, if_pos hx]
          · rw [if_neg hx, if_neg hx]

omit hc in
theorem find_eq_none : find compar key xs = none ↔ ∀ x ∈ xs, compar key x.1 ≠ 0 := by
  rw [find, List.find?_eq_none]
  exact forall₂_congr fun x _ => not_congr decide_eq_true_iff

/-- A map grows by the pairs with a new key. -/
theorem length_put (hs : Sorted compar xs) : (put compar key value xs).length
    = if (find compar key xs).isSome then xs.length else xs.length + 1 := by
  induction xs with
  | nil => rfl
  | cons x xs ih =>
      obtain ⟨hx, hxs⟩ := List.pairwise_cons.mp hs
      rw [put, find_cons]
      by_cases hlt : compar key x.1 < 0
      · -- the key is below all others
        have hnone : find compar key xs = none := find_eq_none.mpr fun y hy =>
          (hc.lt_of_lt_of_le hlt (hx y hy).le).ne
        rw [if_pos hlt, if_neg hlt.ne, hnone]
        rfl
      · rw [if_neg hlt]
        by_cases heq : compar key x.1 = 0
        · rw [if_pos heq, if_pos heq]
          rfl
        · rw [if_neg heq, if_neg heq, List.length_cons, ih hxs]
          split <;> rfl

/-- What is found is what was put last. -/
theorem find_putAll (puts : List (K × V)) :
    find compar key (putAll compar puts) = find compar key puts.reverse := by
  induction puts using List.reverseRecOn with
  | nil => rfl
  | append_singleton puts p ih =>
      rw [putAll, List.foldl_append, List.reverse_append, List.reverse_singleton,
        List.singleton_append, find_cons, ← ih]
      exact find_put hc key

/-! ### The place of a key -/

omit hc in
theorem rank_of_lt (h : ∀ x ∈ xs, compar x.1 key < 0) : rank compar key xs = xs.length :=
  List.countP_eq_length.mpr fun x hx => decide_eq_true (h x hx)

omit hc in
theorem rank_of_ge (h : ∀ x ∈ xs, 0 ≤ compar x.1 key) : rank compar key xs = 0 :=
  List.countP_eq_zero.mpr fun x hx => mt of_decide_eq_true (not_lt.mpr (h x hx))

omit hc in
theorem rank_append : rank compar key (xs ++ ys) = rank compar key xs + rank compar key ys :=
  List.countP_append

omit hc in
theorem Sorted.parts (h : Sorted compar (xs ++ p :: ys)) : Sorted compar xs ∧ Sorted compar ys ∧
    (∀ x ∈ xs, compar x.1 p.1 < 0) ∧ ∀ y ∈ ys, compar p.1 y.1 < 0 := by
  obtain ⟨hxs, hys, hlt⟩ := List.pairwise_append.mp h
  obtain ⟨hp, hys⟩ := List.pairwise_cons.mp hys
  exact ⟨hxs, hys, fun x hx => hlt x hx p List.mem_cons_self, hp⟩

/-- A key below that of the pair is looked for in front of it. -/
theorem Sorted.below (h : Sorted compar (xs ++ p :: ys)) (hlt : compar key p.1 < 0) :
    find compar key (xs ++ p :: ys) = find compar key xs ∧
      rank compar key (xs ++ p :: ys) = rank compar key xs := by
  obtain ⟨-, -, -, hys⟩ := h.parts
  have hge : ∀ y ∈ p :: ys, compar key y.1 < 0 := by
    intro y hy
    rcases List.mem_cons.mp hy with rfl | hy
    · exact hlt
    · exact hc.lt_of_lt_of_le hlt (hys y hy).le
  rw [find_append, find_eq_none.mpr fun y hy => (hge y hy).ne, Option.or_none, rank_append,
    rank_of_ge fun y hy => ((hc.swap _ _).mp (hge y hy)).le]
  exact ⟨rfl, rfl⟩

theorem Sorted.at_key (h : Sorted compar (xs ++ p :: ys)) (heq : compar key p.1 = 0) :
    find compar key (xs ++ p :: ys) = some p ∧ rank compar key (xs ++ p :: ys) = xs.length := by
  obtain ⟨-, -, hxs, hys⟩ := h.parts
  have hlt : ∀ x ∈ xs, compar x.1 key < 0 := fun x hx =>
    hc.lt_of_lt_of_le (hxs x hx) (hc.eq_comm.mp heq).le
  have hge : ∀ y ∈ p :: ys, 0 ≤ compar y.1 key := by
    intro y hy
    rcases List.mem_cons.mp hy with rfl | hy
    · exact (hc.eq_comm.mp heq).ge
    · exact ((hc.swap _ _).mp (hc.lt_of_le_of_lt heq.le (hys y hy))).le
  rw [find_append, find_eq_none.mpr fun x hx => ((hc.swap _ _).mp (hlt x hx)).ne', find_cons,
    if_pos heq, rank_append, rank_of_lt hlt, rank_of_ge hge]
  exact ⟨rfl, rfl⟩

/-- A key above that of the pair is looked for behind it. -/
theorem Sorted.above (h : Sorted compar (xs ++ p :: ys)) (hgt : 0 < compar key p.1) :
    find compar key (xs ++ p :: ys) = find compar key ys ∧
      rank compar key (xs ++ p :: ys) = xs.length + 1 + rank compar key ys := by
  obtain ⟨-, -, hxs, -⟩ := h.parts
  have hpk : compar p.1 key < 0 := (hc.swap _ _).mpr hgt
  have hlt : ∀ x ∈ xs ++ [p], compar x.1 key < 0 := by
    intro x hx
    rcases List.mem_append.mp hx with hx | hx
    · exact hc.lt_of_lt_of_le (hxs x hx) hpk.le
    · rw [List.mem_singleton.mp hx]
      exact hpk
  have hsplit : xs ++ p :: ys = (xs ++ [p]) ++ ys := by rw [List.append_assoc]; rfl
  rw [hsplit, find_append, find_eq_none.mpr fun x hx => ((hc.swap _ _).mp (hlt x hx)).ne',
    Option.none_or, rank_append, rank_of_lt hlt, List.length_append]
  exact ⟨rfl, rfl⟩

/-- The pairs are numbered by the ranks of their keys. -/
theorem Sorted.rank_eq (h : Sorted compar xs) {i : Nat} (hi : xs[i]? = some p)
    (heq : compar key p.1 = 0) : find compar key xs = some p ∧ rank compar key xs = i := by
  obtain ⟨hlt, rfl⟩ := List.getElem?_eq_some_iff.mp hi
  have hsplit : xs = xs.take i ++ xs[i] :: xs.drop (i + 1) := by
    rw [← List.drop_eq_getElem_cons hlt, List.take_append_drop]
  have hs := h
  rw [hsplit] at hs
  have hat := hs.at_key hc heq
  rw [← hsplit, List.length_take_of_le hlt.le] at hat
  exact hat

end Order

end SortedMap

end Jccl
