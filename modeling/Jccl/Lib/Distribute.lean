/-
# `Jccl.Lib.Distribute` — filing a list into a row of buckets

A list is filed element by element into a row of buckets that lie one behind
the other in one array.  A new element arrives behind the last bucket; to let
it into bucket `c`, every bucket above `c` gives its first slot to the hole
and takes the slot behind it, so it is rotated by one.  `insertInto` is that
step on the row; the array is the concatenation of the row, and the places
where the buckets begin are `starts`.

The facts about the result are about the row alone: it holds the elements it
was given, each in the bucket of its category, and so the array is sorted by
category and the starts are the boundaries of the categories.
-/
import Mathlib

namespace Jccl.Distribute

variable {α : Type}

/-- Where each bucket of a row that begins at `off` begins. -/
def starts : Nat → List (List α) → List Nat
  | _, [] => []
  | off, B :: Bs => off :: starts (off + B.length) Bs

/-- The row after `x` went into its bucket `c`. -/
def insertInto (x : α) : Nat → List (List α) → List (List α)
  | _, [] => []
  | 0, B :: Bs => (B ++ [x]) :: Bs.map (·.rotate 1)
  | c + 1, B :: Bs => B :: insertInto x c Bs

/-- The row after the elements of a list went in one by one. -/
def distribute (cat : α → Nat) (Bs : List (List α)) (xs : List α) : List (List α) :=
  xs.foldl (fun Bs x => insertInto x (cat x) Bs) Bs

/-- Each bucket holds elements of its category only, the first one being for `c`. -/
def Filed (cat : α → Nat) : Nat → List (List α) → Prop
  | _, [] => True
  | c, B :: Bs => (∀ x ∈ B, cat x = c) ∧ Filed cat (c + 1) Bs

/-! ## The starts -/

@[simp] theorem starts_length (off : Nat) (Bs : List (List α)) :
    (starts off Bs).length = Bs.length := by
  induction Bs generalizing off with
  | nil => rfl
  | cons B Bs ih => simp [starts, ih]

theorem starts_append (off : Nat) (As Bs : List (List α)) :
    starts off (As ++ Bs) = starts off As ++ starts (off + As.flatten.length) Bs := by
  induction As generalizing off with
  | nil => rfl
  | cons A As ih => simp [starts, ih, Nat.add_assoc]

theorem starts_replicate_nil (off k : Nat) :
    starts off (List.replicate k ([] : List α)) = List.replicate k off := by
  induction k with
  | zero => rfl
  | succ k ih => simp [List.replicate_succ, starts, ih]

/-! ## One element -/

theorem insertInto_append (x : α) (As : List (List α)) (B : List α) (Cs : List (List α)) :
    insertInto x As.length (As ++ B :: Cs) = As ++ (B ++ [x]) :: Cs.map (·.rotate 1) := by
  induction As with
  | nil => rfl
  | cons A As ih => simp [insertInto, ih]

@[simp] theorem insertInto_length (x : α) (c : Nat) (Bs : List (List α)) :
    (insertInto x c Bs).length = Bs.length := by
  induction Bs generalizing c with
  | nil => cases c <;> rfl
  | cons B Bs ih =>
      cases c with
      | zero => simp [insertInto]
      | succ c => simp [insertInto, ih]

theorem flatten_map_rotate_perm (Bs : List (List α)) :
    (Bs.map (·.rotate 1)).flatten.Perm Bs.flatten := by
  induction Bs with
  | nil => exact .nil
  | cons B Bs ih => exact (B.rotate_perm 1).append ih

theorem insertInto_perm (x : α) {c : Nat} {Bs : List (List α)} (h : c < Bs.length) :
    (insertInto x c Bs).flatten.Perm (Bs.flatten ++ [x]) := by
  induction Bs generalizing c with
  | nil => exact absurd h (Nat.not_lt_zero c)
  | cons B Bs ih =>
      cases c with
      | zero =>
          have hrot := flatten_map_rotate_perm Bs
          calc ((B ++ [x]) ++ (Bs.map (·.rotate 1)).flatten).Perm ((B ++ [x]) ++ Bs.flatten) :=
                hrot.append_left _
            _ = B ++ ([x] ++ Bs.flatten) := List.append_assoc ..
            _ |>.Perm (B ++ (Bs.flatten ++ [x])) := List.perm_append_comm.append_left _
            _ = (B :: Bs).flatten ++ [x] := by simp
      | succ c =>
          have hins := ih (Nat.lt_of_succ_lt_succ h)
          simpa [insertInto] using hins.append_left B

theorem filed_map_rotate {cat : α → Nat} {c : Nat} {Bs : List (List α)} (h : Filed cat c Bs) :
    Filed cat c (Bs.map (·.rotate 1)) := by
  induction Bs generalizing c with
  | nil => trivial
  | cons B Bs ih => exact ⟨fun x hx => h.1 x (List.mem_rotate.mp hx), ih h.2⟩

theorem filed_insertInto {cat : α → Nat} {x : α} {k c : Nat} {Bs : List (List α)}
    (h : Filed cat k Bs) (hx : cat x = k + c) : Filed cat k (insertInto x c Bs) := by
  induction Bs generalizing k c with
  | nil => cases c <;> exact trivial
  | cons B Bs ih =>
      cases c with
      | zero =>
          refine ⟨fun y hy => ?_, filed_map_rotate h.2⟩
          rcases List.mem_append.mp hy with hy | hy
          · exact h.1 y hy
          · rw [List.mem_singleton.mp hy]; exact hx
      | succ c => exact ⟨h.1, ih h.2 (by omega)⟩

/-! ## A list of elements -/

section Distribute

variable {cat : α → Nat} {Bs : List (List α)} {xs : List α}

theorem distribute_append (Bs : List (List α)) (xs ys : List α) :
    distribute cat Bs (xs ++ ys) = distribute cat (distribute cat Bs xs) ys :=
  List.foldl_append

theorem distribute_concat (Bs : List (List α)) (xs : List α) (x : α) :
    distribute cat Bs (xs ++ [x]) = insertInto x (cat x) (distribute cat Bs xs) :=
  distribute_append Bs xs [x]

@[simp] theorem distribute_length (Bs : List (List α)) (xs : List α) :
    (distribute cat Bs xs).length = Bs.length := by
  induction xs generalizing Bs with
  | nil => rfl
  | cons x xs ih => exact (ih _).trans (insertInto_length ..)

theorem distribute_perm (h : ∀ x ∈ xs, cat x < Bs.length) :
    (distribute cat Bs xs).flatten.Perm (Bs.flatten ++ xs) := by
  induction xs generalizing Bs with
  | nil => simp [distribute]
  | cons x xs ih =>
      have hxs : ∀ y ∈ xs, cat y < (insertInto x (cat x) Bs).length := fun y hy => by
        rw [insertInto_length]
        exact h y (List.mem_cons_of_mem _ hy)
      have hins := insertInto_perm x (h x List.mem_cons_self)
      exact (ih hxs).trans (by simpa using hins.append_right xs)

theorem filed_distribute (h : Filed cat 0 Bs) : Filed cat 0 (distribute cat Bs xs) := by
  induction xs generalizing Bs with
  | nil => exact h
  | cons x xs ih => exact ih (filed_insertInto h (Nat.zero_add _).symm)

theorem filed_replicate_nil (c k : Nat) : Filed cat c (List.replicate k []) := by
  induction k generalizing c with
  | zero => trivial
  | succ k ih => exact ⟨fun _ hx => absurd hx List.not_mem_nil, ih (c + 1)⟩

end Distribute

/-! ## What a filed row looks like from outside -/

section Filed

variable {cat : α → Nat}

theorem le_cat_of_filed {c : Nat} {Bs : List (List α)} (h : Filed cat c Bs) :
    ∀ x ∈ Bs.flatten, c ≤ cat x := by
  induction Bs generalizing c with
  | nil => exact fun _ hx => absurd hx List.not_mem_nil
  | cons B Bs ih =>
      intro x hx
      rcases List.mem_append.mp hx with hx | hx
      · exact (h.1 x hx).ge
      · exact Nat.le_of_succ_le (ih h.2 x hx)

/-- The array of a filed row is sorted by category. -/
theorem pairwise_of_filed {c : Nat} {Bs : List (List α)} (h : Filed cat c Bs) :
    Bs.flatten.Pairwise (fun x y => cat x ≤ cat y) := by
  induction Bs generalizing c with
  | nil => exact .nil
  | cons B Bs ih =>
      refine List.pairwise_append.mpr ⟨?_, ih h.2, fun x hx y hy => ?_⟩
      · exact List.Pairwise.imp_of_mem (fun hx hy _ => ((h.1 _ hx).trans (h.1 _ hy).symm).le)
          (List.pairwise_of_forall (fun _ _ => trivial) : B.Pairwise fun _ _ => True)
      · rw [h.1 x hx]
        exact Nat.le_of_succ_le (le_cat_of_filed h.2 y hy)

/-- A bucket starts at the first element of at least its category. -/
theorem starts_eq_findIdx {c : Nat} {Bs : List (List α)} (off : Nat) (h : Filed cat c Bs) :
    starts off Bs = (List.range' c Bs.length).map
      fun i => off + Bs.flatten.findIdx (fun x => decide (i ≤ cat x)) := by
  induction Bs generalizing c off with
  | nil => rfl
  | cons B Bs ih =>
      have hfirst : (B :: Bs).flatten.findIdx (fun x => decide (c ≤ cat x)) = 0 := by
        cases hflat : (B :: Bs).flatten with
        | nil => rfl
        | cons x xs =>
            have hx := le_cat_of_filed h x (by simp [hflat])
            simp [List.findIdx_cons, hx]
      have hrest : ∀ i ∈ List.range' (c + 1) Bs.length,
          off + (B :: Bs).flatten.findIdx (fun x => decide (i ≤ cat x))
            = off + B.length + Bs.flatten.findIdx (fun x => decide (i ≤ cat x)) := by
        intro i hi
        have hci : c < i := (List.mem_range'_1.mp hi).1
        have hnone : ¬ B.findIdx (fun x => decide (i ≤ cat x)) < B.length := by
          rw [List.findIdx_lt_length]
          rintro ⟨x, hx, hle⟩
          rw [h.1 x hx, decide_eq_true_eq] at hle
          exact absurd hle (not_le.mpr hci)
        rw [List.flatten_cons, List.findIdx_append, if_neg hnone]
        omega
      rw [starts, ih (off + B.length) h.2, List.length_cons, List.range'_succ, List.map_cons, hfirst,
        List.map_congr_left hrest]
      rfl

end Filed

/-! ## Lists in order -/

section Sorted

variable {cat : α → Nat}

/-- Behind the elements of a row, if no bucket beyond holds any. -/
theorem insertInto_flatten {x : α} {k c : Nat} {Bs : List (List α)} (h : Filed cat k Bs)
    (hle : ∀ y ∈ Bs.flatten, cat y ≤ k + c) (hc : c < Bs.length) :
    (insertInto x c Bs).flatten = Bs.flatten ++ [x] := by
  induction Bs generalizing k c with
  | nil => exact absurd hc (Nat.not_lt_zero c)
  | cons B Bs ih =>
      cases c with
      | zero =>
          have hnil : Bs.flatten = [] := by
            refine List.eq_nil_iff_forall_not_mem.mpr fun y hy => ?_
            have hge := le_cat_of_filed h.2 y hy
            have hley := hle y (List.mem_append_right B hy)
            omega
          have hrotate : (Bs.map (·.rotate 1)).flatten = [] :=
            (hnil ▸ flatten_map_rotate_perm Bs).eq_nil
          rw [insertInto, List.flatten_cons, hrotate, List.flatten_cons, hnil, List.append_nil,
            List.append_nil]
      | succ c =>
          rw [insertInto, List.flatten_cons, List.flatten_cons, List.append_assoc]
          refine congrArg (B ++ ·) (ih h.2 (fun y hy => ?_) (Nat.lt_of_succ_lt_succ hc))
          have hley := hle y (List.mem_append_right B hy)
          omega

/-- A list that is sorted by category is filed as it is. -/
theorem distribute_of_pairwise {n : Nat} {xs : List α} (hcat : ∀ x ∈ xs, cat x < n)
    (h : xs.Pairwise fun x y => cat x ≤ cat y) :
    (distribute cat (List.replicate n []) xs).flatten = xs := by
  induction xs using List.reverseRecOn with
  | nil => simp [distribute]
  | append_singleton xs x ih =>
      obtain ⟨hxs, -, hlast⟩ := List.pairwise_append.mp h
      have hfiled := ih (fun y hy => hcat y (List.mem_append_left _ hy)) hxs
      rw [distribute_concat, insertInto_flatten (filed_distribute (filed_replicate_nil 0 n)),
        hfiled]
      · intro y hy
        rw [hfiled] at hy
        rw [Nat.zero_add]
        exact hlast y hy x (List.mem_singleton_self x)
      · rw [distribute_length, List.length_replicate]
        exact hcat x (List.mem_append_right xs (List.mem_singleton_self x))

end Sorted

/-! ## The elements under other names -/

section Map

variable {β : Type} (f : α → β)

theorem insertInto_map (x : α) (c : Nat) (Bs : List (List α)) :
    insertInto (f x) c (Bs.map (·.map f)) = (insertInto x c Bs).map (·.map f) := by
  induction Bs generalizing c with
  | nil => cases c <;> rfl
  | cons B Bs ih =>
      cases c with
      | zero => simp [insertInto, List.map_rotate]
      | succ c => simp [insertInto, ih]

theorem distribute_map (cat : β → Nat) (Bs : List (List α)) (xs : List α) :
    distribute cat (Bs.map (·.map f)) (xs.map f)
      = (distribute (fun x => cat (f x)) Bs xs).map (·.map f) := by
  induction xs generalizing Bs with
  | nil => rfl
  | cons x xs ih =>
      show distribute cat (insertInto (f x) (cat (f x)) (Bs.map (·.map f))) (xs.map f) = _
      rw [insertInto_map, ih]
      rfl

end Map

end Jccl.Distribute
