/-
# `Jccl.Dbuf.Stack` — when a `dbuf` is a stack of bytes

A buffer stores a string if its block begins with it and `top` is its length.
Popping is right in every such state.  Pushing is right exactly when the
buffer has room by the time of the `assert`, and three things keep it from
having room: `dbuf_push` compares the new top with the length it was given,
not with the capacity, so an emptied buffer is never grown; one doubling need
not reach the new top; and the first allocation takes the initial size,
whatever is pushed.  `PushFits` is what remains.
-/
import Jccl.Dbuf.Defs

namespace Jccl

open Block

/-- The buffer stores the bytes: there is a block that begins with them, or
none yet. -/
structure Stores (buf : Dbuf) (xs : List UInt8) : Prop where
  top : buf.top = xs.length
  block : (buf.b = .null ∧ xs = []) ∨
    ∃ cells, buf.b = .live cells ∧ Begins cells buf.n xs ∧ buf.n ≤ PTRDIFF_MAX

/-- The request for memory that `dbuf_push` makes first, if it makes one,
is refused or enough; without a request there is room already. -/
def PushFits (buf : Dbuf) (answers : List Bool) (s : Bytes) : Prop :=
  if buf.b = .null ∨ 0 < buf.top then
    accepts answers (dbufNewN buf) = true → buf.top + s.bytes.length ≤ dbufNewN buf
  else
    s.bytes.length ≤ buf.n

instance (buf : Dbuf) (answers : List Bool) (s : Bytes) : Decidable (PushFits buf answers s) := by
  unfold PushFits; infer_instance

/-! ## Growing -/

section Grow

variable {buf : Dbuf} {xs : List UInt8} {newN : Nat} {answers : List Bool}

theorem Stores.live_le (h : Stores buf xs) (hb : buf.b ≠ .null) :
    xs.length ≤ buf.n ∧ buf.n ≤ PTRDIFF_MAX := by
  obtain ⟨hnull, -⟩ | ⟨cells, -, hbegins, hfits⟩ := h.block
  · exact absurd hnull hb
  · exact ⟨hbegins.le, hfits⟩

theorem Stores.top_le_n (h : Stores buf xs) : buf.top ≤ buf.n := by
  rw [h.top]
  obtain ⟨-, rfl⟩ | ⟨cells, -, hbegins, -⟩ := h.block
  · exact Nat.zero_le _
  · exact hbegins.le

theorem dbufGrowTo_small (hn : newN < buf.n) :
    (dbufGrowTo (some buf) newN).run answers = .ok ((EINVAL, some buf), answers) := by
  simp only [dbufGrowTo, if_pos hn]
  rfl

theorem dbufGrowTo_refused (h : Stores buf xs) (hn : buf.n ≤ newN) (hpos : newN ≠ 0)
    (hans : accepts answers newN = false) :
    (dbufGrowTo (some buf) newN).run answers = .ok ((ENOMEM, some buf), answers.tail) := by
  have hrun : (buf.b.realloc newN).run answers = .ok ((.null, buf.b), answers.tail) := by
    obtain ⟨hnull, -⟩ | ⟨cells, hlive, -, -⟩ := h.block
    · simp [hnull, realloc, StateT.run, hpos, hans]
    · simp [hlive, realloc, StateT.run, hpos, hans]
  simp only [dbufGrowTo, if_neg (not_lt.mpr hn), StateT.run_bind, hrun, Outcome.ok_bind]
  rfl

/-- A block that is large enough is got, with the bytes in it. -/
theorem dbufGrowTo_ok (h : Stores buf xs) (hn : buf.n ≤ newN)
    (hgot : (accepts answers newN = true ∧ newN ≠ 0) ∨ (buf.b = .null ∧ newN = 0)) :
    ∃ buf' answers', (dbufGrowTo (some buf) newN).run answers = .ok ((0, some buf'), answers') ∧
      Stores buf' xs ∧ buf'.b ≠ .null ∧ buf'.n = newN := by
  simp only [dbufGrowTo, if_neg (not_lt.mpr hn), StateT.run_bind]
  obtain ⟨cells, answers', oldB, hrun, hbegins, hfits⟩ : ∃ cells answers' oldB,
      (buf.b.realloc newN).run answers = .ok ((.live cells, oldB), answers') ∧
        Begins cells newN xs ∧ newN ≤ PTRDIFF_MAX := by
    obtain ⟨hans, hpos⟩ | ⟨hnull, rfl⟩ := hgot
    · have hfits : newN ≤ PTRDIFF_MAX := by
        rw [accepts, Bool.and_eq_true, decide_eq_true_eq] at hans
        exact hans.2
      obtain ⟨hnull, rfl⟩ | ⟨cells, hlive, hbegins, -⟩ := h.block
      · refine ⟨resize [] newN, answers.tail, .null, ?_, begins_nil (by simp [resize]), hfits⟩
        simp [hnull, realloc, StateT.run, hpos, hans]
      · refine ⟨resize cells newN, answers.tail, .freed, ?_, begins_resize hbegins hn, hfits⟩
        simp [hlive, realloc, StateT.run, hpos, hans]
    · obtain ⟨-, rfl⟩ | ⟨cells, hlive, -, -⟩ := h.block
      · exact ⟨[], answers, .null, by simp [hnull, realloc, StateT.run], begins_nil rfl, Nat.zero_le _⟩
      · rw [hnull] at hlive
        cases hlive
  rw [hrun, Outcome.ok_bind]
  refine ⟨{ buf with b := .live cells, n := newN }, answers', by simp,
    ⟨h.top, .inr ⟨cells, rfl, hbegins, hfits⟩⟩, by simp, rfl⟩

end Grow

/-- Growing by the factor never asks for less, nor, but for a block of no bytes,
for nothing. -/
theorem le_dbufNewN {buf : Dbuf} {xs : List UInt8} (h : Stores buf xs)
    (hgrow : buf.b = .null ∨ 0 < buf.n) : buf.n ≤ dbufNewN buf ∧ dbufNewN buf ≠ 0 := by
  unfold dbufNewN
  by_cases hb : buf.b = .null
  · rw [if_neg (not_not.mpr hb)]
    split
    · rename_i hn; exact ⟨le_rfl, hn⟩
    · rename_i hn; exact ⟨by omega, by decide⟩
  · have hpos := hgrow.resolve_left hb
    obtain ⟨-, hfits⟩ := h.live_le hb
    rw [if_pos hb]
    unfold PTRDIFF_MAX at hfits
    unfold GROW_FACTOR
    omega

/-- What `dbuf_push` is left with when it decides to grow: the larger buffer
that it asks for first; one that has just enough room; or an error, and the
buffer that it had. -/
theorem dbufMakeRoom_cases {buf : Dbuf} {xs : List UInt8} (h : Stores buf xs) {n newTop : Nat}
    (hgrow : buf.b = .null ∨ 0 < buf.top) (hn : newTop = buf.top + n) (answers : List Bool) :
    ∃ retval buf' answers',
      (dbufMakeRoom buf n newTop).run answers = .ok ((retval, some buf'), answers') ∧
      ((accepts answers (dbufNewN buf) = true ∧ retval = 0 ∧ Stores buf' xs ∧ buf'.b ≠ .null ∧
          buf'.n = dbufNewN buf) ∨
        (accepts answers (dbufNewN buf) = false ∧ retval = 0 ∧ Stores buf' xs ∧ buf'.b ≠ .null ∧
          buf'.n = newTop ∧ buf.n ≤ newTop ∧
          (accepts answers.tail newTop = true ∨ buf.b = .null)) ∨
        (accepts answers (dbufNewN buf) = false ∧ (retval = EINVAL ∨ retval = ENOMEM) ∧
          buf' = buf ∧ (newTop < buf.n ∨ accepts answers.tail newTop = false))) := by
  obtain ⟨hle, hpos⟩ := le_dbufNewN h (hgrow.imp_right fun htop => htop.trans_le h.top_le_n)
  have hcond : buf.b = .null ∨ newTop > n := hgrow.imp_right fun htop => by omega
  simp only [dbufMakeRoom, if_pos hcond, dbufGrow, StateT.run_bind]
  rcases Bool.eq_false_or_eq_true (accepts answers (dbufNewN buf)) with hans | hans
  · obtain ⟨buf', answers', hrun, hstores, hlive, hn⟩ := dbufGrowTo_ok h hle (.inl ⟨hans, hpos⟩)
    exact ⟨0, buf', answers', by rw [hrun]; rfl, .inl ⟨hans, rfl, hstores, hlive, hn⟩⟩
  · rw [dbufGrowTo_refused h hle hpos hans, Outcome.ok_bind]
    have hne : ENOMEM ≠ 0 := by decide
    -- the second request is for just what is needed
    rcases Nat.lt_or_ge newTop buf.n with hsmall | hlarge
    · refine ⟨EINVAL, buf, answers.tail, ?_, .inr (.inr ⟨hans, .inl rfl, rfl, .inl hsmall⟩)⟩
      rw [if_pos hne, dbufGrowTo_small hsmall]
    · by_cases hgot : (accepts answers.tail newTop = true ∧ newTop ≠ 0) ∨
          (buf.b = .null ∧ newTop = 0)
      · obtain ⟨buf', answers', hrun, hstores, hlive, hn⟩ := dbufGrowTo_ok h hlarge hgot
        refine ⟨0, buf', answers', ?_, .inr (.inl ⟨hans, rfl, hstores, hlive, hn, hlarge, ?_⟩)⟩
        · rw [if_pos hne, hrun]
        · exact hgot.imp And.left And.left
      · have hpos' : newTop ≠ 0 := fun hzero =>
          hgrow.elim (fun hnull => hgot (.inr ⟨hnull, hzero⟩)) fun htop => by omega
        have hans' : accepts answers.tail newTop = false :=
          Bool.eq_false_of_not_eq_true fun hans' => hgot (.inl ⟨hans', hpos'⟩)
        refine ⟨ENOMEM, buf, answers.tail.tail, ?_, .inr (.inr ⟨hans, .inr rfl, rfl, .inr hans'⟩)⟩
        rw [if_pos hne, dbufGrowTo_refused h hlarge hpos' hans']

theorem dbufMakeRoom_none {buf : Dbuf} (hgrow : ¬ (buf.b = .null ∨ 0 < buf.top)) {n newTop : Nat}
    (hn : newTop = buf.top + n) (answers : List Bool) :
    (dbufMakeRoom buf n newTop).run answers = .ok ((0, some buf), answers) := by
  have hcond : ¬ (buf.b = .null ∨ newTop > n) := fun h =>
    hgrow (h.imp_right fun htop => by omega)
  rw [dbufMakeRoom, if_neg hcond]
  rfl

/-! ## Pushing -/

section Push

variable {buf buf' : Dbuf} {xs : List UInt8} {answers answers' : List Bool}

theorem toSsize_of_le {x : Nat} (h : x ≤ PTRDIFF_MAX) : toSsize x = x := by
  unfold PTRDIFF_MAX at h
  exact Int.bmod_eq_of_le_mul_two (by omega) (by omega)

theorem Stores.top_le (h : Stores buf xs) : buf.top ≤ PTRDIFF_MAX := by
  rw [h.top]
  by_cases hb : buf.b = .null
  · obtain ⟨-, rfl⟩ | ⟨cells, hlive, -, -⟩ := h.block
    · exact Nat.zero_le _
    · rw [hb] at hlive
      cases hlive
  · exact (h.live_le hb).1.trans (h.live_le hb).2

theorem newTop_eq (h : Stores buf xs) (s : Bytes) :
    (buf.top + s.bytes.length) % 2 ^ 64 = xs.length + s.bytes.length := by
  have htop := h.top_le
  have hs := s.fits
  rw [h.top] at htop ⊢
  unfold PTRDIFF_MAX at htop hs
  exact Nat.mod_eq_of_lt (by omega)

/-- With a block, all that matters is whether it is large enough. -/
theorem dbufPush_ok (h : Stores buf xs) {s : Bytes} (h' : Stores buf' xs) (hlive : buf'.b ≠ .null)
    (hroom : (dbufMakeRoom buf s.bytes.length (xs.length + s.bytes.length)).run answers
      = .ok ((0, some buf'), answers'))
    (hfits : xs.length + s.bytes.length ≤ buf'.n) :
    ∃ buf'', (dbufPush (some buf) (some s)).run answers
        = .ok (((xs.length : Int), some buf''), answers') ∧ Stores buf'' (xs ++ s.bytes) := by
  obtain ⟨hnull, -⟩ | ⟨cells, hcells, hbegins, hmax⟩ := h'.block
  · exact absurd hnull hlive
  · obtain ⟨cells', hwrite, hbegins'⟩ := write_ok hbegins hfits
    have htop := newTop_eq h' s
    have hssize := toSsize_of_le h'.top_le
    rw [h'.top] at htop hssize
    refine ⟨{ buf' with b := .live cells', top := xs.length + s.bytes.length }, ?_, ?_, ?_⟩
    · simp only [dbufPush, newTop_eq h, StateT.run_bind, hroom, Outcome.ok_bind]
      rw [if_neg (by decide)]
      simp only [StateT.run_bind, deref_some, AllocM.run_lift, Outcome.ok_bind, assert_of hfits,
        htop, hssize, hcells, h'.top, hwrite]
      rfl
    · exact List.length_append.symm
    · exact .inr ⟨cells', rfl, hbegins', hmax⟩

theorem dbufPush_asserts (h : Stores buf xs) {s : Bytes}
    (hroom : (dbufMakeRoom buf s.bytes.length (xs.length + s.bytes.length)).run answers
      = .ok ((0, some buf'), answers'))
    (hfits : ¬ xs.length + s.bytes.length ≤ buf'.n) :
    (dbufPush (some buf) (some s)).run answers = .error .assertion := by
  simp only [dbufPush, newTop_eq h, StateT.run_bind, hroom, Outcome.ok_bind]
  rw [if_neg (by decide)]
  simp only [StateT.run_bind, deref_some, AllocM.run_lift, Outcome.ok_bind, assert_not hfits]
  rfl

theorem dbufPush_refused (h : Stores buf xs) {s : Bytes} {retval : Int} (hne : retval ≠ 0)
    (hroom : (dbufMakeRoom buf s.bytes.length (xs.length + s.bytes.length)).run answers
      = .ok ((retval, some buf'), answers')) :
    (dbufPush (some buf) (some s)).run answers = .ok ((-retval, some buf'), answers') := by
  simp only [dbufPush, newTop_eq h, StateT.run_bind, hroom, Outcome.ok_bind]
  rw [if_pos hne]
  rfl

end Push

/-! ## Calls, and what they do to a stack -/

inductive DbufOp where
  | push (s : Option Bytes)
  | pop (s : Bool) (n : Nat)

structure DbufAnswer where
  status : Int
  /-- what a pop copies to its destination -/
  popped : List (Option UInt8) := []

/-- One call, and what it returns. -/
def dbufStep : DbufOp → Option Dbuf → AllocM (DbufAnswer × Option Dbuf)
  | .push s, buf => do
      let (status, buf) ← dbufPush buf s
      return ({ status := status }, buf)
  | .pop s n, buf => do
      let (status, buf, popped) ← dbufPop buf s n
      return ({ status := status, popped := popped }, buf)

def dbufRun : List DbufOp → Option Dbuf → AllocM (List DbufAnswer × Option Dbuf)
  | [], buf => return ([], buf)
  | op :: ops, buf => do
      let (answer, buf) ← dbufStep op buf
      let (answers, buf) ← dbufRun ops buf
      return (answer :: answers, buf)

/-- What a call may answer, and make of the bytes on a stack. -/
inductive StackStep : DbufOp → List UInt8 → DbufAnswer → List UInt8 → Prop
  | pushNull {xs} : StackStep (.push none) xs { status := -EINVAL } xs
  | pushed {xs} (s : Bytes) : StackStep (.push (some s)) xs { status := xs.length } (xs ++ s.bytes)
  | refused {xs errno} (s : Bytes) : errno = EINVAL ∨ errno = ENOMEM →
      StackStep (.push (some s)) xs { status := -errno } xs
  | popNull {xs n} : StackStep (.pop false n) xs { status := EINVAL } xs
  | popped {xs n} : n ≤ xs.length → StackStep (.pop true n) xs
      { status := 0, popped := (xs.drop (xs.length - n)).map some } (xs.take (xs.length - n))
  | tooMany {xs n} : xs.length < n → StackStep (.pop true n) xs { status := ENODATA } xs

inductive StackRun : List DbufOp → List UInt8 → List DbufAnswer → List UInt8 → Prop
  | nil {xs} : StackRun [] xs [] xs
  | cons {op ops xs ys zs answer answers} : StackStep op xs answer ys →
      StackRun ops ys answers zs → StackRun (op :: ops) xs (answer :: answers) zs

/-- What was pushed last is popped first. -/
theorem StackStep.pop_push {xs ys zs : List UInt8} {s : Bytes} {a b : DbufAnswer}
    (hpush : StackStep (.push (some s)) xs a ys) (ha : 0 ≤ a.status)
    (hpop : StackStep (.pop true s.bytes.length) ys b zs) :
    b = { status := 0, popped := s.bytes.map some } ∧ zs = xs := by
  cases hpush with
  | refused _ herrno => rcases herrno with rfl | rfl <;> exact absurd ha (by decide)
  | pushed =>
      have hlen : (xs ++ s.bytes).length - s.bytes.length = xs.length := by simp
      cases hpop with
      | popped hle => rw [hlen, List.drop_left, List.take_left]; exact ⟨rfl, rfl⟩
      | tooMany hlt => simp at hlt

/-- Every request that a call makes is in order; only a push makes any. -/
def OpFits (buf : Dbuf) (answers : List Bool) : DbufOp → Prop
  | .push (some s) => PushFits buf answers s
  | _ => True

section Step

variable {buf : Dbuf} {xs : List UInt8} (h : Stores buf xs) (answers : List Bool)

include h

theorem push_ok {s : Bytes} (hfits : PushFits buf answers s) :
    ∃ answer buf' answers' ys, (dbufStep (.push (some s)) (some buf)).run answers
        = .ok ((answer, some buf'), answers') ∧
      StackStep (.push (some s)) xs answer ys ∧ Stores buf' ys := by
  have hstep : ∀ {status : Int} {buf' : Dbuf} {answers' : List Bool},
      (dbufPush (some buf) (some s)).run answers = .ok ((status, some buf'), answers') →
      (dbufStep (.push (some s)) (some buf)).run answers
        = .ok (({ status := status }, some buf'), answers') := by
    intro status buf' answers' hrun
    rw [dbufStep, StateT.run_bind, hrun]
    rfl
  by_cases hgrow : buf.b = .null ∨ 0 < buf.top
  · rw [PushFits, if_pos hgrow, h.top] at hfits
    obtain ⟨retval, buf', answers', hroom, hcases⟩ := dbufMakeRoom_cases h hgrow
      (congrArg (· + s.bytes.length) h.top.symm) answers
    obtain ⟨hans, rfl, hstores, hlive, hn⟩ | ⟨-, rfl, hstores, hlive, hn, -⟩ |
      ⟨-, hretval, rfl, -⟩ := hcases
    · obtain ⟨buf'', hrun, hstores'⟩ :=
        dbufPush_ok h hstores hlive hroom (by rw [hn]; exact hfits hans)
      exact ⟨_, _, _, _, hstep hrun, .pushed s, hstores'⟩
    · obtain ⟨buf'', hrun, hstores'⟩ := dbufPush_ok h hstores hlive hroom hn.ge
      exact ⟨_, _, _, _, hstep hrun, .pushed s, hstores'⟩
    · have hne : retval ≠ 0 := by rcases hretval with rfl | rfl <;> decide
      exact ⟨_, _, _, _, hstep (dbufPush_refused h hne hroom), .refused s hretval, h⟩
  · rw [PushFits, if_neg hgrow] at hfits
    rw [not_or] at hgrow
    have hempty : xs.length = 0 := h.top ▸ Nat.eq_zero_of_not_pos hgrow.2
    obtain ⟨buf'', hrun, hstores'⟩ := dbufPush_ok h h hgrow.1
      (dbufMakeRoom_none (not_or.mpr hgrow) (congrArg (· + s.bytes.length) h.top.symm) answers)
      (by rwa [hempty, Nat.zero_add])
    exact ⟨_, _, _, _, hstep hrun, .pushed s, hstores'⟩

theorem push_asserts {s : Bytes} (hfits : ¬ PushFits buf answers s) :
    (dbufStep (.push (some s)) (some buf)).run answers = .error .assertion := by
  have hrun : (dbufPush (some buf) (some s)).run answers = .error .assertion := by
    by_cases hgrow : buf.b = .null ∨ 0 < buf.top
    · rw [PushFits, if_pos hgrow, h.top, Classical.not_imp] at hfits
      obtain ⟨retval, buf', answers', hroom, hcases⟩ := dbufMakeRoom_cases h hgrow
        (congrArg (· + s.bytes.length) h.top.symm) answers
      obtain ⟨-, rfl, -, -, hn⟩ | ⟨hans, -⟩ | ⟨hans, -⟩ := hcases
      · exact dbufPush_asserts h hroom (by rw [hn]; exact hfits.2)
      · exact absurd hfits.1 (by simp [hans])
      · exact absurd hfits.1 (by simp [hans])
    · rw [PushFits, if_neg hgrow] at hfits
      have hempty : xs.length = 0 := h.top ▸ Nat.eq_zero_of_not_pos (not_or.mp hgrow).2
      exact dbufPush_asserts h
        (dbufMakeRoom_none hgrow (congrArg (· + s.bytes.length) h.top.symm) answers)
        (by rwa [hempty, Nat.zero_add])
  rw [dbufStep, StateT.run_bind, hrun]
  rfl

/-- A pop copies the last bytes, and leaves the block as it is. -/
theorem pop_ok {n : Nat} (hn : n ≤ xs.length) :
    ∃ buf', dbufPop (some buf) true n
        = .ok (0, some buf', (xs.drop (xs.length - n)).map some) ∧
      Stores buf' (xs.take (xs.length - n)) := by
  by_cases hzero : n = 0
  · subst hzero
    refine ⟨buf, by simp [dbufPop], ?_⟩
    rwa [Nat.sub_zero, List.take_length]
  · obtain ⟨-, rfl⟩ | ⟨cells, hcells, hbegins, hmax⟩ := h.block
    · exact absurd (Nat.le_zero.mp hn) hzero
    · have hlen : (xs.take (xs.length - n)).length = xs.length - n := List.length_take_of_le (by omega)
      have hdrop : (xs.drop (xs.length - n)).length = n := by rw [List.length_drop]; omega
      rw [← List.take_append_drop (xs.length - n) xs] at hbegins
      have hread := read_ok hbegins
      rw [hlen, hdrop] at hread
      refine ⟨{ buf with top := xs.length - n }, ?_, hlen.symm,
        .inr ⟨cells, hcells, hbegins.prefix, hmax⟩⟩
      simp only [dbufPop, if_neg hzero, h.top, if_neg (not_lt.mpr hn), hcells, hread, Outcome.ok_bind]
      rfl

theorem dbufStep_ok {op : DbufOp} (hfits : OpFits buf answers op) :
    ∃ answer buf' answers' ys,
      (dbufStep op (some buf)).run answers = .ok ((answer, some buf'), answers') ∧
      StackStep op xs answer ys ∧ Stores buf' ys := by
  cases op with
  | push s =>
      cases s with
      | none => exact ⟨_, buf, answers, xs, rfl, .pushNull, h⟩
      | some s => exact push_ok h answers hfits
  | pop s n =>
      cases s with
      | false => exact ⟨_, buf, answers, xs, rfl, .popNull, h⟩
      | true =>
          rcases Nat.lt_or_ge xs.length n with hlt | hle
          · refine ⟨{ status := ENODATA }, buf, answers, xs, ?_, .tooMany hlt, h⟩
            have hzero : n ≠ 0 := Nat.ne_of_gt (Nat.zero_lt_of_lt hlt)
            have htop : n > buf.top := by rwa [h.top]
            simp only [dbufStep, dbufPop, if_neg hzero, if_pos htop]
            rfl
          · obtain ⟨buf', hpop, hstores⟩ := pop_ok h hle
            refine ⟨_, buf', answers, _, ?_, .popped hle, hstores⟩
            rw [dbufStep, AllocM.run_lift_bind, hpop]
            rfl

/-- A request that is not in order is one of a push. -/
theorem dbufStep_asserts {op : DbufOp} (hfits : ¬ OpFits buf answers op) :
    (dbufStep op (some buf)).run answers = .error .assertion := by
  cases op with
  | pop s n => exact absurd trivial hfits
  | push s =>
      cases s with
      | none => exact absurd trivial hfits
      | some s => exact push_asserts h answers hfits

end Step

/-! ## Whole runs -/

/-- Every request that a run makes is in order, in the state that the calls
before it leave. -/
def RunFits : List DbufOp → Dbuf → List Bool → Prop
  | [], _, _ => True
  | op :: ops, buf, answers => OpFits buf answers op ∧
      ∀ answer buf' answers', (dbufStep op (some buf)).run answers
        = .ok ((answer, some buf'), answers') → RunFits ops buf' answers'

theorem stores_dbufInit (initialN : BitVec 64) : Stores (dbufInit initialN) [] where
  top := rfl
  block := .inl ⟨rfl, rfl⟩

theorem dbufRun_ok {ops : List DbufOp} {buf : Dbuf} {xs : List UInt8} {answers : List Bool}
    (h : Stores buf xs) (hfits : RunFits ops buf answers) :
    ∃ results buf' answers' ys,
      (dbufRun ops (some buf)).run answers = .ok ((results, some buf'), answers') ∧
      StackRun ops xs results ys ∧ Stores buf' ys := by
  induction ops generalizing buf xs answers with
  | nil => exact ⟨[], buf, answers, xs, rfl, .nil, h⟩
  | cons op ops ih =>
      obtain ⟨answer, buf', answers', ys, hstep, hspec, h'⟩ := dbufStep_ok h answers hfits.1
      obtain ⟨results, buf'', answers'', zs, hrun, hspecs, h''⟩ := ih h' (hfits.2 _ _ _ hstep)
      refine ⟨answer :: results, buf'', answers'', zs, ?_, .cons hspec hspecs, h''⟩
      rw [dbufRun, StateT.run_bind, hstep, Outcome.ok_bind]
      show (dbufRun ops (some buf') >>= _).run answers' = _
      rw [StateT.run_bind, hrun]
      rfl

theorem dbufRun_asserts {ops : List DbufOp} {buf : Dbuf} {xs : List UInt8} {answers : List Bool}
    (h : Stores buf xs) (hfits : ¬ RunFits ops buf answers) :
    (dbufRun ops (some buf)).run answers = .error .assertion := by
  induction ops generalizing buf xs answers with
  | nil => exact absurd trivial hfits
  | cons op ops ih =>
      rw [dbufRun, StateT.run_bind]
      by_cases hop : OpFits buf answers op
      · obtain ⟨answer, buf', answers', ys, hstep, -, h'⟩ := dbufStep_ok h answers hop
        have hrest : ¬ RunFits ops buf' answers' := by
          intro hrest
          refine hfits ⟨hop, fun a b c habc => ?_⟩
          rw [hstep] at habc
          cases habc
          exact hrest
        rw [hstep, Outcome.ok_bind]
        show (dbufRun ops (some buf') >>= _).run answers' = _
        rw [StateT.run_bind, ih h' hrest]
        rfl
      · rw [dbufStep_asserts h answers hop]
        rfl

/-- Two calls of a run, one right after the other. -/
theorem StackRun.consecutive {ops : List DbufOp} {xs zs : List UInt8} {results : List DbufAnswer}
    (h : StackRun ops xs results zs) {i : Nat} {op op' : DbufOp} {a b : DbufAnswer}
    (hop : ops[i]? = some op) (hop' : ops[i + 1]? = some op')
    (ha : results[i]? = some a) (hb : results[i + 1]? = some b) :
    ∃ us vs ws, StackStep op us a vs ∧ StackStep op' vs b ws := by
  induction h generalizing i with
  | nil => cases hop
  | cons hstep hrun ih =>
      cases i with
      | succ i => exact ih hop hop' ha hb
      | zero =>
          cases hrun with
          | nil => cases hop'
          | cons hstep' _ =>
              cases hop
              cases hop'
              cases ha
              cases hb
              exact ⟨_, _, _, hstep, hstep'⟩

/-- A buffer of any initial size is a stack of bytes, through any calls and
any answers of the allocator, just if every request that a push makes is in
order; otherwise the assertion fails. -/
theorem dbuf_isStack_iff (initialN : BitVec 64) (ops : List DbufOp) (answers : List Bool) :
    (∃ results buf answers' xs,
      (dbufRun ops (some (dbufInit initialN))).run answers = .ok ((results, some buf), answers') ∧
      StackRun ops [] results xs ∧ Stores buf xs ∧ buf.top ≤ buf.n ∧
      ∀ i s a b, ops[i]? = some (.push (some s)) → ops[i + 1]? = some (.pop true s.bytes.length) →
        results[i]? = some a → results[i + 1]? = some b → 0 ≤ a.status →
        b = { status := 0, popped := s.bytes.map some }) ↔
      RunFits ops (dbufInit initialN) answers := by
  constructor
  · rintro ⟨results, buf, answers', xs, hrun, -⟩
    by_contra hfits
    rw [dbufRun_asserts (stores_dbufInit initialN) hfits] at hrun
    cases hrun
  · intro hfits
    obtain ⟨results, buf, answers', xs, hrun, hspec, hstores⟩ :=
      dbufRun_ok (stores_dbufInit initialN) hfits
    refine ⟨results, buf, answers', xs, hrun, hspec, hstores, ?_, ?_⟩
    · exact hstores.top_le_n
    · intro i s a b hop hop' ha hb hpushed
      obtain ⟨us, vs, ws, hpush, hpop⟩ := hspec.consecutive hop hop' ha hb
      exact (hpush.pop_push hpushed hpop).1

/-- A string longer than the initial size, and memory for everything. -/
theorem dbufPush_seventeen :
    (dbufRun [.push (some ⟨List.replicate 17 0, by decide⟩)] (some (dbufInit 16))).run []
      = .error .assertion := rfl

end Jccl
