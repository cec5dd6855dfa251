/-
# `Jccl.Dbuf.Lifetime` — how long a `dbuf` keeps what is pushed

A caller of `dbuf_push` is given an offset, since the block may move whenever
the buffer grows.  The offset is worth something for as long as nothing below
the end of the bytes is popped: no call changes a byte below the new top
(`KeepsAbove`), whether it grows the buffer, fails to, or pops what is above.
-/
import Jccl.Dbuf.Memory

namespace Jccl

open Block

/-! ## The bytes below the top -/

theorem StackStep.take {op : DbufOp} {xs ys : List UInt8} {a : DbufAnswer}
    (h : StackStep op xs a ys) {m : Nat} (hx : m ≤ xs.length) (hy : m ≤ ys.length) :
    ys.take m = xs.take m := by
  cases h with
  | pushNull => rfl
  | pushed s => exact List.take_append_of_le_length hx
  | refused s _ => rfl
  | popNull => rfl
  | popped hn =>
      rw [List.length_take] at hy
      rw [List.take_take, min_eq_left (by omega)]
  | tooMany _ => rfl

section Call

variable {buf buf' : Dbuf} {xs : List UInt8} {call : DbufCall} {answers answers' : List Bool}
  {status : Int}

/-- One call keeps the bytes below the new top, or frees a block of none. -/
theorem dbufCall_keeps (h : Stores buf xs)
    (hrun : (dbufCall call (some buf)).run answers = .ok ((status, some buf'), answers')) :
    (buf'.b = .freed ∧ buf'.top = 0) ∨
      ∃ ys, Stores buf' ys ∧ ∀ m ≤ xs.length, m ≤ ys.length → ys.take m = xs.take m := by
  by_cases hfrees : Frees buf call
  · left
    cases (dbufCall_frees h hfrees answers).symm.trans hrun
    have hn : buf.n = 0 := by
      cases call with
      | growTo newN => exact hfrees.2.1
      | grow => exact hfrees.2
      | stack op => exact absurd hfrees id
    exact ⟨rfl, Nat.le_zero.mp (hn ▸ h.top_le_n)⟩
  · right
    cases call with
    | growTo newN =>
        obtain ⟨_, _, _, hrun', h', -⟩ := @dbufGrowTo_cases buf xs h newN.toNat
          (fun hf => hfrees ⟨hf.1, hf.2.1, BitVec.eq_of_toNat_eq hf.2.2⟩) answers
        cases hrun'.symm.trans hrun
        exact ⟨xs, h', fun _ _ _ => rfl⟩
    | grow =>
        obtain ⟨_, _, _, hrun', h', -⟩ := @dbufGrowTo_cases buf xs h (dbufNewN buf)
          (fun hf => hfrees ⟨hf.1, hf.2.1⟩) answers
        cases hrun'.symm.trans hrun
        exact ⟨xs, h', fun _ _ _ => rfl⟩
    | stack op =>
        obtain ⟨⟨answer, last⟩, t, hstep, hret⟩ := AllocM.bind_eq_ok.mp hrun
        cases hret
        by_cases hfits : OpFits buf answers op
        · obtain ⟨_, _, _, ys, hstep', hspec, h'⟩ := dbufStep_ok h answers hfits
          cases hstep'.symm.trans hstep
          exact ⟨ys, h', fun m hx hy => hspec.take hx hy⟩
        · cases (dbufStep_asserts h answers hfits).symm.trans hstep

end Call

/-- Calls that never leave the top below `m`. -/
inductive KeepsAbove (m : Nat) (buf : Dbuf) : Dbuf → Prop
  | refl : m ≤ buf.top → KeepsAbove m buf buf
  | call {mid later call answers answers' status} : KeepsAbove m buf mid →
      (dbufCall call (some mid)).run answers = .ok ((status, some later), answers') →
      m ≤ later.top → KeepsAbove m buf later

section Kept

variable {buf later : Dbuf} {xs : List UInt8} {m : Nat}

/-- The bytes below the lowest top stay. -/
theorem KeepsAbove.stores (h : KeepsAbove m buf later) (hpos : 0 < m) (hs : Stores buf xs) :
    ∃ ys, Stores later ys ∧ m ≤ ys.length ∧ ys.take m = xs.take m := by
  induction h with
  | refl hm => exact ⟨xs, hs, hs.top ▸ hm, rfl⟩
  | call _ hrun hm ih =>
      obtain ⟨ys, hys, hle, htake⟩ := ih
      rcases dbufCall_keeps hys hrun with ⟨-, htop⟩ | ⟨zs, hzs, hkeeps⟩
      · exact absurd (htop ▸ hm) (Nat.not_le.mpr hpos)
      · have hle' : m ≤ zs.length := hzs.top ▸ hm
        exact ⟨zs, hzs, hle', (hkeeps m hle hle').trans htake⟩

theorem Stores.read (h : Stores buf xs) {offset n : Nat} (hpos : 0 < n)
    (hle : offset + n ≤ xs.length) :
    buf.b.read offset n = .ok (((xs.drop offset).take n).map some) := by
  obtain ⟨-, rfl⟩ | ⟨cells, hcells, hbegins, -⟩ := h.block
  · rw [List.length_nil] at hle
    omega
  · rw [hcells]
    exact hbegins.read hle

/-- A buffer whose block was freed is empty. -/
theorem DbufReached.stores_or_freed (h : DbufReached buf) :
    (∃ xs, Stores buf xs) ∨ buf.b = .freed ∧ buf.top = 0 := by
  induction h with
  | init initialN => exact Or.inl ⟨[], stores_dbufInit initialN⟩
  | call _ hrun ih =>
      rcases ih with ⟨xs, hs⟩ | ⟨hb, htop⟩
      · rcases dbufCall_keeps hs hrun with hfreed | ⟨ys, hys, -⟩
        · exact Or.inr hfreed
        · exact Or.inl ⟨ys, hys⟩
      · rw [dbufCall_freed hb hrun]
        exact Or.inr ⟨hb, htop⟩

/-- What a push answers and stores. -/
theorem dbufCall_push (hs : Stores buf xs) {s : Bytes} {status : Int} {pushed : Dbuf}
    {answers answers' : List Bool}
    (hpush : (dbufCall (.stack (.push (some s))) (some buf)).run answers
      = .ok ((status, some pushed), answers')) :
    ∃ answer ys, StackStep (.push (some s)) xs answer ys ∧ Stores pushed ys ∧
      answer.status = status := by
  obtain ⟨⟨answer, last⟩, t, hstep, hret⟩ := AllocM.bind_eq_ok.mp hpush
  cases hret
  by_cases hfits : OpFits buf answers (.push (some s))
  · obtain ⟨_, _, _, ys, hstep', hspec, h'⟩ := dbufStep_ok hs answers hfits
    cases hstep'.symm.trans hstep
    exact ⟨answer, ys, hspec, h', rfl⟩
  · cases (dbufStep_asserts hs answers hfits).symm.trans hstep

end Kept

/-- **What is pushed stays at its offset**, which is the old top: the bytes are
found there after any further calls, with any answers of the allocator, that do
not pop them. -/
theorem dbufPush_stays {buf pushed : Dbuf} (hreached : DbufReached buf) (s : Bytes)
    {offset : Int} {answers answers' : List Bool}
    (hpush : (dbufCall (.stack (.push (some s))) (some buf)).run answers
      = .ok ((offset, some pushed), answers')) (hok : 0 ≤ offset) :
    offset = buf.top ∧
      ∀ later, KeepsAbove (offset.toNat + s.bytes.length) pushed later → 0 < s.bytes.length →
        later.b.read offset.toNat s.bytes.length = .ok (s.bytes.map some) := by
  rcases hreached.stores_or_freed with ⟨xs, hstores⟩ | ⟨hb, -⟩
  · obtain ⟨answer, ys, hspec, hys, rfl⟩ := dbufCall_push hstores hpush
    cases hspec with
    | refused _ herrno => rcases herrno with rfl | rfl <;> exact absurd hok (by decide)
    | pushed =>
        refine ⟨congrArg Int.ofNat hstores.top.symm, fun later hkeeps hs => ?_⟩
        obtain ⟨zs, hzs, hle, htake⟩ := hkeeps.stores (Nat.add_pos_right _ hs) hys
        have hoffset : ((xs.length : Int)).toNat = xs.length := Int.toNat_natCast _
        rw [hoffset] at hle htake ⊢
        rw [hzs.read hs hle]
        have hpart : (zs.drop xs.length).take s.bytes.length
            = (zs.take (xs.length + s.bytes.length)).drop xs.length := by
          rw [List.drop_take, Nat.add_sub_cancel_left]
        rw [hpart, htake, ← List.length_append, List.take_length, List.drop_left]
  · -- nothing is pushed where the block was freed
    obtain ⟨⟨answer, last⟩, t, hstep, hret⟩ := AllocM.bind_eq_ok.mp hpush
    cases hret
    obtain ⟨⟨status, last⟩, t', hrun, hret⟩ := AllocM.bind_eq_ok.mp hstep
    cases hret
    have hstatus := (dbufPush_freed hb hrun).2
    exact absurd (hstatus ▸ hok) (by decide)

/-- Another byte is pushed behind the one of `oneOfThree`, and the buffer is
grown twice for that, once by the push itself. -/
theorem dbufPush_stays_grown : ∃ pushed later : Dbuf,
    (dbufCall (.stack (.push (some ⟨[8], by decide⟩))) (some oneOfThree)).run []
      = .ok ((1, some pushed), []) ∧
    (dbufCall .grow (some pushed)).run [] = .ok ((0, some later), []) ∧
    later.b.read 1 1 = .ok [some 8] := by
  have hroom : (dbufMakeRoom oneOfThree 1 2).run [] =
      .ok ((0, some { b := .live [some 7, none, none, none, none, none], n := 6, top := 1 }), []) :=
    rfl
  have hpush : (dbufPush (some oneOfThree) (some ⟨[8], by decide⟩)).run [] = .ok ((1,
      some { b := .live [some 7, some 8, none, none, none, none], n := 6, top := 2 }), []) := by
    rw [dbufPush]
    show (dbufMakeRoom oneOfThree 1 2 >>= _).run [] = _
    rw [StateT.run_bind, hroom]
    rfl
  have hcall : (dbufCall (.stack (.push (some ⟨[8], by decide⟩))) (some oneOfThree)).run [] =
      .ok ((1, some { b := .live [some 7, some 8, none, none, none, none], n := 6, top := 2 }),
        []) := by
    rw [dbufCall, dbufStep, StateT.run_bind, StateT.run_bind, hpush]
    rfl
  have hgrow : (dbufCall .grow
      (some { b := .live [some 7, some 8, none, none, none, none], n := 6, top := 2 })).run [] =
      .ok ((0, some { b := .live ([some 7, some 8] ++ List.replicate 10 none), n := 12, top := 2 }),
        []) := rfl
  exact ⟨_, _, hcall, hgrow, (dbufPush_stays dbufReached_oneOfThree ⟨[8], by decide⟩ hcall
    (by decide)).2 _ (.call (.refl (le_refl 2)) hgrow (le_refl 2)) Nat.zero_lt_one⟩

end Jccl
